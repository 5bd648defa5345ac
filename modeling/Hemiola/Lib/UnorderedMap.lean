import Mathlib.Data.List.Nodup
import Mathlib.Data.List.Perm.Basic
import Mathlib.Logic.Basic

/-!
# Lib.UnorderedMap

A map with at most one entry for each key, whose entries stand in no particular order.
`UnorderedMap` keeps them in a list and carries the proof that no key occurs twice, so that a
map with two values for a key cannot be built. What a loop over the map sees is an `Order`: any
listing of the entries, which may differ from one map to the next.

* `find?_eq_some_iff`: looking a key up finds exactly the entry stored for it.
* `find?_set`, `find?_erase`, `find?_subscript`: lookups after each operation.
* `set_eq_self_iff`: only entering the value a key has already changes nothing.
* `find?_foldl_set`: lookups in a map filled from a list of pairs.
* `find?_foldl_erase`: lookups after a loop that erases the entries meeting a condition.
* `Order.mem_list`, `Order.key_ne`: a loop sees every entry, and each key once.
-/

namespace Lib

@[ext] structure UnorderedMap (κ ν : Type*) where
  entries : List (κ × ν)
  nodup : (entries.map Prod.fst).Nodup
deriving DecidableEq

namespace UnorderedMap

variable {κ ν : Type*} [DecidableEq κ]

/-- The map with no entries; also what `clear` leaves. -/
def empty : UnorderedMap κ ν := ⟨[], List.nodup_nil⟩

def keys (m : UnorderedMap κ ν) : List κ := m.entries.map Prod.fst

def find? (m : UnorderedMap κ ν) (k : κ) : Option ν := m.entries.lookup k

/-- `count ( k ) > 0` -/
def contains (m : UnorderedMap κ ν) (k : κ) : Bool := (m.find? k).isSome

def erase (m : UnorderedMap κ ν) (k : κ) : UnorderedMap κ ν where
  entries := m.entries.filter fun e => e.1 ≠ k
  nodup := m.nodup.sublist (List.filter_sublist.map _)

/-- `m [k] = v`: an entry of `k` gets the new value where it stands. -/
def set (m : UnorderedMap κ ν) (k : κ) (v : ν) : UnorderedMap κ ν where
  entries :=
    if k ∈ m.keys then m.entries.map fun e => if e.1 = k then (k, v) else e
    else (k, v) :: m.entries
  nodup := by
    split_ifs with h
    · have hkey : Prod.fst ∘ (fun e : κ × ν => if e.1 = k then (k, v) else e) = Prod.fst := by
        funext e
        by_cases he : e.1 = k
        · simp [he]
        · simp [he]
      rw [List.map_map, hkey]
      exact m.nodup
    · exact List.nodup_cons.mpr ⟨h, m.nodup⟩

/-- `m [k]` read as a value: a missing key is first entered with the default `d`. -/
def subscript (m : UnorderedMap κ ν) (k : κ) (d : ν) : ν × UnorderedMap κ ν :=
  match m.find? k with
  | some v => (v, m)
  | none => (d, m.set k d)

/-! ## Lookups -/

theorem find?_eq_some_iff {m : UnorderedMap κ ν} {k : κ} {v : ν} :
    m.find? k = some v ↔ (k, v) ∈ m.entries := by
  obtain ⟨l, hl⟩ := m
  simp only [find?]
  induction l with
  | nil => simp
  | cons e l ih =>
    obtain ⟨k', v'⟩ := e
    simp only [List.map_cons, List.nodup_cons] at hl
    by_cases hk : k = k'
    · subst hk
      have hv : (k, v) ∉ l := fun h => hl.1 (List.mem_map_of_mem h)
      simp [hv, eq_comm]
    · have hk' : (k == k') = false := beq_eq_false_iff_ne.mpr hk
      simp only [List.lookup_cons, hk', List.mem_cons, Prod.mk.injEq, hk, false_and,
        false_or]
      exact ih hl.2

theorem find?_eq_none_iff {m : UnorderedMap κ ν} {k : κ} : m.find? k = none ↔ k ∉ m.keys := by
  constructor
  · intro h hk
    obtain ⟨⟨k', v⟩, he, rfl⟩ := List.mem_map.mp hk
    rw [find?_eq_some_iff.mpr he] at h
    cases h
  · intro h
    cases hf : m.find? k with
    | none => rfl
    | some v => exact absurd (List.mem_map_of_mem (find?_eq_some_iff.mp hf)) h

theorem contains_iff_find? {m : UnorderedMap κ ν} {k : κ} :
    m.contains k = true ↔ ∃ v, m.find? k = some v := Option.isSome_iff_exists

theorem contains_eq_false_iff {m : UnorderedMap κ ν} {k : κ} :
    m.contains k = false ↔ m.find? k = none :=
  Option.isSome_eq_false_iff.trans Option.isNone_iff_eq_none

theorem mem_keys_iff {m : UnorderedMap κ ν} {k : κ} : k ∈ m.keys ↔ ∃ v, m.find? k = some v := by
  rw [← Option.isSome_iff_exists, ← Option.ne_none_iff_isSome, Ne, find?_eq_none_iff, not_not]

theorem contains_iff {m : UnorderedMap κ ν} {k : κ} : m.contains k = true ↔ k ∈ m.keys := by
  rw [contains_iff_find?, mem_keys_iff]

@[simp] theorem find?_empty (k : κ) : (empty : UnorderedMap κ ν).find? k = none := rfl

omit [DecidableEq κ] in
@[simp] theorem keys_empty : (empty : UnorderedMap κ ν).keys = [] := rfl

theorem find?_erase (m : UnorderedMap κ ν) (k k' : κ) :
    (m.erase k).find? k' = if k' = k then none else m.find? k' := by
  split_ifs with h
  · rw [find?_eq_none_iff]
    simp [keys, erase, h]
  · ext v
    rw [find?_eq_some_iff, find?_eq_some_iff]
    simp [erase, h]

theorem mem_set {m : UnorderedMap κ ν} {k : κ} {v : ν} {e : κ × ν} :
    e ∈ (m.set k v).entries ↔ e = (k, v) ∨ e ∈ m.entries ∧ e.1 ≠ k := by
  simp only [set]
  split_ifs with h
  · rw [List.mem_map]
    constructor
    · intro he
      obtain ⟨e', he', heq⟩ := he
      split_ifs at heq with hk
      · exact .inl heq.symm
      · exact .inr ⟨heq ▸ he', heq ▸ hk⟩
    · intro he
      rcases he with rfl | ⟨he, hk⟩
      · obtain ⟨e', he', hk⟩ := List.mem_map.mp h
        exact ⟨e', he', if_pos hk⟩
      · exact ⟨e, he, if_neg hk⟩
  · rw [List.mem_cons]
    refine or_congr_right ⟨fun he => ⟨he, fun hk => h ?_⟩, And.left⟩
    exact hk ▸ List.mem_map_of_mem he

theorem find?_set (m : UnorderedMap κ ν) (k k' : κ) (v : ν) :
    (m.set k v).find? k' = if k' = k then some v else m.find? k' := by
  split_ifs with h
  · rw [find?_eq_some_iff, h]
    exact mem_set.mpr (.inl rfl)
  · ext w
    rw [find?_eq_some_iff, find?_eq_some_iff, mem_set]
    simp [h]

theorem set_eq_self_iff {m : UnorderedMap κ ν} {k : κ} {v : ν} :
    m.set k v = m ↔ m.find? k = some v := by
  constructor
  · intro h
    rw [← h, find?_set, if_pos rfl]
  · intro h
    have hmem := find?_eq_some_iff.mp h
    have hkey : k ∈ m.keys := List.mem_map_of_mem hmem
    have hsame : ∀ e ∈ m.entries, (if e.1 = k then (k, v) else e) = e := by
      intro e he
      split_ifs with hk
      · exact List.inj_on_of_nodup_map m.nodup hmem he hk.symm
      · rfl
    have hentries : (m.set k v).entries = m.entries := by
      simp only [set, if_pos hkey]
      exact (List.map_congr_left hsame).trans (List.map_id _)
    exact UnorderedMap.ext hentries

theorem mem_keys_erase {m : UnorderedMap κ ν} {k k' : κ} :
    k' ∈ (m.erase k).keys ↔ k' ∈ m.keys ∧ k' ≠ k := by
  simp only [mem_keys_iff, find?_erase]
  by_cases h : k' = k <;> simp [h]

theorem mem_keys_set {m : UnorderedMap κ ν} {k k' : κ} {v : ν} :
    k' ∈ (m.set k v).keys ↔ k' = k ∨ k' ∈ m.keys := by
  simp only [mem_keys_iff, find?_set]
  by_cases h : k' = k <;> simp [h]

theorem subscript_fst (m : UnorderedMap κ ν) (k : κ) (d : ν) :
    (m.subscript k d).1 = (m.find? k).getD d := by
  unfold subscript
  cases m.find? k <;> rfl

theorem find?_subscript (m : UnorderedMap κ ν) {k k' : κ} (d : ν) (h : k' ≠ k) :
    (m.subscript k d).2.find? k' = m.find? k' := by
  unfold subscript
  cases m.find? k with
  | some v => rfl
  | none => rw [find?_set, if_neg h]

theorem find?_subscript_self (m : UnorderedMap κ ν) (k : κ) (d : ν) :
    (m.subscript k d).2.find? k = some (m.subscript k d).1 := by
  unfold subscript
  cases h : m.find? k with
  | some v => exact h
  | none => rw [find?_set, if_pos rfl]

theorem find?_foldl_set {α : Type*} (key : α → κ) (val : α → ν) (l : List α)
    (hl : (l.map key).Nodup) (m : UnorderedMap κ ν) (k : κ) (v : ν) :
    (l.foldl (fun m e => m.set (key e) (val e)) m).find? k = some v ↔
      (∃ e ∈ l, key e = k ∧ val e = v) ∨ k ∉ l.map key ∧ m.find? k = some v := by
  induction l generalizing m with
  | nil => simp
  | cons e l ih =>
    rw [List.map_cons, List.nodup_cons] at hl
    rw [List.foldl_cons, ih hl.2, find?_set]
    by_cases hk : k = key e
    · subst hk
      simp only [hl.1, not_false_eq_true, true_and, if_true, Option.some.injEq, List.map_cons,
        List.mem_cons, not_true_eq_false, false_and, or_false]
      constructor
      · rintro (⟨e', he', hk, rfl⟩ | hv)
        · exact ⟨e', .inr he', hk, rfl⟩
        · exact ⟨e, .inl rfl, rfl, hv⟩
      · rintro ⟨e', rfl | he', hk, hv⟩
        · exact .inr hv
        · exact .inl ⟨e', he', hk, hv⟩
    · simp only [List.map_cons, List.mem_cons, hk, false_or]
      refine or_congr_left ⟨?_, ?_⟩
      · rintro ⟨e', he', h⟩
        exact ⟨e', .inr he', h⟩
      · rintro ⟨e', rfl | he', h⟩
        · exact absurd h.1.symm hk
        · exact ⟨e', he', h⟩

/-! ## Loops -/

/-- An order in which a loop visits the entries of a map. -/
structure Order (κ ν : Type*) where
  list : UnorderedMap κ ν → List (κ × ν)
  perm : ∀ m, (list m).Perm m.entries

/-- The order in which the entries are stored. -/
def Order.stored (κ ν : Type*) : Order κ ν := ⟨entries, fun _ => List.Perm.refl _⟩

/-- The opposite order. -/
def Order.reversed (κ ν : Type*) : Order κ ν :=
  ⟨fun m => m.entries.reverse, fun m => m.entries.reverse_perm⟩

section Order

variable (ord : Order κ ν) (m : UnorderedMap κ ν)

omit [DecidableEq κ] in
theorem Order.mem_list {e : κ × ν} : e ∈ ord.list m ↔ e ∈ m.entries := (ord.perm m).mem_iff

omit [DecidableEq κ] in
/-- A loop comes to each key once. -/
theorem Order.nodup_list : ((ord.list m).map Prod.fst).Nodup :=
  ((ord.perm m).map Prod.fst).nodup_iff.mpr m.nodup

variable {ord m}

omit [DecidableEq κ] in
theorem Order.key_ne {e : κ × ν} {seen rest : List (κ × ν)}
    (h : ord.list m = seen ++ e :: rest) : ∀ e' ∈ seen ++ rest, e'.1 ≠ e.1 := by
  have hnodup := ord.nodup_list m
  rw [h, List.map_append, List.map_cons, List.nodup_middle, ← List.map_append] at hnodup
  obtain ⟨hnot, _⟩ := List.nodup_cons.mp hnodup
  intro e' he' hkey
  rw [← hkey] at hnot
  exact hnot (List.mem_map_of_mem he')

end Order

theorem find?_foldl_erase (p : κ × ν → Bool) (l : List (κ × ν)) (m : UnorderedMap κ ν) (k : κ) :
    (l.foldl (fun m e => if p e then m.erase e.1 else m) m).find? k =
      if ∃ e ∈ l, e.1 = k ∧ p e = true then none else m.find? k := by
  induction l generalizing m with
  | nil => simp
  | cons e l ih =>
    rw [List.foldl_cons, ih]
    by_cases hl : ∃ e' ∈ l, e'.1 = k ∧ p e' = true
    · rw [if_pos hl, if_pos]
      obtain ⟨e', he', h⟩ := hl
      exact ⟨e', List.mem_cons_of_mem e he', h⟩
    · rw [if_neg hl]
      by_cases hp : p e = true
      · rw [if_pos hp, find?_erase]
        by_cases hk : k = e.1
        · rw [if_pos hk, if_pos ⟨e, List.mem_cons_self, hk.symm, hp⟩]
        · rw [if_neg hk, if_neg]
          rintro ⟨e', he', hk', hp'⟩
          rcases List.mem_cons.mp he' with rfl | he'
          · exact hk hk'.symm
          · exact hl ⟨e', he', hk', hp'⟩
      · rw [if_neg hp, if_neg]
        rintro ⟨e', he', hk', hp'⟩
        rcases List.mem_cons.mp he' with rfl | he'
        · exact hp hp'
        · exact hl ⟨e', he', hk', hp'⟩

end UnorderedMap
end Lib
