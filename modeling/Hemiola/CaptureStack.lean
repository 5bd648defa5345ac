import Mathlib.Data.Finset.Basic
import Hemiola.Hemiola

/-!
# Hemiola.CaptureStack

What the captured keys are for: a stack of keys, the newest last, with the shift and AltGr keys
captured along with them (`Stack`). `m_Captured` keeps it as an unordered map with the time of
each capture.

* `Stack.key`, `Stack.expire`: the stack's own account of a key and of a timer sweep.
* `StackOf`: the refinement relation. The stack holds the captured keys, in the order of their
  times.
* `stackOf_addKey`, `stackOf_sweep`: a key number and a sweep keep it.
* `captured_refines`: every run of `addKey` calls and sweeps is a run of the stack.
-/

set_option linter.dupNamespace false

namespace Hemiola

open Lib KeyTable

/-- The captured keys that are no modifiers, in the order of their last capture; the captured
shift and AltGr keys; and the modifiers that suspend capture. -/
structure Stack where
  recent : List Nat
  shifts : Finset Nat
  held : Finset Nat
deriving DecidableEq

namespace Stack

def empty : Stack := ⟨[], ∅, ∅⟩

/-- Take the last key off; the last one of all takes the shift and AltGr keys with it. -/
def pop (s : Stack) : Stack :=
  if s.recent = [] then s
  else { s with recent := s.recent.dropLast,
                shifts := if s.recent.dropLast = [] then ∅ else s.shifts }

def key (s : Stack) (k : Nat) : Stack :=
  if k = keyReserved then s
  else if Hemiola.isTracked k then
    { s with held := if k ∈ s.held then s.held.erase k else insert k s.held }
  else if s.held ≠ ∅ then s
  else if k = keySpace ∨ k = keyEnter then { s with recent := [], shifts := ∅ }
  else if k = keyBackspace then s.pop
  else if k = keyRightAlt ∨ k = keyLeftShift ∨ k = keyRightShift then
    { s with shifts := insert k s.shifts }
  else { s with recent := s.recent.erase k ++ [k] }

/-- A sweep takes the expired keys away and keeps the order of the rest. -/
def expire (s : Stack) (expired : Finset Nat) : Stack :=
  { s with recent := s.recent.filter (· ∉ expired), shifts := s.shifts \ expired }

end Stack

/-- What happens to the stack: a key number, or a sweep in which the keys in `expired` expire. -/
inductive StackOp where
  | key (k : Nat)
  | expire (expired : Finset Nat)

def Stack.step (s : Stack) : StackOp → Stack
  | .key k => s.key k
  | .expire expired => s.expire expired

namespace Hemiola

/-- The captured keys at least the threshold old when the sweep examines them. -/
def expired (this : Hemiola) (now : Nat → Int) : Finset Nat :=
  ((this.mCaptured.entries.filter (isExpired now)).map Prod.fst).toFinset

/-- What an operation means for the stack. -/
def stackOp (this : Hemiola) : Op → StackOp
  | .addKey _ _ key => .key key
  | .sweep _ now => .expire (this.expired now)

def stackOps : Hemiola → List Op → List StackOp
  | _, [] => []
  | this, op :: ops => this.stackOp op :: stackOps (this.step op) ops

/-- The clock readings stored by a run, in order: one for each capture. -/
def captureTimes : Hemiola → List Op → List Int
  | _, [] => []
  | this, op :: ops =>
    match op with
    | .addKey _ now key =>
      if this.mModSequence = [] ∧ isCapturable key = true then
        now :: captureTimes (this.step op) ops
      else captureTimes (this.step op) ops
    | .sweep _ _ => captureTimes (this.step op) ops

end Hemiola

/-! ## The refinement relation -/

/-- `j` was captured before `k`. -/
def Older (captured : UnorderedMap Nat Int) (j k : Nat) : Prop :=
  ∃ s t, captured.find? j = some s ∧ captured.find? k = some t ∧ s < t

structure StackOf (this : Hemiola) (s : Stack) : Prop where
  held_nodup : this.mModSequence.Nodup
  held : ∀ k, k ∈ s.held ↔ k ∈ this.mModSequence
  recent : ∀ k, k ∈ s.recent ↔ k ∈ this.mCaptured.keys ∧ isModifier (.ofNat k) = false
  sorted : s.recent.Pairwise (Older this.mCaptured)
  shifts : ∀ k, k ∈ s.shifts ↔ k ∈ this.mCaptured.keys ∧ isModifier (.ofNat k) = true
  shiftKeys : ∀ k ∈ s.shifts, k = keyRightAlt ∨ k = keyLeftShift ∨ k = keyRightShift
  reserved : keyReserved ∉ s.recent

/-- Every stored time is after the epoch and no later than `clock`. -/
def Stamped (this : Hemiola) (clock : Int) : Prop :=
  ∀ k t, this.mCaptured.find? k = some t → 0 < t ∧ t ≤ clock

theorem stackOf_init : StackOf .init .empty where
  held_nodup := List.nodup_nil
  held := by simp [Stack.empty, Hemiola.init]
  recent := by simp [Stack.empty, Hemiola.init]
  sorted := List.Pairwise.nil
  shifts := by simp [Stack.empty, Hemiola.init]
  shiftKeys := by simp [Stack.empty]
  reserved := by simp [Stack.empty]

theorem StackOf.nodup {this : Hemiola} {s : Stack} (h : StackOf this s) : s.recent.Nodup := by
  refine h.sorted.imp fun hold heq => ?_
  obtain ⟨t, t', ht, ht', hlt⟩ := hold
  rw [heq, ht'] at ht
  cases ht
  exact absurd hlt (lt_irrefl _)

theorem StackOf.held_eq_empty {this : Hemiola} {s : Stack} (h : StackOf this s) :
    s.held = ∅ ↔ this.mModSequence = [] := by
  rw [Finset.eq_empty_iff_forall_notMem, List.eq_nil_iff_forall_not_mem]
  exact forall_congr' fun k => not_congr (h.held k)

/-! ## Keys -/

theorem stackOf_toggle {this : Hemiola} {s : Stack} (h : StackOf this s) (k : Nat) :
    StackOf { this with mModSequence := Toggle.toggle k this.mModSequence }
      { s with held := if k ∈ s.held then s.held.erase k else insert k s.held } := by
  refine { h with held_nodup := Toggle.nodup_toggle h.held_nodup k, held := ?_ }
  intro j
  rw [Toggle.mem_toggle h.held_nodup, ← h.held j]
  split_ifs with hk
  · rw [Finset.mem_erase]
    by_cases hj : j = k
    · simp [hj, hk]
    · simp [hj]
  · rw [Finset.mem_insert]
    by_cases hj : j = k
    · simp [hj, hk]
    · simp [hj]

theorem stackOf_clear {this : Hemiola} {s : Stack} (h : StackOf this s) :
    StackOf { this with mCaptured := .empty } { s with recent := [], shifts := ∅ } where
  held_nodup := h.held_nodup
  held := h.held
  recent := by simp
  sorted := List.Pairwise.nil
  shifts := by simp
  shiftKeys := by simp
  reserved := by simp

/-- Capturing a shift or AltGr key leaves the stack of the others alone. -/
theorem stackOf_capture_shift {this : Hemiola} {s : Stack} (h : StackOf this s) {k : Nat}
    (hk : k = keyRightAlt ∨ k = keyLeftShift ∨ k = keyRightShift) (now : Int) :
    StackOf { this with mCaptured := this.mCaptured.set k now }
      { s with shifts := insert k s.shifts } := by
  have hmod : isModifier (.ofNat k) = true := by
    rcases hk with rfl | rfl | rfl <;> decide
  have hne : ∀ j ∈ s.recent, j ≠ k := by
    intro j hj hjk
    rw [hjk, h.recent k, hmod] at hj
    cases hj.2
  refine { h with recent := ?_, sorted := ?_, shifts := ?_, shiftKeys := ?_ }
  · intro j
    rw [UnorderedMap.mem_keys_set, h.recent j]
    refine and_congr_left fun hj => ⟨.inr, fun hor => hor.resolve_left fun hjk => ?_⟩
    rw [hjk, hmod] at hj
    cases hj
  · refine h.sorted.imp_of_mem fun {i j} hi hj hold => ?_
    obtain ⟨t, t', ht, ht', hlt⟩ := hold
    exact ⟨t, t', by rw [UnorderedMap.find?_set, if_neg (hne i hi), ht],
      by rw [UnorderedMap.find?_set, if_neg (hne j hj), ht'], hlt⟩
  · intro j
    rw [Finset.mem_insert, UnorderedMap.mem_keys_set, h.shifts j, or_and_right]
    refine or_congr_left ⟨fun hjk => ⟨hjk, hjk ▸ hmod⟩, fun hjk => hjk.1⟩
  · intro j hj
    rcases Finset.mem_insert.mp hj with rfl | hj
    · exact hk
    · exact h.shiftKeys j hj

/-- Capturing a key that is no modifier, later than all before it, moves it to the end. -/
theorem stackOf_capture_key {this : Hemiola} {s : Stack} (h : StackOf this s) {clock now : Int}
    (hstamp : Stamped this clock) (hnow : clock < now) {k : Nat} (h0 : k ≠ keyReserved)
    (hmod : isModifier (.ofNat k) = false) :
    StackOf { this with mCaptured := this.mCaptured.set k now }
      { s with recent := s.recent.erase k ++ [k] } := by
  refine { h with recent := ?_, sorted := ?_, shifts := ?_, reserved := ?_ }
  · intro j
    rw [List.mem_append, h.nodup.mem_erase_iff, List.mem_singleton, UnorderedMap.mem_keys_set,
      h.recent j]
    by_cases hjk : j = k
    · simp [hjk, hmod]
    · simp [hjk]
  · refine List.pairwise_append.mpr ⟨?_, List.pairwise_singleton _ _, ?_⟩
    · refine (h.sorted.sublist List.erase_sublist).imp_of_mem fun {i j} hi hj hold => ?_
      obtain ⟨t, t', ht, ht', hlt⟩ := hold
      have hik := (h.nodup.mem_erase_iff.mp hi).1
      have hjk := (h.nodup.mem_erase_iff.mp hj).1
      exact ⟨t, t', by rw [UnorderedMap.find?_set, if_neg hik, ht],
        by rw [UnorderedMap.find?_set, if_neg hjk, ht'], hlt⟩
    · intro i hi j hj
      obtain ⟨hik, hmem⟩ := h.nodup.mem_erase_iff.mp hi
      obtain ⟨t, ht⟩ := UnorderedMap.mem_keys_iff.mp ((h.recent i).mp hmem).1
      have hle := (hstamp i t ht).2
      rw [List.mem_singleton.mp hj]
      exact ⟨t, now, by rw [UnorderedMap.find?_set, if_neg hik, ht],
        by rw [UnorderedMap.find?_set, if_pos rfl], by omega⟩
  · intro j
    rw [h.shifts j, UnorderedMap.mem_keys_set]
    refine and_congr_left fun hj => ⟨.inr, fun hor => hor.resolve_left fun hjk => ?_⟩
    rw [hjk, hmod] at hj
    cases hj
  · rw [List.mem_append, List.mem_singleton, not_or]
    exact ⟨fun hmem => h.reserved (List.mem_of_mem_erase hmem), Ne.symm h0⟩

/-! ## Backspace -/

section Delete

variable {this : Hemiola} {s : Stack} {rest : List Nat} {k : Nat}

theorem StackOf.mem_recent (h : StackOf this s) {e : Nat × Int} (he : e ∈ this.mCaptured.entries)
    (hmod : isModifier (.ofNat e.1) = false) : e.1 ∈ s.recent :=
  (h.recent e.1).mpr ⟨List.mem_map_of_mem he, hmod⟩

theorem StackOf.last_not_mem (h : StackOf this s) (hlast : s.recent = rest ++ [k]) :
    k ∉ rest := by
  have hnodup := h.nodup
  rw [hlast, List.nodup_append] at hnodup
  exact fun hmem => hnodup.2.2 k hmem k (List.mem_singleton.mpr rfl) rfl

/-- Without its last key the stack is that of the captured keys without it. -/
theorem StackOf.mem_rest (h : StackOf this s) (hlast : s.recent = rest ++ [k]) (j : Nat) :
    j ∈ rest ↔ j ∈ (this.mCaptured.erase k).keys ∧ isModifier (.ofNat j) = false := by
  have hj := h.recent j
  rw [hlast, List.mem_append, List.mem_singleton] at hj
  rw [UnorderedMap.mem_keys_erase, and_right_comm, ← hj]
  constructor
  · intro hmem
    exact ⟨.inl hmem, fun hjk => h.last_not_mem hlast (hjk ▸ hmem)⟩
  · intro hor
    exact hor.1.resolve_right hor.2

theorem StackOf.newest_none (h : StackOf this s) (hnil : s.recent = []) (ord : KeyOrder) :
    ((ord.list this.mCaptured).foldl Hemiola.newest (keyReserved, 0)).1 = keyReserved := by
  obtain ⟨_, _, hfound⟩ := Hemiola.newest_spec (ord.list this.mCaptured) (keyReserved, 0)
  rcases hfound with hstart | ⟨hmem, hmod, _⟩
  · rw [hstart]
  · have hrec := h.mem_recent ((ord.mem_list _).mp hmem) hmod
    rw [hnil] at hrec
    cases hrec

/-- The newest key found by the scan of `deleteKey` is the last one of the stack. -/
theorem StackOf.newest_last (h : StackOf this s) {clock : Int} (hstamp : Stamped this clock)
    (hlast : s.recent = rest ++ [k]) (ord : KeyOrder) :
    ((ord.list this.mCaptured).foldl Hemiola.newest (keyReserved, 0)).1 = k := by
  have hk : k ∈ s.recent := hlast ▸ List.mem_concat_self
  obtain ⟨hkeys, hkmod⟩ := (h.recent k).mp hk
  obtain ⟨t, ht⟩ := UnorderedMap.mem_keys_iff.mp hkeys
  obtain ⟨_, hmax, hfound⟩ := Hemiola.newest_spec (ord.list this.mCaptured) (keyReserved, 0)
  have hle := hmax (k, t) ((ord.mem_list _).mpr (UnorderedMap.find?_eq_some_iff.mp ht)) hkmod
  have hpos := (hstamp k t ht).1
  generalize (ord.list this.mCaptured).foldl Hemiola.newest (keyReserved, 0) = found
    at hle hfound ⊢
  rcases hfound with rfl | ⟨hmem, hmod, _⟩
  · exact absurd hle (by simpa using hpos)
  have hmem := (ord.mem_list _).mp hmem
  have hrec := h.mem_recent hmem hmod
  rw [hlast, List.mem_append, List.mem_singleton] at hrec
  refine hrec.resolve_left fun hrest => ?_
  -- any other key of the stack is older than the last one
  have hsorted := h.sorted
  rw [hlast] at hsorted
  obtain ⟨a, b, ha, hb, hlt⟩ :=
    (List.pairwise_append.mp hsorted).2.2 _ hrest _ (List.mem_singleton.mpr rfl)
  rw [UnorderedMap.find?_eq_some_iff.mpr hmem] at ha
  rw [ht] at hb
  cases ha
  cases hb
  simp only at hle
  omega

/-- The keys left without the last one are all modifiers when the stack has no other. -/
theorem StackOf.allModifiers_iff (h : StackOf this s) (hlast : s.recent = rest ++ [k])
    (ord : KeyOrder) :
    (ord.list (this.mCaptured.erase k)).all (fun e => isModifier (.ofNat e.1)) = true ↔
      rest = [] := by
  rw [List.all_eq_true, List.eq_nil_iff_forall_not_mem]
  constructor
  · intro hall j hj
    obtain ⟨hkeys, hmod⟩ := (h.mem_rest hlast j).mp hj
    obtain ⟨t, ht⟩ := UnorderedMap.mem_keys_iff.mp hkeys
    have hmod' := hall (j, t) ((ord.mem_list _).mpr (UnorderedMap.find?_eq_some_iff.mp ht))
    rw [hmod] at hmod'
    cases hmod'
  · intro hnil e he
    by_contra hmod
    have hkeys : e.1 ∈ (this.mCaptured.erase k).keys :=
      List.mem_map_of_mem ((ord.mem_list _).mp he)
    exact hnil e.1 ((h.mem_rest hlast e.1).mpr ⟨hkeys, Bool.eq_false_of_not_eq_true hmod⟩)

theorem stackOf_erase (h : StackOf this s) (hlast : s.recent = rest ++ [k]) :
    StackOf { this with mCaptured := this.mCaptured.erase k } { s with recent := rest } := by
  have hnotmem := h.last_not_mem hlast
  have hsub : rest.Sublist s.recent := hlast ▸ List.sublist_append_left rest [k]
  have hk : k ∈ s.recent := hlast ▸ List.mem_concat_self
  have hkmod : isModifier (.ofNat k) = false := ((h.recent k).mp hk).2
  refine { h with recent := h.mem_rest hlast, sorted := ?_, shifts := ?_, reserved := ?_ }
  · refine (h.sorted.sublist hsub).imp_of_mem fun {i j} hi hj hold => ?_
    obtain ⟨t, t', ht, ht', hlt⟩ := hold
    have hik : i ≠ k := fun he => hnotmem (he ▸ hi)
    have hjk : j ≠ k := fun he => hnotmem (he ▸ hj)
    exact ⟨t, t', by rw [UnorderedMap.find?_erase, if_neg hik, ht],
      by rw [UnorderedMap.find?_erase, if_neg hjk, ht'], hlt⟩
  · intro j
    rw [h.shifts j, UnorderedMap.mem_keys_erase]
    refine and_congr_left fun hj => ⟨fun hmem => ⟨hmem, fun hjk => ?_⟩, And.left⟩
    rw [hjk, hkmod] at hj
    cases hj
  · exact fun hmem => h.reserved (hsub.subset hmem)

theorem stackOf_delete (h : StackOf this s) {clock : Int} (hstamp : Stamped this clock)
    (ord : KeyOrder) : StackOf (this.deleteKey ord) s.pop := by
  rcases List.eq_nil_or_concat s.recent with hnil | ⟨rest, k, hlast⟩
  · have hsame : this.deleteKey ord = this := by
      simp only [Hemiola.deleteKey]
      rw [if_pos (h.newest_none hnil ord)]
    rw [hsame, Stack.pop, if_pos hnil]
    exact h
  · rw [List.concat_eq_append] at hlast
    have hne : s.recent ≠ [] := by rw [hlast]; exact List.append_ne_nil_of_right_ne_nil _ (by simp)
    have hk : k ∈ s.recent := hlast ▸ List.mem_concat_self
    have h0 : k ≠ keyReserved := fun he => h.reserved (he ▸ hk)
    have hrest : s.recent.dropLast = rest := by rw [hlast, List.dropLast_concat]
    simp only [Hemiola.deleteKey, h.newest_last hstamp hlast ord, if_neg h0, Stack.pop,
      if_neg hne, hrest]
    by_cases hnil : rest = []
    · rw [if_pos ((h.allModifiers_iff hlast ord).mpr hnil), if_pos hnil, hnil]
      exact stackOf_clear h
    · rw [if_neg fun hall => hnil ((h.allModifiers_iff hlast ord).mp hall), if_neg hnil]
      exact stackOf_erase h hlast

end Delete

/-! ## The whole of `addKey` -/

theorem stackOf_addKey {this : Hemiola} {s : Stack} (h : StackOf this s) {clock : Int}
    (hstamp : Stamped this clock) (ord : KeyOrder) (now : Int) (key : Nat)
    (hnow : this.mModSequence = [] → Hemiola.isCapturable key = true → clock < now) :
    StackOf (this.addKey ord now key) (s.key key) := by
  have hspec := Hemiola.addKey_spec this ord now key
  generalize this.addKey ord now key = this' at hspec ⊢
  cases hspec with
  | release hkey => rw [Stack.key, if_pos hkey]; exact h
  | toggle htracked =>
    have h0 : key ≠ keyReserved := by
      rintro rfl
      rw [Hemiola.isTracked_reserved] at htracked; cases htracked
    rw [Stack.key, if_neg h0, if_pos htracked]
    exact stackOf_toggle h key
  | suspended htracked hmods =>
    have hheld : s.held ≠ ∅ := fun he => hmods (h.held_eq_empty.mp he)
    simp only [Stack.key, htracked, Bool.false_eq_true, if_false, if_pos hheld, ite_self]
    exact h
  | clear hmods hkey =>
    have hheld : s.held = ∅ := h.held_eq_empty.mpr hmods
    have h0 : key ≠ keyReserved ∧ Hemiola.isTracked key = false := by
      rcases hkey with rfl | rfl <;> decide
    simp only [Stack.key, if_neg h0.1, h0.2, hheld, Bool.false_eq_true, if_false, ne_eq,
      not_true_eq_false, if_pos hkey]
    exact hheld ▸ stackOf_clear h
  | delete hmods hkey =>
    have hheld : s.held = ∅ := h.held_eq_empty.mpr hmods
    have hkeys : keyBackspace ≠ keyReserved ∧ Hemiola.isTracked keyBackspace = false ∧
        ¬ (keyBackspace = keySpace ∨ keyBackspace = keyEnter) := by decide
    subst hkey
    simp only [Stack.key, if_neg hkeys.1, hkeys.2.1, hheld, Bool.false_eq_true, if_false, ne_eq,
      not_true_eq_false, if_neg hkeys.2.2, if_true]
    exact stackOf_delete h hstamp ord
  | capture hmods hkey =>
    have hheld : s.held = ∅ := h.held_eq_empty.mpr hmods
    obtain ⟨h0, htracked, hspace, henter, hback⟩ := Hemiola.isCapturable_iff.mp hkey
    have hblank : ¬ (key = keySpace ∨ key = keyEnter) := not_or.mpr ⟨hspace, henter⟩
    simp only [Stack.key, if_neg h0, htracked, hheld, Bool.false_eq_true, if_false, ne_eq,
      not_true_eq_false, if_neg hblank, if_neg hback]
    split_ifs with hshift
    · exact hheld ▸ stackOf_capture_shift h hshift now
    · have hmod : isModifier (.ofNat key) = false := by
        by_contra hmod
        have := Hemiola.isTracked_iff.mpr ⟨Bool.eq_true_of_not_eq_false hmod, hshift⟩
        rw [htracked] at this; cases this
      exact hheld ▸ stackOf_capture_key h hstamp (hnow hmods hkey) h0 hmod

/-! ## Sweeps -/

theorem mem_expired {this : Hemiola} {now : Nat → Int} {k : Nat} :
    k ∈ this.expired now ↔
      ∃ t, this.mCaptured.find? k = some t ∧ Hemiola.isExpired now (k, t) = true := by
  rw [Hemiola.expired, List.mem_toFinset, List.mem_map]
  constructor
  · intro h
    obtain ⟨⟨k', t⟩, he, rfl⟩ := h
    obtain ⟨hmem, hx⟩ := List.mem_filter.mp he
    exact ⟨t, UnorderedMap.find?_eq_some_iff.mpr hmem, hx⟩
  · intro h
    obtain ⟨t, ht, hx⟩ := h
    exact ⟨(k, t), List.mem_filter.mpr ⟨UnorderedMap.find?_eq_some_iff.mp ht, hx⟩, rfl⟩

theorem sweep_find?_iff {this : Hemiola} {ord : KeyOrder} {now : Nat → Int} {k : Nat} {t : Int} :
    (this.sweep ord now).2.mCaptured.find? k = some t ↔
      this.mCaptured.find? k = some t ∧ k ∉ this.expired now := by
  rw [Hemiola.sweep_find?_eq_some, mem_expired]
  refine and_congr_right fun ht => ?_
  rw [ht]
  constructor
  · intro hx h
    obtain ⟨t', ht', hx'⟩ := h
    cases ht'
    rw [hx] at hx'; cases hx'
  · intro h
    by_contra hx
    exact h ⟨t, rfl, Bool.eq_true_of_not_eq_false hx⟩

theorem sweep_keys {this : Hemiola} {ord : KeyOrder} {now : Nat → Int} {k : Nat} :
    k ∈ (this.sweep ord now).2.mCaptured.keys ↔
      k ∈ this.mCaptured.keys ∧ k ∉ this.expired now := by
  simp only [UnorderedMap.mem_keys_iff, sweep_find?_iff, exists_and_right]

theorem stackOf_sweep {this : Hemiola} {s : Stack} (h : StackOf this s) (ord : KeyOrder)
    (now : Nat → Int) : StackOf (this.sweep ord now).2 (s.expire (this.expired now)) := by
  refine { held_nodup := h.held_nodup, held := h.held, recent := ?_, sorted := ?_, shifts := ?_,
           shiftKeys := ?_, reserved := ?_ }
  · intro k
    simp only [Stack.expire, List.mem_filter, decide_eq_true_eq, sweep_keys, h.recent k]
    exact and_right_comm
  · refine (h.sorted.sublist List.filter_sublist).imp_of_mem fun {i j} hi hj hold => ?_
    obtain ⟨t, t', ht, ht', hlt⟩ := hold
    have hi := of_decide_eq_true (List.mem_filter.mp hi).2
    have hj := of_decide_eq_true (List.mem_filter.mp hj).2
    exact ⟨t, t', sweep_find?_iff.mpr ⟨ht, hi⟩, sweep_find?_iff.mpr ⟨ht', hj⟩, hlt⟩
  · intro k
    simp only [Stack.expire, Finset.mem_sdiff, sweep_keys, h.shifts k]
    exact and_right_comm
  · intro k hk
    exact h.shiftKeys k (Finset.mem_sdiff.mp hk).1
  · exact fun hmem => h.reserved (List.mem_filter.mp hmem).1

/-! ## Runs -/

theorem Stamped.mono {this : Hemiola} {clock clock' : Int} (h : Stamped this clock)
    (hle : clock ≤ clock') : Stamped this clock' :=
  fun k t ht => ⟨(h k t ht).1, (h k t ht).2.trans hle⟩

theorem stamped_addKey {this : Hemiola} {clock now : Int} (h : Stamped this clock)
    (hpos : 0 < now) (hle : clock ≤ now) (ord : KeyOrder) (key : Nat) :
    Stamped (this.addKey ord now key) now := by
  have hmono := h.mono hle
  have hspec := Hemiola.addKey_spec this ord now key
  generalize this.addKey ord now key = this' at hspec ⊢
  cases hspec with
  | release | toggle | suspended => exact hmono
  | clear => intro k t ht; cases ht
  | delete => exact fun k t ht => hmono k t (Hemiola.deleteKey_find? ht)
  | capture =>
    intro k t ht
    rw [UnorderedMap.find?_set] at ht
    split_ifs at ht with hk
    · cases ht; exact ⟨hpos, le_refl now⟩
    · exact hmono k t ht

theorem stamped_addKey_of_not_capture {this : Hemiola} {clock : Int} (h : Stamped this clock)
    (ord : KeyOrder) (now : Int) (key : Nat)
    (hno : ¬ (this.mModSequence = [] ∧ Hemiola.isCapturable key = true)) :
    Stamped (this.addKey ord now key) clock := by
  have hspec := Hemiola.addKey_spec this ord now key
  generalize this.addKey ord now key = this' at hspec ⊢
  cases hspec with
  | release | toggle | suspended => exact h
  | clear => intro k t ht; cases ht
  | delete => exact fun k t ht => h k t (Hemiola.deleteKey_find? ht)
  | capture hmods hkey => exact absurd ⟨hmods, hkey⟩ hno

theorem stackOf_run {this : Hemiola} {s : Stack} (h : StackOf this s) {clock : Int}
    (hclock : 0 ≤ clock) (hstamp : Stamped this clock) (ops : List Hemiola.Op)
    (hinc : (clock :: Hemiola.captureTimes this ops).Pairwise (· < ·)) :
    StackOf (this.run ops) ((Hemiola.stackOps this ops).foldl Stack.step s) := by
  induction ops generalizing this s clock with
  | nil => exact h
  | cons op ops ih =>
    rw [Hemiola.run_cons]
    cases op with
    | addKey ord now key =>
      simp only [Hemiola.captureTimes] at hinc
      simp only [Hemiola.stackOps, Hemiola.stackOp, List.foldl_cons, Stack.step]
      split_ifs at hinc with hcap
      · obtain ⟨hlt, hinc⟩ := List.pairwise_cons.mp hinc
        have hnow : clock < now := hlt now List.mem_cons_self
        exact ih (stackOf_addKey h hstamp ord now key fun _ _ => hnow) (by omega)
          (stamped_addKey hstamp (by omega) (by omega) ord key) hinc
      · exact ih (stackOf_addKey h hstamp ord now key fun hm hk => absurd ⟨hm, hk⟩ hcap) hclock
          (stamped_addKey_of_not_capture hstamp ord now key hcap) hinc
    | sweep ord now =>
      exact ih (stackOf_sweep h ord now) hclock
        (fun k t ht => hstamp k t (sweep_find?_iff.mp ht).1) hinc

/-- **The captured keys are a stack.** In every run of `addKey` calls and timer sweeps whose clock
readings at the captures are after the epoch and increase, the captured keys are those of the
stack that goes through the same keys and expiries: the keys that are no modifiers stand in it in
the order of their times, none twice, and the modifiers captured are its shift and AltGr keys. -/
theorem captured_refines (ops : List Hemiola.Op)
    (hclock : (0 :: Hemiola.captureTimes .init ops).Pairwise (· < ·)) :
    let stack := (Hemiola.stackOps .init ops).foldl Stack.step .empty
    StackOf (Hemiola.init.run ops) stack ∧ stack.recent.Nodup :=
  have h := stackOf_run stackOf_init (le_refl 0) (fun k t ht => by cases ht) ops hclock
  ⟨h, h.nodup⟩

/-- A shifted `A`, a `B`, a Backspace, and a sweep in which `A` has expired. -/
theorem captured_refines_backspace :
    let ord := UnorderedMap.Order.stored Nat Int
    let ops := [.addKey ord 1 keyLeftShift, .addKey ord 2 keyA, .addKey ord 3 keyB,
      .addKey ord 4 keyBackspace, .sweep ord fun _ => Hemiola.mTimeThreshold + 2]
    (0 :: Hemiola.captureTimes .init ops).Pairwise (· < ·) ∧
    StackOf (Hemiola.init.run ops) .empty := by
  intro ord ops
  have hclock : (0 :: Hemiola.captureTimes .init ops).Pairwise (· < ·) := by decide
  exact ⟨hclock, (captured_refines ops hclock).1⟩

end Hemiola
