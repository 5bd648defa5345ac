import Mathlib.Data.List.Nodup
import Mathlib.Data.List.Perm.Basic

/-!
# Lib.FirstFit

A row of cells of which some are empty (`0`). `place u` scans from the left and stops at the first
cell that is `u` already or is empty, which it fills; it answers `true` when no cell would do.
`clear u` empties the first cell that is `u`. Neither moves a value to another cell, so the row
has holes.

* `place_overflow_iff`: `place` fails exactly on a row with no empty cell and no `u`.
* `place_perm`, `clear_used`: what the two do to the values in use.
* `place_getElem?`, `clear_getElem?`: every other value in use stays in its cell.
* `place_eq_set`, `clear_eq_set`: each changes one cell at most.
* `clear_place`: `clear u` takes back what `place u` did.
* `place_nodup_iff`: `place u` keeps the values in use distinct exactly when `u` does not stand
  behind an empty cell (`Shadowed`).
-/

namespace Lib
namespace FirstFit

variable {α : Type*} [Zero α]

/-- `u` stands behind an empty cell. -/
def Shadowed (u : α) (cs : List α) : Prop :=
  ∃ i j : Nat, i < j ∧ cs[i]? = some 0 ∧ cs[j]? = some u

section Shadowed

variable {u c : α} {cs : List α}

theorem not_shadowed_nil : ¬ Shadowed u ([] : List α) := by
  rintro ⟨i, j, _, h, _⟩
  simp at h

theorem shadowed_cons_zero : Shadowed u (0 :: cs) ↔ u ∈ cs := by
  constructor
  · rintro ⟨i, j, hij, _, hj⟩
    cases j with
    | zero => omega
    | succ j => exact List.mem_of_getElem? (by simpa using hj)
  · intro h
    obtain ⟨j, hj⟩ := List.mem_iff_getElem?.mp h
    exact ⟨0, j + 1, by omega, by simp, by simpa using hj⟩

theorem shadowed_cons (hc : c ≠ 0) : Shadowed u (c :: cs) ↔ Shadowed u cs := by
  constructor
  · rintro ⟨i, j, hij, hi, hj⟩
    cases i with
    | zero => simp at hi; exact absurd hi hc
    | succ i =>
      obtain ⟨j, rfl⟩ : ∃ k, j = k + 1 := ⟨j - 1, by omega⟩
      exact ⟨i, j, by omega, by simpa using hi, by simpa using hj⟩
  · rintro ⟨i, j, hij, hi, hj⟩
    exact ⟨i + 1, j + 1, by omega, by simpa using hi, by simpa using hj⟩

theorem Shadowed.mem (h : Shadowed u cs) : u ∈ cs := by
  obtain ⟨_, j, _, _, hj⟩ := h
  exact List.mem_of_getElem? hj

end Shadowed

variable [DecidableEq α]

/-- Put `u` in the first cell that holds it or is empty; `true` when there is none. -/
def place (u : α) : List α → List α × Bool
  | [] => ([], true)
  | c :: cs =>
    if c = u then (c :: cs, false)
    else if c = 0 then (u :: cs, false)
    else (c :: (place u cs).1, (place u cs).2)

/-- Empty the first cell that holds `u`. -/
def clear (u : α) : List α → List α
  | [] => []
  | c :: cs => if c = u then 0 :: cs else c :: clear u cs

/-- The values in use, from left to right. -/
def used (cs : List α) : List α := cs.filter (· ≠ 0)

section Place

variable {u v : α} {cs : List α}

@[simp] theorem place_length : (place u cs).1.length = cs.length := by
  induction cs with
  | nil => rfl
  | cons c cs ih =>
    simp only [place]
    split_ifs <;> simp [ih]

theorem place_overflow_iff : (place u cs).2 = true ↔ u ∉ cs ∧ (0 : α) ∉ cs := by
  induction cs with
  | nil => simp [place]
  | cons c cs ih =>
    simp only [place]
    split_ifs with hc h0
    · simp [hc]
    · simp [h0]
    · simp only [ih, List.mem_cons, not_or]
      constructor
      · rintro ⟨hu, hz⟩; exact ⟨⟨fun h => hc h.symm, hu⟩, fun h => h0 h.symm, hz⟩
      · rintro ⟨⟨_, hu⟩, _, hz⟩; exact ⟨hu, hz⟩

theorem place_of_overflow (h : (place u cs).2 = true) : (place u cs).1 = cs := by
  induction cs with
  | nil => rfl
  | cons c cs ih =>
    simp only [place] at h ⊢
    split_ifs at h ⊢ with hc h0
    rw [ih h]

theorem place_getElem? {i : Nat} (hv : v ≠ 0) (h : cs[i]? = some v) :
    (place u cs).1[i]? = some v := by
  induction cs generalizing i with
  | nil => simp at h
  | cons c cs ih =>
    simp only [place]
    split_ifs with hc h0
    · exact h
    · cases i with
      | zero => simp at h; exact absurd (h.symm.trans h0) hv
      | succ i => simpa using h
    · cases i with
      | zero => simpa using h
      | succ i => simpa using ih (by simpa using h)

end Place

section Used

variable {u v : α} {cs : List α}

@[simp] theorem used_nil : used ([] : List α) = [] := rfl

@[simp] theorem used_cons_zero : used (0 :: cs) = used cs := by simp [used]

theorem used_cons (h : u ≠ 0) : used (u :: cs) = u :: used cs := by simp [used, h]

@[simp] theorem mem_used : v ∈ used cs ↔ v ∈ cs ∧ v ≠ 0 := by simp [used]

theorem used_length_of_full (h : (0 : α) ∉ cs) : (used cs).length = cs.length := by
  rw [used, List.filter_eq_self.mpr]
  intro c hc
  simpa using fun h0 : c = 0 => h (h0 ▸ hc)

theorem used_eq_nil_iff : used cs = [] ↔ ∀ c ∈ cs, c = 0 := by
  simp [used, List.filter_eq_nil_iff]

/-- A fresh value goes to an empty cell and joins the values in use. -/
theorem place_perm (hu : u ≠ 0) (hcs : u ∉ cs) (h0 : (0 : α) ∈ cs) :
    (used (place u cs).1).Perm (u :: used cs) := by
  induction cs with
  | nil => simp at h0
  | cons c cs ih =>
    simp only [List.mem_cons, not_or] at hcs h0
    simp only [place, if_neg (Ne.symm hcs.1)]
    split_ifs with hc
    · subst hc
      rw [used_cons hu, used_cons_zero]
    · rw [used_cons hc, used_cons hc]
      have ih := ih hcs.2 (h0.resolve_left (Ne.symm hc))
      exact (ih.cons c).trans (List.Perm.swap u c _)

/-- `clear u` takes one `u` out of the values in use. -/
theorem clear_used (hu : u ≠ 0) : used (clear u cs) = (used cs).erase u := by
  induction cs with
  | nil => rfl
  | cons c cs ih =>
    simp only [clear]
    split_ifs with hc
    · subst hc
      rw [used_cons_zero, used_cons hu, List.erase_cons_head]
    · by_cases h0 : c = 0
      · subst h0
        rw [used_cons_zero, used_cons_zero, ih]
      · rw [used_cons h0, used_cons h0, ih, List.erase_cons_tail (by simpa using hc)]

@[simp] theorem clear_length : (clear u cs).length = cs.length := by
  induction cs with
  | nil => rfl
  | cons c cs ih =>
    simp only [clear]
    split_ifs <;> simp [ih]

theorem clear_getElem? {i : Nat} (hv : v ≠ u) (h : cs[i]? = some v) :
    (clear u cs)[i]? = some v := by
  induction cs generalizing i with
  | nil => simp at h
  | cons c cs ih =>
    simp only [clear]
    split_ifs with hc
    · cases i with
      | zero => simp at h; exact absurd (h.symm.trans hc) hv
      | succ i => simpa using h
    · cases i with
      | zero => simpa using h
      | succ i => simpa using ih (by simpa using h)

end Used

section Distinct

variable {u : α} {cs : List α}

/-- A value that stands in a cell of its own, before every empty cell, is found there. -/
theorem place_of_mem (hu : u ≠ 0) (hmem : u ∈ cs) (h : ¬ Shadowed u cs) :
    (place u cs) = (cs, false) := by
  induction cs with
  | nil => simp at hmem
  | cons c cs ih =>
    simp only [place]
    split_ifs with hc h0
    · rfl
    · subst h0
      have hmem := (List.mem_cons.mp hmem).resolve_left hu
      exact absurd (shadowed_cons_zero.mpr hmem) h
    · have hmem := (List.mem_cons.mp hmem).resolve_left (Ne.symm hc)
      rw [ih hmem (fun hs => h ((shadowed_cons h0).mpr hs))]

/-- A value behind an empty cell is put in that cell as well. -/
theorem place_shadowed (hu : u ≠ 0) (hnd : (used cs).Nodup) (h : Shadowed u cs) :
    (used (place u cs).1).Perm (u :: used cs) := by
  induction cs with
  | nil => exact absurd h not_shadowed_nil
  | cons c cs ih =>
    by_cases h0 : c = 0
    · subst h0
      simp only [place, if_neg (Ne.symm hu), if_true, used_cons hu, used_cons_zero]
      exact List.Perm.refl _
    · have h' := (shadowed_cons h0).mp h
      rw [used_cons h0, List.nodup_cons] at hnd
      have hc : c ≠ u := by
        rintro rfl
        exact hnd.1 (mem_used.mpr ⟨h'.mem, h0⟩)
      simp only [place, if_neg hc, if_neg h0, used_cons h0]
      exact ((ih hnd.2 h').cons c).trans (List.Perm.swap u c _)

/-- `place u` keeps the values in use distinct exactly when `u` is not behind an empty cell. -/
theorem place_nodup_iff (hu : u ≠ 0) (hnd : (used cs).Nodup) :
    (used (place u cs).1).Nodup ↔ ¬ Shadowed u cs := by
  constructor
  · intro h hs
    have h := (place_shadowed hu hnd hs).nodup_iff.mp h
    exact (List.nodup_cons.mp h).1 (mem_used.mpr ⟨hs.mem, hu⟩)
  · intro hs
    by_cases hmem : u ∈ cs
    · rw [place_of_mem hu hmem hs]; exact hnd
    · by_cases h0 : (0 : α) ∈ cs
      · refine (place_perm hu hmem h0).nodup_iff.mpr (List.nodup_cons.mpr ⟨?_, hnd⟩)
        simp [hmem]
      · rw [place_of_overflow (place_overflow_iff.mpr ⟨hmem, h0⟩)]; exact hnd

end Distinct

section Cells

variable {u : α} {cs : List α}

theorem place_eq_set (u : α) (cs : List α) :
    (place u cs).1 = cs ∨ ∃ i, cs[i]? = some 0 ∧ (place u cs).1 = cs.set i u := by
  induction cs with
  | nil => exact .inl rfl
  | cons c cs ih =>
    simp only [place]
    split_ifs with hc h0
    · exact .inl rfl
    · exact .inr ⟨0, by rw [h0, List.getElem?_cons_zero], rfl⟩
    · rcases ih with ih | ⟨i, hi, ih⟩
      · exact .inl (by rw [ih])
      · exact .inr ⟨i + 1, hi, by rw [ih, List.set_cons_succ]⟩

theorem place_overflow_iff_not_mem : (place u cs).2 = true ↔ u ∉ (place u cs).1 := by
  constructor
  · intro h
    rw [place_of_overflow h]
    exact (place_overflow_iff.mp h).1
  · intro h
    induction cs with
    | nil => rfl
    | cons c cs ih =>
      simp only [place] at h ⊢
      split_ifs at h ⊢ with hc h0
      · exact absurd (List.mem_cons.mpr (.inl hc.symm)) h
      · exact absurd List.mem_cons_self h
      · exact ih fun hmem => h (List.mem_cons_of_mem _ hmem)

theorem clear_of_not_mem (h : u ∉ cs) : clear u cs = cs := by
  induction cs with
  | nil => rfl
  | cons c cs ih =>
    obtain ⟨hc, hcs⟩ := not_or.mp (mt List.mem_cons.mpr h)
    rw [clear, if_neg (Ne.symm hc), ih hcs]

theorem clear_eq_set (h : u ∈ cs) : ∃ i, cs[i]? = some u ∧ clear u cs = cs.set i 0 := by
  induction cs with
  | nil => cases h
  | cons c cs ih =>
    simp only [clear]
    split_ifs with hc
    · exact ⟨0, by rw [hc, List.getElem?_cons_zero], rfl⟩
    · obtain ⟨i, hi, hset⟩ := ih ((List.mem_cons.mp h).resolve_left (Ne.symm hc))
      exact ⟨i + 1, hi, by rw [hset, List.set_cons_succ]⟩

theorem clear_count (hu : u ≠ 0) : (clear u cs).count u = cs.count u - 1 := by
  induction cs with
  | nil => rfl
  | cons c cs ih =>
    simp only [clear]
    split_ifs with hc
    · rw [hc, List.count_cons_self, List.count_cons_of_ne (Ne.symm hu), Nat.add_sub_cancel]
    · rw [List.count_cons_of_ne hc, List.count_cons_of_ne hc, ih]

theorem clear_place (hcs : u ∉ cs) (h : (place u cs).2 = false) :
    clear u (place u cs).1 = cs := by
  induction cs with
  | nil => rfl
  | cons c cs ih =>
    obtain ⟨hc, hcs⟩ := not_or.mp (mt List.mem_cons.mpr hcs)
    simp only [place, if_neg (Ne.symm hc)] at h ⊢
    split_ifs at h ⊢ with h0
    · rw [clear, if_pos rfl, h0]
    · rw [clear, if_neg (Ne.symm hc), ih hcs h]

end Cells

end FirstFit
end Lib
