import Mathlib.Data.List.Destutter
import Hemiola.Lib.FirstFit

/-!
# Lib.EdgeDecoder

A receiver of rows of cells that takes notice of what comes on only: it remembers the row received
last, and a row gives it those values in use that were in no cell of the row before (`rising`).

* `decode_used`: empty cells make no difference to it.
* `decode_singletons`: of a sequence of values sent one to a row, it gets the sequence with every
  run of equal values collapsed into one.
-/

namespace Lib
namespace EdgeDecoder

open FirstFit

variable {α : Type*} [Zero α] [DecidableEq α]

/-- The values in use in a row that were in no cell of the row before. -/
def rising (prev row : List α) : List α := (used row).dedup.filter (· ∉ prev)

/-- Everything received in a sequence of rows, `prev` being the row before them. -/
def decode : List α → List (List α) → List α
  | _, [] => []
  | prev, row :: rows => rising prev row ++ decode row rows

theorem rising_used (prev row : List α) : rising (used prev) (used row) = rising prev row := by
  have hidem : used (used row) = used row := List.filter_filter.trans (by simp [used])
  rw [rising, rising, hidem]
  apply List.filter_congr
  intro v hv
  have hv : v ≠ 0 := (mem_used.mp (List.mem_dedup.mp hv)).2
  simp [mem_used, hv]

theorem decode_used (prev : List α) (rows : List (List α)) :
    decode (used prev) (rows.map used) = decode prev rows := by
  induction rows generalizing prev with
  | nil => rfl
  | cons row rows ih => rw [List.map_cons, decode, decode, rising_used, ih]

theorem rising_singleton {u : α} (hu : u ≠ 0) (v : α) :
    rising [v] [u] = if v ≠ u then [u] else [] := by
  have hdedup : [u].dedup = [u] := List.dedup_eq_self.mpr (List.nodup_singleton u)
  rw [rising, used_cons hu, used_nil, hdedup, List.filter_singleton]
  by_cases h : v = u
  · simp [h]
  · simp [h, Ne.symm h]

/-- One value to a row, after a row with the one value `v`. -/
theorem decode_singletons_after (v : α) {us : List α} (hus : ∀ u ∈ us, u ≠ 0) :
    v :: decode [v] (us.map fun u => [u]) = us.destutter' (· ≠ ·) v := by
  induction us generalizing v with
  | nil => rfl
  | cons u us ih =>
    have hu : u ≠ 0 := hus u List.mem_cons_self
    have hus : ∀ w ∈ us, w ≠ 0 := fun w hw => hus w (List.mem_cons_of_mem u hw)
    rw [List.map_cons, decode, rising_singleton hu]
    by_cases h : v = u
    · rw [if_neg (not_not.mpr h), List.destutter'_cons_neg _ (not_not.mpr h), ← h]
      exact ih v hus
    · rw [if_pos h, List.destutter'_cons_pos _ h, ← ih u hus]
      rfl

theorem decode_singletons {us : List α} (hus : ∀ u ∈ us, u ≠ 0) :
    decode [] (us.map fun u => [u]) = us.destutter (· ≠ ·) := by
  cases us with
  | nil => rfl
  | cons u us =>
    obtain ⟨hu, hus⟩ := List.forall_mem_cons.mp hus
    rw [List.destutter_cons', ← decode_singletons_after u hus, List.map_cons, decode]
    simp [rising, used_cons hu]

end EdgeDecoder
end Lib
