import Mathlib.Algebra.Ring.Parity
import Mathlib.Data.List.Dedup
import Mathlib.Data.List.Induction

/-!
# Lib.Toggle

A list that elements are entered in and taken out of: `toggle a` takes `a` out when it is there
and appends it when it is not. `toggleIf p` does so for the elements that `p` selects and leaves
the list alone for the others.

* `mem_toggle`, `nodup_toggle`: what `toggle` does to a list without duplicates.
* `foldl_toggleIf`: from the empty list, what is left of a series of elements are the selected
  ones that came an odd number of times, by their last coming.
* `pairwise_later`: the meaning of that order.
-/

namespace Lib
namespace Toggle

variable {α : Type*} [DecidableEq α]

def toggle (a : α) (l : List α) : List α := if a ∈ l then l.erase a else l ++ [a]

def toggleIf (p : α → Bool) (l : List α) (a : α) : List α := if p a then toggle a l else l

theorem mem_toggle {l : List α} (hnd : l.Nodup) (b a : α) :
    b ∈ toggle a l ↔ (b = a ↔ b ∉ l) := by
  unfold toggle
  split_ifs with ha
  · rw [hnd.mem_erase_iff]
    by_cases hb : b = a
    · simp [hb, ha]
    · simp [hb]
  · rw [List.mem_append, List.mem_singleton]
    by_cases hb : b = a
    · simp [hb, ha]
    · simp [hb]

theorem nodup_toggle {l : List α} (hnd : l.Nodup) (a : α) : (toggle a l).Nodup := by
  unfold toggle
  split_ifs with ha
  · exact hnd.erase a
  · refine List.nodup_append.mpr ⟨hnd, List.nodup_singleton a, fun b hb c hc hbc => ?_⟩
    rw [hbc, List.mem_singleton.mp hc] at hb
    exact ha hb

theorem toggle_ne (l : List α) (a : α) : toggle a l ≠ l := by
  intro h
  have hlength := congrArg List.length h
  unfold toggle at hlength
  split_ifs at hlength with ha
  · have hpos := List.length_pos_of_mem ha
    rw [List.length_erase_of_mem ha] at hlength
    omega
  · rw [List.length_append, List.length_singleton] at hlength
    omega

/-- The selected elements of the series that came an odd number of times, by their last coming. -/
def odd (p : α → Bool) (series : List α) : List α :=
  series.dedup.filter fun a => p a && decide (Odd (series.count a))

/-- The last coming of `b` in the series is later than that of `a`. -/
def Later (series : List α) (a b : α) : Prop :=
  ∃ before after, series = before ++ a :: after ∧ a ∉ after ∧ b ∈ after

theorem mem_odd {p : α → Bool} {series : List α} {a : α} :
    a ∈ odd p series ↔ p a = true ∧ Odd (series.count a) := by
  simp only [odd, List.mem_filter, List.mem_dedup, Bool.and_eq_true, decide_eq_true_eq]
  refine and_iff_right_of_imp fun h => List.count_pos_iff.mp ?_
  obtain ⟨n, hn⟩ := h.2
  omega

theorem nodup_odd (p : α → Bool) (series : List α) : (odd p series).Nodup :=
  series.nodup_dedup.filter _

/-! ## The order -/

omit [DecidableEq α] in
theorem Later.cons {series : List α} {a b : α} (h : Later series a b) (c : α) :
    Later (c :: series) a b := by
  obtain ⟨before, after, rfl, ha, hb⟩ := h
  exact ⟨c :: before, after, rfl, ha, hb⟩

theorem pairwise_later (series : List α) : series.dedup.Pairwise (Later series) := by
  induction series with
  | nil => exact List.Pairwise.nil
  | cons a series ih =>
    have htail : series.dedup.Pairwise (Later (a :: series)) := ih.imp fun h => h.cons a
    by_cases ha : a ∈ series
    · rw [List.dedup_cons_of_mem ha]
      exact htail
    · rw [List.dedup_cons_of_notMem ha, List.pairwise_cons]
      refine ⟨fun b hb => ?_, htail⟩
      exact ⟨[], series, rfl, ha, List.mem_dedup.mp hb⟩

theorem pairwise_odd (p : α → Bool) (series : List α) :
    (odd p series).Pairwise (Later series) :=
  (pairwise_later series).sublist List.filter_sublist

/-! ## One more element -/

/-- One more element goes to the end, whether or not it came before. -/
theorem dedup_concat (series : List α) (a : α) :
    (series ++ [a]).dedup = series.dedup.filter (· != a) ++ [a] := by
  induction series with
  | nil => rfl
  | cons b series ih =>
    rw [List.cons_append, List.dedup_cons, List.dedup_cons, ih]
    by_cases hb : b ∈ series
    · simp [hb]
    · by_cases hab : b = a
      · simp [hab, hab ▸ hb]
      · simp [hb, hab]

theorem odd_count_concat (series : List α) (a : α) :
    Odd ((series ++ [a]).count a) ↔ ¬ Odd (series.count a) := by
  rw [List.count_append, List.count_singleton_self, Nat.odd_add_one]

/-- Of the other elements the same ones remain. -/
theorem odd_concat_split (p : α → Bool) (series : List α) (a : α) :
    odd p (series ++ [a]) = (odd p series).filter (· != a) ++
      if p a = true ∧ ¬ Odd (series.count a) then [a] else [] := by
  have hother : (series.dedup.filter (· != a)).filter
        (fun b => p b && decide (Odd ((series ++ [a]).count b))) =
      (odd p series).filter (· != a) := by
    rw [odd, List.filter_comm, List.filter_filter, List.filter_filter]
    refine List.filter_congr fun b _ => ?_
    by_cases hne : b = a
    · simp [hne]
    · rw [List.count_append, List.count_singleton, if_neg (by simpa using Ne.symm hne),
        Nat.add_zero]
  rw [odd, dedup_concat, List.filter_append, hother, List.filter_singleton]
  simp only [Bool.cond_eq_ite, Bool.and_eq_true, decide_eq_true_eq, odd_count_concat]

theorem odd_concat (p : α → Bool) (series : List α) (a : α) :
    odd p (series ++ [a]) = toggleIf p (odd p series) a := by
  have habsent : a ∉ odd p series → (odd p series).filter (· != a) = odd p series := by
    intro hmem
    refine List.filter_eq_self.mpr fun b hb => bne_iff_ne.mpr fun hba => hmem (hba ▸ hb)
  rw [odd_concat_split, toggleIf, toggle]
  by_cases hp : p a = true
  · by_cases hodd : Odd (series.count a)
    · have hmem : a ∈ odd p series := mem_odd.mpr ⟨hp, hodd⟩
      rw [if_neg fun h => h.2 hodd, if_pos hp, if_pos hmem, (nodup_odd p series).erase_eq_filter,
        List.append_nil]
    · have hmem : a ∉ odd p series := fun h => hodd (mem_odd.mp h).2
      rw [if_pos ⟨hp, hodd⟩, if_pos hp, if_neg hmem, habsent hmem]
  · have hmem : a ∉ odd p series := fun h => hp (mem_odd.mp h).1
    rw [if_neg fun h => hp h.1, if_neg hp, habsent hmem, List.append_nil]

theorem foldl_toggleIf (p : α → Bool) (series : List α) :
    series.foldl (toggleIf p) [] = odd p series := by
  induction series using List.reverseRecOn with
  | nil => rfl
  | append_singleton series a ih =>
    rw [List.foldl_concat, ih, odd_concat]

end Toggle
end Lib
