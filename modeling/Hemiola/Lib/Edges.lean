import Hemiola.Lib.EdgeDecoder
import Hemiola.Lib.Trace

/-!
# Lib.Edges

A receiver of rows of cells that takes notice of what comes on and of what goes off (`edges`), and
the machine that shows it a row after each step (`shown`).

* `edges_down`, `edges_up`, `edges_same`: two rows that differ in one value at most.
* `follow_sublist`: if no step shows more than the edges of its input, a run shows no more than
  the edges of its inputs, in their order.
* `follow_eq_iff`: and the run shows all of them exactly when every step does.
-/

namespace Lib
namespace EdgeDecoder

open FirstFit

section Rows

variable {α : Type*} [Zero α] [DecidableEq α] {prev row : List α} {u : α}

inductive Edge (α : Type*) where
  | down (a : α)
  | up (a : α)
deriving DecidableEq

/-- What went off and what came on between two rows. -/
def edges (prev row : List α) : List (Edge α) :=
  (rising row prev).map .up ++ (rising prev row).map .down

/-- All edges of a sequence of rows, `prev` being the row before them. -/
def follow : List α → List (List α) → List (Edge α)
  | _, [] => []
  | prev, row :: rows => edges prev row ++ follow row rows

theorem mem_rising : u ∈ rising prev row ↔ u ∈ row ∧ u ≠ 0 ∧ u ∉ prev := by
  simp [rising, mem_used, and_assoc]

theorem nodup_rising (prev row : List α) : (rising prev row).Nodup :=
  (List.nodup_dedup _).filter _

theorem rising_eq_nil (h : ∀ v, v ≠ 0 → v ∈ row → v ∈ prev) : rising prev row = [] := by
  refine List.eq_nil_iff_forall_not_mem.mpr fun v hv => ?_
  obtain ⟨hrow, h0, hprev⟩ := mem_rising.mp hv
  exact hprev (h v h0 hrow)

theorem rising_eq_singleton (hu : u ≠ 0) (hrow : u ∈ row) (hprev : u ∉ prev)
    (h : ∀ v, v ≠ 0 → v ∈ row → v = u ∨ v ∈ prev) : rising prev row = [u] := by
  have hmem : ∀ v, v ∈ rising prev row ↔ v ∈ [u] := by
    intro v
    rw [mem_rising, List.mem_singleton]
    constructor
    · rintro ⟨hv, h0, hnot⟩
      exact (h v h0 hv).resolve_right hnot
    · rintro rfl
      exact ⟨hrow, hu, hprev⟩
  exact List.perm_singleton.mp
    ((List.perm_ext_iff_of_nodup (nodup_rising prev row) (List.nodup_singleton u)).mpr hmem)

theorem edges_down (hu : u ≠ 0) (hprev : u ∉ prev)
    (h : ∀ v, v ≠ 0 → (v ∈ row ↔ v = u ∨ v ∈ prev)) : edges prev row = [.down u] := by
  have hoff : rising row prev = [] := rising_eq_nil fun v h0 hv => (h v h0).mpr (.inr hv)
  have hon : rising prev row = [u] :=
    rising_eq_singleton hu ((h u hu).mpr (.inl rfl)) hprev fun v h0 hv => (h v h0).mp hv
  rw [edges, hoff, hon]
  rfl

theorem edges_up (hu : u ≠ 0) (hprev : u ∈ prev)
    (h : ∀ v, v ≠ 0 → (v ∈ row ↔ v ≠ u ∧ v ∈ prev)) : edges prev row = [.up u] := by
  have hoff : rising row prev = [u] := by
    refine rising_eq_singleton hu hprev (fun hrow => ((h u hu).mp hrow).1 rfl) fun v h0 hv => ?_
    by_cases hvu : v = u
    · exact .inl hvu
    · exact .inr ((h v h0).mpr ⟨hvu, hv⟩)
  have hon : rising prev row = [] := rising_eq_nil fun v h0 hv => ((h v h0).mp hv).2
  rw [edges, hoff, hon]
  rfl

theorem edges_same (h : ∀ v, v ≠ 0 → (v ∈ row ↔ v ∈ prev)) : edges prev row = [] := by
  have hoff : rising row prev = [] := rising_eq_nil fun v h0 hv => (h v h0).mpr hv
  have hon : rising prev row = [] := rising_eq_nil fun v h0 hv => (h v h0).mp hv
  rw [edges, hoff, hon]
  rfl

end Rows

/-! ## A machine that shows rows -/

section Machine

variable {σ ι α : Type*} [Zero α] [DecidableEq α] {step : σ → ι → σ} {view : σ → List α}
  {edge : ι → List (Edge α)}

/-- The rows shown after each step of a run. -/
def shown (step : σ → ι → σ) (view : σ → List α) : σ → List ι → List (List α)
  | _, [] => []
  | s, e :: es => view (step s e) :: shown step view (step s e) es

theorem follow_sublist {s : σ} {es : List ι}
    (h : Trace.Along step (fun s e => (edges (view s) (view (step s e))).Sublist (edge e)) s es) :
    (follow (view s) (shown step view s es)).Sublist (es.flatMap edge) := by
  induction es generalizing s with
  | nil => exact List.Sublist.refl []
  | cons e es ih =>
    obtain ⟨hfirst, hrest⟩ := h
    rw [List.flatMap_cons]
    exact hfirst.append (ih hrest)

theorem follow_eq_iff {s : σ} {es : List ι}
    (h : Trace.Along step (fun s e => (edges (view s) (view (step s e))).Sublist (edge e)) s es) :
    follow (view s) (shown step view s es) = es.flatMap edge ↔
      Trace.Along step (fun s e => edges (view s) (view (step s e)) = edge e) s es := by
  induction es generalizing s with
  | nil => exact iff_of_true rfl trivial
  | cons e es ih =>
    obtain ⟨hfirst, hrest⟩ := h
    rw [Trace.along_cons, ← ih hrest, List.flatMap_cons]
    show edges (view s) (view (step s e)) ++ follow (view (step s e)) (shown step view _ es) = _ ↔ _
    constructor
    · intro heq
      -- neither part is longer than its share, so each is its share
      have hlength := congrArg List.length heq
      rw [List.length_append, List.length_append] at hlength
      have hle := hfirst.length_le
      have hle' := (follow_sublist hrest).length_le
      exact ⟨hfirst.eq_of_length (by omega), (follow_sublist hrest).eq_of_length (by omega)⟩
    · rintro ⟨hedge, hfollow⟩
      rw [hedge, hfollow]

end Machine

end EdgeDecoder
end Lib
