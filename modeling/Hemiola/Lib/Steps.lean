import Mathlib.Data.List.Basic
import Mathlib.Data.List.ReduceOption

/-!
# Lib.Steps

Runs of a machine whose steps carry labels and of which several may be possible in a state.
`Steps step s acts t` says that steps with the labels `acts`, one after another, lead from `s`
to `t`.

* `Steps.inv`, `Steps.inv_along`: an invariant of the state, and one of the state together with
  the labels so far.
* `Within`: the steps that are taken in a state with a property.
* `visible`: the labels of a run that are no `none`.
* `Timed`: the steps of a machine with a clock, with the times at which their labels are seen.
-/

namespace Lib

variable {σ α : Type*} {step : σ → α → σ → Prop}

inductive Steps (step : σ → α → σ → Prop) (s : σ) : List α → σ → Prop where
  | refl : Steps step s [] s
  | tail {acts : List α} {t u : σ} {a : α} :
      Steps step s acts t → step t a u → Steps step s (acts ++ [a]) u

/-- A step taken in a state that has `P`. -/
def Within (P : σ → Prop) (step : σ → α → σ → Prop) (s : σ) (a : α) (t : σ) : Prop :=
  P s ∧ step s a t

namespace Steps

theorem single {s t : σ} {a : α} (h : step s a t) : Steps step s [a] t := tail refl h

theorem trans {s t u : σ} {acts acts' : List α} (h : Steps step s acts t)
    (h' : Steps step t acts' u) : Steps step s (acts ++ acts') u := by
  induction h' with
  | refl => rwa [List.append_nil]
  | tail _ hstep ih =>
    rw [← List.append_assoc]
    exact ih.tail hstep

theorem head {s t u : σ} {a : α} {acts : List α} (h : step s a t) (h' : Steps step t acts u) :
    Steps step s (a :: acts) u :=
  (single h).trans h'

/-- What holds at the start and is kept by every step holds after a run. -/
theorem inv {I : σ → Prop} (hstep : ∀ t a u, I t → step t a u → I u) {s t : σ} {acts : List α}
    (hs : I s) (h : Steps step s acts t) : I t := by
  induction h with
  | refl => exact hs
  | tail _ hlast ih => exact hstep _ _ _ ih hlast

/-- The same for an invariant that mentions the labels of the steps made. -/
theorem inv_along {I : List α → σ → Prop}
    (hstep : ∀ acts t a u, I acts t → step t a u → I (acts ++ [a]) u) {s t : σ} {acts : List α}
    (hs : I [] s) (h : Steps step s acts t) : I acts t := by
  induction h with
  | refl => exact hs
  | tail _ hlast ih => exact hstep _ _ _ _ ih hlast

theorem mono {step' : σ → α → σ → Prop} (hstep : ∀ t a u, step t a u → step' t a u) {s t : σ}
    {acts : List α} (h : Steps step s acts t) : Steps step' s acts t := by
  induction h with
  | refl => exact .refl
  | tail _ hlast ih => exact ih.tail (hstep _ _ _ hlast)

/-- A run of a machine of which every step is a run of another. -/
theorem project {τ β : Type*} {step' : τ → β → τ → Prop} {f : σ → τ} {g : α → List β}
    (hstep : ∀ t a u, step t a u → Steps step' (f t) (g a) (f u)) {s t : σ} {acts : List α}
    (h : Steps step s acts t) : Steps step' (f s) (acts.flatMap g) (f t) := by
  induction h with
  | refl => exact .refl
  | @tail acts t u a _ hlast ih =>
    rw [List.flatMap_append, List.flatMap_singleton]
    exact ih.trans (hstep t a u hlast)

end Steps

/-! ## What is seen of a run -/

/-- The labels that are seen; `none` is the label of an internal step. -/
def visible (acts : List (Option α)) : List α := acts.reduceOption

@[simp] theorem visible_nil : visible ([] : List (Option α)) = [] := rfl

@[simp] theorem visible_append (acts acts' : List (Option α)) :
    visible (acts ++ acts') = visible acts ++ visible acts' :=
  List.reduceOption_append acts acts'

@[simp] theorem visible_some (a : α) : visible [some a] = [a] := rfl

@[simp] theorem visible_none : visible [(none : Option α)] = [] := rfl

/-! ## Time -/

section Time

variable {τ ε : Type*}

/-- A label that is seen is seen at the time of the state in which the step is taken. -/
inductive Timed (clock : σ → τ) (step : σ → Option ε → σ → Prop) (s : σ) :
    Option (ε × τ) → σ → Prop where
  | step {e : Option ε} {t : σ} (h : step s e t) :
      Timed clock step s (e.map fun x => (x, clock s)) t

variable {clock : σ → τ} {step : σ → Option ε → σ → Prop}

/-- A step that is not seen. -/
theorem Timed.silent {s t : σ} (h : step s none t) : Timed clock step s none t := .step h

theorem Timed.seen {s t : σ} {x : ε} (h : step s (some x) t) :
    Timed clock step s (some (x, clock s)) t := .step h

theorem Timed.mono {step' : σ → Option ε → σ → Prop} {s t : σ} {a : Option (ε × τ)}
    (hstep : ∀ e, step s e t → step' s e t) (h : Timed clock step s a t) :
    Timed clock step' s a t := by
  cases h with
  | step h => exact .step (hstep _ h)

end Time

end Lib
