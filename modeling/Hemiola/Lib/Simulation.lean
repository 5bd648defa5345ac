import Mathlib.Data.List.Basic

/-!
# Lib.Simulation

Machines that answer each input. Two machines that read the same inputs give the same answers if
their states are related by a simulation.
-/

namespace Lib

variable {σ τ ι β : Type*}

/-- The answers to a series of inputs. -/
def answers (step : σ → ι → σ) (answer : σ → ι → β) : σ → List ι → List β
  | _, [] => []
  | s, e :: es => answer s e :: answers step answer (step s e) es

theorem answers_concat {step : σ → ι → σ} {answer : σ → ι → β} {s : σ} {es : List ι} {e : ι} :
    answers step answer s (es ++ [e]) =
      answers step answer s es ++ [answer (es.foldl step s) e] := by
  induction es generalizing s with
  | nil => rfl
  | cons e' es ih =>
    rw [List.cons_append, answers, answers, ih]
    rfl

/-- Related states give the same answer and stay related. -/
structure Simulation (step : σ → ι → σ) (answer : σ → ι → β) (step' : τ → ι → τ)
    (answer' : τ → ι → β) (R : σ → τ → Prop) : Prop where
  answer_eq : ∀ s t e, R s t → answer s e = answer' t e
  step : ∀ s t e, R s t → R (step s e) (step' t e)

theorem Simulation.answers_eq {step : σ → ι → σ} {answer : σ → ι → β} {step' : τ → ι → τ}
    {answer' : τ → ι → β} {R : σ → τ → Prop} (h : Simulation step answer step' answer' R) {s : σ}
    {t : τ} (hR : R s t) (es : List ι) : answers step answer s es = answers step' answer' t es := by
  induction es generalizing s t with
  | nil => rfl
  | cons e es ih =>
    rw [answers, answers, h.answer_eq s t e hR, ih (h.step s t e hR)]

end Lib
