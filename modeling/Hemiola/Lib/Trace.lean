import Mathlib.Data.List.Basic

/-!
# Lib.Trace

Runs of a machine that reads one input at a time. A run is `es.foldl step s`: the inputs `es`
folded over the start state `s`. `Along step Q s es` says that `Q` holds of every state the run
goes through together with the input it reads there.

* `Along.run_inv`: an invariant kept by each step that meets `Q` holds after the run.
* `along_congr`: two step conditions that agree wherever an invariant holds, the invariant being
  kept as long as the first one is met, hold along the same runs.
* `foldl_eq_of_along`: two step functions that agree along a run have the same run.
* `foldl_both`, `along_both_snd`: two machines that read the same inputs, side by side.
* `prefixes_iff_along`: a property of every state reached is a property of every step's result.
* `prefixes_filter_iff`: inputs that can be left out at any time are those that change nothing.
-/

namespace Lib
namespace Trace

variable {σ ι : Type*} {step : σ → ι → σ}

/-- `Q` holds at each state of the run from `s` on `es`, for the input read there. -/
def Along (step : σ → ι → σ) (Q : σ → ι → Prop) : σ → List ι → Prop
  | _, [] => True
  | s, e :: es => Q s e ∧ Along step Q (step s e) es

instance instDecidableAlong {Q : σ → ι → Prop} [∀ s e, Decidable (Q s e)] :
    ∀ (s : σ) (es : List ι), Decidable (Along step Q s es)
  | _, [] => .isTrue trivial
  | s, e :: es => @instDecidableAnd _ _ _ (instDecidableAlong (step s e) es)

@[simp] theorem along_nil {Q : σ → ι → Prop} {s : σ} : Along step Q s [] := trivial

@[simp] theorem along_cons {Q : σ → ι → Prop} {s : σ} {e : ι} {es : List ι} :
    Along step Q s (e :: es) ↔ Q s e ∧ Along step Q (step s e) es := Iff.rfl

theorem along_append {Q : σ → ι → Prop} {s : σ} {es fs : List ι} :
    Along step Q s (es ++ fs) ↔ Along step Q s es ∧ Along step Q (es.foldl step s) fs := by
  induction es generalizing s with
  | nil => simp
  | cons e es ih => simp only [List.cons_append, along_cons, ih, List.foldl_cons, and_assoc]

theorem Along.mono {Q R : σ → ι → Prop} (hQR : ∀ s e, Q s e → R s e) {s : σ} {es : List ι}
    (h : Along step Q s es) : Along step R s es := by
  induction es generalizing s with
  | nil => exact along_nil
  | cons e es ih => exact ⟨hQR s e h.1, ih h.2⟩

theorem Along.and {Q R : σ → ι → Prop} {s : σ} {es : List ι} (hQ : Along step Q s es)
    (hR : Along step R s es) : Along step (fun s e => Q s e ∧ R s e) s es := by
  induction es generalizing s with
  | nil => exact along_nil
  | cons e es ih => exact ⟨⟨hQ.1, hR.1⟩, ih hQ.2 hR.2⟩

/-- The run rule: what holds at the start and is kept by every step that meets `Q` holds at the
end of a run whose steps all meet `Q`. -/
theorem Along.run_inv {Q : σ → ι → Prop} {I : σ → Prop}
    (hstep : ∀ s e, I s → Q s e → I (step s e)) {s : σ} {es : List ι} (hs : I s)
    (h : Along step Q s es) : I (es.foldl step s) := by
  induction es generalizing s with
  | nil => exact hs
  | cons e es ih => exact ih (hstep s e hs h.1) h.2

/-- The run rule for an invariant that every step keeps. -/
theorem run_inv {I : σ → Prop} (hstep : ∀ s e, I s → I (step s e)) {s : σ} (es : List ι)
    (hs : I s) : I (es.foldl step s) := by
  induction es generalizing s with
  | nil => exact hs
  | cons e es ih => exact ih (hstep s e hs)

/-- Two step conditions that agree wherever `I` holds, `I` being kept as long as the first one
is met, hold along the same runs. -/
theorem along_congr {Q R : σ → ι → Prop} {I : σ → Prop} {s : σ} {es : List ι}
    (hiff : ∀ e ∈ es, ∀ s, I s → (Q s e ↔ R s e))
    (hstep : ∀ e ∈ es, ∀ s, I s → Q s e → I (step s e)) (hs : I s) :
    Along step Q s es ↔ Along step R s es := by
  induction es generalizing s with
  | nil => simp
  | cons e es ih =>
    obtain ⟨hiff_e, hiff⟩ := List.forall_mem_cons.mp hiff
    obtain ⟨hstep_e, hstep⟩ := List.forall_mem_cons.mp hstep
    rw [along_cons, along_cons, ← hiff_e s hs]
    exact and_congr_right fun hQ => ih hiff hstep (hstep_e s hs hQ)

/-- A step condition that follows from an invariant holds along every run. -/
theorem along_of_inv {Q : σ → ι → Prop} {I : σ → Prop} (hQ : ∀ s e, I s → Q s e)
    (hstep : ∀ s e, I s → I (step s e)) {s : σ} (es : List ι) (hs : I s) :
    Along step Q s es := by
  induction es generalizing s with
  | nil => exact along_nil
  | cons e es ih => exact ⟨hQ s e hs, ih (hstep s e hs)⟩

/-- Two step functions that agree at each step of the run of one have the same run. -/
theorem foldl_eq_of_along {g : σ → ι → σ} {s : σ} {es : List ι}
    (h : Along step (fun s e => step s e = g s e) s es) : es.foldl step s = es.foldl g s := by
  induction es generalizing s with
  | nil => rfl
  | cons e es ih => rw [List.foldl_cons, List.foldl_cons, ← h.1, ih h.2]

/-- Every state a run reaches has `P` exactly when the first one has it and every step leads to
a state that has it. -/
theorem prefixes_iff_along {P : σ → Prop} {s : σ} {es : List ι} :
    (∀ pre, pre <+: es → P (pre.foldl step s)) ↔
      P s ∧ Along step (fun s e => P (step s e)) s es := by
  induction es generalizing s with
  | nil => simp
  | cons e es ih =>
    rw [along_cons, ← ih]
    constructor
    · intro h
      refine ⟨h [] List.nil_prefix, fun pre hpre => ?_⟩
      exact h (e :: pre) (List.cons_prefix_cons.mpr ⟨rfl, hpre⟩)
    · rintro ⟨hs, h⟩ pre hpre
      cases pre with
      | nil => exact hs
      | cons e' pre =>
        obtain ⟨rfl, htail⟩ := List.cons_prefix_cons.mp hpre
        exact h pre htail

theorem along_const {R : ι → Prop} {s : σ} {es : List ι} :
    Along step (fun _ e => R e) s es ↔ ∀ e ∈ es, R e := by
  induction es generalizing s with
  | nil => simp
  | cons e es ih => rw [along_cons, ih, List.forall_mem_cons]

/-- A run can at any time do without the inputs that `p` rejects exactly when each of them leaves
the state it comes in as it is. -/
theorem prefixes_filter_iff {p : ι → Bool} {s : σ} {es : List ι} :
    (∀ pre, pre <+: es → pre.foldl step s = (pre.filter p).foldl step s) ↔
      Along step (fun s e => p e = false → step s e = s) s es := by
  induction es generalizing s with
  | nil => simp
  | cons e es ih =>
    rw [along_cons, ← ih]
    constructor
    · intro h
      have hkeep : p e = false → step s e = s := by
        intro hp
        have h1 := h [e] (List.cons_prefix_cons.mpr ⟨rfl, List.nil_prefix⟩)
        rwa [List.filter_cons_of_neg (by simp [hp])] at h1
      refine ⟨hkeep, fun pre hpre => ?_⟩
      have htail := h (e :: pre) (List.cons_prefix_cons.mpr ⟨rfl, hpre⟩)
      cases hp : p e with
      | true => rwa [List.filter_cons_of_pos hp] at htail
      | false =>
        rw [List.filter_cons_of_neg (by simp [hp])] at htail
        rw [hkeep hp]
        rwa [List.foldl_cons, hkeep hp] at htail
    · intro h pre hpre
      obtain ⟨hkeep, h⟩ := h
      cases pre with
      | nil => rfl
      | cons e' pre =>
        obtain ⟨rfl, htail⟩ := List.cons_prefix_cons.mp hpre
        rw [List.foldl_cons, h pre htail]
        cases hp : p e' with
        | true => rw [List.filter_cons_of_pos hp]; rfl
        | false => rw [List.filter_cons_of_neg (by simp [hp]), hkeep hp]

/-! ## Two machines on the same inputs -/

section Both

variable {τ : Type*} {f : σ → ι → σ} {g : τ → ι → τ}

/-- Two machines side by side, reading the same inputs. -/
def both (f : σ → ι → σ) (g : τ → ι → τ) (st : σ × τ) (e : ι) : σ × τ := (f st.1 e, g st.2 e)

theorem foldl_both (s : σ) (t : τ) (es : List ι) :
    es.foldl (both f g) (s, t) = (es.foldl f s, es.foldl g t) := by
  induction es generalizing s t with
  | nil => rfl
  | cons e es ih => exact ih (f s e) (g t e)

theorem along_both_snd {Q : τ → ι → Prop} {s : σ} {t : τ} {es : List ι} :
    Along (both f g) (fun st e => Q st.2 e) (s, t) es ↔ Along g Q t es := by
  induction es generalizing s t with
  | nil => simp
  | cons e es ih => rw [along_cons, along_cons]; exact and_congr_right fun _ => ih

end Both

end Trace
end Lib
