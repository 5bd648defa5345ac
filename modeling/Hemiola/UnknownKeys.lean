import Hemiola.Lib.Toggle
import Hemiola.ModifierAgreement

/-!
# Hemiola.UnknownKeys

Events of keys that the table does not know, and what they do to the report and to the modifiers
in use. `isKeyValid` and `isScanModifier` look at the whole code, so such a key enters no report;
`isModifier` looks at the low byte, so one whose low byte is that of a modifier is tracked in
`m_ModSequence` like the modifier.

* `unknown_keeps_iff`: an event of an unknown key changes nothing unless the key is tracked.
* `without_unknown_iff`: a run can do without the unknown keys exactly when none is tracked.
-/

namespace Hemiola

open Lib KeyTable

namespace Main

/-- The report and the modifiers in use. -/
def visible (this : Main) : KeyReport × List Nat :=
  (this.eventHandler.mKeyReport, this.hemiola.mModSequence)

/-- What an input does to them. -/
def visibleStep (v : KeyReport × List Nat) : Input → KeyReport × List Nat
  | .event event _ _ =>
    (KeyboardEvents.reportStep v.1 event.action,
     Toggle.toggleIf Hemiola.isTracked v.2 (KeyboardEvents.repStep v.1 event.action))
  | .sweep _ _ => v

theorem visible_step (this : Main) (input : Input) :
    (this.step input).visible = visibleStep this.visible input := by
  cases input with
  | sweep ord now => rfl
  | event event ord now =>
    show (this.deliver ord now event).visible = _
    rw [visible, deliver_mKeyReport, deliver_mModSequence]
    rfl

theorem visible_run (this : Main) (inputs : List Input) :
    (this.run inputs).visible = inputs.foldl visibleStep this.visible := by
  induction inputs generalizing this with
  | nil => rfl
  | cons input inputs ih =>
    rw [List.foldl_cons, ← visible_step, ← ih]
    rfl

/-- The code of the event is in the table. -/
def hasKnownCode : Input → Bool
  | .event event _ _ => isKeyValid event.code
  | .sweep _ _ => true

/-- A key that the table does not know and that is tracked all the same. -/
def isAlias (key : Nat) : Bool := !isKeyValid key && Hemiola.isTracked key

/-- A press or a release of such a key. -/
def Aliased : Input → Prop
  | .event event _ _ =>
    match event.action with
    | .make k => isAlias k = true
    | .break k => isAlias k = true
    | .other => False
  | .sweep _ _ => False

theorem not_isAlias_iff {key : Nat} (h : isKeyValid key = false) (sequence : List Nat) :
    (if Hemiola.isTracked key then Toggle.toggle key sequence else sequence) = sequence ↔
      ¬ isAlias key = true := by
  rw [isAlias, h, Bool.not_false, Bool.true_and]
  cases Hemiola.isTracked key with
  | true => exact iff_of_false (Toggle.toggle_ne sequence key) (by decide)
  | false => exact iff_of_true rfl (by decide)

theorem reportStep_unknown {k : Nat} (h : isKeyValid k = false) (report : KeyReport) :
    KeyboardEvents.reportStep report (.make k) = report ∧
      KeyboardEvents.reportStep report (.break k) = report := by
  have hmod : isScanModifier k = false := by
    rw [isKeyValid, Bool.or_eq_false_iff] at h
    exact h.2
  have hkey : isNonModifier k = false := by rw [isNonModifier, h, Bool.false_and]
  simp [KeyboardEvents.reportStep, hmod, hkey]

theorem unknown_keeps_iff (v : KeyReport × List Nat) (input : Input) :
    (hasKnownCode input = false → visibleStep v input = v) ↔ ¬ Aliased input := by
  cases input with
  | sweep ord now => exact iff_of_true (fun h => by cases h) id
  | event event ord now =>
    obtain ⟨report, sequence⟩ := v
    simp only [hasKnownCode, visibleStep, Aliased, Prod.mk.injEq]
    cases haction : event.action with
    | make k =>
      have hcode : event.code = k := by rw [action_eq_make_iff.mp haction]; rfl
      cases hk : isKeyValid k with
      | true => simp [hcode, hk, isAlias]
      | false =>
        rw [hcode, forall_prop_of_true hk, and_iff_right (reportStep_unknown hk report).1]
        show Toggle.toggleIf _ _ _ = _ ↔ ¬ isAlias k = true
        rw [← not_isAlias_iff hk sequence, ← toggle_repStep_make report k sequence]
        rfl
    | «break» k =>
      have hcode : event.code = k := by rw [action_eq_break_iff.mp haction]; rfl
      cases hk : isKeyValid k with
      | true => simp [hcode, hk, isAlias]
      | false =>
        rw [hcode, forall_prop_of_true hk, and_iff_right (reportStep_unknown hk report).2]
        exact not_isAlias_iff hk sequence
    | other => exact iff_of_true (fun _ => ⟨rfl, rfl⟩) id

/-- **Unknown keys.** After every prefix of a run the report and the modifiers in use are those
of the same prefix without the events whose code is not in the table, exactly when the run has no
press or release of an unknown key that is tracked. -/
theorem without_unknown_iff (inputs : List Input) :
    (∀ pre, pre <+: inputs →
      (init.run pre).eventHandler.mKeyReport =
        (init.run (pre.filter hasKnownCode)).eventHandler.mKeyReport ∧
      (init.run pre).hemiola.mModSequence =
        (init.run (pre.filter hasKnownCode)).hemiola.mModSequence) ↔
      ∀ input ∈ inputs, ¬ Aliased input := by
  have hpair : ∀ pre, ((init.run pre).eventHandler.mKeyReport =
        (init.run (pre.filter hasKnownCode)).eventHandler.mKeyReport ∧
      (init.run pre).hemiola.mModSequence =
        (init.run (pre.filter hasKnownCode)).hemiola.mModSequence) ↔
      pre.foldl visibleStep init.visible =
        (pre.filter hasKnownCode).foldl visibleStep init.visible := by
    intro pre
    rw [← visible_run, ← visible_run, visible, visible, Prod.mk.injEq]
  simp only [hpair]
  rw [Trace.prefixes_filter_iff]
  simp only [unknown_keeps_iff]
  exact Trace.along_const

/-- Code 285 ends in the byte of Left Ctrl: its press alone suspends capture. -/
theorem unknown_suspends :
    ¬ ∀ inputs : List Input, ∀ pre, pre <+: inputs →
      (init.run pre).eventHandler.mKeyReport =
        (init.run (pre.filter hasKnownCode)).eventHandler.mKeyReport ∧
      (init.run pre).hemiola.mModSequence =
        (init.run (pre.filter hasKnownCode)).hemiola.mModSequence := by
  intro h
  let press : Input := .event (.make 285) (UnorderedMap.Order.stored Nat Int) 1
  have hsame := (h [press] _ List.prefix_rfl).2
  exact absurd hsame (by decide)

end Main
end Hemiola
