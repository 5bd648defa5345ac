import Hemiola.Input
import Hemiola.KeyReport
import Hemiola.KeyTable

/-!
# Hemiola.KeyboardEvents

`KeyboardEvents`: the report and the key number kept by the capture thread, and
`updateKeyState`, which advances them by one input event.

* `updateKeyState_mKeyReport`: what an event does to the report, said once by its action
  (`reportStep`): a modifier raises or lowers its bit, any other key of the table takes or gives
  up a slot, every other event leaves the report alone.
* `updateKeyState_mKeyRep`: the key number an event delivers (`repStep`).
-/

namespace Hemiola

structure KeyboardEvents where
  mKeyReport : KeyReport
  mKeyRep : Nat
deriving DecidableEq

namespace KeyboardEvents

open KeyTable

/-- The state the constructor leaves. -/
def init : KeyboardEvents := ⟨.zero, 0⟩

def updateKeyState (this : KeyboardEvents) (event : InputEvent) : KeyboardEvents :=
  let this := { this with mKeyRep := keyRelease }
  if event.type ≠ evKey then this
  else
    let scanCode := event.code
    if event.value = evRepeat then this
    else if event.value = evBreak then
      let this :=
        if isScanModifier scanCode then
          { this with mKeyReport := this.mKeyReport.unsetModifier (modToHex scanCode) }
        else if isKeyValid scanCode then
          { this with mKeyReport := this.mKeyReport.unsetKey (scanToHex scanCode) }
        else this
      { this with mKeyRep := scanCode }
    else if event.value ≠ evMake then this
    else if isModifier (.ofNat scanCode) then
      { mKeyReport := this.mKeyReport.setModifier (modToHex scanCode), mKeyRep := scanCode }
    else if isKeyValid scanCode then
      let (report, overflow) := this.mKeyReport.setKey (scanToHex scanCode)
      if !overflow then { mKeyReport := report, mKeyRep := scanCode }
      else { this with mKeyReport := report }
    else this

/-- The states after a stream of events. -/
def run (this : KeyboardEvents) (events : List InputEvent) : KeyboardEvents :=
  events.foldl updateKeyState this

/-! ## One event -/

/-- What an action does to the report. -/
def reportStep (report : KeyReport) : KeyAction → KeyReport
  | .make k =>
    if isScanModifier k then report.setModifier (modToHex k)
    else if isNonModifier k then (report.setKey (scanToHex k)).1
    else report
  | .break k =>
    if isScanModifier k then report.unsetModifier (modToHex k)
    else if isNonModifier k then report.unsetKey (scanToHex k)
    else report
  | .other => report

/-- The key number an action delivers. -/
def repStep (report : KeyReport) : KeyAction → Nat
  | .make k =>
    if isModifier (.ofNat k) then k
    else if isKeyValid k && !(report.setKey (scanToHex k)).2 then k
    else keyReserved
  | .break k => k
  | .other => keyReserved

theorem updateKeyState_other {event : InputEvent} (this : KeyboardEvents)
    (h : event.action = .other) :
    updateKeyState this event = { this with mKeyRep := keyReserved } := by
  obtain ⟨type, code, value⟩ := event
  simp only [InputEvent.action] at h
  simp only [updateKeyState, keyRelease]
  split_ifs at h ⊢ <;> first | rfl | simp_all

theorem updateKeyState_break (this : KeyboardEvents) (k : Nat) :
    updateKeyState this (.break k) = ⟨reportStep this.mKeyReport (.break k), k⟩ := by
  have hb : ¬ evBreak = evRepeat := by decide
  simp only [updateKeyState, InputEvent.break, ne_eq, not_true_eq_false, if_false, if_neg hb,
    if_true, reportStep, isNonModifier]
  by_cases hm : isScanModifier k = true
  · simp only [hm, if_true]
  · simp only [Bool.not_eq_true] at hm
    by_cases hv : isKeyValid k = true
    · simp [hm, hv]
    · simp [hm, hv]

theorem updateKeyState_make (this : KeyboardEvents) (k : Nat) :
    updateKeyState this (.make k) =
      ⟨reportStep this.mKeyReport (.make k), repStep this.mKeyReport (.make k)⟩ := by
  have hr : ¬ evMake = evRepeat := by decide
  have hb : ¬ evMake = evBreak := by decide
  simp only [updateKeyState, InputEvent.make, ne_eq, not_true_eq_false, if_false, if_neg hr,
    if_neg hb, reportStep, repStep, keyRelease]
  by_cases hv : isKeyValid k = true
  · have ha := isModifier_of_valid hv
    by_cases hm : isScanModifier k = true
    · simp [ha, hm]
    · simp only [Bool.not_eq_true] at hm
      have hn : isNonModifier k = true := isNonModifier_iff.mpr ⟨hv, hm⟩
      by_cases ho : (this.mKeyReport.setKey (scanToHex k)).2 = true
      · simp [ha, hm, hv, hn, ho]
      · simp [ha, hm, hv, hn, ho]
  · -- a code outside the table: `isModifier` may take it for one, but it has no modifier bit
    have hm : isScanModifier k = false := by
      simp only [isKeyValid, Bool.or_eq_true, not_or, Bool.not_eq_true] at hv
      exact hv.2
    have hn : isNonModifier k = false := by simp [isNonModifier, hv]
    by_cases ha : isModifier (.ofNat k) = true
    · simp [ha, hm, hn, modToHex_of_not_modifier hm, KeyReport.setModifier_zero]
    · simp [ha, hv, hm, hn]

theorem updateKeyState_mKeyReport (this : KeyboardEvents) (event : InputEvent) :
    (updateKeyState this event).mKeyReport = reportStep this.mKeyReport event.action := by
  cases h : event.action with
  | make k => rw [action_eq_make_iff.mp h, updateKeyState_make]
  | «break» k => rw [action_eq_break_iff.mp h, updateKeyState_break]
  | other => rw [updateKeyState_other this h]; rfl

theorem updateKeyState_mKeyRep (this : KeyboardEvents) (event : InputEvent) :
    (updateKeyState this event).mKeyRep = repStep this.mKeyReport event.action := by
  cases h : event.action with
  | make k => rw [action_eq_make_iff.mp h, updateKeyState_make]
  | «break» k => rw [action_eq_break_iff.mp h, updateKeyState_break]; rfl
  | other => rw [updateKeyState_other this h]; rfl

end KeyboardEvents
end Hemiola
