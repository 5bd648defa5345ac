import Hemiola.KeyboardEvents
import Hemiola.Lib.Trace

/-!
# Hemiola.ReportSlots

The key report on a stream of events in which presses and releases need not alternate.

`setKey` stops at the first slot that holds the usage or is empty, so a second `MAKE` of a key
whose slot comes after an empty one puts its usage in the report twice, and the next `BREAK` takes
only one away. `no_stuck_key_iff` says that this is the only way for the report to go wrong.
-/

namespace Hemiola

open Lib KeyTable

/-- A key that went up is in no slot. -/
def GoneOnRelease (report : KeyReport) : KeyAction → Prop
  | .break k => isNonModifier k = true → scanToHex k ∉ report.keys.slots
  | _ => True

instance (report : KeyReport) : ∀ action, Decidable (GoneOnRelease report action)
  | .break k =>
    inferInstanceAs (Decidable (isNonModifier k = true → scanToHex k ∉ report.keys.slots))
  | .make _ => .isTrue trivial
  | .other => .isTrue trivial

/-- After the event no usage stands in two slots, and a key that went up in none. -/
def NoStuckKey (this : KeyboardEvents) (event : InputEvent) : Prop :=
  let report := (this.updateKeyState event).mKeyReport
  report.used.Nodup ∧ GoneOnRelease report event.action

instance (this : KeyboardEvents) (event : InputEvent) : Decidable (NoStuckKey this event) :=
  inferInstanceAs (Decidable (_ ∧ _))

/-- A key that goes down does not stand in a slot that comes after an empty one. -/
def MakeNotShadowed (this : KeyboardEvents) (event : InputEvent) : Prop :=
  match event.action with
  | .make k =>
    isNonModifier k = true → ¬ FirstFit.Shadowed (scanToHex k) this.mKeyReport.keys.slots
  | _ => True

theorem noStuckKey_iff {this : KeyboardEvents} (event : InputEvent)
    (hnd : this.mKeyReport.used.Nodup) :
    NoStuckKey this event ↔ MakeNotShadowed this event := by
  simp only [NoStuckKey, GoneOnRelease, MakeNotShadowed, KeyboardEvents.updateKeyState_mKeyReport]
  cases event.action with
  | make k =>
    simp only [KeyboardEvents.reportStep, and_true]
    split_ifs with hm hn
    · simp [hnd, isNonModifier, hm]
    · rw [KeyReport.used, KeyReport.setKey_slots,
        FirstFit.place_nodup_iff (scanToHex_ne_zero hn) hnd]
      simp [hn]
    · simp [hnd, hn]
  | «break» k =>
    simp only [KeyboardEvents.reportStep, iff_true]
    split_ifs with hm hn
    · exact ⟨hnd, fun hn => by simp [isNonModifier, hm] at hn⟩
    · have hused := KeyReport.unsetKey_used this.mKeyReport (scanToHex_ne_zero hn)
      refine ⟨by rw [hused]; exact hnd.erase _, fun _ hmem => ?_⟩
      have hu := KeyReport.mem_used.mpr ⟨hmem, scanToHex_ne_zero hn⟩
      rw [hused, hnd.mem_erase_iff] at hu
      exact hu.1 rfl
    · exact ⟨hnd, fun h => absurd h hn⟩
  | other => simpa [KeyboardEvents.reportStep] using hnd

/-- A run never has a usage in two slots, nor a key in the report right after its `BREAK`, exactly
when no `MAKE` comes for a key that stands in the report after an empty slot. -/
theorem no_stuck_key_iff (events : List InputEvent) :
    Trace.Along KeyboardEvents.updateKeyState NoStuckKey .init events ↔
      Trace.Along KeyboardEvents.updateKeyState MakeNotShadowed .init events :=
  Trace.along_congr (I := fun this => this.mKeyReport.used.Nodup)
    (fun event _ _ hnd => noStuckKey_iff event hnd) (fun _ _ _ _ h => h.1) (by decide)

/-- `B` goes down behind `A`, `A` goes up, and the release of `B` is lost: its next press fills the
empty slot as well, and its next release leaves it in the report. -/
theorem lost_release_sticks :
    ¬ ∀ events, Trace.Along KeyboardEvents.updateKeyState NoStuckKey .init events := by
  intro h
  exact absurd (h [.make keyA, .make keyB, .break keyA, .make keyB, .break keyB]) (by decide)

end Hemiola
