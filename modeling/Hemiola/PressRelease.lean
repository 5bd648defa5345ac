import Hemiola.Held
import Hemiola.KeyboardEvents

/-!
# Hemiola.PressRelease

The key numbers of a press and of the release that belongs to it. `updateKeyState` delivers the
number of a pressed key only when the report takes the key; at a release it delivers the number
whatever became of the press.

* `Tap`: a press of a key in a stream, and the next event of that key, a release.
* `reserved_iff`: a press delivers no number exactly when the report does not take the key.
* `taps_pair_iff`: the numbers agree at every tap exactly when every press was taken.
-/

namespace Hemiola

open Lib KeyTable

/-- A press of `key` in a stream, and its release. -/
structure Tap (events : List InputEvent) where
  key : Nat
  before : List InputEvent
  between : List InputEvent
  after : List InputEvent
  split : events = before ++ .make key :: between ++ .break key :: after
  apart : presses key between = []

namespace Tap

variable {events : List InputEvent} (tap : Tap events)

/-- The state after the press. -/
def pressed : KeyboardEvents := KeyboardEvents.init.run (tap.before ++ [.make tap.key])

/-- The state after the release. -/
def released : KeyboardEvents :=
  KeyboardEvents.init.run (tap.before ++ .make tap.key :: tap.between ++ [.break tap.key])

/-- The report at the time of the press. -/
def report : KeyReport := (KeyboardEvents.init.run tap.before).mKeyReport

/-- The release delivers what the press did. -/
def Pairs : Prop :=
  (tap.pressed.mKeyRep = keyReserved → tap.released.mKeyRep = keyReserved) ∧
    (tap.pressed.mKeyRep = tap.key → tap.released.mKeyRep = tap.key)

end Tap

/-- The key is a modifier, or one of the table that the report has or has room for. -/
def Takes (report : KeyReport) (key : Nat) : Prop :=
  isModifier (.ofNat key) = true ∨
    isKeyValid key = true ∧ (scanToHex key ∈ report.keys.slots ∨ 0 ∈ report.keys.slots)

theorem not_overflow_iff (report : KeyReport) (scanHex : UInt8) :
    (report.setKey scanHex).2 = false ↔ scanHex ∈ report.keys.slots ∨ 0 ∈ report.keys.slots := by
  rw [← Bool.not_eq_true, KeyReport.setKey, FirstFit.place_overflow_iff]
  tauto

theorem repStep_make_of_takes {report : KeyReport} {key : Nat} (h : Takes report key) :
    KeyboardEvents.repStep report (.make key) = key := by
  simp only [KeyboardEvents.repStep]
  split_ifs with hmod hroom
  · rfl
  · rfl
  · rcases h with h | ⟨hvalid, hslot⟩
    · exact absurd h hmod
    · rw [hvalid, (not_overflow_iff report _).mpr hslot] at hroom
      exact absurd rfl hroom

theorem reserved_iff {report : KeyReport} {key : Nat} :
    KeyboardEvents.repStep report (.make key) = keyReserved ↔
      key = keyReserved ∨ ¬ Takes report key := by
  by_cases h : Takes report key
  · rw [repStep_make_of_takes h]
    exact (or_iff_left (not_not_intro h)).symm
  · refine iff_of_true ?_ (.inr h)
    simp only [KeyboardEvents.repStep]
    split_ifs with hmod hroom
    · exact absurd (.inl hmod) h
    · rw [Bool.and_eq_true, Bool.not_eq_true', not_overflow_iff] at hroom
      exact absurd (.inr hroom) h
    · rfl

namespace Tap

variable {events : List InputEvent} (tap : Tap events)

theorem pressed_mKeyRep :
    tap.pressed.mKeyRep = KeyboardEvents.repStep tap.report (.make tap.key) := by
  rw [pressed, KeyboardEvents.run, List.foldl_concat, KeyboardEvents.updateKeyState_mKeyRep]
  rfl

theorem released_mKeyRep : tap.released.mKeyRep = tap.key := by
  rw [released, KeyboardEvents.run, List.foldl_concat, KeyboardEvents.updateKeyState_mKeyRep]
  rfl

theorem pairs_iff : tap.Pairs ↔ tap.key = keyReserved ∨ Takes tap.report tap.key := by
  rw [Pairs, released_mKeyRep, pressed_mKeyRep, reserved_iff]
  constructor
  · intro h
    by_cases htakes : Takes tap.report tap.key
    · exact .inr htakes
    · exact .inl (h.1 (.inr htakes))
  · intro h
    refine ⟨fun hnone => ?_, fun _ => rfl⟩
    rcases h with h | h
    · exact h
    · exact hnone.resolve_right (not_not_intro h)

end Tap

/-- **Presses and releases pair up**: in a stream every release delivers what its press did,
exactly when the report took the key at every press that is released again (code 0 apart, which is
the number that stands for none). -/
theorem taps_pair_iff (events : List InputEvent) :
    (∀ tap : Tap events, tap.Pairs) ↔
      ∀ tap : Tap events, tap.key = keyReserved ∨ Takes tap.report tap.key :=
  forall_congr' fun tap => tap.pairs_iff

/-- A code that the table does not know: its press delivers nothing, its release the code. -/
theorem unknown_release_delivered :
    ¬ ∀ events : List InputEvent, WellFormed events → ∀ tap : Tap events, tap.Pairs := by
  intro h
  have hwf : WellFormed [.make 1029, .break 1029] := (wellFormed_iff_along _).mpr (by decide)
  have hpairs := (h _ hwf ⟨1029, [], [], [], rfl, rfl⟩).1
  exact absurd (hpairs (by decide)) (by decide)

end Hemiola
