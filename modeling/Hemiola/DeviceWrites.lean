import Hemiola.KeyboardEvents
import Hemiola.Lib.Trace
import Hemiola.WordOutput

/-!
# Hemiola.DeviceWrites

The two threads that write to the output device. The capture thread passes each report on, the
timer thread writes the reports of its words; each write is a whole report and the two may come in
any order. The host believes the last report written, and the timer thread writes none that lets
the last character of a word go.

* `characters_run`: undisturbed, the timer thread writes what `outputLoop` says.
* `settled_step_iff`, `settled_iff`: when the host is right about the keys between words all the
  same.
-/

namespace Hemiola

open Lib KeyTable

structure Device where
  eventHandler : KeyboardEvents
  /-- what the timer thread has still to write of its word -/
  word : Str
  /-- the writes of the capture thread, the last one first -/
  passed : List USBHID.Data
  /-- the writes of both threads, the last one first -/
  written : List USBHID.Data
deriving DecidableEq

namespace Device

def init : Device := ⟨.init, [], [], []⟩

/-- The capture thread reads an event and writes the report; or the timer thread, done with its
word, takes up the next one; or it writes the report of the next character of its word. -/
inductive Action where
  | event (event : InputEvent) (result errno : Int)
  | word (word : Str)
  | character (memory : UInt8)

def step (this : Device) : Action → Device
  | .event event result errno =>
    let eventHandler := this.eventHandler.updateKeyState event
    match USBHID.write eventHandler.mKeyReport result errno with
    | .ok data =>
      { this with eventHandler := eventHandler, passed := data :: this.passed,
                  written := data :: this.written }
    | .error _ => { this with eventHandler := eventHandler }
  | .word word => if this.word = [] then { this with word := word } else this
  | .character memory =>
    match this.word with
    | [] => this
    | c :: word =>
      { this with word := word,
                  written := USBHID.data (Hemiola.charReport memory c) :: this.written }

/-- The key slots of the last of some writes, empty when there is none. -/
def lastSlots : List USBHID.Data → List UInt8
  | [] => KeyArray.zero.slots
  | data :: _ => data.slots

/-- Between words the host believes what the capture thread told it last. -/
def Settled (this : Device) : Prop :=
  this.word = [] → lastSlots this.written = lastSlots this.passed

/-- The last character of a word is written while the key slots that the capture thread wrote last
hold the key of that character in the first slot, and nothing else. -/
def EndsOnHeldKey (this : Device) : Action → Prop
  | .character _ =>
    match this.word with
    | [c] => lastSlots this.passed = [charUsage c, 0, 0, 0, 0, 0]
    | _ => True
  | _ => True

instance (this : Device) : Decidable this.Settled :=
  inferInstanceAs (Decidable (_ → _))

/-- Left alone, the timer thread writes the reports of the loop over its word. -/
theorem characters_run (this : Device) (memory : Nat → UInt8) (i : Nat) :
    ((List.range' i this.word.length).map fun j => Action.character (memory j)).foldl step this =
      { this with
        word := [],
        written := ((Hemiola.outputLoop memory i this.word).map USBHID.data).reverse ++
          this.written } := by
  obtain ⟨eventHandler, word, passed, written⟩ := this
  induction word generalizing written i with
  | nil => rfl
  | cons c word ih =>
    rw [List.length_cons, List.range'_succ, List.map_cons, List.foldl_cons]
    simp only [step]
    rw [ih, Hemiola.outputLoop, List.map_cons, List.reverse_cons, List.append_assoc]
    rfl

theorem settled_step_iff {this : Device} (h : this.Settled) (action : Action) :
    (this.step action).Settled ↔ this.EndsOnHeldKey action := by
  cases action with
  | event event result errno =>
    simp only [EndsOnHeldKey, iff_true, step]
    cases USBHID.write (this.eventHandler.updateKeyState event).mKeyReport result errno with
    | ok data => exact fun _ => rfl
    | error _ => exact h
  | word word =>
    simp only [EndsOnHeldKey, iff_true, step]
    by_cases hidle : this.word = []
    · rw [if_pos hidle]
      exact fun _ => h hidle
    · rw [if_neg hidle]
      exact h
  | character memory =>
    simp only [EndsOnHeldKey, step]
    cases hword : this.word with
    | nil => simpa using h
    | cons c word =>
      cases word with
      | nil =>
        simp only [Settled, lastSlots, USBHID.data_slots, charReport_slots, forall_const]
        exact eq_comm
      | cons c' word => simp [Settled]

/-- **The host between words.** In every state that is reached the host believes, between words,
the key slots the capture thread wrote last, exactly when every word ends while these slots hold
the key of its last character alone, in the first slot. -/
theorem settled_iff (actions : List Action) :
    (∀ pre, pre <+: actions → (pre.foldl step init).Settled) ↔
      Trace.Along step EndsOnHeldKey init actions := by
  have hinit : init.Settled := fun _ => rfl
  rw [Trace.prefixes_iff_along, and_iff_right hinit]
  exact Trace.along_congr (I := Settled) (fun action _ _ h => settled_step_iff h action)
    (fun _ _ _ _ h => h) hinit

/-- `A` is tapped and both reports are written, the last with no key down. When the timer thread
then writes the word `a`, the host goes on believing that `A` is down. -/
theorem word_leaves_key_down :
    ¬ ∀ (actions : List Action), ∀ pre, pre <+: actions → (pre.foldl step init).Settled := by
  intro h
  let actions : List Action := [.event (.make keyA) 8 0, .event (.break keyA) 8 0,
    .word "a".toList, .character 0]
  exact absurd (h actions _ List.prefix_rfl) (by decide +kernel)

end Device
end Hemiola
