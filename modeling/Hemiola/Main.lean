import Hemiola.Hemiola
import Hemiola.KeyboardEvents
import Hemiola.USBHID

/-!
# Hemiola.Main

The program as `main` puts it together: the capture thread hands every event to
`KeyboardEvents`, writes the report and adds the key number to `Hemiola`, whose timer thread
sweeps the captured keys in between.

* `pass`: one pass of the loop of `capture`, with the write it does in `onEvent`.
* `deliver`: a pass whose write succeeds (`pass_eq_deliver`).
* `step`, `run`: passes and sweeps in any order.
-/

namespace Hemiola

open Lib KeyTable

structure Main where
  eventHandler : KeyboardEvents
  hemiola : Hemiola
deriving DecidableEq

namespace Main

def init : Main := ⟨.init, .init⟩

/-- The body of the `try` block of `onEvent`: `result` and `errno` belong to the write, `ord` and
`now` to `addKey`. -/
def onEvent (hemiola : Hemiola) (result errno : Int) (ord : KeyOrder) (now : Int)
    (report : KeyReport) (keyRep : Nat) : Except IoException Hemiola :=
  match USBHID.write report result errno with
  | .ok _ => .ok (hemiola.addKey ord now keyRep)
  | .error e => .error e

/-- One pass of the loop of `capture`. `onEvent` catches its exception itself, so the loop goes on
with the event handler as the event left it. -/
def pass (this : Main) (result errno : Int) (ord : KeyOrder) (now : Int) (event : InputEvent) :
    Main :=
  let eventHandler := this.eventHandler.updateKeyState event
  match onEvent this.hemiola result errno ord now eventHandler.mKeyReport eventHandler.mKeyRep with
  | .ok hemiola => ⟨eventHandler, hemiola⟩
  | .error _ => ⟨eventHandler, this.hemiola⟩

/-- A pass whose write succeeds. -/
def deliver (this : Main) (ord : KeyOrder) (now : Int) (event : InputEvent) : Main :=
  let eventHandler := this.eventHandler.updateKeyState event
  ⟨eventHandler, this.hemiola.addKey ord now eventHandler.mKeyRep⟩

theorem pass_eq_deliver (this : Main) {result : Int} (h : 0 < result) (errno : Int)
    (ord : KeyOrder) (now : Int) (event : InputEvent) :
    this.pass result errno ord now event = this.deliver ord now event := by
  simp only [pass, onEvent, USBHID.write, if_neg (not_le.mpr h), deliver]

theorem pass_of_failed (this : Main) {result : Int} (h : result ≤ 0) (errno : Int)
    (ord : KeyOrder) (now : Int) (event : InputEvent) :
    this.pass result errno ord now event =
      { this with eventHandler := this.eventHandler.updateKeyState event } := by
  simp only [pass, onEvent, USBHID.write, if_pos h]

/-- An event that is delivered, or a round of the timer loop. -/
inductive Input where
  | event (event : InputEvent) (ord : KeyOrder) (now : Int)
  | sweep (ord : KeyOrder) (now : Nat → Int)

def step (this : Main) : Input → Main
  | .event event ord now => this.deliver ord now event
  | .sweep ord now => { this with hemiola := (this.hemiola.sweep ord now).2 }

/-- The state after a series of events and sweeps. -/
def run (this : Main) (inputs : List Input) : Main := inputs.foldl step this

/-- The events among the inputs. -/
def events (inputs : List Input) : List InputEvent :=
  inputs.filterMap fun
    | .event event _ _ => some event
    | .sweep _ _ => none

/-- A press or a release is of a key the table knows. -/
def KnownAction : KeyAction → Prop
  | .make k => isKeyValid k = true
  | .break k => isKeyValid k = true
  | .other => True

def Known : Input → Prop
  | .event event _ _ => KnownAction event.action
  | .sweep _ _ => True

instance : ∀ action, Decidable (KnownAction action)
  | .make k => inferInstanceAs (Decidable (isKeyValid k = true))
  | .break k => inferInstanceAs (Decidable (isKeyValid k = true))
  | .other => .isTrue trivial

instance : ∀ input, Decidable (Known input)
  | .event event _ _ => inferInstanceAs (Decidable (KnownAction event.action))
  | .sweep _ _ => .isTrue trivial

section Deliver

variable (this : Main) (ord : KeyOrder) (now : Int) (event : InputEvent)

@[simp] theorem deliver_mKeyReport :
    (this.deliver ord now event).eventHandler.mKeyReport =
      KeyboardEvents.reportStep this.eventHandler.mKeyReport event.action :=
  KeyboardEvents.updateKeyState_mKeyReport this.eventHandler event

theorem deliver_hemiola :
    (this.deliver ord now event).hemiola = this.hemiola.addKey ord now
      (KeyboardEvents.repStep this.eventHandler.mKeyReport event.action) := by
  rw [← KeyboardEvents.updateKeyState_mKeyRep]
  rfl

theorem deliver_mModSequence :
    (this.deliver ord now event).hemiola.mModSequence =
      let key := KeyboardEvents.repStep this.eventHandler.mKeyReport event.action
      if Hemiola.isTracked key then Toggle.toggle key this.hemiola.mModSequence
      else this.hemiola.mModSequence := by
  rw [deliver_hemiola, Hemiola.addKey_mModSequence]

end Deliver

end Main
end Hemiola
