import Hemiola.KeyboardEvents
import Hemiola.USBHID

/-!
# Hemiola.Capture

`capture`: the loop that reads events, folds them into the key state and hands it to `onEvent`,
and the handler that closes the device and reports the exception that ended the loop. Exceptions
are of any type `ε`. The trace records what the function does, in order.

* `served`: the reads and calls for the first events, each with the state they leave.
* `Stop`: what ends the loop, a call that throws or the read that does.
* `capture_trace`: the trace is that of the events up to the stop, then `close`, then `onError`.
-/

namespace Hemiola

/-- The events that `read` yields, and the exception it throws after them. -/
structure InputHID (ε : Type*) where
  events : List InputEvent
  failure : ε

namespace KeyboardEvents

variable {ε : Type*}

/-- The functions that `capture` calls, each with the exception it throws, if any. What `onEvent`
does may depend on all the calls so far, of which the last one is the present one. -/
structure Callbacks (ε : Type*) where
  onEvent : List (KeyReport × Nat) → Option ε
  close : Option ε
  onError : ε → Option ε

inductive Action (ε : Type*) where
  | read (event : InputEvent)
  | readFailed (e : ε)
  | onEvent (report : KeyReport) (keyRep : Nat)
  | close
  | onError (e : ε)
deriving DecidableEq

/-- What the `try` block leaves: its trace, the key state and the exception. `getEvent` returns
`true` or throws, so the loop has no other end. -/
structure Thrown (ε : Type*) where
  trace : List (Action ε)
  this : KeyboardEvents
  e : ε

/-- The `try` block of `capture` on the events still to come, `past` being the calls made. -/
def loop (onEvent : List (KeyReport × Nat) → Option ε) (failure : ε) :
    KeyboardEvents → List (KeyReport × Nat) → List InputEvent → Thrown ε
  | this, _, [] => ⟨[.readFailed failure], this, failure⟩
  | this, past, event :: events =>
    let this := this.updateKeyState event
    let calls := past ++ [(this.mKeyReport, this.mKeyRep)]
    let served := [.read event, .onEvent this.mKeyReport this.mKeyRep]
    match onEvent calls with
    | some e => ⟨served, this, e⟩
    | none =>
      let rest := loop onEvent failure this calls events
      { rest with trace := served ++ rest.trace }

/-- The trace, the key state after the call, and how the call ends. -/
def capture (this : KeyboardEvents) (device : InputHID ε) (callbacks : Callbacks ε) :
    List (Action ε) × KeyboardEvents × Except ε Unit :=
  let thrown := loop callbacks.onEvent device.failure this [] device.events
  match callbacks.close with
  | some e => (thrown.trace ++ [.close], thrown.this, .error e)
  | none =>
    let trace := thrown.trace ++ [.close, .onError thrown.e]
    match callbacks.onError thrown.e with
    | some e => (trace, thrown.this, .error e)
    | none => (trace, thrown.this, .ok ())

/-! ## The calls -/

/-- The report and the key number after the first `i` events. -/
def call (this : KeyboardEvents) (events : List InputEvent) (i : Nat) : KeyReport × Nat :=
  let this := this.run (events.take i)
  (this.mKeyReport, this.mKeyRep)

/-- The calls for the first `n` events. -/
def calls (this : KeyboardEvents) (events : List InputEvent) (n : Nat) : List (KeyReport × Nat) :=
  (List.range n).map fun i => this.call events (i + 1)

/-- The trace of the first `n` events. -/
def served (this : KeyboardEvents) (events : List InputEvent) (n : Nat) : List (Action ε) :=
  ((events.take n).zip (this.calls events n)).flatMap fun (event, report, keyRep) =>
    [.read event, .onEvent report keyRep]

theorem calls_cons (this : KeyboardEvents) (event : InputEvent) (events : List InputEvent)
    (n : Nat) :
    this.calls (event :: events) (n + 1) =
      ((this.updateKeyState event).mKeyReport, (this.updateKeyState event).mKeyRep) ::
        (this.updateKeyState event).calls events n := by
  rw [calls, List.range_succ_eq_map, List.map_cons, List.map_map]
  rfl

/-- The calls after the first one, which joins the `past`. -/
theorem past_calls (past : List (KeyReport × Nat)) (this : KeyboardEvents) (event : InputEvent)
    (events : List InputEvent) (n : Nat) :
    past ++ this.calls (event :: events) (n + 1) =
      past ++ [((this.updateKeyState event).mKeyReport, (this.updateKeyState event).mKeyRep)] ++
        (this.updateKeyState event).calls events n := by
  rw [calls_cons, List.append_assoc]
  rfl

theorem served_cons (this : KeyboardEvents) (event : InputEvent) (events : List InputEvent)
    (n : Nat) :
    (this.served (event :: events) (n + 1) : List (Action ε)) =
      [.read event, .onEvent (this.updateKeyState event).mKeyReport
        (this.updateKeyState event).mKeyRep] ++ (this.updateKeyState event).served events n := by
  rw [served, calls_cons]
  rfl

/-! ## The loop -/

section Loop

variable {onEvent : List (KeyReport × Nat) → Option ε} {failure : ε}

theorem loop_cons {this : KeyboardEvents} {past : List (KeyReport × Nat)} {event : InputEvent}
    {events : List InputEvent} {rest : Thrown ε}
    (hquiet : onEvent (past ++ this.calls (event :: events) 1) = none)
    (hrest : loop onEvent failure (this.updateKeyState event)
      (past ++ [((this.updateKeyState event).mKeyReport, (this.updateKeyState event).mKeyRep)])
      events = rest) :
    loop onEvent failure this past (event :: events) =
      { rest with trace := [.read event, .onEvent (this.updateKeyState event).mKeyReport
                              (this.updateKeyState event).mKeyRep] ++ rest.trace } := by
  have hfirst : onEvent (past ++ [((this.updateKeyState event).mKeyReport,
    (this.updateKeyState event).mKeyRep)]) = none := hquiet
  rw [loop, hfirst, ← hrest]

/-- The calls after the first one do not throw either. -/
theorem quiet_tail {this : KeyboardEvents} {past : List (KeyReport × Nat)} {event : InputEvent}
    {events : List InputEvent} {n : Nat}
    (hquiet : ∀ i < n + 1, onEvent (past ++ this.calls (event :: events) (i + 1)) = none) :
    ∀ i < n, onEvent (past ++ [((this.updateKeyState event).mKeyReport,
        (this.updateKeyState event).mKeyRep)] ++
      (this.updateKeyState event).calls events (i + 1)) = none := by
  intro i hi
  rw [← past_calls]
  exact hquiet (i + 1) (Nat.succ_lt_succ hi)

theorem loop_of_throws {this : KeyboardEvents} {past : List (KeyReport × Nat)}
    {events : List InputEvent} {n : Nat} {e : ε} (hn : n < events.length)
    (hthrows : onEvent (past ++ this.calls events (n + 1)) = some e)
    (hquiet : ∀ i < n, onEvent (past ++ this.calls events (i + 1)) = none) :
    loop onEvent failure this past events =
      ⟨this.served events (n + 1), this.run (events.take (n + 1)), e⟩ := by
  induction events generalizing this past n with
  | nil => exact absurd hn (Nat.not_lt_zero n)
  | cons event events ih =>
    rw [served_cons]
    cases n with
    | zero =>
      have hfirst : onEvent (past ++ [((this.updateKeyState event).mKeyReport,
        (this.updateKeyState event).mKeyRep)]) = some e := hthrows
      rw [loop, hfirst]
      rfl
    | succ n =>
      rw [past_calls] at hthrows
      have hrest := ih (Nat.lt_of_succ_lt_succ hn) hthrows (quiet_tail hquiet)
      exact loop_cons (hquiet 0 (Nat.succ_pos n)) hrest

theorem loop_of_quiet {this : KeyboardEvents} {past : List (KeyReport × Nat)}
    {events : List InputEvent}
    (hquiet : ∀ i < events.length, onEvent (past ++ this.calls events (i + 1)) = none) :
    loop onEvent failure this past events =
      ⟨this.served events events.length ++ [.readFailed failure], this.run events, failure⟩ := by
  induction events generalizing this past with
  | nil => rfl
  | cons event events ih =>
    rw [List.length_cons, served_cons]
    exact loop_cons (hquiet 0 (Nat.succ_pos _)) (ih (quiet_tail hquiet))

end Loop

/-! ## The trace -/

/-- The number of events served, what else the loop has done, and the exception that ends it: the
first call that throws, or the read after the last event when none does. -/
inductive Stop (this : KeyboardEvents) (device : InputHID ε)
    (onEvent : List (KeyReport × Nat) → Option ε) : Nat → List (Action ε) → ε → Prop where
  | call {n : Nat} {e : ε} (hn : n < device.events.length)
      (hthrows : onEvent (this.calls device.events (n + 1)) = some e)
      (hquiet : ∀ i < n, onEvent (this.calls device.events (i + 1)) = none) :
      Stop this device onEvent (n + 1) [] e
  | read (hquiet : ∀ i < device.events.length,
        onEvent (this.calls device.events (i + 1)) = none) :
      Stop this device onEvent device.events.length [.readFailed device.failure] device.failure

theorem exists_stop (this : KeyboardEvents) (device : InputHID ε)
    (onEvent : List (KeyReport × Nat) → Option ε) :
    ∃ n last e, Stop this device onEvent n last e := by
  classical
  by_cases hquiet : ∀ i < device.events.length,
      onEvent (this.calls device.events (i + 1)) = none
  · exact ⟨_, _, _, .read hquiet⟩
  · push Not at hquiet
    obtain ⟨hn, hthrows⟩ := Nat.find_spec hquiet
    obtain ⟨e, he⟩ := Option.ne_none_iff_exists'.mp hthrows
    refine ⟨_, _, e, .call hn he fun i hi => ?_⟩
    have hmin := Nat.find_min hquiet hi
    by_contra hne
    exact hmin ⟨hi.trans hn, hne⟩

theorem loop_of_stop {this : KeyboardEvents} {device : InputHID ε}
    {onEvent : List (KeyReport × Nat) → Option ε} {n : Nat} {last : List (Action ε)} {e : ε}
    (h : Stop this device onEvent n last e) :
    loop onEvent device.failure this [] device.events =
      ⟨this.served device.events n ++ last, this.run (device.events.take n), e⟩ := by
  cases h with
  | call hn hthrows hquiet =>
    rw [List.append_nil]
    exact loop_of_throws hn hthrows hquiet
  | read hquiet =>
    rw [List.take_length]
    exact loop_of_quiet hquiet

/-- **The trace of `capture`**, when `close` and `onError` do not throw: the events up to the
stop, each read and handed to `onEvent` with the state it leaves, nothing after them but the read
that throws, and then `close` and `onError` with the exception that ended the loop. -/
theorem capture_trace (this : KeyboardEvents) (device : InputHID ε) (callbacks : Callbacks ε)
    (hclose : callbacks.close = none) (honError : ∀ e, callbacks.onError e = none) :
    (∃ n last e, Stop this device callbacks.onEvent n last e) ∧
      ∀ n last e, Stop this device callbacks.onEvent n last e →
        this.capture device callbacks =
          (this.served device.events n ++ last ++ [.close, .onError e],
           this.run (device.events.take n), .ok ()) := by
  refine ⟨exists_stop this device callbacks.onEvent, fun n last e h => ?_⟩
  simp only [capture, loop_of_stop h, hclose, honError]

/-- A tap of `A` on a device that then has no more data. -/
theorem capture_trace_tap :
    let device : InputHID IoException :=
      ⟨[.make keyA, .break keyA], ⟨"No more data to read.", 42⟩⟩
    let report : KeyReport := (KeyReport.zero.setKey 0x04).1
    (init.capture device ⟨fun _ => none, none, fun _ => none⟩).1 =
      [.read (.make keyA), .onEvent report keyA, .read (.break keyA), .onEvent .zero keyA,
       .readFailed device.failure, .close, .onError device.failure] := by
  intro device report
  have htrace := (capture_trace init device ⟨fun _ => none, none, fun _ => none⟩ rfl
    fun _ => rfl).2 _ _ _ (.read fun _ _ => rfl)
  rw [htrace]
  decide

end KeyboardEvents
end Hemiola
