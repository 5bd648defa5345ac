import Hemiola.Concurrent
import Hemiola.Lib.Simulation
import Hemiola.Wiring

/-!
# Hemiola.Sequential

Without a race it is as if the two threads took turns: the program does what `Program` does with
the same events, one at a time, and with whole rounds between them. The clock goes on from one
input to the next, and what a call or a round reads of it lies between its beginning and its end.

* `Spans`: when the calls or the rounds of a thread begin and end.
* `Clocked`: the clock readings of whole calls and rounds, in their times.
* `Serial`, `Serializes`: a series of inputs that leaves what whole calls and rounds leave.
* `sequential`: a run without a race is one of `Program`.
-/

namespace Hemiola

open Lib KeyTable
open Threads (Thread TimedEvent CallAt RoundAt Atomic)

namespace Program

/-- What an input makes the two threads write. -/
def writes (this : Program) : Input → List (Thread × USBHID.Data)
  | .event event result errno _ _ =>
    let eventHandler := this.main.eventHandler.updateKeyState event
    match USBHID.write eventHandler.mKeyReport result errno with
    | .ok data => [(.capture, data)]
    | .error _ => []
  | .round ord now memory =>
    (this.main.hemiola.round this.chords ord now memory).2.2.map fun report =>
      (.timer, USBHID.data report)

/-- What goes to the output device in a run. -/
def wire (this : Program) (inputs : List Input) : List (Thread × USBHID.Data) :=
  (answers step writes this inputs).flatten

/-- The clock readings of a call or of a round. -/
def reads (this : Program) : Input → List (Thread × List Int)
  | .event event result errno _ now =>
    let eventHandler := this.main.eventHandler.updateKeyState event
    match USBHID.write eventHandler.mKeyReport result errno with
    | .ok _ =>
      [(.capture, if this.main.hemiola.ReadsClock eventHandler.mKeyRep then [now] else [])]
    | .error _ => []
  | .round ord now _ => [(.timer, this.main.hemiola.readings ord now)]

/-- The clock readings of a run, call by call and round by round. -/
def clocked (this : Program) (inputs : List Input) : List (Thread × List Int) :=
  (answers step reads this inputs).flatten

/-- The events of a run, with what their writes returned. -/
def handled (inputs : List Input) : List Handled :=
  inputs.filterMap fun
    | .event event result errno _ _ => some ⟨event, result, errno⟩
    | .round _ _ _ => none

theorem wire_concat (this : Program) (inputs : List Input) (input : Input) :
    this.wire (inputs ++ [input]) = this.wire inputs ++ (this.run inputs).writes input := by
  rw [wire, answers_concat, List.flatten_concat]
  rfl

theorem clocked_concat (this : Program) (inputs : List Input) (input : Input) :
    this.clocked (inputs ++ [input]) = this.clocked inputs ++ (this.run inputs).reads input := by
  rw [clocked, answers_concat, List.flatten_concat]
  rfl

theorem run_concat (this : Program) (inputs : List Input) (input : Input) :
    this.run (inputs ++ [input]) = (this.run inputs).step input :=
  List.foldl_concat ..

end Program

namespace Concurrent

/-! ## Times -/

/-- When the calls or rounds of a thread began and ended, and when the last of them began. -/
structure Spans where
  closed : List (Int × Int)
  since : Int
deriving DecidableEq

def Spans.next (thread : Thread) (this : Spans) (event : TimedEvent) : Spans :=
  if event.1.thread ≠ thread then this
  else if event.1.begins then { this with since := event.2 }
  else { this with closed := this.closed ++ [(this.since, event.2)] }

def spans (thread : Thread) (events : List TimedEvent) : Spans :=
  events.foldl (Spans.next thread) ⟨[], 0⟩

theorem spans_concat (thread : Thread) (events : List TimedEvent) (event : TimedEvent) :
    spans thread (events ++ [event]) = (spans thread events).next thread event :=
  List.foldl_concat ..

/-- The readings of each call or round lie between its beginning and its end. -/
def InTime (closed : List (Int × Int)) (readings : List (List Int)) : Prop :=
  List.Forall₂ (fun span readings => Ascending span.1 readings span.2) closed readings

/-- The same where the last has made its readings, up to the time `till`, and has not ended. -/
def Spans.Hold (this : Spans) (readings : List (List Int)) : Option Int → Prop
  | none => InTime this.closed readings
  | some till => ∃ before last, readings = before ++ [last] ∧ InTime this.closed before ∧
      Ascending this.since last till

/-- A call or round comes to its end. -/
theorem Spans.Hold.close {this : Spans} {readings : List (List Int)} {till time : Int}
    (h : this.Hold readings (some till)) (htill : till ≤ time) :
    InTime (this.closed ++ [(this.since, time)]) readings := by
  obtain ⟨before, last, rfl, hbefore, hlast⟩ := h
  exact List.rel_append hbefore (.cons (hlast.widen le_rfl htill) .nil)

/-- The time up to which a call has made its readings. -/
def callTill (time : Int) : CallAt → Option Int
  | .done => some time
  | .outside | .called _ => none

def roundTill : RoundAt → Option Int
  | .done till => some till
  | .outside | .begun _ => none

/-- The time from which on the clock will be read. -/
def readFrom (time : Int) : RoundAt → Int
  | .outside => time
  | .begun since => since
  | .done till => till

/-- The readings of whole calls and rounds: one after another, and each in its time. -/
structure Clocked (clock : Int) (events : List TimedEvent) (reads : List (Thread × List Int))
    (inCall : CallAt) (inRound : RoundAt) (time : Int) : Prop where
  order : Ascending clock (reads.flatMap Prod.snd) (readFrom time inRound)
  calls : (spans .capture events).Hold (ofThread .capture reads) (callTill time inCall)
  called : ∀ key, inCall = .called key → (spans .capture events).since ≤ time
  rounds : (spans .timer events).Hold (ofThread .timer reads) (roundTill inRound)
  begun : ∀ since, inRound = .begun since → (spans .timer events).since = since

section Clocked

variable {clock : Int} {events : List TimedEvent} {reads : List (Thread × List Int)}
  {inCall : CallAt} {inRound : RoundAt} {time : Int}

theorem clocked_start (clock : Int) : Clocked clock [] [] .outside .outside clock :=
  ⟨le_rfl, .nil, nofun, .nil, nofun⟩

theorem Clocked.tick (h : Clocked clock events reads inCall inRound time) (elapsed : Nat) :
    Clocked clock events reads inCall inRound (time + elapsed) := by
  have hlater : time ≤ time + elapsed := Int.le_add_of_nonneg_right (Int.natCast_nonneg elapsed)
  refine ⟨?_, ?_, fun key hat => (h.called key hat).trans hlater, h.rounds, h.begun⟩
  · cases inRound with
    | outside => exact h.order.widen le_rfl hlater
    | begun | done => exact h.order
  · cases inCall with
    | outside | called => exact h.calls
    | done =>
      obtain ⟨before, last, hreads, hbefore, hlast⟩ := h.calls
      exact ⟨before, last, hreads, hbefore, hlast.widen le_rfl hlater⟩

theorem Clocked.call (h : Clocked clock events reads .outside inRound time) (key : Nat) :
    Clocked clock (events ++ [(.called key, time)]) reads (.called key) inRound time := by
  refine ⟨h.order, ?_, fun _ _ => ?_, ?_, fun since hat => ?_⟩
  · rw [spans_concat]
    exact h.calls
  · rw [spans_concat]
    exact le_rfl
  · rw [spans_concat]
    exact h.rounds
  · rw [spans_concat]
    exact h.begun since hat

/-- A call takes effect, and reads the clock outside of any round if it does. -/
theorem Clocked.addKey {key : Nat} (h : Clocked clock events reads (.called key) inRound time)
    {readings : List Int}
    (hreads : readings = [] ∨ readings = [time] ∧ inRound = .outside) :
    Clocked clock events (reads ++ [(.capture, readings)]) .done inRound time := by
  have hsince := h.called key rfl
  refine ⟨?_, ?_, nofun, ?_, h.begun⟩
  · rw [List.flatMap_append, List.flatMap_singleton]
    rcases hreads with rfl | ⟨rfl, rfl⟩
    · rw [List.append_nil]
      exact h.order
    · exact h.order.concat
  · refine ⟨_, readings, ofThread_append _ _ _, h.calls, ?_⟩
    rcases hreads with rfl | ⟨rfl, _⟩
    · exact hsince
    · exact ⟨hsince, le_rfl⟩
  · rw [ofThread_append]
    exact (List.append_nil (ofThread .timer reads)).symm ▸ h.rounds

theorem Clocked.ret (h : Clocked clock events reads .done inRound time) :
    Clocked clock (events ++ [(.returned, time)]) reads .outside inRound time := by
  refine ⟨h.order, ?_, nofun, ?_, fun since hat => ?_⟩
  · rw [spans_concat]
    exact h.calls.close le_rfl
  · rw [spans_concat]
    exact h.rounds
  · rw [spans_concat]
    exact h.begun since hat

theorem Clocked.begin (h : Clocked clock events reads inCall .outside time) :
    Clocked clock (events ++ [(.began, time)]) reads inCall (.begun time) time := by
  refine ⟨h.order, ?_, fun key hat => ?_, ?_, fun since hat => ?_⟩
  · rw [spans_concat]
    exact h.calls
  · rw [spans_concat]
    exact h.called key hat
  · rw [spans_concat]
    exact h.rounds
  · rw [spans_concat]
    cases hat
    rfl

theorem Clocked.round {since till : Int} (h : Clocked clock events reads inCall (.begun since) time)
    {readings : List Int} (hreads : Ascending since readings till) :
    Clocked clock events (reads ++ [(.timer, readings)]) inCall (.done till) time := by
  refine ⟨?_, ?_, h.called, ?_, nofun⟩
  · rw [List.flatMap_append, List.flatMap_singleton]
    exact h.order.append hreads
  · rw [ofThread_append]
    exact (List.append_nil (ofThread .capture reads)).symm ▸ h.calls
  · refine ⟨_, readings, ofThread_append _ _ _, h.rounds, ?_⟩
    rw [h.begun since rfl]
    exact hreads

theorem Clocked.finish {till : Int} (h : Clocked clock events reads inCall (.done till) time)
    (htill : till ≤ time) :
    Clocked clock (events ++ [(.ended, time)]) reads inCall .outside time := by
  refine ⟨h.order.widen le_rfl htill, ?_, fun key hat => ?_, ?_, nofun⟩
  · rw [spans_concat]
    exact h.calls
  · rw [spans_concat]
    exact h.called key hat
  · rw [spans_concat]
    exact h.rounds.close htill

end Clocked

/-! ## One input at a time -/

/-- Some inputs of the program handle the turns and leave this. -/
def Serial (config : Config) (turns : List Handled) (this : Hemiola) (chords : KeyChords)
    (written : List KeyReport) (reads : List (Thread × List Int)) : Prop :=
  ∃ inputs, Program.handled inputs = turns ∧
    (Program.start config).run inputs = ⟨⟨(progress turns).eventHandler, this⟩, chords⟩ ∧
    ofThread .capture ((Program.start config).wire inputs) = (progress turns).writes ∧
    ofThread .timer ((Program.start config).wire inputs) = written.map USBHID.data ∧
    (Program.start config).clocked inputs = reads

section Serial

variable {config : Config} {turns : List Handled} {this : Hemiola} {chords : KeyChords}
  {written : List KeyReport} {reads : List (Thread × List Int)}

theorem serial_start (config : Config) : Serial config [] .init .fresh [] [] :=
  ⟨[], rfl, rfl, rfl, rfl, rfl⟩

/-- One more input, from the state that the others leave. -/
theorem Serial.concat (h : Serial config turns this chords written reads) (input : Program.Input)
    {turns' : List Handled} {this' : Hemiola} {chords' : KeyChords} {written' : List KeyReport}
    {reads' : List (Thread × List Int)} (hturns : turns' = turns ++ Program.handled [input])
    (hstep : Program.step ⟨⟨(progress turns).eventHandler, this⟩, chords⟩ input =
      ⟨⟨(progress turns').eventHandler, this'⟩, chords'⟩)
    (hpassed : (progress turns').writes = (progress turns).writes ++
      ofThread .capture (Program.writes ⟨⟨(progress turns).eventHandler, this⟩, chords⟩ input))
    (htyped : written'.map USBHID.data = written.map USBHID.data ++
      ofThread .timer (Program.writes ⟨⟨(progress turns).eventHandler, this⟩, chords⟩ input))
    (hreads : reads' =
      reads ++ Program.reads ⟨⟨(progress turns).eventHandler, this⟩, chords⟩ input) :
    Serial config turns' this' chords' written' reads' := by
  obtain ⟨inputs, hhandled, hrun, hcapture, htimer, hclocked⟩ := h
  refine ⟨inputs ++ [input], ?_, ?_, ?_, ?_, ?_⟩
  · rw [hturns, ← hhandled]
    exact List.filterMap_append
  · rw [Program.run_concat, hrun, hstep]
  · rw [Program.wire_concat, ofThread_append, hcapture, hrun, hpassed]
  · rw [Program.wire_concat, ofThread_append, htimer, hrun, htyped]
  · rw [Program.clocked_concat, hclocked, hrun, hreads]

/-- An event whose write succeeds. -/
theorem Serial.deliver (h : Serial config turns this chords written reads) {turn : Handled}
    {data : USBHID.Data}
    (hwrite : USBHID.write ((progress turns).eventHandler.updateKeyState turn.event).mKeyReport
      turn.result turn.errno = .ok data) (ord : KeyOrder) (now : Int) {key : Nat}
    (hkey : ((progress turns).eventHandler.updateKeyState turn.event).mKeyRep = key) :
    Serial config (turns ++ [turn]) (this.addKey ord now key) chords written
      (reads ++ [(.capture, if this.ReadsClock key then [now] else [])]) := by
  subst hkey
  have hnext := (progress_concat turns turn).trans (Progress.next_of_ok hwrite)
  refine h.concat (.event turn.event turn.result turn.errno ord now) rfl ?_ ?_ ?_ ?_
  · simp only [Program.step, Main.pass, Main.onEvent, hwrite, hnext]
  · simp only [Program.writes, hwrite, hnext]
    rfl
  · simp only [Program.writes, hwrite]
    exact (List.append_nil _).symm
  · simp only [Program.reads, hwrite]

/-- An event whose write fails. -/
theorem Serial.failed (h : Serial config turns this chords written reads) {turn : Handled}
    {e : IoException}
    (hwrite : USBHID.write ((progress turns).eventHandler.updateKeyState turn.event).mKeyReport
      turn.result turn.errno = .error e) :
    Serial config (turns ++ [turn]) this chords written reads := by
  let ord := UnorderedMap.Order.stored Nat Int
  have hnext := (progress_concat turns turn).trans (Progress.next_of_error hwrite)
  refine h.concat (.event turn.event turn.result turn.errno ord 0) rfl ?_ ?_ ?_ ?_
  · simp only [Program.step, Main.pass, Main.onEvent, hwrite, hnext]
  · simp only [Program.writes, hwrite, hnext]
    exact (List.append_nil _).symm
  · simp only [Program.writes, hwrite]
    exact (List.append_nil _).symm
  · simp only [Program.reads, hwrite, List.append_nil]

theorem Serial.round (h : Serial config turns this chords written reads) (ord : KeyOrder)
    (now : Nat → Int) (memory : Nat → UInt8) :
    Serial config turns (this.round chords ord now memory).1
      (this.round chords ord now memory).2.1
      (written ++ (this.round chords ord now memory).2.2)
      (reads ++ [(.timer, this.readings ord now)]) := by
  refine h.concat (.round ord now memory) (List.append_nil turns).symm rfl ?_ ?_ rfl
  · rw [Program.writes, ofThread_map]
    exact (List.append_nil _).symm
  · rw [Program.writes, ofThread_map, List.map_append]
    rfl

end Serial

/-- The calls that have taken effect, of those that have begun. -/
def Effected (keys done : List Nat) : CallAt → Prop
  | .called key => keys = done ++ [key]
  | .outside | .done => keys = done

/-- Whatever turns hand over the key numbers of the calls that have taken effect, some inputs
handle them and leave what the atomic machine has left, with readings that are in time. -/
def Serializes (config : Config) (clock : Int) (events : List TimedEvent) (a : Atomic) : Prop :=
  ∃ done reads, Effected (Threads.delivered (events.map Prod.fst)) done a.call ∧
    Clocked clock events reads a.call a.round a.clock ∧
    ∀ turns, (progress turns).keys = done →
      Serial config turns a.this a.chords a.written reads

/-- Turns that hand nothing over. -/
theorem serializes_start (config : Config) (clock : Int) :
    Serializes config clock [] (Atomic.start .fresh clock) := by
  refine ⟨[], [], rfl, clocked_start clock, fun turns hkeys => ?_⟩
  induction turns using List.reverseRecOn with
  | nil => exact serial_start config
  | append_singleton turns turn ih =>
    rw [progress_concat] at hkeys
    cases hwrite : USBHID.write ((progress turns).eventHandler.updateKeyState
        turn.event).mKeyReport turn.result turn.errno with
    | ok data =>
      rw [Progress.next_of_ok hwrite] at hkeys
      exact absurd hkeys (List.concat_ne_nil _ _)
    | error e =>
      rw [Progress.next_of_error hwrite] at hkeys
      exact (ih hkeys).failed hwrite

/-- A call that takes effect is that of the last turn whose write succeeded. -/
theorem serial_addKey {config : Config} {done : List Nat} {this : Hemiola} {chords : KeyChords}
    {written : List KeyReport} {reads : List (Thread × List Int)}
    (h : ∀ turns, (progress turns).keys = done → Serial config turns this chords written reads)
    (ord : KeyOrder) (now : Int) {key : Nat} {turns : List Handled}
    (hkeys : (progress turns).keys = done ++ [key]) :
    Serial config turns (this.addKey ord now key) chords written
      (reads ++ [(.capture, if this.ReadsClock key then [now] else [])]) := by
  induction turns using List.reverseRecOn with
  | nil => exact absurd hkeys.symm (List.concat_ne_nil _ _)
  | append_singleton turns turn ih =>
    rw [progress_concat] at hkeys
    cases hwrite : USBHID.write ((progress turns).eventHandler.updateKeyState
        turn.event).mKeyReport turn.result turn.errno with
    | ok data =>
      rw [Progress.next_of_ok hwrite] at hkeys
      obtain ⟨hdone, hkey⟩ := List.append_inj' hkeys rfl
      exact (h turns hdone).deliver hwrite ord now (List.singleton_injective hkey)
    | error e =>
      rw [Progress.next_of_error hwrite] at hkeys
      exact (ih hkeys).failed hwrite

theorem delivered_seen (events : List TimedEvent) (event : Threads.Event) (time : Int) :
    Threads.delivered ((events ++ [(event, time)]).map Prod.fst) =
      Threads.delivered (events.map Prod.fst) ++ Threads.delivered [event] := by
  rw [List.map_append]
  exact List.filterMap_append

theorem Serializes.step {config : Config} {clock : Int} {events : List TimedEvent} {a b : Atomic}
    {e : Option Threads.Event} (h : Serializes config clock events a)
    (hstep : Atomic.Step a e b) :
    Serializes config clock (events ++ visible [e.map fun x => (x, a.clock)]) b := by
  obtain ⟨done, reads, heffected, hclocked, hserial⟩ := h
  obtain ⟨⟨this, place, time⟩, chords, written, round⟩ := a
  have hsilent {c : Atomic} (h : Serializes config clock events c) :
      Serializes config clock
        (events ++ visible [(none : Option Threads.Event).map fun x => (x, time)]) c := by
    rwa [Option.map_none, visible_none, List.append_nil]
  cases hstep with
  | call hcall =>
    cases hcall with
    | @call _ _ key =>
      refine ⟨done, reads, ?_, hclocked.call key, hserial⟩
      exact (delivered_seen events _ _).trans (congrArg (· ++ [key]) heffected)
    | @addKey _ _ ord key hfree =>
      refine hsilent ⟨done ++ [key], _, heffected, hclocked.addKey ?_, fun turns hkeys =>
        serial_addKey hserial ord time hkeys⟩
      split_ifs with hreads
      · exact .inr ⟨rfl, hfree hreads⟩
      · exact .inl rfl
    | ret =>
      refine ⟨done, reads, ?_, hclocked.ret, hserial⟩
      exact (delivered_seen events _ _).trans ((List.append_nil _).trans heffected)
    | @tick _ elapsed => exact hsilent ⟨done, reads, heffected, hclocked.tick elapsed, hserial⟩
  | begin hat =>
    cases hat
    have hsame := (delivered_seen events .began time).trans (List.append_nil _)
    exact ⟨done, reads, hsame.symm ▸ heffected, hclocked.begin, hserial⟩
  | @round ord now memory since till hat hnow =>
    cases hat
    exact hsilent ⟨done, _, heffected, hclocked.round hnow, fun turns hkeys =>
      (hserial turns hkeys).round ord now memory⟩
  | finish hat htill =>
    cases hat
    have hsame := (delivered_seen events .ended time).trans (List.append_nil _)
    exact ⟨done, reads, hsame.symm ▸ heffected, hclocked.finish htill, hserial⟩

theorem serializes_of_steps (config : Config) {clock : Int} {acts : List (Option TimedEvent)}
    {a : Atomic} (h : Steps Atomic.TimedStep (Atomic.start .fresh clock) acts a) :
    Serializes config clock (visible acts) a := by
  refine Steps.inv_along (I := fun acts a => Serializes config clock (visible acts) a)
    (fun acts a e b hs hstep => ?_) (serializes_start config clock) h
  rw [visible_append]
  cases hstep with
  | step hstep => exact hs.step hstep

/-! ## Runs -/

/-- **The program does one thing at a time.** Whatever the order in which the two threads take
their steps, a run without a race leaves, when all events read have been dealt with and both
threads are idle, what the program leaves that handles the same events one at a time, with the
same results of their writes and with whole rounds of the timer loop between them. Each thread
has written to the output device what it writes there, in the same order; and the clock goes on
from one input to the next, the readings of each call and each round of the run lying between its
beginning and its end. -/
theorem sequential (config : Config) {clock : Int} {acts : List Act} {s : State}
    (h : Steps RaceFree (start clock) acts s) (hidle : Idle s) :
    ∃ inputs, Program.handled inputs = handled acts ∧
      (Program.start config).run inputs = ⟨⟨s.eventHandler, s.threads.this⟩, s.threads.chords⟩ ∧
      (∀ thread, ofThread thread ((Program.start config).wire inputs) = ofThread thread s.wire) ∧
      Ascending clock (((Program.start config).clocked inputs).flatMap Prod.snd)
        s.threads.clock ∧
      ∀ thread, InTime (spans thread (shown acts)).closed
        (ofThread thread ((Program.start config).clocked inputs)) := by
  obtain ⟨hreading, hidle⟩ := hidle
  have hfollows := follows_of_steps h
  have hplace := hfollows.place
  rw [hreading] at hplace
  obtain ⟨hhandler, hkeys⟩ := hplace
  have hracy : ¬ Threads.Racy s.threads := by
    rw [Threads.Racy, hidle.1]
    simp [Threads.CaptureAt.access, Threads.Access.conflicts]
  obtain ⟨acts', a, hatomic, hshown, heq⟩ := Threads.Explained.exists_run
    ((Threads.linear_of_steps (steps_threads h)).explained.resolve_left hracy)
  obtain ⟨done, reads, heffected, hclocked, hserial⟩ := serializes_of_steps config hatomic
  rw [hshown] at heffected hclocked
  obtain rfl := heq hidle
  obtain rfl : delivered acts = done := heffected
  obtain ⟨inputs, hturns, hrun, hpassed, htyped, rfl⟩ := hserial (handled acts) hkeys.symm
  refine ⟨inputs, hturns, ?_, fun thread => ?_, hclocked.order, fun thread => ?_⟩
  · rw [hrun, hhandler]
  · cases thread with
    | capture => rw [hpassed, hfollows.passed]
    | timer => rw [htyped, hfollows.typed]
  · cases thread with
    | capture => exact hclocked.calls
    | timer => exact hclocked.rounds

/-- `A` is read, written and called while a round is under way, and captured when the round is
over. -/
theorem sequential_waiting :
    ∃ acts s, Steps RaceFree (start 0) acts s ∧ handled acts = [⟨.make keyA, 8, 0⟩] ∧
      spans .capture (shown acts) = ⟨[(5, 10)], 5⟩ ∧
      s.threads.this.mCaptured.find? keyA = some 10 ∧
      ∃ inputs, Program.handled inputs = [⟨.make keyA, 8, 0⟩] ∧
        (Program.start ⟨none, none, none, none⟩).run inputs =
          ⟨⟨s.eventHandler, s.threads.this⟩, s.threads.chords⟩ ∧
        InTime [(5, 10)]
          (ofThread .capture ((Program.start ⟨none, none, none, none⟩).clocked inputs)) := by
  obtain ⟨acts, s, hsteps, hhandled, hspans, hfind, hidle⟩ : ∃ acts s,
      Steps RaceFree (start 0) acts s ∧ handled acts = [⟨.make keyA, 8, 0⟩] ∧
      spans .capture (shown acts) = ⟨[(5, 10)], 5⟩ ∧
      s.threads.this.mCaptured.find? keyA = some 10 ∧ Idle s := by
    let ord := UnorderedMap.Order.stored Nat Int
    have h0 : Steps RaceFree (start 0) [] _ := .refl
    have h1 := h0.tail ⟨by decide, .timer (.lock rfl rfl)⟩
    have h2 := h1.tail ⟨by decide, .timer (@Threads.TimerStep.sweep _ ord rfl)⟩
    have h3 := h2.tail ⟨by decide, @Step.getEvent _ (.make keyA) rfl rfl⟩
    have h4 := h3.tail ⟨by decide, @Step.write _ (.make keyA) 8 0 _ rfl rfl⟩
    have h5 := h4.tail ⟨by decide, @Step.tick _ 5⟩
    have h6 := h5.tail ⟨by decide, .addKey rfl (@Threads.CaptureStep.call _ ord keyA rfl)⟩
    have h7 := h6.tail ⟨by decide, .timer (.swept rfl)⟩
    have h8 := h7.tail ⟨by decide, .timer (.getWord rfl)⟩
    have h9 := h8.tail ⟨by decide, .timer (.typed rfl)⟩
    have h10 := h9.tail ⟨by decide, @Step.tick _ 5⟩
    have h11 := h10.tail ⟨by decide, .timer (.unlock rfl)⟩
    have h12 := h11.tail ⟨by decide, .capture (by simp) (@Threads.CaptureStep.lock _ keyA rfl rfl)⟩
    have h13 := h12.tail ⟨by decide, .capture (by simp) (.store rfl)⟩
    have h14 := h13.tail ⟨by decide, .capture (by simp) (.unlock rfl)⟩
    have h15 := h14.tail ⟨by decide, .capture (by simp) (.ret rfl)⟩
    exact ⟨_, _, h15, rfl, by decide, by decide, rfl, rfl, rfl⟩
  obtain ⟨inputs, hturns, hrun, _, _, htimes⟩ := sequential ⟨none, none, none, none⟩ hsteps hidle
  have hcall := htimes .capture
  rw [hspans] at hcall
  rw [hhandled] at hturns
  exact ⟨acts, s, hsteps, hhandled, hspans, hfind, inputs, hturns, hrun, hcall⟩

end Concurrent
end Hemiola
