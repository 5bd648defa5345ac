import Hemiola.Linearizes
import Hemiola.Main
import Hemiola.Races

/-!
# Hemiola.Concurrent

The program with both of its threads at work, down to the output device. The capture thread reads
an event, brings its report up to date, writes it and calls `addKey`; the timer thread sweeps and
types in between.

* `Step`: the two threads of `Hemiola.Threads`, with `capture` and `onEvent` around the calls. The
  beginnings and ends of the calls and rounds are seen with their times.
* `steps_threads`: the threads take the steps of `Hemiola.Threads`.
* `progress`: what the capture thread makes of the events it has dealt with.
* `Follows`, `follows_of_steps`: where the capture thread stands, that is what it has done.
-/

namespace Hemiola

open Lib KeyTable
open Threads (Thread CaptureStep TimerStep Racy TimedEvent)

/-- An event that was read, and what its write returned. -/
structure Handled where
  event : InputEvent
  result : Int
  errno : Int
deriving DecidableEq

/-- What one of the threads does, of what both do. -/
def ofThread {α : Type*} (thread : Thread) (xs : List (Thread × α)) : List α :=
  xs.filterMap fun (other, x) => if other = thread then some x else none

section OfThread

variable {α : Type*} (thread : Thread)

@[simp] theorem ofThread_append (xs ys : List (Thread × α)) :
    ofThread thread (xs ++ ys) = ofThread thread xs ++ ofThread thread ys :=
  List.filterMap_append

/-- What only one of the threads does. -/
theorem ofThread_map {β : Type*} (other : Thread) (f : α → β) (xs : List α) :
    ofThread thread (xs.map fun x => (other, f x)) = if other = thread then xs.map f else [] := by
  rw [ofThread, List.filterMap_map]
  split_ifs with h
  · rw [← List.filterMap_eq_map]
    exact List.filterMap_congr fun _ _ => if_pos h
  · exact List.filterMap_eq_nil_iff.mpr fun _ _ => if_neg h

end OfThread

namespace Concurrent

/-! ## The two threads and the output device -/

/-- Where the capture thread stands in the loop of `capture`: at `getEvent`, or still in `addKey`;
at the write in `onEvent`; at the call of `addKey`. -/
inductive Place where
  | reading
  | writing (event : InputEvent)
  | calling
deriving DecidableEq

structure State where
  eventHandler : KeyboardEvents
  place : Place
  threads : Threads.State
  wire : List (Thread × USBHID.Data)

/-- The state in which both threads have been created. -/
def start (clock : Int) : State := ⟨.init, .reading, Threads.start .fresh clock, []⟩

/-- An event read, a write of the capture thread, or a step of `Threads`, with what is seen of it
and when. -/
inductive Act where
  | read (event : InputEvent)
  | wrote (event : InputEvent) (result errno : Int)
  | threads (e : Option TimedEvent)

/-- The timer thread has gone on. -/
def State.typed (s : State) (t : Threads.State) : State :=
  { s with threads := t,
           wire := s.wire ++ (t.written.drop s.threads.written.length).map fun report =>
             (.timer, USBHID.data report) }

inductive Step (s : State) : Act → State → Prop where
  | getEvent {event : InputEvent} (h : s.place = .reading) (hat : s.threads.capture = .outside) :
      Step s (.read event)
        { s with eventHandler := s.eventHandler.updateKeyState event, place := .writing event }
  | write {event : InputEvent} {result errno : Int} {data : USBHID.Data}
      (h : s.place = .writing event)
      (hwrite : USBHID.write s.eventHandler.mKeyReport result errno = .ok data) :
      Step s (.wrote event result errno)
        { s with wire := s.wire ++ [(.capture, data)], place := .calling }
  | failed {event : InputEvent} {result errno : Int} {e : IoException}
      (h : s.place = .writing event)
      (hwrite : USBHID.write s.eventHandler.mKeyReport result errno = .error e) :
      Step s (.wrote event result errno) { s with place := .reading }
  | addKey {t : Threads.State} (h : s.place = .calling)
      (hstep : CaptureStep s.threads (some (.called s.eventHandler.mKeyRep)) t) :
      Step s (.threads (some (.called s.eventHandler.mKeyRep, s.threads.clock)))
        { s with threads := t, place := .reading }
  | capture {e : Option Threads.Event} {t : Threads.State} (hnot : ∀ key, e ≠ some (.called key))
      (hstep : CaptureStep s.threads e t) :
      Step s (.threads (e.map fun x => (x, s.threads.clock))) { s with threads := t }
  | timer {e : Option Threads.Event} {t : Threads.State} (hstep : TimerStep s.threads e t) :
      Step s (.threads (e.map fun x => (x, s.threads.clock))) (s.typed t)
  | tick {elapsed : Nat} : Step s (.threads none) { s with threads := s.threads.after elapsed }

/-- A step taken where the threads do not race. -/
abbrev RaceFree : State → Act → State → Prop := Within (fun s => ¬ Racy s.threads) Step

/-- The events of a run, with what their writes returned. -/
def handled (acts : List Act) : List Handled :=
  acts.filterMap fun
    | .wrote event result errno => some ⟨event, result, errno⟩
    | .read _ | .threads _ => none

def Act.inThreads : Act → List (Option TimedEvent)
  | .threads e => [e]
  | .read _ | .wrote _ _ _ => []

/-- Nothing has been read that has not been dealt with, and neither thread is about anything. -/
def Idle (s : State) : Prop := s.place = .reading ∧ Threads.Idle s.threads

theorem handled_concat (acts : List Act) (act : Act) :
    handled (acts ++ [act]) = handled acts ++ handled [act] :=
  List.filterMap_append

theorem handled_read (acts : List Act) (event : InputEvent) :
    handled (acts ++ [.read event]) = handled acts := by
  rw [handled_concat]
  exact List.append_nil _

theorem handled_threads (acts : List Act) (e : Option TimedEvent) :
    handled (acts ++ [.threads e]) = handled acts := by
  rw [handled_concat]
  exact List.append_nil _

theorem handled_wrote (acts : List Act) (event : InputEvent) (result errno : Int) :
    handled (acts ++ [.wrote event result errno]) = handled acts ++ [⟨event, result, errno⟩] :=
  handled_concat _ _

/-- The calls and rounds of a run: when they begin and end. -/
def shown (acts : List Act) : List TimedEvent := visible (acts.flatMap Act.inThreads)

/-- The key numbers handed to `addKey`. -/
def delivered (acts : List Act) : List Nat := Threads.delivered ((shown acts).map Prod.fst)

theorem shown_concat (acts : List Act) (act : Act) :
    shown (acts ++ [act]) = shown acts ++ shown [act] := by
  rw [shown, List.flatMap_append, visible_append]
  rfl

theorem delivered_concat (acts : List Act) (act : Act) :
    delivered (acts ++ [act]) = delivered acts ++ delivered [act] := by
  rw [delivered, shown_concat, List.map_append, Threads.delivered, List.filterMap_append]
  rfl

theorem delivered_read (acts : List Act) (event : InputEvent) :
    delivered (acts ++ [.read event]) = delivered acts := by
  rw [delivered_concat]
  exact List.append_nil _

theorem delivered_wrote (acts : List Act) (event : InputEvent) (result errno : Int) :
    delivered (acts ++ [.wrote event result errno]) = delivered acts := by
  rw [delivered_concat]
  exact List.append_nil _

/-- The threads take the steps of `Threads`. -/
theorem steps_threads {s t : State} {acts : List Act} (h : Steps RaceFree s acts t) :
    Steps Threads.TimedRaceFree s.threads (acts.flatMap Act.inThreads) t.threads := by
  refine Steps.project (f := State.threads) (fun s act t hstep => ?_) h
  obtain ⟨hs, hstep⟩ := hstep
  cases hstep with
  | getEvent | write | failed => exact .refl
  | addKey _ hstep => exact .single (.seen ⟨hs, .capture hstep⟩)
  | capture _ hstep => exact .single (.step ⟨hs, .capture hstep⟩)
  | timer hstep => exact .single (.step ⟨hs, .timer hstep⟩)
  | tick => exact .single (.silent ⟨hs, .tick⟩)

/-! ## The capture thread -/

/-- What the capture thread makes of the events it has dealt with: its report, its writes and the
key numbers it hands over. -/
structure Progress where
  eventHandler : KeyboardEvents
  writes : List USBHID.Data
  keys : List Nat

def Progress.next (this : Progress) (turn : Handled) : Progress :=
  let eventHandler := this.eventHandler.updateKeyState turn.event
  match USBHID.write eventHandler.mKeyReport turn.result turn.errno with
  | .ok data => ⟨eventHandler, this.writes ++ [data], this.keys ++ [eventHandler.mKeyRep]⟩
  | .error _ => { this with eventHandler := eventHandler }

def progress (turns : List Handled) : Progress := turns.foldl .next ⟨.init, [], []⟩

theorem progress_concat (turns : List Handled) (turn : Handled) :
    progress (turns ++ [turn]) = (progress turns).next turn :=
  List.foldl_concat ..

theorem Progress.next_of_ok {this : Progress} {turn : Handled} {data : USBHID.Data}
    (h : USBHID.write (this.eventHandler.updateKeyState turn.event).mKeyReport turn.result
      turn.errno = .ok data) :
    this.next turn = ⟨this.eventHandler.updateKeyState turn.event, this.writes ++ [data],
      this.keys ++ [(this.eventHandler.updateKeyState turn.event).mKeyRep]⟩ := by
  rw [next]
  simp only [h]

theorem Progress.next_of_error {this : Progress} {turn : Handled} {e : IoException}
    (h : USBHID.write (this.eventHandler.updateKeyState turn.event).mKeyReport turn.result
      turn.errno = .error e) :
    this.next turn = { this with eventHandler := this.eventHandler.updateKeyState turn.event } := by
  rw [next]
  simp only [h]

/-- What the capture thread has, where it stands, with the progress it has made and the key
numbers of the calls that have begun. -/
def Place.Follows (this : Progress) (eventHandler : KeyboardEvents) (keys : List Nat) :
    Place → Prop
  | .reading => eventHandler = this.eventHandler ∧ keys = this.keys
  | .writing event => eventHandler = this.eventHandler.updateKeyState event ∧ keys = this.keys
  | .calling => eventHandler = this.eventHandler ∧ keys ++ [eventHandler.mKeyRep] = this.keys

structure Follows (acts : List Act) (s : State) : Prop where
  place : s.place.Follows (progress (handled acts)) s.eventHandler (delivered acts)
  passed : ofThread .capture s.wire = (progress (handled acts)).writes
  typed : ofThread .timer s.wire = s.threads.written.map USBHID.data

theorem follows_start (clock : Int) : Follows [] (start clock) := ⟨⟨rfl, rfl⟩, rfl, rfl⟩

/-- The timer thread adds to what it has written. -/
theorem written_of_timerStep {s t : Threads.State} {e : Option Threads.Event}
    (h : TimerStep s e t) : ∃ more, t.written = s.written ++ more := by
  cases h with
  | write hat => exact ⟨_, rfl⟩
  | lock | sweep | keep | expire | erase | swept | getWord | typed | unlock =>
    exact ⟨[], (List.append_nil _).symm⟩

theorem written_of_captureStep {s t : Threads.State} {e : Option Threads.Event}
    (h : CaptureStep s e t) : t.written = s.written := by
  cases h <;> rfl

/-- A step of the threads that hands nothing over. -/
theorem delivered_threads {acts : List Act} {e : Option Threads.Event} {time : Int}
    (h : ∀ key, e ≠ some (.called key)) :
    delivered (acts ++ [.threads (e.map fun x => (x, time))]) = delivered acts := by
  have hnone : delivered [.threads (e.map fun x => (x, time))] =
      Threads.delivered (visible [e]) := by
    cases e <;> rfl
  rw [delivered_concat, hnone]
  exact Threads.delivered_nil (delivered acts) h

/-- A step that leaves the capture thread where it is. -/
theorem Follows.elsewhere {acts : List Act} {s t : State} {e : Option Threads.Event} {time : Int}
    (h : Follows acts s) (he : ∀ key, e ≠ some (.called key)) (hplace : t.place = s.place)
    (hhandler : t.eventHandler = s.eventHandler)
    (hpassed : ofThread .capture t.wire = ofThread .capture s.wire)
    (htyped : ofThread .timer t.wire = t.threads.written.map USBHID.data) :
    Follows (acts ++ [.threads (e.map fun x => (x, time))]) t := by
  refine ⟨?_, ?_, htyped⟩
  · rw [hplace, hhandler, handled_threads, delivered_threads he]
    exact h.place
  · rw [hpassed, handled_threads]
    exact h.passed

theorem Follows.step {acts : List Act} {s t : State} {act : Act} (h : Follows acts s)
    (hstep : Step s act t) : Follows (acts ++ [act]) t := by
  have hplace := h.place
  cases hstep with
  | @getEvent event hat =>
    rw [hat] at hplace
    obtain ⟨hhandler, hkeys⟩ := hplace
    refine ⟨?_, ?_, h.typed⟩
    · rw [handled_read, delivered_read]
      exact ⟨congrArg (KeyboardEvents.updateKeyState · event) hhandler, hkeys⟩
    · rw [handled_read]
      exact h.passed
  | @write event result errno data hat hwrite =>
    rw [hat] at hplace
    obtain ⟨hhandler, hkeys⟩ := hplace
    rw [hhandler] at hwrite
    have hnext : (progress (handled acts)).next ⟨event, result, errno⟩ = _ :=
      Progress.next_of_ok hwrite
    refine ⟨?_, ?_, ?_⟩
    · rw [handled_wrote, delivered_wrote, progress_concat, hnext]
      exact ⟨hhandler, by rw [hhandler, hkeys]⟩
    · rw [handled_wrote, progress_concat, hnext, ← h.passed]
      exact ofThread_append _ _ _
    · rw [← h.typed]
      exact (ofThread_append _ _ _).trans (List.append_nil _)
  | @failed event result errno e hat hwrite =>
    rw [hat] at hplace
    obtain ⟨hhandler, hkeys⟩ := hplace
    rw [hhandler] at hwrite
    have hnext : (progress (handled acts)).next ⟨event, result, errno⟩ = _ :=
      Progress.next_of_error hwrite
    refine ⟨?_, ?_, h.typed⟩
    · rw [handled_wrote, delivered_wrote, progress_concat, hnext]
      exact ⟨hhandler, hkeys⟩
    · rw [handled_wrote, progress_concat, hnext]
      exact h.passed
  | @addKey t hat hstep =>
    rw [hat] at hplace
    obtain ⟨hhandler, hkeys⟩ := hplace
    refine ⟨?_, ?_, ?_⟩
    · rw [handled_threads, delivered_concat]
      exact ⟨hhandler, hkeys⟩
    · rw [handled_threads]
      exact h.passed
    · rw [written_of_captureStep hstep]
      exact h.typed
  | @capture e t hnot hstep =>
    refine h.elsewhere hnot rfl rfl rfl ?_
    rw [written_of_captureStep hstep]
    exact h.typed
  | @timer e t hstep =>
    have hnot : ∀ key, e ≠ some (.called key) := by cases hstep <;> simp
    obtain ⟨more, hmore⟩ := written_of_timerStep hstep
    have hdrop : t.written.drop s.threads.written.length = more := by
      rw [hmore, List.drop_left]
    refine h.elsewhere hnot rfl rfl ?_ ?_
    · rw [State.typed, ofThread_append, ofThread_map]
      exact List.append_nil _
    · rw [State.typed, ofThread_append, ofThread_map, h.typed, hdrop, hmore, List.map_append]
      rfl
  | tick => exact @Follows.elsewhere _ _ _ none 0 h (by simp) rfl rfl rfl h.typed

theorem follows_of_steps {clock : Int} {acts : List Act} {s : State}
    (h : Steps RaceFree (start clock) acts s) : Follows acts s :=
  Steps.inv_along (fun _ _ _ _ h hstep => h.step hstep.2) (follows_start clock) h

end Concurrent
end Hemiola
