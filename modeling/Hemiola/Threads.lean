import Mathlib.Data.Prod.Lex
import Mathlib.Order.WellFounded
import Hemiola.Hemiola
import Hemiola.Lib.Steps

/-!
# Hemiola.Threads

The capture thread in `addKey` and the timer thread in the loop of `run`, one use of a shared
object at a time. `addKey` takes the mutex for the assignment to `m_Captured` only: its `clear`
and all of `deleteKey` run without it. The timer thread holds the mutex for a whole round, the
writes and the sleep included. Only `addKey` uses `m_ModSequence`, and only the timer thread uses
the dictionary.

The source leaves some steps undefined, and the model takes them to do what they are meant to: the
range-for of a sweep visits every entry there was when it began, although it erases from the map
it goes through (`sweepCursor_defined_iff`); `pop` on the empty separator queue of `getWord` leaves
it empty; and what follows a race is left open (`RaceFree`). Every write of the timer thread
succeeds: one that fails ends the program. The logging library is left out: a `LOG` returns.

* `enter`, `enter_spec`: the part of `addKey` that concerns the capture thread alone.
* `CaptureStep`, `TimerStep`: what a thread does next, from where it stands.
* `Racy`: both threads are about to use `m_Captured`, and one of them to change it.
* `Locked`, `Locked.step`: which thread has the mutex.
* `finishes`: whatever the threads are about, they finish it, in any order of their steps, if no
  race comes in between.
-/

set_option linter.dupNamespace false

namespace Hemiola
namespace Threads

open Lib KeyTable

inductive Thread where
  | capture | timer
deriving DecidableEq

/-- Where the capture thread stands in `addKey`: at the `lock_guard`, at the assignment, at the
end of the guard's scope; at the `clear` of `addKey`; before the first loop of `deleteKey`, in it,
at the `erase`, before the second loop, in it, at the `clear` of `deleteKey`; at the end. -/
inductive CaptureAt where
  | outside
  | locking (key : Nat)
  | storing (key : Nat)
  | unlocking
  | clearing (key : Nat)
  | deleting (ord : KeyOrder)
  | scanning (ord : KeyOrder) (found : Nat × Int) (rest : List (Nat × Int))
  | erasing (ord : KeyOrder) (key : Nat)
  | checking (ord : KeyOrder)
  | examining (ord : KeyOrder) (rest : List (Nat × Int))
  | emptying
  | leaving

/-- Where the timer thread stands in its loop: at the `lock_guard`, before the loop over
`m_Captured`, in it, at the `erase` in it, at `getWord`, in the loop over the word, at the sleep
and the end of the guard's scope. -/
inductive TimerAt where
  | outside
  | starting
  | sweeping (chord : Str) (rest : List (Nat × Int))
  | erasing (chord : Str) (key : Nat) (rest : List (Nat × Int))
  | looking (chord : Str)
  | typing (word : Str)
  | sleeping
deriving DecidableEq

structure State where
  this : Hemiola
  chords : KeyChords
  written : List KeyReport
  mutex : Option Thread
  clock : Int
  capture : CaptureAt
  timer : TimerAt

/-- The state in which the timer thread has been created. -/
def start (chords : KeyChords) (clock : Int) : State :=
  ⟨.init, chords, [], none, clock, .outside, .outside⟩

/-- A change to `m_Captured`. -/
def State.setCaptured (s : State) (captured : UnorderedMap Nat Int) : State :=
  { s with this := { s.this with mCaptured := captured } }

/-- The calls of `addKey` and the rounds of the timer thread: when they begin and end. -/
inductive Event where
  | called (key : Nat) | returned
  | began | ended
deriving DecidableEq

/-- The thread whose call or round it is. -/
def Event.thread : Event → Thread
  | .called _ | .returned => .capture
  | .began | .ended => .timer

/-- `addKey` up to its first use of `m_Captured` or of the mutex. -/
def enter (this : Hemiola) (ord : KeyOrder) (key : Nat) : Hemiola × CaptureAt :=
  if key = keyRelease then (this, .leaving)
  else if isModifier (.ofNat key) && Hemiola.notShiftOrAltGr key then
    ({ this with mModSequence := Toggle.toggle key this.mModSequence }, .leaving)
  else if this.mModSequence ≠ [] then (this, .leaving)
  else if key = keySpace ∨ key = keyEnter then (this, .clearing key)
  else if key = keyBackspace then (this, .deleting ord)
  else (this, .locking key)

/-- What becomes of a call before it uses `m_Captured`, with the guard of each case. -/
inductive Enter (this : Hemiola) (ord : KeyOrder) (key : Nat) : Hemiola × CaptureAt → Prop where
  | release (hkey : key = keyReserved) : Enter this ord key (this, .leaving)
  | toggle (htracked : Hemiola.isTracked key = true) :
      Enter this ord key
        ({ this with mModSequence := Toggle.toggle key this.mModSequence }, .leaving)
  | suspended (htracked : Hemiola.isTracked key = false) (hmods : this.mModSequence ≠ []) :
      Enter this ord key (this, .leaving)
  | clear (hmods : this.mModSequence = []) (hkey : key = keySpace ∨ key = keyEnter) :
      Enter this ord key (this, .clearing key)
  | delete (hmods : this.mModSequence = []) (hkey : key = keyBackspace) :
      Enter this ord key (this, .deleting ord)
  | capture (hmods : this.mModSequence = []) (hkey : Hemiola.isCapturable key = true) :
      Enter this ord key (this, .locking key)

theorem enter_spec (this : Hemiola) (ord : KeyOrder) (key : Nat) :
    Enter this ord key (enter this ord key) := by
  simp only [enter]
  split_ifs with h0 ht hm hs hb
  · exact .release h0
  · exact .toggle ht
  · exact .suspended (Bool.eq_false_of_not_eq_true ht) hm
  · exact .clear (by simpa using hm) hs
  · exact .delete (by simpa using hm) hb
  · obtain ⟨hspace, henter⟩ := not_or.mp hs
    exact .capture (by simpa using hm)
      (Hemiola.isCapturable_iff.mpr ⟨h0, Bool.eq_false_of_not_eq_true ht, hspace, henter, hb⟩)

/-- The event begins a call or a round. -/
def Event.begins : Event → Bool
  | .called _ | .began => true
  | .returned | .ended => false

inductive CaptureStep (s : State) : Option Event → State → Prop where
  | call {ord : KeyOrder} {key : Nat} (h : s.capture = .outside) :
      CaptureStep s (some (.called key))
        { s with this := (enter s.this ord key).1, capture := (enter s.this ord key).2 }
  | lock {key : Nat} (h : s.capture = .locking key) (hfree : s.mutex = none) :
      CaptureStep s none { s with mutex := some .capture, capture := .storing key }
  | store {key : Nat} (h : s.capture = .storing key) :
      CaptureStep s none
        { s.setCaptured (s.this.mCaptured.set key s.clock) with capture := .unlocking }
  | unlock (h : s.capture = .unlocking) :
      CaptureStep s none { s with mutex := none, capture := .leaving }
  | clear {key : Nat} (h : s.capture = .clearing key) :
      CaptureStep s none { s.setCaptured .empty with capture := .leaving }
  | scan {ord : KeyOrder} (h : s.capture = .deleting ord) :
      CaptureStep s none
        { s with capture := .scanning ord (keyReserved, 0) (ord.list s.this.mCaptured) }
  | next {ord : KeyOrder} {found entry : Nat × Int} {rest : List (Nat × Int)}
      (h : s.capture = .scanning ord found (entry :: rest)) :
      CaptureStep s none { s with capture := .scanning ord (Hemiola.newest found entry) rest }
  | absent {ord : KeyOrder} {found : Nat × Int} (h : s.capture = .scanning ord found [])
      (hnone : found.1 = keyReserved) :
      CaptureStep s none { s with capture := .leaving }
  | found {ord : KeyOrder} {found : Nat × Int} (h : s.capture = .scanning ord found [])
      (hfound : found.1 ≠ keyReserved) :
      CaptureStep s none { s with capture := .erasing ord found.1 }
  | erase {ord : KeyOrder} {key : Nat} (h : s.capture = .erasing ord key) :
      CaptureStep s none
        { s.setCaptured (s.this.mCaptured.erase key) with capture := .checking ord }
  | check {ord : KeyOrder} (h : s.capture = .checking ord) :
      CaptureStep s none { s with capture := .examining ord (ord.list s.this.mCaptured) }
  | modifier {ord : KeyOrder} {entry : Nat × Int} {rest : List (Nat × Int)}
      (h : s.capture = .examining ord (entry :: rest))
      (hmod : isModifier (.ofNat entry.1) = true) :
      CaptureStep s none { s with capture := .examining ord rest }
  | key {ord : KeyOrder} {entry : Nat × Int} {rest : List (Nat × Int)}
      (h : s.capture = .examining ord (entry :: rest))
      (hmod : isModifier (.ofNat entry.1) = false) :
      CaptureStep s none { s with capture := .leaving }
  | allModifiers {ord : KeyOrder} (h : s.capture = .examining ord []) :
      CaptureStep s none { s with capture := .emptying }
  | empty (h : s.capture = .emptying) :
      CaptureStep s none { s.setCaptured .empty with capture := .leaving }
  | ret (h : s.capture = .leaving) :
      CaptureStep s (some .returned) { s with capture := .outside }

inductive TimerStep (s : State) : Option Event → State → Prop where
  | lock (h : s.timer = .outside) (hfree : s.mutex = none) :
      TimerStep s (some .began) { s with mutex := some .timer, timer := .starting }
  | sweep {ord : KeyOrder} (h : s.timer = .starting) :
      TimerStep s none { s with timer := .sweeping [] (ord.list s.this.mCaptured) }
  | keep {chord : Str} {entry : Nat × Int} {rest : List (Nat × Int)}
      (h : s.timer = .sweeping chord (entry :: rest))
      (hnew : s.clock - entry.2 < Hemiola.mTimeThreshold) :
      TimerStep s none { s with timer := .sweeping chord rest }
  | expire {chord : Str} {entry : Nat × Int} {rest : List (Nat × Int)}
      (h : s.timer = .sweeping chord (entry :: rest))
      (hold : s.clock - entry.2 ≥ Hemiola.mTimeThreshold) :
      TimerStep s none { s with timer := .erasing (chord ++ charKeys entry.1) entry.1 rest }
  | erase {chord : Str} {key : Nat} {rest : List (Nat × Int)}
      (h : s.timer = .erasing chord key rest) :
      TimerStep s none
        { s.setCaptured (s.this.mCaptured.erase key) with timer := .sweeping chord rest }
  | swept {chord : Str} (h : s.timer = .sweeping chord []) :
      TimerStep s none { s with timer := .looking chord }
  | getWord {chord : Str} (h : s.timer = .looking chord) :
      TimerStep s none
        { s with chords := (s.chords.getWord chord).2,
                 timer := .typing (s.chords.getWord chord).1 }
  | write {memory : UInt8} {charKey : Char} {word : Str} (h : s.timer = .typing (charKey :: word)) :
      TimerStep s none
        { s with written := s.written ++ [Hemiola.charReport memory charKey],
                 timer := .typing word }
  | typed (h : s.timer = .typing []) : TimerStep s none { s with timer := .sleeping }
  | unlock (h : s.timer = .sleeping) :
      TimerStep s (some .ended) { s with mutex := none, timer := .outside }

/-- A step of one thread, or the steady clock going on. -/
inductive Step (s : State) : Option Event → State → Prop where
  | capture {e : Option Event} {t : State} (h : CaptureStep s e t) : Step s e t
  | timer {e : Option Event} {t : State} (h : TimerStep s e t) : Step s e t
  | tick {elapsed : Nat} : Step s none { s with clock := s.clock + elapsed }

/-- The key numbers handed over in a run. -/
def delivered (events : List Event) : List Nat :=
  events.filterMap fun
    | .called key => some key
    | .returned | .began | .ended => none

/-! ## Races -/

/-- What a thread is about to do to `m_Captured`. -/
inductive Access where
  | none | reads | writes
deriving DecidableEq

def CaptureAt.access : CaptureAt → Access
  | .outside | .locking _ | .unlocking | .leaving => .none
  | .deleting _ | .scanning _ _ _ | .checking _ | .examining _ _ => .reads
  | .storing _ | .clearing _ | .erasing _ _ | .emptying => .writes

def TimerAt.access : TimerAt → Access
  | .outside | .looking _ | .typing _ | .sleeping => .none
  | .starting | .sweeping _ _ => .reads
  | .erasing _ _ _ => .writes

/-- Two uses that must not happen at once. -/
def Access.conflicts : Access → Access → Bool
  | .none, _ | _, .none | .reads, .reads => false
  | .reads, .writes | .writes, .reads | .writes, .writes => true

def Racy (s : State) : Prop := s.capture.access.conflicts s.timer.access = true

instance (s : State) : Decidable (Racy s) := inferInstanceAs (Decidable (_ = _))

theorem access_of_not_racy {s : State} (hs : ¬ Racy s) (h : s.capture.access = .writes) :
    s.timer.access = .none := by
  rw [Racy, h] at hs
  cases haccess : s.timer.access with
  | none => rfl
  | reads | writes =>
    rw [haccess] at hs
    exact absurd rfl hs

/-- A step taken where the threads do not race. -/
abbrev RaceFree : State → Option Event → State → Prop := Within (fun s => ¬ Racy s) Step

theorem steps_of_raceFree {s t : State} {acts : List (Option Event)}
    (h : Steps RaceFree s acts t) : Steps Step s acts t :=
  h.mono fun _ _ _ hstep => hstep.2

/-! ## The mutex -/

/-- The thread is between its lock and its unlock. -/
def CaptureAt.holds : CaptureAt → Bool
  | .storing _ | .unlocking => true
  | _ => false

def TimerAt.holds : TimerAt → Bool
  | .outside => false
  | _ => true

/-- The mutex belongs to the thread that is between its lock and its unlock. -/
structure Locked (s : State) : Prop where
  capture : s.capture.holds = true ↔ s.mutex = some .capture
  timer : s.timer.holds = true ↔ s.mutex = some .timer

theorem locked_start (chords : KeyChords) (clock : Int) : Locked (start chords clock) := by
  constructor
  · simp [start, CaptureAt.holds]
  · simp [start, TimerAt.holds]

/-- A call leaves the capture thread where it does not have the mutex. -/
theorem holds_enter (this : Hemiola) (ord : KeyOrder) (key : Nat) :
    (enter this ord key).2.holds = false := by
  unfold enter
  split_ifs <;> rfl

theorem Locked.captureStep {s t : State} {e : Option Event} (h : Locked s)
    (hstep : CaptureStep s e t) : Locked t := by
  obtain ⟨hcapture, htimer⟩ := h
  cases hstep with
  | call hat =>
    rw [hat] at hcapture
    refine ⟨?_, htimer⟩
    show (enter s.this _ _).2.holds = true ↔ _
    rw [holds_enter]
    exact hcapture
  | lock hat hfree =>
    refine ⟨iff_of_true rfl rfl, htimer.trans ?_⟩
    rw [hfree]
    exact iff_of_false (by simp) (by simp)
  | unlock hat =>
    rw [hat] at hcapture
    rw [hcapture.mp rfl] at htimer
    exact ⟨iff_of_false (by simp [CaptureAt.holds]) (by simp), htimer.trans (by simp)⟩
  | store hat | clear hat | scan hat | next hat | absent hat | found hat | erase hat | check hat
  | modifier hat | key hat | allModifiers hat | empty hat | ret hat =>
    rw [hat] at hcapture
    exact ⟨hcapture, htimer⟩

theorem Locked.timerStep {s t : State} {e : Option Event} (h : Locked s)
    (hstep : TimerStep s e t) : Locked t := by
  obtain ⟨hcapture, htimer⟩ := h
  cases hstep with
  | lock hat hfree =>
    refine ⟨hcapture.trans ?_, iff_of_true rfl rfl⟩
    rw [hfree]
    exact iff_of_false (by simp) (by simp)
  | unlock hat =>
    rw [hat] at htimer
    rw [htimer.mp rfl] at hcapture
    exact ⟨hcapture.trans (by simp), iff_of_false (by simp [TimerAt.holds]) (by simp)⟩
  | sweep hat | keep hat | expire hat | erase hat | swept hat | getWord hat | write hat
  | typed hat =>
    rw [hat] at htimer
    exact ⟨hcapture, htimer⟩

theorem Locked.step {s t : State} {e : Option Event} (h : Locked s) (hstep : Step s e t) :
    Locked t := by
  cases hstep with
  | capture hstep => exact h.captureStep hstep
  | timer hstep => exact h.timerStep hstep
  | tick => exact ⟨h.capture, h.timer⟩

/-- The threads are never between lock and unlock at the same time. -/
theorem Locked.exclusion {s : State} (h : Locked s) :
    ¬ (s.capture.holds = true ∧ s.timer.holds = true) := by
  intro ⟨hcapture, htimer⟩
  have hboth := (h.capture.mp hcapture).symm.trans (h.timer.mp htimer)
  cases hboth

theorem locked_of_steps {chords : KeyChords} {clock : Int} {acts : List (Option Event)}
    {s : State} (h : Steps Step (start chords clock) acts s) : Locked s :=
  Steps.inv (fun _ _ _ h hstep => h.step hstep) (locked_start chords clock) h

/-! ## Finishing -/

/-- Neither thread is in the middle of anything. -/
def Idle (s : State) : Prop := s.capture = .outside ∧ s.timer = .outside

/-- How much a call has still to do, at each stage for each entry that is left. -/
def CaptureAt.rank : CaptureAt → ℕ ×ₗ ℕ
  | .outside => toLex (0, 0)
  | .leaving => toLex (1, 0)
  | .emptying | .clearing _ | .unlocking => toLex (2, 0)
  | .examining _ rest => toLex (3, rest.length)
  | .checking _ | .storing _ => toLex (4, 0)
  | .erasing _ _ | .locking _ => toLex (5, 0)
  | .scanning _ _ rest => toLex (6, rest.length)
  | .deleting _ => toLex (7, 0)

def TimerAt.rank : TimerAt → ℕ ×ₗ ℕ
  | .outside => toLex (0, 0)
  | .sleeping => toLex (1, 0)
  | .typing word => toLex (2, word.length)
  | .looking _ => toLex (3, 0)
  | .sweeping _ rest => toLex (4, 2 * rest.length)
  | .erasing _ _ rest => toLex (4, 2 * rest.length + 1)
  | .starting => toLex (5, 0)

/-- A step that begins nothing. -/
def Finishing (e : Option Event) : Prop := ∀ event, e = some event → event.begins = false

/-- The time that passes before a step. -/
def State.after (s : State) (elapsed : Nat) : State := { s with clock := s.clock + elapsed }

/-- One of the threads goes on with what it is about, some time later. -/
inductive GoesOn (s t : State) : Prop where
  | capture {elapsed : Nat} {e : Option Event} (he : Finishing e)
      (h : CaptureStep (s.after elapsed) e t) : GoesOn s t
  | timer {elapsed : Nat} {e : Option Event} (he : Finishing e)
      (h : TimerStep (s.after elapsed) e t) : GoesOn s t

@[simp] theorem State.after_zero (s : State) : s.after 0 = s := by
  simp [State.after]

theorem finishing_none : Finishing none := fun _ h => by cases h

theorem finishing_some {event : Event} : Finishing (some event) ↔ event.begins = false := by
  constructor
  · intro h
    exact h event rfl
  · intro h event' heq
    cases heq
    exact h

theorem rank_lt {i j m n : ℕ} (h : i < j ∨ i = j ∧ m < n) :
    (toLex (i, m) : ℕ ×ₗ ℕ) < toLex (j, n) :=
  Prod.Lex.toLex_lt_toLex.mpr h

theorem rank_lt_of_timerStep {s t : State} {e : Option Event} (he : Finishing e)
    (h : TimerStep s e t) : t.timer.rank < s.timer.rank ∧ t.capture = s.capture := by
  cases h with
  | lock => exact absurd (finishing_some.mp he) (by decide)
  | keep hat | expire hat =>
    rw [hat]
    refine ⟨rank_lt (.inr ⟨rfl, ?_⟩), rfl⟩
    rw [List.length_cons]
    omega
  | write hat =>
    rw [hat]
    exact ⟨rank_lt (.inr ⟨rfl, Nat.lt_succ_self _⟩), rfl⟩
  | erase hat =>
    rw [hat]
    exact ⟨rank_lt (.inr ⟨rfl, Nat.lt_succ_self _⟩), rfl⟩
  | sweep hat | swept hat | getWord hat | typed hat | unlock hat =>
    rw [hat]
    exact ⟨rank_lt (.inl (by decide)), rfl⟩

theorem rank_lt_of_captureStep {s t : State} {e : Option Event} (he : Finishing e)
    (h : CaptureStep s e t) : t.capture.rank < s.capture.rank ∧ t.timer = s.timer := by
  cases h with
  | call => exact absurd (finishing_some.mp he) (by simp [Event.begins])
  | next hat | modifier hat =>
    rw [hat]
    exact ⟨rank_lt (.inr ⟨rfl, Nat.lt_succ_self _⟩), rfl⟩
  | lock hat | store hat | unlock hat | clear hat | scan hat | absent hat | found hat | erase hat
  | check hat | key hat | allModifiers hat | empty hat | ret hat =>
    rw [hat]
    exact ⟨rank_lt (.inl (by decide)), rfl⟩

theorem goesOn_wellFounded : WellFounded fun t s => GoesOn s t := by
  let measure (s : State) : (ℕ ×ₗ ℕ) ×ₗ (ℕ ×ₗ ℕ) := toLex (s.timer.rank, s.capture.rank)
  refine Subrelation.wf (fun {t s} h => ?_) (InvImage.wf measure wellFounded_lt)
  refine Prod.Lex.toLex_lt_toLex.mpr ?_
  cases h with
  | capture he h =>
    obtain ⟨hlt, hsame⟩ := rank_lt_of_captureStep he h
    exact .inr ⟨congrArg TimerAt.rank hsame, hlt⟩
  | timer he h => exact .inl (rank_lt_of_timerStep he h).1

/-- Within a round the timer thread can go on, whatever the capture thread does. -/
theorem timer_goes_on {s : State} (h : s.timer ≠ .outside) :
    ∃ e t, Finishing e ∧ TimerStep s e t := by
  cases hat : s.timer with
  | outside => exact absurd hat h
  | starting => exact ⟨_, _, finishing_none, @TimerStep.sweep s (.stored Nat Int) hat⟩
  | sweeping chord rest =>
    cases rest with
    | nil => exact ⟨_, _, finishing_none, .swept hat⟩
    | cons entry rest =>
      rcases lt_or_ge (s.clock - entry.2) Hemiola.mTimeThreshold with hnew | hold
      · exact ⟨_, _, finishing_none, .keep hat hnew⟩
      · exact ⟨_, _, finishing_none, .expire hat hold⟩
  | erasing chord key rest => exact ⟨_, _, finishing_none, .erase hat⟩
  | looking chord => exact ⟨_, _, finishing_none, .getWord hat⟩
  | typing word =>
    cases word with
    | nil => exact ⟨_, _, finishing_none, .typed hat⟩
    | cons charKey word => exact ⟨_, _, finishing_none, @TimerStep.write s 0 charKey word hat⟩
  | sleeping => exact ⟨_, _, finishing_some.mpr rfl, .unlock hat⟩

/-- Between rounds and outside its own guarded section the mutex is free. -/
theorem Locked.free {s : State} (h : Locked s) (htimer : s.timer = .outside)
    (hcapture : s.capture.holds = false) : s.mutex = none := by
  cases hmutex : s.mutex with
  | none => rfl
  | some thread =>
    cases thread with
    | capture =>
      rw [h.capture.mpr hmutex] at hcapture
      cases hcapture
    | timer =>
      have hholds := h.timer.mpr hmutex
      rw [htimer] at hholds
      cases hholds

/-- Within a call the capture thread can go on, at the mutex if it is free. -/
theorem capture_goes_on {s : State} (hfree : ∀ key, s.capture = .locking key → s.mutex = none)
    (h : s.capture ≠ .outside) : ∃ e t, Finishing e ∧ CaptureStep s e t := by
  cases hat : s.capture with
  | outside => exact absurd hat h
  | locking key => exact ⟨_, _, finishing_none, .lock hat (hfree key hat)⟩
  | storing key => exact ⟨_, _, finishing_none, .store hat⟩
  | unlocking => exact ⟨_, _, finishing_none, .unlock hat⟩
  | clearing key => exact ⟨_, _, finishing_none, .clear hat⟩
  | deleting ord => exact ⟨_, _, finishing_none, .scan hat⟩
  | scanning ord found rest =>
    cases rest with
    | nil =>
      by_cases hfound : found.1 = keyReserved
      · exact ⟨_, _, finishing_none, .absent hat hfound⟩
      · exact ⟨_, _, finishing_none, .found hat hfound⟩
    | cons entry rest => exact ⟨_, _, finishing_none, .next hat⟩
  | erasing ord key => exact ⟨_, _, finishing_none, .erase hat⟩
  | checking ord => exact ⟨_, _, finishing_none, .check hat⟩
  | examining ord rest =>
    cases rest with
    | nil => exact ⟨_, _, finishing_none, .allModifiers hat⟩
    | cons entry rest =>
      cases hmod : isModifier (.ofNat entry.1) with
      | true => exact ⟨_, _, finishing_none, .modifier hat hmod⟩
      | false => exact ⟨_, _, finishing_none, .key hat hmod⟩
  | emptying => exact ⟨_, _, finishing_none, .empty hat⟩
  | leaving => exact ⟨_, _, finishing_some.mpr rfl, .ret hat⟩

theorem Locked.goesOn {s t : State} (h : Locked s) (hstep : GoesOn s t) : Locked t := by
  cases hstep with
  | @capture elapsed e _ h' => exact Locked.captureStep (s := s.after elapsed) ⟨h.1, h.2⟩ h'
  | @timer elapsed e _ h' => exact Locked.timerStep (s := s.after elapsed) ⟨h.1, h.2⟩ h'

/-- One of the threads goes on, and there is no race. -/
def Continues (s t : State) : Prop := ¬ Racy s ∧ GoesOn s t

/-- **Calls and rounds end.** In every state that a run without a race reaches, steps that begin
no new call and no new round come to an end, in whatever order the threads take them, if they do
not come to a race; and they end only where both threads are done: the two never wait for each
other. -/
theorem finishes {chords : KeyChords} {clock : Int} {acts : List (Option Event)} {s : State}
    (h : Steps RaceFree (start chords clock) acts s) :
    Acc (fun t s => Continues s t) s ∧
      ∀ t, Relation.ReflTransGen Continues s t → ¬ Racy t → (∀ u, ¬ GoesOn t u) → Idle t := by
  have hwf : WellFounded fun t s => Continues s t := Subrelation.wf And.right goesOn_wellFounded
  refine ⟨hwf.apply s, fun t hchain hrace hstuck => ?_⟩
  have hlocked : Locked t := by
    clear hstuck hrace
    induction hchain with
    | refl => exact locked_of_steps (steps_of_raceFree h)
    | tail _ hlast ih => exact ih.goesOn hlast.2
  by_contra hidle
  by_cases htimer : t.timer = .outside
  · have hcapture : t.capture ≠ .outside := fun hcapture => hidle ⟨hcapture, htimer⟩
    have hfree : ∀ key, t.capture = .locking key → t.mutex = none :=
      fun key hat => hlocked.free htimer (by rw [hat]; rfl)
    obtain ⟨e, u, he, hstep⟩ := capture_goes_on hfree hcapture
    rw [← t.after_zero] at hstep
    exact hstuck u (.capture he hstep)
  · obtain ⟨e, u, he, hstep⟩ := timer_goes_on htimer
    rw [← t.after_zero] at hstep
    exact hstuck u (.timer he hstep)

/-- `A` is called while a round is under way: both come to their ends. -/
theorem finishes_waiting :
    ∃ acts s, Steps RaceFree (start .fresh 0) acts s ∧ s.timer = .starting ∧
      (enter .init (.stored Nat Int) keyA).2 = s.capture ∧ Acc (fun t s => Continues s t) s ∧
      ∀ t, Relation.ReflTransGen Continues s t → ¬ Racy t → (∀ u, ¬ GoesOn t u) → Idle t := by
  have h0 : Steps RaceFree (start .fresh 0) [] _ := .refl
  have hbegan := h0.tail ⟨by decide, .timer (.lock rfl rfl)⟩
  have hcalled := hbegan.tail ⟨by decide, .capture (@CaptureStep.call _ (.stored Nat Int) keyA rfl)⟩
  exact ⟨_, _, hcalled, rfl, rfl, finishes hcalled⟩

end Threads
end Hemiola
