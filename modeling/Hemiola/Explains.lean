import Hemiola.Atomic

/-!
# Hemiola.Explains

What a state of the two threads has to do with the machine of whole calls and rounds
(`Explained`), and that the capture thread keeps to it.

A round takes effect when the loop over `m_Captured` begins, with the clock readings that it will
make: until an entry is examined it counts as not expired (`Commit.Pending`). The calls that come
during the loop without a race change nothing that the loop could see (`Commit.Inert`). A call
takes effect at its assignment, its `clear` or the `erase` of `deleteKey`, which may still have to
clear the map then (`effective`). The two machines have the same time throughout.

* `Moves`: what a step of the capture thread, or the clock going on, is in the atomic machine.
* `Moves.explained`: such a step keeps the state explained.
* `moves_of_captureStep`: every step of the capture thread without a race is one.
-/

set_option linter.dupNamespace false

namespace Hemiola

open Lib KeyTable

namespace Threads

/-! ## The state between the two machines -/

/-- The key number of a call that has not taken effect. -/
def CaptureAt.call : CaptureAt → CallAt
  | .outside => .outside
  | .locking key | .storing key | .clearing key => .called key
  | .deleting _ | .scanning _ _ _ | .erasing _ _ => .called keyBackspace
  | .unlocking | .checking _ | .examining _ _ | .emptying | .leaving => .done

def allModifiers (captured : UnorderedMap Nat Int) : Bool :=
  captured.entries.all fun entry => isModifier (.ofNat entry.1)

/-- `deleteKey` will clear the map. -/
def CaptureAt.empties (captured : UnorderedMap Nat Int) : CaptureAt → Bool
  | .checking _ | .examining _ _ => allModifiers captured
  | .emptying => true
  | _ => false

/-- What the calls that have taken effect have left. -/
def effective (s : State) : Hemiola :=
  if s.capture.empties s.this.mCaptured then { s.this with mCaptured := .empty } else s.this

/-- What the capture thread has learnt on its way. -/
def Knows (this : Hemiola) : CaptureAt → Prop
  | .locking key | .storing key => this.mModSequence = [] ∧ Hemiola.isCapturable key = true
  | .clearing key => this.mModSequence = [] ∧ (key = keySpace ∨ key = keyEnter)
  | .deleting _ => this.mModSequence = []
  | .scanning ord found rest =>
    this.mModSequence = [] ∧ ∃ seen, ord.list this.mCaptured = seen ++ rest ∧
      seen.foldl Hemiola.newest (keyReserved, 0) = found
  | .erasing ord key =>
    this.mModSequence = [] ∧ Hemiola.newestKey ord this.mCaptured = key ∧ key ≠ keyReserved
  | .examining ord rest =>
    ∃ seen, ord.list this.mCaptured = seen ++ rest ∧
      ∀ entry ∈ seen, isModifier (.ofNat entry.1) = true
  | .outside | .unlocking | .checking _ | .emptying | .leaving => True

/-! ## Explanations -/

/-- What the calls have, as the atomic machine sees it. -/
def State.calling (s : State) : Calling := ⟨effective s, s.capture.call, s.clock⟩

/-- The same with another map. -/
def State.callingOn (s : State) (m : UnorderedMap Nat Int) : Calling :=
  ⟨⟨m, s.this.mModSequence⟩, s.capture.call, s.clock⟩

/-- The steps of the atomic machine up to the present round, the round itself with its readings,
and the steps of calls that have come after it. -/
structure Commit (chords : KeyChords) (clock : Int) (events : List TimedEvent) where
  acts : List (Option TimedEvent)
  before : Atomic
  since : Int
  ord : KeyOrder
  now : Nat → Int
  later : List (Option TimedEvent)
  run : Steps Atomic.TimedStep (Atomic.start chords clock) acts before
  begun : before.round = .begun since
  shown : visible (acts ++ later) = events

namespace Commit

variable {chords : KeyChords} {clock : Int} {events : List TimedEvent}
  (c : Commit chords clock events)

def chord : Str := (c.before.this.sweep c.ord c.now).1

def after : Hemiola := (c.before.this.sweep c.ord c.now).2

/-- The entries of the loop. -/
def entries : List (Nat × Int) := c.ord.list c.before.this.mCaptured

/-- The calls lead from what the sweep leaves to what the threads have. -/
def Calls (s : State) : Prop :=
  Steps (Atomic.TimedCallStep False) { c.before.toCalling with this := c.after } c.later s.calling

/-- The calls do not change the map, whatever part of `captured` it is. -/
def Inert (captured : UnorderedMap Nat Int) (s : State) : Prop :=
  ∀ m : UnorderedMap Nat Int, m.entries ⊆ captured.entries →
    Steps (Atomic.TimedCallStep False)
      { c.before.toCalling with this := ⟨m, c.before.this.mModSequence⟩ } c.later (s.callingOn m)

/-- The clock was read for these entries, one after another, since the round began. -/
def Read (entries : List (Nat × Int)) (s : State) : Prop :=
  Ascending c.since (entries.map fun entry => c.now entry.1) s.clock

/-- The loop has still to examine `rest`, and no entry of it counts as expired. -/
def Pending (rest : List (Nat × Int)) (s : State) : Prop :=
  (∃ seen, c.entries = seen ++ rest ∧ c.Read seen s) ∧
    ∀ entry ∈ rest, Hemiola.isExpired c.now entry = false

/-- The round has neither looked up a word nor written anything. -/
def Silent (s : State) : Prop := s.chords = c.before.chords ∧ s.written = c.before.written

/-- The word of the round, of which `word` has still to be written. -/
def Typing (s : State) (word : Str) : Prop :=
  s.chords = (c.before.chords.getWord c.chord).2 ∧
  ∃ typed memory, (c.before.chords.getWord c.chord).1 = typed ++ word ∧
    s.written = c.before.written ++ Hemiola.outputLoop memory 0 typed

/-- More steps of calls. -/
def extend (acts : List (Option TimedEvent)) : Commit chords clock (events ++ visible acts) :=
  { c with later := c.later ++ acts, shown := by rw [← List.append_assoc, visible_append, c.shown] }

end Commit

/-- A run of the atomic machine outside a round, or in one that has not taken effect. -/
def Settled (chords : KeyChords) (clock : Int) (events : List TimedEvent) (s : State)
    (round : RoundAt) : Prop :=
  ∃ acts, visible acts = events ∧ Steps Atomic.TimedStep (Atomic.start chords clock) acts
    ⟨s.calling, s.chords, s.written, round⟩

/-- What the atomic machine has done where the timer thread stands at `timer`. -/
def Explained (chords : KeyChords) (clock : Int) (events : List TimedEvent) (s : State) :
    TimerAt → Prop
  | .outside => Settled chords clock events s .outside
  | .starting => ∃ since, since ≤ s.clock ∧ Settled chords clock events s (.begun since)
  | .sweeping chord rest =>
    ∃ c : Commit chords clock events, c.chord = chord ∧ c.Silent s ∧ c.Inert s.this.mCaptured s ∧
      (s.capture.empties s.this.mCaptured = false ∧ c.after.mCaptured = s.this.mCaptured ∧
          c.Pending rest s ∨
        s.capture.empties s.this.mCaptured = true ∧ c.before.this.mCaptured = .empty ∧
          c.Read [] s)
  | .erasing chord key rest =>
    ∃ c : Commit chords clock events, c.chord = chord ∧ c.Silent s ∧
      c.Inert (s.this.mCaptured.erase key) s ∧
      c.after.mCaptured = s.this.mCaptured.erase key ∧ c.Pending rest s
  | .looking chord =>
    ∃ c : Commit chords clock events, c.chord = chord ∧ c.Silent s ∧ c.Read c.entries s ∧ c.Calls s
  | .typing word =>
    ∃ c : Commit chords clock events, c.Typing s word ∧ c.Read c.entries s ∧ c.Calls s
  | .sleeping =>
    ∃ c : Commit chords clock events, c.Typing s [] ∧ c.Read c.entries s ∧ c.Calls s

/-! ## Steps of the capture thread -/

/-- What a step of the capture thread is in the atomic machine. -/
structure Moves (s t : State) (acts : List (Option TimedEvent)) : Prop where
  timer : t.timer = s.timer
  chords : t.chords = s.chords
  written : t.written = s.written
  clock : s.clock ≤ t.clock
  calls : Steps (Atomic.TimedCallStep (s.timer = .outside)) s.calling acts t.calling
  inert : s.timer.access = .none ∨
    t.this.mCaptured = s.this.mCaptured ∧
    t.capture.empties s.this.mCaptured = s.capture.empties s.this.mCaptured ∧
    ∀ m : UnorderedMap Nat Int, m.entries ⊆ s.this.mCaptured.entries →
      Steps (Atomic.TimedCallStep False) (s.callingOn m) acts (t.callingOn m)

theorem Moves.inert_extend {s t : State} {acts : List (Option TimedEvent)} {chords : KeyChords}
    {clock : Int} {events : List TimedEvent} {c : Commit chords clock events}
    {captured : UnorderedMap Nat Int}
    (hinert : ∀ m : UnorderedMap Nat Int, m.entries ⊆ s.this.mCaptured.entries →
      Steps (Atomic.TimedCallStep False) (s.callingOn m) acts (t.callingOn m))
    (hpart : captured.entries ⊆ s.this.mCaptured.entries) (h : c.Inert captured s) :
    (c.extend acts).Inert captured t :=
  fun m hm => (h m hm).trans (hinert m fun _ he => hpart (hm he))

/-- Outside a round and before its sweep the atomic machine makes the same step. -/
theorem Moves.settled {s t : State} {acts : List (Option TimedEvent)} (h : Moves s t acts)
    {chords : KeyChords} {clock : Int} {events : List TimedEvent} {round : RoundAt}
    (hround : s.timer = .outside → round = .outside)
    (hs : Settled chords clock events s round) :
    Settled chords clock (events ++ visible acts) t round := by
  obtain ⟨before, hshown, hrun⟩ := hs
  refine ⟨before ++ acts, by rw [visible_append, hshown], ?_⟩
  let a : Atomic := ⟨s.calling, s.chords, s.written, round⟩
  have hsteps := Atomic.steps_calls (a := a) hround h.calls
  rw [h.chords, h.written]
  exact hrun.trans hsteps

theorem Moves.explained {s t : State} {acts : List (Option TimedEvent)} (h : Moves s t acts)
    {chords : KeyChords} {clock : Int} {events : List TimedEvent}
    (hs : Explained chords clock events s s.timer) :
    Explained chords clock (events ++ visible acts) t t.timer := by
  have hmoves := h
  obtain ⟨htimer, hchords, hwritten, hclock, hcalls, hinert⟩ := h
  have hsilent {c : Commit chords clock events} (h : c.Silent s) : (c.extend acts).Silent t :=
    ⟨hchords.trans h.1, hwritten.trans h.2⟩
  have htyping {c : Commit chords clock events} {word : Str} (h : c.Typing s word) :
      (c.extend acts).Typing t word := by
    obtain ⟨hlooked, typed, memory, hword, houtput⟩ := h
    exact ⟨hchords.trans hlooked, typed, memory, hword, hwritten.trans houtput⟩
  have hread {c : Commit chords clock events} {entries : List (Nat × Int)}
      (h : c.Read entries s) : (c.extend acts).Read entries t := h.widen le_rfl hclock
  have hpending {c : Commit chords clock events} {rest : List (Nat × Int)}
      (h : c.Pending rest s) : (c.extend acts).Pending rest t := by
    obtain ⟨⟨seen, hsplit, hseen⟩, hkept⟩ := h
    exact ⟨⟨seen, hsplit, hread hseen⟩, hkept⟩
  have hlater {c : Commit chords clock events} (hbusy : s.timer ≠ .outside) (h : c.Calls s) :
      (c.extend acts).Calls t := h.trans (Atomic.steps_mono hbusy hcalls)
  rw [htimer]
  cases hat : s.timer with
  | outside =>
    rw [hat] at hs
    exact hmoves.settled (fun _ => rfl) hs
  | starting =>
    rw [hat] at hs
    obtain ⟨since, hsince, hsettled⟩ := hs
    exact ⟨since, hsince.trans hclock, hmoves.settled (by simp [hat]) hsettled⟩
  | sweeping chord rest =>
    rw [hat] at hs hinert
    obtain ⟨hsame, hempties, hinert⟩ := hinert.resolve_left (by simp [TimerAt.access])
    obtain ⟨c, hchord, hquiet, hmoved, hphase⟩ := hs
    refine ⟨c.extend acts, hchord, hsilent hquiet, ?_, ?_⟩
    · rw [hsame]
      exact Moves.inert_extend hinert (fun _ he => he) hmoved
    · rw [hsame, hempties]
      refine hphase.imp ?_ ?_
      · exact fun ⟨hnot, hafter, hrest⟩ => ⟨hnot, hafter, hpending hrest⟩
      · exact fun ⟨hyes, hbefore, hnone⟩ => ⟨hyes, hbefore, hread hnone⟩
  | erasing chord key rest =>
    rw [hat] at hs hinert
    obtain ⟨hsame, _, hinert⟩ := hinert.resolve_left (by simp [TimerAt.access])
    obtain ⟨c, hchord, hquiet, hmoved, hafter, hrest⟩ := hs
    refine ⟨c.extend acts, hchord, hsilent hquiet, ?_, ?_, hpending hrest⟩
    · rw [hsame]
      exact Moves.inert_extend hinert (List.filter_subset_self _) hmoved
    · rw [hsame]
      exact hafter
  | looking chord =>
    rw [hat] at hs
    obtain ⟨c, hchord, hquiet, hall, hcommit⟩ := hs
    exact ⟨c.extend acts, hchord, hsilent hquiet, hread hall, hlater (by simp [hat]) hcommit⟩
  | typing word =>
    rw [hat] at hs
    obtain ⟨c, hword, hall, hcommit⟩ := hs
    exact ⟨c.extend acts, htyping hword, hread hall, hlater (by simp [hat]) hcommit⟩
  | sleeping =>
    rw [hat] at hs
    obtain ⟨c, hword, hall, hcommit⟩ := hs
    exact ⟨c.extend acts, htyping hword, hread hall, hlater (by simp [hat]) hcommit⟩

/-- A step that only takes the capture thread on, inside or outside a call. -/
theorem Moves.same {s t : State} (htimer : t.timer = s.timer) (hchords : t.chords = s.chords)
    (hwritten : t.written = s.written) (hclock : t.clock = s.clock) (hthis : t.this = s.this)
    (hcall : t.capture.call = s.capture.call)
    (hempties : t.capture.empties s.this.mCaptured = s.capture.empties s.this.mCaptured) :
    Moves s t [] := by
  have hcalling : t.calling = s.calling := by
    rw [State.calling, State.calling, effective, effective, hthis, hempties, hcall, hclock]
  refine ⟨htimer, hchords, hwritten, hclock.ge, ?_, .inr ⟨by rw [hthis], hempties, fun m _ => ?_⟩⟩
  · rw [hcalling]
    exact .refl
  · rw [State.callingOn, State.callingOn, hthis, hcall, hclock]
    exact .refl

/-- A step that is one of a call, whatever part of the map there is. -/
theorem Moves.of_inert {s t : State} {acts : List (Option TimedEvent)} (htimer : t.timer = s.timer)
    (hchords : t.chords = s.chords) (hwritten : t.written = s.written)
    (hclock : t.clock = s.clock) (hsame : t.this.mCaptured = s.this.mCaptured)
    (hs : s.capture.empties s.this.mCaptured = false)
    (ht : t.capture.empties s.this.mCaptured = false)
    (hcalls : ∀ m : UnorderedMap Nat Int, m.entries ⊆ s.this.mCaptured.entries →
      Steps (Atomic.TimedCallStep False) (s.callingOn m) acts (t.callingOn m)) :
    Moves s t acts := by
  have hs' : s.calling = s.callingOn s.this.mCaptured := by
    rw [State.calling, effective, hs]
    rfl
  have ht' : t.calling = t.callingOn s.this.mCaptured := by
    rw [State.calling, effective, hsame, ht, ← hsame]
    rfl
  refine ⟨htimer, hchords, hwritten, hclock.ge, ?_, .inr ⟨hsame, ht.trans hs.symm, hcalls⟩⟩
  rw [hs', ht']
  exact Atomic.steps_mono False.elim (hcalls s.this.mCaptured fun _ he => he)

/-- The clock goes on. -/
theorem moves_of_tick (s : State) (elapsed : Nat) :
    Moves s { s with clock := s.clock + elapsed } [none] :=
  ⟨rfl, rfl, rfl, Int.le_add_of_nonneg_right (Int.natCast_nonneg elapsed),
    .single (.silent .tick), .inr ⟨rfl, rfl, fun _ _ => .single (.silent .tick)⟩⟩

/-- A call that takes effect. -/
theorem step_addKey {free : Prop} {this that : Hemiola} (ord : KeyOrder) (now : Int) {key : Nat}
    (h : Hemiola.AddKey this ord now key that) (hfree : this.ReadsClock key → free) :
    Steps (Atomic.TimedCallStep free) ⟨this, .called key, now⟩ [none] ⟨that, .done, now⟩ := by
  have hadd := @Atomic.CallStep.addKey free this now ord key hfree
  rw [h.eq] at hadd
  exact .single (.silent hadd)

/-- A call that is carried out at once. -/
theorem steps_call {free : Prop} {this that : Hemiola} (ord : KeyOrder) (now : Int) {key : Nat}
    (h : Hemiola.AddKey this ord now key that) (hfree : this.ReadsClock key → free) :
    Steps (Atomic.TimedCallStep free) ⟨this, .outside, now⟩ [some (.called key, now), none]
      ⟨that, .done, now⟩ :=
  (Steps.single (.seen .call)).trans (step_addKey ord now h hfree)

theorem moves_of_call {s : State} (hat : s.capture = .outside) (ord : KeyOrder) (key : Nat) :
    ∃ acts, visible acts = [(.called key, s.clock)] ∧
      Moves s { s with this := (enter s.this ord key).1,
                       capture := (enter s.this ord key).2 } acts := by
  have hspec := enter_spec s.this ord key
  generalize enter s.this ord key = entered at hspec ⊢
  have hempties : s.capture.empties s.this.mCaptured = false := by
    rw [hat]
    rfl
  have houtside (m : UnorderedMap Nat Int) :
      s.callingOn m = ⟨⟨m, s.this.mModSequence⟩, .outside, s.clock⟩ := by
    rw [State.callingOn, hat]
    rfl
  cases hspec with
  | release hkey =>
    refine ⟨[some (.called key, s.clock), none], rfl,
      .of_inert rfl rfl rfl rfl rfl hempties rfl fun m _ => ?_⟩
    rw [houtside]
    refine steps_call ord s.clock (.release hkey) fun hreads => ?_
    exact Hemiola.not_readsClock (by rw [hkey]; rfl) hreads
  | toggle htracked =>
    refine ⟨[some (.called key, s.clock), none], rfl,
      .of_inert rfl rfl rfl rfl rfl hempties rfl fun m _ => ?_⟩
    rw [houtside]
    refine steps_call ord s.clock (.toggle htracked) fun hreads => ?_
    exact Hemiola.not_readsClock (by simp [Hemiola.isCapturable, htracked]) hreads
  | suspended htracked hmods =>
    refine ⟨[some (.called key, s.clock), none], rfl,
      .of_inert rfl rfl rfl rfl rfl hempties rfl fun m _ => ?_⟩
    rw [houtside]
    exact steps_call ord s.clock (.suspended htracked hmods) fun hreads => hmods hreads.1
  | clear | capture =>
    refine ⟨[some (.called key, s.clock)], rfl,
      .of_inert rfl rfl rfl rfl rfl hempties rfl fun m _ => ?_⟩
    rw [houtside]
    exact .single (.seen .call)
  | delete _ hkey =>
    refine ⟨[some (.called key, s.clock)], rfl,
      .of_inert rfl rfl rfl rfl rfl hempties rfl fun m _ => ?_⟩
    rw [houtside, hkey]
    exact .single (.seen .call)

/-- The map has an entry of a key that is no modifier. -/
theorem allModifiers_eq_false {captured : UnorderedMap Nat Int} {entry : Nat × Int}
    (hmem : entry ∈ captured.entries) (hmod : isModifier (.ofNat entry.1) = false) :
    allModifiers captured = false := by
  refine Bool.eq_false_iff.mpr fun hall => ?_
  rw [List.all_eq_true.mp hall entry hmem] at hmod
  cases hmod

/-- While the capture thread has the mutex no round is under way. -/
theorem Locked.outside {s : State} (h : Locked s) (hholds : s.capture.holds = true) :
    s.timer = .outside := by
  have hnot := h.exclusion
  cases hat : s.timer with
  | outside => rfl
  | starting | sweeping | erasing | looking | typing | sleeping =>
    rw [hat] at hnot
    exact absurd ⟨hholds, rfl⟩ hnot

theorem moves_of_captureStep {s t : State} {e : Option Event} (hlocked : Locked s)
    (hreserved : keyReserved ∉ s.this.mCaptured.keys) (hknows : Knows s.this s.capture)
    (hs : ¬ Racy s) (h : CaptureStep s e t) :
    ∃ acts, visible acts = visible [e.map fun x => (x, s.clock)] ∧ Moves s t acts := by
  have halone := access_of_not_racy hs
  cases h with
  | @call ord key hat => exact moves_of_call hat ord key
  | lock hat | unlock hat | scan hat | next hat | found hat | check hat | modifier hat =>
    refine ⟨[], rfl, .same rfl rfl rfl rfl rfl ?_ ?_⟩
    · rw [hat]; rfl
    · rw [hat]; rfl
  | @store key hat =>
    have houtside := hlocked.outside (by rw [hat]; rfl)
    rw [hat] at hknows halone
    obtain ⟨hmods, hkey⟩ := hknows
    refine ⟨[none], rfl, rfl, rfl, rfl, le_rfl, ?_, .inl (halone rfl)⟩
    rw [State.calling, effective, hat]
    exact step_addKey (.stored Nat Int) s.clock (.capture hmods hkey) fun _ => houtside
  | @clear key hat =>
    rw [hat] at hknows halone
    obtain ⟨hmods, hkey⟩ := hknows
    refine ⟨[none], rfl, rfl, rfl, rfl, le_rfl, ?_, .inl (halone rfl)⟩
    rw [State.calling, effective, hat]
    refine step_addKey (.stored Nat Int) s.clock (.clear hmods hkey) fun hreads => ?_
    refine absurd hreads (Hemiola.not_readsClock ?_)
    rcases hkey with rfl | rfl
    · rfl
    · rfl
  | @absent ord found hat hnone =>
    rw [hat] at hknows
    obtain ⟨hmods, seen, hlist, hfound⟩ := hknows
    have hnewest : Hemiola.newestKey ord s.this.mCaptured = keyReserved := by
      rw [Hemiola.newestKey, hlist, List.append_nil, hfound, hnone]
    refine ⟨[none], rfl, .of_inert rfl rfl rfl rfl rfl (by rw [hat]; rfl) rfl fun m hm => ?_⟩
    have hdelete := Hemiola.deleteKey_absent hreserved hnewest ⟨m, s.this.mModSequence⟩ hm ord
    have hadd : Hemiola.AddKey ⟨m, s.this.mModSequence⟩ ord s.clock keyBackspace _ :=
      .delete hmods rfl
    rw [hdelete] at hadd
    rw [State.callingOn, hat]
    exact step_addKey ord s.clock hadd fun hreads => Hemiola.not_readsClock rfl hreads
  | @erase ord key hat =>
    rw [hat] at hknows halone
    obtain ⟨hmods, hnewest, hkey⟩ := hknows
    refine ⟨[none], rfl, rfl, rfl, rfl, le_rfl, ?_, .inl (halone rfl)⟩
    rw [State.calling, effective, hat]
    have hadd : Hemiola.AddKey s.this ord s.clock keyBackspace _ := .delete hmods rfl
    rw [Hemiola.deleteKey_found (by rw [hnewest]; exact hkey), hnewest] at hadd
    exact step_addKey ord s.clock hadd fun hreads => absurd hreads (Hemiola.not_readsClock rfl)
  | @key ord entry rest hat hmod =>
    rw [hat] at hknows
    obtain ⟨seen, hlist, _⟩ := hknows
    have hmem : entry ∈ s.this.mCaptured.entries := by
      rw [← ord.mem_list, hlist]
      exact List.mem_append_right seen List.mem_cons_self
    refine ⟨[], rfl, .same rfl rfl rfl rfl rfl ?_ ?_⟩
    · rw [hat]; rfl
    · rw [hat]
      exact (allModifiers_eq_false hmem hmod).symm
  | @allModifiers ord hat =>
    rw [hat] at hknows
    obtain ⟨seen, hlist, hseen⟩ := hknows
    rw [List.append_nil] at hlist
    refine ⟨[], rfl, .same rfl rfl rfl rfl rfl ?_ ?_⟩
    · rw [hat]; rfl
    · rw [hat]
      refine (List.all_eq_true.mpr fun entry hmem => hseen entry ?_).symm
      rw [← hlist]
      exact (ord.mem_list s.this.mCaptured).mpr hmem
  | empty hat =>
    rw [hat] at halone
    refine ⟨[], rfl, rfl, rfl, rfl, le_rfl, ?_, .inl (halone rfl)⟩
    rw [State.calling, effective, hat]
    exact .refl
  | ret hat =>
    refine ⟨[some (.returned, s.clock)], rfl,
      .of_inert rfl rfl rfl rfl rfl (by rw [hat]; rfl) rfl fun m _ => ?_⟩
    rw [State.callingOn, hat]
    exact .single (.seen .ret)

end Threads
end Hemiola
