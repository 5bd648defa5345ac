import Hemiola.Explains

/-!
# Hemiola.Linearizes

The two threads refine the machine of whole calls and rounds: a run of the threads that never
comes to a race shows the events of a run of that machine, at the same times, and leaves what it
leaves.

* `explained_of_timerStep`: the timer thread keeps the state explained.
* `Linear`, `Linear.step`: the invariant of a run without a race.
* `linearizes`: the refinement.
-/

set_option linter.dupNamespace false

namespace Hemiola

open Lib KeyTable

namespace Threads

/-! ## Steps of the timer thread -/

section Timer

variable {chords : KeyChords} {clock : Int} {events : List TimedEvent}

theorem Commit.Silent.typing {c : Commit chords clock events} {s : State} (h : c.Silent s) :
    c.Typing { s with chords := (s.chords.getWord c.chord).2 } (s.chords.getWord c.chord).1 := by
  obtain ⟨hchords, hwritten⟩ := h
  rw [hchords]
  exact ⟨rfl, [], fun _ => 0, rfl, hwritten.trans (List.append_nil _).symm⟩

theorem Commit.Typing.write {c : Commit chords clock events} {s : State} {charKey : Char}
    {word : Str} (h : c.Typing s (charKey :: word)) (memory : UInt8) :
    c.Typing { s with written := s.written ++ [Hemiola.charReport memory charKey] } word := by
  obtain ⟨hchords, typed, bytes, hword, hwritten⟩ := h
  refine ⟨hchords, typed ++ [charKey], Function.update bytes typed.length memory, ?_, ?_⟩
  · rw [hword, List.append_assoc]
    rfl
  · show s.written ++ _ = _
    rw [hwritten, Hemiola.outputLoop_concat, List.append_assoc]

/-- The round is carried out where the calls after it began. -/
theorem Commit.finish (c : Commit chords clock events) {s : State} (htyped : c.Typing s [])
    (hread : c.Read c.entries s) (hcalls : c.Calls s) :
    Settled chords clock events s (.done s.clock) := by
  obtain ⟨hchords, typed, memory, hword, hwritten⟩ := htyped
  rw [List.append_nil] at hword
  have hround := @Atomic.Step.round c.before c.ord c.now memory c.since s.clock c.begun hread
  have hlater := Atomic.steps_calls (a := ⟨{ c.before.toCalling with this := c.after },
    (c.before.chords.getWord c.chord).2,
    c.before.written ++ Hemiola.outputLoop memory 0 (c.before.chords.getWord c.chord).1,
    .done s.clock⟩) False.elim hcalls
  refine ⟨c.acts ++ [none] ++ c.later, ?_, ?_⟩
  · rw [visible_append, visible_append, visible_none, List.append_nil, ← visible_append]
    exact c.shown
  · rw [hchords, hwritten, ← hword]
    exact (c.run.tail (.silent hround)).trans hlater

/-- The readings with which nothing expires. -/
def stamps (captured : UnorderedMap Nat Int) (key : Nat) : Int := (captured.find? key).getD 0

theorem stamps_kept (captured : UnorderedMap Nat Int) :
    ∀ entry ∈ captured.entries, Hemiola.isExpired (stamps captured) entry = false := by
  intro entry hmem
  have hfind : captured.find? entry.1 = some entry.2 := UnorderedMap.find?_eq_some_iff.mpr hmem
  rw [Hemiola.isExpired, stamps, hfind, Option.getD_some, Int.sub_self]
  rfl

/-- The loop over the map begins: the round takes effect, and nothing counts as expired. -/
theorem explained_sweep {s : State} {since : Int} (hsince : since ≤ s.clock)
    (hsettled : Settled chords clock events s (.begun since)) (ord : KeyOrder) :
    Explained chords clock events s (.sweeping [] (ord.list s.this.mCaptured)) := by
  obtain ⟨acts, hshown, hrun⟩ := hsettled
  let c : Commit chords clock events :=
    ⟨acts, ⟨s.calling, s.chords, s.written, .begun since⟩, since, ord, stamps s.this.mCaptured, [],
      hrun, rfl, by rw [List.append_nil, hshown]⟩
  have hmods : c.before.this.mModSequence = s.this.mModSequence := by
    show (effective s).mModSequence = _
    unfold effective
    split_ifs <;> rfl
  have hinert : c.Inert s.this.mCaptured s := by
    intro m _
    rw [hmods]
    exact .refl
  cases hempties : s.capture.empties s.this.mCaptured with
  | true =>
    have hbefore : c.before.this.mCaptured = .empty := by
      show (effective s).mCaptured = _
      rw [effective, hempties]
      rfl
    have hswept : c.before.this.sweep ord c.now = ([], c.before.this) := by
      refine Hemiola.sweep_kept fun entry hmem => ?_
      rw [ord.mem_list, hbefore] at hmem
      cases hmem
    exact ⟨c, congrArg Prod.fst hswept, ⟨rfl, rfl⟩, hinert, .inr ⟨hempties, hbefore, hsince⟩⟩
  | false =>
    have hbefore : c.before.this = s.this := by
      show effective s = _
      rw [effective, hempties]
      rfl
    have hkept : ∀ entry ∈ ord.list s.this.mCaptured, Hemiola.isExpired c.now entry = false :=
      fun entry hmem => stamps_kept s.this.mCaptured entry ((ord.mem_list _).mp hmem)
    have hswept : c.before.this.sweep ord c.now = ([], c.before.this) := by
      refine Hemiola.sweep_kept ?_
      rw [hbefore]
      exact hkept
    have hafter : c.after.mCaptured = s.this.mCaptured := by
      rw [Commit.after, hswept, hbefore]
    have hentries : c.entries = [] ++ ord.list s.this.mCaptured := by
      rw [Commit.entries, hbefore]
      rfl
    refine ⟨c, congrArg Prod.fst hswept, ⟨rfl, rfl⟩, hinert, .inl ⟨hempties, hafter, ?_⟩⟩
    exact ⟨⟨[], hentries, hsince⟩, hkept⟩

/-- The next entry of the loop is examined now. -/
theorem Commit.read_next {c : Commit chords clock events} {s : State} {entry : Nat × Int}
    {seen rest : List (Nat × Int)} (hlist : c.entries = seen ++ entry :: rest)
    (hread : c.Read seen s) :
    Commit.Read { c with now := Function.update c.now entry.1 s.clock } (seen ++ [entry]) s := by
  have hsame : seen.map (fun e => Function.update c.now entry.1 s.clock e.1) =
      seen.map fun e => c.now e.1 := by
    refine List.map_congr_left fun e he => ?_
    exact Function.update_of_ne (UnorderedMap.Order.key_ne hlist e (List.mem_append_left rest he)) _ _
  show Ascending c.since
    ((seen ++ [entry]).map fun e => Function.update c.now entry.1 s.clock e.1) s.clock
  rw [List.map_append, hsame, List.map_singleton, Function.update_self]
  exact hread.concat

/-- An entry is kept: the reading leaves the sweep as it is. -/
theorem Commit.keep {c : Commit chords clock events} {s : State} {chord : Str} {entry : Nat × Int}
    {rest : List (Nat × Int)} (hchord : c.chord = chord) (hsilent : c.Silent s)
    (hinert : c.Inert s.this.mCaptured s)
    (hempties : s.capture.empties s.this.mCaptured = false)
    (hafter : c.after.mCaptured = s.this.mCaptured) (hpending : c.Pending (entry :: rest) s)
    (hnew : s.clock - entry.2 < Hemiola.mTimeThreshold) :
    Explained chords clock events s (.sweeping chord rest) := by
  obtain ⟨⟨seen, hlist, hread⟩, hkept⟩ := hpending
  have hne := UnorderedMap.Order.key_ne hlist
  have hsame : ∀ e ∈ c.entries, Hemiola.isExpired (Function.update c.now entry.1 s.clock) e =
      Hemiola.isExpired c.now e := by
    intro e he
    rw [hlist, List.mem_append, List.mem_cons] at he
    by_cases heq : e = entry
    · subst heq
      rw [hkept e List.mem_cons_self, Hemiola.isExpired, Function.update_self]
      exact decide_eq_false (not_le.mpr hnew)
    · have hmem : e ∈ seen ++ rest := by
        rw [List.mem_append]
        tauto
      rw [Hemiola.isExpired, Hemiola.isExpired, Function.update_of_ne (hne e hmem)]
  have hswept : c.before.this.sweep c.ord (Function.update c.now entry.1 s.clock) =
      c.before.this.sweep c.ord c.now := Hemiola.sweep_congr hsame
  let c' : Commit chords clock events := { c with now := Function.update c.now entry.1 s.clock }
  refine ⟨c', ?_, hsilent, hinert, .inl ⟨hempties, ?_, ⟨seen ++ [entry], ?_, ?_⟩, ?_⟩⟩
  · rw [← hchord, Commit.chord, hswept]
    rfl
  · rw [← hafter, Commit.after, hswept]
    rfl
  · rw [List.append_assoc]
    exact hlist
  · exact Commit.read_next hlist hread
  · intro e he
    rw [hsame e (hlist ▸ List.mem_append_right seen (List.mem_cons_of_mem entry he))]
    exact hkept e (List.mem_cons_of_mem entry he)

/-- An entry is found expired: with that reading it is one of those that the round takes. -/
theorem Commit.expire {c : Commit chords clock events} {s : State} {chord : Str}
    {entry : Nat × Int} {rest : List (Nat × Int)} (hchord : c.chord = chord)
    (hsilent : c.Silent s) (hinert : c.Inert s.this.mCaptured s)
    (hafter : c.after.mCaptured = s.this.mCaptured) (hpending : c.Pending (entry :: rest) s)
    (hold : s.clock - entry.2 ≥ Hemiola.mTimeThreshold) :
    Explained chords clock events s (.erasing (chord ++ charKeys entry.1) entry.1 rest) := by
  obtain ⟨⟨seen, hlist, hread⟩, hkept⟩ := hpending
  obtain ⟨hchord', hafter', hkept'⟩ := Hemiola.sweep_update hlist hkept hold
  let c' : Commit chords clock events := { c with now := Function.update c.now entry.1 s.clock }
  refine ⟨c', ?_, hsilent, fun m hm => hinert m fun _ he => ?_, ?_,
    ⟨seen ++ [entry], ?_, Commit.read_next hlist hread⟩, hkept'⟩
  · rw [← hchord]
    exact hchord'
  · exact List.filter_subset_self _ (hm he)
  · rw [← hafter]
    exact hafter'
  · rw [List.append_assoc]
    exact hlist

theorem empties_of_access {place : CaptureAt} (h : place.access = .none)
    (captured : UnorderedMap Nat Int) : place.empties captured = false := by
  cases place with
  | outside | locking | unlocking | leaving => rfl
  | storing | clearing | deleting | scanning | erasing | checking | examining | emptying => cases h

theorem access_of_empties {place : CaptureAt} {captured : UnorderedMap Nat Int}
    (h : place.empties captured = true) : place.access ≠ .none := by
  intro haccess
  rw [empties_of_access haccess] at h
  cases h

theorem racy_of_writes {s : State} (hcapture : s.capture.access ≠ .none)
    (htimer : s.timer.access = .writes) : Racy s := by
  rw [Racy, htimer]
  cases haccess : s.capture.access with
  | none => exact absurd haccess hcapture
  | reads | writes => rfl

/-- The loop over the map ends: the calls lead on from what the round has left. -/
theorem Commit.calls_of_inert {c : Commit chords clock events} {s : State}
    (hinert : c.Inert s.this.mCaptured s)
    (hphase : s.capture.empties s.this.mCaptured = false ∧
        c.after.mCaptured = s.this.mCaptured ∧ c.Pending [] s ∨
      s.capture.empties s.this.mCaptured = true ∧ c.before.this.mCaptured = .empty ∧
        c.Read [] s) :
    c.Read c.entries s ∧ c.Calls s := by
  rcases hphase with ⟨hempties, hafter, ⟨seen, hlist, hread⟩, _⟩ | ⟨hempties, hbefore, hread⟩
  · have hleft : c.after = ⟨s.this.mCaptured, c.before.this.mModSequence⟩ :=
      Hemiola.ext hafter rfl
    have hright : s.calling = s.callingOn s.this.mCaptured := by
      rw [State.calling, effective, hempties]
      rfl
    refine ⟨by rwa [hlist, List.append_nil], ?_⟩
    rw [Commit.Calls, hleft, hright]
    exact hinert s.this.mCaptured fun _ he => he
  · have hnone : c.entries = [] := by
      have hperm := c.ord.perm c.before.this.mCaptured
      rw [hbefore] at hperm
      rw [Commit.entries, hbefore]
      exact hperm.eq_nil
    have hswept : c.before.this.sweep c.ord c.now = ([], c.before.this) := by
      refine Hemiola.sweep_kept fun entry hmem => ?_
      rw [show c.ord.list c.before.this.mCaptured = [] from hnone] at hmem
      cases hmem
    have hleft : c.after = ⟨.empty, c.before.this.mModSequence⟩ := by
      rw [Commit.after, hswept]
      exact Hemiola.ext hbefore rfl
    have hright : s.calling = s.callingOn .empty := by
      rw [State.calling, effective, hempties]
      rfl
    refine ⟨by rwa [hnone], ?_⟩
    rw [Commit.Calls, hleft, hright]
    exact hinert .empty (List.nil_subset _)

theorem explained_of_timerStep {s t : State} {e : Option Event} (hs : ¬ Racy s)
    (h : TimerStep s e t) (hexp : Explained chords clock events s s.timer) :
    Racy t ∨
      Explained chords clock (events ++ visible [e.map fun x => (x, s.clock)]) t t.timer := by
  cases h with
  | lock hat =>
    rw [hat] at hexp
    obtain ⟨acts, hshown, hrun⟩ := hexp
    refine .inr ⟨s.clock, le_rfl, acts ++ [some (.began, s.clock)], ?_,
      hrun.tail (.seen (.begin rfl))⟩
    rw [visible_append, hshown]
    rfl
  | @sweep ord hat =>
    rw [hat] at hexp
    obtain ⟨since, hsince, hsettled⟩ := hexp
    rw [Option.map_none, visible_none, List.append_nil]
    exact .inr (explained_sweep hsince hsettled ord)
  | @keep chord entry rest hat hnew =>
    rw [hat] at hexp
    obtain ⟨c, hchord, hsilent, hinert, hphase⟩ := hexp
    rw [Option.map_none, visible_none, List.append_nil]
    rcases hphase with ⟨hempties, hafter, hpending⟩ | hempties
    · exact .inr (Commit.keep hchord hsilent hinert hempties hafter hpending hnew)
    · exact .inr ⟨c, hchord, hsilent, hinert, .inr hempties⟩
  | @expire chord entry rest hat hold =>
    rw [hat] at hexp
    obtain ⟨c, hchord, hsilent, hinert, hphase⟩ := hexp
    rw [Option.map_none, visible_none, List.append_nil]
    rcases hphase with ⟨_, hafter, hpending⟩ | ⟨hempties, _⟩
    · exact .inr (Commit.expire hchord hsilent hinert hafter hpending hold)
    · exact .inl (racy_of_writes (access_of_empties hempties) rfl)
  | @erase chord key rest hat =>
    have hquiet : s.capture.access = .none := by
      by_contra haccess
      exact hs (racy_of_writes haccess (by rw [hat]; rfl))
    rw [hat] at hexp
    obtain ⟨c, hchord, hsilent, hinert, hafter, hpending⟩ := hexp
    rw [Option.map_none, visible_none, List.append_nil]
    exact .inr ⟨c, hchord, hsilent, hinert, .inl ⟨empties_of_access hquiet _, hafter, hpending⟩⟩
  | @swept chord hat =>
    rw [hat] at hexp
    obtain ⟨c, hchord, hsilent, hinert, hphase⟩ := hexp
    rw [Option.map_none, visible_none, List.append_nil]
    exact .inr ⟨c, hchord, hsilent, Commit.calls_of_inert hinert hphase⟩
  | @getWord chord hat =>
    rw [hat] at hexp
    obtain ⟨c, rfl, hsilent, hread, hcalls⟩ := hexp
    rw [Option.map_none, visible_none, List.append_nil]
    exact .inr ⟨c, hsilent.typing, hread, hcalls⟩
  | @write memory charKey word hat =>
    rw [hat] at hexp
    obtain ⟨c, htyping, hread, hcalls⟩ := hexp
    rw [Option.map_none, visible_none, List.append_nil]
    exact .inr ⟨c, htyping.write memory, hread, hcalls⟩
  | typed hat =>
    rw [hat] at hexp
    rw [Option.map_none, visible_none, List.append_nil]
    exact .inr hexp
  | unlock hat =>
    rw [hat] at hexp
    obtain ⟨c, htyped, hread, hcalls⟩ := hexp
    obtain ⟨acts, hshown, hrun⟩ := c.finish htyped hread hcalls
    refine .inr ⟨acts ++ [some (.ended, s.clock)], ?_, hrun.tail (.seen (.finish rfl le_rfl))⟩
    rw [visible_append, hshown]
    rfl

end Timer

/-! ## Runs -/

theorem knows_of_captureStep {s t : State} {e : Option Event} (h : CaptureStep s e t)
    (hknows : Knows s.this s.capture) : Knows t.this t.capture := by
  cases h with
  | @call ord key hat =>
    have hspec := enter_spec s.this ord key
    generalize enter s.this ord key = entered at hspec ⊢
    cases hspec with
    | release | toggle | suspended => exact trivial
    | clear hmods hkey => exact ⟨hmods, hkey⟩
    | delete hmods => exact hmods
    | capture hmods hkey => exact ⟨hmods, hkey⟩
  | lock hat =>
    rw [hat] at hknows
    exact hknows
  | store | unlock | clear | absent | erase | key | allModifiers | empty | ret => exact trivial
  | @scan ord hat =>
    rw [hat] at hknows
    exact ⟨hknows, [], rfl, rfl⟩
  | @next ord found entry rest hat =>
    rw [hat] at hknows
    obtain ⟨hmods, seen, hlist, hfound⟩ := hknows
    refine ⟨hmods, seen ++ [entry], ?_, ?_⟩
    · rw [List.append_assoc]
      exact hlist
    · rw [List.foldl_concat, hfound]
  | @found ord found hat hne =>
    rw [hat] at hknows
    obtain ⟨hmods, seen, hlist, hfound⟩ := hknows
    refine ⟨hmods, ?_, hne⟩
    rw [Hemiola.newestKey, hlist, List.append_nil, hfound]
  | @check ord hat => exact ⟨[], rfl, List.forall_mem_nil _⟩
  | @modifier ord entry rest hat hmod =>
    rw [hat] at hknows
    obtain ⟨seen, hlist, hseen⟩ := hknows
    refine ⟨seen ++ [entry], ?_, ?_⟩
    · rw [List.append_assoc]
      exact hlist
    · rw [List.forall_mem_append]
      exact ⟨hseen, List.forall_mem_singleton.mpr hmod⟩

/-- What is learnt of the map stays true while the timer thread may change it. -/
theorem knows_of_timerStep {s t : State} {e : Option Event} (hs : ¬ Racy s)
    (h : TimerStep s e t) (hknows : Knows s.this s.capture) : Knows t.this t.capture := by
  cases h with
  | lock | sweep | keep | expire | swept | getWord | write | typed | unlock => exact hknows
  | @erase chord key rest hat =>
    have hquiet : s.capture.access = .none := by
      by_contra haccess
      exact hs (racy_of_writes haccess (by rw [hat]; rfl))
    show Knows _ s.capture
    cases hplace : s.capture with
    | outside | unlocking | leaving => exact trivial
    | locking key =>
      rw [hplace] at hknows
      exact hknows
    | storing | clearing | deleting | scanning | erasing | checking | examining | emptying =>
      rw [hplace] at hquiet
      cases hquiet

/-- No entry has the number that stands for no key. -/
def Unreserved (s : State) : Prop := keyReserved ∉ s.this.mCaptured.keys

theorem unreserved_of_captureStep {s t : State} {e : Option Event} (h : CaptureStep s e t)
    (hknows : Knows s.this s.capture) (hs : Unreserved s) : Unreserved t := by
  cases h with
  | @call ord key hat =>
    have hspec := enter_spec s.this ord key
    show keyReserved ∉ (enter s.this ord key).1.mCaptured.keys
    generalize enter s.this ord key = entered at hspec ⊢
    cases hspec with
    | release | toggle | suspended | clear | delete | capture => exact hs
  | @store key hat =>
    rw [hat] at hknows
    obtain ⟨hne, _⟩ := Hemiola.isCapturable_iff.mp hknows.2
    intro hmem
    rcases UnorderedMap.mem_keys_set.mp hmem with heq | hmem
    · exact hne heq.symm
    · exact hs hmem
  | erase => exact fun hmem => hs (UnorderedMap.mem_keys_erase.mp hmem).1
  | clear | empty => exact List.not_mem_nil
  | lock | unlock | scan | next | absent | found | check | modifier | key | allModifiers | ret =>
    exact hs

theorem unreserved_of_timerStep {s t : State} {e : Option Event} (h : TimerStep s e t)
    (hs : Unreserved s) : Unreserved t := by
  cases h with
  | erase => exact fun hmem => hs (UnorderedMap.mem_keys_erase.mp hmem).1
  | lock | sweep | keep | expire | swept | getWord | write | typed | unlock => exact hs

/-- What holds in every state of a run in which no race has happened. -/
structure Linear (chords : KeyChords) (clock : Int) (events : List TimedEvent) (s : State) :
    Prop where
  locked : Locked s
  unreserved : Unreserved s
  knows : Knows s.this s.capture
  explained : Racy s ∨ Explained chords clock events s s.timer

theorem linear_start (chords : KeyChords) (clock : Int) :
    Linear chords clock [] (start chords clock) :=
  ⟨locked_start chords clock, List.not_mem_nil, trivial, .inr ⟨[], rfl, .refl⟩⟩

theorem Linear.step {chords : KeyChords} {clock : Int} {events : List TimedEvent} {s t : State}
    {e : Option Event} (h : Linear chords clock events s)
    (hstep : RaceFree s e t) :
    Linear chords clock (events ++ visible [e.map fun x => (x, s.clock)]) t := by
  obtain ⟨hs, hstep⟩ := hstep
  have hexp := h.explained.resolve_left hs
  have hlocked := h.locked.step hstep
  cases hstep with
  | capture hstep =>
    obtain ⟨acts, hshown, hmoves⟩ := moves_of_captureStep h.locked h.unreserved h.knows hs hstep
    have hexp' := hmoves.explained hexp
    rw [hshown] at hexp'
    exact ⟨hlocked, unreserved_of_captureStep hstep h.knows h.unreserved,
      knows_of_captureStep hstep h.knows, .inr hexp'⟩
  | timer hstep =>
    exact ⟨hlocked, unreserved_of_timerStep hstep h.unreserved,
      knows_of_timerStep hs hstep h.knows, explained_of_timerStep hs hstep hexp⟩
  | @tick elapsed =>
    have hexp' := (moves_of_tick s elapsed).explained hexp
    exact ⟨hlocked, h.unreserved, h.knows, .inr hexp'⟩

/-- A step of the two threads where they do not race, with its time. -/
abbrev TimedRaceFree := Timed State.clock RaceFree

theorem linear_of_steps {chords : KeyChords} {clock : Int} {acts : List (Option TimedEvent)}
    {s : State} (h : Steps TimedRaceFree (start chords clock) acts s) :
    Linear chords clock (visible acts) s := by
  refine Steps.inv_along (I := fun acts s => Linear chords clock (visible acts) s)
    (fun acts s e t hinv hstep => ?_) (linear_start chords clock) h
  rw [visible_append]
  cases hstep with
  | step hstep => exact hinv.step hstep

section Explained

variable {chords : KeyChords} {clock : Int} {events : List TimedEvent}

/-- The round carried out, and the calls after it. -/
theorem Commit.exists_run (c : Commit chords clock events) {s : State}
    (hread : c.Read c.entries s) {target : Calling}
    (hcalls : Steps (Atomic.TimedCallStep False) { c.before.toCalling with this := c.after }
      c.later target) :
    ∃ acts a, Steps Atomic.TimedStep (Atomic.start chords clock) acts a ∧
      visible acts = events := by
  have hround := @Atomic.Step.round c.before c.ord c.now (fun _ => 0) c.since s.clock c.begun hread
  refine ⟨c.acts ++ [none] ++ c.later, _,
    (c.run.tail (.silent hround)).trans (Atomic.steps_calls False.elim hcalls), ?_⟩
  rw [visible_append, visible_append, visible_none, List.append_nil, ← visible_append]
  exact c.shown

/-- In the middle of its loop, the round is carried out as if the rest was examined now. -/
theorem Commit.exists_run_pending (c : Commit chords clock events) {s : State}
    {rest : List (Nat × Int)} (hpending : c.Pending rest s) (hinert : c.Inert c.after.mCaptured s) :
    ∃ acts a, Steps Atomic.TimedStep (Atomic.start chords clock) acts a ∧
      visible acts = events := by
  obtain ⟨⟨seen, hlist, hread⟩, hkept⟩ := hpending
  let now (key : Nat) : Int := if key ∈ rest.map Prod.fst then s.clock else c.now key
  let c' : Commit chords clock events := { c with now := now }
  have hnodup : (c.entries.map Prod.fst).Nodup := c.ord.nodup_list _
  rw [hlist, List.map_append] at hnodup
  have hseen : ∀ e ∈ seen, now e.1 = c.now e.1 := fun e he =>
    if_neg (List.disjoint_of_nodup_append hnodup (List.mem_map_of_mem he))
  have hrest : ∀ e ∈ rest, now e.1 = s.clock := fun e he => if_pos (List.mem_map_of_mem he)
  have hread' : c'.Read c'.entries s := by
    show Ascending c.since (c.entries.map fun e => now e.1) s.clock
    rw [hlist, List.map_append, List.map_congr_left hseen]
    refine hread.append (.const fun reading hmem => ?_)
    obtain ⟨e, he, rfl⟩ := List.mem_map.mp hmem
    exact hrest e he
  -- the entries that are left then are among those that are left now
  have hpart : c'.after.mCaptured.entries ⊆ c.after.mCaptured.entries := by
    rintro ⟨key, stamp⟩ hmem
    rw [← UnorderedMap.find?_eq_some_iff] at hmem ⊢
    obtain ⟨hfind, hexp⟩ := Hemiola.sweep_find?_eq_some.mp hmem
    refine Hemiola.sweep_find?_eq_some.mpr ⟨hfind, ?_⟩
    have hentry : (key, stamp) ∈ seen ++ rest := by
      rw [← hlist]
      exact (c.ord.mem_list _).mpr (UnorderedMap.find?_eq_some_iff.mp hfind)
    rcases List.mem_append.mp hentry with he | he
    · have hsame : Hemiola.isExpired now (key, stamp) = Hemiola.isExpired c.now (key, stamp) := by
        rw [Hemiola.isExpired, Hemiola.isExpired, hseen _ he]
      exact hsame.symm.trans hexp
    · exact hkept _ he
  exact c'.exists_run hread' (hinert _ hpart)

theorem Explained.exists_run {s : State} (h : Explained chords clock events s s.timer) :
    ∃ acts a, Steps Atomic.TimedStep (Atomic.start chords clock) acts a ∧ visible acts = events ∧
      (Idle s → a = ⟨⟨s.this, .outside, s.clock⟩, s.chords, s.written, .outside⟩) := by
  -- in a round nothing is left to show
  have hbusy (hat : s.timer ≠ .outside) (hrun : ∃ acts a,
      Steps Atomic.TimedStep (Atomic.start chords clock) acts a ∧ visible acts = events) :
      ∃ acts a, Steps Atomic.TimedStep (Atomic.start chords clock) acts a ∧
        visible acts = events ∧
        (Idle s → a = ⟨⟨s.this, .outside, s.clock⟩, s.chords, s.written, .outside⟩) := by
    obtain ⟨acts, a, hrun, hshown⟩ := hrun
    exact ⟨acts, a, hrun, hshown, fun hidle => absurd hidle.2 hat⟩
  cases hat : s.timer with
  | outside =>
    rw [hat] at h
    obtain ⟨acts, hshown, hrun⟩ := h
    refine ⟨acts, _, hrun, hshown, fun hidle => ?_⟩
    rw [State.calling, effective, hidle.1]
    rfl
  | starting =>
    rw [hat] at h
    obtain ⟨since, _, acts, hshown, hrun⟩ := h
    exact hbusy (by simp [hat]) ⟨acts, _, hrun, hshown⟩
  | sweeping chord rest =>
    rw [hat] at h
    obtain ⟨c, _, _, hinert, ⟨_, hafter, hpending⟩ | hphase⟩ := h
    · exact hbusy (by simp [hat]) (c.exists_run_pending hpending (by rwa [hafter]))
    · obtain ⟨hread, hcalls⟩ := Commit.calls_of_inert hinert (.inr hphase)
      exact hbusy (by simp [hat]) (c.exists_run hread hcalls)
  | erasing chord key rest =>
    rw [hat] at h
    obtain ⟨c, _, _, hinert, hafter, hpending⟩ := h
    exact hbusy (by simp [hat]) (c.exists_run_pending hpending (by rwa [hafter]))
  | looking chord =>
    rw [hat] at h
    obtain ⟨c, _, _, hread, hcalls⟩ := h
    exact hbusy (by simp [hat]) (c.exists_run hread hcalls)
  | typing word =>
    rw [hat] at h
    obtain ⟨c, _, hread, hcalls⟩ := h
    exact hbusy (by simp [hat]) (c.exists_run hread hcalls)
  | sleeping =>
    rw [hat] at h
    obtain ⟨c, _, hread, hcalls⟩ := h
    exact hbusy (by simp [hat]) (c.exists_run hread hcalls)

end Explained

/-- **The threads refine whole calls and rounds.** A run of the two threads that never comes to a
race shows what a run of the atomic machine shows, calls and rounds beginning and ending in the
same order and at the same times; and where both threads are idle, the captured keys with their
times, the modifiers, the dictionary and the reports written are those the atomic machine has. -/
theorem linearizes {chords : KeyChords} {clock : Int} {acts : List (Option TimedEvent)} {s : State}
    (h : Steps TimedRaceFree (start chords clock) acts s) (hs : ¬ Racy s) :
    ∃ acts' a, Steps Atomic.TimedStep (Atomic.start chords clock) acts' a ∧
      visible acts' = visible acts ∧
      (Idle s → a = ⟨⟨s.this, .outside, s.clock⟩, s.chords, s.written, .outside⟩) :=
  ((linear_of_steps h).explained.resolve_left hs).exists_run

/-- `A` is called while a round is under way and captured when the round is over. -/
theorem linearizes_waiting :
    ∃ acts s, visible acts = [(.began, 0), (.called keyA, 5), (.ended, 10), (.returned, 10)] ∧
      s.this.mCaptured.find? keyA = some 10 ∧
      ∃ acts' a, Steps Atomic.TimedStep (Atomic.start .fresh 0) acts' a ∧
        visible acts' = visible acts ∧
        (Idle s → a = ⟨⟨s.this, .outside, s.clock⟩, s.chords, s.written, .outside⟩) := by
  let ord := UnorderedMap.Order.stored Nat Int
  have h0 : Steps TimedRaceFree (start .fresh 0) [] _ := .refl
  have h1 := h0.tail (.seen ⟨by decide, .timer (.lock rfl rfl)⟩)
  have h2 := h1.tail (.silent ⟨by decide, .timer (@TimerStep.sweep _ ord rfl)⟩)
  have h3 := h2.tail (.silent ⟨by decide, @Step.tick _ 5⟩)
  have h4 := h3.tail (.seen ⟨by decide, .capture (@CaptureStep.call _ ord keyA rfl)⟩)
  have h5 := h4.tail (.silent ⟨by decide, .timer (.swept rfl)⟩)
  have h6 := h5.tail (.silent ⟨by decide, .timer (.getWord rfl)⟩)
  have h7 := h6.tail (.silent ⟨by decide, .timer (.typed rfl)⟩)
  have h8 := h7.tail (.silent ⟨by decide, @Step.tick _ 5⟩)
  have h9 := h8.tail (.seen ⟨by decide, .timer (.unlock rfl)⟩)
  have h10 := h9.tail (.silent ⟨by decide, .capture (@CaptureStep.lock _ keyA rfl rfl)⟩)
  have h11 := h10.tail (.silent ⟨by decide, .capture (.store rfl)⟩)
  have h12 := h11.tail (.silent ⟨by decide, .capture (.unlock rfl)⟩)
  have h13 := h12.tail (.seen ⟨by decide, .capture (.ret rfl)⟩)
  exact ⟨_, _, rfl, rfl, linearizes h13 (by decide)⟩

end Threads
end Hemiola
