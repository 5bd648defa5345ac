import Hemiola.ReportMemory
import Hemiola.SweepCursor
import Hemiola.Threads
import Hemiola.Lib.Ascending

/-!
# Hemiola.Atomic

A machine in which every call of `addKey` and every round of the timer thread is one step,
somewhere between its beginning and its end; and what the pieces of `addKey`, `deleteKey` and a
sweep make of each other.

The machine has a clock. A call that captures a key enters it with the time of its step, which is
outside of any round. A round reads the clock for one entry after another, in the order of its
loop, at times between its beginning and its end.

* `AddKey.eq`: the cases of a call determine its outcome.
* `deleteKey_absent`: a scan that finds no key finds none in a part of the map.
* `sweep_update`: what one more expired entry adds to a sweep.
* `Atomic`, `Atomic.Step`: the machine of whole calls and rounds.
-/

set_option linter.dupNamespace false

namespace Hemiola

open Lib KeyTable

namespace Hemiola

/-! ## Calls -/

/-- The cases of a call exclude each other. -/
theorem AddKey.eq {this that : Hemiola} {ord : KeyOrder} {now : Int} {key : Nat}
    (h : AddKey this ord now key that) : this.addKey ord now key = that := by
  cases h with
  | release hkey =>
    rw [hkey]
    exact if_pos rfl
  | toggle htracked =>
    have h0 : key ≠ keyRelease := by
      intro h0
      rw [h0] at htracked
      cases htracked
    exact (if_neg h0).trans (if_pos htracked)
  | suspended htracked hmods =>
    have ht : ¬ (isModifier (.ofNat key) && notShiftOrAltGr key) = true :=
      Bool.eq_false_iff.mp htracked
    rw [addKey, if_neg ht, if_pos hmods]
    exact ite_self _
  | clear hmods hkey =>
    rcases hkey with rfl | rfl
    · rw [addKey, if_neg (by decide), if_neg (by decide), if_neg (not_not.mpr hmods),
        if_pos (.inl rfl)]
    · rw [addKey, if_neg (by decide), if_neg (by decide), if_neg (not_not.mpr hmods),
        if_pos (.inr rfl)]
  | delete hmods hkey =>
    rw [hkey, addKey, if_neg (by decide), if_neg (by decide), if_neg (not_not.mpr hmods),
      if_neg (by decide), if_pos rfl]
  | capture hmods hkey => exact addKey_capture ord now hmods hkey

/-- The key that the scan of `deleteKey` finds. -/
def newestKey (ord : KeyOrder) (captured : UnorderedMap Nat Int) : Nat :=
  ((ord.list captured).foldl newest (keyReserved, 0)).1

theorem deleteKey_found {this : Hemiola} {ord : KeyOrder}
    (h : newestKey ord this.mCaptured ≠ keyReserved) :
    this.deleteKey ord =
      let captured := this.mCaptured.erase (newestKey ord this.mCaptured)
      if captured.entries.all fun entry => isModifier (.ofNat entry.1) then
        { this with mCaptured := .empty }
      else { this with mCaptured := captured } := by
  have hall (m : UnorderedMap Nat Int) :
      ((ord.list m).all fun entry => isModifier (.ofNat entry.1)) =
        m.entries.all fun entry => isModifier (.ofNat entry.1) :=
    (ord.perm m).all_eq
  rw [deleteKey]
  simp only [hall]
  exact if_neg h

/-- A scan that finds no key finds none either in a part of the map, in whatever order. -/
theorem deleteKey_absent {captured : UnorderedMap Nat Int} {ord : KeyOrder}
    (hreserved : keyReserved ∉ captured.keys) (h : newestKey ord captured = keyReserved)
    (this : Hemiola) (hpart : this.mCaptured.entries ⊆ captured.entries) (ord' : KeyOrder) :
    this.deleteKey ord' = this := by
  have hold : ∀ e ∈ captured.entries, isModifier (.ofNat e.1) = false → e.2 ≤ 0 := by
    obtain ⟨_, hmax, hfound⟩ := newest_spec (ord.list captured) (keyReserved, 0)
    rcases hfound with hstart | ⟨hmem, _, _⟩
    · intro e he hmod
      have hle := hmax e ((ord.mem_list captured).mpr he) hmod
      rwa [hstart] at hle
    · refine absurd ?_ hreserved
      rw [← h]
      exact List.mem_map_of_mem ((ord.mem_list captured).mp hmem)
  have hnone : newestKey ord' this.mCaptured = keyReserved := by
    obtain ⟨_, _, hfound⟩ := newest_spec (ord'.list this.mCaptured) (keyReserved, 0)
    rcases hfound with hstart | ⟨hmem, hmod, hlt⟩
    · exact congrArg Prod.fst hstart
    · have hle := hold _ (hpart ((ord'.mem_list this.mCaptured).mp hmem)) hmod
      exact absurd hlt (not_lt.mpr hle)
  rw [deleteKey]
  exact if_pos hnone

/-! ## Rounds -/

theorem outputLoop_append (memory : Nat → UInt8) (i : Nat) (word word' : Str) :
    outputLoop memory i (word ++ word') =
      outputLoop memory i word ++ outputLoop memory (i + word.length) word' := by
  induction word generalizing i with
  | nil => rfl
  | cons c word ih =>
    rw [List.cons_append, outputLoop, ih, outputLoop, List.cons_append, List.length_cons,
      Nat.add_right_comm, Nat.add_assoc]

/-- One more character, with the byte the memory has for it. -/
theorem outputLoop_concat (memory : Nat → UInt8) (word : Str) (byte : UInt8) (c : Char) :
    outputLoop (Function.update memory word.length byte) 0 (word ++ [c]) =
      outputLoop memory 0 word ++ [charReport byte c] := by
  have hsame : ∀ j < word.length,
      Function.update memory word.length byte (0 + j) = memory (0 + j) := by
    intro j hj
    refine Function.update_of_ne ?_ _ _
    omega
  rw [outputLoop_append, outputLoop_congr hsame, Nat.zero_add, outputLoop, outputLoop,
    Function.update_self]

/-- A sweep depends on which entries it finds expired. -/
theorem sweep_congr {this : Hemiola} {ord : KeyOrder} {now now' : Nat → Int}
    (h : ∀ entry ∈ ord.list this.mCaptured, isExpired now entry = isExpired now' entry) :
    this.sweep ord now = this.sweep ord now' := by
  have hentry : ∀ (acc : Str × UnorderedMap Nat Int), ∀ e ∈ ord.list this.mCaptured,
      sweepEntry now acc e = sweepEntry now' acc e := by
    intro acc e he
    have hiff : now e.1 - e.2 ≥ mTimeThreshold ↔ now' e.1 - e.2 ≥ mTimeThreshold :=
      decide_eq_decide.mp (h e he)
    rw [sweepEntry, sweepEntry, if_congr hiff rfl rfl]
  rw [sweep, sweep, List.foldl_ext _ _ _ hentry]

/-- A sweep in which nothing expires leaves everything. -/
theorem sweep_kept {this : Hemiola} {ord : KeyOrder} {now : Nat → Int}
    (h : ∀ entry ∈ ord.list this.mCaptured, isExpired now entry = false) :
    this.sweep ord now = ([], this) := by
  rw [sweep, foldl_sweepEntry_kept h]

/-- A later reading for one of the entries that have not expired adds this entry to the sweep. -/
theorem sweep_update {this : Hemiola} {ord : KeyOrder} {now : Nat → Int} {entry : Nat × Int}
    {seen rest : List (Nat × Int)} (hlist : ord.list this.mCaptured = seen ++ entry :: rest)
    (hkept : ∀ e ∈ entry :: rest, isExpired now e = false) {reading : Int}
    (hold : reading - entry.2 ≥ mTimeThreshold) :
    let swept := this.sweep ord now
    let swept' := this.sweep ord (Function.update now entry.1 reading)
    swept'.1 = swept.1 ++ charKeys entry.1 ∧
      swept'.2.mCaptured = swept.2.mCaptured.erase entry.1 ∧
      ∀ e ∈ rest, isExpired (Function.update now entry.1 reading) e = false := by
  have hsame : ∀ e ∈ seen ++ rest, Function.update now entry.1 reading e.1 = now e.1 :=
    fun e he => Function.update_of_ne (UnorderedMap.Order.key_ne hlist e he) _ _
  have hseen (acc : Str × UnorderedMap Nat Int) :
      seen.foldl (sweepEntry (Function.update now entry.1 reading)) acc =
        seen.foldl (sweepEntry now) acc := by
    refine List.foldl_ext _ _ _ fun acc e he => ?_
    rw [sweepEntry, sweepEntry, hsame e (List.mem_append_left rest he)]
  have hrest : ∀ e ∈ rest, isExpired (Function.update now entry.1 reading) e = false := by
    intro e he
    rw [isExpired, hsame e (List.mem_append_right seen he)]
    exact hkept e (List.mem_cons_of_mem entry he)
  have hentry (acc : Str × UnorderedMap Nat Int) :
      sweepEntry (Function.update now entry.1 reading) acc entry =
        (acc.1 ++ charKeys entry.1, acc.2.erase entry.1) := by
    rw [sweepEntry, Function.update_self]
    exact if_pos hold
  intro swept swept'
  have hswept : swept = (seen.foldl (sweepEntry now) ([], this.mCaptured) |>.1,
      { this with mCaptured := (seen.foldl (sweepEntry now) ([], this.mCaptured)).2 }) := by
    show this.sweep ord now = _
    rw [sweep, hlist, List.foldl_append, foldl_sweepEntry_kept hkept]
  have hswept' : swept' = ((seen.foldl (sweepEntry now) ([], this.mCaptured)).1 ++
      charKeys entry.1, { this with
        mCaptured := (seen.foldl (sweepEntry now) ([], this.mCaptured)).2.erase entry.1 }) := by
    show this.sweep ord (Function.update now entry.1 reading) = _
    rw [sweep, hlist, List.foldl_append, hseen, List.foldl_cons, hentry,
      foldl_sweepEntry_kept hrest]
  rw [hswept, hswept']
  exact ⟨rfl, rfl, hrest⟩

/-! ## The clock -/

/-- The call reads the clock: it captures the key. -/
def ReadsClock (this : Hemiola) (key : Nat) : Prop :=
  this.mModSequence = [] ∧ isCapturable key = true

instance (this : Hemiola) (key : Nat) : Decidable (this.ReadsClock key) :=
  inferInstanceAs (Decidable (_ ∧ _))

theorem not_readsClock {this : Hemiola} {key : Nat} (h : isCapturable key = false) :
    ¬ this.ReadsClock key := by
  intro hreads
  rw [hreads.2] at h
  cases h

/-- The readings of a sweep, in the order of the loop. -/
def readings (this : Hemiola) (ord : KeyOrder) (now : Nat → Int) : List Int :=
  (ord.list this.mCaptured).map fun entry => now entry.1

end Hemiola

/-! ## Whole calls and rounds -/

namespace Threads

/-- A call that has begun and not taken effect, or has and not returned. -/
inductive CallAt where
  | outside | called (key : Nat) | done
deriving DecidableEq

/-- A round that has begun at a time and not taken effect, or that has, with readings of the clock
up to a time, and not ended. -/
inductive RoundAt where
  | outside | begun (since : Int) | done (till : Int)
deriving DecidableEq

/-- What the calls have, and the time. -/
structure Calling where
  this : Hemiola
  call : CallAt
  clock : Int

structure Atomic extends Calling where
  chords : KeyChords
  written : List KeyReport
  round : RoundAt

/-- An event and the time at which it is seen. -/
abbrev TimedEvent := Event × Int

namespace Atomic

def start (chords : KeyChords) (clock : Int) : Atomic :=
  ⟨⟨.init, .outside, clock⟩, chords, [], .outside⟩

/-- A step of a call, or the clock going on. The mutex is `free` when a key is captured. -/
inductive CallStep (free : Prop) : Calling → Option Event → Calling → Prop where
  | call {this : Hemiola} {clock : Int} {key : Nat} :
      CallStep free ⟨this, .outside, clock⟩ (some (.called key)) ⟨this, .called key, clock⟩
  | addKey {this : Hemiola} {clock : Int} {ord : KeyOrder} {key : Nat}
      (hfree : this.ReadsClock key → free) :
      CallStep free ⟨this, .called key, clock⟩ none ⟨this.addKey ord clock key, .done, clock⟩
  | ret {this : Hemiola} {clock : Int} :
      CallStep free ⟨this, .done, clock⟩ (some .returned) ⟨this, .outside, clock⟩
  | tick {c : Calling} {elapsed : Nat} :
      CallStep free c none { c with clock := c.clock + elapsed }

inductive Step (a : Atomic) : Option Event → Atomic → Prop where
  | call {e : Option Event} {calling : Calling}
      (h : CallStep (a.round = .outside) a.toCalling e calling) :
      Step a e { a with toCalling := calling }
  | begin (h : a.round = .outside) : Step a (some .began) { a with round := .begun a.clock }
  | round {ord : KeyOrder} {now : Nat → Int} {memory : Nat → UInt8} {since till : Int}
      (h : a.round = .begun since) (hnow : Ascending since (a.this.readings ord now) till) :
      Step a none
        { a with this := (a.this.round a.chords ord now memory).1,
                 chords := (a.this.round a.chords ord now memory).2.1,
                 written := a.written ++ (a.this.round a.chords ord now memory).2.2,
                 round := .done till }
  | finish {till : Int} (h : a.round = .done till) (htill : till ≤ a.clock) :
      Step a (some .ended) { a with round := .outside }

abbrev TimedCallStep (free : Prop) := Timed Calling.clock (CallStep free)

abbrev TimedStep := Timed (fun a : Atomic => a.clock) Step

theorem CallStep.mono {free free' : Prop} (h : free → free') {c c' : Calling} {e : Option Event}
    (hstep : CallStep free c e c') : CallStep free' c e c' := by
  cases hstep with
  | call => exact .call
  | addKey hfree => exact .addKey fun hreads => h (hfree hreads)
  | ret => exact .ret
  | tick => exact .tick

theorem steps_mono {free free' : Prop} (h : free → free') {c c' : Calling}
    {acts : List (Option TimedEvent)} (hsteps : Steps (TimedCallStep free) c acts c') :
    Steps (TimedCallStep free') c acts c' :=
  hsteps.mono fun _ _ _ hstep => hstep.mono fun _ hcall => hcall.mono h

/-- Steps of a call leave alone what the rounds have. -/
theorem steps_calls {a : Atomic} {free : Prop} (hfree : free → a.round = .outside)
    {acts : List (Option TimedEvent)} {c : Calling}
    (h : Steps (TimedCallStep free) a.toCalling acts c) :
    Steps TimedStep a acts { a with toCalling := c } := by
  induction h with
  | refl => exact .refl
  | @tail acts d c' e _ hstep ih =>
    cases hstep with
    | step hcall =>
      have hstep : Step { a with toCalling := d } _ { a with toCalling := c' } :=
        .call (hcall.mono hfree)
      exact ih.tail (.step hstep)

end Atomic

end Threads
end Hemiola
