import Hemiola.Lib.Trace
import Hemiola.Main
import Hemiola.SweepText

/-!
# Hemiola.Wiring

The program from the start of `main` on. `main` constructs the dictionary, hands it to `Hemiola`
and starts the timer loop; it calls nothing that reads the configuration, and `buildMap`, which
does, has no caller. The dictionary therefore never has a chord in it but the empty one.

* `unfilled_run`: what the dictionary holds in any state.
* `typed_eq_chord`: the timer loop types the chord string itself.
* `typed_word_iff`: it types the word of a configured chord only where the representations of the
  swept keys, in the order of the sweep, are that word.
-/

namespace Hemiola

open Lib KeyTable KeyChords

structure Program where
  main : Main
  chords : KeyChords

namespace Program

/-- What `main` constructs before it starts the threads. The configuration is not read. -/
def start (_config : Config) : Program := ⟨.init, .fresh⟩

/-- An event, with what its write returns, or a round of the timer loop. -/
inductive Input where
  | event (event : InputEvent) (result errno : Int) (ord : KeyOrder) (now : Int)
  | round (ord : KeyOrder) (now : Nat → Int) (memory : Nat → UInt8)

def step (this : Program) : Input → Program
  | .event event result errno ord now =>
    { this with main := this.main.pass result errno ord now event }
  | .round ord now memory =>
    let (hemiola, chords, _) := this.main.hemiola.round this.chords ord now memory
    ⟨{ this.main with hemiola := hemiola }, chords⟩

def run (this : Program) (inputs : List Input) : Program := inputs.foldl step this

/-- The chord string of a sweep. -/
def chord (this : Program) (ord : KeyOrder) (now : Nat → Int) : Str :=
  (this.main.hemiola.sweep ord now).1

/-- The text that the timer loop types after the sweep. -/
def typed (this : Program) (ord : KeyOrder) (now : Nat → Int) : Str :=
  (this.chords.getWord (this.chord ord now)).1

theorem round_reports (this : Program) (ord : KeyOrder) (now : Nat → Int)
    (memory : Nat → UInt8) :
    (this.main.hemiola.round this.chords ord now memory).2.2 =
      Hemiola.outputLoop memory 0 (this.typed ord now) := rfl

/-! ## Chord strings -/

theorem chord_plain (this : Program) (ord : KeyOrder) (now : Nat → Int) :
    ∀ c ∈ this.chord ord now, isspace c = false ∧ c ≠ separator :=
  this.main.hemiola.sweep_plain ord now

/-- Of the texts without white space and separators only the empty one is read as the empty set. -/
theorem parseChord_plain {chords : KeyChords} {text : Str}
    (hplain : ∀ c ∈ text, isspace c = false ∧ c ≠ separator)
    (h : chords.parseChord text = ∅) : text = [] := by
  rw [parseChord_eq chords fun hmem => (hplain _ hmem).2 rfl] at h
  by_contra hne
  obtain ⟨c, hc⟩ := List.exists_mem_of_ne_nil _ hne
  exact keyCodes_ne_empty ⟨c, hc, (hplain c hc).1⟩ h

/-! ## The dictionary -/

/-- The dictionary holds nothing, or the empty word for the empty set. -/
def Unfilled (chords : KeyChords) : Prop :=
  ∀ keys word, chords.mChordMap.find? keys = some word → keys = ∅ ∧ word = []

theorem unfilled_fresh : Unfilled .fresh := by
  intro keys word h
  cases h

/-- Such a dictionary returns every text as it is, but the empty word for the empty set. -/
theorem getWord_unfilled {chords : KeyChords} (h : Unfilled chords) (text : Str) :
    (chords.getWord text).1 = (if chords.parseChord text = ∅ then [] else text) ∧
      Unfilled (chords.getWord text).2 := by
  constructor
  · rw [getWord_fst]
    cases hfind : chords.mChordMap.find? (chords.parseChord text) with
    | none => rfl
    | some word =>
      obtain ⟨hempty, hword⟩ := h _ word hfind
      rw [if_pos hempty, hword]
      rfl
  · intro keys word hfind
    by_cases hkeys : keys = ∅
    · subst hkeys
      refine ⟨rfl, (getWord_empty chords text hfind).trans ?_⟩
      cases hempty : chords.mChordMap.find? ∅ with
      | none => rfl
      | some word => exact (h ∅ word hempty).2
    · exact h keys word (find?_getWord chords text hkeys ▸ hfind)

theorem getWord_plain {chords : KeyChords} (h : Unfilled chords) {text : Str}
    (hplain : ∀ c ∈ text, isspace c = false ∧ c ≠ separator) : (chords.getWord text).1 = text := by
  rw [(getWord_unfilled h _).1]
  split_ifs with hempty
  · exact (parseChord_plain hplain hempty).symm
  · rfl

theorem unfilled_run {this : Program} (h : Unfilled this.chords) (inputs : List Input) :
    Unfilled (this.run inputs).chords := by
  refine Trace.run_inv (I := fun this : Program => Unfilled this.chords)
    (fun this input h => ?_) inputs h
  cases input with
  | event event result errno ord now => exact h
  | round ord now memory => exact (getWord_unfilled h _).2

theorem typed_eq_chord (config : Config) (inputs : List Input) (ord : KeyOrder)
    (now : Nat → Int) :
    ((start config).run inputs).typed ord now = ((start config).run inputs).chord ord now := by
  have hstart : Unfilled (start config).chords := unfilled_fresh
  have hunfilled := unfilled_run hstart inputs
  exact getWord_plain hunfilled (chord_plain _ ord now)

/-! ## Configured chords -/

/-- The special keys that `buildMap` takes from a configuration. -/
def settings (config : Config) : KeyChords :=
  KeyChords.fresh.buildMap { config with chords := none }

/-- A scalar chord of the configuration without a separator, and the first with its key set. -/
structure Entry (config : Config) where
  word : Str
  text : Str
  earlier : List (Node × Node)
  later : List (Node × Node)
  split : config.chords = some (earlier ++ (.scalar word, .scalar text) :: later)
  plain : separator ∉ text
  first : ∀ word' text', (.scalar word', .scalar text') ∈ earlier →
    (settings config).parseChord text' ≠ (settings config).parseChord text

/-- The characters of the chord. -/
def Entry.letters {config : Config} (entry : Entry config) : Str :=
  entry.text.filter fun c => !isspace c

/-- **The configured words.** Whenever the representations of the swept keys are the characters of
a configured chord, in any order, the word of that chord is typed: this holds exactly where the
word is these very representations, one after the other in the order of the sweep. -/
theorem typed_word_iff (config : Config) (inputs : List Input) (ord : KeyOrder)
    (now : Nat → Int) :
    let this := (start config).run inputs
    let swept := (ord.list this.main.hemiola.mCaptured).filter (Hemiola.isExpired now)
    let representations := swept.flatMap fun e => charKeys e.1
    (∀ entry : Entry config, representations.Perm entry.letters →
      this.typed ord now = entry.word) ↔
      ∀ entry : Entry config, representations.Perm entry.letters →
        representations = entry.word := by
  intro this swept representations
  have htyped : this.typed ord now = representations :=
    (typed_eq_chord config inputs ord now).trans (Hemiola.sweep_chord _ ord now)
  rw [htyped]

/-- `about: abou` of the settings: the keys A, B, O and U together type their four letters. -/
theorem about_not_typed :
    ¬ ∀ (config : Config) (inputs : List Input) (ord : KeyOrder) (now : Nat → Int),
      let this := (start config).run inputs
      ∀ entry : Entry config, (this.chord ord now).Perm entry.letters →
        this.typed ord now = entry.word := by
  intro h
  let config : Config := ⟨none, none, none, some [(.scalar "about".toList, .scalar "abou".toList)]⟩
  let ord := UnorderedMap.Order.stored Nat Int
  let press (k : Nat) (now : Int) : Input := .event (.make k) 8 0 ord now
  let inputs := [press keyA 1, press keyB 2, press keyO 3, press keyU 4]
  let entry : Entry config := ⟨"about".toList, "abou".toList, [], [], rfl, by decide, by simp⟩
  have hchord : ((start config).run inputs).chord ord (fun _ => 400 * 1000000) =
      "uoba".toList := by
    decide +kernel
  have htyped := h config inputs ord (fun _ => 400 * 1000000) entry (by
    rw [hchord]
    decide)
  rw [typed_eq_chord, hchord] at htyped
  exact absurd htyped (by decide)

end Program
end Hemiola
