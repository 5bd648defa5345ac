import Mathlib.Data.Finset.Dedup
import Mathlib.Data.Finset.Insert
import Hemiola.KeyTable

/-!
# Hemiola.KeyChords

The dictionary from chords to words: `buildMap` fills it from the configuration, `parseChord`
reads the text of a chord as the set of its keys, `getWord` looks a chord up.

The configuration is what `YAML::LoadFile` returns, the entries of a map in document order.
`pop ( )` on the empty queue of separators leaves it empty. `m_ChordMap [chordSet]` enters a
missing key with the empty word, so `getWord` also returns the dictionary it leaves.
-/

namespace Hemiola

open Lib KeyTable

/-- A `YAML::Node`: a scalar, or a node of another type. -/
inductive Node where
  | scalar (text : Str)
  | nested
deriving DecidableEq

/-- The settings read from the configuration; `chords` is `none` when it is missing or no map. -/
structure Config where
  dup : Option Str
  plural : Option Str
  past : Option Str
  chords : Option (List (Node × Node))

structure KeyChords where
  mChordMap : UnorderedMap (Finset Nat) Str
  mDup : Nat
  mPlural : Nat
  mPast : Nat

namespace KeyChords

def defaultDup : Char := '='
def defaultPlural : Char := ';'
def defaultPast : Char := ','
def separator : Char := '+'

/-- `::isspace` in the "C" locale. -/
def isspace (c : Char) : Bool := c.toNat = 32 || 9 ≤ c.toNat && c.toNat ≤ 13

/-- `std::string::npos` -/
def npos : Nat := 2 ^ 64 - 1

/-- The state the constructor leaves. -/
def fresh : KeyChords := ⟨.empty, keyReserved, keyReserved, keyReserved⟩

/-- The loop over the separators that are left, after the letters. -/
def parseSpecials (this : KeyChords) (chord : Str) : List Nat → Nat → Finset Nat → Finset Nat
  | [], _, chordSet => chordSet
  | sep :: seps, stop, chordSet =>
    let start := stop
    let stop := if sep ≠ npos then sep + 1 else chord.length
    let special := (chord.take stop).drop start
    let chordSet :=
      if special = charKeys this.mDup then insert this.mDup chordSet
      else if special = charKeys this.mPlural then insert this.mPlural chordSet
      else if special = charKeys this.mPast then insert this.mPast chordSet
      else chordSet
    parseSpecials this chord seps stop chordSet

def parseChord (this : KeyChords) (chord : Str) : Finset Nat :=
  let chord := chord.filter fun c => !isspace c
  let seps := chord.findIdxs (· == separator)
  let stop := match seps with
    | [] => chord.length
    | sep :: _ => sep + 1
  let seps := seps.tail
  let chordSet := (chord.take stop).foldl (fun set c => insert (getKeyCode [c]) set) ∅
  parseSpecials this chord seps stop chordSet

/-- One entry of `config ["chords"]`. -/
def addChord (this : KeyChords) (entry : Node × Node) : KeyChords :=
  match entry with
  | (.scalar word, .scalar text) =>
    let chord := this.parseChord text
    if chord ≠ ∅ ∧ this.mChordMap.contains chord = false then
      { this with mChordMap := this.mChordMap.set chord word }
    else this
  | _ => this

def buildMap (this : KeyChords) (config : Config) : KeyChords :=
  let mDup := match config.dup with
    | some text => getKeyCode text
    | none => this.mDup
  let mPlural := match config.plural with
    | some text => getKeyCode text
    | none => this.mPlural
  let mPast := match config.past with
    | some text => getKeyCode text
    | none => this.mPast
  let mDup := if mDup = keyReserved then defaultDup.toNat else mDup
  let mPlural := if mPlural = keyReserved then defaultPlural.toNat else mPlural
  let mPast := if mPast = keyReserved then defaultPast.toNat else mPast
  let this := { this with mDup := mDup, mPlural := mPlural, mPast := mPast }
  match config.chords with
  | some chords => chords.foldl addChord this
  | none => this

/-- The word for a chord, and the dictionary after the call. -/
def getWord (this : KeyChords) (chord : Str) : Str × KeyChords :=
  let chordSet := this.parseChord chord
  if chordSet = ∅ ∨ this.mChordMap.contains chordSet = true then
    let (word, map) := this.mChordMap.subscript chordSet []
    (word, { this with mChordMap := map })
  else (chord, this)

/-- The dictionary after a series of calls. -/
def getWords (this : KeyChords) (chords : List Str) : KeyChords :=
  chords.foldl (fun this chord => (this.getWord chord).2) this

end KeyChords
end Hemiola
