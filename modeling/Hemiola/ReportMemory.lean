import Hemiola.WordOutput

/-!
# Hemiola.ReportMemory

The byte that `KeyReport report;` leaves uninitialised in the loop over a word. It is the modifier
byte of the report, which nothing sets before the write, so each buffer starts with whatever the
memory held.

* `outputLoop_modifiers`: the modifier bytes written are those found in memory.
* `outputLoop_congr`: nothing else of the memory is written.
* `word_writes_iff`: when the buffers depend on the word only.
-/

namespace Hemiola

open Lib

/-- The first byte of a buffer. -/
def USBHID.Data.modifiers (d : Data) : UInt8 := d.bytes.headD 0

theorem outputLoop_modifiers (memory : Nat → UInt8) (i : Nat) (word : Str) :
    (Hemiola.outputLoop memory i word).map KeyReport.modifiers =
      (List.range' i word.length).map memory := by
  induction word generalizing i with
  | nil => rfl
  | cons c word ih =>
    rw [Hemiola.outputLoop, List.map_cons, ih, List.length_cons, List.range'_succ,
      List.map_cons]
    rfl

theorem outputLoop_congr {memory memory' : Nat → UInt8} {i : Nat} {word : Str}
    (h : ∀ j < word.length, memory (i + j) = memory' (i + j)) :
    Hemiola.outputLoop memory i word = Hemiola.outputLoop memory' i word := by
  induction word generalizing i with
  | nil => rfl
  | cons c word ih =>
    have hfirst : memory i = memory' i := h 0 (Nat.zero_lt_succ _)
    have hrest : ∀ j < word.length, memory (i + 1 + j) = memory' (i + 1 + j) := by
      intro j hj
      rw [Nat.add_right_comm]
      exact h (j + 1) (Nat.succ_lt_succ hj)
    rw [Hemiola.outputLoop, Hemiola.outputLoop, hfirst, ih hrest]

/-- Every buffer has a zero modifier byte. -/
def NoModifiers (writes : List USBHID.Data) : Prop := ∀ d ∈ writes, d.modifiers = 0

theorem noModifiers_iff (memory : Nat → UInt8) (word : Str) :
    NoModifiers (wordWrites memory word) ↔ ∀ i < word.length, memory i = 0 := by
  have hmodifiers : (wordWrites memory word).map USBHID.Data.modifiers =
      (List.range word.length).map memory := by
    rw [List.range_eq_range', ← outputLoop_modifiers, wordWrites, List.map_map]
    rfl
  have hforall : NoModifiers (wordWrites memory word) ↔
      ∀ u ∈ (wordWrites memory word).map USBHID.Data.modifiers, u = 0 := by
    rw [List.forall_mem_map]
    rfl
  rw [hforall, hmodifiers, List.forall_mem_map]
  exact forall_congr' fun i => by rw [List.mem_range]

/-- **What the host is sent for a word.** For two contents of the memory the buffers are the same,
all with a zero modifier byte, exactly when both have a zero wherever a report is put. -/
theorem word_writes_iff (word : Str) (memory memory' : Nat → UInt8) :
    (wordWrites memory word = wordWrites memory' word ∧
      NoModifiers (wordWrites memory word) ∧ NoModifiers (wordWrites memory' word)) ↔
      ∀ i < word.length, memory i = 0 ∧ memory' i = 0 := by
  rw [noModifiers_iff, noModifiers_iff]
  constructor
  · intro h i hi
    exact ⟨h.2.1 i hi, h.2.2 i hi⟩
  · intro h
    refine ⟨?_, fun i hi => (h i hi).1, fun i hi => (h i hi).2⟩
    have hsame : ∀ j < word.length, memory (0 + j) = memory' (0 + j) := by
      intro j hj
      rw [Nat.zero_add, (h j hj).1, (h j hj).2]
    rw [wordWrites, wordWrites, outputLoop_congr hsame]

/-- The byte of Left Ctrl is found in memory and sent with `a`. -/
theorem memory_sent :
    ¬ ∀ (word : Str) (memory memory' : Nat → UInt8),
      wordWrites memory word = wordWrites memory' word ∧
        NoModifiers (wordWrites memory word) ∧ NoModifiers (wordWrites memory' word) := by
  intro h
  obtain ⟨hsame, _⟩ := h "a".toList (fun _ => 0) (fun _ => 1)
  exact absurd hsame (by decide +kernel)

end Hemiola
