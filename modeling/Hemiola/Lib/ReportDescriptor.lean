import Mathlib.Data.Nat.Bitwise
import Mathlib.Data.Nat.Digits.Defs

/-!
# Lib.ReportDescriptor

What a USB host makes of the report descriptor of a HID device: the fields of its input report,
and of a report the usages that are asserted in these fields.

A descriptor is a sequence of short items, each a prefix byte with the type, the tag and the
number of data bytes. Global items hold until they are set again, local items up to the next main
item, and a main item `Input` makes a field of `reportCount` values of `reportSize` bits. A
variable field has a usage for each of its values, asserted when the value is not zero; the
values of an array field are numbers of usages.

Covered are devices with one report and logical minima that are not negative; long items, report
ids, designators, strings and the item stack make `fields` fail.

* `value_byte`: a field of one byte, or part of a byte, is read from that byte.
-/

namespace Lib
namespace ReportDescriptor

structure Globals where
  usagePage : Nat
  logicalMinimum : Nat
  logicalMaximum : Nat
  reportSize : Nat
  reportCount : Nat
deriving DecidableEq

structure Locals where
  usages : List Nat
  usageMinimum : Nat
deriving DecidableEq

/-- A field of the input report, `offset` being the number of its first bit. -/
structure Field where
  offset : Nat
  size : Nat
  count : Nat
  constant : Bool
  isVariable : Bool
  usagePage : Nat
  logicalMinimum : Nat
  logicalMaximum : Nat
  usages : List Nat
deriving DecidableEq

/-- The items read so far; `bits` is the length of the fields. -/
structure Items where
  globals : Globals
  locals : Locals
  fields : List Field
  bits : Nat
  collections : Nat
deriving DecidableEq

def Items.start : Items := ⟨⟨0, 0, 0, 0, 0⟩, ⟨[], 0⟩, [], 0, 0⟩

/-- A number of bytes, the lowest first. -/
def number (bytes : List UInt8) : Nat := Nat.ofDigits 256 (bytes.map UInt8.toNat)

/-- The end of a main item. -/
def Items.clearLocals (items : Items) : Items := { items with locals := ⟨[], 0⟩ }

def Items.input (items : Items) (flags : Nat) : Items :=
  let globals := items.globals
  let field : Field :=
    { offset := items.bits, size := globals.reportSize, count := globals.reportCount,
      constant := flags.testBit 0, isVariable := flags.testBit 1,
      usagePage := globals.usagePage, logicalMinimum := globals.logicalMinimum,
      logicalMaximum := globals.logicalMaximum, usages := items.locals.usages }
  { items with fields := items.fields ++ [field], bits := items.bits + field.size * field.count }

def Items.mainItem (items : Items) (tag data : Nat) : Option Items :=
  if tag = 8 then some (items.input data).clearLocals
  -- an output or a feature field is no part of the input report
  else if tag = 9 ∨ tag = 11 then some items.clearLocals
  else if tag = 10 then some { items.clearLocals with collections := items.collections + 1 }
  else if tag = 12 ∧ 0 < items.collections then
    some { items.clearLocals with collections := items.collections - 1 }
  else none

def Items.globalItem (items : Items) (tag data : Nat) : Option Items :=
  let globals := items.globals
  if tag = 0 then some { items with globals := { globals with usagePage := data } }
  else if tag = 1 then some { items with globals := { globals with logicalMinimum := data } }
  else if tag = 2 then some { items with globals := { globals with logicalMaximum := data } }
  -- the physical extent and the unit
  else if 3 ≤ tag ∧ tag ≤ 6 then some items
  else if tag = 7 then some { items with globals := { globals with reportSize := data } }
  else if tag = 9 then some { items with globals := { globals with reportCount := data } }
  else none

def Items.localItem (items : Items) (tag data : Nat) : Option Items :=
  let locals := items.locals
  if tag = 0 then some { items with locals := { locals with usages := locals.usages ++ [data] } }
  else if tag = 1 then some { items with locals := { locals with usageMinimum := data } }
  else if tag = 2 then
    let range := List.range' locals.usageMinimum (data + 1 - locals.usageMinimum)
    some { items with locals := { locals with usages := locals.usages ++ range } }
  else none

def Items.item (items : Items) (type tag data : Nat) : Option Items :=
  if type = 0 then items.mainItem tag data
  else if type = 1 then items.globalItem tag data
  else if type = 2 then items.localItem tag data
  else none

/-- The number of data bytes, the type and the tag in a prefix byte. -/
def dataSize (b : UInt8) : Nat := if b.toNat % 4 = 3 then 4 else b.toNat % 4
def itemType (b : UInt8) : Nat := b.toNat / 4 % 4
def itemTag (b : UInt8) : Nat := b.toNat / 16

/-- At most `fuel` items. -/
def Items.read : Nat → Items → List UInt8 → Option Items
  | _, items, [] => if items.collections = 0 then some items else none
  | 0, _, _ :: _ => none
  | fuel + 1, items, b :: bytes =>
    if bytes.length < dataSize b then none
    else
      match items.item (itemType b) (itemTag b) (number (bytes.take (dataSize b))) with
      | none => none
      | some items => read fuel items (bytes.drop (dataSize b))

/-- The input report of a device with this descriptor: its fields and its length in bits. -/
def inputReport (descriptor : List UInt8) : Option (List Field × Nat) :=
  (Items.start.read descriptor.length descriptor).map fun items => (items.fields, items.bits)

/-! ## A report -/

namespace Field

/-- The value `i` of a field in a report. -/
def value (field : Field) (report : List UInt8) (i : Nat) : Nat :=
  number report / 2 ^ (field.offset + i * field.size) % 2 ^ field.size

/-- The usage of value `i` of a variable field: the last usage goes to all that are left over. -/
def usageOf (field : Field) (i : Nat) : Option Nat :=
  field.usages[i]?.or field.usages.getLast?

/-- The usage that value `i` asserts. -/
def asserted (field : Field) (report : List UInt8) (i : Nat) : Option Nat :=
  let v := field.value report i
  if field.constant then none
  else if field.isVariable then
    if v = 0 then none else field.usageOf i
  else if field.logicalMinimum ≤ v ∧ v ≤ field.logicalMaximum then
    field.usages[v - field.logicalMinimum]?
  else none

/-- The usages asserted in a field of a report. -/
def usagesIn (field : Field) (report : List UInt8) : List Nat :=
  (List.range field.count).filterMap (field.asserted report)

theorem usagesIn_constant {field : Field} (h : field.constant = true) (report : List UInt8) :
    field.usagesIn report = [] := by
  simp [usagesIn, asserted, h]

end Field

/-- The usages of a page that are asserted in a report. -/
def usages (fields : List Field) (page : Nat) (report : List UInt8) : List Nat :=
  (fields.filter fun field => field.usagePage = page).flatMap fun field => field.usagesIn report

/-! ## The bits of a byte -/

theorem number_cons (b : UInt8) (bytes : List UInt8) :
    number (b :: bytes) = b.toNat + 256 * number bytes := by
  simp [number, Nat.ofDigits_cons]

theorem number_div {bytes : List UInt8} {j : Nat} (hj : j < bytes.length) :
    number bytes / 256 ^ j % 256 = bytes[j].toNat := by
  induction bytes generalizing j with
  | nil => exact absurd hj (Nat.not_lt_zero j)
  | cons b bytes ih =>
    have hb : b.toNat < 256 := b.toNat_lt
    rw [number_cons]
    cases j with
    | zero => simp only [pow_zero, Nat.div_one, List.getElem_cons_zero]; omega
    | succ j =>
      have hdiv : (b.toNat + 256 * number bytes) / 256 = number bytes := by omega
      rw [pow_succ', ← Nat.div_div_eq_div_mul, hdiv, List.getElem_cons_succ]
      exact ih (Nat.lt_of_succ_lt_succ hj)

/-- `size` bits of a number from bit `i` on are bits of its byte, if they lie in it. -/
theorem number_bits {bytes : List UInt8} {j i size : Nat} (hj : j < bytes.length)
    (hi : i + size ≤ 8) :
    number bytes / 2 ^ (8 * j + i) % 2 ^ size = bytes[j].toNat / 2 ^ i % 2 ^ size := by
  have hpow : 2 ^ (8 * j + i) = 256 ^ j * 2 ^ i := by
    rw [pow_add, pow_mul]
    norm_num
  rw [hpow, ← Nat.div_div_eq_div_mul, ← number_div hj]
  generalize number bytes / 256 ^ j = n
  apply Nat.eq_of_testBit_eq
  intro k
  have h256 : 256 = 2 ^ 8 := by norm_num
  rw [h256]
  simp only [Nat.testBit_mod_two_pow, Nat.testBit_div_two_pow]
  by_cases hk : k < size
  · have hlt : k + i < 8 := by omega
    simp [hk, hlt]
  · simp [hk]

/-- A value that lies in byte `j` is read from it. -/
theorem Field.value_byte (field : Field) {report : List UInt8} {i j k : Nat}
    (hoffset : field.offset + i * field.size = 8 * j + k) (hj : j < report.length)
    (hk : k + field.size ≤ 8) :
    field.value report i = report[j].toNat / 2 ^ k % 2 ^ field.size := by
  rw [Field.value, hoffset, number_bits hj hk]

end ReportDescriptor
end Lib
