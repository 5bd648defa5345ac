import Hemiola.KeyReport

/-!
# Hemiola.USBHID

The output device. `USBHID::write` makes eight bytes of a report, `data`, and hands them to the
system call, whose result is an argument here.
-/

namespace Hemiola

/-- `IoException`, with its text and error number. -/
structure IoException where
  what : String
  code : Int
deriving DecidableEq

namespace USBHID

/-- The bytes of one write. -/
structure Data where
  bytes : List UInt8
  size : bytes.length = 8
deriving DecidableEq

def data (report : KeyReport) : Data where
  bytes := [report.modifiers, 0x00] ++ report.keys.slots
  size := by rw [List.length_append, report.keys.size]; rfl

/-- `result` is what the system call returns and `errno` the error number it leaves. -/
def write (report : KeyReport) (result errno : Int) : Except IoException Data :=
  if result ≤ 0 then .error ⟨"Unable to write to output device", errno⟩
  else .ok (data report)

/-- The bytes in which the host finds the key slots. -/
def Data.slots (d : Data) : List UInt8 := d.bytes.drop 2

@[simp] theorem data_slots (report : KeyReport) : (data report).slots = report.keys.slots := rfl

end USBHID
end Hemiola
