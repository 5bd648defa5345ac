import Hemiola.Lib.Trace
import Hemiola.Lib.FirstFit
import Hemiola.Lib.Flags
import Hemiola.Lib.UnorderedMap
import Hemiola.Lib.EdgeDecoder
import Hemiola.Input
import Hemiola.KeyTable
import Hemiola.KeyReport
import Hemiola.SlotLaws
import Hemiola.KeyboardEvents
import Hemiola.Held
import Hemiola.ReportRefines
import Hemiola.ReportSlots
import Hemiola.KeyChords
import Hemiola.ChordLookup
import Hemiola.SpecialKeys
import Hemiola.ParseDefined
import Hemiola.Hemiola
import Hemiola.CaptureStack
import Hemiola.ChordExpiry
import Hemiola.USBHID
import Hemiola.WordOutput
import Hemiola.ReportMemory
import Hemiola.ChordCharacters
import Hemiola.ChordSpecials
import Hemiola.SweepText
import Hemiola.DeviceWrites
import Hemiola.Main
import Hemiola.ModifierAgreement
import Hemiola.Releases
import Hemiola.Rollover
import Hemiola.Capture
import Hemiola.FailedWrites
import Hemiola.ModifierSequence
import Hemiola.PressRelease
import Hemiola.SweepCursor
import Hemiola.UnknownKeys
import Hemiola.Wakeup
import Hemiola.Wiring
import Hemiola.DeviceChoice
import Hemiola.DeviceScan
import Hemiola.Atomic
import Hemiola.Explains
import Hemiola.Linearizes
import Hemiola.Races
import Hemiola.HostReport
import Hemiola.Transparent
import Hemiola.Conservation
import Hemiola.Delivery
import Hemiola.Concurrent
import Hemiola.Sequential
import Hemiola.Timing
import Hemiola.Dictionary
import Hemiola.Execute
import Hemiola.Process
import Hemiola.Signals
