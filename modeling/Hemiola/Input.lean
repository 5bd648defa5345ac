import Mathlib.Data.List.Basic

/-!
# Hemiola.Input

What the program takes from `<linux/input.h>`: the input event as read from the device, the
values of its fields that `Utils.h` names, and the codes of the keys in the key table.

A C++ `unsigned int`, `unsigned short` or `__u16` that is only compared, looked up or cast is a
`Nat`; the one narrowing, to `uint8_t`, is `UInt8.ofNat`. A `std::string` is the list of its
bytes, each written as the character with that code.
-/

namespace Hemiola

abbrev Str := List Char

structure InputEvent where
  type : Nat
  code : Nat
  value : Int
deriving DecidableEq, Repr

abbrev evKey : Nat := 1

abbrev evBreak : Int := 0
abbrev evMake : Int := 1
abbrev evRepeat : Int := 2

/-- What an event says about the keys: a key went down, a key went up, or nothing (another event
type, an auto-repeat, an unused value). -/
inductive KeyAction where
  | make (code : Nat)
  | break (code : Nat)
  | other
deriving DecidableEq, Repr

def InputEvent.action (event : InputEvent) : KeyAction :=
  if event.type ≠ evKey then .other
  else if event.value = evMake then .make event.code
  else if event.value = evBreak then .break event.code
  else .other

/-- The `MAKE` event of a key. -/
def InputEvent.make (code : Nat) : InputEvent := ⟨evKey, code, evMake⟩

/-- The `BREAK` event of a key. -/
def InputEvent.break (code : Nat) : InputEvent := ⟨evKey, code, evBreak⟩

@[simp] theorem action_make (code : Nat) : (InputEvent.make code).action = .make code := rfl

@[simp] theorem action_break (code : Nat) : (InputEvent.break code).action = .break code := rfl

theorem action_eq_make_iff {event : InputEvent} {k : Nat} :
    event.action = .make k ↔ event = .make k := by
  obtain ⟨type, code, value⟩ := event
  simp only [InputEvent.action, InputEvent.make]
  split_ifs with htype hmake hbreak <;> simp_all

theorem action_eq_break_iff {event : InputEvent} {k : Nat} :
    event.action = .break k ↔ event = .break k := by
  obtain ⟨type, code, value⟩ := event
  simp only [InputEvent.action, InputEvent.break]
  split_ifs with htype hmake hbreak <;> simp_all [evMake, evBreak]

/-! ## Key codes -/

abbrev keyReserved : Nat := 0
abbrev keyEsc : Nat := 1
abbrev key1 : Nat := 2
abbrev key2 : Nat := 3
abbrev key3 : Nat := 4
abbrev key4 : Nat := 5
abbrev key5 : Nat := 6
abbrev key6 : Nat := 7
abbrev key7 : Nat := 8
abbrev key8 : Nat := 9
abbrev key9 : Nat := 10
abbrev key0 : Nat := 11
abbrev keyMinus : Nat := 12
abbrev keyEqual : Nat := 13
abbrev keyBackspace : Nat := 14
abbrev keyTab : Nat := 15
abbrev keyQ : Nat := 16
abbrev keyW : Nat := 17
abbrev keyE : Nat := 18
abbrev keyR : Nat := 19
abbrev keyT : Nat := 20
abbrev keyY : Nat := 21
abbrev keyU : Nat := 22
abbrev keyI : Nat := 23
abbrev keyO : Nat := 24
abbrev keyP : Nat := 25
abbrev keyLeftBrace : Nat := 26
abbrev keyRightBrace : Nat := 27
abbrev keyEnter : Nat := 28
abbrev keyLeftCtrl : Nat := 29
abbrev keyA : Nat := 30
abbrev keyS : Nat := 31
abbrev keyD : Nat := 32
abbrev keyF : Nat := 33
abbrev keyG : Nat := 34
abbrev keyH : Nat := 35
abbrev keyJ : Nat := 36
abbrev keyK : Nat := 37
abbrev keyL : Nat := 38
abbrev keySemicolon : Nat := 39
abbrev keyApostrophe : Nat := 40
abbrev keyGrave : Nat := 41
abbrev keyLeftShift : Nat := 42
abbrev keyBackslash : Nat := 43
abbrev keyZ : Nat := 44
abbrev keyX : Nat := 45
abbrev keyC : Nat := 46
abbrev keyV : Nat := 47
abbrev keyB : Nat := 48
abbrev keyN : Nat := 49
abbrev keyM : Nat := 50
abbrev keyComma : Nat := 51
abbrev keyDot : Nat := 52
abbrev keySlash : Nat := 53
abbrev keyRightShift : Nat := 54
abbrev keyKpAsterisk : Nat := 55
abbrev keyLeftAlt : Nat := 56
abbrev keySpace : Nat := 57
abbrev keyCapsLock : Nat := 58
abbrev keyF1 : Nat := 59
abbrev keyF2 : Nat := 60
abbrev keyF3 : Nat := 61
abbrev keyF4 : Nat := 62
abbrev keyF5 : Nat := 63
abbrev keyF6 : Nat := 64
abbrev keyF7 : Nat := 65
abbrev keyF8 : Nat := 66
abbrev keyF9 : Nat := 67
abbrev keyF10 : Nat := 68
abbrev keyNumLock : Nat := 69
abbrev keyScrollLock : Nat := 70
abbrev keyKp7 : Nat := 71
abbrev keyKp8 : Nat := 72
abbrev keyKp9 : Nat := 73
abbrev keyKpMinus : Nat := 74
abbrev keyKp4 : Nat := 75
abbrev keyKp5 : Nat := 76
abbrev keyKp6 : Nat := 77
abbrev keyKpPlus : Nat := 78
abbrev keyKp1 : Nat := 79
abbrev keyKp2 : Nat := 80
abbrev keyKp3 : Nat := 81
abbrev keyKp0 : Nat := 82
abbrev keyKpDot : Nat := 83
abbrev keyZenkakuHankaku : Nat := 85
abbrev key102nd : Nat := 86
abbrev keyF11 : Nat := 87
abbrev keyF12 : Nat := 88
abbrev keyRo : Nat := 89
abbrev keyKatakana : Nat := 90
abbrev keyHiragana : Nat := 91
abbrev keyHenkan : Nat := 92
abbrev keyKatakanaHiragana : Nat := 93
abbrev keyMuhenkan : Nat := 94
abbrev keyKpJpComma : Nat := 95
abbrev keyKpEnter : Nat := 96
abbrev keyRightCtrl : Nat := 97
abbrev keyKpSlash : Nat := 98
abbrev keySysRq : Nat := 99
abbrev keyRightAlt : Nat := 100
abbrev keyHome : Nat := 102
abbrev keyUp : Nat := 103
abbrev keyPageUp : Nat := 104
abbrev keyLeft : Nat := 105
abbrev keyRight : Nat := 106
abbrev keyEnd : Nat := 107
abbrev keyDown : Nat := 108
abbrev keyPageDown : Nat := 109
abbrev keyInsert : Nat := 110
abbrev keyDelete : Nat := 111
abbrev keyMute : Nat := 113
abbrev keyVolumeDown : Nat := 114
abbrev keyVolumeUp : Nat := 115
abbrev keyPower : Nat := 116
abbrev keyKpEqual : Nat := 117
abbrev keyPause : Nat := 119
abbrev keyKpComma : Nat := 121
abbrev keyHangeul : Nat := 122
abbrev keyHanja : Nat := 123
abbrev keyYen : Nat := 124
abbrev keyLeftMeta : Nat := 125
abbrev keyRightMeta : Nat := 126
abbrev keyCompose : Nat := 127
abbrev keyStop : Nat := 128
abbrev keyAgain : Nat := 129
abbrev keyProps : Nat := 130
abbrev keyUndo : Nat := 131
abbrev keyFront : Nat := 132
abbrev keyCopy : Nat := 133
abbrev keyOpen : Nat := 134
abbrev keyPaste : Nat := 135
abbrev keyFind : Nat := 136
abbrev keyCut : Nat := 137
abbrev keyHelp : Nat := 138
abbrev keyKpLeftParen : Nat := 179
abbrev keyKpRightParen : Nat := 180
abbrev keyF13 : Nat := 183
abbrev keyF14 : Nat := 184
abbrev keyF15 : Nat := 185
abbrev keyF16 : Nat := 186
abbrev keyF17 : Nat := 187
abbrev keyF18 : Nat := 188
abbrev keyF19 : Nat := 189
abbrev keyF20 : Nat := 190
abbrev keyF21 : Nat := 191
abbrev keyF22 : Nat := 192
abbrev keyF23 : Nat := 193
abbrev keyF24 : Nat := 194

end Hemiola
