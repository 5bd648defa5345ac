import Mathlib.Data.UInt
import Hemiola.Input
import Hemiola.Lib.UnorderedMap

/-!
# Hemiola.KeyTable

The key table: the character or name of a key, its HID usage or modifier bit, and the key of a
character. The tables are those of `KeyTable.h`, entry by entry.

* `isScanModifier_iff`, `isModifier_of_valid`: the two tests for a modifier agree on every code
  the table knows. They differ on codes above 255, of which `isModifier` sees the low byte only.
* `scanToHex_ne_zero`, `scanToHex_inj`: the usages of the keys that are not modifiers are
  nonzero and tell the keys apart.
* `getKeyCode_charKeys`: `getKeyCode` undoes `charKeys`.
-/

namespace Hemiola

open Lib

namespace KeyTable

/-! ## The tables -/

/-- `m_CharKeys` -/
def mCharKeys : UnorderedMap Nat Str where
  entries := [
    (keyA, "a".toList), (keyB, "b".toList), (keyC, "c".toList), (keyD, "d".toList),
    (keyE, "e".toList), (keyF, "f".toList), (keyG, "g".toList), (keyH, "h".toList),
    (keyI, "i".toList), (keyJ, "j".toList), (keyK, "k".toList), (keyL, "l".toList),
    (keyM, "m".toList), (keyN, "n".toList), (keyO, "o".toList), (keyP, "p".toList),
    (keyQ, "q".toList), (keyR, "r".toList), (keyS, "s".toList), (keyT, "t".toList),
    (keyU, "u".toList), (keyV, "v".toList), (keyW, "w".toList), (keyX, "x".toList),
    (keyY, "y".toList), (keyZ, "z".toList), (key1, "1".toList), (key2, "2".toList),
    (key3, "3".toList), (key4, "4".toList), (key5, "5".toList), (key6, "6".toList),
    (key7, "7".toList), (key8, "8".toList), (key9, "9".toList), (key0, "0".toList),
    (keyEnter, "<ENTER/>".toList), (keyEsc, "<ESC/>".toList),
    (keyBackspace, "<BACKSPACE/>".toList), (keyTab, "<TAB/>".toList),
    (keySpace, "<SPACE/>".toList), (keyMinus, "-".toList), (keyEqual, "=".toList),
    (keyLeftBrace, "[".toList), (keyRightBrace, "]".toList), (keyBackslash, "\\".toList),
    (keySemicolon, ";".toList), (keyApostrophe, "'".toList), (keyGrave, "`".toList),
    (keyComma, ",".toList), (keyDot, ".".toList), (keySlash, "/".toList),
    (keyCapsLock, "<CAPSLOCK/>".toList), (keyDelete, "<DELETE/>".toList)]
  nodup := by decide

/-- `m_ModKeys` -/
def mModKeys : UnorderedMap Nat Str where
  entries := [
    (keyLeftCtrl, "LCTRL".toList), (keyLeftShift, "LSHIFT".toList), (keyLeftAlt, "LALT".toList),
    (keyLeftMeta, "LMETA".toList), (keyRightCtrl, "RCTRL".toList),
    (keyRightShift, "RSHIFT".toList), (keyRightAlt, "RALT".toList),
    (keyRightMeta, "RMETA".toList)]
  nodup := by decide

/-- `m_HexValues` -/
def mHexValues : UnorderedMap Nat UInt8 where
  entries := [
    (keyA, 0x04), (keyB, 0x05), (keyC, 0x06), (keyD, 0x07), (keyE, 0x08), (keyF, 0x09),
    (keyG, 0x0a), (keyH, 0x0b), (keyI, 0x0c), (keyJ, 0x0d), (keyK, 0x0e), (keyL, 0x0f),
    (keyM, 0x10), (keyN, 0x11), (keyO, 0x12), (keyP, 0x13), (keyQ, 0x14), (keyR, 0x15),
    (keyS, 0x16), (keyT, 0x17), (keyU, 0x18), (keyV, 0x19), (keyW, 0x1a), (keyX, 0x1b),
    (keyY, 0x1c), (keyZ, 0x1d), (key1, 0x1e), (key2, 0x1f), (key3, 0x20), (key4, 0x21),
    (key5, 0x22), (key6, 0x23), (key7, 0x24), (key8, 0x25), (key9, 0x26), (key0, 0x27),
    (keyEnter, 0x28), (keyEsc, 0x29), (keyBackspace, 0x2a), (keyTab, 0x2b), (keySpace, 0x2c),
    (keyMinus, 0x2d), (keyEqual, 0x2e), (keyLeftBrace, 0x2f), (keyRightBrace, 0x30),
    (keyBackslash, 0x31), (keySemicolon, 0x33), (keyApostrophe, 0x34), (keyGrave, 0x35),
    (keyComma, 0x36), (keyDot, 0x37), (keySlash, 0x38), (keyCapsLock, 0x02), (keyF1, 0x3a),
    (keyF2, 0x3b), (keyF3, 0x3c), (keyF4, 0x3d), (keyF5, 0x3e), (keyF6, 0x3f), (keyF7, 0x40),
    (keyF8, 0x41), (keyF9, 0x42), (keyF10, 0x43), (keyF11, 0x44), (keyF12, 0x45),
    (keySysRq, 0x46), (keyScrollLock, 0x47), (keyPause, 0x48), (keyInsert, 0x49),
    (keyHome, 0x4a), (keyPageUp, 0x4b), (keyDelete, 0x4c), (keyEnd, 0x4d), (keyPageDown, 0x4e),
    (keyRight, 0x4f), (keyLeft, 0x50), (keyDown, 0x51), (keyUp, 0x52), (keyNumLock, 0x53),
    (keyKpSlash, 0x54), (keyKpAsterisk, 0x55), (keyKpMinus, 0x56), (keyKpPlus, 0x57),
    (keyKpEnter, 0x58), (keyKp1, 0x59), (keyKp2, 0x5a), (keyKp3, 0x5b), (keyKp4, 0x5c),
    (keyKp5, 0x5d), (keyKp6, 0x5e), (keyKp7, 0x5f), (keyKp8, 0x60), (keyKp9, 0x61),
    (keyKp0, 0x62), (keyKpDot, 0x63), (key102nd, 0x64), (keyCompose, 0x65), (keyPower, 0x66),
    (keyKpEqual, 0x67), (keyF13, 0x68), (keyF14, 0x69), (keyF15, 0x6a), (keyF16, 0x6b),
    (keyF17, 0x6c), (keyF18, 0x6d), (keyF19, 0x6e), (keyF20, 0x6f), (keyF21, 0x70),
    (keyF22, 0x71), (keyF23, 0x72), (keyF24, 0x73), (keyOpen, 0x74), (keyHelp, 0x75),
    (keyProps, 0x76), (keyFront, 0x77), (keyStop, 0x78), (keyAgain, 0x79), (keyUndo, 0x7a),
    (keyCut, 0x7b), (keyCopy, 0x7c), (keyPaste, 0x7d), (keyFind, 0x7e), (keyMute, 0x7f),
    (keyVolumeUp, 0x80), (keyVolumeDown, 0x81), (keyKpComma, 0x85), (keyRo, 0x87),
    (keyKatakanaHiragana, 0x88), (keyYen, 0x89), (keyHenkan, 0x8a), (keyMuhenkan, 0x8b),
    (keyKpJpComma, 0x8c), (keyHangeul, 0x90), (keyHanja, 0x91), (keyKatakana, 0x92),
    (keyHiragana, 0x93), (keyZenkakuHankaku, 0x94), (keyKpLeftParen, 0xb6),
    (keyKpRightParen, 0xb7), (keyLeftMeta, 0xe3), (keyRightMeta, 0xe7)]
  nodup := by decide +kernel

/-- `m_ModifierHex` -/
def mModifierHex : UnorderedMap Nat UInt8 where
  entries := [
    (keyLeftCtrl, 0x01), (keyLeftShift, 0x02), (keyLeftAlt, 0x04), (keyLeftMeta, 0x08),
    (keyRightCtrl, 0x10), (keyRightShift, 0x20), (keyRightAlt, 0x40), (keyRightMeta, 0x80)]
  nodup := by decide

/-- `m_KeyCodeMap`, as the constructor fills it. -/
def mKeyCodeMap : UnorderedMap Str Nat :=
  let map := mCharKeys.entries.foldl (fun map e => map.set e.2 e.1) .empty
  mModKeys.entries.foldl (fun map e => map.set e.2 e.1) map

/-! ## The functions -/

def keyRelease : Nat := keyReserved

def isModifier (code : UInt8) : Bool := mModifierHex.contains code.toNat

def isScanModifier (key : Nat) : Bool := mModKeys.contains key

def isCharKey (key : Nat) : Bool := mCharKeys.contains key

def isKeyValid (key : Nat) : Bool := mHexValues.contains key || isScanModifier key

def charKeys (code : Nat) : Str :=
  match mCharKeys.find? code with
  | some rep => rep
  | none => []

def scanToHex (code : Nat) : UInt8 :=
  match mHexValues.find? code with
  | some hex => hex
  | none => 0x00

def modToHex (code : Nat) : UInt8 :=
  match mModifierHex.find? code with
  | some hex => hex
  | none => 0x00

def getKeyCode (keyRep : Str) : Nat :=
  match mKeyCodeMap.find? keyRep with
  | some code => code
  | none => keyReserved

/-! ## Modifiers and keys -/

/-- The modifier keys, in the order of `m_ModifierHex`. -/
def modifiers : List Nat := mModifierHex.keys

/-- A key of the table that is not a modifier. -/
def isNonModifier (key : Nat) : Bool := isKeyValid key && !isScanModifier key

theorem isScanModifier_iff {key : Nat} : isScanModifier key = true ↔ key ∈ modifiers := by
  rw [isScanModifier, UnorderedMap.contains_iff]
  constructor
  · exact (by decide : ∀ k ∈ mModKeys.keys, k ∈ modifiers) key
  · exact (by decide : ∀ k ∈ modifiers, k ∈ mModKeys.keys) key

theorem isScanModifier_lt {key : Nat} (h : isScanModifier key = true) : key < 256 :=
  (by decide : ∀ k ∈ modifiers, k < 256) key (isScanModifier_iff.mp h)

theorem isKeyValid_lt {key : Nat} (h : isKeyValid key = true) : key < 256 := by
  rw [isKeyValid, Bool.or_eq_true, UnorderedMap.contains_iff] at h
  rcases h with h | h
  · exact (by decide +kernel : ∀ k ∈ mHexValues.keys, k < 256) key h
  · exact isScanModifier_lt h

theorem ne_reserved_of_valid {key : Nat} (h : isKeyValid key = true) : key ≠ keyReserved := by
  intro h0
  rw [h0] at h
  cases h

theorem isModifier_ofNat (key : Nat) :
    isModifier (.ofNat key) = isScanModifier (key % 256) := by
  rw [isModifier, UInt8.toNat_ofNat', Bool.eq_iff_iff, isScanModifier_iff,
    UnorderedMap.contains_iff]
  rfl

theorem isModifier_of_lt {key : Nat} (h : key < 256) :
    isModifier (.ofNat key) = isScanModifier key := by
  rw [isModifier_ofNat, Nat.mod_eq_of_lt h]

theorem isModifier_of_valid {key : Nat} (h : isKeyValid key = true) :
    isModifier (.ofNat key) = isScanModifier key := isModifier_of_lt (isKeyValid_lt h)

theorem isNonModifier_iff {key : Nat} :
    isNonModifier key = true ↔ isKeyValid key = true ∧ isScanModifier key = false := by
  simp [isNonModifier]

theorem modToHex_of_not_modifier {key : Nat} (h : isScanModifier key = false) :
    modToHex key = 0 := by
  have hk : key ∉ mModifierHex.keys := fun hmem => by
    rw [isScanModifier_iff.mpr hmem] at h; cases h
  rw [modToHex, UnorderedMap.find?_eq_none_iff.mpr hk]

/-- The modifier bits are nonzero and no two modifiers share a bit. -/
theorem modToHex_ne_zero {key : Nat} (h : isScanModifier key = true) : modToHex key ≠ 0 :=
  (by decide : ∀ k ∈ modifiers, modToHex k ≠ 0) key (isScanModifier_iff.mp h)

theorem modToHex_disjoint {j k : Nat} (hj : isScanModifier j = true)
    (hk : isScanModifier k = true) (hne : j ≠ k) : modToHex j &&& modToHex k = 0 :=
  (by decide : ∀ j ∈ modifiers, ∀ k ∈ modifiers, j ≠ k → modToHex j &&& modToHex k = 0)
    j (isScanModifier_iff.mp hj) k (isScanModifier_iff.mp hk) hne

theorem scanToHex_mem {key : Nat} (h : isNonModifier key = true) :
    (key, scanToHex key) ∈ mHexValues.entries := by
  obtain ⟨hv, hm⟩ := isNonModifier_iff.mp h
  rw [isKeyValid, hm, Bool.or_false, UnorderedMap.contains_iff_find?] at hv
  obtain ⟨hex, hhex⟩ := hv
  rw [scanToHex, hhex]
  exact UnorderedMap.find?_eq_some_iff.mp hhex

theorem scanToHex_ne_zero {key : Nat} (h : isNonModifier key = true) : scanToHex key ≠ 0 :=
  (by decide +kernel : ∀ e ∈ mHexValues.entries, e.2 ≠ 0) _ (scanToHex_mem h)

theorem scanToHex_inj {j k : Nat} (hj : isNonModifier j = true) (hk : isNonModifier k = true)
    (h : scanToHex j = scanToHex k) : j = k := by
  have hnd : (mHexValues.entries.map Prod.snd).Nodup := by decide +kernel
  exact congrArg Prod.fst
    (List.inj_on_of_nodup_map hnd (scanToHex_mem hj) (scanToHex_mem hk) h)

/-! ## Characters -/

theorem charKeys_mem {key : Nat} (h : isCharKey key = true) :
    (key, charKeys key) ∈ mCharKeys.entries := by
  obtain ⟨rep, hrep⟩ := UnorderedMap.contains_iff_find?.mp h
  rw [charKeys, hrep]
  exact UnorderedMap.find?_eq_some_iff.mp hrep

theorem charKeys_of_not_charKey {key : Nat} (h : isCharKey key = false) : charKeys key = [] := by
  unfold charKeys
  rw [UnorderedMap.contains_eq_false_iff.mp h]

theorem isNonModifier_of_isCharKey {key : Nat} (h : isCharKey key = true) :
    isNonModifier key = true :=
  (by decide : ∀ e ∈ mCharKeys.entries, isNonModifier e.1 = true) _ (charKeys_mem h)

/-- The representations of all keys are distinct, so `m_KeyCodeMap` has an entry for each. -/
theorem find?_mKeyCodeMap {rep : Str} {key : Nat} :
    mKeyCodeMap.find? rep = some key ↔
      (key, rep) ∈ mCharKeys.entries ∨ (key, rep) ∈ mModKeys.entries := by
  have hchar : (mCharKeys.entries.map Prod.snd).Nodup := by decide
  have hmod : (mModKeys.entries.map Prod.snd).Nodup := by decide
  have hdisj : ∀ r ∈ mCharKeys.entries.map Prod.snd, r ∉ mModKeys.entries.map Prod.snd := by
    decide
  simp only [mKeyCodeMap]
  rw [UnorderedMap.find?_foldl_set _ _ _ hmod, UnorderedMap.find?_foldl_set _ _ _ hchar]
  constructor
  · rintro (⟨e, he, rfl, rfl⟩ | ⟨-, ⟨e, he, rfl, rfl⟩ | ⟨-, h⟩⟩)
    · exact .inr he
    · exact .inl he
    · cases h
  · rintro (h | h)
    · exact .inr ⟨hdisj rep (List.mem_map_of_mem h), .inl ⟨(key, rep), h, rfl, rfl⟩⟩
    · exact .inl ⟨(key, rep), h, rfl, rfl⟩

theorem getKeyCode_eq_reserved_iff {text : Str} :
    getKeyCode text = keyReserved ↔ mKeyCodeMap.contains text = false := by
  have hchar : ∀ e ∈ mCharKeys.entries, e.1 ≠ keyReserved := by decide
  have hmod : ∀ e ∈ mModKeys.entries, e.1 ≠ keyReserved := by decide
  unfold getKeyCode
  rw [UnorderedMap.contains_eq_false_iff]
  cases hfind : mKeyCodeMap.find? text with
  | none => exact iff_of_true rfl rfl
  | some code =>
    have hcode : code ≠ keyReserved := by
      rcases find?_mKeyCodeMap.mp hfind with h | h
      · exact hchar _ h
      · exact hmod _ h
    exact iff_of_false hcode (by simp)

theorem getKeyCode_charKeys {key : Nat} (h : isCharKey key = true) :
    getKeyCode (charKeys key) = key := by
  have hfind : mKeyCodeMap.find? (charKeys key) = some key :=
    find?_mKeyCodeMap.mpr (.inl (charKeys_mem h))
  unfold getKeyCode
  rw [hfind]

end KeyTable
end Hemiola
