import Mathlib

/-!
# Two four-bit numbers in a byte
-/

namespace Muses.Core.Nibble

def low (b : UInt8) : UInt8 := b &&& 0x0F

def high (b : UInt8) : UInt8 := (b >>> (4 : UInt8)) &&& 0x0F

def setLow (b v : UInt8) : UInt8 := (b &&& 0xF0) ||| (v &&& 0x0F)

def setHigh (b v : UInt8) : UInt8 := (b &&& 0x0F) ||| ((v &&& 0x0F) <<< (4 : UInt8))

def pack (h l : UInt8) : UInt8 := (h <<< (4 : UInt8)) ||| l

theorem toNat_low (b : UInt8) : (low b).toNat = b.toNat % 16 := by
  rw [low, UInt8.toNat_and]
  exact Nat.and_two_pow_sub_one_eq_mod b.toNat 4

theorem toNat_high (b : UInt8) : (high b).toNat = b.toNat / 16 := by
  have hshift : (b >>> (4 : UInt8)).toNat = b.toNat / 16 := by
    rw [UInt8.toNat_shiftRight]
    exact Nat.shiftRight_eq_div_pow b.toNat 4
  have hb : b.toNat < 256 := b.toNat_lt
  show (low (b >>> (4 : UInt8))).toNat = _
  rw [toNat_low, hshift]
  omega

theorem low_of_lt {b : UInt8} (h : b.toNat < 16) : low b = b :=
  UInt8.toNat_inj.mp (by rw [toNat_low, Nat.mod_eq_of_lt h])

theorem high_of_lt {b : UInt8} (h : b.toNat < 16) : high b = 0 :=
  UInt8.toNat_inj.mp (by rw [toNat_high, Nat.div_eq_of_lt h]; rfl)

theorem eq_of_halves {b c : UInt8} (hlow : low b = low c) (hhigh : high b = high c) : b = c := by
  have hl := congrArg UInt8.toNat hlow
  have hh := congrArg UInt8.toNat hhigh
  rw [toNat_low, toNat_low] at hl
  rw [toNat_high, toNat_high] at hh
  exact UInt8.toNat_inj.mp (by omega)

-- the halves of a changed byte are compared bit by bit

theorem low_setLow (b v : UInt8) : low (setLow b v) = low v := by
  rw [← UInt8.toBitVec_inj]
  simp only [low, setLow, UInt8.toBitVec_and, UInt8.toBitVec_or, UInt8.toBitVec_ofNat]
  ext i hi
  interval_cases i <;> simp

theorem high_setLow (b v : UInt8) : high (setLow b v) = high b := by
  rw [← UInt8.toBitVec_inj]
  simp only [high, setLow, UInt8.toBitVec_and, UInt8.toBitVec_or, UInt8.toBitVec_shiftRight,
    UInt8.toBitVec_ofNat]
  ext i hi
  interval_cases i <;> simp

theorem low_setHigh (b v : UInt8) : low (setHigh b v) = low b := by
  rw [← UInt8.toBitVec_inj]
  simp only [low, setHigh, UInt8.toBitVec_and, UInt8.toBitVec_or, UInt8.toBitVec_shiftLeft,
    UInt8.toBitVec_ofNat]
  ext i hi
  interval_cases i <;> simp

theorem high_setHigh (b v : UInt8) : high (setHigh b v) = low v := by
  rw [← UInt8.toBitVec_inj]
  simp only [high, low, setHigh, UInt8.toBitVec_and, UInt8.toBitVec_or, UInt8.toBitVec_shiftLeft,
    UInt8.toBitVec_shiftRight, UInt8.toBitVec_ofNat]
  ext i hi
  interval_cases i <;> simp

theorem low_pack (h l : UInt8) : low (pack h l) = low l := by
  rw [← UInt8.toBitVec_inj]
  simp only [low, pack, UInt8.toBitVec_and, UInt8.toBitVec_or, UInt8.toBitVec_shiftLeft,
    UInt8.toBitVec_ofNat]
  ext i hi
  interval_cases i <;> simp

theorem high_pack (h l : UInt8) : high (pack h l) = low h ||| high l := by
  rw [← UInt8.toBitVec_inj]
  simp only [high, low, pack, UInt8.toBitVec_and, UInt8.toBitVec_or, UInt8.toBitVec_shiftLeft,
    UInt8.toBitVec_shiftRight, UInt8.toBitVec_ofNat]
  ext i hi
  interval_cases i <;> simp

end Muses.Core.Nibble
