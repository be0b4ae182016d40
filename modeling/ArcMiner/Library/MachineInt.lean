import Mathlib.Algebra.Group.Int.Defs
import Mathlib.Algebra.Group.Nat.Defs
import Mathlib.Data.Int.Basic

/-! Machine integers of C-like code: `int` wraps modulo 2^32 and `size_t` modulo 2^64. -/

namespace ArcMiner.Library

open Int

def int32 (x : Int) : Int := x.bmod (2 ^ 32)

theorem int32_of_fits {x : Int} (low : -2 ^ 31 ≤ x) (high : x < 2 ^ 31) : int32 x = x := by
  unfold int32
  rw [bmod_eq_of_le] <;> omega

theorem int32_of_wraps {x : Int} (low : 2 ^ 31 ≤ x) (high : x < 2 ^ 32 + 2 ^ 31) : int32 x = x - 2 ^ 32 := by
  unfold int32
  rw [← sub_bmod_right, bmod_eq_of_le] <;> omega

/-- The value of a `long` expression, where a `long` has 64 bits. -/
def int64 (x : Int) : Int := x.bmod (2 ^ 64)

theorem int64_of_fits {x : Int} (low : -2 ^ 63 ≤ x) (high : x < 2 ^ 63) : int64 x = x := by
  unfold int64
  rw [bmod_eq_of_le] <;> omega

theorem toInt_toInt32 {u : UInt32} (small : u.toNat < 2 ^ 31) : u.toInt32.toInt = u.toNat := by
  have value : u.toInt32.toInt = (u.toNat : Int).bmod (2 ^ 32) := by
    rw [← Int32.toInt_toBitVec, UInt32.toBitVec_toInt32, BitVec.toInt_eq_toNat_bmod]
    rfl
  rw [value, bmod_eq_of_le] <;> omega

def sizeT (x : Int) : Nat := (x % 2 ^ 64).toNat

theorem sizeT_natCast {n : Nat} (fits : n < 2 ^ 64) : sizeT n = n := by
  unfold sizeT
  omega

theorem sizeT_int32 {x : Int} {n : Nat} (same : x = n) (fits : n < 2 ^ 31) : sizeT (int32 x) = n := by
  rw [same, int32_of_fits (by omega) (by omega), sizeT_natCast (by omega)]

def launchSize (items : Int) (block : Nat) : Nat := sizeT ((int32 (items + block - 1)).tdiv block * block)

theorem le_launchSize (items : Nat) {block : Nat} (positive : 0 < block) (fits : items + block ≤ 2 ^ 31) :
    items ≤ launchSize items block ∧ launchSize items block < items + block := by
  have sum : int32 ((items : Int) + block - 1) = ((items + block - 1 : Nat) : Int) := by
    rw [int32_of_fits (by omega) (by omega)]
    omega
  have quotient : ((items + block - 1 : Nat) : Int).tdiv block * block = (((items + block - 1) / block * block : Nat) : Int) := by
    rw [tdiv_eq_ediv_of_nonneg (by omega)]
    push_cast
    rfl
  have parts := Nat.div_add_mod (items + block - 1) block
  have rest := Nat.mod_lt (items + block - 1) positive
  rw [Nat.mul_comm] at parts
  rw [launchSize, sum, quotient, sizeT_natCast (by omega)]
  omega

abbrev UInt128 := BitVec 128

namespace UInt128

def ofUInt64 (x : UInt64) : UInt128 := x.toBitVec.setWidth 128

def low (p : UInt128) : UInt64 := .ofBitVec (p.setWidth 64)

def high (p : UInt128) : UInt64 := low (p >>> 64)

theorem ofUInt64_toNat (x : UInt64) : (ofUInt64 x).toNat = x.toNat := by
  have small := x.toNat_lt
  rw [ofUInt64, BitVec.toNat_setWidth, UInt64.toNat_toBitVec]
  omega

theorem low_toNat (p : UInt128) : (low p).toNat = p.toNat % 2 ^ 64 := BitVec.toNat_setWidth 64 p

theorem high_toNat (p : UInt128) : (high p).toNat = p.toNat / 2 ^ 64 := by
  have size := p.isLt
  rw [high, low_toNat, BitVec.toNat_ushiftRight, Nat.shiftRight_eq_div_pow]
  omega

theorem mul_toNat (a b : UInt64) : (ofUInt64 a * ofUInt64 b).toNat = a.toNat * b.toNat := by
  have fits : a.toNat * b.toNat < 2 ^ 128 :=
    calc
      a.toNat * b.toNat < 2 ^ 64 * 2 ^ 64 := Nat.mul_lt_mul'' a.toNat_lt b.toNat_lt
      _ = 2 ^ 128 := (Nat.pow_add 2 64 64).symm
  rw [BitVec.toNat_mul, ofUInt64_toNat, ofUInt64_toNat, Nat.mod_eq_of_lt fits]

end UInt128
end ArcMiner.Library
