import ArcMiner.Library.LittleEndian

/-! Counting the zero bits in front of a word and in front of a string of bytes. -/

namespace ArcMiner.Library

def leadingZeroCount (x : UInt32) : Nat := if x = 0 then 32 else 31 - x.toNat.log2

def reverseEndianness (w : UInt32) : UInt32 := leWord (wordByte w 3) (wordByte w 2) (wordByte w 1) (wordByte w 0)

/-- The bits in front of the first one bit of a string of bytes, added to what was counted before. -/
def leadingZeroBits (lz : Int) : List UInt8 → Int
  | [] => lz
  | b :: rest => if b = 0 then leadingZeroBits (lz + 8) rest else lz + leadingZeroCount b.toUInt32 - 24

theorem log2_mul_add {k h r : Nat} (positive : h ≠ 0) (small : r < 2 ^ k) : (2 ^ k * h + r).log2 = k + h.log2 := by
  obtain ⟨low, high⟩ := (Nat.log2_eq_iff positive).mp rfl
  have above : 2 ^ k * 2 ^ h.log2 ≤ 2 ^ k * h := Nat.mul_le_mul_left _ low
  have below : 2 ^ k * (h + 1) ≤ 2 ^ k * 2 ^ (h.log2 + 1) := Nat.mul_le_mul_left _ high
  rw [Nat.mul_succ] at below
  have nonzero : 0 < 2 ^ k * 2 ^ h.log2 := Nat.mul_pos (Nat.two_pow_pos k) (Nat.two_pow_pos _)
  apply (Nat.log2_eq_iff (by omega)).mpr
  rw [Nat.add_assoc, Nat.pow_add, Nat.pow_add]
  omega

theorem leadingZeroCount_of_first {x : UInt32} {k r : Nat} {b : UInt8} (nonzero : b ≠ 0) (small : r < 2 ^ k)
    (value : x.toNat = 2 ^ k * b.toNat + r) (fits : k ≤ 24) :
    (leadingZeroCount x : Int) = leadingZeroCount b.toUInt32 - k := by
  have positive : b.toNat ≠ 0 := fun zero => nonzero (UInt8.toNat_inj.mp zero)
  have wide : b.toUInt32 ≠ 0 := fun zero => positive (congrArg UInt32.toNat zero)
  have bits : b.toNat.log2 < 8 := (Nat.log2_lt positive).mpr b.toNat_lt
  have whole : x ≠ 0 := by
    intro zero
    have none : x.toNat = 0 := congrArg UInt32.toNat zero
    have some : 0 < 2 ^ k * b.toNat := Nat.mul_pos (Nat.two_pow_pos k) (Nat.pos_of_ne_zero positive)
    omega
  rw [leadingZeroCount, if_neg whole, value, log2_mul_add positive small, leadingZeroCount, if_neg wide, UInt8.toNat_toUInt32]
  omega

theorem reverseEndianness_toNat (w : UInt32) : (reverseEndianness w).toNat =
    2 ^ 24 * (wordByte w 0).toNat + (2 ^ 16 * (wordByte w 1).toNat + (2 ^ 8 * (wordByte w 2).toNat + (wordByte w 3).toNat)) :=
  leWord_toNat _ _ _ _

theorem eq_zero_of_wordBytes {w : UInt32} (first : wordByte w 0 = 0) (second : wordByte w 1 = 0) (third : wordByte w 2 = 0)
    (fourth : wordByte w 3 = 0) : w = 0 := by
  rw [← leWord_wordByte w, first, second, third, fourth]
  rfl

theorem reverseEndianness_eq_zero (w : UInt32) : reverseEndianness w = 0 ↔ w = 0 := by
  constructor
  · intro zero
    have value := reverseEndianness_toNat w
    rw [zero, UInt32.toNat_zero] at value
    have byte {b : UInt8} (none : b.toNat = 0) : b = 0 := UInt8.toNat_inj.mp none
    exact eq_zero_of_wordBytes (byte (by omega)) (byte (by omega)) (byte (by omega)) (byte (by omega))
  · rintro rfl
    rfl

/-- Counting over the bytes of a word is counting over the word with its bytes turned round. -/
theorem leadingZeroBits_wordBytes (lz : Int) (w : UInt32) (rest : List UInt8) :
    leadingZeroBits lz (wordBytes w ++ rest) =
      if w = 0 then leadingZeroBits (lz + 32) rest else lz + leadingZeroCount (reverseEndianness w) := by
  have value := reverseEndianness_toNat w
  have small1 := (wordByte w 1).toNat_lt
  have small2 := (wordByte w 2).toNat_lt
  have small3 := (wordByte w 3).toNat_lt
  by_cases zero : w = 0
  · subst zero
    have bytes : wordBytes 0 ++ rest = 0 :: 0 :: 0 :: 0 :: rest := rfl
    rw [if_pos rfl, bytes, leadingZeroBits, if_pos rfl, leadingZeroBits, if_pos rfl, leadingZeroBits, if_pos rfl,
      leadingZeroBits, if_pos rfl]
    congr 1
    omega
  · -- the first byte that is not zero ends both counts
    have bytes : wordBytes w ++ rest = wordByte w 0 :: wordByte w 1 :: wordByte w 2 :: wordByte w 3 :: rest := rfl
    rw [if_neg zero, bytes, leadingZeroBits]
    split
    next first =>
      rw [first, UInt8.toNat_zero, Nat.mul_zero, Nat.zero_add] at value
      rw [leadingZeroBits]
      split
      next second =>
        rw [second, UInt8.toNat_zero, Nat.mul_zero, Nat.zero_add] at value
        rw [leadingZeroBits]
        split
        next third =>
          rw [third, UInt8.toNat_zero, Nat.mul_zero, Nat.zero_add] at value
          have fourth : wordByte w 3 ≠ 0 := fun last => zero (eq_zero_of_wordBytes first second third last)
          have count := leadingZeroCount_of_first (x := reverseEndianness w) fourth (k := 0) Nat.one_pos (by omega) (by decide)
          rw [leadingZeroBits, if_neg fourth]
          omega
        next third =>
          rw [leadingZeroCount_of_first third small3 value (by decide)]
          omega
      next second =>
        rw [leadingZeroCount_of_first second (k := 16) (by omega) value (by decide)]
        omega
    next first =>
      rw [leadingZeroCount_of_first first (k := 24) (by omega) value (by decide)]
      omega

def leadingZeroWords (lz : Int) : List UInt32 → Int
  | [] => lz
  | w :: rest =>
    let rev := reverseEndianness w
    if rev = 0 then leadingZeroWords (lz + 32) rest else lz + leadingZeroCount rev

theorem leadingZeroWords_cons (lz : Int) (w : UInt32) (rest : List UInt32) : leadingZeroWords lz (w :: rest) =
    if reverseEndianness w = 0 then leadingZeroWords (lz + 32) rest else lz + leadingZeroCount (reverseEndianness w) := rfl

theorem leadingZeroWords_eq (lz : Int) (words : List UInt32) :
    leadingZeroWords lz words = leadingZeroBits lz (words.flatMap wordBytes) := by
  induction words generalizing lz with
  | nil => rfl
  | cons w rest ih =>
    rw [leadingZeroWords_cons, List.flatMap_cons, leadingZeroBits_wordBytes, ih]
    simp only [reverseEndianness_eq_zero]

end ArcMiner.Library
