import Mathlib.Algebra.Group.Nat.Defs
import Mathlib.Data.List.GetD

/-! Little-endian words and bytes. -/

namespace ArcMiner.Library

open List Nat UInt64

def leWord (b0 b1 b2 b3 : UInt8) : UInt32 :=
  b0.toUInt32 ||| b1.toUInt32 <<< 8 ||| b2.toUInt32 <<< 16 ||| b3.toUInt32 <<< 24

def wordByte (w : UInt32) (i : Nat) : UInt8 := (w >>> (8 * i).toUInt32).toUInt8

/-- The word at byte offset `p`; bytes past the end read as zero. -/
def leWordAt (bytes : List UInt8) (p : Nat) : UInt32 :=
  leWord (bytes.getD p 0) (bytes.getD (p + 1) 0) (bytes.getD (p + 2) 0) (bytes.getD (p + 3) 0)

theorem leWord_toNat (b0 b1 b2 b3 : UInt8) : (leWord b0 b1 b2 b3).toNat =
      2 ^ 24 * b3.toNat + (2 ^ 16 * b2.toNat + (2 ^ 8 * b1.toNat + b0.toNat)) := by
  have h0 := b0.toNat_lt
  have h1 := b1.toNat_lt
  have h2 := b2.toNat_lt
  have h3 := b3.toNat_lt
  have s1 : (b1.toUInt32 <<< 8).toNat = 2 ^ 8 * b1.toNat := by
    simp [shiftLeft_eq]; omega
  have s2 : (b2.toUInt32 <<< 16).toNat = 2 ^ 16 * b2.toNat := by
    simp [shiftLeft_eq]; omega
  have s3 : (b3.toUInt32 <<< 24).toNat = 2 ^ 24 * b3.toNat := by
    simp [shiftLeft_eq]; omega
  rw [two_pow_add_eq_or_of_lt (by omega), two_pow_add_eq_or_of_lt (by omega),
    two_pow_add_eq_or_of_lt (by omega), leWord, UInt32.toNat_or, UInt32.toNat_or, UInt32.toNat_or,
    s1, s2, s3, UInt8.toNat_toUInt32]
  ac_rfl

theorem wordByte_toNat (w : UInt32) {i : Nat} (small : i < 4) : (wordByte w i).toNat = w.toNat / 256 ^ i % 256 := by
  have cases : i = 0 ∨ i = 1 ∨ i = 2 ∨ i = 3 := by omega
  rcases cases with rfl | rfl | rfl | rfl <;> simp [wordByte, shiftRight_eq_div_pow]

theorem leWord_wordByte (w : UInt32) : leWord (wordByte w 0) (wordByte w 1) (wordByte w 2) (wordByte w 3) = w := by
  have bound := w.toNat_lt
  apply UInt32.toNat_inj.mp
  rw [leWord_toNat, wordByte_toNat w (by decide), wordByte_toNat w (by decide),
    wordByte_toNat w (by decide), wordByte_toNat w (by decide)]
  omega

theorem wordByte_leWord (b0 b1 b2 b3 : UInt8) :
    wordByte (leWord b0 b1 b2 b3) 0 = b0 ∧ wordByte (leWord b0 b1 b2 b3) 1 = b1 ∧
    wordByte (leWord b0 b1 b2 b3) 2 = b2 ∧ wordByte (leWord b0 b1 b2 b3) 3 = b3 := by
  have h0 := b0.toNat_lt
  have h1 := b1.toNat_lt
  have h2 := b2.toNat_lt
  have h3 := b3.toNat_lt
  refine ⟨?_, ?_, ?_, ?_⟩ <;> apply UInt8.toNat_inj.mp <;>
    rw [wordByte_toNat _ (by decide), leWord_toNat] <;> omega

theorem leWordAt_take (data : List UInt8) (p n : Nat) (enough : 4 ≤ n ∨ data.length ≤ p + n) :
    leWordAt ((data.drop p).take n) 0 = leWordAt data p := by
  have byte : ∀ k < 4, ((data.drop p).take n).getD k 0 = data.getD (p + k) 0 := by
    intro k small
    simp only [getD_eq_getElem?_getD, getElem?_take, getElem?_drop]
    split
    · rfl
    · rw [getElem?_eq_none (by omega)]
  simp only [leWordAt, Nat.zero_add, byte 0 (by decide), byte 1 (by decide), byte 2 (by decide), byte 3 (by decide),
    Nat.add_zero]

theorem leWordAt_end (data : List UInt8) {p : Nat} (past : data.length ≤ p) : leWordAt data p = 0 := by
  have zero : ∀ k, data.getD (p + k) 0 = 0 := by
    intro k
    rw [getD_eq_getElem?_getD, getElem?_eq_none (by omega)]
    rfl
  have first := zero 0
  simp only [Nat.add_zero] at first
  simp only [leWordAt, zero, first]
  rfl

theorem leWordAt_append_left {bytes : List UInt8} (rest : List UInt8) {p : Nat} (inside : p + 4 ≤ bytes.length) :
    leWordAt (bytes ++ rest) p = leWordAt bytes p := by
  unfold leWordAt
  rw [getD_append _ _ _ _ (by omega), getD_append _ _ _ _ (by omega), getD_append _ _ _ _ (by omega),
    getD_append _ _ _ _ (by omega)]

theorem leWordAt_append_right {bytes : List UInt8} (rest : List UInt8) {p : Nat} (past : bytes.length ≤ p) :
    leWordAt (bytes ++ rest) p = leWordAt rest (p - bytes.length) := by
  unfold leWordAt
  rw [getD_append_right _ _ _ _ (by omega), getD_append_right _ _ _ _ (by omega),
    getD_append_right _ _ _ _ (by omega), getD_append_right _ _ _ _ (by omega),
    Nat.sub_add_comm past, Nat.sub_add_comm past, Nat.sub_add_comm past]

def wordBytes (w : UInt32) : List UInt8 := [wordByte w 0, wordByte w 1, wordByte w 2, wordByte w 3]

theorem leWordAt_wordBytes (w : UInt32) : leWordAt (wordBytes w) 0 = w := leWord_wordByte w

def longByte (z : UInt64) (i : Nat) : UInt8 := (z >>> (8 * i).toUInt64).toUInt8

/-- The first `n` bytes of a 64-bit word, put in place one after the other. -/
def packBytes (byte : Nat → UInt8) (n : Nat) : UInt64 :=
  (range n).foldl (fun packed b => packed ||| (byte b).toUInt64 <<< (8 * b).toUInt64) 0

theorem packBytes_succ (byte : Nat → UInt8) {n : Nat} (small : n < 8) (below : (packBytes byte n).toNat < 256 ^ n) :
    (packBytes byte (n + 1)).toNat = 256 ^ n * (byte n).toNat + (packBytes byte n).toNat := by
  have value := (byte n).toNat_lt
  have place : 256 ^ n = 2 ^ (8 * n) := by rw [show 256 = 2 ^ 8 by rfl, ← Nat.pow_mul]
  have room : 2 ^ (8 * n) * (byte n).toNat < 2 ^ 64 := by
    calc 2 ^ (8 * n) * (byte n).toNat < 2 ^ (8 * n) * 2 ^ 8 := Nat.mul_lt_mul_of_pos_left value (Nat.two_pow_pos _)
      _ = 2 ^ (8 * n + 8) := (Nat.pow_add 2 (8 * n) 8).symm
      _ ≤ 2 ^ 64 := Nat.pow_le_pow_right (by decide) (by omega)
  have shifted : ((byte n).toUInt64 <<< (8 * n).toUInt64).toNat = 2 ^ (8 * n) * (byte n).toNat := by
    have amount : (8 * n).toUInt64.toNat % 64 = 8 * n := by
      simp only [toUInt64, toNat_ofNat']
      omega
    rw [UInt64.toNat_shiftLeft, amount, UInt8.toNat_toUInt64, shiftLeft_eq, Nat.mul_comm, mod_eq_of_lt room]
  rw [place] at below ⊢
  rw [packBytes, range_succ, foldl_append, foldl_cons, foldl_nil, UInt64.toNat_or, shifted,
    two_pow_add_eq_or_of_lt below, Nat.or_comm]
  rfl

theorem packBytes_lt (byte : Nat → UInt8) {n : Nat} (small : n ≤ 8) : (packBytes byte n).toNat < 256 ^ n := by
  induction n with
  | zero => exact Nat.one_pos
  | succ n ih =>
    have below := ih (by omega)
    have value := (byte n).toNat_lt
    rw [packBytes_succ byte (by omega) below, Nat.pow_succ]
    calc 256 ^ n * (byte n).toNat + (packBytes byte n).toNat < 256 ^ n * (byte n).toNat + 256 ^ n := by omega
      _ = 256 ^ n * ((byte n).toNat + 1) := (mul_succ _ _).symm
      _ ≤ 256 ^ n * 256 := Nat.mul_le_mul_left _ (by omega)

theorem longByte_toNat (z : UInt64) {i : Nat} (small : i < 8) : (longByte z i).toNat = z.toNat / 256 ^ i % 256 := by
  have cases : i = 0 ∨ i = 1 ∨ i = 2 ∨ i = 3 ∨ i = 4 ∨ i = 5 ∨ i = 6 ∨ i = 7 := by omega
  rcases cases with rfl | rfl | rfl | rfl | rfl | rfl | rfl | rfl <;> simp [longByte, shiftRight_eq_div_pow]

theorem packBytes_digit (byte : Nat → UInt8) {n i : Nat} (small : n ≤ 8) (inside : i < n) :
    (packBytes byte n).toNat / 256 ^ i % 256 = (byte i).toNat := by
  induction n with
  | zero => omega
  | succ n ih =>
    have below := packBytes_lt byte (show n ≤ 8 by omega)
    have value := (byte n).toNat_lt
    rw [packBytes_succ byte (by omega) below]
    by_cases last : i = n
    · subst last
      rw [mul_add_div (Nat.pow_pos (by decide)), div_eq_of_lt below, Nat.add_zero, mod_eq_of_lt (by omega)]
    · -- the new byte sits above byte `i`
      have split : 256 ^ n * (byte n).toNat = 256 ^ i * (256 * (256 ^ (n - i - 1) * (byte n).toNat)) := by
        rw [← Nat.mul_assoc 256, ← Nat.pow_succ', ← Nat.mul_assoc, ← Nat.pow_add]
        congr 2
        omega
      rw [split, mul_add_div (Nat.pow_pos (by decide)), mul_add_mod, ih (by omega) (by omega)]

theorem longByte_packBytes (byte : Nat → UInt8) {i : Nat} (inside : i < 8) : longByte (packBytes byte 8) i = byte i := by
  apply UInt8.toNat_inj.mp
  rw [longByte_toNat _ inside, packBytes_digit byte (Nat.le_refl 8) inside]

theorem packBytes_longByte_mod (z : UInt64) {n : Nat} (small : n ≤ 8) :
    (packBytes (longByte z) n).toNat = z.toNat % 256 ^ n := by
  induction n with
  | zero => exact (mod_one z.toNat).symm
  | succ n ih =>
    rw [packBytes_succ _ (by omega) (packBytes_lt _ (by omega)), ih (by omega), longByte_toNat z (by omega),
      mod_pow_succ, Nat.add_comm]

theorem packBytes_longByte (z : UInt64) : packBytes (longByte z) 8 = z := by
  refine UInt64.toNat_inj.mp ?_
  rw [packBytes_longByte_mod z (Nat.le_refl 8), mod_eq_of_lt (show z.toNat < 256 ^ 8 from z.toNat_lt)]

def longBytes (z : UInt64) : List UInt8 := (range 8).map (longByte z)

def leLongAt (bytes : List UInt8) (p : Nat) : UInt64 := packBytes (fun i => bytes.getD (p + i) 0) 8

theorem packBytes_congr {first second : Nat → UInt8} {n : Nat} (same : ∀ i < n, first i = second i) :
    packBytes first n = packBytes second n := by
  have step (byte : Nat → UInt8) (n : Nat) :
      packBytes byte (n + 1) = packBytes byte n ||| (byte n).toUInt64 <<< (8 * n).toUInt64 := by
    rw [packBytes, range_succ, foldl_append]
    rfl
  induction n with
  | zero => rfl
  | succ n ih => rw [step, step, ih fun i inside => same i (lt_succ_of_lt inside), same n (lt_succ_self n)]

theorem leLongAt_append_left {bytes : List UInt8} (rest : List UInt8) {p : Nat} (inside : p + 8 ≤ bytes.length) :
    leLongAt (bytes ++ rest) p = leLongAt bytes p := packBytes_congr fun _ _ => getD_append _ _ _ _ (by omega)

theorem leLongAt_append_right (bytes rest : List UInt8) (p : Nat) :
    leLongAt (bytes ++ rest) (bytes.length + p) = leLongAt rest p := by
  apply packBytes_congr
  intro i _
  rw [getD_append_right _ _ _ _ (by omega), Nat.add_assoc, Nat.add_sub_cancel_left]

theorem leLongAt_longBytes (z : UInt64) (rest : List UInt8) : leLongAt (longBytes z ++ rest) 0 = z := by
  rw [leLongAt_append_left rest (Nat.le_refl 8)]
  exact packBytes_longByte z

theorem leLongAt_flatMap (words : List UInt64) (rest : List UInt8) {t : Nat} (inside : t < words.length) :
    leLongAt (words.flatMap longBytes ++ rest) (8 * t) = words.getD t 0 := by
  induction words generalizing t with
  | nil => cases inside
  | cons word words ih =>
    rw [flatMap_cons, append_assoc]
    cases t with
    | zero => exact leLongAt_longBytes word _
    | succ t =>
      have moved := leLongAt_append_right (longBytes word) (words.flatMap longBytes ++ rest) (8 * t)
      have place : (longBytes word).length + 8 * t = 8 * (t + 1) := Nat.add_comm 8 (8 * t)
      rw [place] at moved
      rw [moved, ih (lt_of_succ_lt_succ inside), getD_cons_succ]

theorem packBytes_halves (byte : Nat → UInt8) :
    (packBytes byte 8).toNat = (leWord (byte 0) (byte 1) (byte 2) (byte 3)).toNat +
      2 ^ 32 * (leWord (byte 4) (byte 5) (byte 6) (byte 7)).toNat := by
  have step (n : Nat) (small : n < 8) : (packBytes byte (n + 1)).toNat = 256 ^ n * (byte n).toNat + (packBytes byte n).toNat :=
    packBytes_succ byte small (packBytes_lt byte (Nat.le_of_lt small))
  have start : (packBytes byte 0).toNat = 0 := rfl
  rw [leWord_toNat, leWord_toNat, step 7 (by decide), step 6 (by decide), step 5 (by decide), step 4 (by decide),
    step 3 (by decide), step 2 (by decide), step 1 (by decide), step 0 (by decide), start]
  omega

theorem packBytes_high (byte : Nat → UInt8) (w : UInt32) :
    (packBytes byte 8 &&& (0xffffffff : UInt64)) ||| w.toUInt64 <<< 32 =
      packBytes (fun i => if i < 4 then byte i else wordByte w (i - 4)) 8 := by
  have low := (leWord (byte 0) (byte 1) (byte 2) (byte 3)).toNat_lt
  have high := w.toNat_lt
  have kept : (packBytes byte 8 &&& (0xffffffff : UInt64)).toNat = (leWord (byte 0) (byte 1) (byte 2) (byte 3)).toNat := by
    rw [UInt64.toNat_and, packBytes_halves]
    exact (and_two_pow_sub_one_eq_mod _ 32).trans (by omega)
  have moved : (w.toUInt64 <<< 32).toNat = 2 ^ 32 * w.toNat := by
    simp [shiftLeft_eq]
    omega
  apply UInt64.toNat_inj.mp
  rw [UInt64.toNat_or, kept, moved, Nat.or_comm, ← two_pow_add_eq_or_of_lt low, packBytes_halves]
  simp [leWord_wordByte, Nat.add_comm]

theorem leLongAt_take (data : List UInt8) (p : Nat) : leLongAt ((data.drop p).take 8) 0 = leLongAt data p := by
  apply packBytes_congr
  intro i inside
  simp [getD_eq_getElem?_getD, inside]

theorem leWordAt_longBytes (z : UInt64) :
    leWordAt (longBytes z) 0 = z.toUInt32 ∧ leWordAt (longBytes z) 4 = (z >>> 32).toUInt32 := by
  have halves := packBytes_halves (longByte z)
  rw [packBytes_longByte] at halves
  have low := (leWord (longByte z 0) (longByte z 1) (longByte z 2) (longByte z 3)).toNat_lt
  constructor
  · apply UInt32.toNat_inj.mp
    rw [toNat_toUInt32, halves]
    exact (mod_eq_of_lt low).symm.trans (add_mul_mod_self_left ..).symm
  · apply UInt32.toNat_inj.mp
    have high := (leWord (longByte z 4) (longByte z 5) (longByte z 6) (longByte z 7)).toNat_lt
    have shifted : (z >>> 32).toNat = (leWord (longByte z 4) (longByte z 5) (longByte z 6) (longByte z 7)).toNat := by
      rw [UInt64.toNat_shiftRight, halves]
      refine (shiftRight_eq_div_pow _ 32).trans ?_
      omega
    rw [toNat_toUInt32, shifted]
    exact (mod_eq_of_lt high).symm

end ArcMiner.Library
