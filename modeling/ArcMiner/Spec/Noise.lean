import Mathlib.Algebra.BigOperators.Intervals
import ArcMiner.Library.Blake3Array

/-! The noise field.

The two seeds chain the job key with the roots of both matrices; salted seeds first
bind each root to the dimension it was built from. Noise is read from keyed hashes in counter mode. The uniform factor takes six bits of
every byte. The sparse factor takes one word per column and picks two different
entries of a row of the uniform factor, one to add and one to subtract.
-/

namespace ArcMiner.Spec

open Library Finset UInt32

structure Seeds where
  a : Digest
  b : Digest
deriving DecidableEq

def boundMessage (root : Digest) (dim : UInt32) : List UInt8 := root.toList ++ (wordBytes dim ++ List.replicate 28 0)

def boundRoot (salt root : Digest) (dim : UInt32) : Digest := Blake3.rootChunk (.keyed salt) (boundMessage root dim)

def chainSeeds (jobKey rootA rootB : Digest) : Seeds :=
  let b := Blake3.rootChunk .unkeyed (jobKey.toList ++ rootB.toList)
  ⟨Blake3.rootChunk .unkeyed (b.toList ++ rootA.toList), b⟩

def noiseSeeds (saltA saltB jobKey rootA rootB : Digest) (m n : UInt32) (salted : Bool) : Seeds :=
  if salted then chainSeeds jobKey (boundRoot saltA rootA m) (boundRoot saltB rootB n)
  else chainSeeds jobKey rootA rootB

/-- A message block with a counter in word `slot` and a seed label in the second half. -/
def noiseMessage (slot : Nat) (counter : UInt32) (label : List UInt8) : List UInt8 :=
  (List.range 64).map fun i =>
    if 32 ≤ i then label.getD (i - 32) 0
    else if 4 * slot ≤ i ∧ i < 4 * slot + 4 then wordByte counter (i - 4 * slot)
    else 0

def noiseHash (key : Digest) (slot index : Nat) (label : List UInt8) : Digest :=
  Blake3.rootChunk (.keyed key) (noiseMessage slot (index + 1).toUInt32 label)

def uniform (key : Digest) (label : List UInt8) (idx : Nat) : Int8 :=
  Int8.ofInt ((((noiseHash key 0 (idx / 32) label).toList.getD (idx % 32) 0) &&& 63).toNat - 32)

def draw (key : Digest) (label : List UInt8) (l : Nat) : UInt32 :=
  leWordAt (noiseHash key 1 (l / 8) label).toList (4 * (l % 8))

def mulHi (a b : UInt32) : UInt32 := ((a.toUInt64 * b.toUInt64) >>> 32).toUInt32

def firstIndex (r : Nat) (u : UInt32) : UInt32 := u &&& (r - 1).toUInt32

def secondIndex (r : Nat) (u : UInt32) : UInt32 := firstIndex r u ^^^ (1 + mulHi (r - 1).toUInt32 u)

def noise (key : Digest) (label : List UInt8) (r : Nat) (row : Nat → Int8) (l : Nat) : Int8 :=
  row (firstIndex r (draw key label l)).toNat - row (secondIndex r (draw key label l)).toNat

/-- Column `l` of the sparse factor as a dense one. -/
def factor (key : Digest) (label : List UInt8) (r a l : Nat) : Int8 :=
  if a = (firstIndex r (draw key label l)).toNat then 1
  else if a = (secondIndex r (draw key label l)).toNat then -1
  else 0

theorem length_boundMessage (root : Digest) (dim : UInt32) : (boundMessage root dim).length = 64 := by
  simp [boundMessage, wordBytes]

theorem length_pair (left right : Digest) : (left.toList ++ right.toList).length = 64 := by
  simp

theorem leWordAt_pair (left right : Digest) {j : Nat} (inside : j < 16) :
    leWordAt (left.toList ++ right.toList) (4 * j) =
      if j < 8 then leWordAt left.toList (4 * j) else leWordAt right.toList (4 * (j - 8)) := by
  split
  next first => rw [leWordAt_append_left _ (by rw [Vector.length_toList]; omega)]
  next second =>
    rw [leWordAt_append_right _ (by rw [Vector.length_toList]; omega), Vector.length_toList]
    congr 1
    omega

theorem leWordAt_boundMessage (root : Digest) (dim : UInt32) {j : Nat} (inside : j < 16) :
    leWordAt (boundMessage root dim) (4 * j) =
      if j < 8 then leWordAt root.toList (4 * j) else if j = 8 then dim else 0 := by
  unfold boundMessage
  split_ifs with first own
  · rw [leWordAt_append_left _ (by rw [Vector.length_toList]; omega)]
  · subst own
    rw [leWordAt_append_right _ (by rw [Vector.length_toList]), Vector.length_toList,
      leWordAt_append_left _ (Nat.le_refl 4)]
    exact leWordAt_wordBytes dim
  · have tail : 4 ≤ 4 * j - 32 := by omega
    rw [leWordAt_append_right _ (by rw [Vector.length_toList]; omega), Vector.length_toList,
      leWordAt_append_right _ (by exact tail)]
    have zero : ∀ p, (List.replicate 28 (0 : UInt8)).getD p 0 = 0 := by
      intro p
      rw [List.getD_eq_getElem?_getD, List.getElem?_replicate]
      split <;> rfl
    simp only [leWordAt, zero]
    rfl

theorem length_noiseMessage (slot : Nat) (counter : UInt32) (label : List UInt8) :
    (noiseMessage slot counter label).length = 64 := by
  simp [noiseMessage]

theorem getD_noiseMessage (slot : Nat) (counter : UInt32) (label : List UInt8) {i : Nat} (inside : i < 64) :
    (noiseMessage slot counter label).getD i 0 =
      if 32 ≤ i then label.getD (i - 32) 0
      else if 4 * slot ≤ i ∧ i < 4 * slot + 4 then wordByte counter (i - 4 * slot) else 0 := by
  simp [noiseMessage, inside]

theorem byte_noiseMessage {slot : Nat} (counter : UInt32) (label : List UInt8) {j k : Nat} (inside : j < 16)
    (small : k < 4) :
    (noiseMessage slot counter label).getD (4 * j + k) 0 =
      if 8 ≤ j then label.getD (4 * (j - 8) + k) 0 else if j = slot then wordByte counter k else 0 := by
  rw [getD_noiseMessage _ _ _ (by omega)]
  by_cases half : 8 ≤ j
  · rw [if_pos half, if_pos (by omega)]
    congr 1
    omega
  · rw [if_neg half, if_neg (by omega)]
    by_cases own : j = slot
    · rw [if_pos own, if_pos (by omega)]
      congr 1
      omega
    · rw [if_neg own, if_neg (by omega)]

theorem leWordAt_noiseMessage {slot : Nat} (counter : UInt32) (label : List UInt8) {j : Nat} (inside : j < 16) :
    leWordAt (noiseMessage slot counter label) (4 * j) =
      if 8 ≤ j then leWordAt label (4 * (j - 8)) else if j = slot then counter else 0 := by
  have first : (noiseMessage slot counter label).getD (4 * j) 0 =
      if 8 ≤ j then label.getD (4 * (j - 8)) 0 else if j = slot then wordByte counter 0 else 0 :=
    byte_noiseMessage counter label inside (show 0 < 4 by decide)
  unfold leWordAt
  rw [first, byte_noiseMessage counter label inside (by decide), byte_noiseMessage counter label inside (by decide),
    byte_noiseMessage counter label inside (by decide)]
  split_ifs
  · rfl
  · rw [leWord_wordByte]
  · rfl

theorem sixBits_range (byte : UInt8) :
    -32 ≤ (Int8.ofInt ((byte &&& 63).toNat - 32)).toInt ∧ (Int8.ofInt ((byte &&& 63).toNat - 32)).toInt ≤ 31 := by
  have bits : (byte &&& 63).toNat ≤ 63 := by
    rw [UInt8.toNat_and]
    exact Nat.and_le_right
  rw [Int8.toInt_ofInt_of_le (by omega) (by omega)]
  omega

theorem uniform_range (key : Digest) (label : List UInt8) (idx : Nat) :
    -32 ≤ (uniform key label idx).toInt ∧ (uniform key label idx).toInt ≤ 31 := sixBits_range _

section indices
variable {r e : Nat} (power : r = 2 ^ e) (fits : r < 2 ^ 31)
include power fits

theorem toNat_rankMask : ((r - 1).toUInt32).toNat = r - 1 := by
  simp only [Nat.toUInt32, toNat_ofNat']
  omega

theorem firstIndex_lt (u : UInt32) : (firstIndex r u).toNat < r := by
  rw [firstIndex, UInt32.toNat_and, toNat_rankMask power fits, power, Nat.and_two_pow_sub_one_eq_mod]
  exact Nat.mod_lt _ (Nat.two_pow_pos e)

variable (proper : 2 ≤ r)
include proper

theorem toNat_mulHi_lt (u : UInt32) : (mulHi (r - 1).toUInt32 u).toNat < r - 1 := by
  have word := u.toNat_lt
  have product : ((r - 1).toUInt32.toUInt64 * u.toUInt64).toNat = (r - 1) * u.toNat := by
    rw [UInt64.toNat_mul, toNat_toUInt64, toNat_toUInt64, toNat_rankMask power fits, Nat.mod_eq_of_lt]
    calc (r - 1) * u.toNat ≤ (r - 1) * 2 ^ 32 := Nat.mul_le_mul_left _ (by omega)
      _ < 2 ^ 64 := by omega
  have high : (r - 1) * u.toNat / 2 ^ 32 < r - 1 := by
    rw [Nat.div_lt_iff_lt_mul (by decide)]
    exact Nat.mul_lt_mul_of_pos_left word (by omega)
  rw [mulHi, UInt64.toNat_toUInt32, UInt64.toNat_shiftRight, product]
  simp only [UInt64.reduceToNat, Nat.reduceMod, Nat.shiftRight_eq_div_pow]
  omega

theorem toNat_step (u : UInt32) :
    (1 + mulHi (r - 1).toUInt32 u).toNat = 1 + (mulHi (r - 1).toUInt32 u).toNat := by
  have small := toNat_mulHi_lt power fits proper u
  rw [UInt32.toNat_add]
  simp only [reduceToNat]
  omega

theorem secondIndex_lt (u : UInt32) : (secondIndex r u).toNat < r := by
  have first := firstIndex_lt power fits u
  have small := toNat_mulHi_lt power fits proper u
  have bound : (firstIndex r u).toNat ^^^ (1 + (mulHi (r - 1).toUInt32 u).toNat) < 2 ^ e :=
    Nat.xor_lt_two_pow (by omega) (by omega)
  rw [secondIndex, UInt32.toNat_xor, toNat_step power fits proper]
  omega

/-- A column never adds and subtracts the same entry. -/
theorem firstIndex_ne (u : UInt32) : (firstIndex r u).toNat ≠ (secondIndex r u).toNat := by
  intro same
  have step := toNat_step power fits proper u
  rw [secondIndex, UInt32.toNat_xor] at same
  have zero : (1 + mulHi (r - 1).toUInt32 u).toNat = 0 := by
    have cancel := congrArg ((firstIndex r u).toNat ^^^ ·) same
    simpa [← Nat.xor_assoc] using cancel.symm
  omega

/-- Multiplying by the dense factor adds one entry and subtracts another. -/
theorem sum_factor (key : Digest) (label : List UInt8) (row : Nat → Int) (l : Nat) :
    ∑ a ∈ range r, row a * (factor key label r a l).toInt =
      row (firstIndex r (draw key label l)).toNat - row (secondIndex r (draw key label l)).toNat := by
  have first := firstIndex_lt power fits (draw key label l)
  have second := secondIndex_lt power fits proper (draw key label l)
  have apart := firstIndex_ne power fits proper (draw key label l)
  have entry : ∀ a, row a * (factor key label r a l).toInt =
      (if a = (firstIndex r (draw key label l)).toNat then row a else 0) -
        if a = (secondIndex r (draw key label l)).toNat then row a else 0 := by
    intro a
    unfold factor
    split_ifs with isFirst isSecond
    · exact absurd (isFirst.symm.trans isSecond) apart
    · simp
    · simp
    · simp
  simp only [entry]
  rw [sum_sub_distrib, sum_ite_eq', sum_ite_eq', if_pos (mem_range.mpr first),
    if_pos (mem_range.mpr second)]

end indices
end ArcMiner.Spec
