import Mathlib.Data.Nat.Digits.Lemmas
import ArcMiner.Library.LittleEndian

/-! The number that a list of bytes spells, from either end. -/

namespace ArcMiner.Library

open List Nat

def leValue (bytes : List UInt8) : Nat := ofDigits 256 (bytes.map UInt8.toNat)

def beValue (bytes : List UInt8) : Nat := leValue bytes.reverse

theorem leValue_lt (bytes : List UInt8) : leValue bytes < 256 ^ bytes.length := by
  have digits : ∀ digit ∈ bytes.map UInt8.toNat, digit < 256 := by
    intro digit member
    obtain ⟨byte, -, rfl⟩ := mem_map.mp member
    exact byte.toNat_lt
  simpa only [leValue, length_map] using ofDigits_lt_base_pow_length (by decide) digits

theorem leValue_concat (low : List UInt8) (high : UInt8) :
    leValue (low ++ [high]) = leValue low + 256 ^ low.length * high.toNat := by
  rw [leValue, map_append, ofDigits_append, length_map, map_singleton, ofDigits_singleton]
  rfl

theorem leValue_cons (low : UInt8) (bytes : List UInt8) : leValue (low :: bytes) = low.toNat + 256 * leValue bytes := by
  rw [leValue, map_cons, ofDigits_cons]
  rfl

theorem ofDigits_leWords {bytes : List UInt8} {k : Nat} (size : bytes.length = 4 * k) :
    ofDigits (2 ^ 32) ((range k).map fun i => (leWordAt bytes (4 * i)).toNat) = leValue bytes := by
  induction k generalizing bytes with
  | zero =>
    obtain rfl := length_eq_zero_iff.mp size
    rfl
  | succ k ih =>
    match bytes with
    | b0 :: b1 :: b2 :: b3 :: rest =>
      have later := @ih rest (by simp only [length_cons] at size; omega)
      have first : leWordAt (b0 :: b1 :: b2 :: b3 :: rest) (4 * 0) = leWord b0 b1 b2 b3 := rfl
      have next : ∀ i, leWordAt (b0 :: b1 :: b2 :: b3 :: rest) (4 * (i + 1)) = leWordAt rest (4 * i) := fun i => rfl
      rw [range_succ_eq_map, map_cons, map_map, ofDigits_cons, first, leWord_toNat]
      simp only [Function.comp_def, succ_eq_add_one, next, later, leValue_cons]
      omega

theorem packBytes_toNat (byte : Nat → UInt8) {n : Nat} (small : n ≤ 8) :
    (packBytes byte n).toNat = leValue ((range n).map byte) := by
  induction n with
  | zero => rfl
  | succ n ih =>
    rw [packBytes_succ byte (by omega) (packBytes_lt byte (by omega)), ih (by omega), range_succ, map_append,
      map_singleton, leValue_concat, length_map, length_range, Nat.add_comm]

@[simp] theorem beValue_nil : beValue [] = 0 := rfl

theorem beValue_lt (bytes : List UInt8) : beValue bytes < 256 ^ bytes.length := by
  simpa only [beValue, length_reverse] using leValue_lt bytes.reverse

theorem beValue_append (high low : List UInt8) :
    beValue (high ++ low) = beValue high * 256 ^ low.length + beValue low := by
  rw [beValue, leValue, reverse_append, map_append, ofDigits_append, length_map, length_reverse,
    Nat.add_comm, Nat.mul_comm]
  rfl

theorem beValue_singleton (byte : UInt8) : beValue [byte] = byte.toNat := ofDigits_singleton

theorem beValue_cons (byte : UInt8) (low : List UInt8) :
    beValue (byte :: low) = byte.toNat * 256 ^ low.length + beValue low := by
  rw [← singleton_append, beValue_append, beValue_singleton]

theorem beValue_zeros (count : Nat) : beValue (replicate count 0) = 0 := by
  induction count with
  | zero => rfl
  | succ count ih =>
    rw [replicate_succ, beValue_cons, ih]
    exact Nat.zero_mul _

theorem exists_leading {bytes : List UInt8} (positive : 0 < beValue bytes) :
    ∃ zeros first rest, bytes = replicate zeros 0 ++ first :: rest ∧ first ≠ 0 := by
  induction bytes with
  | nil => exact absurd positive (Nat.lt_irrefl 0)
  | cons byte bytes ih =>
    by_cases zero : byte = 0
    · subst zero
      rw [beValue_cons, UInt8.toNat_zero, Nat.zero_mul, Nat.zero_add] at positive
      obtain ⟨zeros, first, rest, rfl, some⟩ := ih positive
      exact ⟨zeros + 1, first, rest, rfl, some⟩
    · exact ⟨0, byte, bytes, rfl, zero⟩

theorem beValue_zeros_append (zeros : Nat) (bytes : List UInt8) :
    beValue (replicate zeros 0 ++ bytes) = beValue bytes := by
  rw [beValue_append, beValue_zeros, Nat.zero_mul, Nat.zero_add]

theorem beValue_set {bytes : List UInt8} {p : Nat} (zero : bytes[p]? = some 0) (byte : UInt8) :
    beValue (bytes.set p byte) = beValue bytes + byte.toNat * 256 ^ (bytes.length - 1 - p) := by
  induction bytes generalizing p with
  | nil => simp at zero
  | cons first rest ih =>
    cases p with
    | zero =>
      obtain rfl : first = 0 := by simpa using zero
      rw [set_cons_zero, beValue_cons, beValue_cons, length_cons]
      simp [Nat.add_comm]
    | succ p =>
      have place : (first :: rest).length - 1 - (p + 1) = rest.length - 1 - p := by
        rw [length_cons]
        omega
      rw [set_cons_succ, beValue_cons, beValue_cons, length_set, ih (by simpa using zero), place, Nat.add_assoc]

end ArcMiner.Library
