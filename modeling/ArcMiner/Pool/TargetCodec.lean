import ArcMiner.AkoyaCrypto.Hex
import ArcMiner.Library.Blake3
import ArcMiner.Library.ByteValue
import ArcMiner.Spec.CompactTarget
import Mathlib.Data.Nat.Bitwise

/-! The compact targets of `StratumSession`, `TargetToNbits` and `NbitsToTargetHex`, and of `SigmaContext`. -/

def ArcMiner.Prl.SigmaContext.nbitsToTarget (nbits : UInt32) : Nat :=
  let exp := (nbits >>> 24).toNat
  let mantissa := (nbits &&& 0x00FFFFFF).toNat
  if exp ≤ 3 then mantissa >>> (8 * (3 - exp)) else mantissa <<< (8 * (exp - 3))

namespace ArcMiner.Pool.StratumSession

open Library AkoyaCrypto Spec List Nat Compact

def targetToNbits (targetBytes : List UInt8) : UInt32 :=
  match targetBytes.findIdx? (· ≠ 0) with
  | none => 0
  | some firstNonZero =>
    let len := targetBytes.length - firstNonZero
    let byte (i : Nat) : UInt32 := (targetBytes.getD (firstNonZero + i) 0).toUInt32
    let mantissa :=
      if 3 ≤ len then byte 0 <<< 16 ||| byte 1 <<< 8 ||| byte 2
      else if len = 2 then byte 0 <<< 16 ||| byte 1 <<< 8
      else byte 0 <<< 16
    if mantissa &&& 0x00800000 ≠ 0 then (len + 1).toUInt32 <<< 24 ||| mantissa >>> 8
    else len.toUInt32 <<< 24 ||| mantissa

def place (target : List UInt8) (pos : Int) (value : UInt8) : List UInt8 :=
  if 0 ≤ pos ∧ pos < 32 then target.set pos.toNat value else target

def nbitsToTarget (nbits : UInt32) : List UInt8 :=
  let exp : Int := (nbits >>> 24).toNat
  let mant := nbits &&& 0xFFFFFF
  (range 3).foldl
    (fun target (i : Nat) => place target (32 - exp + i) (mant >>> (8 * (2 - i)).toUInt32).toUInt8) (replicate 32 0)

def nbitsToTargetHex (nbits : UInt32) : String := toLowerInvariant (Convert.toHexString (nbitsToTarget nbits))

section encode

theorem toNat_mantissa (b0 b1 b2 : UInt8) : (b0.toUInt32 <<< 16 ||| b1.toUInt32 <<< 8 ||| b2.toUInt32).toNat =
      b0.toNat * 2 ^ 16 + b1.toNat * 2 ^ 8 + b2.toNat := by
  have same : b0.toUInt32 <<< 16 ||| b1.toUInt32 <<< 8 ||| b2.toUInt32 = leWord b2 b1 b0 0 := by
    rw [leWord, UInt32.or_comm, UInt32.or_comm (b0.toUInt32 <<< 16), ← UInt32.or_assoc]
    simp
  rw [same, leWord_toNat, UInt8.toNat_zero]
  omega

theorem topBit_iff {mantissa : UInt32} (three : mantissa.toNat < 2 ^ 24) :
    mantissa &&& 0x00800000 ≠ 0 ↔ 2 ^ 23 ≤ mantissa.toNat := by
  have bit : (mantissa &&& 0x00800000).toNat = (mantissa.toNat.testBit 23).toNat * 2 ^ 23 :=
    (UInt32.toNat_and _ _).trans (and_two_pow _ 23)
  rw [Ne, ← UInt32.toNat_inj, bit, UInt32.toNat_zero, testBit_eq_decide_div_mod_eq]
  by_cases set : mantissa.toNat / 2 ^ 23 % 2 = 1
  · simp only [set, decide_true, Bool.toNat_true]
    omega
  · simp only [set, decide_false, Bool.toNat_false]
    omega

theorem toNat_pack {len : Nat} {mantissa : UInt32} (few : len < 256) (three : mantissa.toNat < 2 ^ 24) :
    (len.toUInt32 <<< 24 ||| mantissa).toNat = len * 2 ^ 24 + mantissa.toNat := by
  have number : len.toUInt32.toNat = len := mod_eq_of_lt (by omega)
  have shifted : len <<< 24 = len * 2 ^ 24 := shiftLeft_eq len 24
  rw [UInt32.toNat_or, UInt32.toNat_shiftLeft, number]
  show len <<< 24 % 2 ^ 32 ||| mantissa.toNat = _
  rw [mod_eq_of_lt (by omega), ← shiftLeft_add_eq_or_of_lt three, shifted]

theorem targetToNbits_leading (zeros : Nat) {first : UInt8} (some : first ≠ 0) (rest : List UInt8) :
    ∃ mantissa : UInt32,
      mantissa.toNat = beValue (first :: rest) * 256 ^ (3 - (rest.length + 1)) / 256 ^ (rest.length + 1 - 3) ∧
      2 ^ 16 ≤ mantissa.toNat ∧ mantissa.toNat < 2 ^ 24 ∧
      targetToNbits (replicate zeros 0 ++ first :: rest) =
        if mantissa &&& 0x00800000 ≠ 0 then (rest.length + 1 + 1).toUInt32 <<< 24 ||| mantissa >>> 8
        else (rest.length + 1).toUInt32 <<< 24 ||| mantissa := by
  have found : (replicate zeros 0 ++ first :: rest).findIdx? (· ≠ 0) = Option.some zeros := by
    simp [findIdx?_append, findIdx?_replicate, findIdx?_cons, some]
  have len : (replicate zeros 0 ++ first :: rest).length - zeros = rest.length + 1 := by simp
  have byte : ∀ i, (replicate zeros 0 ++ first :: rest).getD (zeros + i) 0 = (first :: rest).getD i 0 := by
    intro i
    rw [getD_append_right _ _ _ _ (by simp), length_replicate, Nat.add_sub_cancel_left]
  have positive : 0 < first.toNat := Nat.pos_of_ne_zero fun zero => some (UInt8.toNat_inj.mp zero)
  have bound := first.toNat_lt
  simp only [targetToNbits, found, len, byte]
  -- one, two or at least three bytes; what is missing counts as zero
  match rest with
  | [] =>
    have value : (first.toUInt32 <<< 16).toNat = first.toNat * 2 ^ 16 := by
      simpa using toNat_mantissa first 0 0
    refine ⟨first.toUInt32 <<< 16, ?_, ?_, ?_, rfl⟩
    · rw [value, beValue_singleton]
      simp
    · omega
    · omega
  | [second] =>
    have value : (first.toUInt32 <<< 16 ||| second.toUInt32 <<< 8).toNat = first.toNat * 2 ^ 16 + second.toNat * 2 ^ 8 := by
      simpa using toNat_mantissa first second 0
    have bound' := second.toNat_lt
    refine ⟨first.toUInt32 <<< 16 ||| second.toUInt32 <<< 8, ?_, ?_, ?_, rfl⟩
    · rw [value, beValue_cons, beValue_singleton]
      simp
      omega
    · omega
    · omega
  | second :: third :: low =>
    have value := toNat_mantissa first second third
    have bound' := second.toNat_lt
    have bound'' := third.toNat_lt
    have head : beValue [first, second, third] = first.toNat * 2 ^ 16 + second.toNat * 2 ^ 8 + third.toNat := by
      simp only [beValue_cons, beValue_nil, length_cons, length_nil]
      omega
    refine ⟨first.toUInt32 <<< 16 ||| second.toUInt32 <<< 8 ||| third.toUInt32, ?_, ?_, ?_, ?_⟩
    · show _ = beValue ([first, second, third] ++ low) * 256 ^ (3 - (low.length + 3)) / 256 ^ (low.length + 3 - 3)
      rw [Nat.sub_eq_zero_of_le (Nat.le_add_left 3 _), Nat.pow_zero, Nat.mul_one, Nat.add_sub_cancel, beValue_append, head,
        ← value, Nat.mul_comm, mul_add_div (Nat.pow_pos (by decide)), div_eq_of_lt (beValue_lt low), Nat.add_zero]
    · omega
    · omega
    · simp

theorem targetToNbits_compact {targetBytes : List UInt8} (short : targetBytes.length ≤ 32)
    (positive : 0 < beValue targetBytes) : ∃ size mantissa, Compact (beValue targetBytes) size mantissa ∧
      (targetToNbits targetBytes).toNat = size * 2 ^ 24 + mantissa := by
  obtain ⟨zeros, first, rest, rfl, some⟩ := exists_leading positive
  obtain ⟨mantissa, leading, least, three, packed⟩ := targetToNbits_leading zeros some rest
  have few : rest.length + 1 ≤ 32 := by
    rw [length_append, length_cons] at short
    omega
  rw [beValue_zeros_append, packed]
  by_cases free : mantissa.toNat < 2 ^ 23
  · refine ⟨_, _, of_free leading least free, ?_⟩
    rw [if_neg (mt (topBit_iff three).mp (Nat.not_le_of_lt free)), toNat_pack (by omega) three]
  · have taken := Nat.le_of_not_lt free
    have shifted : (mantissa >>> 8).toNat = mantissa.toNat / 256 := by
      rw [UInt32.toNat_shiftRight]
      exact shiftRight_eq_div_pow _ 8
    refine ⟨_, _, of_taken leading taken three, ?_⟩
    rw [if_pos ((topBit_iff three).mpr taken), toNat_pack (by omega) (by omega), shifted]

end encode

section decode
variable {target : List UInt8} {pos : Int} {value : UInt8}

@[simp] theorem length_place : (place target pos value).length = target.length := by
  unfold place
  split <;> simp

theorem getElem?_place {q : Nat} (other : (q : Int) ≠ pos) : (place target pos value)[q]? = target[q]? := by
  unfold place
  split
  · exact getElem?_set_ne (by omega)
  · rfl

def placed (pos : Int) (value : UInt8) : Nat :=
  if 0 ≤ pos ∧ pos < 32 then value.toNat * 256 ^ (31 - pos.toNat) else 0

theorem beValue_place (size : target.length = 32) (zero : ∀ q : Nat, q < 32 → (q : Int) = pos → target[q]? = some 0)
    (value : UInt8) : beValue (place target pos value) = beValue target + placed pos value := by
  unfold place placed
  split
  · next inside => rw [beValue_set (zero pos.toNat (by omega) (by omega)), size]
  · rfl

theorem toNat_exp (nbits : UInt32) : (nbits >>> 24).toNat = nbits.toNat / 2 ^ 24 := by
  rw [UInt32.toNat_shiftRight]
  exact shiftRight_eq_div_pow _ 24

theorem toNat_mant (nbits : UInt32) : (nbits &&& 0x00FFFFFF).toNat = nbits.toNat % 2 ^ 24 := by
  rw [UInt32.toNat_and]
  exact and_two_pow_sub_one_eq_mod _ 24

theorem mantByte (nbits : UInt32) {shift : Nat} (small : shift < 32) :
    ((nbits &&& 0x00FFFFFF) >>> shift.toUInt32).toUInt8 = (nbits.toNat % 2 ^ 24 / 2 ^ shift).toUInt8 := by
  have number : shift.toUInt32.toNat % 32 = shift := by
    rw [show shift.toUInt32.toNat = shift from mod_eq_of_lt (by omega)]
    exact mod_eq_of_lt small
  apply UInt8.toNat_inj.mp
  rw [UInt32.toNat_toUInt8, UInt32.toNat_shiftRight, toNat_mant, number, shiftRight_eq_div_pow]
  rfl

theorem beValue_nbitsToTarget (nbits : UInt32) : beValue (nbitsToTarget nbits) =
      placed (32 - (nbits.toNat / 2 ^ 24 : Nat)) (nbits.toNat % 2 ^ 24 / 2 ^ 16).toUInt8 +
      placed (32 - (nbits.toNat / 2 ^ 24 : Nat) + 1) (nbits.toNat % 2 ^ 24 / 2 ^ 8).toUInt8 +
      placed (32 - (nbits.toNat / 2 ^ 24 : Nat) + 2) (nbits.toNat % 2 ^ 24 / 2 ^ 0).toUInt8 := by
  have zeros : ∀ q < 32, (replicate 32 (0 : UInt8))[q]? = some 0 := fun q inside => by
    rw [getElem?_replicate, if_pos inside]
  rw [← mantByte nbits (by decide), ← mantByte nbits (by decide), ← mantByte nbits (by decide), ← toNat_exp]
  show beValue (place (place (place (replicate 32 0) (32 - (nbits >>> 24).toNat + (0 : Nat)) _)
    (32 - (nbits >>> 24).toNat + (1 : Nat)) _) (32 - (nbits >>> 24).toNat + (2 : Nat)) _) = _
  rw [beValue_place (by simp), beValue_place (by simp), beValue_place (by simp), beValue_zeros, Nat.zero_add]
  · simp
  · exact fun q inside _ => zeros q inside
  · intro q inside here
    rw [getElem?_place (by omega)]
    exact zeros q inside
  · intro q inside here
    rw [getElem?_place (by omega), getElem?_place (by omega)]
    exact zeros q inside

/-- A byte that falls off is zero, if the number has room. -/
theorem placed_digit {v p : Nat} (fits : v % 256 * 256 ^ p < 256 ^ 32) :
    placed (31 - (p : Int)) v.toUInt8 = v % 256 * 256 ^ p := by
  have byte : v.toUInt8.toNat = v % 256 := rfl
  unfold placed
  split
  · next inside =>
    rw [byte]
    congr 2
    omega
  · next outside =>
    have beyond : 256 ^ 32 ≤ 256 ^ p := Nat.pow_le_pow_right (by decide) (by omega)
    have zero : v % 256 = 0 := by
      by_contra some
      have least := Nat.mul_le_mul_right (256 ^ p) (Nat.pos_of_ne_zero some)
      omega
    rw [zero, Nat.zero_mul]

theorem nbitsToTarget_expand {nbits : UInt32} {size mantissa : Nat} (packed : nbits.toNat = size * 2 ^ 24 + mantissa)
    (three : mantissa < 2 ^ 24) (fits : expand size mantissa < 256 ^ 32) :
    beValue (nbitsToTarget nbits) = expand size mantissa := by
  have exp : nbits.toNat / 2 ^ 24 = size := by omega
  have mant : nbits.toNat % 2 ^ 24 = mantissa := by omega
  rw [beValue_nbitsToTarget, exp, mant]
  rcases Nat.lt_or_ge size 3 with short | long
  · have byte : ∀ v : Nat, v.toUInt8.toNat = v % 256 := fun v => rfl
    interval_cases size <;> simp [placed, byte, expand] <;> omega
  · obtain ⟨k, rfl⟩ := Nat.exists_eq_add_of_le' long
    rw [expand_long] at fits ⊢
    have digit : ∀ v p, v % 256 * 256 ^ p ≤ mantissa → v % 256 * 256 ^ (k + p) < 256 ^ 32 := by
      intro v p part
      rw [Nat.add_comm, Nat.pow_add, ← Nat.mul_assoc]
      exact (Nat.mul_le_mul_right _ part).trans_lt fits
    have first := placed_digit (digit (mantissa / 2 ^ 16) 2 (by omega))
    have second := placed_digit (digit (mantissa / 2 ^ 8) 1 (by omega))
    have third := placed_digit (digit (mantissa / 2 ^ 0) 0 (by omega))
    have digits : mantissa / 2 ^ 16 % 256 * 256 ^ 2 + mantissa / 2 ^ 8 % 256 * 256 + mantissa / 2 ^ 0 % 256 = mantissa := by
      omega
    rw [show (32 : Int) - (k + 3 : Nat) = 31 - (k + 2 : Nat) by omega, first,
      show (31 : Int) - (k + 2 : Nat) + 1 = 31 - (k + 1 : Nat) by omega, second,
      show (31 : Int) - (k + 2 : Nat) + 2 = 31 - (k + 0 : Nat) by omega, third]
    generalize mantissa / 2 ^ 16 % 256 = a, mantissa / 2 ^ 8 % 256 = b, mantissa / 2 ^ 0 % 256 = c at digits
    rw [← digits]
    ring

theorem sigmaContext_expand {nbits : UInt32} {size mantissa : Nat} (packed : nbits.toNat = size * 2 ^ 24 + mantissa)
    (three : mantissa < 2 ^ 24) : Prl.SigmaContext.nbitsToTarget nbits = expand size mantissa := by
  have exp : nbits.toNat / 2 ^ 24 = size := by omega
  have mant : nbits.toNat % 2 ^ 24 = mantissa := by omega
  simp only [Prl.SigmaContext.nbitsToTarget, toNat_exp, toNat_mant, exp, mant, expand]
  split
  · next short =>
    rw [shiftRight_eq_div_pow, Nat.pow_mul, Nat.sub_eq_zero_of_le short, Nat.pow_zero, Nat.mul_one]
  · next long =>
    rw [shiftLeft_eq, Nat.pow_mul, Nat.sub_eq_zero_of_le (by omega : 3 ≤ size), Nat.pow_zero, Nat.div_one]

end decode

@[simp] theorem length_nbitsToTarget (nbits : UInt32) : (nbitsToTarget nbits).length = 32 := by
  simp [nbitsToTarget, range_succ]

theorem targetToNbits_zero {targetBytes : List UInt8} (zero : beValue targetBytes = 0) : targetToNbits targetBytes = 0 := by
  have none : targetBytes.findIdx? (· ≠ 0) = none := by
    induction targetBytes with
    | nil => rfl
    | cons byte rest ih =>
      rw [beValue_cons] at zero
      have first : byte = 0 := by
        by_contra some
        have := Nat.mul_pos (Nat.pos_of_ne_zero fun zero => some (UInt8.toNat_inj.mp zero))
          (Nat.pow_pos (n := rest.length) (show 0 < 256 by decide))
        omega
      rw [findIdx?_cons, first, ih (by omega)]
      rfl
  rw [targetToNbits, none]

/-- The form of a target with at most 32 bytes, and what both decoders make of it. -/
theorem targetToNbits_spec {targetBytes : List UInt8} (short : targetBytes.length ≤ 32)
    (positive : 0 < beValue targetBytes) : ∃ size mantissa, Compact (beValue targetBytes) size mantissa ∧
      (targetToNbits targetBytes).toNat = size * 2 ^ 24 + mantissa ∧
      beValue (nbitsToTarget (targetToNbits targetBytes)) = expand size mantissa ∧
      Prl.SigmaContext.nbitsToTarget (targetToNbits targetBytes) = expand size mantissa := by
  obtain ⟨size, mantissa, form, packed⟩ := targetToNbits_compact short positive
  have three : mantissa < 2 ^ 24 := form.mantissa_lt.trans (by decide)
  have small := (beValue_lt targetBytes).trans_le (Nat.pow_le_pow_right (by decide) short)
  exact ⟨size, mantissa, form, packed, nbitsToTarget_expand packed three (form.expand_le.trans_lt small),
    sigmaContext_expand packed three⟩

theorem targetToNbits_mono {targetBytes larger : List UInt8} (short : targetBytes.length ≤ 32)
    (short' : larger.length ≤ 32) (le : beValue targetBytes ≤ beValue larger) :
    targetToNbits targetBytes ≤ targetToNbits larger := by
  rcases Nat.eq_zero_or_pos (beValue targetBytes) with zero | positive
  · rw [targetToNbits_zero zero]
    exact UInt32.zero_le
  · obtain ⟨size, mantissa, form, packed, -⟩ := targetToNbits_spec short positive
    obtain ⟨size', mantissa', form', packed', -⟩ := targetToNbits_spec short' (positive.trans_le le)
    have three := form.mantissa_lt
    have order := form.mono form' le
    rw [UInt32.le_iff_toNat_le, packed, packed']
    omega

/-- What a compact form stands for is encoded as that form. -/
theorem targetToNbits_expanded {targetBytes : List UInt8} (short : targetBytes.length ≤ 32) :
    targetToNbits (nbitsToTarget (targetToNbits targetBytes)) = targetToNbits targetBytes := by
  rcases Nat.eq_zero_or_pos (beValue targetBytes) with zero | positive
  · rw [targetToNbits_zero zero]
    decide
  · obtain ⟨size, mantissa, form, packed, expanded, -⟩ := targetToNbits_spec short positive
    have again := form.of_expand
    have some : 0 < beValue (nbitsToTarget (targetToNbits targetBytes)) := by
      have least := again.below
      have power : 0 < 256 ^ size := Nat.pow_pos (by decide)
      omega
    obtain ⟨size', mantissa', form', packed', -⟩ := targetToNbits_spec (length_nbitsToTarget _).le some
    rw [expanded] at form'
    have up := again.mono form' le_rfl
    have down := form'.mono again le_rfl
    apply UInt32.toNat_inj.mp
    rw [packed, packed']
    omega

theorem compact_target_codec (target : Digest) :
    ∃ expanded, Hex.decode (nbitsToTargetHex (targetToNbits target.toList)) = .ok expanded ∧ expanded.length = 32 ∧
      beValue expanded ≤ beValue target.toList ∧
      (0 < beValue target.toList → (beValue target.toList - beValue expanded) * 2 ^ 15 < beValue target.toList) ∧
      (∀ larger : Digest, beValue target.toList ≤ beValue larger.toList →
        targetToNbits target.toList ≤ targetToNbits larger.toList) ∧
      targetToNbits expanded = targetToNbits target.toList ∧
      Prl.SigmaContext.nbitsToTarget (targetToNbits target.toList) = beValue expanded := by
  have short : target.toList.length ≤ 32 := by simp
  have monotone : ∀ larger : Digest, beValue target.toList ≤ beValue larger.toList →
      targetToNbits target.toList ≤ targetToNbits larger.toList := fun larger => targetToNbits_mono short (by simp)
  have again := targetToNbits_expanded short
  refine ⟨nbitsToTarget (targetToNbits target.toList), decode_lower _, length_nbitsToTarget _, ?_⟩
  rcases Nat.eq_zero_or_pos (beValue target.toList) with zero | positive
  · refine ⟨?_, fun positive => absurd zero positive.ne', monotone, again, ?_⟩
    · rw [targetToNbits_zero zero]
      exact Nat.zero_le _
    · rw [targetToNbits_zero zero]
      decide
  · obtain ⟨size, mantissa, form, -, expanded, decoded⟩ := targetToNbits_spec short positive
    rw [expanded]
    exact ⟨form.expand_le, fun _ => form.cut_lt, monotone, again, decoded⟩

end ArcMiner.Pool.StratumSession
