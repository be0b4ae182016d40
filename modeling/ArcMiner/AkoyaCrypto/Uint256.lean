import ArcMiner.Library.Span

/-! `Uint256`: 32-byte numbers compared byte by byte, from the most significant one. -/

namespace ArcMiner.AkoyaCrypto.Uint256

open Library Library.CSharp Except List

def leLessOrEqualFrom (a b : List UInt8) : Nat → Result Bool
  | 0 => .ok true
  | i + 1 => do
    let x ← index a i
    let y ← index b i
    if x ≠ y then return decide (x < y)
    leLessOrEqualFrom a b i

def leLessOrEqual (a b : List UInt8) : Result Bool := leLessOrEqualFrom a b 32

theorem leLessOrEqualFrom_eq {a b : List UInt8} {i : Nat} (inA : i ≤ a.length) (inB : i ≤ b.length) :
    leLessOrEqualFrom a b i = .ok (decide (leValue (a.take i) ≤ leValue (b.take i))) := by
  induction i with
  | zero => rfl
  | succ i ih =>
    have readA : index a (i : Int) = .ok a[i] := index_of_entry (getElem?_eq_getElem inA)
    have readB : index b (i : Int) = .ok b[i] := index_of_entry (getElem?_eq_getElem inB)
    have lengths : (a.take i).length = i ∧ (b.take i).length = i := by
      constructor <;> rw [length_take] <;> omega
    have belowA := leValue_lt (a.take i)
    have belowB := leValue_lt (b.take i)
    rw [lengths.1] at belowA
    rw [lengths.2] at belowB
    rw [← take_concat_get' a i inA, ← take_concat_get' b i inB, leValue_concat, leValue_concat, lengths.1,
      lengths.2]
    unfold leLessOrEqualFrom
    simp only [readA, readB, ok_bind]
    split
    next different =>
      -- The byte that differs outweighs all below it.
      refine congrArg ok (decide_eq_decide.mpr ?_)
      rw [UInt8.lt_iff_toNat_lt]
      have apart : a[i].toNat ≠ b[i].toNat := fun same => different (UInt8.toNat_inj.mp same)
      constructor
      · intro less
        have step : 256 ^ i * (a[i].toNat + 1) ≤ 256 ^ i * b[i].toNat := Nat.mul_le_mul_left _ less
        rw [Nat.mul_succ] at step
        omega
      · intro total
        by_contra more
        have step : 256 ^ i * (b[i].toNat + 1) ≤ 256 ^ i * a[i].toNat := Nat.mul_le_mul_left _ (by omega)
        rw [Nat.mul_succ] at step
        omega
    next same =>
      rw [ih (by omega) (by omega), not_not.mp same]
      exact congrArg ok (decide_eq_decide.mpr (Nat.add_le_add_iff_right ..).symm)

theorem leValue_le_of_leLessOrEqual {a b : List UInt8} (whole : a.length = 32) (less : leLessOrEqual a b = .ok true) :
    leValue a ≤ leValue b := by
  have enough : 32 ≤ b.length := by
    by_contra short
    have missing : index b ((31 : Nat) : Int) = .error .indexOutOfRange := by
      simp [index, getElem?_eq_none (show b.length ≤ 31 by omega)]
    have present : index a ((31 : Nat) : Int) = .ok a[31] := index_of_entry (getElem?_eq_getElem (by omega))
    unfold leLessOrEqual leLessOrEqualFrom at less
    rw [present, missing] at less
    cases less
  unfold leLessOrEqual at less
  rw [leLessOrEqualFrom_eq whole.ge enough, take_of_length_le whole.le, ok.injEq, decide_eq_true_eq] at less
  calc
    leValue a ≤ leValue (b.take 32) := less
    _ ≤ leValue (b.take 32) + 256 ^ (b.take 32).length * leValue (b.drop 32) := Nat.le_add_right ..
    _ = leValue b := by rw [← leValue_append, take_append_drop]

def beLessOrEqualFrom (a b : List UInt8) : Nat → Result Bool
  | 0 => .ok true
  | i + 1 => do
    let x ← index a ↑(31 - i)
    let y ← index b ↑(31 - i)
    if x ≠ y then return decide (x < y)
    beLessOrEqualFrom a b i

def beLessOrEqual (a b : List UInt8) : Result Bool := beLessOrEqualFrom a b 32

theorem beLessOrEqualFrom_eq {a b : List UInt8} (wholeA : a.length = 32) (wholeB : b.length = 32) {i : Nat} (small : i ≤ 32) :
    beLessOrEqualFrom a b i = leLessOrEqualFrom a.reverse b.reverse i := by
  have mirrored (bytes : List UInt8) (whole : bytes.length = 32) {i : Nat} (inside : i < 32) :
      index bytes ↑(31 - i) = index bytes.reverse i := by
    have entry : bytes.reverse[i]? = some bytes[31 - i] := by
      have place : bytes.length - 1 - i = 31 - i := by omega
      rw [getElem?_reverse (by omega), place]
      exact getElem?_eq_getElem _
    rw [index_of_entry entry]
    exact index_of_entry (getElem?_eq_getElem _)
  induction i with
  | zero => rfl
  | succ i ih =>
    unfold beLessOrEqualFrom leLessOrEqualFrom
    rw [mirrored a wholeA (by omega), mirrored b wholeB (by omega), ih (by omega)]

theorem beLessOrEqual_eq {a b : List UInt8} (wholeA : a.length = 32) (wholeB : b.length = 32) :
    beLessOrEqual a b = leLessOrEqual a.reverse b.reverse := beLessOrEqualFrom_eq wholeA wholeB (Nat.le_refl 32)

end ArcMiner.AkoyaCrypto.Uint256
