import ArcMiner.Library.Blake3
import ArcMiner.Library.Span

/-! Monero's difficulty test, `RxJob.CheckHash`.

The hash is four words, the product with the difficulty is formed a word at a
time, and only its carries are kept.
-/

namespace ArcMiner.Rx.RxJob

open Library Library.CSharp Library.UInt128 Bool

def cadc (a b : UInt64) (carryIn : Bool) : Bool :=
  decide (ofUInt64 a + ofUInt64 b + ofUInt64 (if carryIn then 1 else 0) > ofUInt64 0xFFFFFFFFFFFFFFFF)

def checkWords (w0 w1 w2 w3 difficulty : UInt64) : Bool :=
  let p3 := ofUInt64 w3 * ofUInt64 difficulty
  -- The high word of the top product must be zero.
  if high p3 ≠ 0 then false
  else
    let top := low p3
    let p0 := ofUInt64 w0 * ofUInt64 difficulty
    let p1 := ofUInt64 w1 * ofUInt64 difficulty
    let carry1 := cadc (high p0) (low p1) false
    let p2 := ofUInt64 w2 * ofUInt64 difficulty
    let carry2 := cadc (high p1) (low p2) carry1
    let carry3 := cadc (high p2) top carry2
    !carry3

def checkHash (hash32 : List UInt8) (difficulty : UInt64) : Result Bool :=
  if difficulty ≤ 1 then .ok true
  else do
    let w0 ← spanSlice hash32 0 8 >>= readUInt64LittleEndian
    let w1 ← spanSlice hash32 8 8 >>= readUInt64LittleEndian
    let w2 ← spanSlice hash32 16 8 >>= readUInt64LittleEndian
    let w3 ← spanSlice hash32 24 8 >>= readUInt64LittleEndian
    return checkWords w0 w1 w2 w3 difficulty

theorem cadc_iff (a b : UInt64) (carryIn : Bool) :
    cadc a b carryIn = true ↔ 2 ^ 64 ≤ a.toNat + b.toNat + carryIn.toNat := by
  have aSmall := a.toNat_lt
  have bSmall := b.toNat_lt
  have bit := carryIn.toNat_le
  have carried : (if carryIn then (1 : UInt64) else 0).toNat = carryIn.toNat := by
    cases carryIn <;> rfl
  have most : (0xFFFFFFFFFFFFFFFF : UInt64).toNat = 2 ^ 64 - 1 := rfl
  rw [cadc, decide_eq_true_eq, gt_iff_lt, BitVec.lt_def, BitVec.toNat_add, BitVec.toNat_add, ofUInt64_toNat,
    ofUInt64_toNat, ofUInt64_toNat, ofUInt64_toNat, carried, most]
  omega

theorem cadc_toNat (a b : UInt64) (carryIn : Bool) :
    (cadc a b carryIn).toNat = (a.toNat + b.toNat + carryIn.toNat) / 2 ^ 64 := by
  have aSmall := a.toNat_lt
  have bSmall := b.toNat_lt
  have bit := carryIn.toNat_le
  have exact := cadc_iff a b carryIn
  cases carry : cadc a b carryIn with
  | false =>
    have under : ¬2 ^ 64 ≤ a.toNat + b.toNat + carryIn.toNat := fun exceeds => by simp [exact.mpr exceeds] at carry
    rw [toNat_false]
    omega
  | true =>
    have exceeds := exact.mp carry
    rw [toNat_true]
    omega

theorem add_mul_lt_iff (sum rest bound : Nat) :
    sum + 2 ^ 64 * rest < 2 ^ 64 * bound ↔ sum / 2 ^ 64 + rest < bound := by
  omega

/-- Four two-word products, each a word above the last, stay under four words when neither the top
word nor the last carry is set. -/
theorem sum_lt_iff {l0 : Nat} (small : l0 < 2 ^ 64) (h0 l1 h1 l2 h2 l3 h3 : Nat) :
    (l0 + 2 ^ 64 * h0) + 2 ^ 64 * ((l1 + 2 ^ 64 * h1) + 2 ^ 64 * ((l2 + 2 ^ 64 * h2) + 2 ^ 64 * (l3 + 2 ^ 64 * h3))) <
        2 ^ 256 ↔
      (h2 + l3 + (h1 + l2 + (h0 + l1) / 2 ^ 64) / 2 ^ 64) / 2 ^ 64 + h3 < 1 := by
  rw [show (2 : Nat) ^ 256 = 2 ^ 64 * (2 ^ 64 * (2 ^ 64 * (2 ^ 64 * 1))) from rfl, Nat.add_assoc, ← Nat.mul_add,
    add_mul_lt_iff, Nat.div_eq_of_lt small, Nat.zero_add]
  have regroup : h0 + (l1 + 2 ^ 64 * h1 + 2 ^ 64 * (l2 + 2 ^ 64 * h2 + 2 ^ 64 * (l3 + 2 ^ 64 * h3))) =
      (h0 + l1) + 2 ^ 64 * (h1 + (l2 + 2 ^ 64 * h2 + 2 ^ 64 * (l3 + 2 ^ 64 * h3))) := by
    omega
  have regroupSecond (carry : Nat) : carry + (h1 + (l2 + 2 ^ 64 * h2 + 2 ^ 64 * (l3 + 2 ^ 64 * h3))) =
      (h1 + l2 + carry) + 2 ^ 64 * (h2 + (l3 + 2 ^ 64 * h3)) := by
    omega
  have regroupThird (carry : Nat) : carry + (h2 + (l3 + 2 ^ 64 * h3)) = (h2 + l3 + carry) + 2 ^ 64 * h3 := by
    omega
  rw [regroup, add_mul_lt_iff, regroupSecond, add_mul_lt_iff, regroupThird, add_mul_lt_iff]

theorem mul_eq_low_high (w difficulty : UInt64) : w.toNat * difficulty.toNat =
      (low (ofUInt64 w * ofUInt64 difficulty)).toNat + 2 ^ 64 * (high (ofUInt64 w * ofUInt64 difficulty)).toNat := by
  rw [low_toNat, high_toNat, mul_toNat]
  exact (Nat.mod_add_div _ _).symm

theorem checkWords_iff (w0 w1 w2 w3 difficulty : UInt64) : checkWords w0 w1 w2 w3 difficulty = true ↔
      (w0.toNat + 2 ^ 64 * (w1.toNat + 2 ^ 64 * (w2.toNat + 2 ^ 64 * w3.toNat))) * difficulty.toNat < 2 ^ 256 := by
  -- The product word by word: each word's low half meets the high half of the word below.
  have product : (w0.toNat + 2 ^ 64 * (w1.toNat + 2 ^ 64 * (w2.toNat + 2 ^ 64 * w3.toNat))) * difficulty.toNat =
      w0.toNat * difficulty.toNat + 2 ^ 64 * (w1.toNat * difficulty.toNat + 2 ^ 64 *
        (w2.toNat * difficulty.toNat + 2 ^ 64 * (w3.toNat * difficulty.toNat))) := by
    ring
  rw [product, mul_eq_low_high w0, mul_eq_low_high w1, mul_eq_low_high w2, mul_eq_low_high w3]
  rw [sum_lt_iff (UInt64.toNat_lt _)]
  unfold checkWords
  dsimp only
  generalize ofUInt64 w0 * ofUInt64 difficulty = p0
  generalize ofUInt64 w1 * ofUInt64 difficulty = p1
  generalize ofUInt64 w2 * ofUInt64 difficulty = p2
  generalize ofUInt64 w3 * ofUInt64 difficulty = p3
  have carry : (cadc (high p2) (low p3) (cadc (high p1) (low p2) (cadc (high p0) (low p1) false))).toNat =
      ((high p2).toNat + (low p3).toNat + ((high p1).toNat + (low p2).toNat +
        ((high p0).toNat + (low p1).toNat) / 2 ^ 64) / 2 ^ 64) / 2 ^ 64 := by
    simp only [cadc_toNat, toNat_false, Nat.add_zero]
  rw [← carry]
  split
  next set =>
    have positive : (high p3).toNat ≠ 0 := fun zero => set (UInt64.toNat_inj.mp zero)
    simp only [false_eq_true, false_iff]
    omega
  next clear =>
    rw [not_not.mp clear, UInt64.toNat_zero, Nat.add_zero]
    cases cadc (high p2) (low p3) (cadc (high p1) (low p2) (cadc (high p0) (low p1) false)) <;> simp

theorem leValue_words {bytes : List UInt8} (whole : bytes.length = 32) :
    leValue bytes = leValue ((bytes.drop 0).take 8) + 2 ^ 64 * (leValue ((bytes.drop 8).take 8) + 2 ^ 64 *
      (leValue ((bytes.drop 16).take 8) + 2 ^ 64 * leValue ((bytes.drop 24).take 8))) := by
  have peel (start : Nat) (inside : start + 8 ≤ 32) :
      leValue (bytes.drop start) = leValue ((bytes.drop start).take 8) + 2 ^ 64 * leValue (bytes.drop (start + 8)) := by
    have length : ((bytes.drop start).take 8).length = 8 := by
      rw [List.length_take, List.length_drop]
      omega
    calc
      leValue (bytes.drop start) = leValue ((bytes.drop start).take 8 ++ (bytes.drop start).drop 8) := by
        rw [List.take_append_drop]
      _ = _ := by
        rw [leValue_append, length, List.drop_drop]
        rfl
  have last : bytes.drop 32 = [] := List.drop_eq_nil_of_le whole.le
  have ends := peel 24 (by decide)
  rw [last, show leValue [] = 0 from rfl, Nat.mul_zero, Nat.add_zero] at ends
  rw [← ends, ← peel 16 (by decide), ← peel 8 (by decide), ← peel 0 (by decide), List.drop_zero]

/-- `CheckHash` answers on every 32-byte hash, and whether the product overflows is its answer. -/
theorem checkHash_eq (hash : Digest) (difficulty : UInt64) :
    checkHash hash.toList difficulty = .ok (decide (leValue hash.toList * difficulty.toNat < 2 ^ 256)) := by
  have whole : hash.toList.length = 32 := hash.length_toList
  unfold checkHash
  split
  next trivialDifficulty =>
    -- At difficulty 0 and 1 no hash overflows.
    have least : difficulty.toNat ≤ 1 := trivialDifficulty
    have bounded := leValue_lt hash.toList
    rw [whole] at bounded
    have under : leValue hash.toList * difficulty.toNat < 2 ^ 256 :=
      calc
        leValue hash.toList * difficulty.toNat ≤ leValue hash.toList * 1 := Nat.mul_le_mul_left _ least
        _ < 2 ^ 256 := by simpa using bounded
    rw [decide_eq_true under]
  next _ =>
    obtain ⟨w0, read0, value0⟩ := readUInt64LittleEndian_slice hash.toList 0 (by omega)
    obtain ⟨w1, read1, value1⟩ := readUInt64LittleEndian_slice hash.toList 8 (by omega)
    obtain ⟨w2, read2, value2⟩ := readUInt64LittleEndian_slice hash.toList 16 (by omega)
    obtain ⟨w3, read3, value3⟩ := readUInt64LittleEndian_slice hash.toList 24 (by omega)
    rw [read0, read1, read2, read3, leValue_words whole, ← value0, ← value1, ← value2, ← value3]
    refine congrArg Except.ok (Bool.eq_iff_iff.mpr ?_)
    rw [decide_eq_true_eq]
    exact checkWords_iff w0 w1 w2 w3 difficulty

/-- Little-endian value times difficulty, below `2 ^ 256`. -/
theorem checkHash_iff (hash : Digest) (difficulty : UInt64) :
    checkHash hash.toList difficulty = .ok true ↔ leValue hash.toList * difficulty.toNat < 2 ^ 256 := by
  rw [checkHash_eq, Except.ok.injEq, decide_eq_true_eq]

end ArcMiner.Rx.RxJob
