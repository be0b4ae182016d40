import Mathlib.Tactic.Ring
import ArcMiner.Library.LittleEndian
import ArcMiner.Library.XorFold

/-! Numbers of several words, the least significant first. -/

namespace ArcMiner.Library

open Finset

def radixValue (base : Nat) (digit : Nat → Nat) (k : Nat) : Nat := ∑ j ∈ range k, digit j * base ^ j

theorem radixValue_succ (base : Nat) (digit : Nat → Nat) (k : Nat) :
    radixValue base digit (k + 1) = radixValue base digit k + digit k * base ^ k := sum_range_succ _ _

theorem radixValue_lt {base : Nat} {digit : Nat → Nat} {k : Nat} (digits : ∀ j < k, digit j < base) :
    radixValue base digit k < base ^ k := by
  induction k with
  | zero => simp [radixValue]
  | succ k ih =>
    have low := ih fun j inside => digits j (by omega)
    rw [radixValue_succ]
    calc radixValue base digit k + digit k * base ^ k < base ^ k + digit k * base ^ k := by omega
      _ = (digit k + 1) * base ^ k := (Nat.add_comm _ _).trans (Nat.succ_mul _ _).symm
      _ ≤ base * base ^ k := Nat.mul_le_mul_right _ (digits k (by omega))
      _ = base ^ (k + 1) := (Nat.pow_succ').symm

def wordsValue (w : Nat → UInt32) (k : Nat) : Nat := radixValue (2 ^ 32) (fun j => (w j).toNat) k

def bytesValue (b : Nat → UInt8) (k : Nat) : Nat := radixValue 256 (fun i => (b i).toNat) k

theorem wordsValue_succ (w : Nat → UInt32) (k : Nat) :
    wordsValue w (k + 1) = wordsValue w k + (w k).toNat * (2 ^ 32) ^ k := radixValue_succ _ _ _

theorem wordsValue_lt (w : Nat → UInt32) (k : Nat) : wordsValue w k < (2 ^ 32) ^ k :=
  radixValue_lt fun j _ => (w j).toNat_lt

theorem bytesValue_lt (b : Nat → UInt8) (k : Nat) : bytesValue b k < 256 ^ k :=
  radixValue_lt fun i _ => (b i).toNat_lt

theorem wordsValue_le_iff (w v : Nat → UInt32) (k : Nat) :
    wordsValue w (k + 1) ≤ wordsValue v (k + 1) ↔ w k < v k ∨ (w k = v k ∧ wordsValue w k ≤ wordsValue v k) := by
  have lowW := wordsValue_lt w k
  have lowV := wordsValue_lt v k
  rw [wordsValue_succ, wordsValue_succ, UInt32.lt_iff_toNat_lt, ← UInt32.toNat_inj]
  rcases Nat.lt_trichotomy (w k).toNat (v k).toNat with less | same | more
  · have gap := Nat.mul_le_mul_right ((2 ^ 32) ^ k) (show (w k).toNat + 1 ≤ (v k).toNat from less)
    rw [Nat.succ_mul] at gap
    exact ⟨fun _ => Or.inl less, fun _ => by omega⟩
  · rw [same]
    omega
  · have gap := Nat.mul_le_mul_right ((2 ^ 32) ^ k) (show (v k).toNat + 1 ≤ (w k).toNat from more)
    rw [Nat.succ_mul] at gap
    omega

theorem wordsValue_bytes {w : Nat → UInt32} {b : Nat → UInt8} {k : Nat}
    (loaded : ∀ j < k, w j = leWord (b (j * 4)) (b (j * 4 + 1)) (b (j * 4 + 2)) (b (j * 4 + 3))) :
    wordsValue w k = bytesValue b (k * 4) := by
  unfold wordsValue bytesValue radixValue
  rw [sum_range_segments]
  refine sum_congr rfl fun j member => ?_
  have place : (2 ^ 32) ^ j = 256 ^ (j * 4) := by
    rw [Nat.mul_comm, Nat.pow_mul]
    norm_num
  dsimp only
  rw [loaded j (mem_range.mp member), leWord_toNat, place]
  simp only [sum_range_succ, sum_range_zero, Nat.pow_add, Nat.add_zero]
  ring

theorem bytesValue_digits {b : Nat → UInt8} {n k : Nat} (digits : ∀ i < k, (b i).toNat = n / 256 ^ i % 256) :
    bytesValue b k = n % 256 ^ k := by
  induction k with
  | zero => simp [bytesValue, radixValue, Nat.mod_one]
  | succ k ih =>
    have last : bytesValue b (k + 1) = bytesValue b k + (b k).toNat * 256 ^ k := radixValue_succ _ _ _
    rw [last, ih fun i inside => digits i (by omega), digits k (by omega), Nat.pow_succ, Nat.mod_mul, Nat.mul_comm]

end ArcMiner.Library
