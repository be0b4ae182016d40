import ArcMiner.Library.JsonElement
import ArcMiner.Pool.TargetCodec

/-! The difficulty that a pool sets: how it is read, and the compact target it stands for.

A double is a rational number, an infinity or not a number. How a result in range is rounded
is left open.
-/

namespace ArcMiner.Pool

open Library Library.CSharp

inductive Double where
  | nan
  | infinite (negative : Bool)
  | finite (value : Rat)
deriving DecidableEq

namespace Double

/-- The least number that is rounded to an infinity: half a unit in the last place above the greatest double. -/
def overflow : Nat := 2 ^ 1024 - 2 ^ 970

def round (nearest : Rat → Rat) (exact : Rat) : Double :=
  if overflow ≤ exact then .infinite false
  else if exact ≤ -overflow then .infinite true
  else .finite (nearest exact)

def isPositive : Double → Bool
  | .nan => false
  | .infinite negative => !negative
  | .finite value => 0 < value

def maxOne : Double → Double
  | .nan => .nan
  | .infinite negative => if negative then .finite 1 else .infinite false
  | .finite value => .finite (max 1 value)

def toBigInteger : Double → Result Int
  | .finite value => .ok (if 0 ≤ value then value.floor else value.ceil)
  | _ => .error .overflow

end Double

namespace StratumSession

def diff1Target : Nat := 0xFFFF <<< 208

def scale : Nat := 1000000

/-- `ToByteArray(isUnsigned: true, isBigEndian: true)`. -/
def toByteArray (n : Nat) : List UInt8 :=
  if n = 0 then [0] else ((Nat.digits 256 n).map Nat.toUInt8).reverse

/-- What is no positive finite number counts as one. -/
def effective : Double → Rat
  | .finite value => if 0 < value then value else 1
  | _ => 1

def difficultyToNbits (nearest : Rat → Rat) (difficulty : Double) : Result UInt32 := do
  let scaledDiff ← (Double.round nearest (effective difficulty * scale)).maxOne.toBigInteger
  let target := diff1Target * scale / scaledDiff.toNat
  let raw := toByteArray target
  let be32 := if raw.length ≤ 32 then List.replicate (32 - raw.length) 0 ++ raw else List.replicate 32 0xFF
  return targetToNbits be32

section read
variable (toDouble : List Char → Double) (parseDouble : String → Option Double)

def tryParseString (units : List UInt16) : Result (Option Double) := do
  return (← JsonElement.getString (.string units)).bind parseDouble

/-- The first number of an array, or string that reads as one. -/
def firstDifficulty : List Json → Result (Option Double)
  | [] => .ok none
  | .number literal :: _ => .ok (some (toDouble literal))
  | .string units :: rest => do
    match ← tryParseString parseDouble units with
    | some diff => return some diff
    | none => firstDifficulty rest
  | _ :: rest => firstDifficulty rest

def tryReadDifficulty : Json → Result (Option Double)
  | .array items => firstDifficulty toDouble parseDouble items
  | .number literal => .ok (some (toDouble literal))
  | .string units => tryParseString parseDouble units
  | _ => .ok none

end read

def Overflows : Double → Prop
  | .finite value => (Double.overflow : Rat) ≤ value * scale
  | _ => False

instance : ∀ difficulty, Decidable (Overflows difficulty)
  | .finite value => inferInstanceAs (Decidable ((Double.overflow : Rat) ≤ value * scale))
  | .nan | .infinite _ => inferInstanceAs (Decidable False)

theorem scaled_in_range (nearest : Rat → Rat) {value : Rat} (small : ¬ (Double.overflow : Rat) ≤ value * scale) :
    ∃ scaledDiff, (Double.round nearest (value * scale)).maxOne.toBigInteger = .ok scaledDiff := by
  rw [Double.round, if_neg small]
  split
  · exact ⟨_, rfl⟩
  · exact ⟨_, rfl⟩

theorem not_overflow_one : ¬ (Double.overflow : Rat) ≤ 1 * scale := by
  rw [one_mul, Nat.cast_le]
  decide +kernel

theorem not_overflow_of_nonpos {value : Rat} (small : ¬ 0 < value) : ¬ (Double.overflow : Rat) ≤ value * scale := by
  have one := not_overflow_one
  have below : value * scale ≤ 1 * scale := by gcongr; linarith
  exact fun large => one (large.trans below)

theorem overflows_iff (difficulty : Double) :
    Overflows difficulty ↔ (Double.overflow : Rat) ≤ effective difficulty * scale := by
  cases difficulty with
  | nan => exact iff_of_false id not_overflow_one
  | infinite negative => exact iff_of_false id not_overflow_one
  | finite value =>
    by_cases positive : 0 < value
    · rw [show effective (.finite value) = value from if_pos positive]
      rfl
    · rw [show effective (.finite value) = 1 from if_neg positive]
      exact iff_of_false (not_overflow_of_nonpos positive) not_overflow_one

/-- The conversion throws exactly for a difficulty that is finite and is not any more once it is scaled. -/
theorem difficultyToNbits_cases (nearest : Rat → Rat) (difficulty : Double) :
    (¬ Overflows difficulty ∧ ∃ nbits, difficultyToNbits nearest difficulty = .ok nbits) ∨
      (Overflows difficulty ∧ difficultyToNbits nearest difficulty = .error .overflow) := by
  rw [overflows_iff]
  by_cases large : (Double.overflow : Rat) ≤ effective difficulty * scale
  · refine .inr ⟨large, ?_⟩
    rw [difficultyToNbits, Double.round, if_pos large]
    rfl
  · obtain ⟨scaledDiff, scaled⟩ := scaled_in_range nearest large
    exact .inl ⟨large, _, by rw [difficultyToNbits, scaled]; rfl⟩

end StratumSession
end ArcMiner.Pool
