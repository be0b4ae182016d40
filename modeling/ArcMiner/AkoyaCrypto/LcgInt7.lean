import ArcMiner.Library.Tabulate
import ArcMiner.Library.LittleEndian

/-! `Akoya.Crypto.LcgInt7`: the replay of the signal matrix on the host. -/

namespace ArcMiner.AkoyaCrypto.LcgInt7

open Library

def splitMix64 (z : UInt64) : UInt64 :=
  let z := z + 0x9E3779B97F4A7C15
  let z := (z ^^^ (z >>> 30)) * 0xBF58476D1CE4E5B9
  let z := (z ^^^ (z >>> 27)) * 0x94D049BB133111EB
  z ^^^ (z >>> 31)

def baseSeed (seedLo seedHi : UInt64) : UInt64 := splitMix64 (seedLo ^^^ splitMix64 seedHi)

/-- Byte `b` of a word, reduced to seven bits with sign. -/
def int7 (z : UInt64) (b : Nat) : Int8 :=
  let v := ((z >>> (b * 8).toUInt64) &&& 0xFF).toUInt32
  let r := v % 127
  Int8.ofInt (r.toNat - 63)

/-- `Fill` on a span of `n` places, in the order in which it writes them. -/
def fill (n : Nat) (seedLo seedHi : UInt64) : List Int8 :=
  let seed := baseSeed seedLo seedHi
  let n8 := n / 8
  let whole := (List.range n8).flatMap fun i =>
    let z := splitMix64 (seed + i.toUInt64)
    (List.range 8).map fun b => int7 z b
  let tailLen := n - n8 * 8
  let tail :=
    if 0 < tailLen then
      let z := splitMix64 (seed + n8.toUInt64)
      (List.range tailLen).map fun b => int7 z b
    else []
  whole ++ tail

def entry (base : UInt64) (p : Nat) : Int8 := int7 (splitMix64 (base + (p / 8).toUInt64)) (p % 8)

theorem fill_eq (n : Nat) (seedLo seedHi : UInt64) :
    fill n seedLo seedHi = tabulate (entry (baseSeed seedLo seedHi)) n := by
  generalize base : baseSeed seedLo seedHi = seed
  have row : ∀ i len, len ≤ 8 → (List.range len).map (fun b => int7 (splitMix64 (seed + i.toUInt64)) b) =
      tabulate (fun b => entry seed (i * 8 + b)) len := by
    intro i len small
    refine tabulate_congr fun b inside => ?_
    have quotient : (i * 8 + b) / 8 = i := by omega
    have rest : (i * 8 + b) % 8 = b := by omega
    rw [entry, quotient, rest]
  unfold fill
  simp only [base, row _ 8 (Nat.le_refl 8), row _ (n - n / 8 * 8) (by omega)]
  rw [flatMap_blocks]
  split
  next some =>
    have parts : n / 8 * 8 + (n - n / 8 * 8) = n := by omega
    rw [← tabulate_add, parts]
  next none =>
    have multiple : n / 8 * 8 = n := by omega
    rw [List.append_nil, multiple]

end ArcMiner.AkoyaCrypto.LcgInt7
