import ArcMiner.AkoyaCrypto.Blake3Xof
import ArcMiner.AkoyaCrypto.MerkleRoot
import ArcMiner.MiningCapi.BSeed

/-! `Akoya.Crypto.BSeedExpander`: B from its seed, in managed code. -/

namespace ArcMiner.AkoyaCrypto.BSeedExpander

open Library Library.CSharp MiningCapi Int

/-- `unchecked((byte)(sbyte)((x % 127) - 63))`. -/
def toInt7 (x : UInt8) : UInt8 := (Int8.ofInt ((x.toNat % 127 : Nat) - 63)).toUInt8

def checkedProduct (n k : Int) : Result Int :=
  if -2 ^ 31 ≤ n * k ∧ n * k < 2 ^ 31 then .ok (n * k) else .error .overflow

def expandRawInto (bSeed : Digest) (n k : Int) (destinationLength : Nat) : Result (List UInt8) := do
  if n ≤ 0 then throw (.argumentOutOfRange "n")
  if k ≤ 0 then throw (.argumentOutOfRange "k")
  let totalBytes ← checkedProduct n k
  if (destinationLength : Int) < totalBytes then
    throw (.argument s!"Destination must be at least {totalBytes} bytes.")
  let xofBuffer ← HostBlake3.xof bSeed.toList totalBytes.toNat
  return xofBuffer.map toInt7

def expandRaw (bSeed : Digest) (n k : Int) : Result (List UInt8) := do
  let length ← checkedProduct n k
  if length < 0 then throw .overflow
  expandRawInto bSeed n k length.toNat

def expandRangeRaw (bSeed : Digest) (byteOffset : UInt64) (length : Nat) : Result (List UInt8) := do
  if length = 0 then return []
  let xofSpan ← HostBlake3.xofAt bSeed.toList byteOffset length
  return xofSpan.map toInt7

theorem toInt7_eq (x : UInt8) : toInt7 x = mapXofByteToInt7 x := by
  have every : ∀ n < 256, toInt7 (UInt8.ofNat n) = mapXofByteToInt7 (UInt8.ofNat n) := by decide +kernel
  have here := every x.toNat x.toNat_lt
  rwa [UInt8.ofNat_toNat] at here

theorem map_toInt7 (bSeed : Digest) (offset length : Nat) :
    (tabulate (fun j => Blake3.xofByte .unkeyed bSeed.toList (offset + j)) length).map toInt7 =
      tabulate (fun j => bseedStream bSeed (offset + j)) length := by
  rw [tabulate, List.map_map]
  exact List.map_congr_left fun j _ => toInt7_eq _

theorem seed_single (bSeed : Digest) : bSeed.toList.length ≤ 1024 := by
  rw [Vector.length_toList]
  decide

theorem expandRaw_eq (bSeed : Digest) {n k : Nat} (rows : 0 < n) (columns : 0 < k) (fits : n * k < 2 ^ 31) :
    expandRaw bSeed n k = .ok (bseedMatrix bSeed (n * k)) := by
  have product : checkedProduct n k = .ok ((n * k : Nat) : Int) := by
    rw [checkedProduct, ← natCast_mul, if_pos (by omega)]
  have bytes := map_toInt7 bSeed 0 (n * k)
  simp only [Nat.zero_add] at bytes
  unfold expandRaw expandRawInto
  simp only [product, ok_bind]
  rw [if_neg (by omega), if_neg (by omega), if_neg (by omega)]
  simp only [toNat_natCast]
  rw [if_neg (by omega), HostBlake3.xof_eq (seed_single bSeed) (by omega), ok_bind, bytes]
  rfl

theorem expandRaw_ok {bSeed : Digest} {n k : Int} {whole : List UInt8} (expanded : expandRaw bSeed n k = .ok whole) :
    ∃ total < 2 ^ 31, whole = bseedMatrix bSeed total := by
  obtain ⟨length, product, into⟩ := bind_eq_ok.mp expanded
  have small : n * k < 2 ^ 31 := by
    unfold checkedProduct at product
    split at product
    next fits => exact fits.2
    next => cases product
  split at into
  next => cases into
  next =>
    have rows : 0 < n := by
      by_contra low
      have failed : expandRawInto bSeed n k length.toNat = .error (.argumentOutOfRange "n") := by
        rw [expandRawInto, if_pos (by omega)]
        rfl
      cases failed.symm.trans into
    have columns : 0 < k := by
      by_contra low
      have failed : expandRawInto bSeed n k length.toNat = .error (.argumentOutOfRange "k") := by
        rw [expandRawInto, if_neg (by omega)]
        dsimp only
        rw [if_pos (by omega)]
        rfl
      cases failed.symm.trans into
    obtain ⟨n, rfl⟩ := eq_ofNat_of_zero_le (Int.le_of_lt rows)
    obtain ⟨k, rfl⟩ := eq_ofNat_of_zero_le (Int.le_of_lt columns)
    have fits : n * k < 2 ^ 31 := by exact_mod_cast small
    rw [expandRaw_eq bSeed (by omega) (by omega) fits] at expanded
    exact ⟨n * k, fits, (Except.ok.inj expanded).symm⟩

theorem expandRangeRaw_eq (bSeed : Digest) (byteOffset : UInt64) {length : Nat}
    (small : byteOffset.toNat + length < 2 ^ 64 * 64) : expandRangeRaw bSeed byteOffset length =
      .ok (tabulate (fun j => bseedStream bSeed (byteOffset.toNat + j)) length) := by
  unfold expandRangeRaw
  split
  next none =>
    subst none
    rfl
  next some =>
    rw [HostBlake3.xofAt_eq (seed_single bSeed) byteOffset small, ok_bind, map_toInt7]
    rfl

end ArcMiner.AkoyaCrypto.BSeedExpander
