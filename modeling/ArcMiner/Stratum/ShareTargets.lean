import ArcMiner.Library.Blake3
import ArcMiner.Library.DigitOrder

/-! How the clients of the Bitcoin dialect compare a hash with a target.

All of them compare numbers of 256 bits word by word, from the most significant word on. They differ in
the width and in the order of the words.
-/

namespace ArcMiner.Stratum

open Library Nat UInt32

abbrev Words := Vector UInt32 8

abbrev Lanes := Vector UInt64 4

namespace GrHash

def hashWords (hash : Digest) : List UInt32 := (List.range 8).map fun i => leWordAt hash.toList (4 * i)

def hashValue (hash : Digest) : Nat := ofDigits (2 ^ 32) ((hashWords hash).map toNat)

def targetValue (target : Words) : Nat := ofDigits (2 ^ 32) (target.toList.map toNat)

def meetsTarget (hash : Digest) (target : Words) : Bool :=
  digitsLe ((hashWords hash).reverse.map toNat) (target.toList.reverse.map toNat)

theorem meetsTarget_iff (hash : Digest) (target : Words) :
    meetsTarget hash target = true ↔ hashValue hash ≤ targetValue target := by
  have same : (hashWords hash).reverse.length = target.toList.reverse.length := by simp [hashWords]
  have compared := digitsLe_map_iff (by decide : 1 < 2 ^ 32) toNat_lt same
  rwa [List.reverse_reverse, List.reverse_reverse] at compared

end GrHash

namespace CsdSha256d

def value (words : Words) : Nat := ofDigits (2 ^ 32) (words.toList.reverse.map toNat)

def leTarget (h t : Words) : Bool := digitsLe (h.toList.map toNat) (t.toList.map toNat)

theorem leTarget_iff (h t : Words) : leTarget h t = true ↔ value h ≤ value t :=
  digitsLe_map_iff (by decide : 1 < 2 ^ 32) toNat_lt (by simp)

end CsdSha256d

namespace Sha3tHash

def value (lanes : Lanes) : Nat := ofDigits (2 ^ 64) (lanes.toList.map UInt64.toNat)

def meetsTarget (digest target : Lanes) : Bool :=
  digitsLe (digest.toList.reverse.map UInt64.toNat) (target.toList.reverse.map UInt64.toNat)

theorem meetsTarget_iff (digest target : Lanes) : meetsTarget digest target = true ↔ value digest ≤ value target := by
  have same : digest.toList.reverse.length = target.toList.reverse.length := by simp
  have compared := digitsLe_map_iff (by decide : 1 < 2 ^ 64) UInt64.toNat_lt same
  rwa [List.reverse_reverse, List.reverse_reverse] at compared

end Sha3tHash

/-- The test of the kernel, which is the one the host repeats. -/
def Sha3tKeccak.leTarget (h t : Lanes) : Bool :=
  digitsLe (h.toList.reverse.map UInt64.toNat) (t.toList.reverse.map UInt64.toNat)

end ArcMiner.Stratum
