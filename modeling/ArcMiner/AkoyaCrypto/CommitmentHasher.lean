import ArcMiner.AkoyaCrypto.Blake3
import ArcMiner.Spec.Noise

/-! `Akoya.Crypto.CommitmentHasher`: the noise seeds on the host. -/

namespace ArcMiner.AkoyaCrypto.CommitmentHasher

open Library Library.CSharp Spec

def seedSaltA : Digest :=
  #v[0x82, 0x49, 0x40, 0x6C, 0xA0, 0xED, 0x15, 0x16, 0x96, 0x16, 0xF6, 0x92, 0xFC, 0xF0, 0x76, 0xF8,
     0x92, 0xDB, 0xDB, 0x2A, 0x70, 0x23, 0xB8, 0x52, 0xF0, 0xD4, 0x77, 0x19, 0xC3, 0x90, 0x01, 0x7B]

def seedSaltB : Digest :=
  #v[0x11, 0x30, 0x06, 0x32, 0xEC, 0x63, 0x01, 0xCA, 0x2B, 0xE2, 0xAF, 0x71, 0x8B, 0x3F, 0x4D, 0x4F,
     0x1A, 0xE9, 0xC6, 0x39, 0x88, 0xE8, 0xCC, 0x04, 0x48, 0x44, 0x30, 0x1D, 0x71, 0xB8, 0x9A, 0xA9]

/-- The root, the dimension at byte 32 and zeros up to byte 64. -/
def bindRoot (merkleRoot : Digest) (dim : Int32) (salt : Digest) : Result Digest :=
  HostBlake3.keyedHash salt (merkleRoot.toList ++ (wordBytes dim.toUInt32 ++ List.replicate 28 0))

/-- `DeriveNoiseSeeds`; the source returns the seeds as a pair with `BNoiseSeed` first. -/
def deriveNoiseSeeds (jobKey hashA hashB : Digest) (m n : Int32) (salted : Bool) : Result Seeds := do
  let boundA ← if salted then bindRoot hashA m seedSaltA else .ok hashA
  let boundB ← if salted then bindRoot hashB n seedSaltB else .ok hashB
  let bNoiseSeed ← HostBlake3.hash (jobKey.toList ++ boundB.toList)
  let aNoiseSeed ← HostBlake3.hash (bNoiseSeed.toList ++ boundA.toList)
  return ⟨aNoiseSeed, bNoiseSeed⟩

theorem bindRoot_eq (merkleRoot : Digest) (dim : Int32) (salt : Digest) :
    bindRoot merkleRoot dim salt = .ok (boundRoot salt merkleRoot dim.toUInt32) :=
  HostBlake3.keyedHash_eq salt (by rw [← boundMessage, length_boundMessage]; decide)

theorem hash_pair (left right : Digest) :
    HostBlake3.hash (left.toList ++ right.toList) = .ok (Blake3.rootChunk .unkeyed (left.toList ++ right.toList)) :=
  HostBlake3.hash_eq (by rw [length_pair]; decide)

theorem deriveNoiseSeeds_eq (jobKey hashA hashB : Digest) (m n : Int32) (salted : Bool) :
    deriveNoiseSeeds jobKey hashA hashB m n salted =
      .ok (noiseSeeds seedSaltA seedSaltB jobKey hashA hashB m.toUInt32 n.toUInt32 salted) := by
  unfold deriveNoiseSeeds noiseSeeds
  cases salted with
  | false =>
    simp only [Bool.false_eq_true, if_false, hash_pair, ok_bind]
    rfl
  | true =>
    simp only [if_true, bindRoot_eq, hash_pair, ok_bind]
    rfl

end ArcMiner.AkoyaCrypto.CommitmentHasher
