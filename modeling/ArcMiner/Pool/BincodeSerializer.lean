import ArcMiner.Library.Bincode
import ArcMiner.Prl.ShareBuilder

/-! The proof that a share carries to the pool: what `BincodeSerializer` writes and what the pool reads.

The pool reads a `PlainProof` of usizes and two `MatrixMerkleProof`s. The Merkle proof in it
is the one of pearl-blake3, whose leaves go through `serde_chunk_vec`.
-/

namespace ArcMiner.Pool

open Library Library.Bincode Library.Reader PearlBlake3 Prl.ShareBuilder List

namespace BincodeSerializer

def writeUlong (value : Nat) : List UInt8 := longBytes value.toUInt64

def writeIndices (indices : List UInt32) : List UInt8 :=
  writeUlong indices.length ++ indices.flatMap (fun idx => writeUlong idx.toNat)

def writeMerkleProof (proof : ProtoMerkleProof) (root : Digest) : List UInt8 :=
  (writeUlong proof.leafData.length ++ proof.leafData.flatMap (fun leaf => writeUlong leaf.length ++ leaf)) ++
    (writeIndices proof.leafIndices ++
      (writeUlong proof.totalLeaves.toNat ++
        (root.toList ++
          (writeUlong proof.siblings.length ++ proof.siblings.flatMap (fun sib => sib.toList)))))

def writeMatrixMerkleProof (proof : ProtoMerkleProof) (root : Digest) (rowIndices : List UInt32) : List UInt8 :=
  writeMerkleProof proof root ++ writeIndices rowIndices

def serialize (share : ShareSubmission) : List UInt8 :=
  writeUlong share.m.toNat ++
    (writeUlong share.n.toNat ++
      (writeUlong share.k.toNat ++
        (writeUlong share.noiseRank.toNat ++
          (writeMatrixMerkleProof share.aProof share.hashA share.aRowIndices ++
            writeMatrixMerkleProof share.bProof share.hashB share.bColIndices))))

end BincodeSerializer

structure MatrixMerkleProof where
  proof : MerkleProof Digest
  rowIndices : List Nat

structure PlainProof where
  m : Nat
  n : Nat
  k : Nat
  noiseRank : Nat
  a : MatrixMerkleProof
  bt : MatrixMerkleProof

def toChunk (bytes : List UInt8) : Option Chunk :=
  if size : bytes.length = chunkLen then some ⟨bytes, size⟩ else none

def chunkVec : Reader UInt8 (List Chunk) := do
  let vecs ← vec (vec u8)
  liftM (vecs.mapM toChunk)

def merkleProof : Reader UInt8 (MerkleProof Digest) := do
  let leafData ← chunkVec
  let leafIndices ← vec usize
  let totalLeaves ← usize
  let root ← array u8 32
  let siblings ← vec (array u8 32)
  pure { leafData, leafIndices, totalLeaves, root, siblings }

def matrixMerkleProof : Reader UInt8 MatrixMerkleProof := do
  let proof ← merkleProof
  let rowIndices ← vec usize
  pure { proof, rowIndices }

def plainProof : Reader UInt8 PlainProof := do
  let m ← usize
  let n ← usize
  let k ← usize
  let noiseRank ← usize
  let a ← matrixMerkleProof
  let bt ← matrixMerkleProof
  pure { m, n, k, noiseRank, a, bt }

/-- Leaves of one chunk each, and lists whose `Count` is an `int`. -/
structure WellFormed (proof : ProtoMerkleProof) : Prop where
  chunks : ∀ leaf ∈ proof.leafData, leaf.length = chunkLen
  leaves : proof.leafData.length < 2 ^ 31
  indices : proof.leafIndices.length < 2 ^ 31
  siblings : proof.siblings.length < 2 ^ 31

structure Carries (read : MatrixMerkleProof) (proof : ProtoMerkleProof) (root : Digest) (indices : List UInt32) : Prop where
  leafData : read.proof.leafData.map Chunk.bytes = proof.leafData
  leafIndices : read.proof.leafIndices = proof.leafIndices.map UInt32.toNat
  totalLeaves : read.proof.totalLeaves = proof.totalLeaves.toNat
  root : read.proof.root = root
  siblings : read.proof.siblings = proof.siblings
  rowIndices : read.rowIndices = indices.map UInt32.toNat

open BincodeSerializer

theorem reads_writeUlong {value : Nat} (fits : value < 2 ^ 64) : Reads usize (writeUlong value) value := reads_usize fits

theorem reads_uint (value : UInt32) : Reads usize (writeUlong value.toNat) value.toNat :=
  reads_writeUlong (Nat.lt_trans value.toNat_lt (by decide))

theorem reads_writeIndices {indices : List UInt32} (fits : indices.length < 2 ^ 31) :
    Reads (vec usize) (writeIndices indices) (indices.map UInt32.toNat) :=
  reads_vec (Nat.lt_trans fits (by decide)) (fun idx _ => reads_uint idx)

theorem reads_leaf {leaf : List UInt8} (fits : leaf.length < 2 ^ 64) : Reads (vec u8) (writeUlong leaf.length ++ leaf) leaf :=
  (reads_writeUlong fits).bind (reads_tokens leaf)

theorem mapM_toChunk {leaves : List (List UInt8)} (chunks : ∀ leaf ∈ leaves, leaf.length = chunkLen) :
    ∃ read, leaves.mapM toChunk = some read ∧ read.map Chunk.bytes = leaves := by
  induction leaves with
  | nil => exact ⟨[], rfl, rfl⟩
  | cons leaf leaves ih =>
    obtain ⟨read, converted, same⟩ := ih (fun later member => chunks later (mem_cons_of_mem leaf member))
    have size := chunks leaf mem_cons_self
    have first : toChunk leaf = some ⟨leaf, size⟩ := dif_pos size
    refine ⟨⟨leaf, size⟩ :: read, ?_, by rw [map_cons, same]⟩
    rw [mapM_cons, first, converted]
    rfl

theorem reads_leafData {proof : ProtoMerkleProof} (known : WellFormed proof) :
    ∃ read, Reads chunkVec (writeUlong proof.leafData.length ++
      proof.leafData.flatMap (fun leaf => writeUlong leaf.length ++ leaf)) read ∧
        read.map Chunk.bytes = proof.leafData := by
  obtain ⟨read, converted, same⟩ := mapM_toChunk known.chunks
  refine ⟨read, ?_, same⟩
  have vecs : Reads (vec (vec u8)) (writeUlong proof.leafData.length ++
      proof.leafData.flatMap (fun leaf => writeUlong leaf.length ++ leaf)) (proof.leafData.map id) := by
    refine reads_vec (Nat.lt_trans known.leaves (by decide)) (fun leaf member => reads_leaf ?_)
    rw [known.chunks leaf member]
    decide
  rw [map_id] at vecs
  have done : Reads (liftM (proof.leafData.mapM toChunk) : Reader UInt8 (List Chunk)) [] read := by
    rw [converted]
    exact Reads.pure read
  have all : Reads chunkVec (_ ++ []) read := vecs.bind done
  rwa [append_nil] at all

theorem reads_siblings {siblings : List Digest} (fits : siblings.length < 2 ^ 31) :
    Reads (vec (array u8 32)) (writeUlong siblings.length ++ siblings.flatMap (fun sib => sib.toList)) siblings := by
  have read : Reads (vec (array u8 32)) (writeUlong siblings.length ++ siblings.flatMap (fun sib => sib.toList))
      (siblings.map id) := reads_vec (Nat.lt_trans fits (by decide)) (fun sib _ => reads_array sib)
  rwa [map_id] at read

theorem reads_matrixMerkleProof {proof : ProtoMerkleProof} (known : WellFormed proof) (root : Digest)
    {indices : List UInt32} (fits : indices.length < 2 ^ 31) :
    ∃ read, Reads matrixMerkleProof (writeMatrixMerkleProof proof root indices) read ∧
      Carries read proof root indices := by
  obtain ⟨leafData, leaves, same⟩ := reads_leafData known
  have merkle : Reads merkleProof (writeMerkleProof proof root)
      ⟨leafData, proof.leafIndices.map UInt32.toNat, proof.totalLeaves.toNat, root, proof.siblings⟩ :=
    leaves.bind ((reads_writeIndices known.indices).bind ((reads_uint proof.totalLeaves).bind
      ((reads_array root).bind ((reads_siblings known.siblings).map (MerkleProof.mk leafData _ _ root)))))
  exact ⟨_, merkle.bind ((reads_writeIndices fits).map (MatrixMerkleProof.mk _)), same, rfl, rfl, rfl, rfl, rfl⟩

/-- The pool reads every byte of what the miner writes, and finds the share's dimensions, proofs, roots and indices. -/
theorem serialize_read_back {share : ShareSubmission} (aKnown : WellFormed share.aProof) (bKnown : WellFormed share.bProof)
    (rows : share.aRowIndices.length < 2 ^ 31) (cols : share.bColIndices.length < 2 ^ 31) :
    ∃ read, plainProof (serialize share) = some (read, []) ∧
      (read.m = share.m.toNat ∧ read.n = share.n.toNat ∧ read.k = share.k.toNat ∧ read.noiseRank = share.noiseRank.toNat) ∧
      Carries read.a share.aProof share.hashA share.aRowIndices ∧
      Carries read.bt share.bProof share.hashB share.bColIndices := by
  obtain ⟨a, aRead, aCarries⟩ := reads_matrixMerkleProof aKnown share.hashA rows
  obtain ⟨bt, btRead, btCarries⟩ := reads_matrixMerkleProof bKnown share.hashB cols
  refine ⟨⟨share.m.toNat, share.n.toNat, share.k.toNat, share.noiseRank.toNat, a, bt⟩, ?_, ⟨rfl, rfl, rfl, rfl⟩,
    aCarries, btCarries⟩
  have all : Reads plainProof (serialize share) ⟨_, _, _, _, a, bt⟩ :=
    (reads_uint share.m).bind ((reads_uint share.n).bind ((reads_uint share.k).bind ((reads_uint share.noiseRank).bind
      (aRead.bind (btRead.map (PlainProof.mk _ _ _ _ a))))))
  have whole := all []
  rwa [append_nil] at whole

theorem serialize_read_back_small :
    ∃ share : ShareSubmission, share.aRowIndices = [0, 8] ∧ ∃ read, plainProof (serialize share) = some (read, []) ∧
      read.m = 128 ∧ read.a.rowIndices = [0, 8] ∧ read.a.proof.siblings = [Vector.replicate 32 7] := by
  let proof : ProtoMerkleProof := ⟨2, [replicate 1024 1], [0], [Vector.replicate 32 7]⟩
  have known : WellFormed proof :=
    ⟨fun leaf member => by rw [mem_singleton.mp member, length_replicate]; rfl, by decide, by decide, by decide⟩
  let share : ShareSubmission :=
    ⟨[], [], Vector.replicate 32 1, Vector.replicate 32 2, [], [], proof, proof, Vector.replicate 32 0, 0, 0, 0,
      128, 256, 1024, 64, [0, 8], [1], [], none⟩
  obtain ⟨read, whole, ⟨m, -⟩, a, -⟩ := @serialize_read_back share known known (by decide) (by decide)
  exact ⟨share, rfl, read, whole, m, a.rowIndices, a.siblings⟩

end ArcMiner.Pool
