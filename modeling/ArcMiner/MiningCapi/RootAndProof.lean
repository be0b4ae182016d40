import ArcMiner.PearlBlake3.Completeness

/-! `pearl_capi_merkle_root_and_proof` and `pearl_capi_merkle_verify_proof`.

Both run their body under `catch_unwind`: an error message becomes code 1, a
panic code 2. Buffers passed from C are null or a slice.
-/

namespace ArcMiner.MiningCapi

open Library Library.Rust PearlBlake3 List Nat Blake3 UInt32
open Blake3Hasher (withKey)

inductive Buffer (α : Type) where
  | null (len : Nat)
  | slice (contents : List α) (fits : contents.length < 2 ^ 63)

namespace Buffer
variable {α : Type}

def len : Buffer α → Nat
  | null len => len
  | slice contents _ => contents.length

def isNull : Buffer α → Bool
  | null _ => true
  | slice _ _ => false

def contents : Buffer α → List α
  | null _ => []
  | slice contents _ => contents

end Buffer

/-- What the caller of an exported function sees. -/
structure CResult (α : Type) where
  code : Nat
  message : Option String
  output : Option α
deriving DecidableEq

def ok : Nat := 0
def badArg : Nat := 1
def internal : Nat := 2

def catchUnwind {α : Type} (panicked : String) : Result α → CResult α
  | .ok value => ⟨ok, none, some value⟩
  | .error (.error message) => ⟨badArg, some message, none⟩
  | .error (.panic _) => ⟨internal, some panicked, none⟩

structure ProofOutput where
  root : Digest
  totalLeaves : UInt32
  leafData : List Chunk
  leafIndices : List UInt32
  siblings : List Digest
deriving DecidableEq

def fail {α : Type} (message : String) : Result α := .error (.error message)

/-- `pad_to_chunk_boundary` and `MerkleTree::new`; a vector beyond `isize::MAX` cannot be allocated. -/
def paddedTree (crate : Blake3Crate) (data : List UInt8) (key : Digest) : Result (MerkleTree Digest) :=
  if fits : (padToChunkBoundary data).length < 2 ^ 63 then
    .ok (MerkleTree.new crate ⟨padToChunkBoundary data, fits⟩ key)
  else .error (.panic "capacity overflow")

def rowMessage (numRows dataLen rowWidth bad : Nat) : String :=
  s!"row index {bad} out of bounds (num_rows={numRows}, data_len={dataLen}, row_width={rowWidth})"

def rootAndProof (crate : Blake3Crate) (outParameters : Bool) (data : Buffer UInt8) (key : Option Digest)
    (rowIndices : Buffer UInt32) (rowWidth : Nat) : Result ProofOutput := do
  let key ← require key "required out-parameter pointer was null"
  reject (!outParameters) "required out-parameter pointer was null"
  reject (decide (0 < data.len) && data.isNull) "data_ptr null with non-zero data_len"
  reject (decide (0 < rowIndices.len) && rowIndices.isNull)
    "row_indices_ptr null with non-zero row_indices_len"
  reject (rowWidth == 0) "row_width must be > 0"
  reject (rowIndices.len == 0) "row_indices_len must be > 0"
  let rows := rowIndices.contents.map toNat
  let tree ← paddedTree crate data.contents key
  let totalLeaves ← tree.numLeaves
  let numRows := data.contents.length / rowWidth
  rejectSome (rows.find? fun r => decide (max numRows 1 ≤ r))
    (rowMessage numRows data.contents.length rowWidth)
  let proof ← tree.getMultileafProof (MerkleTree.computeLeafIndicesFromRows rows rowWidth)
  return ⟨proof.root, totalLeaves.toUInt32, proof.leafData, proof.leafIndices.map toUInt32, proof.siblings⟩

def merkleRootAndProof (crate : Blake3Crate) (outParameters : Bool) (data : Buffer UInt8) (key : Option Digest)
    (rowIndices : Buffer UInt32) (rowWidth : Nat) : CResult ProofOutput :=
  catchUnwind "panic during merkle_root_and_proof"
    (rootAndProof crate outParameters data key rowIndices rowWidth)

def hexByte (byte : UInt8) : String :=
  let digits := toDigits 16 byte.toNat
  String.ofList (if digits.length < 2 then '0' :: digits else digits)

def hexDigest (digest : Digest) : String := String.join (digest.toList.map hexByte)

def mismatchMessage (expected computed : Digest) : String :=
  let expectedHex := hexDigest expected
  let actualHex := hexDigest computed
  s!"root mismatch: expected={expectedHex}, computed={actualHex}"

def verifyProof (crate : Blake3Crate) (leafData : Option (List Chunk)) (leafIndices : Option (List UInt32))
    (leafCount totalLeaves : Nat) (siblings : Option (List Digest)) (siblingCount : Nat)
    (key expectedRoot : Option Digest) : Result Unit := do
  let key ← require key "key/root pointers must be non-null"
  let expectedRoot ← require expectedRoot "key/root pointers must be non-null"
  reject (leafCount == 0) "leaf_count must be > 0"
  let leafData ← require leafData "leaf_data/indices pointers must be non-null"
  let leafIndices ← require leafIndices "leaf_data/indices pointers must be non-null"
  reject (decide (0 < siblingCount) && siblings.isNone) "siblings_ptr null with non-zero sibling_count"
  let proof : MerkleProof Digest :=
    ⟨leafData.take leafCount, (leafIndices.take leafCount).map toNat, totalLeaves, expectedRoot,
      (siblings.getD []).take siblingCount⟩
  match ← proof.computeRoot crate key with
  | some root => reject (root != expectedRoot) (mismatchMessage expectedRoot root)
  | none => fail "proof verification failed (invalid structure or siblings)"

def merkleVerifyProof (crate : Blake3Crate) (leafData : Option (List Chunk)) (leafIndices : Option (List UInt32))
    (leafCount totalLeaves : Nat) (siblings : Option (List Digest)) (siblingCount : Nat)
    (key expectedRoot : Option Digest) : CResult Unit :=
  catchUnwind "panic during merkle_verify_proof"
    (verifyProof crate leafData leafIndices leafCount totalLeaves siblings siblingCount key expectedRoot)

/-- Hand the outputs of `merkle_root_and_proof` back for verification; empty siblings are a null pointer. -/
def verifyOutput (crate : Blake3Crate) (key : Digest) (out : ProofOutput) : CResult Unit :=
  merkleVerifyProof crate (some out.leafData) (some out.leafIndices) out.leafIndices.length
    out.totalLeaves.toNat (if out.siblings.isEmpty then none else some out.siblings) out.siblings.length
    (some key) (some out.root)

theorem catchUnwind_eq_ok {α : Type} {panicked : String} {result : Result α} {value : α} :
    catchUnwind panicked result = ⟨ok, none, some value⟩ ↔ result = .ok value := by
  cases result with
  | ok other => simp [catchUnwind]
  | error why => cases why <;> simp [catchUnwind]

theorem catchUnwind_code {α : Type} {panicked : String} {result : Result α} :
    (catchUnwind panicked result).code = ok ↔ ∃ value, result = .ok value := by
  cases result with
  | ok value => simp [catchUnwind]
  | error why => cases why <;> simp [catchUnwind, ok, badArg, internal]

theorem rootAndProof_eq_ok {crate : Blake3Crate} {data : List UInt8} {fits : data.length < 2 ^ 63} {key : Digest}
    {rows : List UInt32} {rowsFit : rows.length < 2 ^ 63} {rowWidth : Nat} {out : ProofOutput} :
    rootAndProof crate true (.slice data fits) (some key) (.slice rows rowsFit) rowWidth = .ok out ↔
      rowWidth ≠ 0 ∧ rows ≠ [] ∧ ∃ tree, paddedTree crate data key = .ok tree ∧
      ∃ total, tree.numLeaves = .ok total ∧
      (∀ r ∈ rows, r.toNat < max (data.length / rowWidth) 1) ∧
      ∃ proof, tree.getMultileafProof (MerkleTree.computeLeafIndicesFromRows (rows.map toNat) rowWidth) =
          .ok proof ∧
        (⟨proof.root, total.toUInt32, proof.leafData, proof.leafIndices.map toUInt32, proof.siblings⟩ :
          ProofOutput) = out := by
  have inRange : (∀ r ∈ rows, data.length / rowWidth ≤ r.toNat → r.toNat = 0) ↔
      ∀ r ∈ rows, r.toNat < max (data.length / rowWidth) 1 :=
    forall₂_congr fun r _ => by omega
  rw [← inRange]
  simp [rootAndProof, bind_eq_ok, require_eq_ok, reject_eq_ok, rejectSome_eq_ok, Buffer.isNull, Buffer.len,
    Buffer.contents, pure, Except.pure]

theorem verifyProof_eq_ok {crate : Blake3Crate} {leafData : List Chunk} {leafIndices : List UInt32}
    {key root : Digest} {count total : Nat} {siblings : Option (List Digest)} {siblingCount : Nat} {result : Unit} :
    verifyProof crate (some leafData) (some leafIndices) count total siblings siblingCount (some key) (some root) =
        .ok result ↔
      count ≠ 0 ∧ ¬ (0 < siblingCount ∧ siblings.isNone = true) ∧
      MerkleProof.computeRoot crate ⟨leafData.take count, (leafIndices.take count).map toNat, total,
        root, (siblings.getD []).take siblingCount⟩ key = .ok (some root) := by
  have answer : ∀ computed : Result (Option Digest),
      (computed >>= fun answer => match answer with
        | some found => reject (found != root) (mismatchMessage root found)
        | none => fail "proof verification failed (invalid structure or siblings)") = .ok result ↔
      computed = .ok (some root) := by
    intro computed
    cases computed with
    | error why => simp
    | ok found => cases found <;> simp [reject_eq_ok, fail]
  rw [← answer]
  simp only [verifyProof, require, ok_bind]
  by_cases empty : count = 0
  · simp [empty, reject]
  by_cases missing : 0 < siblingCount ∧ siblings.isNone = true
  · simp [empty, missing, reject]
  · have given : (decide (0 < siblingCount) && siblings.isNone) = false := by
      apply Bool.eq_false_iff.mpr
      simpa only [Bool.and_eq_true, decide_eq_true_eq, ne_eq] using missing
    simp only [empty, given, reject, missing, beq_iff_eq, ne_eq, not_false_eq_true, true_and, ↓reduceIte, ok_bind,
      Bool.false_eq_true]

theorem length_padToChunkBoundary (data : List UInt8) :
    (padToChunkBoundary data).length = paddedChunkLen data.length := by
  simp only [padToChunkBoundary, length_append, length_replicate, paddedChunkLen, divCeil, chunkLen]
  omega

section single
variable {crate : Blake3Crate} (conforms : crate.Conforms) (key : Digest) {data : List UInt8}
  (nonempty : data ≠ []) (small : data.length ≤ 1024)

include nonempty small in
theorem length_padded_single : (padToChunkBoundary data).length = 1024 := by
  have positive := length_pos_iff.mpr nonempty
  rw [length_padToChunkBoundary, paddedChunkLen, divCeil, chunkLen]
  omega

include nonempty small in
theorem paddedTree_single : paddedTree crate data key =
    .ok ⟨key, [[(withKey key).hash crate (padToChunkBoundary data)]], padToChunkBoundary data⟩ := by
  have length := length_padded_single nonempty small
  have filled : (padToChunkBoundary data).isEmpty = false := by
    rw [isEmpty_eq_false_iff, ← length_pos_iff]
    omega
  unfold paddedTree MerkleTree.new MerkleTree.build
  rw [dif_pos (by omega)]
  simp only [filled, length, chunkLen]
  rfl

def singleOutput (crate : Blake3Crate) : ProofOutput :=
  ⟨(withKey key).hash crate (padToChunkBoundary data), 1,
    [⟨padToChunkBoundary data, length_padded_single nonempty small⟩], [0], []⟩

theorem rootAndProof_single {fits : data.length < 2 ^ 63} {rows : List UInt32} {rowsFit : rows.length < 2 ^ 63}
    {rowWidth : Nat} {out : ProofOutput} :
    rootAndProof crate true (.slice data fits) (some key) (.slice rows rowsFit) rowWidth = .ok out ↔
      rowWidth ≠ 0 ∧ rows ≠ [] ∧ (∀ r ∈ rows, r.toNat < max (data.length / rowWidth) 1) ∧
      MerkleTree.computeLeafIndicesFromRows (rows.map toNat) rowWidth ≠ [] ∧
      (∀ i ∈ MerkleTree.computeLeafIndicesFromRows (rows.map toNat) rowWidth, i < 1) ∧
      out = singleOutput key nonempty small crate := by
  let tree : MerkleTree Digest :=
    ⟨key, [[(withKey key).hash crate (padToChunkBoundary data)]], padToChunkBoundary data⟩
  have built : paddedTree crate data key = .ok tree := paddedTree_single key nonempty small
  have counted : tree.numLeaves = .ok 1 := rfl
  have chunk : tree.leafChunk 0 = ⟨padToChunkBoundary data, length_padded_single nonempty small⟩ := by
    have length := length_padded_single nonempty small
    simp [tree, MerkleTree.leafChunk, chunkAt, rightpad, chunkLen, take_of_length_le, length]
  have output : (⟨(withKey key).hash crate (padToChunkBoundary data), toUInt32 1,
      [tree.leafChunk 0], [0].map toUInt32, []⟩ : ProofOutput) = singleOutput key nonempty small crate := by
    rw [chunk]
    rfl
  rw [rootAndProof_eq_ok, built]
  constructor
  · rintro ⟨width, given, _, same, _, total, inRange, proof, opened, rfl⟩
    cases same
    obtain ⟨some_leaf, zeros⟩ := getMultileafProof_inRange rfl opened
    have made := getMultileafProof_single key ((withKey key).hash crate (padToChunkBoundary data))
      (padToChunkBoundary data) some_leaf zeros
    cases made.symm.trans opened
    cases total
    exact ⟨width, given, inRange, some_leaf, zeros, output⟩
  · rintro ⟨width, given, inRange, some_leaf, zeros, rfl⟩
    exact ⟨width, given, tree, rfl, 1, counted, inRange, _,
      getMultileafProof_single key _ (padToChunkBoundary data) some_leaf zeros, output⟩

include conforms in
/-- The tree stores the hash of the chunk, `compute_root` returns its chaining value. -/
theorem verifyOutput_single : (verifyOutput crate key (singleOutput key nonempty small crate)).code = ok ↔
    rootChunk (.keyed key) (padToChunkBoundary data) =
      chunkCv (.keyed key) 0 (padToChunkBoundary data) := by
  have length := length_padded_single nonempty small
  have hash : (withKey key).hash crate (padToChunkBoundary data) =
      rootChunk (.keyed key) (padToChunkBoundary data) := by
    rw [hash_eq conforms, treeHash, if_pos (by omega)]
  have cv : (withKey key).chunkCv crate (padToChunkBoundary data) 0 =
      chunkCv (.keyed key) 0 (padToChunkBoundary data) :=
    chunkCv_eq conforms key (by decide) (by omega) (by omega)
  have computed : MerkleProof.computeRoot crate
      ⟨[⟨padToChunkBoundary data, length⟩], [0], 1, rootChunk (.keyed key) (padToChunkBoundary data), []⟩ key =
      .ok (some (chunkCv (.keyed key) 0 (padToChunkBoundary data))) := by
    rw [← cv]
    rfl
  simp only [verifyOutput, merkleVerifyProof, catchUnwind_code, verifyProof_eq_ok, singleOutput, hash]
  simp only [isEmpty_nil, ↓reduceIte, length_cons, length_nil, take_succ_cons, take_zero,
    map_cons, map_nil, Option.getD_none]
  rw [show toNat 0 = 0 from rfl, show toNat 1 = 1 from rfl, computed]
  simp [eq_comm]

end single

/-- What `merkle_root_and_proof` returns for a single chunk verifies exactly when BLAKE3 with and without the ROOT
flag on the last block agree on that chunk. -/
theorem single_chunk_verifies_iff {crate : Blake3Crate} (conforms : crate.Conforms) (key : Digest) (data : List UInt8)
    (nonempty : data ≠ []) (small : data.length ≤ 1024) (fits : data.length < 2 ^ 63) (rows : List UInt32)
    (rowsFit : rows.length < 2 ^ 63) (rowWidth : Nat) (out : ProofOutput)
    (made : merkleRootAndProof crate true (.slice data fits) (some key) (.slice rows rowsFit) rowWidth =
      ⟨ok, none, some out⟩) : (verifyOutput crate key out).code = ok ↔
      rootChunk (.keyed key) (padToChunkBoundary data) =
        chunkCv (.keyed key) 0 (padToChunkBoundary data) := by
  obtain ⟨-, -, -, -, -, rfl⟩ := (rootAndProof_single key nonempty small).mp (catchUnwind_eq_ok.mp made)
  exact verifyOutput_single conforms key nonempty small

section zeros

theorem zeroByte_nonempty : ([0] : List UInt8) ≠ [] := by decide

def zeroByteOutput : ProofOutput := singleOutput zeroKey zeroByte_nonempty (by decide) .reference

theorem rootAndProof_zeroByte :
    merkleRootAndProof .reference true (.slice [0] (by decide)) (some zeroKey) (.slice [0] (by decide)) 1 =
      ⟨ok, none, some zeroByteOutput⟩ :=
  catchUnwind_eq_ok.mpr ((rootAndProof_single zeroKey zeroByte_nonempty (by decide)).mpr
    ⟨by decide, by decide, by simp, by decide, by decide, rfl⟩)

theorem padToChunkBoundary_zeroByte : padToChunkBoundary [0] = zeroChunk := rfl

/-- The proof of one zero byte, under the zero key, is rejected. -/
theorem single_chunk_zeroByte_rejected :
    merkleRootAndProof .reference true (.slice [0] (by decide)) (some zeroKey) (.slice [0] (by decide)) 1 =
      ⟨ok, none, some zeroByteOutput⟩ ∧
    (verifyOutput .reference zeroKey zeroByteOutput).code ≠ ok := by
  refine ⟨rootAndProof_zeroByte, fun accepted => ?_⟩
  have same := (verifyOutput_single Blake3Crate.reference_conforms zeroKey zeroByte_nonempty (by decide)).mp accepted
  rw [padToChunkBoundary_zeroByte, rootChunk_zero, chunkCv_zero_first] at same
  exact absurd same (by decide)

theorem single_chunk_verifies_iff_zeroByte : (verifyOutput .reference zeroKey zeroByteOutput).code = ok ↔
      rootChunk (.keyed zeroKey) (padToChunkBoundary [0]) =
        chunkCv (.keyed zeroKey) 0 (padToChunkBoundary [0]) :=
  single_chunk_verifies_iff Blake3Crate.reference_conforms zeroKey [0] zeroByte_nonempty (by decide) (by decide) [0]
    (by decide) 1 zeroByteOutput rootAndProof_zeroByte

end zeros
end ArcMiner.MiningCapi
