import ArcMiner.Library.Blake3Xof
import ArcMiner.MiningCapi.VerifyAuditPaths

/-! Merkle trees that keep the seed of B in place of the matrix.

B is the XOF of a 32-byte seed with every byte mapped into [-63, 63]. A context
holds the seed and the layers over given leaf chaining values, and expands the
leaves it has to open again. The XOF reader of the `blake3` crate is a parameter:
`fill` after `set_position` is documented to give that part of the output stream.
-/

namespace ArcMiner.MiningCapi

open Library Library.Rust PearlBlake3 MerkleTree Buffer
open Blake3 (chunkAt chunkCount xofByte)

structure XofReader where
  /-- `Hasher::new()`, `update(input)`, `finalize_xof()`, `set_position(position)` and `fill` of a slice. -/
  fill : (input : List UInt8) → (position : UInt64) → (len : Nat) → Vector UInt8 len

structure XofReader.Conforms (xof : XofReader) : Prop where
  fill : ∀ input (position : UInt64) len, input.length ≤ 1024 → position.toNat + len ≤ 2 ^ 64 →
    (xof.fill input position len).toList = tabulate (fun j => xofByte .unkeyed input (position.toNat + j)) len

def XofReader.reference : XofReader where
  fill input position _ := Vector.ofFn fun j => xofByte .unkeyed input (position.toNat + j.val)

theorem XofReader.reference_conforms : XofReader.reference.Conforms where
  fill _ _ len _ _ := by
    rw [reference, Vector.toList_ofFn]
    apply List.ext_getElem?
    intro i
    by_cases inside : i < len
    · rw [getElem?_tabulate _ inside]
      simp [inside]
    · simp [tabulate, inside]

def mapXofByteToInt7 (slot : UInt8) : UInt8 := ((slot % 127).toInt8 - 63).toUInt8

def expandBseedInt7Into (xof : XofReader) (bseed : Digest) (len : Nat) : Vector UInt8 len :=
  (xof.fill bseed.toList 0 len).map mapXofByteToInt7

def expandBseedInt7RangeInto (xof : XofReader) (bseed : Digest) (byteOffset : UInt64) (len : Nat) : Vector UInt8 len :=
  (xof.fill bseed.toList byteOffset len).map mapXofByteToInt7

/-- The tree over the whole matrix; a matrix whose padded length does not fit makes the call panic. -/
def expandAndMerkle (crate : Blake3Crate) (xof : XofReader) (bseed : Option Digest) (n k : Nat) (key : Option Digest)
    (outRoot : Bool) : Result Digest := do
  let bseed ← require bseed "bseed_ptr, key_ptr and out_root must be non-null"
  let key ← require key "bseed_ptr, key_ptr and out_root must be non-null"
  reject (!outRoot) "bseed_ptr, key_ptr and out_root must be non-null"
  reject (n == 0 || k == 0) "n and k must be non-zero"
  let total ← require (checkedMul n k) "n*k overflows"
  let tree ← paddedTree crate (expandBseedInt7Into xof bseed total).toList key
  tree.root

def bseedExpandAndMerkle (crate : Blake3Crate) (xof : XofReader) (bseed : Option Digest) (n k : Nat)
    (key : Option Digest) (outRoot : Bool) : CResult Digest :=
  catchUnwind "panic during bseed_expand_and_merkle" (expandAndMerkle crate xof bseed n k key outRoot)

def expandRangeRaw (xof : XofReader) (bseed : Option Digest) (byteOffset : UInt64) (outB : Bool) (outBLen : Nat) :
    Result (Vector UInt8 outBLen) := do
  let bseed ← require bseed "bseed_ptr must be non-null"
  reject (decide (0 < outBLen) && !outB) "out_b must be non-null when out_b_len is non-zero"
  -- nothing is written to an empty buffer
  if outBLen = 0 then return Vector.replicate outBLen 0
  return expandBseedInt7RangeInto xof bseed byteOffset outBLen

def bseedExpandRangeRaw (xof : XofReader) (bseed : Option Digest) (byteOffset : UInt64) (outB : Bool) (outBLen : Nat) :
    CResult (Vector UInt8 outBLen) :=
  catchUnwind "panic during bseed_expand_range_raw" (expandRangeRaw xof bseed byteOffset outB outBLen)

structure BSeedMerkleTreeCtx where
  bseed : Digest
  layers : List (List Digest)
  root : Digest
  numRows : Nat
  rowWidth : Nat
  dataLen : Nat

/-- The leaf buffer starts as zeros; `leaf_idx.saturating_mul(1024)` is the offset of its bytes. -/
def expandBseedLeaf (xof : XofReader) (bseed : Digest) (dataLen leafIdx : Nat) : Chunk :=
  let offset := min (leafIdx * 1024) (2 ^ 64 - 1)
  if offset < dataLen then
    let valid := min (dataLen - offset) 1024
    ⟨(expandBseedInt7RangeInto xof bseed offset.toUInt64 valid).toList ++ List.replicate (1024 - valid) 0, by
      simp only [List.length_append, Vector.length_toList, List.length_replicate, chunkLen]
      omega⟩
  else ⟨List.replicate 1024 0, List.length_replicate⟩

def buildBseedMerkleCtx (crate : Blake3Crate) (xof : XofReader) (leafCvs : List Digest) (bseed key : Digest)
    (numRows rowWidth : Nat) : Result BSeedMerkleTreeCtx := do
  let dataLen ← require (checkedMul numRows rowWidth) "num_rows * row_width overflowed"
  let expected := expectedLeaves dataLen
  reject (expected == 0) "expected at least one leaf"
  reject (leafCvs.length != expected) (leafCvsCountMessage leafCvs.length expected dataLen rowWidth)
  let singleLeaf := if expected = 1 then some (expandBseedLeaf xof bseed dataLen 0).bytes else none
  let (layers, root) ← buildMerkleLayersFromLeafCvs ((Blake3Hasher.withKey key).nodes crate) leafCvs singleLeaf
  return ⟨bseed, layers, root, numRows, rowWidth, dataLen⟩

structure BuiltTree where
  handle : BSeedMerkleTreeCtx
  root : Digest
  totalLeaves : UInt32

def buildTreeFromLeafCvs (crate : Blake3Crate) (xof : XofReader) (leafCvs : Buffer UInt8) (bseed key : Option Digest)
    (numRows rowWidth : Nat) (outParameters : Bool) : Result BuiltTree := do
  reject (leafCvs.isNull || !outParameters) "required pointer was null"
  let bseed ← require bseed "required pointer was null"
  let key ← require key "required pointer was null"
  reject (leafCvs.len == 0 || leafCvs.len % 32 != 0) "leaf_cvs_len must be a non-zero multiple of 32"
  reject (numRows == 0 || rowWidth == 0) "num_rows and row_width must be > 0"
  let ctx ← buildBseedMerkleCtx crate xof (toDigests leafCvs.contents) bseed key numRows rowWidth
  return ⟨ctx, ctx.root, (← index ctx.layers 0).length.toUInt32⟩

def bseedMerkleBuildTreeFromLeafCvs (crate : Blake3Crate) (xof : XofReader) (leafCvs : Buffer UInt8)
    (bseed key : Option Digest) (numRows rowWidth : Nat) (outParameters : Bool) : CResult BuiltTree :=
  catchUnwind "panic during bseed_merkle_build_tree_from_leaf_cvs"
    (buildTreeFromLeafCvs crate xof leafCvs bseed key numRows rowWidth outParameters)

structure HandleProof where
  leafData : List Chunk
  leafIndices : List UInt32
  siblings : List Digest
deriving DecidableEq

def proofForHandle (xof : XofReader) (handle : Option BSeedMerkleTreeCtx) (rowIndices : Buffer UInt32)
    (outParameters : Bool) : Result HandleProof := do
  let ctx ← require handle "required out-parameter pointer was null"
  reject (!outParameters) "required out-parameter pointer was null"
  reject (rowIndices.len == 0) "row_indices_len must be > 0"
  reject rowIndices.isNull "row_indices_ptr null with non-zero row_indices_len"
  let rows := rowIndices.contents.map UInt32.toNat
  rejectSome (rows.find? fun r => decide (max ctx.numRows 1 ≤ r)) (rowBoundsMessage ctx.numRows ctx.rowWidth)
  let leafIndices := computeLeafIndicesFromRows rows ctx.rowWidth
  let totalLeaves := (← index ctx.layers 0).length
  rejectSome (leafIndices.find? fun i => decide (totalLeaves ≤ i)) (leafBoundsMessage totalLeaves)
  let leafData := leafIndices.map (expandBseedLeaf xof ctx.bseed ctx.dataLen)
  let siblings ← merkleSiblingsFromLayers ctx.layers totalLeaves leafIndices
  return ⟨leafData, leafIndices.map Nat.toUInt32, siblings⟩

def bseedMerkleProofForHandle (xof : XofReader) (handle : Option BSeedMerkleTreeCtx) (rowIndices : Buffer UInt32)
    (outParameters : Bool) : CResult HandleProof :=
  catchUnwind "panic during bseed_merkle_proof_for_handle" (proofForHandle xof handle rowIndices outParameters)

/-- Written apart from `get_audit_paths`: there is no early return for trees without levels. -/
def bseedMerkleAuditPaths (ctx : BSeedMerkleTreeCtx) (leafIndices : List Nat) : Result (List Digest) := do
  let totalLeaves := (← index ctx.layers 0).length
  reject (!(isPowerOfTwo totalLeaves || totalLeaves == 0)) (powerOfTwoMessage totalLeaves)
  if leafIndices.isEmpty then return []
  rejectSome (leafIndices.find? fun i => decide (max totalLeaves 1 ≤ i)) (auditBoundsMessage totalLeaves)
  let levels := auditLevels totalLeaves
  assert (decide (leafIndices.length * levels * 32 < 2 ^ 63)) "capacity overflow"
  return (← leafIndices.mapM (auditPath ctx.layers levels)).flatten

def auditPathsForHandle (handle : Option BSeedMerkleTreeCtx) (leafIndices : Buffer UInt32) (outParameters : Bool) :
    Result (List Digest) := do
  let ctx ← require handle "required out-parameter pointer was null"
  reject (!outParameters) "required out-parameter pointer was null"
  reject (decide (0 < leafIndices.len) && leafIndices.isNull) "leaf_indices_ptr null with non-zero leaf_indices_len"
  bseedMerkleAuditPaths ctx (leafIndices.contents.map UInt32.toNat)

def bseedMerkleAuditPathsForHandle (handle : Option BSeedMerkleTreeCtx) (leafIndices : Buffer UInt32)
    (outParameters : Bool) : CResult (List Digest) :=
  catchUnwind "panic during bseed_merkle_audit_paths_for_handle" (auditPathsForHandle handle leafIndices outParameters)

def bseedStream (bseed : Digest) (i : Nat) : UInt8 := mapXofByteToInt7 (xofByte .unkeyed bseed.toList i)

def bseedMatrix (bseed : Digest) (len : Nat) : List UInt8 := tabulate (bseedStream bseed) len

theorem length_bseedMatrix (bseed : Digest) (len : Nat) : (bseedMatrix bseed len).length = len := length_tabulate _ len

def seedLeaf (bseed : Digest) (dataLen i : Nat) : List UInt8 :=
  tabulate (fun j => bseedStream bseed (i * 1024 + j)) (min (dataLen - i * 1024) 1024) ++
    List.replicate (1024 - min (dataLen - i * 1024) 1024) 0

theorem seedLeaf_eq_chunkAt (bseed : Digest) {dataLen i : Nat} (inside : i < chunkCount dataLen) :
    seedLeaf bseed dataLen i = chunkAt (padToChunkBoundary (bseedMatrix bseed dataLen)) i := by
  have size := length_bseedMatrix bseed dataLen
  rw [chunkCount] at inside
  rw [seedLeaf, chunkAt, padToChunkBoundary, Nat.mul_comm 1024 i]
  apply List.ext_getElem?
  intro j
  rw [List.getElem?_take, List.getElem?_drop]
  by_cases low : j < min (dataLen - i * 1024) 1024
  · have here : i * 1024 + j < dataLen := by
      rw [Nat.add_comm]
      exact Nat.add_lt_of_lt_sub (Nat.lt_of_lt_of_le low (Nat.min_le_left _ _))
    rw [if_pos (Nat.lt_of_lt_of_le low (Nat.min_le_right _ _)),
      List.getElem?_append_left (by rwa [length_tabulate]), getElem?_tabulate _ low,
      List.getElem?_append_left (by rwa [size]), bseedMatrix, getElem?_tabulate _ here]
  · rw [List.getElem?_append_right (by rw [length_tabulate]; omega), length_tabulate, List.getElem?_replicate]
    by_cases high : j < 1024
    · rw [if_pos (by omega), if_pos high, List.getElem?_append_right (by rw [size]; omega), size,
        List.getElem?_replicate, if_pos]
      rw [paddedChunkLen, divCeil, chunkLen]
      omega
    · rw [if_neg (by omega), if_neg high]

section stream
variable {xof : XofReader} (stream : xof.Conforms) (bseed : Digest)
include stream

theorem expandRange_eq {byteOffset : UInt64} {len : Nat} (fits : byteOffset.toNat + len ≤ 2 ^ 64) :
    (expandBseedInt7RangeInto xof bseed byteOffset len).toList =
      tabulate (fun j => bseedStream bseed (byteOffset.toNat + j)) len := by
  have seedLen : bseed.toList.length ≤ 1024 := by rw [Vector.length_toList]; decide
  rw [expandBseedInt7RangeInto, Vector.toList_map, stream.fill _ _ _ seedLen fits, tabulate, List.map_map]
  rfl

theorem expand_eq {len : Nat} (fits : len ≤ 2 ^ 64) :
    (expandBseedInt7Into xof bseed len).toList = bseedMatrix bseed len := by
  have inside : (0 : UInt64).toNat + len ≤ 2 ^ 64 := by simpa using fits
  have whole := expandRange_eq stream bseed inside
  simp only [UInt64.toNat_zero, Nat.zero_add] at whole
  exact whole

theorem expandBseedLeaf_eq {dataLen i : Nat} (fits : dataLen < 2 ^ 63) (inside : i < chunkCount dataLen) :
    (expandBseedLeaf xof bseed dataLen i).bytes =
      chunkAt (padToChunkBoundary (bseedMatrix bseed dataLen)) i := by
  have before : i * 1024 < dataLen := by
    rw [chunkCount] at inside
    omega
  have offset : min (i * 1024) (2 ^ 64 - 1) = i * 1024 := by omega
  have position : ((i * 1024).toUInt64).toNat = i * 1024 := by
    rw [Nat.toUInt64, UInt64.toNat_ofNat']
    omega
  rw [← seedLeaf_eq_chunkAt bseed inside]
  unfold expandBseedLeaf seedLeaf
  rw [if_pos (by omega)]
  simp only
  rw [expandRange_eq stream bseed (by rw [offset, position]; omega), offset, position]

end stream

theorem catchUnwind_output {α : Type} (panicked : String) (result : Result α) :
    (catchUnwind panicked result).output = result.toOption := by
  cases result with
  | ok value => rfl
  | error why => cases why <;> rfl

theorem Chunk.eq_of_bytes {a b : Chunk} (same : a.bytes = b.bytes) : a = b := by
  cases a
  cases b
  simpa using same

section context
variable {crate : Blake3Crate} (conforms : crate.Conforms) (seed key : Digest)

def seedCtx (crate : Blake3Crate) (seed key : Digest) (numRows rowWidth : Nat) : BSeedMerkleTreeCtx :=
  let hasher := (Blake3Hasher.withKey key).nodes crate
  let data := padToChunkBoundary (bseedMatrix seed (numRows * rowWidth))
  ⟨seed, tableLayers hasher (chunkCount (numRows * rowWidth)) (hasher.leaf data), hasher.hash data, numRows,
    rowWidth, numRows * rowWidth⟩

variable {numRows rowWidth : Nat} (someRows : 0 < numRows) (someWidth : 0 < rowWidth)
  (fits : (padToChunkBoundary (bseedMatrix seed (numRows * rowWidth))).length < 2 ^ 63)

include fits in
theorem dataLen_fits : numRows * rowWidth < 2 ^ 63 := by
  rw [length_padded, length_bseedMatrix, chunkCount] at fits
  omega

include someRows someWidth in
theorem someLeaves : 0 < chunkCount (numRows * rowWidth) := by
  have := Nat.mul_pos someRows someWidth
  rw [chunkCount]
  omega

theorem index_tableLayers {δ : Type} (hasher : NodeHasher δ) (n : Nat) (f : Nat → δ) :
    index (tableLayers hasher n f) 0 = .ok (tabulate f n) := by
  refine index_eq_ok ?_
  unfold tableLayers
  split
  next single =>
    rw [single]
    rfl
  next several => rw [← List.head?_eq_getElem?, head?_levels]

section build
variable {xof : XofReader} (stream : xof.Conforms)
include conforms stream fits someRows someWidth

theorem buildTree_seed : buildTreeFromLeafCvs crate xof
      (.slice (tableBytes crate key (bseedMatrix seed (numRows * rowWidth))) (tableBytes_fits fits conforms key))
      (some seed) (some key) numRows rowWidth true =
    .ok ⟨seedCtx crate seed key numRows rowWidth, (seedCtx crate seed key numRows rowWidth).root,
      (chunkCount (numRows * rowWidth)).toUInt32⟩ := by
  have size := length_bseedMatrix seed (numRows * rowWidth)
  have positive := someLeaves someRows someWidth
  have table := length_tableBytes fits conforms key
  have cvs := toDigests_tableBytes fits conforms key
  have leaves := expectedLeaves_eq fits
  have small := dataLen_fits seed fits
  rw [size] at table cvs leaves
  -- the table has no ROOT-flagged value, so the only leaf of a small matrix is expanded for it
  have leaf : chunkCount (numRows * rowWidth) = 1 →
      (if chunkCount (numRows * rowWidth) = 1 then some (expandBseedLeaf xof seed (numRows * rowWidth) 0).bytes
        else none) = some (padToChunkBoundary (bseedMatrix seed (numRows * rowWidth))) := by
    intro single
    have length := length_padded (bseedMatrix seed (numRows * rowWidth))
    rw [size, single] at length
    rw [if_pos single, expandBseedLeaf_eq stream seed small positive, chunkAt, Nat.mul_zero, List.drop_zero,
      List.take_of_length_le (by omega)]
  have built := buildMerkleLayers_aligned conforms key (n := chunkCount (numRows * rowWidth))
    (by rw [length_padded, size]) positive fits leaf
  have ctx : buildBseedMerkleCtx crate xof
      (toDigests (tableBytes crate key (bseedMatrix seed (numRows * rowWidth)))) seed key numRows rowWidth =
      .ok (seedCtx crate seed key numRows rowWidth) := by
    simp only [buildBseedMerkleCtx, bind_eq_ok, require_eq_ok, reject_eq_ok, exists_const]
    refine ⟨numRows * rowWidth, if_pos (by omega), ?_⟩
    rw [leaves, cvs, length_tabulate, beq_eq_false_iff_ne, bne_eq_false_iff_eq]
    exact ⟨by omega, rfl, _, built, rfl⟩
  simp only [buildTreeFromLeafCvs, bind_eq_ok, require_eq_ok, reject_eq_ok, exists_const, isNull, len,
    contents]
  refine ⟨rfl, seed, rfl, key, rfl, ?_, ?_, _, ctx, _, index_tableLayers _ _ _, by rw [length_tabulate]; rfl⟩
  · simp only [Bool.or_eq_false_iff, beq_eq_false_iff_ne, bne_eq_false_iff_eq]
    omega
  · simp only [Bool.or_eq_false_iff, beq_eq_false_iff_ne]
    omega

omit conforms in
theorem proofForHandle_rows {rows : List UInt32} (given : rows ≠ []) (inRange : ∀ r ∈ rows, r.toNat < numRows)
    {rowsFit : rows.length < 2 ^ 63} : let out := rowsOutput crate key (bseedMatrix seed (numRows * rowWidth)) fits rows rowWidth
    proofForHandle xof (some (seedCtx crate seed key numRows rowWidth)) (.slice rows rowsFit) true =
      .ok ⟨out.leafData, out.leafIndices, out.siblings⟩ := by
  have size := length_bseedMatrix seed (numRows * rowWidth)
  have below := opened_below size someWidth inRange
  rw [size] at below
  have nonempty := leafSet_nonempty someWidth given
  have positive := List.length_pos_iff.mpr given
  have siblings := merkleSiblings_tableLayers ((Blake3Hasher.withKey key).nodes crate)
    (someLeaves someRows someWidth)
    (((Blake3Hasher.withKey key).nodes crate).leaf (padToChunkBoundary (bseedMatrix seed (numRows * rowWidth))))
    nonempty below
  have leafData : (computeLeafIndicesFromRows (rows.map UInt32.toNat) rowWidth).map
      (expandBseedLeaf xof seed (numRows * rowWidth)) =
      (rowsOutput crate key (bseedMatrix seed (numRows * rowWidth)) fits rows rowWidth).leafData := by
    refine List.map_congr_left fun i member => Chunk.eq_of_bytes ?_
    rw [expandBseedLeaf_eq stream seed (dataLen_fits seed fits) (below i member)]
    exact (leafChunk_build _ key (length_padded _ ▸ Nat.dvd_mul_left _ _)
      (by rw [chunkCount_padded, size]; exact below i member)).symm
  simp only [proofForHandle, bind_eq_ok, require_eq_ok, reject_eq_ok, rejectSome_eq_ok, exists_const, isNull,
    len, contents]
  refine ⟨_, rfl, rfl, ?_, trivial, ?_, _, index_tableLayers _ _ _, ?_⟩
  · rw [beq_eq_false_iff_ne]
    omega
  · refine find?_bound_eq_none.mpr fun r member => ?_
    obtain ⟨row, here, rfl⟩ := List.mem_map.mp member
    exact lt_max_of_lt_left (inRange row here)
  · rw [length_tabulate]
    refine ⟨find?_bound_eq_none.mpr below, _, siblings, ?_⟩
    simp only [seedCtx] at leafData ⊢
    rw [leafData]
    simp only [rowsOutput, size]
    rfl

end build

theorem proofForHandle_inRange {xof : XofReader} {ctx : BSeedMerkleTreeCtx} {rowIndices : Buffer UInt32}
    {out : HandleProof} (made : proofForHandle xof (some ctx) rowIndices true = .ok out) :
    ∃ rows fits, rowIndices = .slice rows fits ∧ rows ≠ [] ∧ ∀ r ∈ rows, r.toNat < max ctx.numRows 1 := by
  simp only [proofForHandle, bind_eq_ok, require_eq_ok, reject_eq_ok, rejectSome_eq_ok, exists_const] at made
  obtain ⟨_, same, -, some, present, inRange, -⟩ := made
  cases same
  cases rowIndices with
  | null len => simp [isNull] at present
  | slice rows fits =>
    refine ⟨rows, fits, rfl, ?_, ?_⟩
    · rintro rfl
      simp [len] at some
    · intro r member
      exact find?_bound_eq_none.mp inRange r.toNat (List.mem_map.mpr ⟨r, member, rfl⟩)

theorem rootAndProof_inRange {data : List UInt8} {dataFits : data.length < 2 ^ 63} {rowIndices : Buffer UInt32}
    {out : ProofOutput} (made : rootAndProof crate true (.slice data dataFits) (some key) rowIndices rowWidth = .ok out) :
    ∃ rows fits, rowIndices = .slice rows fits ∧ rows ≠ [] ∧
      ∀ r ∈ rows, r.toNat < max (data.length / rowWidth) 1 := by
  cases rowIndices with
  | null len =>
    by_cases zero : len = 0 <;>
      simp [rootAndProof, bind_eq_ok, require_eq_ok, reject_eq_ok, Buffer.len, Buffer.isNull, zero,
        Nat.pos_iff_ne_zero] at made
  | slice rows fits =>
    obtain ⟨-, given, -, -, -, -, inRange, -⟩ := rootAndProof_eq_ok.mp made
    exact ⟨rows, fits, rfl, given, inRange⟩

section outputs
variable {xof : XofReader} (stream : xof.Conforms)
include conforms stream fits someRows someWidth

theorem proofForHandle_agrees (rowIndices : Buffer UInt32)
    (dataFits : (bseedMatrix seed (numRows * rowWidth)).length < 2 ^ 63) :
    (proofForHandle xof (some (seedCtx crate seed key numRows rowWidth)) rowIndices true).toOption =
      ((rootAndProof crate true (.slice (bseedMatrix seed (numRows * rowWidth)) dataFits) (some key) rowIndices
        rowWidth).toOption).map fun out => ⟨out.leafData, out.leafIndices, out.siblings⟩ := by
  have rowCount : (bseedMatrix seed (numRows * rowWidth)).length / rowWidth = numRows := by
    rw [length_bseedMatrix, Nat.mul_div_cancel _ someWidth]
  by_cases valid : ∃ rows rowsFit, rowIndices = .slice rows rowsFit ∧ rows ≠ [] ∧ ∀ r ∈ rows, r.toNat < numRows
  -- both accept the lists of existing rows only, and give the same proof for them
  · obtain ⟨rows, rowsFit, rfl, given, inRange⟩ := valid
    rw [proofForHandle_rows seed key someRows someWidth fits stream given inRange,
      rootAndProof_rows fits conforms key (length_bseedMatrix _ _) someWidth given inRange]
    rfl
  · have large : max numRows 1 = numRows := by omega
    have left : (proofForHandle xof (some (seedCtx crate seed key numRows rowWidth)) rowIndices true).toOption = none := by
      refine toOption_eq_none fun out made => valid ?_
      obtain ⟨rows, rowsFit, same, given, inRange⟩ := proofForHandle_inRange made
      exact ⟨rows, rowsFit, same, given, fun r member => large ▸ inRange r member⟩
    have right : (rootAndProof crate true (.slice (bseedMatrix seed (numRows * rowWidth)) dataFits) (some key)
        rowIndices rowWidth).toOption = none := by
      refine toOption_eq_none fun out made => valid ?_
      obtain ⟨rows, rowsFit, same, given, inRange⟩ := rootAndProof_inRange key made
      rw [rowCount, large] at inRange
      exact ⟨rows, rowsFit, same, given, inRange⟩
    rw [left, right]
    rfl

omit stream in
theorem root_seed :
    (new crate ⟨padToChunkBoundary (bseedMatrix seed (numRows * rowWidth)), fits⟩ key).root =
      .ok (seedCtx crate seed key numRows rowWidth).root := by
  have positive := someLeaves someRows someWidth
  have aligned := length_padded (bseedMatrix seed (numRows * rowWidth))
  rw [length_bseedMatrix] at aligned
  refine root_new_hash conforms key ?_ fits
  rw [← List.length_pos_iff]
  omega

theorem expandAndMerkle_seed : expandAndMerkle crate xof (some seed) numRows rowWidth (some key) true =
    .ok (seedCtx crate seed key numRows rowWidth).root := by
  have small := dataLen_fits seed fits
  simp only [expandAndMerkle, bind_eq_ok, require_eq_ok, reject_eq_ok, exists_const]
  refine ⟨seed, rfl, key, rfl, rfl, ?_, numRows * rowWidth, if_pos (by omega), _, ?_,
    root_seed conforms seed key someRows someWidth fits⟩
  · simp only [Bool.or_eq_false_iff, beq_eq_false_iff_ne]
    omega
  · rw [expand_eq stream seed (by omega)]
    exact dif_pos fits

omit stream in
theorem bseedMerkleAuditPaths_agrees (indices : List Nat) :
    bseedMerkleAuditPaths (seedCtx crate seed key numRows rowWidth) indices =
      (new crate ⟨padToChunkBoundary (bseedMatrix seed (numRows * rowWidth)), fits⟩ key).getAuditPaths
        indices := by
  have size := length_bseedMatrix seed (numRows * rowWidth)
  have aligned : (padToChunkBoundary (bseedMatrix seed (numRows * rowWidth))).length =
      chunkCount (numRows * rowWidth) * 1024 := by rw [length_padded, size]
  have positive := someLeaves someRows someWidth
  -- Only a tree of one leaf has other layers than the context, and it has no levels to read.
  have paths : indices.mapM (auditPath (seedCtx crate seed key numRows rowWidth).layers
        (auditLevels (chunkCount (numRows * rowWidth)))) =
      if auditLevels (chunkCount (numRows * rowWidth)) = 0 then .ok (indices.map fun _ => []) else
        indices.mapM (auditPath
          (new crate ⟨padToChunkBoundary (bseedMatrix seed (numRows * rowWidth)), fits⟩ key).layers
          (auditLevels (chunkCount (numRows * rowWidth)))) := by
    split
    next none =>
      rw [none]
      exact mapM_eq_ok fun _ _ => rfl
    next deep =>
      have several : chunkCount (numRows * rowWidth) ≠ 1 := fun single => deep (by rw [single]; rfl)
      have layers := layers_build (nodes_lawful conforms key) key fits (by omega)
      rw [chunkCount_padded, size] at layers
      rw [new, layers, seedCtx, tableLayers, if_neg several]
  unfold bseedMerkleAuditPaths getAuditPaths
  rw [numLeaves_new conforms key aligned positive fits, seedCtx, index_tableLayers, ok_bind, ok_bind, length_tabulate,
    ensure_eq_reject]
  simp only [seedCtx] at paths
  dsimp only
  rw [paths]
  by_cases flat : auditLevels (chunkCount (numRows * rowWidth)) = 0
  · simp [flat, pure, Except.pure]
  · simp [flat]

end outputs
end context
end ArcMiner.MiningCapi
