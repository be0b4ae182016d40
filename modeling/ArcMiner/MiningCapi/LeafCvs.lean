import ArcMiner.MiningCapi.PaddedTree
import Mathlib.Data.Nat.SuccPred

/-! `pearl_capi_merkle_proof_from_leaf_cvs`.

The tree is rebuilt from a table of leaf chaining values, and only the opened
chunks are passed along with it. The two helpers are shared with the trees that
keep a seed in place of the matrix.
-/

namespace ArcMiner.MiningCapi

open Library Library.Rust PearlBlake3 List OrderedList MerkleTree
open Blake3 (chunkAt chunkCount)
open Blake3Hasher (withKey)

section helpers
variable {δ : Type}

def pairLayers (hasher : NodeHasher δ) (layers : List (List δ)) : List (List δ) :=
  Id.run <| whileLoop (fun layers => (lastLayer layers).length)
    (fun layers => decide (2 < (lastLayer layers).length))
    (fun layers => pure (layers ++ [pairUp hasher.parentCv (lastLayer layers)])) layers

def buildMerkleLayersFromLeafCvs (hasher : NodeHasher δ) (leafCvs : List δ) (singleLeafData : Option (List UInt8)) :
    Result (List (List δ) × δ) := do
  reject leafCvs.isEmpty "leaf_cvs must be non-empty"
  let layers := pairLayers hasher [leafCvs]
  match lastLayer layers with
  | [_] =>
    let leaf ← require singleLeafData "single-leaf Merkle root requires the selected leaf data"
    return (layers, hasher.hash leaf)
  | [left, right] => return (layers ++ [[hasher.rootCv left right]], hasher.rootCv left right)
  | _ => fail "invalid Merkle layer shape"

def siblingLevel (layers : List (List δ)) (opening : MerkleTree.Opening δ) : Result (MerkleTree.Opening δ) := do
  let levelNodes ← require layers[opening.level]? ("missing merkle layer " ++ toString opening.level)
  let siblings ← opening.currentSet.entries.foldlM
    (openNode levelNodes opening.currentSet opening.levelLen) opening.siblings
  return ⟨opening.level + 1, divCeil opening.levelLen 2,
    .toSet (opening.currentSet.entries.map (· / 2)), siblings⟩

def merkleSiblingsFromLayers (layers : List (List δ)) (totalLeaves : Nat) (leafIndices : List Nat) :
    Result (List δ) := do
  reject leafIndices.isEmpty "leaf_indices must be non-empty"
  let opening ← whileLoop MerkleTree.Opening.levelLen
    (fun opening => decide (1 < opening.levelLen) && !opening.currentSet.entries.isEmpty)
    (siblingLevel layers) ⟨0, totalLeaves, .toSet leafIndices, []⟩
  return opening.siblings

end helpers

/-- `padded_chunk_len(data_len) / CHUNK_LEN`; the product wraps like a `usize`. -/
def expectedLeaves (dataLen : Nat) : Nat := paddedChunkLen dataLen % 2 ^ 64 / chunkLen

def digestAt (bytes : List UInt8) (i : Nat) : Digest := Vector.ofFn fun j => bytes.getD (i * 32 + j.val) 0

def toDigests (bytes : List UInt8) : List Digest := tabulate (digestAt bytes) (bytes.length / 32)

def checkedMul (numRows rowWidth : Nat) : Option Nat :=
  if numRows * rowWidth < 2 ^ 64 then some (numRows * rowWidth) else none

structure LeafCvsOutput where
  root : Digest
  totalLeaves : UInt32
  leafIndices : List UInt32
  siblings : List Digest
deriving DecidableEq

def checkOpened (crate : Blake3Crate) (key : Digest) (leafData : List UInt8) (leafCvs : List Digest)
    (opened : Nat × Nat) : Result Unit := do
  let expected ← index leafCvs opened.1
  let cv := (withKey key).chunkCv crate (chunkAt leafData opened.2) opened.1.toUInt64
  reject (cv != expected) ("leaf data/CV mismatch at opened leaf " ++ toString opened.1)

def leafCvsCountMessage (got expected dataLen rowWidth : Nat) : String :=
  s!"leaf_cvs count mismatch: got {got}, expected {expected} for data_len={dataLen} row_width={rowWidth}"

def leafDataMessage (got expected opened : Nat) : String :=
  s!"leaf_data_len mismatch: got {got}, expected {expected} for {opened} opened leaves"

def rowBoundsMessage (numRows rowWidth bad : Nat) : String :=
  s!"row index {bad} out of bounds (num_rows={numRows}, row_width={rowWidth})"

def leafBoundsMessage (totalLeaves bad : Nat) : String :=
  s!"leaf index {bad} out of bounds (total_leaves={totalLeaves})"

def proofFromLeafCvs (crate : Blake3Crate) (outParameters : Bool) (leafCvs leafData : Buffer UInt8)
    (key : Option Digest) (rowIndices : Buffer UInt32) (numRows rowWidth : Nat) : Result LeafCvsOutput := do
  reject (leafCvs.isNull || leafData.isNull || rowIndices.isNull || !outParameters) "required pointer was null"
  let key ← require key "required pointer was null"
  reject (leafCvs.len == 0 || leafCvs.len % 32 != 0) "leaf_cvs_len must be a non-zero multiple of 32"
  reject (leafData.len == 0 || leafData.len % chunkLen != 0) "leaf_data_len must be a non-zero multiple of 1024"
  reject (rowIndices.len == 0) "row_indices_len must be > 0"
  reject (numRows == 0 || rowWidth == 0) "num_rows and row_width must be > 0"
  let dataLen ← require (checkedMul numRows rowWidth) "num_rows * row_width overflowed"
  let expected := expectedLeaves dataLen
  reject (expected == 0) "expected at least one leaf"
  reject (leafCvs.len / 32 != expected) (leafCvsCountMessage (leafCvs.len / 32) expected dataLen rowWidth)
  let rows := rowIndices.contents.map UInt32.toNat
  rejectSome (rows.find? fun r => decide (numRows ≤ r)) (rowBoundsMessage numRows rowWidth)
  let leafIndices := computeLeafIndicesFromRows rows rowWidth
  reject (leafData.len != leafIndices.length * chunkLen)
    (leafDataMessage leafData.len (leafIndices.length * chunkLen) leafIndices.length)
  rejectSome (leafIndices.find? fun i => decide (expected ≤ i)) (leafBoundsMessage expected)
  leafIndices.zipIdx.forM (checkOpened crate key leafData.contents (toDigests leafCvs.contents))
  let singleLeaf := if expected = 1 then some (chunkAt leafData.contents 0) else none
  let hasher := (withKey key).nodes crate
  let (layers, root) ← buildMerkleLayersFromLeafCvs hasher (toDigests leafCvs.contents) singleLeaf
  let siblings ← merkleSiblingsFromLayers layers expected leafIndices
  return ⟨root, expected.toUInt32, leafIndices.map Nat.toUInt32, siblings⟩

def merkleProofFromLeafCvs (crate : Blake3Crate) (outParameters : Bool) (leafCvs leafData : Buffer UInt8)
    (key : Option Digest) (rowIndices : Buffer UInt32) (numRows rowWidth : Nat) : CResult LeafCvsOutput :=
  catchUnwind "panic during merkle_proof_from_leaf_cvs"
    (proofFromLeafCvs crate outParameters leafCvs leafData key rowIndices numRows rowWidth)

section layers
variable {δ : Type} {hasher : NodeHasher δ} (lawful : hasher.Lawful)

include lawful in
theorem pairLayers_eq : pairLayers hasher = combineAll hasher := by
  funext layers
  have pair : hasher.combineLayer = pairUp hasher.parentCv := funext lawful.combineLayer
  unfold pairLayers combineAll
  rw [pair]

include lawful in
theorem buildMerkleLayersFromLeafCvs_eq {n : Nat} (large : 2 ≤ n) (f : Nat → δ) (single : Option (List UInt8)) :
    buildMerkleLayersFromLeafCvs hasher (tabulate f n) single =
      .ok (levels hasher.parentCv hasher.rootCv n f, treeRoot hasher.parentCv hasher.rootCv f n) := by
  have built := combineAll_eq lawful large f []
  obtain ⟨left, right, last, top⟩ := lastLayer_lowerLevels hasher large f
  rw [nil_append, nil_append] at built
  have given : (tabulate f n).isEmpty = false := by
    rw [isEmpty_eq_false_iff, ← length_pos_iff, length_tabulate]
    omega
  unfold buildMerkleLayersFromLeafCvs
  rw [given, pairLayers_eq lawful, built, levels_eq_append _ _ f large]
  simp only [reject, Bool.false_eq_true, ↓reduceIte, ok_bind, last, top]
  rfl

theorem buildMerkleLayersFromLeafCvs_single (hasher : NodeHasher δ) (cv : δ) (leaf : List UInt8) :
    buildMerkleLayersFromLeafCvs hasher [cv] (some leaf) = .ok ([[cv]], hasher.hash leaf) := by
  have stopped : pairLayers hasher [[cv]] = [[cv]] := by
    unfold pairLayers
    rw [whileLoop_stop _ (by simp [lastLayer])]
    rfl
  unfold buildMerkleLayersFromLeafCvs
  rw [stopped]
  rfl

theorem siblingLevel_eq {self : MerkleTree δ} {opening after : MerkleTree.Opening δ}
    (step : openLevel self opening = .ok after) : siblingLevel self.layers opening = .ok after := by
  obtain ⟨nodes, found, step⟩ := bind_eq_ok.mp step
  have layer : self.layers[opening.level]? = some nodes := by
    unfold index at found
    cases entry : self.layers[opening.level]? with
    | none => simp [entry] at found
    | some other => simpa [entry] using found
  unfold siblingLevel
  rw [layer]
  exact step

theorem merkleSiblingsFromLayers_eq {node root : δ → δ → δ} {n : Nat} (large : 2 ≤ n) (f : Nat → δ)
    {indices : List Nat} (nonempty : indices ≠ []) (inRange : ∀ i ∈ indices, i < n) :
    merkleSiblingsFromLayers (levels node root n f) n indices = .ok (allOpenings node n f (.toSet indices)) := by
  have given : indices.isEmpty = false := by simpa using nonempty
  let tree : MerkleTree δ := ⟨Vector.replicate 32 0, levels node root n f, []⟩
  have whole : lowerLevels node n f <+: tree.layers.drop 0 := by
    change _ <+: levels node root n f
    rw [levels_eq_append node root f large]
    exact prefix_append _ _
  obtain ⟨last, run, siblings⟩ := openLevels_eq large whole
    (fun i member => inRange i (mem_toSet.mp member)) (toSet_nonempty nonempty) []
  have matched := whileLoop_ok (fun opening => opening) (fun _ => rfl) (fun _ => rfl) (fun _ _ => siblingLevel_eq) run
  unfold merkleSiblingsFromLayers
  rw [given]
  simp only [reject, Bool.false_eq_true, ↓reduceIte, ok_bind]
  rw [matched, ok_bind, siblings]
  rfl

theorem merkleSiblingsFromLayers_single (layers : List (List δ)) {indices : List Nat} (nonempty : indices ≠ []) :
    merkleSiblingsFromLayers layers 1 indices = .ok [] := by
  have given : indices.isEmpty = false := by simpa using nonempty
  unfold merkleSiblingsFromLayers
  rw [given, whileLoop_stop _ (by simp)]
  rfl

/-- The layers over `n` leaf values, one leaf included. -/
def tableLayers (hasher : NodeHasher δ) (n : Nat) (f : Nat → δ) : List (List δ) :=
  if n = 1 then [tabulate f 1] else levels hasher.parentCv hasher.rootCv n f

theorem merkleSiblings_tableLayers (hasher : NodeHasher δ) {n : Nat} (positive : 0 < n) (f : Nat → δ) {s : IndexSet}
    (nonempty : s.entries ≠ []) (below : ∀ i ∈ s.entries, i < n) :
    merkleSiblingsFromLayers (tableLayers hasher n f) n s.entries = .ok (allOpenings hasher.parentCv n f s) := by
  have self : toSet s.entries = s := collect_entries s
  unfold tableLayers
  split
  next single =>
    subst single
    rw [merkleSiblingsFromLayers_single _ nonempty, allOpenings_of_small _ _ _ (by decide)]
  next several => rw [merkleSiblingsFromLayers_eq (by omega) f nonempty below, self]

end layers

theorem buildMerkleLayers_aligned {crate : Blake3Crate} (conforms : crate.Conforms) (key : Digest) {bytes : List UInt8}
    {n : Nat} (size : bytes.length = n * 1024) (positive : 0 < n) (fits : bytes.length < 2 ^ 63)
    {single : Option (List UInt8)} (leaf : n = 1 → single = some bytes) :
    buildMerkleLayersFromLeafCvs ((withKey key).nodes crate)
        (tabulate (((withKey key).nodes crate).leaf bytes) n) single =
      .ok (tableLayers ((withKey key).nodes crate) n (((withKey key).nodes crate).leaf bytes),
        (withKey key).hash crate bytes) := by
  unfold tableLayers
  split
  next one =>
    rw [leaf one, one]
    exact buildMerkleLayersFromLeafCvs_single _ _ _
  next several =>
    have large : 2 ≤ n := by omega
    rw [buildMerkleLayersFromLeafCvs_eq (nodes_lawful conforms key) large, hash_nodes conforms key size fits large]

section checks
variable {crate : Blake3Crate}

theorem checkOpened_eq_ok {key : Digest} {leafData : List UInt8} {leafCvs : List Digest} {i j : Nat} :
    checkOpened crate key leafData leafCvs (i, j) = .ok () ↔
      leafCvs[i]? = some ((withKey key).chunkCv crate (chunkAt leafData j) i.toUInt64) := by
  unfold checkOpened index
  cases entry : leafCvs[i]? with
  | none => simp
  | some cv =>
    simp only [ok_bind, reject_eq_ok, bne_eq_false_iff_eq, Option.some.injEq]
    exact eq_comm

theorem proofFromLeafCvs_of_checked {table leaves : List UInt8} {tableFits : table.length < 2 ^ 63}
    {leavesFit : leaves.length < 2 ^ 63} {key : Digest} {rows : List UInt32} {rowsFit : rows.length < 2 ^ 63}
    {numRows rowWidth total : Nat} {opened : List Nat} {layers : List (List Digest)} {root : Digest}
    {siblings : List Digest} (given : rows ≠ []) (someRows : 0 < numRows) (someWidth : 0 < rowWidth)
    (fits : numRows * rowWidth < 2 ^ 64) (inRange : ∀ r ∈ rows, r.toNat < numRows)
    (leafCount : expectedLeaves (numRows * rowWidth) = total) (someLeaves : 0 < total)
    (tableSize : table.length = total * 32)
    (indices : computeLeafIndicesFromRows (rows.map UInt32.toNat) rowWidth = opened)
    (nonempty : opened ≠ []) (below : ∀ i ∈ opened, i < total) (leavesSize : leaves.length = opened.length * 1024)
    (checked : ∀ entry ∈ opened.zipIdx, checkOpened crate key leaves (toDigests table) entry = .ok ())
    (built : buildMerkleLayersFromLeafCvs ((withKey key).nodes crate) (toDigests table)
      (if total = 1 then some (chunkAt leaves 0) else none) = .ok (layers, root))
    (paths : merkleSiblingsFromLayers layers total opened = .ok siblings) :
    proofFromLeafCvs crate true (.slice table tableFits) (.slice leaves leavesFit) (some key) (.slice rows rowsFit)
        numRows rowWidth =
      .ok ⟨root, total.toUInt32, opened.map Nat.toUInt32, siblings⟩ := by
  have openedSome := length_pos_iff.mpr nonempty
  have rowsSome := length_pos_iff.mpr given
  simp only [proofFromLeafCvs, bind_eq_ok, reject_eq_ok, require_eq_ok, rejectSome_eq_ok, forM_eq_ok, exists_and_left,
    exists_const, Buffer.isNull, Buffer.len, Buffer.contents, indices]
  refine ⟨rfl, key, rfl, ?_, ?_, ?_, ?_, numRows * rowWidth, if_pos fits, ?_, ?_, ?_, ?_, ?_, checked, _,
    leafCount ▸ built, siblings, leafCount ▸ paths, by rw [leafCount]; rfl⟩
  · simp only [Bool.or_eq_false_iff, beq_eq_false_iff_ne, bne_eq_false_iff_eq]
    omega
  · simp only [Bool.or_eq_false_iff, beq_eq_false_iff_ne, bne_eq_false_iff_eq, chunkLen]
    omega
  · simp only [beq_eq_false_iff_ne]
    omega
  · simp only [Bool.or_eq_false_iff, beq_eq_false_iff_ne]
    omega
  · rw [leafCount, beq_eq_false_iff_ne]
    omega
  · rw [leafCount, bne_eq_false_iff_eq]
    omega
  · simpa using inRange
  · simpa [chunkLen] using leavesSize
  · rw [leafCount]
    simpa using below

end checks

theorem digestAt_eq {bytes : List UInt8} {i : Nat} {d : Digest} (cut : (bytes.drop (32 * i)).take 32 = d.toList) :
    digestAt bytes i = d := by
  refine Vector.ext fun j bound => ?_
  have entry : bytes[i * 32 + j]? = some d[j] := by
    rw [Nat.mul_comm, ← getElem?_drop, ← getElem?_take_of_lt bound, cut, Vector.getElem?_toList,
      Vector.getElem?_eq_getElem bound]
  rw [digestAt, Vector.getElem_ofFn, getD_eq_getElem?_getD, entry, Option.getD_some]

theorem toDigests_flatMap (ds : List Digest) : toDigests (ds.flatMap Vector.toList) = ds := by
  have sizes : ∀ d ∈ ds, (Vector.toList d).length = 32 := fun d _ => Vector.length_toList
  unfold toDigests
  rw [length_flatMap_of_size sizes, Nat.mul_div_cancel _ (by decide)]
  apply ext_getElem?
  intro i
  by_cases inside : i < ds.length
  · have entry := getElem?_eq_getElem inside
    rw [getElem?_tabulate _ inside, entry, digestAt_eq (drop_take_flatMap sizes entry)]
  · simp [tabulate, inside]

def tableBytes (crate : Blake3Crate) (key : Digest) (data : List UInt8) : List UInt8 :=
  ((withKey key).hashChunks crate (padToChunkBoundary data)).flatMap Vector.toList

section matrix
variable {data : List UInt8} (fits : (padToChunkBoundary data).length < 2 ^ 63)

include fits in
theorem expectedLeaves_eq : expectedLeaves data.length = chunkCount data.length := by
  have length := length_padded data
  rw [length_padToChunkBoundary] at length fits
  rw [expectedLeaves, chunkLen, Nat.mod_eq_of_lt (by omega), length, Nat.mul_div_cancel _ (by decide)]

section table
variable {crate : Blake3Crate} (conforms : crate.Conforms) (key : Digest)
include conforms fits

theorem toDigests_tableBytes : toDigests (tableBytes crate key data) =
    tabulate (((withKey key).nodes crate).leaf (padToChunkBoundary data))
      (chunkCount data.length) := by
  rw [tableBytes, toDigests_flatMap, ← chunkCount_padded]
  exact (nodes_lawful conforms key).hashChunks _ fits

theorem length_tableBytes : (tableBytes crate key data).length = chunkCount data.length * 32 := by
  have count := congrArg List.length ((nodes_lawful conforms key).hashChunks _ fits)
  rw [length_tabulate, chunkCount_padded] at count
  rw [tableBytes, length_flatMap_of_size fun d _ => Vector.length_toList, ← count]
  rfl

theorem tableBytes_fits : (tableBytes crate key data).length < 2 ^ 63 := by
  rw [length_tableBytes fits conforms]
  rw [length_padded] at fits
  omega

end table

section rows
variable {crate : Blake3Crate} (conforms : crate.Conforms) (key : Digest) {numRows rowWidth : Nat}
  (shape : data.length = numRows * rowWidth) (someWidth : 0 < rowWidth) {rows : List UInt32}
  (inRange : ∀ r ∈ rows, r.toNat < numRows)
include conforms fits shape someWidth inRange

theorem openedBytes_checked :
    ∀ entry ∈ (computeLeafIndicesFromRows (rows.map UInt32.toNat) rowWidth).zipIdx,
      checkOpened crate key (openedBytes data rows rowWidth) (toDigests (tableBytes crate key data)) entry = .ok () := by
  rintro ⟨i, j⟩ member
  have below := opened_below shape someWidth inRange
  have entry := mk_mem_zipIdx_iff_getElem?.mp member
  have chunk : chunkAt (openedBytes data rows rowWidth) j = chunkAt (padToChunkBoundary data) i :=
    drop_take_flatMap (fun i member => length_chunkAt_padded (below i member)) entry
  rw [checkOpened_eq_ok, toDigests_tableBytes fits conforms, chunk,
    getElem?_tabulate _ (below i (mem_of_getElem? entry))]
  rfl

theorem proofFromLeafCvs_rows (given : rows ≠ []) {rowsFit : rows.length < 2 ^ 63} :
    proofFromLeafCvs crate true (.slice (tableBytes crate key data) (tableBytes_fits fits conforms key))
        (.slice (openedBytes data rows rowWidth) (openedBytes_fits fits shape someWidth inRange)) (some key)
        (.slice rows rowsFit) numRows rowWidth =
      .ok ⟨(rowsOutput crate key data fits rows rowWidth).root,
        (rowsOutput crate key data fits rows rowWidth).totalLeaves,
        (rowsOutput crate key data fits rows rowWidth).leafIndices,
        (rowsOutput crate key data fits rows rowWidth).siblings⟩ := by
  let hasher := (withKey key).nodes crate
  let n := chunkCount data.length
  have below := opened_below shape someWidth inRange
  have nonempty := leafSet_nonempty someWidth given
  obtain ⟨i, member⟩ := exists_mem_of_ne_nil _ nonempty
  have someLeaves : 0 < n := Nat.zero_lt_of_lt (below i member)
  obtain ⟨r, first⟩ := exists_mem_of_ne_nil _ given
  have someRows : 0 < numRows := Nat.zero_lt_of_lt (inRange r first)
  have dataFits : numRows * rowWidth < 2 ^ 64 := by
    rw [← shape]
    rw [length_padded, chunkCount] at fits
    omega
  have leaves : expectedLeaves (numRows * rowWidth) = n := shape ▸ expectedLeaves_eq fits
  -- a single leaf has to be hashed again with the ROOT flag, from the opened bytes
  have leaf : n = 1 → (if n = 1 then some (chunkAt (openedBytes data rows rowWidth) 0) else none) =
      some (padToChunkBoundary data) := by
    intro single
    have only : computeLeafIndicesFromRows (rows.map UInt32.toNat) rowWidth = [0] := by
      have entries := entries_of_zeros nonempty fun i member => single ▸ below i member
      rwa [show toSet (leafSet (rows.map UInt32.toNat) rowWidth).entries = _ from
        collect_entries _] at entries
    have length := length_padded data
    rw [show chunkCount data.length = 1 from single] at length
    rw [if_pos single]
    simp only [openedBytes, only, flatMap_cons, flatMap_nil, append_nil, chunkAt, Nat.mul_zero,
      drop_zero]
    rw [take_take, Nat.min_self, take_of_length_le (by omega)]
  exact proofFromLeafCvs_of_checked given someRows someWidth dataFits inRange leaves someLeaves
    (length_tableBytes fits conforms key) rfl nonempty below (length_openedBytes shape someWidth inRange)
    (openedBytes_checked fits conforms key shape someWidth inRange)
    ((toDigests_tableBytes fits conforms key).symm ▸
      buildMerkleLayers_aligned conforms key (length_padded data) someLeaves fits leaf)
    (merkleSiblings_tableLayers hasher someLeaves _ nonempty below)

end rows
end matrix

theorem leafData_rowsOutput (crate : Blake3Crate) (key : Digest) {data : List UInt8}
    (fits : (padToChunkBoundary data).length < 2 ^ 63) {numRows rowWidth : Nat}
    (shape : data.length = numRows * rowWidth) (someWidth : 0 < rowWidth) {rows : List UInt32}
    (inRange : ∀ r ∈ rows, r.toNat < numRows) :
    (rowsOutput crate key data fits rows rowWidth).leafData.flatMap Chunk.bytes = openedBytes data rows rowWidth := by
  have below := opened_below shape someWidth inRange
  unfold rowsOutput openedBytes
  rw [flatMap_map]
  refine flatMap_congr fun i member => ?_
  have aligned := length_padded data ▸ Nat.dvd_mul_left _ _
  exact leafChunk_build _ key aligned (by rw [chunkCount_padded]; exact below i member)

/-- From the table of a matrix and the opened chunks alone comes the proof that is made from the whole matrix, for one
leaf as for many; and a chunk that does not belong to its entry of the table makes the call fail. -/
theorem leaf_cvs_proof_agrees {crate : Blake3Crate} (conforms : crate.Conforms) (key : Digest) (data : List UInt8)
    (dataFits : data.length < 2 ^ 63) (fits : (padToChunkBoundary data).length < 2 ^ 63) (numRows rowWidth : Nat)
    (shape : data.length = numRows * rowWidth) (someWidth : 0 < rowWidth) (rows : List UInt32)
    (rowsFit : rows.length < 2 ^ 63) (given : rows ≠ []) (inRange : ∀ r ∈ rows, r.toNat < numRows) :
    (∃ out, merkleRootAndProof crate true (.slice data dataFits) (some key) (.slice rows rowsFit) rowWidth =
        ⟨ok, none, some out⟩ ∧
      out.leafData.flatMap Chunk.bytes = openedBytes data rows rowWidth ∧
      merkleProofFromLeafCvs crate true (.slice (tableBytes crate key data) (tableBytes_fits fits conforms key))
          (.slice (openedBytes data rows rowWidth) (openedBytes_fits fits shape someWidth inRange)) (some key)
          (.slice rows rowsFit) numRows rowWidth =
        ⟨ok, none, some ⟨out.root, out.totalLeaves, out.leafIndices, out.siblings⟩⟩) ∧
    ∀ (outParameters : Bool) (leafCvs leafData : Buffer UInt8) (rowIndices : Buffer UInt32) (numRows rowWidth i j : Nat),
      (computeLeafIndicesFromRows (rowIndices.contents.map UInt32.toNat) rowWidth)[j]? = some i →
      (toDigests leafCvs.contents)[i]? ≠
        some ((withKey key).chunkCv crate (chunkAt leafData.contents j) i.toUInt64) →
      (merkleProofFromLeafCvs crate outParameters leafCvs leafData (some key) rowIndices numRows rowWidth).code ≠ ok := by
  refine ⟨⟨_, catchUnwind_eq_ok.mpr (rootAndProof_rows fits conforms key shape someWidth given inRange),
    leafData_rowsOutput crate key fits shape someWidth inRange,
    catchUnwind_eq_ok.mpr (proofFromLeafCvs_rows fits conforms key shape someWidth inRange given)⟩, ?_⟩
  intro outParameters leafCvs leafData rowIndices numRows rowWidth i j opened differs made
  obtain ⟨out, made⟩ := catchUnwind_code.mp made
  simp only [proofFromLeafCvs, bind_eq_ok, reject_eq_ok, require_eq_ok, rejectSome_eq_ok, forM_eq_ok, exists_and_left,
    exists_const] at made
  obtain ⟨-, k, ⟨⟩, -, -, -, -, -, -, -, -, -, -, -, checked, -⟩ := made
  exact differs (checkOpened_eq_ok.mp (checked (i, j) (mk_mem_zipIdx_iff_getElem?.mpr opened)))

section zeros
open Blake3 (zeroKey zeroChunk)

def zeroRows : List UInt8 := replicate 3000 0

theorem length_zeroRows : zeroRows.length = 3 * 1000 := length_replicate

theorem zeroRows_fit : zeroRows.length < 2 ^ 63 := length_zeroRows ▸ by decide

theorem padded_zeroRows_fit : (padToChunkBoundary zeroRows).length < 2 ^ 63 := by
  rw [padToChunkBoundary_eq, Blake3.length_fillChunks, length_zeroRows]
  decide

theorem openedRows_fit : (openedBytes zeroRows [0, 2] 1000).length < 2 ^ 63 :=
  openedBytes_fits padded_zeroRows_fit length_zeroRows (by decide) (by simp)

theorem chunkAt_zeroChunk : chunkAt zeroChunk 0 = zeroChunk := by
  rw [chunkAt, Nat.mul_zero, drop_zero, zeroChunk,
    take_of_length_le (by rw [length_replicate])]

theorem leaf_cvs_proof_agrees_zeros :
    (∃ out, merkleRootAndProof .reference true (.slice zeroRows zeroRows_fit) (some zeroKey) (.slice [0, 2] (by decide))
        1000 = ⟨ok, none, some out⟩ ∧
      out.leafData.flatMap Chunk.bytes = openedBytes zeroRows [0, 2] 1000 ∧
      merkleProofFromLeafCvs .reference true (.slice (tableBytes .reference zeroKey zeroRows)
          (tableBytes_fits padded_zeroRows_fit Blake3Crate.reference_conforms zeroKey))
          (.slice (openedBytes zeroRows [0, 2] 1000) openedRows_fit) (some zeroKey) (.slice [0, 2] (by decide)) 3 1000 =
        ⟨ok, none, some ⟨out.root, out.totalLeaves, out.leafIndices, out.siblings⟩⟩) ∧
    (merkleProofFromLeafCvs .reference true (.slice (replicate 32 0) (by decide)) (.slice zeroChunk (by rw [zeroChunk, length_replicate]; decide))
      (some zeroKey) (.slice [0] (by decide)) 1 1).code ≠ ok := by
  obtain ⟨agrees, fails⟩ := leaf_cvs_proof_agrees Blake3Crate.reference_conforms zeroKey zeroRows zeroRows_fit
    padded_zeroRows_fit 3 1000 length_zeroRows (by decide) [0, 2] (by decide) (by decide) (by simp)
  refine ⟨agrees, fails _ _ _ _ _ _ 0 0 rfl ?_⟩
  have cv : (withKey zeroKey).chunkCv .reference (chunkAt zeroChunk 0) 0 =
      Blake3.chunkCv (.keyed zeroKey) 0 zeroChunk := by
    rw [chunkAt_zeroChunk]
    rfl
  intro same
  have entry : (toDigests (replicate 32 0))[0]? = some zeroKey := by decide
  rw [show (Buffer.slice (replicate 32 (0 : UInt8)) _).contents = replicate 32 0 from rfl, entry] at same
  exact absurd ((Option.some.inj same).trans (cv.trans Blake3.chunkCv_zero_first)) (by decide)

end zeros
end ArcMiner.MiningCapi
