import ArcMiner.Prl.BSeedMerkleTreeHandle

/-! `MerkleRootAndProof.Compute` and `MerkleProofFromLeafCvs.Compute`.

They hand managed arrays to the native proof functions. For rows of whole leaves
in ascending order the opened leaves are the rows themselves, one after the other.
-/

namespace ArcMiner.Prl

open Library Library.CSharp AkoyaCrypto MiningCapi PearlBlake3 List Nat
open BSeedMerkleTreeHandle (ProofResult ofOutput)

def pinned {α : Type} (array : List α) : Buffer α :=
  if fits : array.length < 2 ^ 63 then
    if array.isEmpty then .null 0 else .slice array fits
  else .null array.length

def nativeFailure {α : Type} (called : CResult α) : Exception :=
  .application "MerkleRootAndProofException" called.code (called.message.getD "(no message)")

def computeRootAndProof (crate : Blake3Crate) (data : List UInt8) (key : Digest) (rowIndices : List UInt32)
    (rowWidth : Nat) : Result ProofResult := do
  if rowWidth = 0 then throw (.argumentOutOfRange "rowWidth")
  if rowIndices.isEmpty then throw (.argument "rowIndices must be non-empty.")
  let called := merkleRootAndProof crate true (pinned data) (some key) (pinned rowIndices) rowWidth
  match called.output with
  | some out => return ofOutput out
  | none => throw (nativeFailure called)

def leafBytesMessage (leaves bytes : Nat) : String :=
  s!"native proof returned {leaves} leaf indices for {bytes} leaf-data bytes"

def computeFromLeafCvs (crate : Blake3Crate) (leafCvs leafData : List UInt8) (key : Digest) (rowIndices : List UInt32)
    (numRows rowWidth : Nat) : Result ProofResult := do
  if leafCvs.isEmpty ∨ leafCvs.length % 32 ≠ 0 then
    throw (.argument "leafCvs must be a non-empty multiple of 32 bytes.")
  if leafData.isEmpty ∨ leafData.length % 1024 ≠ 0 then
    throw (.argument "leafData must be a non-empty multiple of 1024 bytes.")
  if rowIndices.isEmpty then throw (.argument "rowIndices must be non-empty.")
  if numRows = 0 then throw (.argumentOutOfRange "numRows")
  if rowWidth = 0 then throw (.argumentOutOfRange "rowWidth")
  let called := merkleProofFromLeafCvs crate true (pinned leafCvs) (pinned leafData) (some key) (pinned rowIndices)
    numRows rowWidth
  match called.output with
  | none => throw (nativeFailure called)
  | some out =>
    let leaves := out.leafIndices.length
    -- `checked((int)leafIdxLen * ChunkLen)`
    if 2 ^ 31 ≤ leaves * 1024 then throw .overflow
    if leafData.length ≠ leaves * 1024 then
      throw (BSeedMerkleTreeHandle.refuse (leafBytesMessage leaves leafData.length))
    return ⟨out.root, tabulate (Blake3.chunkAt leafData) leaves, out.leafIndices, out.totalLeaves.toNat, out.siblings⟩

theorem pinned_eq {α : Type} {array : List α} (given : array ≠ []) (fits : array.length < 2 ^ 63) :
    pinned array = .slice array fits := by
  unfold pinned
  rw [dif_pos fits, if_neg (by simpa using given)]

section rows
variable {crate : Blake3Crate} (conforms : crate.Conforms) (key : Digest) {data : List UInt8} {numRows rowWidth : Nat}
  (shape : data.length = numRows * rowWidth) (small : data.length < 2 ^ 31) (someWidth : 0 < rowWidth)
  {rows : List UInt32} (given : rows ≠ []) (inRange : ∀ r ∈ rows, r.toNat < numRows)

include small in
theorem padded_fits : (padToChunkBoundary data).length < 2 ^ 63 := by
  rw [length_padded, Blake3.chunkCount]
  omega

include shape someWidth given inRange in
theorem data_nonempty : data ≠ [] := by
  obtain ⟨r, member⟩ := exists_mem_of_ne_nil _ given
  rw [← length_pos_iff, shape]
  exact Nat.mul_pos (zero_lt_of_lt (inRange r member)) someWidth

include conforms shape small someWidth given inRange in
theorem computeRootAndProof_eq (rowsFit : rows.length < 2 ^ 63) : computeRootAndProof crate data key rows rowWidth =
      .ok (ofOutput (rowsOutput crate key data (padded_fits small) rows rowWidth)) := by
  have made : merkleRootAndProof crate true (.slice data (by omega)) (some key) (.slice rows rowsFit) rowWidth =
      ⟨ok, none, some (rowsOutput crate key data (padded_fits small) rows rowWidth)⟩ :=
    catchUnwind_eq_ok.mpr (rootAndProof_rows _ conforms key shape someWidth given inRange)
  unfold computeRootAndProof
  rw [if_neg (by omega), if_neg (by simpa using given), pinned_eq given rowsFit,
    pinned_eq (data_nonempty shape someWidth given inRange) (by omega)]
  simp only [made]
  rfl

def rowBytes (data : List UInt8) (rows : List UInt32) (rowWidth : Nat) : List UInt8 :=
  rows.flatMap fun row => (data.drop (row.toNat * rowWidth)).take rowWidth

theorem ascending_blocks {rows : List Nat} (ascending : rows.Pairwise (· < ·)) (size : Nat) :
    (rows.flatMap fun row => range' (row * size) size).Pairwise (· < ·) := by
  refine pairwise_flatMap.mpr ⟨fun row _ => pairwise_lt_range', ascending.imp ?_⟩
  intro row later below i first j second
  have := mem_range'_1.mp first
  have := mem_range'_1.mp second
  have next := Nat.mul_le_mul_right size below
  rw [succ_mul] at next
  omega

theorem leafIndices_aligned {rows : List Nat} (ascending : rows.Pairwise (· < ·)) {size : Nat} (positive : 0 < size) :
    MerkleTree.computeLeafIndicesFromRows rows (size * 1024) = rows.flatMap fun row => range' (row * size) size := by
  let blocks : IndexSet := ⟨rows.flatMap fun row => range' (row * size) size, ascending_blocks ascending size⟩
  have same : leafSet rows (size * 1024) = blocks := by
    refine OrderedList.ext_mem fun i => ?_
    show i ∈ MerkleTree.computeLeafIndicesFromRows rows (size * 1024) ↔ _
    rw [mem_computeLeafIndicesFromRows, mem_flatMap]
    refine exists_congr fun row => and_congr_right fun _ => ?_
    have next : (row + 1) * (size * 1024) = (row * size + size) * 1024 := by
      rw [← Nat.mul_assoc, succ_mul]
    rw [mem_range'_1, next, ← Nat.mul_assoc, Nat.mul_div_cancel _ (by decide)]
    omega
  exact congrArg OrderedList.entries same

theorem flatMap_chunkAt (data : List UInt8) (first count : Nat) :
    (range' first count).flatMap (Blake3.chunkAt data) = (data.drop (1024 * first)).take (1024 * count) := by
  induction count generalizing first with
  | zero => simp
  | succ count ih =>
    rw [range'_succ, flatMap_cons, ih, Blake3.chunkAt, mul_succ 1024 count, Nat.add_comm (1024 * count),
      take_add, drop_drop, mul_succ]

theorem padToChunkBoundary_aligned {data : List UInt8} (aligned : 1024 ∣ data.length) : padToChunkBoundary data = data := by
  obtain ⟨count, size⟩ := aligned
  have full := length_padToChunkBoundary data
  unfold padToChunkBoundary
  rw [show paddedChunkLen data.length - data.length = 0 by rw [paddedChunkLen, divCeil, chunkLen]; omega]
  simp

theorem openedBytes_aligned {data : List UInt8} (shape : data.length = numRows * rowWidth) (someWidth : 0 < rowWidth)
    (aligned : 1024 ∣ rowWidth) (ascending : (rows.map UInt32.toNat).Pairwise (· < ·)) :
    openedBytes data rows rowWidth = rowBytes data rows rowWidth := by
  obtain ⟨size, rfl⟩ := aligned
  have whole : 1024 ∣ data.length := shape ▸ Dvd.dvd.mul_left (Nat.dvd_mul_right 1024 size) numRows
  rw [openedBytes, padToChunkBoundary_aligned whole, Nat.mul_comm 1024 size,
    leafIndices_aligned ascending (by omega), flatMap_assoc, flatMap_map]
  refine flatMap_congr fun row _ => ?_
  rw [flatMap_chunkAt]
  congr 1
  · rw [Nat.mul_comm]
  · rw [Nat.mul_comm 1024, Nat.mul_assoc]

theorem chunks_openedBytes (fits : (padToChunkBoundary data).length < 2 ^ 63) (shape : data.length = numRows * rowWidth)
    (someWidth : 0 < rowWidth) (inRange : ∀ r ∈ rows, r.toNat < numRows) :
    tabulate (Blake3.chunkAt (openedBytes data rows rowWidth))
        (rowsOutput crate key data fits rows rowWidth).leafIndices.length =
      (rowsOutput crate key data fits rows rowWidth).leafData.map Chunk.bytes := by
  have count : (rowsOutput crate key data fits rows rowWidth).leafIndices.length =
      (rowsOutput crate key data fits rows rowWidth).leafData.length := by
    rw [rowsOutput, length_map, length_map]
  apply ext_getElem?
  intro i
  by_cases inside : i < (rowsOutput crate key data fits rows rowWidth).leafData.length
  · rw [getElem?_tabulate _ (by omega), getElem?_map, getElem?_eq_getElem inside, Option.map_some,
      ← leafData_rowsOutput crate key fits shape someWidth inRange]
    refine congrArg some (drop_take_flatMap (fun chunk _ => chunk.size) (getElem?_eq_getElem inside))
  · rw [getElem?_eq_none (by rw [length_tabulate]; omega), getElem?_eq_none (by rw [length_map]; omega)]

include conforms shape small someWidth given inRange in
theorem computeFromLeafCvs_eq (whole : 1024 ∣ data.length) (rowsFit : rows.length < 2 ^ 63) :
    computeFromLeafCvs crate (tableBytes crate key data) (openedBytes data rows rowWidth) key rows numRows rowWidth =
      .ok (ofOutput (rowsOutput crate key data (padded_fits small) rows rowWidth)) := by
  have fits := padded_fits small
  have table := length_tableBytes fits conforms key
  have opened := length_openedBytes shape someWidth inRange
  have few := opened_few shape someWidth inRange
  have anyLeaf : 0 < (MerkleTree.computeLeafIndicesFromRows (rows.map UInt32.toNat) rowWidth).length :=
    length_pos_iff.mpr (computeLeafIndices_nonempty someWidth (by simpa using given))
  obtain ⟨r, member⟩ := exists_mem_of_ne_nil _ given
  have someRows : 0 < numRows := zero_lt_of_lt (inRange r member)
  have total : Blake3.chunkCount data.length * 1024 = data.length := by
    obtain ⟨count, size⟩ := whole
    rw [Blake3.chunkCount]
    omega
  have leaves : (rowsOutput crate key data fits rows rowWidth).leafIndices.length =
      (MerkleTree.computeLeafIndicesFromRows (rows.map UInt32.toNat) rowWidth).length := length_map _
  have made : merkleProofFromLeafCvs crate true (.slice (tableBytes crate key data) (tableBytes_fits fits conforms key))
      (.slice (openedBytes data rows rowWidth) (openedBytes_fits fits shape someWidth inRange)) (some key)
      (.slice rows rowsFit) numRows rowWidth = ⟨ok, none, _⟩ :=
    catchUnwind_eq_ok.mpr (proofFromLeafCvs_rows fits conforms key shape someWidth inRange given)
  have tableGiven : tableBytes crate key data ≠ [] := by
    rw [← length_pos_iff, table]
    omega
  have openedGiven : openedBytes data rows rowWidth ≠ [] := by
    rw [← length_pos_iff, opened]
    omega
  unfold computeFromLeafCvs
  rw [if_neg (by simp [tableGiven, table]), if_neg (by simp [openedGiven, opened]), if_neg (by simpa using given),
    if_neg (by omega), if_neg (by omega), pinned_eq tableGiven (tableBytes_fits fits conforms key),
    pinned_eq openedGiven (openedBytes_fits fits shape someWidth inRange), pinned_eq given rowsFit]
  simp only [made]
  rw [leaves, if_neg (by omega), if_neg (not_not.mpr opened), ← leaves, chunks_openedBytes key fits shape someWidth inRange]
  rfl

end rows
end ArcMiner.Prl
