import ArcMiner.MiningCapi.RootAndProof
import ArcMiner.PearlBlake3.Rows

/-! The tree over a zero-padded matrix, and the chunks that hold some of its rows. -/

namespace ArcMiner.MiningCapi

open Library Library.Rust PearlBlake3 MerkleTree UInt32
open Blake3 (chunkCount)
open Blake3Hasher (withKey)

def leafSet (rows : List Nat) (cols : Nat) : IndexSet :=
  ⟨computeLeafIndicesFromRows rows cols, OrderedList.ordered _⟩

theorem leafSet_nonempty {rows : List UInt32} {cols : Nat} (positive : 0 < cols) (given : rows ≠ []) :
    (leafSet (rows.map UInt32.toNat) cols).entries ≠ [] := computeLeafIndices_nonempty positive (by simpa using given)

def openedBytes (data : List UInt8) (rows : List UInt32) (rowWidth : Nat) : List UInt8 :=
  (computeLeafIndicesFromRows (rows.map toNat) rowWidth).flatMap
    (Blake3.chunkAt (padToChunkBoundary data))

section aligned
variable {crate : Blake3Crate} (conforms : crate.Conforms) (key : Digest) {bytes : List UInt8} {n : Nat}
  (size : bytes.length = n * 1024) (positive : 0 < n) (fits : bytes.length < 2 ^ 63)

include size in
theorem new_single (single : n = 1) : new crate ⟨bytes, fits⟩ key =
    ⟨key, [[(withKey key).hash crate bytes]], bytes⟩ := by
  have filled : bytes.isEmpty = false := by
    rw [List.isEmpty_eq_false_iff, ← List.length_pos_iff]
    omega
  unfold new build
  simp only [filled, size, single, chunkLen]
  rfl

include conforms size fits in
theorem hash_nodes (large : 2 ≤ n) : treeRoot ((withKey key).nodes crate).parentCv ((withKey key).nodes crate).rootCv
        (((withKey key).nodes crate).leaf bytes) n =
      (withKey key).hash crate bytes := by
  have count : chunkCount bytes.length = n := by
    rw [size, chunkCount]
    omega
  have node : ((withKey key).nodes crate).parentCv = Blake3.parentCv (.keyed key) :=
    parentCv_eq conforms key
  have root : ((withKey key).nodes crate).rootCv = Blake3.rootCv (.keyed key) := rootCv_eq conforms key
  rw [hash_eq conforms, Blake3.treeHash, if_neg (by omega), node, root, count]
  exact treeRoot_congr _ _ large fun i inside => leaf_nodes conforms key fits (count ▸ inside)

omit size in
include conforms in
theorem root_new_hash (nonempty : bytes ≠ []) (fits : bytes.length < 2 ^ 63) :
    (new crate ⟨bytes, fits⟩ key).root = .ok ((withKey key).hash crate bytes) := by
  rw [hash_eq conforms]
  exact root_new conforms key nonempty

include conforms size positive in
theorem numLeaves_new : (new crate ⟨bytes, fits⟩ key).numLeaves = .ok n := by
  rcases (show n = 1 ∨ 2 ≤ n by omega) with single | large
  · rw [new_single key size fits single, single]
    rfl
  · have layers := layers_build (nodes_lawful conforms key) key fits (by omega)
    have count : chunkCount bytes.length = n := by
      rw [size, chunkCount]
      omega
    have bottom := head?_levels ((withKey key).nodes crate).parentCv
      ((withKey key).nodes crate).rootCv (chunkCount bytes.length)
      (((withKey key).nodes crate).leaf bytes)
    rw [← layers, List.head?_eq_getElem?, count] at bottom
    unfold numLeaves
    rw [new, index_eq_ok bottom, ok_bind, length_tabulate]
    rfl

include conforms size positive in
theorem getMultileafProof_new {s : IndexSet} (nonempty : s.entries ≠ []) (below : ∀ i ∈ s.entries, i < n) :
    (new crate ⟨bytes, fits⟩ key).getMultileafProof s.entries =
      .ok ⟨s.entries.map (new crate ⟨bytes, fits⟩ key).leafChunk, s.entries, n,
        (withKey key).hash crate bytes,
        allOpenings ((withKey key).nodes crate).parentCv n
          (((withKey key).nodes crate).leaf bytes) s⟩ := by
  have self : OrderedList.toSet s.entries = s := OrderedList.collect_entries s
  rcases (show n = 1 ∨ 2 ≤ n by omega) with single | large
  · have zeros : ∀ i ∈ s.entries, i < 1 := fun i member => single ▸ below i member
    have only : s.entries = [0] := by
      have entries := entries_of_zeros nonempty zeros
      rwa [self] at entries
    rw [new_single key size fits single, getMultileafProof_single key _ bytes nonempty zeros,
      allOpenings_of_small _ _ _ (by omega), only, single]
    rfl
  · have count : chunkCount bytes.length = n := by
      rw [size, chunkCount]
      omega
    have made := getMultileafProof_eq (nodes_lawful conforms key) key fits (by omega) nonempty (count ▸ below)
    rw [self, count, hash_nodes conforms key size fits large] at made
    exact made

end aligned

section matrix
variable {data : List UInt8} (fits : (padToChunkBoundary data).length < 2 ^ 63)

theorem length_padded (data : List UInt8) : (padToChunkBoundary data).length = chunkCount data.length * 1024 := by
  rw [length_padToChunkBoundary, paddedChunkLen, divCeil, chunkLen, chunkCount]
  omega

theorem chunkCount_padded (data : List UInt8) :
    chunkCount (padToChunkBoundary data).length = chunkCount data.length := by
  rw [length_padded, chunkCount]
  omega

theorem length_chunkAt_padded {i : Nat} (inside : i < chunkCount data.length) :
    (Blake3.chunkAt (padToChunkBoundary data) i).length = 1024 := by
  rw [Blake3.length_chunkAt, length_padded]
  omega

section opened
variable {numRows rowWidth : Nat} (shape : data.length = numRows * rowWidth) (someWidth : 0 < rowWidth)
  {rows : List UInt32} (inRange : ∀ r ∈ rows, r.toNat < numRows)
include shape someWidth inRange

theorem opened_below : ∀ i ∈ computeLeafIndicesFromRows (rows.map toNat) rowWidth,
    i < chunkCount data.length := by
  rw [shape]
  apply computeLeafIndices_below someWidth
  intro row listed
  obtain ⟨r, here, rfl⟩ := List.mem_map.mp listed
  exact Nat.mul_le_mul_right rowWidth (inRange r here)

theorem length_openedBytes : (openedBytes data rows rowWidth).length =
    (computeLeafIndicesFromRows (rows.map toNat) rowWidth).length * 1024 :=
  length_flatMap_of_size fun i member => length_chunkAt_padded (opened_below shape someWidth inRange i member)

theorem opened_few : (computeLeafIndicesFromRows (rows.map toNat) rowWidth).length ≤
    chunkCount data.length := by
  have below := opened_below shape someWidth inRange
  have distinct : (computeLeafIndicesFromRows (rows.map toNat) rowWidth).Nodup :=
    OrderedList.nodup _
  have few := (List.subperm_of_subset distinct fun i member => List.mem_range.mpr (below i member)).length_le
  rwa [List.length_range] at few

include fits in
theorem openedBytes_fits : (openedBytes data rows rowWidth).length < 2 ^ 63 := by
  rw [length_openedBytes shape someWidth inRange]
  exact (Nat.mul_le_mul_right 1024 (opened_few shape someWidth inRange)).trans_lt (length_padded data ▸ fits)

end opened

def rowsOutput (crate : Blake3Crate) (key : Digest) (data : List UInt8)
    (fits : (padToChunkBoundary data).length < 2 ^ 63) (rows : List UInt32) (rowWidth : Nat) : ProofOutput :=
  let hasher := (withKey key).nodes crate
  let opened := computeLeafIndicesFromRows (rows.map toNat) rowWidth
  ⟨hasher.hash (padToChunkBoundary data), (chunkCount data.length).toUInt32,
    opened.map (new crate ⟨padToChunkBoundary data, fits⟩ key).leafChunk, opened.map Nat.toUInt32,
    allOpenings hasher.parentCv (chunkCount data.length) (hasher.leaf (padToChunkBoundary data))
      (leafSet (rows.map toNat) rowWidth)⟩

theorem rootAndProof_rows {crate : Blake3Crate} (conforms : crate.Conforms) (key : Digest) {numRows rowWidth : Nat}
    (shape : data.length = numRows * rowWidth) (someWidth : 0 < rowWidth) {rows : List UInt32} (given : rows ≠ [])
    (inRange : ∀ r ∈ rows, r.toNat < numRows) {dataFits : data.length < 2 ^ 63} {rowsFit : rows.length < 2 ^ 63} :
    rootAndProof crate true (.slice data dataFits) (some key) (.slice rows rowsFit) rowWidth =
      .ok (rowsOutput crate key data fits rows rowWidth) := by
  have below := opened_below shape someWidth inRange
  have nonempty := leafSet_nonempty someWidth given
  have someLeaves : 0 < chunkCount data.length := by
    obtain ⟨i, member⟩ := List.exists_mem_of_ne_nil _ nonempty
    exact Nat.zero_lt_of_lt (below i member)
  have rowCount : data.length / rowWidth = numRows := by rw [shape, Nat.mul_div_cancel _ someWidth]
  refine rootAndProof_eq_ok.mpr ⟨by omega, given, _, dif_pos fits, _,
    numLeaves_new conforms key (length_padded data) someLeaves fits, fun r member => ?_, _,
    getMultileafProof_new conforms key (length_padded data) someLeaves fits nonempty below, rfl⟩
  rw [rowCount]
  exact lt_of_lt_of_le (inRange r member) (le_max_left _ _)

end matrix
end ArcMiner.MiningCapi
