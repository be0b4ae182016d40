import ArcMiner.PearlBlake3.Completeness

/-! Rows of a matrix in the leaves of its tree.

`compute_leaf_indices_from_rows` lists the leaves that hold some rows, and `extract_bytes` puts a row
together again from the leaves of a proof.
-/

namespace ArcMiner.PearlBlake3

open Library Library.Rust List Nat MerkleTree OrderedList Blake3

variable {δ : Type}

section extract

def copyAt (result : List UInt8) (offset : Nat) (bytes : List UInt8) : List UInt8 :=
  result.take offset ++ bytes ++ result.drop (offset + bytes.length)

def overlaps (globalStart globalEnd leafIdx : Nat) : Bool :=
  leafIdx * chunkLen < globalEnd && globalStart < leafIdx * chunkLen + chunkLen

def copyLeaf (globalStart globalEnd : Nat) (state : List UInt8 × Nat) (leaf : Nat × Chunk) : List UInt8 × Nat :=
  let leafStart := leaf.1 * chunkLen
  let leafEnd := leafStart + chunkLen
  let copyStart := max globalStart leafStart
  let copyEnd := min globalEnd leafEnd
  let len := copyEnd - copyStart
  (copyAt state.1 (copyStart - globalStart) ((leaf.2.bytes.drop (copyStart - leafStart)).take len), state.2 + len)

def MerkleProof.extractBytes (self : MerkleProof δ) (globalStart length : Nat) : Result (List UInt8) := do
  let globalEnd := globalStart + length
  let (result, copied) := (self.leafIndices.zip self.leafData).foldl
    (fun state leaf => if overlaps globalStart globalEnd leaf.1 then copyLeaf globalStart globalEnd state leaf else state)
    (replicate length 0, 0)
  ensure (copied == length) "Not all required bytes covered by leaves"
  return result

end extract

section leaves
variable {rows : List Nat} {cols : Nat}

theorem mem_computeLeafIndicesFromRows {i : Nat} : i ∈ computeLeafIndicesFromRows rows cols ↔
      ∃ row ∈ rows, row * cols / 1024 ≤ i ∧ i ≤ ((row + 1) * cols - 1) / 1024 := by
  unfold computeLeafIndicesFromRows
  rw [mem_toSet, mem_flatMap]
  refine exists_congr fun row => and_congr_right fun _ => ?_
  simp only [mem_map, mem_range, chunkLen]
  constructor
  · rintro ⟨d, inside, rfl⟩
    omega
  · rintro ⟨low, high⟩
    exact ⟨i - row * cols / 1024, by omega, by omega⟩

theorem computeLeafIndices_below (positive : 0 < cols) {length : Nat} (inRange : ∀ row ∈ rows, (row + 1) * cols ≤ length) :
    ∀ i ∈ computeLeafIndicesFromRows rows cols, i < chunkCount length := by
  intro i member
  obtain ⟨row, here, -, high⟩ := mem_computeLeafIndicesFromRows.mp member
  have inside := inRange row here
  have wide : cols ≤ (row + 1) * cols := Nat.le_mul_of_pos_left cols (by omega)
  unfold chunkCount
  omega

theorem computeLeafIndices_nonempty (positive : 0 < cols) (nonempty : rows ≠ []) :
    computeLeafIndicesFromRows rows cols ≠ [] := by
  obtain ⟨row, here⟩ := exists_mem_of_ne_nil rows nonempty
  have grows : row * cols ≤ (row + 1) * cols - 1 := by
    rw [succ_mul]
    omega
  exact ne_nil_of_mem (mem_computeLeafIndicesFromRows.mpr ⟨row, here, le_refl _, Nat.div_le_div_right grows⟩)

def Covers (leaves rows : List Nat) (cols : Nat) : Prop :=
  ∀ row ∈ rows, ∀ place, row * cols ≤ place → place < (row + 1) * cols → place / 1024 ∈ leaves

theorem covers_computeLeafIndices : Covers (computeLeafIndicesFromRows rows cols) rows cols := by
  intro row listed place first last
  exact mem_computeLeafIndicesFromRows.mpr
    ⟨row, listed, Nat.div_le_div_right first, Nat.div_le_div_right (le_sub_one_of_lt last)⟩

theorem computeLeafIndices_subset (positive : 0 < cols) {other : List Nat} (covers : Covers other rows cols) :
    computeLeafIndicesFromRows rows cols ⊆ other := by
  intro i member
  obtain ⟨row, listed, low, high⟩ := mem_computeLeafIndicesFromRows.mp member
  have next : (row + 1) * cols = row * cols + cols := succ_mul row cols
  have place : max (row * cols) (i * 1024) / 1024 = i := by omega
  rw [← place]
  exact covers row listed _ (by omega) (by omega)

end leaves

section reassembly
variable {data : List UInt8} {start length : Nat}

def filledBefore (start length leaf : Nat) : Nat := min (start + length) (leaf * 1024) - start

def partRow (data : List UInt8) (start length filled : Nat) : List UInt8 :=
  ((data.drop start).take length).take filled ++ replicate (length - filled) 0

theorem copyAt_partRow (inside : start + length ≤ data.length) {filled len : Nat} (room : filled + len ≤ length) :
    copyAt (partRow data start length filled) filled ((data.drop (start + filled)).take len) =
      partRow data start length (filled + len) := by
  have front : (((data.drop start).take length).take filled).length = filled := by
    rw [length_take, length_take, length_drop]
    omega
  have piece : ((data.drop (start + filled)).take len).length = len := by
    rw [length_take, length_drop]
    omega
  have bytes : (((data.drop start).take length).drop filled).take len = (data.drop (start + filled)).take len := by
    rw [drop_take, drop_drop, take_take, Nat.min_eq_left (by omega)]
  have taken : (partRow data start length filled).take filled = ((data.drop start).take length).take filled := by
    rw [partRow, take_append_of_le_length (by omega), take_of_length_le (by omega)]
  have dropped : (partRow data start length filled).drop (filled + len) = replicate (length - (filled + len)) 0 := by
    rw [partRow, drop_append, drop_of_length_le (by omega), nil_append, drop_replicate, front]
    congr 1
    omega
  unfold copyAt
  rw [piece, taken, dropped, partRow, take_add, bytes]

theorem leafChunk_slice (tree : MerkleTree δ) {leaf offset len : Nat} (inLeaf : offset + len ≤ 1024)
    (inData : leaf * 1024 + offset + len ≤ tree.data.length) :
    ((tree.leafChunk leaf).bytes.drop offset).take len = (tree.data.drop (leaf * 1024 + offset)).take len := by
  have chunk := length_chunkAt tree.data leaf
  change ((chunkAt tree.data leaf ++ replicate _ 0).drop offset).take len = _
  rw [drop_append_of_le_length (by omega), take_append_of_le_length (by rw [length_drop]; omega),
    chunkAt, drop_take, take_take, drop_drop, Nat.min_eq_left (by omega), Nat.mul_comm]

theorem overlaps_iff {leaf : Nat} :
    overlaps start (start + length) leaf ↔ leaf * 1024 < start + length ∧ start < leaf * 1024 + 1024 := by
  rw [overlaps, Bool.and_eq_true, decide_eq_true_iff, decide_eq_true_iff]
  rfl

theorem copyLeaf_eq (tree : MerkleTree δ) (inside : start + length ≤ tree.data.length) {leaf : Nat}
    (meets : overlaps start (start + length) leaf) : copyLeaf start (start + length)
        (partRow tree.data start length (filledBefore start length leaf), filledBefore start length leaf)
        (leaf, tree.leafChunk leaf) =
      (partRow tree.data start length (filledBefore start length (leaf + 1)), filledBefore start length (leaf + 1)) := by
  obtain ⟨before, after⟩ := overlaps_iff.mp meets
  have filled : max start (leaf * 1024) - start = filledBefore start length leaf := by
    unfold filledBefore
    omega
  have place : leaf * 1024 + (max start (leaf * 1024) - leaf * 1024) = start + filledBefore start length leaf := by
    unfold filledBefore
    omega
  have grown : filledBefore start length leaf + (min (start + length) (leaf * 1024 + 1024) - max start (leaf * 1024)) =
      filledBefore start length (leaf + 1) := by
    unfold filledBefore
    omega
  have room : filledBefore start length (leaf + 1) ≤ length := by
    unfold filledBefore
    omega
  unfold copyLeaf chunkLen
  dsimp only
  rw [filled, leafChunk_slice tree (by omega) (by omega), place, copyAt_partRow inside (by omega), grown]

theorem copyLeaves_eq (tree : MerkleTree δ) (inside : start + length ≤ tree.data.length) {first count : Nat}
    (meet : ∀ i ∈ range' first count, overlaps start (start + length) i) :
    ((range' first count).map fun i => (i, tree.leafChunk i)).foldl (copyLeaf start (start + length))
        (partRow tree.data start length (filledBefore start length first), filledBefore start length first) =
      (partRow tree.data start length (filledBefore start length (first + count)),
        filledBefore start length (first + count)) := by
  induction count generalizing first with
  | zero => rfl
  | succ count ih =>
    rw [range'_succ] at meet ⊢
    obtain ⟨here, later⟩ := forall_mem_cons.mp meet
    rw [map_cons, foldl_cons, copyLeaf_eq tree inside here, ih later, Nat.add_right_comm, Nat.add_assoc]

theorem filter_overlaps (positive : 0 < length) {s : IndexSet}
    (held : ∀ i, overlaps start (start + length) i → i ∈ s.entries) :
    s.entries.filter (overlaps start (start + length)) =
      range' (start / 1024) ((start + length - 1) / 1024 + 1 - start / 1024) := by
  let front : IndexSet := ⟨s.entries.filter (overlaps start (start + length)), s.ordered.filter _⟩
  let run : IndexSet := ⟨range' (start / 1024) ((start + length - 1) / 1024 + 1 - start / 1024), pairwise_lt_range'⟩
  have same : front = run := by
    apply ext_mem
    intro i
    have meets : overlaps start (start + length) i ↔ _ := overlaps_iff
    rw [mem_filter, mem_range'_1]
    constructor
    · rintro ⟨-, here⟩
      have := meets.mp here
      omega
    · intro between
      have here := meets.mpr (by omega)
      exact ⟨held i here, here⟩
  exact congrArg entries same

theorem extractBytes_eq (tree : MerkleTree δ) (positive : 0 < length) (inside : start + length ≤ tree.data.length)
    {s : IndexSet} (held : ∀ i, overlaps start (start + length) i → i ∈ s.entries) (total : Nat) (root : δ)
    (siblings : List δ) :
    (⟨s.entries.map tree.leafChunk, s.entries, total, root, siblings⟩ : MerkleProof δ).extractBytes start length =
      .ok ((tree.data.drop start).take length) := by
  have zipped : s.entries.zip (s.entries.map tree.leafChunk) = s.entries.map fun i => (i, tree.leafChunk i) :=
    map_prod_left_eq_zip.symm
  have blank : filledBefore start length (start / 1024) = 0 := by
    unfold filledBefore
    omega
  have whole : filledBefore start length (start / 1024 + ((start + length - 1) / 1024 + 1 - start / 1024)) = length := by
    unfold filledBefore
    omega
  have zeros : partRow tree.data start length 0 = replicate length 0 := by simp [partRow]
  have row : partRow tree.data start length length = (tree.data.drop start).take length := by
    rw [partRow, take_take, Nat.min_self, Nat.sub_self, replicate_zero, append_nil]
  have consecutive := filter_overlaps positive held
  have meet : ∀ i ∈ range' (start / 1024) ((start + length - 1) / 1024 + 1 - start / 1024),
      overlaps start (start + length) i := by
    rw [← consecutive]
    intro i member
    exact (mem_filter.mp member).2
  have copied := copyLeaves_eq tree inside meet
  rw [blank, whole, zeros, row, ← consecutive] at copied
  have looped : (s.entries.map fun i => (i, tree.leafChunk i)).foldl
      (fun state leaf => if overlaps start (start + length) leaf.1 then copyLeaf start (start + length) state leaf else state)
      (replicate length 0, 0) = ((tree.data.drop start).take length, length) := by
    rw [← foldl_filter, filter_map]
    exact copied
  unfold MerkleProof.extractBytes
  simp only [zipped, looped, beq_self_eq_true, ensure, ↓reduceIte, ok_bind]
  rfl

end reassembly

theorem getMultileafProof_leaves {crate : Blake3Crate} (conforms : crate.Conforms) (key : Digest) (data : Slice)
    (filled : data.bytes ≠ []) {s : IndexSet} (nonempty : s.entries ≠ [])
    (below : ∀ i ∈ s.entries, i < chunkCount data.bytes.length) :
    ∃ total root siblings, (new crate data key).getMultileafProof s.entries =
      .ok ⟨s.entries.map (new crate data key).leafChunk, s.entries, total, root, siblings⟩ := by
  have self : toSet s.entries = s := collect_entries s
  by_cases large : 1024 < data.bytes.length
  · have made := getMultileafProof_eq (nodes_lawful conforms key) key data.fits large nonempty below
    rw [self] at made
    exact ⟨_, _, _, made⟩
  · have present : 0 < data.bytes.length := length_pos_iff.mpr filled
    have zeros : ∀ i ∈ s.entries, i < 1 := by
      intro i member
      have bound := below i member
      unfold chunkCount at bound
      omega
    have only : s.entries = [0] := by
      have entries := entries_of_zeros nonempty zeros
      rwa [self] at entries
    have tree : new crate data key =
        ⟨key, [[(Blake3Hasher.withKey key).hash crate data.bytes]], data.bytes⟩ := by
      unfold new build
      rw [if_neg (by simpa using filled), if_pos (by unfold chunkLen; omega)]
      rfl
    rw [tree, getMultileafProof_single key _ data.bytes nonempty zeros, only]
    exact ⟨_, _, _, rfl⟩

/-- Every listed row is read back from the proof of the listed leaves, and these are the fewest that hold the rows. -/
theorem rows_extracted {crate : Blake3Crate} (conforms : crate.Conforms) (key : Digest) (data : Slice) {cols : Nat}
    (positive : 0 < cols) {rows : List Nat} (inRange : ∀ row ∈ rows, (row + 1) * cols ≤ data.bytes.length) :
    let leaves := computeLeafIndicesFromRows rows cols
    (∀ row ∈ rows, ∃ proof, (new crate data key).getMultileafProof leaves = .ok proof ∧
      proof.leafIndices = leaves ∧
      proof.extractBytes (row * cols) cols = .ok ((data.bytes.drop (row * cols)).take cols)) ∧
    Covers leaves rows cols ∧ leaves.Nodup ∧ ∀ other, Covers other rows cols → leaves ⊆ other := by
  intro leaves
  let opened : IndexSet := ⟨leaves, ordered _⟩
  refine ⟨?_, covers_computeLeafIndices, opened.nodup, fun other => computeLeafIndices_subset positive⟩
  intro row listed
  have inside := inRange row listed
  rw [succ_mul] at inside
  have held : (new crate data key).data = data.bytes := data_build _ _ _
  have filled : data.bytes ≠ [] := by
    rw [← length_pos_iff]
    omega
  obtain ⟨total, root, siblings, made⟩ := getMultileafProof_leaves conforms key data filled
    (computeLeafIndices_nonempty positive (ne_nil_of_mem listed)) (s := opened)
    (computeLeafIndices_below positive inRange)
  refine ⟨_, made, rfl, ?_⟩
  rw [extractBytes_eq _ positive (by rwa [held]), held]
  intro i meets
  obtain ⟨before, after⟩ := overlaps_iff.mp meets
  refine mem_computeLeafIndicesFromRows.mpr ⟨row, listed, ?_, ?_⟩
  · omega
  · rw [succ_mul]
    omega

def countingSlice (len : Nat) (fits : len < 2 ^ 63) : Slice := ⟨(range len).map toUInt8, by simpa using fits⟩

theorem rows_extracted_straddling :
    ∃ proof, (new .reference (countingSlice 1030 (by decide)) zeroKey).getMultileafProof [0, 1] = .ok proof ∧
      proof.extractBytes 1020 10 = .ok [252, 253, 254, 255, 0, 1, 2, 3, 4, 5] := by
  obtain ⟨proof, made, -, row⟩ := (rows_extracted Blake3Crate.reference_conforms zeroKey
    (countingSlice 1030 (by decide)) (show 0 < 10 by decide)
    (show ∀ row ∈ [102], (row + 1) * 10 ≤ _ by simp [countingSlice])).1 102 (by simp)
  have leaves : computeLeafIndicesFromRows [102] 10 = [0, 1] := by decide
  have bytes : ((countingSlice 1030 (by decide)).bytes.drop (102 * 10)).take 10 = [252, 253, 254, 255, 0, 1, 2, 3, 4, 5] := by
    decide +kernel
  rw [leaves] at made
  rw [bytes] at row
  exact ⟨proof, made, row⟩

end ArcMiner.PearlBlake3
