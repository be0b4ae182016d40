import ArcMiner.AkoyaCrypto.MerkleRoot
import ArcMiner.MiningCapi.LeafCvs

/-! `MerkleProofBuilder.BuildProof`, beside the proof generators of the native libraries.

The builder walks up the tree with the nodes it knows, as the verifier will, and notes each sibling
that the verifier will ask for. Chunks and nodes are numbered by `uint`s that stay far below their
range; byte offsets are `int`s that wrap.
-/

namespace ArcMiner.AkoyaCrypto

open Library Library.CSharp PearlBlake3 List Nat OrderedList HostBlake3 UInt32 MerkleProof MerkleTree
open Blake3 (chunkCount)

structure MerkleProof where
  leafData : List (List UInt8)
  leafIndices : List UInt32
  totalLeaves : UInt32
  siblings : List Digest

namespace MerkleProofBuilder

def toUInt (n : Int) : Nat := (n % 2 ^ 32).toNat

def paddedLen (length : Nat) : Int := int32 ((int32 (int32 (length + 1024) - 1)).tdiv 1024 * 1024)

def totalLeaves (length : Nat) : Nat := toUInt ((paddedLen length).tdiv 1024)

def rowChunks (totalLeaves : Nat) (rowWidth : Int) (rowIdx : UInt32) : List Nat :=
  let byteStart := int32 (int32 rowIdx.toNat * rowWidth)
  let byteEnd := int32 (int32 (byteStart + rowWidth) - 1)
  let chunkStart := toUInt (byteStart.tdiv 1024)
  let chunkEnd := toUInt (byteEnd.tdiv 1024)
  range' chunkStart (min (chunkEnd + 1) totalLeaves - chunkStart)

def requiredChunks (totalLeaves : Nat) (rowIndices : List UInt32) (rowWidth : Int) : IndexSet :=
  .toSet (rowIndices.flatMap (rowChunks totalLeaves rowWidth))

/-- The data filled up to whole chunks; a new array of negative length is an overflow. -/
def padded (data : List UInt8) : Result (List UInt8) :=
  if paddedLen data.length = data.length then .ok data
  else if paddedLen data.length < 0 then .error .overflow
  else .ok (data ++ replicate ((paddedLen data.length).toNat - data.length) 0)

structure Walk where
  levelLen : Nat
  allCvs : List Digest
  known : NodeMap Digest
  siblings : List Digest

section walk
variable (key : Digest)

def visit (walk : Walk) (state : NodeMap Digest × List Digest) (entry : Nat × Digest) :
    Result (NodeMap Digest × List Digest) :=
  let (next, siblings) := state
  let (i, cv) := entry
  if i % 2 = 0 then
    match walk.known.find? (i + 1) with
    | some (_, right) => .ok (next.insert (i / 2, parentCv cv right key), siblings)
    | none =>
      if i + 1 < walk.levelLen then do
        let right ← index walk.allCvs (i + 1 : Nat)
        return (next.insert (i / 2, parentCv cv right key), siblings ++ [right])
      else .ok (next.insert (i / 2, cv), siblings)
  else if walk.known.contains (i - 1) then .ok (next, siblings)
  else do
    let left ← index walk.allCvs (i - 1 : Nat)
    return (next.insert (i / 2, parentCv left cv key), siblings ++ [left])

def walkLevel (walk : Walk) : Result Walk := do
  let (next, siblings) ← walk.known.entries.foldlM (visit key walk) (.empty, walk.siblings)
  return ⟨walk.levelLen / 2 + walk.levelLen % 2, nextLevel key walk.allCvs, next, siblings⟩

def walkLevels (walk : Walk) : Result Walk :=
  whileLoop Walk.levelLen (fun walk => decide (2 < walk.levelLen)) (walkLevel key) walk

def finalSiblings (walk : Walk) : Result (List Digest) := do
  let siblings ← if walk.known.contains 0 then pure walk.siblings else
    (fun left => walk.siblings ++ [left]) <$> index walk.allCvs 0
  if walk.known.contains 1 || decide (walk.allCvs.length ≤ 1) then pure siblings else
    (fun right => siblings ++ [right]) <$> index walk.allCvs 1

end walk

def buildProof (data key : List UInt8) (rowIndices : List UInt32) (rowWidth : Int) : Result MerkleProof :=
  if size : key.length = 32 then
    let key : Digest := ⟨key.toArray, size_key size⟩
    if rowWidth ≤ 0 then .error (.argumentOutOfRange "rowWidth")
    else
      let totalLeaves := totalLeaves data.length
      if totalLeaves ≤ 1 then .ok ⟨[(data.take 1024).rightpad 1024 0], [0], 1, []⟩
      else do
        let leafIndices := requiredChunks totalLeaves rowIndices rowWidth
        let paddedData ← padded data
        let allCvs ← (range totalLeaves).mapM fun i =>
          chunkCv ((paddedData.drop (1024 * i)).take 1024) i.toUInt64 key
        let known ← leafIndices.entries.mapM fun (i : Nat) => (fun cv => (i, cv)) <$> index allCvs (i : Int)
        let walk ← walkLevels key ⟨totalLeaves, allCvs, .collect _ known, []⟩
        let siblings ← finalSiblings walk
        return ⟨leafIndices.entries.map (Blake3.chunkAt paddedData), leafIndices.entries.map toUInt32,
          totalLeaves.toUInt32, siblings⟩
  else .error (.argument "Key must be 32 bytes.")

section mirror
variable {key : Digest} {hasher : NodeHasher Digest} (same : ∀ left right, parentCv left right key =
  hasher.parentCv left right) {n : Nat} (f : Nat → Digest) {s : IndexSet}

theorem index_tabulate {i : Nat} (bound : i < n) : index (tabulate f n) (i : Int) = .ok (f i) :=
  index_of_entry (getElem?_tabulate f bound)

include same in
theorem visit_mirrors {i : Nat} (bound : i < n) (next : NodeMap Digest) (siblings rest all : List Digest) :
    ∃ after, climbNode hasher (.graph f s) n (next, opened n f s i ++ rest) (i, f i) = some (after, rest) ∧
      visit key ⟨n, tabulate f n, .graph f s, all⟩ (next, siblings) (i, f i) =
        .ok (after, siblings ++ opened n f s i) := by
  unfold visit climbNode opened
  simp only [contains_graph, contains_eq_decide]
  rcases mod_two_eq_zero_or_one i with even | odd
  · have left : i % 2 ≠ 1 := by omega
    by_cases present : i + 1 ∈ s.entries
    · have known := find?_graph_of_mem f present
      exact ⟨next.insert (i / 2, hasher.parentCv (f i) (f (i + 1))), by simp [even, known, present],
        by simp [even, known, present, same]⟩
    · have unknown := find?_graph_of_not_mem f present
      by_cases partner : i + 1 < n
      · have right : index (tabulate f n) (i + 1 : Int) = .ok (f (i + 1)) := index_tabulate f partner
        exact ⟨next.insert (i / 2, hasher.parentCv (f i) (f (i + 1))),
          by simp [even, unknown, present, partner, nextSibling],
          by simp [even, unknown, present, partner, right, same]⟩
      · exact ⟨next.insert (i / 2, f i), by simp [even, unknown, present, partner],
          by simp [even, unknown, present, partner]⟩
  · by_cases present : i - 1 ∈ s.entries
    · exact ⟨next, by simp [odd, present], by simp [odd, present]⟩
    · have left := index_tabulate f (show i - 1 < n by omega)
      exact ⟨next.insert (i / 2, hasher.parentCv (f (i - 1)) (f i)), by simp [odd, present, nextSibling],
        by simp [odd, present, left, same]⟩

include same in
theorem visits_eq (below : ∀ j ∈ s.entries, j < n) (all : List Digest) (pre post : List Nat)
    (split : s.entries = pre ++ post) (siblings : List Digest) :
    (post.map fun i => (i, f i)).foldlM (visit key ⟨n, tabulate f n, .graph f s, all⟩)
        (.graph (up hasher.parentCv n f) (.toSet (pre.map (· / 2))), siblings) =
      .ok (.graph (up hasher.parentCv n f) (halve s), siblings ++ post.flatMap (opened n f s)) := by
  induction post generalizing pre siblings with
  | nil =>
    rw [append_nil] at split
    simp [halve, split, pure, Except.pure]
  | cons i post ih =>
    have bound := below i (by simp [split])
    obtain ⟨after, climbed, visited⟩ := visit_mirrors same f bound
      (.graph (up hasher.parentCv n f) (.toSet (pre.map (· / 2)))) siblings [] all
    -- the verifier records the parent of each node in turn
    obtain rfl : _ = after := congrArg Prod.fst
      (Option.some.inj ((climbNode_eq hasher f split below []).symm.trans climbed))
    rw [map_cons, foldlM_cons, visited, ok_bind, ih (pre ++ [i]) (by simp [split]), flatMap_cons,
      append_assoc]

include same in
theorem walkLevel_eq (below : ∀ j ∈ s.entries, j < n) (siblings : List Digest) :
    walkLevel key ⟨n, tabulate f n, .graph f s, siblings⟩ =
      .ok ⟨halfUp n, tabulate (up hasher.parentCv n f) (halfUp n), .graph (up hasher.parentCv n f) (halve s),
        siblings ++ openings n f s⟩ := by
  have run := visits_eq same f below siblings [] s.entries rfl siblings
  have start : (empty : NodeMap Digest) = .graph (up hasher.parentCv n f) (.toSet (List.map (· / 2) [])) := rfl
  have pairs : nextLevel key (tabulate f n) = tabulate (up hasher.parentCv n f) (halfUp n) := by
    rw [← pairUp_tabulate, nextLevel]
    exact congrArg (pairUp · (tabulate f n)) (funext fun left => funext (same left))
  have half : n / 2 + n % 2 = halfUp n := by
    unfold halfUp
    omega
  unfold walkLevel
  simp only [entries_graph, start, run, ok_bind, pairs, half]
  rfl

theorem walkLevels_decreases (key : Digest) :
    Decreases Walk.levelLen (fun walk => decide (2 < walk.levelLen)) (walkLevel key) := by
  apply Decreases.of_except
  · intro walk running
    have large := of_decide_eq_true running
    omega
  · intro walk after running result
    have large := of_decide_eq_true running
    obtain ⟨state, -, result⟩ := bind_eq_ok.mp result
    cases result
    change walk.levelLen / 2 + walk.levelLen % 2 < walk.levelLen
    omega

theorem finalSiblings_eq {s : IndexSet} (below : ∀ j ∈ s.entries, j < 2) (nonempty : s.entries ≠ []) (f : Nat → Digest)
    (siblings : List Digest) :
    finalSiblings ⟨2, tabulate f 2, .graph f s, siblings⟩ = .ok (siblings ++ openings 2 f s) := by
  have first : index (tabulate f 2) 0 = .ok (f 0) := index_tabulate f (show 0 < 2 by decide)
  have second : index (tabulate f 2) 1 = .ok (f 1) := index_tabulate f (show 1 < 2 by decide)
  unfold finalSiblings
  simp only [contains_graph, contains_eq_decide, length_tabulate]
  rcases entries_below_two below nonempty with only | only | both
  · simp [only, openings, opened, second, pure, Except.pure]
  · simp [only, openings, opened, first, pure, Except.pure]
  · simp [both, openings, opened, pure, Except.pure]

include same in
/-- The builder collects the openings of the whole tree. -/
theorem walk_eq (large : 2 ≤ n) (below : ∀ j ∈ s.entries, j < n) (nonempty : s.entries ≠ []) (siblings : List Digest) :
    walkLevels key ⟨n, tabulate f n, .graph f s, siblings⟩ >>= finalSiblings =
      .ok (siblings ++ allOpenings hasher.parentCv n f s) := by
  induction n using Nat.strong_induction_on generalizing f s siblings with
  | _ n ih =>
    rw [allOpenings_of_large _ f s large]
    rcases (show n = 2 ∨ 3 ≤ n by omega) with rfl | more
    · unfold walkLevels
      rw [whileLoop_stop _ (by simp), allOpenings_of_small _ _ _ (by decide), append_nil]
      exact finalSiblings_eq below nonempty f siblings
    · have running : decide (2 < n) = true := decide_eq_true more
      have step : walkLevels key ⟨n, tabulate f n, .graph f s, siblings⟩ = walkLevels key
          ⟨halfUp n, tabulate (up hasher.parentCv n f) (halfUp n), .graph (up hasher.parentCv n f) (halve s),
            siblings ++ openings n f s⟩ := by
        conv_lhs => unfold walkLevels
        rw [whileLoop_step (walkLevels_decreases key) _ running, walkLevel_eq same f below]
        rfl
      rw [step, ih (halfUp n) (halfUp_lt large) (up hasher.parentCv n f) (leftCount_halfUp more).2 (halve_below below)
        (halve_nonempty nonempty), append_assoc]

end mirror

section offsets

theorem toUInt_tdiv {n : Nat} (fits : n < 2 ^ 31) : toUInt ((n : Int).tdiv 1024) = n / 1024 := by
  rw [show (n : Int).tdiv 1024 = ((n / 1024 : Nat) : Int) from rfl, toUInt]
  omega

theorem mem_rowChunks {total width i : Nat} {row : UInt32} (positive : 0 < width)
    (fits : (row.toNat + 1) * width < 2 ^ 31) : i ∈ rowChunks total width row ↔
      row.toNat * width / 1024 ≤ i ∧ i ≤ ((row.toNat + 1) * width - 1) / 1024 ∧ i < total := by
  have next : (row.toNat + 1) * width = row.toNat * width + width := succ_mul _ _
  have rowFits : row.toNat ≤ row.toNat * width := Nat.le_mul_of_pos_right _ positive
  have signed : int32 row.toNat = row.toNat := int32_of_fits (by omega) (by omega)
  have start : int32 (int32 row.toNat * width) = ((row.toNat * width : Nat) : Int) := by
    rw [signed, ← Int.natCast_mul, int32_of_fits (by omega) (by omega)]
  have sum : int32 (((row.toNat * width : Nat) : Int) + width) = ((row.toNat + 1) * width : Nat) := by
    rw [next, Int.natCast_add]
    exact int32_of_fits (by omega) (by omega)
  have stop : int32 (int32 (((row.toNat * width : Nat) : Int) + width) - 1) = (((row.toNat + 1) * width - 1 : Nat) : Int) := by
    rw [sum, int32_of_fits (by omega) (by omega)]
    omega
  unfold rowChunks
  simp only [start, stop, toUInt_tdiv (show row.toNat * width < 2 ^ 31 by omega),
    toUInt_tdiv (show (row.toNat + 1) * width - 1 < 2 ^ 31 by omega), mem_range'_1]
  omega

variable {length : Nat}

theorem paddedLen_of_fits (large : 1024 < length) (fits : length ≤ 2 ^ 31 - 1024) :
    paddedLen length = (chunkCount length * 1024 : Nat) := by
  have host := paddedLength_of_fits (by omega) fits
  have count : chunkCount length = (length + 1023) / 1024 := rfl
  change (if paddedLen length = 0 then 1024 else paddedLen length) = _ at host
  split at host
  · omega
  · exact host

theorem paddedLen_of_overflow (large : 2 ^ 31 - 1024 < length) (span : length < 2 ^ 31) : paddedLen length < -1024 := by
  have host := paddedLength_of_overflow large span
  change (if paddedLen length = 0 then 1024 else paddedLen length) < _ at host
  split at host
  · omega
  · exact host

theorem totalLeaves_of_fits (large : 1024 < length) (fits : length ≤ 2 ^ 31 - 1024) :
    totalLeaves length = chunkCount length := by
  have count : chunkCount length = (length + 1023) / 1024 := rfl
  rw [totalLeaves, paddedLen_of_fits large fits, toUInt_tdiv (by omega), Nat.mul_div_cancel _ (by decide)]

theorem totalLeaves_of_overflow (large : 2 ^ 31 - 1024 < length) (span : length < 2 ^ 31) : 1 < totalLeaves length := by
  have negative := paddedLen_of_overflow large span
  have low : -2 ^ 31 ≤ paddedLen length := by
    unfold paddedLen int32
    exact Int.le_bmod (by decide)
  have quotient : (paddedLen length).tdiv 1024 = -((-paddedLen length) / 1024) := by
    rw [← Int.tdiv_eq_ediv_of_nonneg (by omega), Int.neg_tdiv, neg_neg]
  unfold totalLeaves toUInt
  rw [quotient]
  omega

theorem padded_of_fits {data : List UInt8} (large : 1024 < data.length) (fits : data.length ≤ 2 ^ 31 - 1024) :
    padded data = .ok (padToChunkBoundary data) := by
  have count : chunkCount data.length = (data.length + 1023) / 1024 := rfl
  unfold padded
  rw [paddedLen_of_fits large fits, padToChunkBoundary_eq, Blake3.fillChunks]
  by_cases whole : ((chunkCount data.length * 1024 : Nat) : Int) = data.length
  · have none : chunkCount data.length * 1024 - data.length = 0 := by omega
    rw [if_pos whole, none, replicate_zero, append_nil]
  · rw [if_neg whole, if_neg (by omega), Int.toNat_natCast]

end offsets

section rows
variable {data : List UInt8} {rowWidth : Nat} (positive : 0 < rowWidth) {rows : List UInt32}
  (inRange : ∀ r ∈ rows, (r.toNat + 1) * rowWidth ≤ data.length)
include positive inRange

open MiningCapi

theorem opened_below : ∀ i ∈ (leafSet (rows.map toNat) rowWidth).entries, i < chunkCount data.length := by
  apply computeLeafIndices_below positive
  intro row listed
  obtain ⟨r, here, rfl⟩ := mem_map.mp listed
  exact inRange r here

theorem requiredChunks_eq (span : data.length < 2 ^ 31) :
    requiredChunks (chunkCount data.length) rows rowWidth = leafSet (rows.map toNat) rowWidth := by
  apply ext_mem
  intro i
  have below := opened_below positive inRange i
  have member : i ∈ (leafSet (rows.map toNat) rowWidth).entries ↔ _ := mem_computeLeafIndicesFromRows
  rw [requiredChunks, mem_toSet, mem_flatMap]
  constructor
  · rintro ⟨r, here, chunk⟩
    obtain ⟨low, high, -⟩ := (mem_rowChunks positive (Nat.lt_of_le_of_lt (inRange r here) span)).mp chunk
    exact member.mpr ⟨r.toNat, mem_map_of_mem here, low, high⟩
  · intro chunk
    obtain ⟨row, listed, low, high⟩ := member.mp chunk
    obtain ⟨r, here, rfl⟩ := mem_map.mp listed
    exact ⟨r, here, (mem_rowChunks positive (Nat.lt_of_le_of_lt (inRange r here) span)).mpr ⟨low, high, below chunk⟩⟩

end rows

section build
variable {crate : Blake3Crate} (conforms : crate.Conforms) (key : Digest) {data : List UInt8} (large : 1024 < data.length)

open MiningCapi

include conforms large in
theorem leafCvs_of_fits (fits : data.length ≤ 2 ^ 31 - 1024) : (range (chunkCount data.length)).mapM (fun i =>
      chunkCv (((padToChunkBoundary data).drop (1024 * i)).take 1024) i.toUInt64 key) =
      .ok (tabulate (((Blake3Hasher.withKey key).nodes crate).leaf (padToChunkBoundary data))
        (chunkCount data.length)) := by
  have size := length_padded data
  have count : chunkCount data.length = (data.length + 1023) / 1024 := rfl
  rw [padToChunkBoundary_eq, leafCvs_eq, ← padToChunkBoundary_eq]
  refine congrArg Except.ok (tabulate_congr fun i bound => ?_)
  exact (leaf_nodes conforms key (by omega) (by rwa [chunkCount_padded])).symm

include conforms large in
theorem buildProof_of_fits (fits : data.length ≤ 2 ^ 31 - 1024) {rowWidth : Nat} (positive : 0 < rowWidth)
    {rows : List UInt32} (given : rows ≠ []) (inRange : ∀ r ∈ rows, (r.toNat + 1) * rowWidth ≤ data.length) :
    let opened := leafSet (rows.map toNat) rowWidth
    buildProof data key.toList rows rowWidth =
      .ok ⟨opened.entries.map (Blake3.chunkAt (padToChunkBoundary data)), opened.entries.map toUInt32,
        (chunkCount data.length).toUInt32,
        allOpenings ((Blake3Hasher.withKey key).nodes crate).parentCv (chunkCount data.length)
          (((Blake3Hasher.withKey key).nodes crate).leaf (padToChunkBoundary data)) opened⟩ := by
  intro opened
  have count : chunkCount data.length = (data.length + 1023) / 1024 := rfl
  have below := opened_below positive inRange
  have nonempty : opened.entries ≠ [] := computeLeafIndices_nonempty positive (by simpa using given)
  have keyBytes : (⟨key.toList.toArray, by simp⟩ : Digest) = key := by simp [Vector.toList]
  have same (left right : Digest) : parentCv left right key =
      ((Blake3Hasher.withKey key).nodes crate).parentCv left right := by
    rw [HostBlake3.parentCv_eq]
    exact (congrFun (congrFun (parentCv_eq conforms key) left) right).symm
  generalize leaves : ((Blake3Hasher.withKey key).nodes crate).leaf (padToChunkBoundary data) = f
  have cvs := leafCvs_of_fits conforms key large fits
  rw [leaves] at cvs
  have known : opened.entries.mapM (fun (i : Nat) => (fun cv => (i, cv)) <$>
      index (tabulate f (chunkCount data.length)) (i : Int)) = .ok (opened.entries.map fun i => (i, f i)) := by
    apply mapM_eq_ok
    intro i member
    rw [index_tabulate f (below i member)]
    rfl
  have start : collect Prod.fst (opened.entries.map fun i => (i, f i)) = .graph f opened := by
    rw [collect_graph, toSet, collect_entries]
  have walked := walk_eq same f (by omega) below nonempty []
  rw [nil_append] at walked
  unfold buildProof
  rw [dif_pos (by simp)]
  simp only [keyBytes, totalLeaves_of_fits large fits]
  rw [if_neg (by omega), if_neg (by omega), padded_of_fits large fits, ok_bind,
    requiredChunks_eq positive inRange (by omega), cvs, ok_bind, known, ok_bind, start, ← bind_assoc, walked, ok_bind]
  rfl

theorem buildProof_of_overflow (large : 2 ^ 31 - 1024 < data.length) (span : data.length < 2 ^ 31) {rowWidth : Nat}
    (positive : 0 < rowWidth) (rows : List UInt32) : buildProof data key.toList rows rowWidth = .error .overflow := by
  have negative := paddedLen_of_overflow large span
  have several := totalLeaves_of_overflow large span
  have refused : padded data = .error .overflow := by
    unfold padded
    rw [if_neg (by omega), if_pos (by omega)]
  unfold buildProof
  rw [dif_pos (by simp)]
  dsimp only
  rw [if_neg (by omega), if_neg (by omega), refused, error_bind]

/-- The native generators agree on every matrix of two chunks or more, and the builder agrees with them exactly
while the padded length stays an `int`. -/
theorem proof_generators_agree {crate : Blake3Crate} (conforms : crate.Conforms) (key : Digest) (data : Span)
    (twoChunks : 1024 < data.bytes.length) (filled : Rust.Slice) (fill : filled.bytes = padToChunkBoundary data.bytes)
    {rowWidth : Nat} (positive : 0 < rowWidth) {rows : List UInt32} (given : rows ≠ [])
    (inRange : ∀ r ∈ rows, (r.toNat + 1) * rowWidth ≤ data.bytes.length) : let hasher := (Blake3Hasher.withKey key).nodes crate
    let opened := computeLeafIndicesFromRows (rows.map toNat) rowWidth
    ∃ proof layers root,
      (new crate filled key).getMultileafProof opened = .ok proof ∧ proof.leafIndices = opened ∧
      buildMerkleLayersFromLeafCvs hasher (hasher.hashChunks filled.bytes) none = .ok (layers, root) ∧
      merkleSiblingsFromLayers layers proof.totalLeaves opened = .ok proof.siblings ∧
      ((∃ host, buildProof data.bytes key.toList rows rowWidth = .ok host ∧
          host.leafIndices.map toNat = proof.leafIndices ∧ host.siblings = proof.siblings) ↔
        data.bytes.length ≤ 2 ^ 31 - 1024) := by
  intro hasher opened
  obtain ⟨bytes, bytesFit⟩ := filled
  change bytes = padToChunkBoundary data.bytes at fill
  subst fill
  have two : 2 ≤ chunkCount data.bytes.length := by
    unfold chunkCount
    omega
  have below := opened_below positive inRange
  have nonempty := leafSet_nonempty positive given
  have lawful := nodes_lawful conforms key
  have table : hasher.hashChunks (padToChunkBoundary data.bytes) =
      tabulate (hasher.leaf (padToChunkBoundary data.bytes)) (chunkCount data.bytes.length) := by
    rw [lawful.hashChunks _ bytesFit, chunkCount_padded]
    rfl
  have self := collect_entries (leafSet (rows.map toNat) rowWidth)
  have listed : merkleSiblingsFromLayers (levels hasher.parentCv hasher.rootCv (chunkCount data.bytes.length)
        (hasher.leaf (padToChunkBoundary data.bytes))) (chunkCount data.bytes.length) opened =
      .ok (allOpenings hasher.parentCv (chunkCount data.bytes.length) (hasher.leaf (padToChunkBoundary data.bytes))
        (leafSet (rows.map toNat) rowWidth)) := by
    rw [← self]
    exact merkleSiblingsFromLayers_eq two _ nonempty below
  refine ⟨_, _, _, getMultileafProof_new conforms key (length_padded data.bytes) (by omega) bytesFit nonempty below, rfl,
    table ▸ buildMerkleLayersFromLeafCvs_eq lawful two _ none, listed, ?_⟩
  constructor
  · rintro ⟨host, built, -⟩
    by_contra large
    rw [buildProof_of_overflow key (by omega) data.fits positive rows] at built
    cases built
  · intro fits
    refine ⟨_, buildProof_of_fits conforms key twoChunks fits positive given inRange, ?_, rfl⟩
    rw [map_map]
    refine (map_congr_left fun i member => ?_).trans (map_id opened)
    have bound := below i member
    unfold chunkCount at bound
    have small : i < 2 ^ 32 := by omega
    exact toNat_ofNat_of_lt' small

end build

section zeros
open MiningCapi
open Blake3 (zeroKey)

def zeroSpan (len : Nat) (fits : len < 2 ^ 31) : Span :=
  ⟨replicate len 0, by rwa [length_replicate]⟩

theorem length_zeroSpan (len : Nat) (fits : len < 2 ^ 31) : (zeroSpan len fits).bytes.length = len := length_replicate

theorem proof_generators_agree_zeros :
    ∃ host proof, buildProof (zeroSpan 5000 (by decide)).bytes zeroKey.toList [3, 7] 500 = .ok host ∧
      (new .reference (.zeros 5120 (by decide)) zeroKey).getMultileafProof [1, 3] = .ok proof ∧
      host.leafIndices.map toNat = proof.leafIndices ∧ host.siblings = proof.siblings := by
  obtain ⟨proof, layers, root, made, -, -, -, agree⟩ := proof_generators_agree Blake3Crate.reference_conforms zeroKey
    (zeroSpan 5000 (by decide)) (by simp [length_zeroSpan]) (.zeros 5120 (by decide))
    (padToChunkBoundary_zeros (by decide) (by decide) (by decide)) (show 0 < 500 by decide)
    (show ([3, 7] : List UInt32) ≠ [] by simp) (by simp [length_zeroSpan])
  have opened : computeLeafIndicesFromRows ([(3 : UInt32), 7].map toNat) 500 = [1, 3] := by decide
  rw [opened] at made
  obtain ⟨host, built, indices, siblings⟩ := agree.mpr (by simp [length_zeroSpan])
  exact ⟨host, proof, built, made, indices, siblings⟩

theorem proof_generators_overflow :
    (Rust.Slice.zeros (2 ^ 31) (by decide)).bytes = padToChunkBoundary (zeroSpan (2 ^ 31 - 1000) (by decide)).bytes ∧
    (∃ proof, (new .reference (.zeros (2 ^ 31) (by decide)) zeroKey).getMultileafProof [0] = .ok proof) ∧
    buildProof (zeroSpan (2 ^ 31 - 1000) (by decide)).bytes zeroKey.toList [0] 1 = .error .overflow := by
  have size : (Rust.Slice.zeros (2 ^ 31) (by decide)).bytes.length = 2 ^ 21 * 1024 := Rust.Slice.length_zeros _ _
  refine ⟨padToChunkBoundary_zeros (by decide) (by decide) (by decide), ⟨_, getMultileafProof_new
    Blake3Crate.reference_conforms zeroKey size (by decide) _ (s := .toSet [0]) (by decide) (by decide)⟩, ?_⟩
  apply buildProof_of_overflow zeroKey
  · simp [length_zeroSpan]
  · simp [length_zeroSpan]
  · decide

end zeros
end MerkleProofBuilder
end ArcMiner.AkoyaCrypto
