import ArcMiner.AkoyaCrypto.Blake3
import ArcMiner.MiningCapi.BSeed

/-! `BSeedMerkleTreeHandle`, the managed tree that keeps the seed of B.

Layer arrays are lists of digests. A table of leaf values is an array, so there
are fewer than 2^26 leaves and no unsigned index wraps.
-/

namespace ArcMiner.Prl

open Library Library.CSharp AkoyaCrypto MiningCapi PearlBlake3 MerkleTree UInt32
open Blake3 (chunkCount)
open Blake3Hasher (withKey)

/-- `NativeBSeedExpansion.ExpandRangeRaw` into a span of `len` bytes. -/
def expandRangeRaw (xof : XofReader) (bSeed : Digest) (byteOffset : UInt64) (len : Nat) : Result (Vector UInt8 len) :=
  if len = 0 then .ok (Vector.replicate len 0)
  else
    let called := bseedExpandRangeRaw xof (some bSeed) byteOffset true len
    match called.output with
    | some written => .ok written
    | none => .error (.application "MerkleRootAndProofException" called.code (called.message.getD "(no message)"))

def groupDigits (value : Nat) : String :=
  let digits := (toString value).toList
  String.ofList (digits.zipIdx.flatMap fun (digit, i) =>
    if i ≠ 0 ∧ (digits.length - i) % 3 = 0 then [',', digit] else [digit])

structure BSeedMerkleTreeHandle where
  bSeed : Digest
  key : Digest
  numRows : Nat
  rowWidth : Nat
  dataBytes : Nat
  layers : List (List Digest)
  refCount : Int
  root : Digest
  totalLeaves : Nat

namespace BSeedMerkleTreeHandle

def buildLayers (leafCvs : List Digest) (key : Digest) : List (List Digest) :=
  Id.run <| whileLoop (fun layers => (lastLayer layers).length)
    (fun layers => decide (2 < (lastLayer layers).length))
    (fun layers => pure (layers ++ [HostBlake3.nextLevel key (lastLayer layers)])) [leafCvs]

def expandInto (xof : XofReader) (bSeed : Digest) (offset valid : Nat) : Result (List UInt8) := do
  let written ← expandRangeRaw xof bSeed offset.toUInt64 valid
  return written.toList ++ List.replicate (1024 - valid) 0

def computeRoot (xof : XofReader) (layers : List (List Digest)) (key bSeed : Digest) (dataBytes : Nat) :
    Result Digest := do
  let top := lastLayer layers
  if top.length = 1 then
    let valid := min dataBytes 1024
    let leaf ← if 0 < valid then expandInto xof bSeed 0 valid else pure (List.replicate 1024 0)
    HostBlake3.keyedHash key leaf
  else return HostBlake3.rootCv (← spanAt top 0) (← spanAt top 1) key

def leafCountMessage (leaves : Nat) : String := s!"Invalid B Merkle leaf count {leaves}."

def tableMessage (leaves : Nat) : String :=
  let bytes := groupDigits (leaves * 32)
  let count := groupDigits leaves
  s!"leafCvs must be exactly {bytes} bytes for {count} leaves."

def buildFromLeafCvs (xof : XofReader) (leafCvs : List UInt8) (bSeed key : Digest) (numRows rowWidth : Int) :
    Result BSeedMerkleTreeHandle := do
  if numRows ≤ 0 then throw (.argumentOutOfRange "numRows")
  if rowWidth ≤ 0 then throw (.argumentOutOfRange "rowWidth")
  let dataBytes := (numRows * rowWidth).toNat
  let leaves := (dataBytes + 1023) / 1024
  if leaves = 0 ∨ 2 ^ 32 ≤ leaves then throw (.argumentOutOfRangeWith "numRows" (leafCountMessage leaves))
  if leafCvs.length ≠ leaves * 32 then throw (.argument (tableMessage leaves))
  let layers := buildLayers (toDigests leafCvs) key
  let root ← computeRoot xof layers key bSeed dataBytes
  return ⟨bSeed, key, numRows.toNat, rowWidth.toNat, dataBytes, layers, 1, root, leaves⟩

def throwIfDisposed (self : BSeedMerkleTreeHandle) : Result Unit :=
  if self.refCount ≤ 0 then .error (.objectDisposed "BSeedMerkleTreeHandle") else .ok ()

def refuse (message : String) : Exception := .application "MerkleRootAndProofException" (-1) message

def checkRows (rowIndices : List UInt32) (numRows rowWidth : Nat) : Result Unit :=
  match (rowIndices.map toNat).find? fun row => decide (numRows ≤ row) with
  | some row => .error (refuse (rowBoundsMessage numRows rowWidth row))
  | none => .ok ()

def computeLeafIndicesFromRows (rowIndices : List UInt32) (numRows rowWidth : Nat) : Result (List Nat) := do
  checkRows rowIndices numRows rowWidth
  return (OrderedList.toSet (rowIndices.flatMap fun row =>
    let byteStart := row.toNat * rowWidth
    let byteEnd := byteStart + rowWidth - 1
    let first := byteStart / 1024
    let last := byteEnd / 1024
    (List.range (last + 1 - first)).map (first + ·)) : IndexSet).entries

def expandLeaf (xof : XofReader) (self : BSeedMerkleTreeHandle) (leafIndex : Nat) : Result (List UInt8) :=
  if self.totalLeaves ≤ leafIndex then .error (refuse (leafBoundsMessage self.totalLeaves leafIndex))
  else
    let offset := leafIndex * 1024
    let remaining : Int := self.dataBytes - offset
    if 0 < remaining then expandInto xof self.bSeed offset (min 1024 remaining).toNat
    else .ok (List.replicate 1024 0)

def openNode (levelNodes : List Digest) (current : IndexSet) (levelLen : Nat) (siblings : List Digest) (idx : Nat) :
    Result (List Digest) := do
  if idx % 2 = 1 then
    if !current.contains (idx - 1) then return siblings ++ [← spanAt levelNodes (idx - 1)]
    else return siblings
  else if !current.contains (idx + 1) && decide (idx + 1 < levelLen) then
    return siblings ++ [← spanAt levelNodes (idx + 1)]
  else return siblings

def openLevel (layers : List (List Digest)) (opening : MerkleTree.Opening Digest) :
    Result (MerkleTree.Opening Digest) := do
  let levelNodes ← index layers opening.level
  let siblings ← opening.currentSet.entries.foldlM
    (openNode levelNodes opening.currentSet opening.levelLen) opening.siblings
  return ⟨opening.level + 1, (opening.levelLen + 1) / 2,
    .toSet (opening.currentSet.entries.map (· / 2)), siblings⟩

/-- The fields of `MerkleRootAndProofResult`; every leaf is an array of bytes. -/
structure ProofResult where
  root : Digest
  leafData : List (List UInt8)
  leafIndices : List UInt32
  totalLeaves : Nat
  siblings : List Digest
deriving DecidableEq

def proof (xof : XofReader) (self : BSeedMerkleTreeHandle) (rowIndices : List UInt32) : Result ProofResult := do
  self.throwIfDisposed
  if rowIndices.isEmpty then throw (.argument "rowIndices must be non-empty.")
  checkRows rowIndices self.numRows self.rowWidth
  let leafIndices ← computeLeafIndicesFromRows rowIndices self.numRows self.rowWidth
  let leafData ← leafIndices.mapM (self.expandLeaf xof)
  let opening ← whileLoop MerkleTree.Opening.levelLen
    (fun opening => decide (1 < opening.levelLen) && !opening.currentSet.entries.isEmpty)
    (openLevel self.layers) ⟨0, self.totalLeaves, .toSet leafIndices, []⟩
  return ⟨self.root, leafData, leafIndices.map Nat.toUInt32, self.totalLeaves, opening.siblings⟩

def isPowerOfTwo (value : Nat) : Bool := value != 0 && value &&& (value - 1) == 0

def auditStep (layers : List (List Digest)) (state : Nat × List Digest) (level : Nat) :
    Result (Nat × List Digest) := do
  let sibling ← spanAt (← index layers level) (state.1 ^^^ 1)
  return (state.1 / 2, state.2 ++ [sibling])

def auditBlock (self : BSeedMerkleTreeHandle) (levels : Nat) (leafIndex : UInt32) : Result (List Digest) := do
  if self.totalLeaves ≤ leafIndex.toNat then throw (refuse (leafBoundsMessage self.totalLeaves leafIndex.toNat))
  return (← (List.range levels).foldlM (auditStep self.layers) (leafIndex.toNat, [])).2

/-- The digests of the flat array that is returned. -/
def auditPaths (self : BSeedMerkleTreeHandle) (leafIndices : List UInt32) : Result (List Digest) := do
  self.throwIfDisposed
  if leafIndices.isEmpty then return []
  if !isPowerOfTwo self.totalLeaves then throw (refuse (powerOfTwoMessage self.totalLeaves))
  let levels := Nat.log2 self.totalLeaves
  -- `checked(leafIndices.Length * levels * HashSize)`
  if 2 ^ 31 ≤ leafIndices.length * levels * 32 then throw .overflow
  return (← leafIndices.mapM (self.auditBlock levels)).flatten

theorem expandRangeRaw_eq (xof : XofReader) (bSeed : Digest) (byteOffset : UInt64) (len : Nat) :
    expandRangeRaw xof bSeed byteOffset len = .ok (expandBseedInt7RangeInto xof bSeed byteOffset len) := by
  unfold expandRangeRaw
  split
  next none =>
    subst none
    exact congrArg _ (Vector.ext fun i bound => absurd bound (Nat.not_lt_zero i))
  next some =>
    have written : (bseedExpandRangeRaw xof (.some bSeed) byteOffset true len).output =
        .some (expandBseedInt7RangeInto xof bSeed byteOffset len) := by
      rw [bseedExpandRangeRaw, catchUnwind_output]
      simp [MiningCapi.expandRangeRaw, Rust.require, Rust.reject, some, pure, Except.pure, Except.toOption]
    simp only [written]

section layers
variable {crate : Blake3Crate} (conforms : crate.Conforms) (key : Digest)
include conforms

theorem parentCv_nodes : (fun l r => HostBlake3.parentCv l r key) = ((withKey key).nodes crate).parentCv := by
  funext left right
  rw [HostBlake3.parentCv_eq, ← PearlBlake3.parentCv_eq conforms key]
  rfl

theorem buildLayers_eq {n : Nat} (positive : 0 < n) (f : Nat → Digest) :
    buildLayers (tabulate f n) key = lowerLevels ((withKey key).nodes crate).parentCv n f := by
  have pairs : buildLayers (tabulate f n) key =
      combineAll ((withKey key).nodes crate) [tabulate f n] := by
    rw [← pairLayers_eq (nodes_lawful conforms key), pairLayers, ← parentCv_nodes conforms key]
    rfl
  rw [pairs]
  rcases (show n = 1 ∨ 2 ≤ n by omega) with rfl | large
  · rw [lowerLevels, dif_neg (by decide)]
    exact @combineAll_stop _ _ [] _ (by simp)
  · exact combineAll_eq (nodes_lawful conforms key) large f []

end layers

section stream
variable {xof : XofReader} (stream : xof.Conforms) (seed : Digest)
include stream

theorem expandInto_eq {offset valid : Nat} (fits : offset + valid < 2 ^ 64) :
    expandInto xof seed offset valid = .ok (tabulate (fun j => bseedStream seed (offset + j)) valid ++
      List.replicate (1024 - valid) 0) := by
  have position : offset.toUInt64.toNat = offset := by
    rw [Nat.toUInt64, UInt64.toNat_ofNat']
    omega
  unfold expandInto
  rw [expandRangeRaw_eq, ok_bind, expandRange_eq stream seed (by rw [position]; omega), position]
  rfl

theorem expandLeaf_eq {self : BSeedMerkleTreeHandle} (bSeed : self.bSeed = seed) {i : Nat}
    (total : self.totalLeaves = chunkCount self.dataBytes) (fits : self.dataBytes < 2 ^ 63)
    (inside : i < self.totalLeaves) : self.expandLeaf xof i = .ok (seedLeaf seed self.dataBytes i) := by
  have before : i * 1024 < self.dataBytes := by
    rw [total, chunkCount] at inside
    omega
  have room : i * 1024 + min (self.dataBytes - i * 1024) 1024 < 2 ^ 64 := by
    have whole : i * 1024 + 1024 < 2 ^ 64 :=
      (Nat.add_lt_add_right (before.trans fits) 1024).trans_le (by decide)
    exact lt_of_le_of_lt (Nat.add_le_add_left (Nat.min_le_right _ _) _) whole
  have valid : (min 1024 ((self.dataBytes : Int) - (i * 1024 : Nat))).toNat = min (self.dataBytes - i * 1024) 1024 := by
    omega
  unfold expandLeaf
  rw [if_neg (by omega)]
  simp only
  rw [if_pos (by omega), valid, bSeed, expandInto_eq stream seed room]
  rfl

end stream

theorem spanAt_eq_ok {α : Type} {xs : List α} {i : Nat} {x : α} (found : xs[i]? = some x) : spanAt xs i = .ok x := by
  rw [spanAt, found]

section handle
variable {crate : Blake3Crate} (conforms : crate.Conforms) {xof : XofReader} (stream : xof.Conforms)
  (seed key : Digest) {numRows rowWidth : Nat} (someRows : 0 < numRows) (someWidth : 0 < rowWidth)
  (fits : (padToChunkBoundary (bseedMatrix seed (numRows * rowWidth))).length < 2 ^ 63)

def seedHandle (crate : Blake3Crate) (seed key : Digest) (numRows rowWidth : Nat) : BSeedMerkleTreeHandle :=
  let hasher := (withKey key).nodes crate
  let data := padToChunkBoundary (bseedMatrix seed (numRows * rowWidth))
  let leaves := chunkCount (numRows * rowWidth)
  ⟨seed, key, numRows, rowWidth, numRows * rowWidth, lowerLevels hasher.parentCv leaves (hasher.leaf data), 1,
    hasher.hash data, leaves⟩

section
include conforms stream fits someRows someWidth

theorem computeRoot_seed : computeRoot xof (seedHandle crate seed key numRows rowWidth).layers key seed
    (numRows * rowWidth) = .ok (seedHandle crate seed key numRows rowWidth).root := by
  have size := length_bseedMatrix seed (numRows * rowWidth)
  have positive := someLeaves someRows someWidth
  have small := dataLen_fits seed fits
  have aligned := length_padded (bseedMatrix seed (numRows * rowWidth))
  rw [size] at aligned
  let hasher := (withKey key).nodes crate
  let data := padToChunkBoundary (bseedMatrix seed (numRows * rowWidth))
  show computeRoot xof (lowerLevels hasher.parentCv (chunkCount (numRows * rowWidth)) (hasher.leaf data)) key seed
    (numRows * rowWidth) = .ok (hasher.hash data)
  rcases (show chunkCount (numRows * rowWidth) = 1 ∨ 2 ≤ chunkCount (numRows * rowWidth) by omega)
    with single | large
  -- one leaf: the root is the hash of the expanded leaf, since a leaf value is not a root
  · have only : lowerLevels hasher.parentCv 1 (hasher.leaf data) = [tabulate (hasher.leaf data) 1] := by
      rw [lowerLevels, dif_neg (by decide)]
    have some : 0 < min (numRows * rowWidth) 1024 := by
      have := Nat.mul_pos someRows someWidth
      omega
    have leaf : expandInto xof seed 0 (min (numRows * rowWidth) 1024) = .ok data := by
      have whole := seedLeaf_eq_chunkAt seed positive
      rw [Blake3.chunkAt, Nat.mul_zero, List.drop_zero, List.take_of_length_le (by omega), seedLeaf, Nat.zero_mul,
        Nat.sub_zero] at whole
      rw [expandInto_eq stream seed (by omega), whole]
    have hashed : HostBlake3.keyedHash key data = .ok (hasher.hash data) := by
      have spec : hasher.hash data = Blake3.treeHash (.keyed key) data := PearlBlake3.hash_eq conforms key data
      have length : data.length ≤ 1024 := by
        show (padToChunkBoundary (bseedMatrix seed (numRows * rowWidth))).length ≤ 1024
        omega
      rw [HostBlake3.keyedHash_eq key length, spec, Blake3.treeHash, if_pos length]
    rw [single, only]
    unfold computeRoot
    rw [show lastLayer [tabulate (hasher.leaf data) 1] = [hasher.leaf data 0] from rfl]
    simp only [List.length_singleton, ↓reduceIte, some, leaf, ok_bind, hashed]
  · obtain ⟨left, right, last, top⟩ := lastLayer_lowerLevels hasher large (hasher.leaf data)
    have root := hash_nodes conforms key aligned fits large
    unfold computeRoot
    rw [last]
    simp only [List.length_cons, List.length_nil, Nat.reduceAdd, Nat.reduceEqDiff, ↓reduceIte, spanAt,
      List.getElem?_cons_zero, List.getElem?_cons_succ, ok_bind]
    rw [HostBlake3.rootCv_eq, ← PearlBlake3.rootCv_eq conforms key]
    change pure (hasher.rootCv left right) = _
    rw [top hasher.rootCv]
    exact congrArg _ root

theorem buildFromLeafCvs_seed (few : chunkCount (numRows * rowWidth) * 32 < 2 ^ 31) :
    buildFromLeafCvs xof (tableBytes crate key (bseedMatrix seed (numRows * rowWidth))) seed key numRows rowWidth =
      .ok (seedHandle crate seed key numRows rowWidth) := by
  have size := length_bseedMatrix seed (numRows * rowWidth)
  have positive := someLeaves someRows someWidth
  have table := length_tableBytes fits conforms key
  have cvs := toDigests_tableBytes fits conforms key
  rw [size] at table cvs
  have bytes : ((numRows : Int) * (rowWidth : Int)).toNat = numRows * rowWidth := by
    rw [← Int.natCast_mul, Int.toNat_natCast]
  have leaves : (numRows * rowWidth + 1023) / 1024 = chunkCount (numRows * rowWidth) := rfl
  unfold buildFromLeafCvs
  rw [if_neg (by omega), if_neg (by omega)]
  simp only [bytes, leaves, table, cvs, buildLayers_eq conforms key positive, Int.toNat_natCast, ne_eq,
    not_true_eq_false, ↓reduceIte]
  rw [if_neg (by omega)]
  rw [show computeRoot xof (lowerLevels _ _ _) key seed (numRows * rowWidth) = _ from
    computeRoot_seed conforms stream seed key someRows someWidth fits]
  rfl

end

theorem checkRows_eq_ok {rows : List UInt32} {numRows rowWidth : Nat} {result : Unit} :
    checkRows rows numRows rowWidth = .ok result ↔ ∀ r ∈ rows, r.toNat < numRows := by
  have inRange : (∀ r ∈ rows, r.toNat < numRows) ↔ ∀ i ∈ rows.map toNat, i < numRows := by simp
  rw [inRange, ← Rust.find?_bound_eq_none, checkRows]
  cases (rows.map toNat).find? fun row => decide (numRows ≤ row) <;> simp

theorem computeLeafIndices_eq {rows : List UInt32} {numRows rowWidth : Nat}
    (inRange : ∀ r ∈ rows, r.toNat < numRows) :
    computeLeafIndicesFromRows rows numRows rowWidth =
      .ok (MerkleTree.computeLeafIndicesFromRows (rows.map toNat) rowWidth) := by
  have checked : checkRows rows numRows rowWidth = .ok () := checkRows_eq_ok.mpr inRange
  unfold computeLeafIndicesFromRows MerkleTree.computeLeafIndicesFromRows
  rw [checked, ok_bind, List.flatMap_map]
  simp only [Nat.succ_mul]
  rfl

theorem openNode_of_ok {levelNodes : List Digest} {current : IndexSet} {levelLen : Nat} {siblings after : List Digest}
    {idx : Nat} (step : MerkleTree.openNode levelNodes current levelLen siblings idx = .ok after) :
    openNode levelNodes current levelLen siblings idx = .ok after := by
  have read : ∀ {i : Nat} {f : Digest → List Digest},
      (do return f (← Rust.index levelNodes i) : Rust.Result (List Digest)) = .ok after →
      (do return f (← spanAt levelNodes i) : Result (List Digest)) = .ok after := by
    intro i f found
    obtain ⟨node, here, result⟩ := bind_eq_ok.mp found
    rw [spanAt_eq_ok (index_ok_iff.mp here), ok_bind]
    cases result
    rfl
  unfold MerkleTree.openNode at step
  unfold openNode
  split
  next odd =>
    rw [if_pos odd] at step
    split
    next absent =>
      rw [if_pos absent] at step
      exact read step
    next present =>
      rw [if_neg present] at step
      cases step
      rfl
  next even =>
    rw [if_neg even] at step
    split
    next partner =>
      rw [if_pos partner] at step
      exact read step
    next last =>
      rw [if_neg last] at step
      cases step
      rfl

theorem openLevel_of_ok {tree : MerkleTree Digest} {opening after : MerkleTree.Opening Digest}
    (step : MerkleTree.openLevel tree opening = .ok after) : openLevel tree.layers opening = .ok after := by
  obtain ⟨nodes, found, step⟩ := bind_eq_ok.mp step
  obtain ⟨siblings, opened, result⟩ := bind_eq_ok.mp step
  have layer : index tree.layers (opening.level : Int) = .ok nodes := by
    unfold index
    rw [if_neg (by omega), Int.toNat_natCast, index_ok_iff.mp found]
  unfold openLevel
  rw [layer, ok_bind, foldlM_ok (fun _ _ _ => openNode_of_ok) opened, ok_bind]
  cases result
  rfl

theorem openLevels_eq (node : Digest → Digest → Digest) {n : Nat} (positive : 0 < n) (f : Nat → Digest) {s : IndexSet}
    (nonempty : s.entries ≠ []) (below : ∀ i ∈ s.entries, i < n) :
    ∃ last, whileLoop MerkleTree.Opening.levelLen
        (fun opening => decide (1 < opening.levelLen) && !opening.currentSet.entries.isEmpty)
        (openLevel (lowerLevels node n f)) ⟨0, n, s, []⟩ = .ok last ∧ last.siblings = allOpenings node n f s := by
  rcases (show n = 1 ∨ 2 ≤ n by omega) with rfl | large
  · refine ⟨_, whileLoop_stop _ (by simp), ?_⟩
    rw [allOpenings_of_small _ _ _ (by decide)]
  · let tree : MerkleTree Digest := ⟨Vector.replicate 32 0, lowerLevels node n f, []⟩
    have whole : lowerLevels node n f <+: tree.layers.drop 0 := List.prefix_rfl
    obtain ⟨last, run, siblings⟩ := MerkleTree.openLevels_eq large whole below nonempty []
    have matched : whileLoop MerkleTree.Opening.levelLen
        (fun opening => decide (1 < opening.levelLen) && !opening.currentSet.entries.isEmpty)
        (openLevel tree.layers) ⟨0, n, s, []⟩ = .ok last :=
      whileLoop_ok (fun opening => opening) (fun _ => rfl) (fun _ => rfl) (fun _ _ => openLevel_of_ok) run
    exact ⟨last, matched, siblings⟩

def ofOutput (out : ProofOutput) : ProofResult :=
  ⟨out.root, out.leafData.map Chunk.bytes, out.leafIndices, out.totalLeaves.toNat, out.siblings⟩

variable (few : chunkCount (numRows * rowWidth) * 32 < 2 ^ 31)

include stream someRows someWidth few in
theorem proof_rows {rows : List UInt32} (given : rows ≠ []) (inRange : ∀ r ∈ rows, r.toNat < numRows) :
    (seedHandle crate seed key numRows rowWidth).proof xof rows =
      .ok (ofOutput (rowsOutput crate key (bseedMatrix seed (numRows * rowWidth)) fits rows rowWidth)) := by
  have size := length_bseedMatrix seed (numRows * rowWidth)
  have below := opened_below size someWidth inRange
  rw [size] at below
  have nonempty := leafSet_nonempty someWidth given
  have aligned : 1024 ∣ (padToChunkBoundary (bseedMatrix seed (numRows * rowWidth))).length :=
    length_padded _ ▸ Nat.dvd_mul_left _ _
  -- the leaves are expanded again from the seed, and are those the tree was built over
  have leaves : (leafSet (rows.map toNat) rowWidth).entries.mapM
      ((seedHandle crate seed key numRows rowWidth).expandLeaf xof) =
      .ok ((leafSet (rows.map toNat) rowWidth).entries.map fun i =>
        ((MerkleTree.new crate ⟨padToChunkBoundary (bseedMatrix seed (numRows * rowWidth)), fits⟩ key).leafChunk
          i).bytes) := by
    refine mapM_eq_ok fun i member => ?_
    have leaf : (seedHandle crate seed key numRows rowWidth).expandLeaf xof i =
        .ok (seedLeaf seed (numRows * rowWidth) i) :=
      expandLeaf_eq stream seed rfl rfl (dataLen_fits seed fits) (below i member)
    rw [leaf]
    refine congrArg _ ((seedLeaf_eq_chunkAt seed (below i member)).trans ?_)
    exact (leafChunk_build _ key aligned (by rw [chunkCount_padded, size]; exact below i member)).symm
  obtain ⟨last, run, siblings⟩ := openLevels_eq ((withKey key).nodes crate).parentCv
    (someLeaves someRows someWidth)
    (((withKey key).nodes crate).leaf (padToChunkBoundary (bseedMatrix seed (numRows * rowWidth))))
    nonempty below
  have same : OrderedList.toSet (leafSet (rows.map toNat) rowWidth).entries =
      leafSet (rows.map toNat) rowWidth := OrderedList.collect_entries _
  have count : ((chunkCount (numRows * rowWidth)).toUInt32).toNat = chunkCount (numRows * rowWidth) := by
    rw [Nat.toUInt32, toNat_ofNat']
    omega
  have some : rows.isEmpty = false := by simpa using given
  have checked : checkRows rows numRows rowWidth = .ok () := checkRows_eq_ok.mpr inRange
  unfold proof
  rw [show throwIfDisposed _ = .ok () from rfl, ok_bind, some, if_neg (by decide)]
  simp only [seedHandle, checked, computeLeafIndices_eq inRange, ok_bind]
  rw [show MerkleTree.computeLeafIndicesFromRows (rows.map toNat) rowWidth =
    (leafSet (rows.map toNat) rowWidth).entries from rfl]
  simp only [seedHandle] at leaves
  rw [leaves, ok_bind, same, run, ok_bind, siblings]
  simp only [ofOutput, rowsOutput, size, count, List.map_map]
  rfl

omit someRows few in
theorem proof_inRange {self : BSeedMerkleTreeHandle} {rows : List UInt32} {out : ProofResult}
    (made : self.proof xof rows = .ok out) : rows ≠ [] ∧ ∀ r ∈ rows, r.toNat < self.numRows := by
  unfold proof at made
  obtain ⟨_, -, made⟩ := bind_eq_ok.mp made
  cases rows with
  | nil => cases made
  | cons first rest =>
    rw [if_neg (by simp)] at made
    obtain ⟨_, checked, -⟩ := bind_eq_ok.mp made
    exact ⟨by simp, checkRows_eq_ok.mp checked⟩

include conforms stream someRows someWidth fits few in
theorem proof_agrees (rows : List UInt32) (rowsFit : rows.length < 2 ^ 63)
    (dataFits : (bseedMatrix seed (numRows * rowWidth)).length < 2 ^ 63) :
    ((seedHandle crate seed key numRows rowWidth).proof xof rows).toOption =
      ((rootAndProof crate true (.slice (bseedMatrix seed (numRows * rowWidth)) dataFits) (some key)
        (.slice rows rowsFit) rowWidth).toOption).map ofOutput := by
  by_cases valid : rows ≠ [] ∧ ∀ r ∈ rows, r.toNat < numRows
  · obtain ⟨given, inRange⟩ := valid
    rw [proof_rows stream seed key someRows someWidth fits few given inRange,
      rootAndProof_rows fits conforms key (length_bseedMatrix _ _) someWidth given inRange]
    rfl
  · have left : ((seedHandle crate seed key numRows rowWidth).proof xof rows).toOption = none := by
      exact toOption_eq_none fun out made => valid (proof_inRange made)
    have right : (rootAndProof crate true (.slice (bseedMatrix seed (numRows * rowWidth)) dataFits) (some key)
        (.slice rows rowsFit) rowWidth).toOption = none := by
      refine toOption_eq_none fun out made => valid ?_
      obtain ⟨-, given, -, -, -, -, inRange, -⟩ := rootAndProof_eq_ok.mp made
      rw [length_bseedMatrix, Nat.mul_div_cancel _ someWidth, max_eq_left (by omega)] at inRange
      exact ⟨given, inRange⟩
    rw [left, right]
    rfl

theorem isPowerOfTwo_eq (n : Nat) : isPowerOfTwo n = Library.isPowerOfTwo n := by
  rw [Bool.eq_iff_iff, isPowerOfTwo_iff, isPowerOfTwo, Bool.and_eq_true, bne_iff_ne, beq_iff_eq]
  constructor
  · rintro ⟨positive, zero⟩
    exact (and_pred_eq_zero_iff positive).mp zero
  · rintro ⟨e, rfl⟩
    have positive : 2 ^ e ≠ 0 := (Nat.two_pow_pos e).ne'
    exact ⟨positive, (and_pred_eq_zero_iff positive).mpr ⟨e, rfl⟩⟩

theorem auditStep_of_ok {layers : List (List Digest)} {state after : Nat × List Digest} {level : Nat}
    (step : PearlBlake3.auditStep layers state level = .ok after) : auditStep layers state level = .ok after := by
  obtain ⟨layer, found, step⟩ := bind_eq_ok.mp step
  obtain ⟨sibling, here, result⟩ := bind_eq_ok.mp step
  unfold auditStep
  rw [index_of_entry (index_ok_iff.mp found), ok_bind, spanAt_eq_ok (index_ok_iff.mp here), ok_bind]
  cases result
  rfl

theorem auditBlock_eq {self : BSeedMerkleTreeHandle} {node : Digest → Digest → Digest} {f : Nat → Digest} {e : Nat}
    (total : self.totalLeaves = 2 ^ e) (layers : self.layers = lowerLevels node (2 ^ e) f) {leafIndex : UInt32}
    (inside : leafIndex.toNat < 2 ^ e) :
    self.auditBlock e leafIndex = .ok (tabulate (siblingAt node f leafIndex.toNat) e) := by
  have steps : (List.range e).foldlM (auditStep self.layers) (leafIndex.toNat, []) =
      .ok (leafIndex.toNat / 2 ^ e, tabulate (siblingAt node f leafIndex.toNat) e) := by
    obtain rfl | ⟨d, rfl⟩ : e = 0 ∨ ∃ d, e = d + 1 := by cases e <;> simp
    · simp [tabulate, pure, Except.pure]
    · have full := holdsLevels_lowerLevels node d f []
      rw [List.append_nil, ← layers] at full
      exact foldlM_ok (fun _ _ _ => auditStep_of_ok) (auditSteps_eq full inside (d + 1) (le_refl _))
  unfold auditBlock
  rw [total, if_neg (by omega), steps]
  rfl

theorem auditPaths_of_ok {self : BSeedMerkleTreeHandle} {indices : List UInt32} {paths : List Digest}
    (given : indices ≠ []) (made : self.auditPaths indices = .ok paths) :
    Library.isPowerOfTwo self.totalLeaves = true ∧ ∀ i ∈ indices, i.toNat < self.totalLeaves := by
  unfold auditPaths at made
  obtain ⟨_, -, made⟩ := bind_eq_ok.mp made
  rw [if_neg (by simpa using given), isPowerOfTwo_eq] at made
  by_cases power : Library.isPowerOfTwo self.totalLeaves = true
  · refine ⟨power, fun i member => ?_⟩
    rw [power, if_neg (by decide)] at made
    simp only at made
    split at made
    · cases made
    · obtain ⟨blocks, opened, -⟩ := bind_eq_ok.mp made
      obtain ⟨block, opening⟩ := mapM_ok opened i member
      unfold auditBlock at opening
      by_contra outside
      rw [if_pos (by omega)] at opening
      cases opening
  · rw [if_pos (by simpa using power)] at made
    cases made

include conforms someRows someWidth fits

theorem auditPaths_agrees (indices : List UInt32)
    (defined : indices = [] → Library.isPowerOfTwo (chunkCount (numRows * rowWidth)) = true)
    (room : indices.length * Nat.log2 (chunkCount (numRows * rowWidth)) * 32 < 2 ^ 31) :
    ((seedHandle crate seed key numRows rowWidth).auditPaths indices).toOption =
      ((new crate ⟨padToChunkBoundary (bseedMatrix seed (numRows * rowWidth)), fits⟩ key).getAuditPaths
        (indices.map toNat)).toOption := by
  have size := length_bseedMatrix seed (numRows * rowWidth)
  have aligned := length_padded (bseedMatrix seed (numRows * rowWidth))
  rw [size] at aligned
  have positive := someLeaves someRows someWidth
  have count := numLeaves_new conforms key aligned positive fits
  by_cases valid : Library.isPowerOfTwo (chunkCount (numRows * rowWidth)) = true ∧
      ∀ i ∈ indices, i.toNat < chunkCount (numRows * rowWidth)
  -- both open a full tree at leaves that it has, and refuse everything else
  · obtain ⟨power, inRange⟩ := valid
    obtain ⟨e, same⟩ := isPowerOfTwo_iff.mp power
    rw [same, Nat.log2_two_pow] at room
    rw [same] at inRange aligned
    rw [getAuditPaths_new conforms key aligned fits (by simpa using inRange) (by rw [List.length_map]; omega)]
    have blocks : indices.mapM ((seedHandle crate seed key numRows rowWidth).auditBlock e) = .ok (indices.map fun i =>
        tabulate (siblingAt ((withKey key).nodes crate).parentCv
          (((withKey key).nodes crate).leaf (padToChunkBoundary (bseedMatrix seed (numRows * rowWidth))))
          i.toNat) e) :=
      mapM_eq_ok fun i member => auditBlock_eq same (by rw [← same]; rfl) (inRange i member)
    unfold auditPaths
    rw [show throwIfDisposed _ = .ok () from rfl, ok_bind]
    cases indices with
    | nil => rfl
    | cons first rest =>
      rw [if_neg (by simp), isPowerOfTwo_eq, show (seedHandle crate seed key numRows rowWidth).totalLeaves = 2 ^ e from same,
        isPowerOfTwo_iff.mpr ⟨e, rfl⟩, if_neg (by decide), Nat.log2_two_pow]
      simp only
      rw [if_neg (by omega), blocks, auditPathsOf, List.flatMap_map, List.flatMap_def]
      rfl
  · have left : ((seedHandle crate seed key numRows rowWidth).auditPaths indices).toOption = none := by
      refine toOption_eq_none fun paths made => valid ?_
      by_cases given : indices = []
      · exact ⟨defined given, by simp [given]⟩
      · exact auditPaths_of_ok given made
    have right : ((new crate ⟨padToChunkBoundary (bseedMatrix seed (numRows * rowWidth)), fits⟩
        key).getAuditPaths (indices.map toNat)).toOption = none := by
      refine toOption_eq_none fun paths made => valid ?_
      simpa using getAuditPaths_inRange count positive made
    rw [left, right]

end handle

/-- Native context and managed handle over the leaf values of B give the root, the row proofs and the audit paths of the
tree over the expanded and zero-padded B. The handle alone answers an empty list of leaves before it looks at the
number of leaves, and its audit paths have to fit an array. -/
theorem seed_trees_agree {crate : Blake3Crate} (conforms : crate.Conforms) {xof : XofReader} (stream : xof.Conforms)
    (seed key : Digest) (numRows rowWidth : Nat) (someRows : 0 < numRows) (someWidth : 0 < rowWidth)
    (fits : (padToChunkBoundary (bseedMatrix seed (numRows * rowWidth))).length < 2 ^ 63)
    (dataFits : (bseedMatrix seed (numRows * rowWidth)).length < 2 ^ 63) :
    (expandBseedInt7Into xof seed (numRows * rowWidth)).toList = bseedMatrix seed (numRows * rowWidth) ∧
    ∃ root, (new crate ⟨padToChunkBoundary (bseedMatrix seed (numRows * rowWidth)), fits⟩ key).root =
        .ok root ∧
      bseedExpandAndMerkle crate xof (some seed) numRows rowWidth (some key) true = ⟨ok, none, some root⟩ ∧
      (∃ built, bseedMerkleBuildTreeFromLeafCvs crate xof
          (.slice (tableBytes crate key (bseedMatrix seed (numRows * rowWidth))) (tableBytes_fits fits conforms key))
          (some seed) (some key) numRows rowWidth true = ⟨ok, none, some built⟩ ∧ built.root = root ∧
        (∀ rowIndices, (bseedMerkleProofForHandle xof (some built.handle) rowIndices true).output =
          (merkleRootAndProof crate true (.slice (bseedMatrix seed (numRows * rowWidth)) dataFits) (some key) rowIndices
            rowWidth).output.map fun out => ⟨out.leafData, out.leafIndices, out.siblings⟩) ∧
        ∀ (indices : List UInt32) (indicesFit : indices.length < 2 ^ 63),
          (bseedMerkleAuditPathsForHandle (some built.handle) (.slice indices indicesFit) true).output =
            ((new crate ⟨padToChunkBoundary (bseedMatrix seed (numRows * rowWidth)), fits⟩
              key).getAuditPaths (indices.map toNat)).toOption) ∧
      (chunkCount (numRows * rowWidth) * 32 < 2 ^ 31 →
        ∃ handle, buildFromLeafCvs xof (tableBytes crate key (bseedMatrix seed (numRows * rowWidth))) seed key numRows
            rowWidth = .ok handle ∧ handle.root = root ∧
          (∀ (rows : List UInt32) (rowsFit : rows.length < 2 ^ 63), (handle.proof xof rows).toOption =
            (merkleRootAndProof crate true (.slice (bseedMatrix seed (numRows * rowWidth)) dataFits) (some key)
              (.slice rows rowsFit) rowWidth).output.map ofOutput) ∧
          ∀ indices : List UInt32,
            (indices = [] → Library.isPowerOfTwo (chunkCount (numRows * rowWidth)) = true) →
            indices.length * Nat.log2 (chunkCount (numRows * rowWidth)) * 32 < 2 ^ 31 →
            (handle.auditPaths indices).toOption =
              ((new crate ⟨padToChunkBoundary (bseedMatrix seed (numRows * rowWidth)), fits⟩
                key).getAuditPaths (indices.map toNat)).toOption) := by
  have small := dataLen_fits seed fits
  refine ⟨expand_eq stream seed (by omega), _, root_seed conforms seed key someRows someWidth fits,
    catchUnwind_eq_ok.mpr (expandAndMerkle_seed conforms seed key someRows someWidth fits stream),
    ⟨_, catchUnwind_eq_ok.mpr (buildTree_seed conforms seed key someRows someWidth fits stream), rfl, ?_, ?_⟩,
    fun few => ⟨_, buildFromLeafCvs_seed conforms stream seed key someRows someWidth fits few, rfl, ?_, ?_⟩⟩
  · intro rowIndices
    rw [bseedMerkleProofForHandle, merkleRootAndProof, catchUnwind_output, catchUnwind_output]
    exact proofForHandle_agrees conforms seed key someRows someWidth fits stream rowIndices dataFits
  · intro indices indicesFit
    rw [bseedMerkleAuditPathsForHandle, catchUnwind_output, ←
      bseedMerkleAuditPaths_agrees conforms seed key someRows someWidth fits]
    simp [auditPathsForHandle, Rust.require, Rust.reject, Buffer.isNull, Buffer.contents]
  · intro rows rowsFit
    rw [merkleRootAndProof, catchUnwind_output]
    exact proof_agrees conforms stream seed key someRows someWidth fits few rows rowsFit dataFits
  · intro indices defined room
    exact auditPaths_agrees conforms seed key someRows someWidth fits indices defined room

section zeros
open Blake3 (zeroKey)

theorem zeroSeed_fits {rows width : Nat} (few : rows * width < 2 ^ 62) :
    (padToChunkBoundary (bseedMatrix zeroKey (rows * width))).length < 2 ^ 63 := by
  rw [length_padded, length_bseedMatrix, chunkCount]
  omega

/-- Three leaves have no audit paths; of no leaves at all the handle returns the empty array all the same. -/
theorem seed_trees_differ_three :
    ∃ handle, buildFromLeafCvs .reference (tableBytes .reference zeroKey (bseedMatrix zeroKey (3 * 1024))) zeroKey
        zeroKey 3 1024 = .ok handle ∧
      handle.auditPaths [] = .ok [] ∧
      (new .reference ⟨padToChunkBoundary (bseedMatrix zeroKey (3 * 1024)), zeroSeed_fits (by decide)⟩
        zeroKey).getAuditPaths [] =
          .error (.error "total_leaves (3) must be a power of two for audit_proof v1") := by
  have fits : (padToChunkBoundary (bseedMatrix zeroKey (3 * 1024))).length < 2 ^ 63 := zeroSeed_fits (by decide)
  have three : chunkCount (3 * 1024) = 3 := by decide
  have length : (padToChunkBoundary (bseedMatrix zeroKey (3 * 1024))).length = 3 * 1024 := by
    rw [length_padded, length_bseedMatrix, three]
  have count := numLeaves_new Blake3Crate.reference_conforms zeroKey length (by decide) fits
  refine ⟨_, buildFromLeafCvs_seed Blake3Crate.reference_conforms XofReader.reference_conforms zeroKey zeroKey
    (by decide) (by decide) fits (by rw [three]; decide), rfl, ?_⟩
  unfold getAuditPaths
  rw [count]
  decide

/-- One row of 1025 bytes: two leaves, the second of them with one byte of the stream. -/
theorem seed_trees_agree_two : ∃ handle root,
    buildFromLeafCvs .reference (tableBytes .reference zeroKey (bseedMatrix zeroKey (1 * 1025))) zeroKey zeroKey 1 1025 =
      .ok handle ∧
    (new .reference ⟨padToChunkBoundary (bseedMatrix zeroKey (1 * 1025)), zeroSeed_fits (by decide)⟩
      zeroKey).root = .ok root ∧ handle.root = root ∧
    (handle.auditPaths [1, 0]).toOption =
      ((new .reference ⟨padToChunkBoundary (bseedMatrix zeroKey (1 * 1025)), zeroSeed_fits (by decide)⟩
        zeroKey).getAuditPaths [1, 0]).toOption := by
  have two : chunkCount (1 * 1025) = 2 := by decide
  obtain ⟨-, root, top, -, -, managed⟩ := seed_trees_agree Blake3Crate.reference_conforms XofReader.reference_conforms
    zeroKey zeroKey 1 1025 (by decide) (by decide) (zeroSeed_fits (by decide)) (by rw [length_bseedMatrix]; decide)
  obtain ⟨handle, built, same, -, paths⟩ := managed (by rw [two]; decide)
  exact ⟨handle, root, built, top, same, paths [1, 0] (by decide) (by rw [two]; decide)⟩

end zeros
end BSeedMerkleTreeHandle
end ArcMiner.Prl
