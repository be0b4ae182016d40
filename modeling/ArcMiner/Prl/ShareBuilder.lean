import ArcMiner.AkoyaCrypto.AuditProof
import ArcMiner.AkoyaCrypto.CommitmentHasher
import ArcMiner.AkoyaCrypto.JackpotComputer
import ArcMiner.AkoyaCrypto.NoiseGenerator
import ArcMiner.Prl.MerkleProofs

/-! `ShareBuilder`: the three ways to build a share.

From both matrices; from A and a proof and tree of B; from opened rows of A with
the table of its leaf values, and a proof and tree of B. Dimensions are natural numbers.
-/

namespace ArcMiner.Prl.ShareBuilder

open Library Library.CSharp AkoyaCrypto MiningCapi PearlBlake3 Nat Int BSeedExpander NoiseGenerator
open List hiding Vector
open JackpotComputer (parseRows parseRows_eq parseRows_shaped)
open BSeedMerkleTreeHandle (ProofResult ofOutput seedHandle)

structure ProtoMerkleProof where
  totalLeaves : UInt32
  leafData : List (List UInt8)
  leafIndices : List UInt32
  siblings : List Digest
deriving DecidableEq

/-- The message to the pool; unset bytes are empty. -/
structure ShareSubmission where
  sigma : List UInt8
  configBytes : List UInt8
  hashA : Digest
  hashB : Digest
  aSlice : List UInt8
  bSlice : List UInt8
  aProof : ProtoMerkleProof
  bProof : ProtoMerkleProof
  claimedHash : Digest
  claimedDifficultyNbits : UInt32
  tileRow : Int32
  tileCol : Int32
  m : UInt32
  n : UInt32
  k : UInt32
  noiseRank : UInt32
  aRowIndices : List UInt32
  bColIndices : List UInt32
  bSeed : List UInt8
  auditProof : Option (List Digest)
deriving DecidableEq

structure TreeHandle where
  totalLeaves : Nat
  auditPaths : List UInt32 → Result (List Digest)

def TreeHandle.ofSeed (handle : BSeedMerkleTreeHandle) : TreeHandle := ⟨handle.totalLeaves, handle.auditPaths⟩

structure Request where
  sigma : List UInt8
  configBytes : List UInt8
  jobKey : Digest
  aRowIndices : List UInt32
  bColIndices : List UInt32
  tileRow : Int32
  tileCol : Int32
  m : Nat
  n : Nat
  k : Nat
  r : Nat
  claimedDifficultyNbits : UInt32
  saltedSeeds : Bool

def toProtoMerkleProof (result : ProofResult) : ProtoMerkleProof :=
  ⟨result.totalLeaves.toUInt32, result.leafData, result.leafIndices, result.siblings⟩

/-- One iteration of `ExtractSlice`: a row of the matrix, which has to fit the rest of the slice. -/
def sliceRow (matrix : List UInt8) (rowWidth : Nat) (length : Int) (row : UInt32 × Nat) : Result (List UInt8) := do
  let srcOffset := int32 (int32 row.1.toNat * rowWidth)
  if srcOffset < 0 ∨ (matrix.length : Int) < srcOffset + rowWidth then throw (.argumentOutOfRange "start")
  let start := int32 (row.2 * rowWidth)
  if start < 0 ∨ length < start then throw (.argumentOutOfRange "start")
  if length - start < rowWidth then throw (.argument "Destination is too short.")
  return (matrix.drop srcOffset.toNat).take rowWidth

def extractSlice (matrix : List UInt8) (indices : List UInt32) (rowWidth : Nat) : Result (List UInt8) := do
  let length := int32 (indices.length * rowWidth)
  if length < 0 then throw .overflow
  return (← indices.zipIdx.mapM (sliceRow matrix rowWidth length)).flatten

def rowCountMessage (row : UInt32) (rowCount : Nat) : String := s!"Row index {row} >= row count {rowCount}."

def expandBSeedRows (xof : XofReader) (bSeed : Digest) (indices : List UInt32) (rowCount rowWidth : Nat) :
    Result (List UInt8) := do
  if rowCount = 0 then throw (.argumentOutOfRange "rowCount")
  if rowWidth = 0 then throw (.argumentOutOfRange "rowWidth")
  if indices.isEmpty then throw (.argument "indices must be non-empty.")
  -- `checked(indices.Length * rowWidth)`
  if 2 ^ 31 ≤ indices.length * rowWidth then throw .overflow
  return (← indices.mapM fun row => do
    if rowCount ≤ row.toNat then throw (.argumentOutOfRangeWith "indices" (rowCountMessage row rowCount))
    let expanded ← expandRangeRaw xof bSeed (row.toNat * rowWidth).toUInt64 rowWidth
    return expanded.toList).flatten

def jackpotHash (jackpotWords : Vector UInt32 16) (aNoiseSeed : Digest) : Result Digest :=
  HostBlake3.keyedHash aNoiseSeed (jackpotWords.toList.flatMap wordBytes)

def claimedHash (request : Request) (hashA hashB : Digest) (aSlice bSlice : List UInt8) : Result Digest := do
  let seeds ← CommitmentHasher.deriveNoiseSeeds request.jobKey hashA hashB (Int32.ofNat request.m) (Int32.ofNat request.n)
    request.saltedSeeds
  let secretA ← parseRows aSlice request.aRowIndices.length request.k
  let secretB ← parseRows bSlice request.bColIndices.length request.k
  let rows := request.aRowIndices.map UInt32.toNat
  let cols := request.bColIndices.map UInt32.toNat
  let eAl ← generateUniformRandomMatrix seedLabelA seeds.a rows request.r
  let eAr ← generatePermutationMatrix seedLabelA seeds.a request.k request.r
  let eBl ← generatePermutationMatrix seedLabelB seeds.b request.k request.r
  let eBr ← generateUniformRandomMatrix seedLabelB seeds.b cols request.r
  let noiseA ← eAl.mapM (applySparsePermutation eAr)
  let noiseB ← eBr.mapM (applySparsePermutation eBl)
  let jackpotWords ← JackpotComputer.compute request.aRowIndices.length request.bColIndices.length request.k request.r
    ⟨secretA, secretB, noiseA, noiseB⟩
  jackpotHash jackpotWords seeds.a

def openAudit (claimedHash bSeed : Digest) (auditK : UInt32) (bMerkleTree : TreeHandle) : Result (Option (List Digest)) := do
  if 0 < auditK then
    let auditIndices ← AuditIndexDeriver.derive claimedHash bSeed auditK bMerkleTree.totalLeaves.toUInt64
    return some (← bMerkleTree.auditPaths auditIndices)
  else return none

def pack (request : Request) (hashA hashB : Digest) (aSlice bSlice : List UInt8) (aProof bProof : ProofResult)
    (claimed : Digest) : ShareSubmission where
  sigma := request.sigma
  configBytes := request.configBytes
  hashA := hashA
  hashB := hashB
  aSlice := aSlice
  bSlice := bSlice
  aProof := toProtoMerkleProof aProof
  bProof := toProtoMerkleProof bProof
  claimedHash := claimed
  claimedDifficultyNbits := request.claimedDifficultyNbits
  tileRow := request.tileRow
  tileCol := request.tileCol
  m := request.m.toUInt32
  n := request.n.toUInt32
  k := request.k.toUInt32
  noiseRank := request.r.toUInt32
  aRowIndices := request.aRowIndices
  bColIndices := request.bColIndices
  bSeed := []
  auditProof := none

/-- `Build` from both matrices; the root of B comes from the caller. -/
def build (crate : Blake3Crate) (request : Request) (aBytes bBytes : List UInt8) (hashB : Digest) :
    Result ShareSubmission := do
  let aSlice ← extractSlice aBytes request.aRowIndices request.k
  let bSlice ← extractSlice bBytes request.bColIndices request.k
  let aRoot ← computeRootAndProof crate aBytes request.jobKey request.aRowIndices request.k
  let bRoot ← computeRootAndProof crate bBytes request.jobKey request.bColIndices request.k
  let claimed ← claimedHash request aRoot.root hashB aSlice bSlice
  return pack request aRoot.root hashB aSlice bSlice aRoot bRoot claimed

def buildWithTree (crate : Blake3Crate) (xof : XofReader) (request : Request) (aBytes : List UInt8)
    (bProof : ProofResult) (bMerkleTree : TreeHandle) (bSeed : Digest) (auditK : UInt32) : Result ShareSubmission := do
  let aSlice ← extractSlice aBytes request.aRowIndices request.k
  let bSlice ← expandBSeedRows xof bSeed request.bColIndices request.n request.k
  let aRoot ← computeRootAndProof crate aBytes request.jobKey request.aRowIndices request.k
  let claimed ← claimedHash request aRoot.root bProof.root aSlice bSlice
  let auditProof ← openAudit claimed bSeed auditK bMerkleTree
  return { pack request aRoot.root bProof.root aSlice bSlice aRoot bProof claimed with
    bSeed := bSeed.toList, auditProof }

/-- `Build` from opened rows and leaf values of A and a proof of B. -/
def buildFromLeafCvs (crate : Blake3Crate) (xof : XofReader) (request : Request) (aSlice aLeafCvs : List UInt8)
    (bProof : ProofResult) (bMerkleTree : TreeHandle) (bSeed : Digest) (auditK : UInt32) : Result ShareSubmission := do
  let bSlice ← expandBSeedRows xof bSeed request.bColIndices request.n request.k
  let aRoot ← computeFromLeafCvs crate aLeafCvs aSlice request.jobKey request.aRowIndices request.m request.k
  let claimed ← claimedHash request aRoot.root bProof.root aSlice bSlice
  let auditProof ← openAudit claimed bSeed auditK bMerkleTree
  return { pack request aRoot.root bProof.root aSlice bSlice aRoot bProof claimed with
    bSeed := bSeed.toList, auditProof }

structure IndexList (indices : List UInt32) (count : Nat) : Prop where
  given : indices ≠ []
  ascending : (indices.map UInt32.toNat).Pairwise (· < ·)
  inRange : ∀ i ∈ indices, i.toNat < count

theorem IndexList.length_le {indices : List UInt32} {count : Nat} (list : IndexList indices count) :
    indices.length ≤ count := by
  have distinct := list.ascending.imp fun below => Nat.ne_of_lt below
  have inside : indices.map UInt32.toNat ⊆ range count := by
    intro i member
    obtain ⟨index, here, rfl⟩ := mem_map.mp member
    exact mem_range.mpr (list.inRange index here)
  simpa using (subperm_of_subset distinct inside).length_le

theorem length_rowBytes {matrix : List UInt8} {indices : List UInt32} {count rowWidth : Nat}
    (shape : matrix.length = count * rowWidth) (rows : IndexList indices count) :
    (rowBytes matrix indices rowWidth).length = indices.length * rowWidth := by
  have width : ∀ row ∈ indices, ((matrix.drop (row.toNat * rowWidth)).take rowWidth).length = rowWidth := by
    intro row member
    have source : (row.toNat + 1) * rowWidth ≤ count * rowWidth := Nat.mul_le_mul_right _ (rows.inRange row member)
    rw [succ_mul] at source
    rw [length_take, length_drop, shape]
    omega
  rw [rowBytes, length_flatMap, map_congr_left width, map_const', sum_replicate_nat]

section slices
variable {matrix : List UInt8} {indices : List UInt32} {count rowWidth : Nat} (someWidth : 0 < rowWidth)
  (small : count * rowWidth < 2 ^ 31)
include someWidth small

theorem sliceRow_eq (shape : matrix.length = count * rowWidth) (few : indices.length ≤ count) {row : UInt32 × Nat}
    (inRange : row.1.toNat < count) (inside : row.2 < indices.length) :
    sliceRow matrix rowWidth ((indices.length * rowWidth : Nat) : Int) row =
      .ok ((matrix.drop (row.1.toNat * rowWidth)).take rowWidth) := by
  have source : (row.1.toNat + 1) * rowWidth ≤ count * rowWidth := Nat.mul_le_mul_right _ inRange
  have target : (row.2 + 1) * rowWidth ≤ indices.length * rowWidth := Nat.mul_le_mul_right _ inside
  have fits : indices.length * rowWidth ≤ count * rowWidth := Nat.mul_le_mul_right _ few
  have rowSmall := Nat.le_mul_of_pos_right row.1.toNat someWidth
  rw [succ_mul] at source target
  have number : int32 (row.1.toNat : Int) = row.1.toNat := int32_of_fits (by omega) (by omega)
  have srcOffset : int32 ((row.1.toNat : Int) * rowWidth) = ((row.1.toNat * rowWidth : Nat) : Int) := by
    rw [← natCast_mul, int32_of_fits (by omega) (by omega)]
  have start : int32 ((row.2 : Int) * rowWidth) = ((row.2 * rowWidth : Nat) : Int) := by
    rw [← natCast_mul, int32_of_fits (by omega) (by omega)]
  unfold sliceRow
  simp only [number, srcOffset, start, shape, toNat_natCast]
  clear number srcOffset start
  rw [if_neg (by omega), if_neg (by omega), if_neg (by omega)]
  rfl

theorem extractSlice_eq (shape : matrix.length = count * rowWidth) (rows : IndexList indices count) :
    extractSlice matrix indices rowWidth = .ok (rowBytes matrix indices rowWidth) := by
  have fits : indices.length * rowWidth ≤ count * rowWidth := Nat.mul_le_mul_right _ rows.length_le
  have length : int32 ((indices.length : Int) * rowWidth) = ((indices.length * rowWidth : Nat) : Int) := by
    rw [← natCast_mul, int32_of_fits (by omega) (by omega)]
  have cut : indices.zipIdx.mapM (sliceRow matrix rowWidth ((indices.length * rowWidth : Nat) : Int)) =
      .ok (indices.zipIdx.map fun row => (matrix.drop (row.1.toNat * rowWidth)).take rowWidth) :=
    mapM_eq_ok fun row member => sliceRow_eq someWidth small shape rows.length_le
      (rows.inRange row.1 (fst_mem_of_mem_zipIdx member)) (snd_lt_of_mem_zipIdx member)
  have same : (indices.zipIdx.map fun row => (matrix.drop (row.1.toNat * rowWidth)).take rowWidth) =
      indices.map fun row => (matrix.drop (row.toNat * rowWidth)).take rowWidth := by
    conv_rhs => rw [← zipIdx_map_fst 0 indices, map_map]
    rfl
  unfold extractSlice
  simp only [length]
  rw [if_neg (by omega), cut, ok_bind, same, rowBytes, flatMap_def]
  rfl

theorem expandBSeedRows_eq {xof : XofReader} (stream : xof.Conforms) (bSeed : Digest) (rows : IndexList indices count) :
    expandBSeedRows xof bSeed indices count rowWidth =
      .ok (rowBytes (bseedMatrix bSeed (count * rowWidth)) indices rowWidth) := by
  have fits : indices.length * rowWidth ≤ count * rowWidth := Nat.mul_le_mul_right _ rows.length_le
  obtain ⟨first, member⟩ := exists_mem_of_ne_nil _ rows.given
  have someRows : 0 < count := zero_lt_of_lt (rows.inRange first member)
  have expanded : (indices.mapM fun row => (do
      if count ≤ row.toNat then throw (.argumentOutOfRangeWith "indices" (rowCountMessage row count))
      let expanded ← expandRangeRaw xof bSeed (row.toNat * rowWidth).toUInt64 rowWidth
      return expanded.toList : Result (List UInt8))) =
      .ok (indices.map fun row => ((bseedMatrix bSeed (count * rowWidth)).drop (row.toNat * rowWidth)).take rowWidth) := by
    refine mapM_eq_ok fun row member => ?_
    have inRange := rows.inRange row member
    have source : (row.toNat + 1) * rowWidth ≤ count * rowWidth := Nat.mul_le_mul_right _ inRange
    rw [succ_mul] at source
    have offset : ((row.toNat * rowWidth).toUInt64).toNat = row.toNat * rowWidth := by
      rw [toUInt64, UInt64.toNat_ofNat']
      omega
    rw [if_neg (by omega), BSeedMerkleTreeHandle.expandRangeRaw_eq, ok_bind,
      expandRange_eq stream bSeed (by rw [offset]; omega), offset]
    refine congrArg Except.ok (ext_getElem? fun j => ?_)
    rw [getElem?_take, getElem?_drop]
    by_cases inside : j < rowWidth
    · rw [if_pos inside, getElem?_tabulate _ inside, bseedMatrix, getElem?_tabulate _ (by omega)]
    · rw [if_neg inside, getElem?_eq_none (by rw [length_tabulate]; omega)]
  unfold expandBSeedRows
  rw [if_neg (by omega), if_neg (by omega), if_neg (by simpa using rows.given), if_neg (by omega), expanded, ok_bind,
    rowBytes, flatMap_def]
  rfl

end slices

section builders
variable {crate : Blake3Crate} (conforms : crate.Conforms) {xof : XofReader} (stream : xof.Conforms) {request : Request}
  {aBytes : List UInt8} (bSeed : Digest) (someWidth : 0 < request.k) (aligned : 1024 ∣ request.k)
  (shape : aBytes.length = request.m * request.k) (aFits : request.m * request.k < 2 ^ 31)
  (bFits : request.n * request.k < 2 ^ 31) (rows : IndexList request.aRowIndices request.m)
  (cols : IndexList request.bColIndices request.n)

theorem rowsFit {indices : List UInt32} {count rowWidth : Nat} (someWidth : 0 < rowWidth)
    (small : count * rowWidth < 2 ^ 31) (list : IndexList indices count) : indices.length < 2 ^ 63 := by
  have few := list.length_le
  have wide := Nat.le_mul_of_pos_right count someWidth
  omega

include conforms someWidth aligned shape aFits rows in
theorem aProofs_agree : ∃ aRoot,
    computeRootAndProof crate aBytes request.jobKey request.aRowIndices request.k = .ok aRoot ∧
    computeFromLeafCvs crate (tableBytes crate request.jobKey aBytes) (rowBytes aBytes request.aRowIndices request.k)
      request.jobKey request.aRowIndices request.m request.k = .ok aRoot := by
  have small : aBytes.length < 2 ^ 31 := shape ▸ aFits
  have whole : 1024 ∣ aBytes.length := shape ▸ Dvd.dvd.mul_left aligned request.m
  refine ⟨_, computeRootAndProof_eq conforms _ shape small someWidth rows.given rows.inRange
    (rowsFit someWidth aFits rows), ?_⟩
  rw [← openedBytes_aligned shape someWidth aligned rows.ascending]
  exact computeFromLeafCvs_eq conforms _ shape small someWidth rows.given rows.inRange whole
    (rowsFit someWidth aFits rows)

include cols in
theorem someCols : 0 < request.n := by
  obtain ⟨first, member⟩ := exists_mem_of_ne_nil _ cols.given
  exact zero_lt_of_lt (cols.inRange first member)

include conforms stream someWidth bFits cols in
theorem bProofs_agree : ∃ bProof,
    BSeedMerkleTreeHandle.buildFromLeafCvs xof
      (tableBytes crate request.jobKey (bseedMatrix bSeed (request.n * request.k))) bSeed request.jobKey request.n
      request.k = .ok (seedHandle crate bSeed request.jobKey request.n request.k) ∧
    (seedHandle crate bSeed request.jobKey request.n request.k).proof xof request.bColIndices = .ok bProof ∧
    bProof.root = (seedHandle crate bSeed request.jobKey request.n request.k).root ∧
    computeRootAndProof crate (bseedMatrix bSeed (request.n * request.k)) request.jobKey request.bColIndices request.k =
      .ok bProof := by
  have size := length_bseedMatrix bSeed (request.n * request.k)
  have small : (bseedMatrix bSeed (request.n * request.k)).length < 2 ^ 31 := by
    rw [size]
    exact bFits
  have few : Blake3.chunkCount (request.n * request.k) * 32 < 2 ^ 31 := by
    rw [Blake3.chunkCount]
    omega
  exact ⟨_, BSeedMerkleTreeHandle.buildFromLeafCvs_seed conforms stream bSeed request.jobKey (someCols cols) someWidth
      (padded_fits small) few,
    BSeedMerkleTreeHandle.proof_rows stream bSeed request.jobKey (someCols cols) someWidth (padded_fits small) few
      cols.given cols.inRange, rfl,
    computeRootAndProof_eq conforms _ size small someWidth cols.given cols.inRange (rowsFit someWidth bFits cols)⟩

end builders

/-- For the same A and for B expanded from its seed, the two ways with a tree of B build the same share. The way from
both matrices builds that share without the seed and without the audit openings, which it never sets. -/
theorem share_builders_agree {crate : Blake3Crate} (conforms : crate.Conforms) {xof : XofReader} (stream : xof.Conforms)
    (request : Request) (aBytes : List UInt8) (bSeed : Digest) (someWidth : 0 < request.k) (aligned : 1024 ∣ request.k)
    (shape : aBytes.length = request.m * request.k) (aFits : request.m * request.k < 2 ^ 31)
    (bFits : request.n * request.k < 2 ^ 31) (rows : IndexList request.aRowIndices request.m)
    (cols : IndexList request.bColIndices request.n) : ∃ bBytes handle bProof aSlice,
      expandRaw bSeed request.n request.k = .ok bBytes ∧
      BSeedMerkleTreeHandle.buildFromLeafCvs xof (tableBytes crate request.jobKey bBytes) bSeed request.jobKey request.n
        request.k = .ok handle ∧
      handle.proof xof request.bColIndices = .ok bProof ∧
      extractSlice aBytes request.aRowIndices request.k = .ok aSlice ∧
      ∀ auditK,
        buildFromLeafCvs crate xof request aSlice (tableBytes crate request.jobKey aBytes) bProof (.ofSeed handle) bSeed
            auditK = buildWithTree crate xof request aBytes bProof (.ofSeed handle) bSeed auditK ∧
        buildWithTree crate xof request aBytes bProof (.ofSeed handle) bSeed auditK = do
          let share ← build crate request aBytes bBytes handle.root
          let auditProof ← openAudit share.claimedHash bSeed auditK (.ofSeed handle)
          return { share with bSeed := bSeed.toList, auditProof } := by
  obtain ⟨aRoot, whole, opened⟩ := aProofs_agree conforms someWidth aligned shape aFits rows
  obtain ⟨bProof, built, proved, root, matrix⟩ := bProofs_agree conforms stream bSeed someWidth bFits cols
  have slice := extractSlice_eq someWidth aFits shape rows
  have cut := extractSlice_eq someWidth bFits (length_bseedMatrix bSeed _) cols
  have expanded := expandBSeedRows_eq someWidth bFits stream bSeed cols
  refine ⟨_, _, bProof, _, expandRaw_eq bSeed (someCols cols) someWidth bFits, built, proved, slice,
    fun auditK => ⟨?_, ?_⟩⟩
  · simp only [buildFromLeafCvs, buildWithTree, slice, expanded, whole, opened, ok_bind]
  · simp only [buildWithTree, build, slice, cut, expanded, whole, matrix, ok_bind, root]
    cases claimedHash request aRoot.root (seedHandle crate bSeed request.jobKey request.n request.k).root
      (rowBytes aBytes request.aRowIndices request.k)
      (rowBytes (bseedMatrix bSeed (request.n * request.k)) request.bColIndices request.k) <;> rfl

section shares
variable {request : Request} {e : Nat} (power : request.r = 2 ^ e) (proper : 2 ≤ request.r)
  (width : request.k + request.r < 2 ^ 31)
include power proper width

theorem noise_shaped (label : List UInt8) (seed : Digest) {indices : List UInt32}
    (fits : ∀ row ∈ indices.map UInt32.toNat, row * request.r + request.r < 2 ^ 31) :
    ∃ factor perm noise, generateUniformRandomMatrix label seed (indices.map UInt32.toNat) request.r =
        .ok factor ∧
      generatePermutationMatrix label seed request.k request.r = .ok perm ∧
      factor.mapM (applySparsePermutation perm) = .ok noise ∧
      JackpotComputer.Shaped noise indices.length request.k := by
  refine ⟨_, _, (indices.map UInt32.toNat).map fun row =>
      tabulate (Spec.noise seed label request.r (uniformFactor seed label request.r row)) request.k,
    generateUniformRandomMatrix_eq label seed fits,
    generatePermutationMatrix_eq label seed request.r (by omega), ?_, ?_⟩
  · rw [mapM_map]
    exact mapM_eq_ok fun row _ => applySparsePermutation_eq label seed request.k power (by omega) proper _
  · refine ⟨by simp, fun u row => ?_⟩
    rw [getD_eq_getElem _ _ (by simpa using row), getElem_map]
    exact length_tabulate _ _

theorem claimedHash_ok (hashA hashB : Digest) {aSlice bSlice : List UInt8}
    (aCovers : request.aRowIndices.length * request.k ≤ aSlice.length) (aFits : aSlice.length < 2 ^ 31)
    (bCovers : request.bColIndices.length * request.k ≤ bSlice.length) (bFits : bSlice.length < 2 ^ 31)
    (rowsFit : ∀ row ∈ request.aRowIndices.map UInt32.toNat, row * request.r + request.r < 2 ^ 31)
    (colsFit : ∀ col ∈ request.bColIndices.map UInt32.toNat, col * request.r + request.r < 2 ^ 31) :
    ∃ claimed, claimedHash request hashA hashB aSlice bSlice = .ok claimed := by
  unfold claimedHash
  rw [CommitmentHasher.deriveNoiseSeeds_eq, ok_bind, parseRows_eq aCovers aFits, ok_bind,
    parseRows_eq bCovers bFits, ok_bind]
  have aShaped := parseRows_shaped aCovers aFits (parseRows_eq aCovers aFits)
  have bShaped := parseRows_shaped bCovers bFits (parseRows_eq bCovers bFits)
  generalize Spec.noiseSeeds _ _ _ _ _ _ _ _ = seeds
  obtain ⟨eAl, eAr, noiseA, aFactor, aPerm, aNoise, aShape⟩ :=
    noise_shaped power proper width seedLabelA seeds.a rowsFit
  obtain ⟨eBr, eBl, noiseB, bFactor, bPerm, bNoise, bShape⟩ :=
    noise_shaped power proper width seedLabelB seeds.b colsFit
  simp only [aFactor, aPerm, bPerm, bFactor, aNoise, bNoise, ok_bind]
  rw [JackpotComputer.compute_eq aShaped bShaped aShape bShape (by omega) fun _ => width, ok_bind, jackpotHash]
  exact ⟨_, HostBlake3.keyedHash_eq _ (by simp [wordBytes])⟩

end shares

theorem openAudit_ok {crate : Blake3Crate} (conforms : crate.Conforms) (claimed bSeed key : Digest) {auditK : UInt32}
    (some : 0 < auditK) (cap : auditK.toNat ≤ auditKMax) {n k e : Nat} (someRows : 0 < n) (someWidth : 0 < k)
    (small : n * k < 2 ^ 31) (full : Blake3.chunkCount (n * k) = 2 ^ e) :
    ∃ paths, openAudit claimed bSeed auditK (.ofSeed (seedHandle crate bSeed key n k)) = .ok (Option.some paths) := by
  have fits : (padToChunkBoundary (bseedMatrix bSeed (n * k))).length < 2 ^ 63 := padded_fits (by
    rw [length_bseedMatrix]
    exact small)
  have few : 2 ^ e < 2 ^ 22 := by
    rw [← full, Blake3.chunkCount]
    omega
  have low : e < 22 := (Nat.pow_lt_pow_iff_right (by decide)).mp few
  have count : ((Blake3.chunkCount (n * k)).toUInt64).toNat = 2 ^ e := by
    rw [full, toUInt64, UInt64.toNat_ofNat']
    omega
  have drawn := derive_eq claimed bSeed cap count
  set indices := AuditIndexDeriver.indices auditK (Blake3.chunkCount (n * k)).toUInt64 _ with named
  have inRange : ∀ i ∈ indices, i.toNat < 2 ^ e := by
    rw [← count, named]
    exact indices_lt (leaves_ne_zero count) _ _
  have number : indices.length = auditK.toNat := by rw [named, length_indices]
  -- 64 openings of at most 22 digests: the array the handle allocates is far from its limit
  have room : indices.length * e ≤ 64 * 22 := by
    rw [number]
    exact Nat.mul_le_mul cap (by omega)
  have given : indices ≠ [] := by
    rw [← length_pos_iff, number]
    exact some
  have aligned := length_padded (bseedMatrix bSeed (n * k))
  rw [length_bseedMatrix, full] at aligned
  have paths := BSeedMerkleTreeHandle.auditPaths_agrees conforms bSeed key someRows someWidth fits indices
    (fun none => absurd none given) (by rw [full, log2_two_pow]; omega)
  rw [getAuditPaths_new conforms key aligned fits (by simpa using inRange) (by rw [length_map]; omega)] at paths
  unfold openAudit
  rw [if_pos some, show (TreeHandle.ofSeed (seedHandle crate bSeed key n k)).totalLeaves =
    Blake3.chunkCount (n * k) from rfl, drawn, ok_bind]
  cases opened : (seedHandle crate bSeed key n k).auditPaths indices with
  | error why =>
    rw [opened] at paths
    cases paths
  | ok siblings =>
    refine ⟨siblings, ?_⟩
    rw [show (TreeHandle.ofSeed (seedHandle crate bSeed key n k)).auditPaths indices = _ from opened]
    rfl

section zeros
open Blake3 (zeroKey)

def zeroRows : List UInt8 := replicate 4096 0

def zeroRequest : Request where
  sigma := replicate 76 0
  configBytes := replicate 52 0
  jobKey := zeroKey
  aRowIndices := [0, 2]
  bColIndices := [1, 3]
  tileRow := 0
  tileCol := 0
  m := 4
  n := 4
  k := 1024
  r := 64
  claimedDifficultyNbits := 0
  saltedSeeds := true

theorem zeroRequest_rows : IndexList zeroRequest.aRowIndices zeroRequest.m := ⟨by decide, by decide, by simp [zeroRequest]⟩

theorem zeroRequest_cols : IndexList zeroRequest.bColIndices zeroRequest.n := ⟨by decide, by decide, by simp [zeroRequest]⟩

/-- Two rows of zeros against two expanded columns, with one audited leaf: the share from both matrices has neither the
seed nor the openings. -/
theorem share_builders_differ : ∃ bBytes handle bProof share audited,
    expandRaw zeroKey zeroRequest.n zeroRequest.k = .ok bBytes ∧
    BSeedMerkleTreeHandle.buildFromLeafCvs .reference (tableBytes .reference zeroRequest.jobKey bBytes) zeroKey
      zeroRequest.jobKey zeroRequest.n zeroRequest.k = .ok handle ∧
    handle.proof .reference zeroRequest.bColIndices = .ok bProof ∧
    build .reference zeroRequest zeroRows bBytes handle.root = .ok share ∧
    buildWithTree .reference .reference zeroRequest zeroRows bProof (.ofSeed handle) zeroKey 1 =
      .ok audited ∧
    share.bSeed = [] ∧ audited.bSeed = zeroKey.toList ∧ share.auditProof = none ∧ audited.auditProof ≠ none := by
  have someWidth : 0 < zeroRequest.k := by decide
  have aFits : zeroRequest.m * zeroRequest.k < 2 ^ 31 := by decide
  have bFits : zeroRequest.n * zeroRequest.k < 2 ^ 31 := by decide
  have shape : zeroRows.length = zeroRequest.m * zeroRequest.k := length_replicate
  obtain ⟨aRoot, whole, -⟩ := aProofs_agree Blake3Crate.reference_conforms someWidth (by decide) shape aFits
    zeroRequest_rows
  obtain ⟨bProof, built, proved, root, matrix⟩ := bProofs_agree Blake3Crate.reference_conforms
    XofReader.reference_conforms zeroKey someWidth bFits zeroRequest_cols
  have slice := extractSlice_eq someWidth aFits shape zeroRequest_rows
  have cut := extractSlice_eq someWidth bFits (length_bseedMatrix zeroKey _) zeroRequest_cols
  have expanded := expandBSeedRows_eq someWidth bFits XofReader.reference_conforms zeroKey zeroRequest_cols
  have aLength := length_rowBytes shape zeroRequest_rows
  have bLength := length_rowBytes (length_bseedMatrix zeroKey (zeroRequest.n * zeroRequest.k)) zeroRequest_cols
  obtain ⟨claimed, hashed⟩ := claimedHash_ok (e := 6) (by decide) (by decide) (by decide) aRoot.root bProof.root
    aLength.ge (aLength.trans_lt (by decide)) bLength.ge (bLength.trans_lt (by decide)) (by decide) (by decide)
  obtain ⟨paths, opened⟩ := openAudit_ok Blake3Crate.reference_conforms claimed zeroKey zeroRequest.jobKey
    (show 0 < (1 : UInt32) by decide) (by decide) (e := 2) (someCols zeroRequest_cols) someWidth bFits (by decide)
  exact ⟨_, _, bProof, _, _, expandRaw_eq zeroKey (someCols zeroRequest_cols) someWidth bFits, built,
    proved, by simp only [build, slice, cut, whole, matrix, root ▸ hashed, ok_bind]; rfl,
    by simp only [buildWithTree, slice, expanded, whole, hashed, opened, ok_bind]; rfl, rfl, rfl,
    rfl, Option.some_ne_none paths⟩

theorem share_builders_agree_zero : ∃ bBytes handle bProof aSlice,
    expandRaw zeroKey zeroRequest.n zeroRequest.k = .ok bBytes ∧
    BSeedMerkleTreeHandle.buildFromLeafCvs .reference (tableBytes .reference zeroRequest.jobKey bBytes) zeroKey
      zeroRequest.jobKey zeroRequest.n zeroRequest.k = .ok handle ∧
    handle.proof .reference zeroRequest.bColIndices = .ok bProof ∧
    extractSlice zeroRows zeroRequest.aRowIndices zeroRequest.k = .ok aSlice ∧
    buildFromLeafCvs .reference .reference zeroRequest aSlice
      (tableBytes .reference zeroRequest.jobKey zeroRows) bProof (.ofSeed handle) zeroKey 1 =
        buildWithTree .reference .reference zeroRequest zeroRows bProof (.ofSeed handle) zeroKey 1 := by
  obtain ⟨bBytes, handle, bProof, aSlice, expanded, built, proved, slice, agree⟩ :=
    share_builders_agree Blake3Crate.reference_conforms XofReader.reference_conforms zeroRequest zeroRows
      zeroKey (by decide) (by decide) length_replicate (by decide) (by decide) zeroRequest_rows zeroRequest_cols
  exact ⟨bBytes, handle, bProof, aSlice, expanded, built, proved, slice, (agree 1).1⟩

end zeros
end ArcMiner.Prl.ShareBuilder
