import ArcMiner.AkoyaCrypto.BSeedExpander

/-! `Akoya.Crypto.AuditIndexDeriver`, `AuditProofBuilder` and `AuditProofVerifier`.

The miner opens leaves of B that follow from the claimed hash and the seed. The
builder takes them from the matrix in memory, filled up with zeros to whole leaves;
the verifier expands each leaf again from the seed. Hashes, seeds and keys are arrays
of 32 bytes, so the length checks on them hold by type.
-/

namespace ArcMiner.AkoyaCrypto

open Library Library.CSharp MiningCapi PearlBlake3 List HostBlake3 BSeedExpander UInt32
open Blake3 (chunkAt chunkCount fillChunks treeHash)

def auditKMax : Nat := 64

namespace AuditIndexDeriver

def domainSeparator : List UInt8 :=
  [0x61, 0x6B, 0x6F, 0x79, 0x61, 0x2D, 0x61, 0x75, 0x64, 0x69, 0x74, 0x2D, 0x76, 0x31]

def xofInput (claimedHash bSeed : Digest) (auditK : UInt32) : List UInt8 :=
  domainSeparator ++ (claimedHash.toList ++ (bSeed.toList ++ wordBytes auditK))

def indices (auditK : UInt32) (totalLeaves : UInt64) (xofUsed : List UInt8) : List UInt32 :=
  (range auditK.toNat).map fun i => ((leWordAt xofUsed (i * 4)).toUInt64 % totalLeaves).toUInt32

def derive (claimedHash bSeed : Digest) (auditK : UInt32) (totalLeaves : UInt64) : Result (List UInt32) := do
  if auditK = 0 then return []
  if auditKMax < auditK.toNat then
    throw (.argumentOutOfRangeWith "auditK" s!"audit_k must be in [0, {auditKMax}] (spec §3.2 hard cap).")
  if totalLeaves = 0 then throw (.argumentOutOfRangeWith "totalLeaves" "total_leaves must be > 0.")
  if totalLeaves &&& (totalLeaves - 1) ≠ 0 then
    throw (.argument s!"total_leaves must be a power of two (spec §3.2(a) v1 constraint); got {totalLeaves}.")
  let xofUsed ← xof (xofInput claimedHash bSeed auditK) (auditK * 4).toNat
  return indices auditK totalLeaves xofUsed

end AuditIndexDeriver

namespace AuditProofBuilder

def nextLevel (jobKey : Digest) (levels lvl : Nat) (cur : List Digest) : List Digest :=
  let combine := if lvl = levels - 1 then rootCv else parentCv
  tabulate (fun j => combine (cur.getD (2 * j) default) (cur.getD (2 * j + 1) default) jobKey) (cur.length / 2)

def levelsCvs (jobKey : Digest) (levels : Nat) (leafCvs : List Digest) : List (List Digest) :=
  (range levels).foldl (fun table lvl => table ++ [nextLevel jobKey levels lvl (table.getD lvl [])]) [leafCvs]

def pathStep (table : List (List Digest)) (state : Nat × List Digest) (lvl : Nat) : Result (Nat × List Digest) := do
  let sibling ← index (← index table lvl) ((state.1 ^^^ 1 : Nat) : Int)
  return (state.1 / 2, state.2 ++ [sibling])

def siblingPath (table : List (List Digest)) (levels : Nat) (totalLeaves : Int) (idx : UInt32) :
    Result (List Digest) := do
  if totalLeaves ≤ idx.toNat then
    throw (.argumentOutOfRangeWith "auditIndices" s!"audit index {idx} out of range for total_leaves={totalLeaves}.")
  return (← (range levels).foldlM (pathStep table) (idx.toNat, [])).2

def build (bBytes : List UInt8) (jobKey : Digest) (auditIndices : List UInt32) : Result (List UInt8) := do
  if auditKMax < auditIndices.length then
    throw (.argumentOutOfRangeWith "auditIndices" s!"K must be ≤ {auditKMax} (spec hard cap).")
  if auditIndices.isEmpty then return []
  let totalLeaves := (paddedLength bBytes.length).tdiv 1024
  if totalLeaves < 2 then
    throw (.argument "AuditProofBuilder requires total_leaves >= 2 (single-leaf path uses HashSingleChunkRoot, no siblings).")
  if totalLeaves.toNat &&& (totalLeaves.toNat - 1) ≠ 0 then
    throw (.argument s!"total_leaves must be a power of two (audit_proof v1 §3.2(a)); got {totalLeaves}.")
  let levels := Nat.log2 totalLeaves.toNat
  let padded ← padded bBytes
  let leafCvs ← (range totalLeaves.toNat).mapM fun i =>
    chunkCv ((padded.drop (1024 * i)).take 1024) i.toUInt64 jobKey
  let siblings ← auditIndices.mapM (siblingPath (levelsCvs jobKey levels leafCvs) levels totalLeaves)
  return siblings.flatten.flatMap Vector.toList

end AuditProofBuilder

namespace AuditProofVerifier

inductive AuditError where
  | ok
  | wrongSiblingLength
  | totalLeavesNotPowerOfTwo
  | merklePathMismatch
  | kAboveSpecMax
deriving DecidableEq

def openingRoot (jobKey : Digest) (levels : Nat) (siblings : List UInt8) (i : Nat) (idx : UInt32)
    (leafBytes : List UInt8) : Result Digest := do
  let leaf ← chunkCv leafBytes idx.toUInt64 jobKey
  let (cur, node) := (range (levels - 1)).foldl
    (fun (state : Nat × Digest) lvl => (state.1 / 2,
      joinAt (fun l r => parentCv l r jobKey) state.1 state.2 (digestAt siblings (i * levels + lvl))))
    (idx.toNat, leaf)
  if levels = 0 then keyedHash jobKey leafBytes
  else return joinAt (fun l r => rootCv l r jobKey) cur node (digestAt siblings (i * levels + (levels - 1)))

/-- The loop over the openings, each with its number; the second part is `failingIndex`. -/
def checkOpenings (bSeed jobKey hashB : Digest) (levels : Nat) (siblings : List UInt8) :
    List (UInt32 × Nat) → Result (AuditError × Int)
  | [] => return (.ok, -1)
  | (idx, i) :: rest => do
    let leafBytes ← expandRangeRaw bSeed (idx.toUInt64 * 1024) 1024
    let root ← openingRoot jobKey levels siblings i idx leafBytes
    if root ≠ hashB then return (.merklePathMismatch, i)
    checkOpenings bSeed jobKey hashB levels siblings rest

def verify (claimedHash bSeed jobKey hashB : Digest) (auditK : UInt32) (totalLeaves : UInt64) (siblings : List UInt8) :
    Result (AuditError × Int) := do
  if auditKMax < auditK.toNat then return (.kAboveSpecMax, -1)
  if totalLeaves = 0 ∨ totalLeaves &&& (totalLeaves - 1) ≠ 0 then return (.totalLeavesNotPowerOfTwo, -1)
  if auditK = 0 then return (if siblings.isEmpty then .ok else .wrongSiblingLength, -1)
  let levels := if totalLeaves = 1 then 0 else Nat.log2 totalLeaves.toUInt32.toNat
  if siblings.length ≠ auditK.toNat * levels * 32 then return (.wrongSiblingLength, -1)
  let indices ← AuditIndexDeriver.derive claimedHash bSeed auditK totalLeaves
  checkOpenings bSeed jobKey hashB levels siblings indices.zipIdx

end AuditProofVerifier

/-- Expanding B, deriving the indices, building the openings and verifying them against the root of B. -/
def auditRoundTrip (claimedHash bSeed jobKey : Digest) (auditK : UInt32) (n k : Int) :
    Result (AuditProofVerifier.AuditError × Int) := do
  let b ← expandRaw bSeed n k
  let totalLeaves := (chunkCount b.length).toUInt64
  let indices ← AuditIndexDeriver.derive claimedHash bSeed auditK totalLeaves
  let siblings ← AuditProofBuilder.build b jobKey indices
  let hashB ← merkleRoot b jobKey.toList
  AuditProofVerifier.verify claimedHash bSeed jobKey hashB auditK totalLeaves siblings

section leaves
variable {totalLeaves : UInt64} {e : Nat} (power : totalLeaves.toNat = 2 ^ e)
include power

theorem leaves_ne_zero : totalLeaves ≠ 0 := by
  intro zero
  rw [zero] at power
  exact absurd power.symm (Nat.two_pow_pos e).ne'

theorem leaves_and_pred : totalLeaves &&& (totalLeaves - 1) = 0 := by
  have positive := Nat.two_pow_pos e
  have pred : (totalLeaves - 1).toNat = totalLeaves.toNat - 1 := by
    rw [UInt64.toNat_sub_of_le]
    · rfl
    · rw [UInt64.le_iff_toNat_le]
      show 1 ≤ _
      omega
  apply UInt64.toNat_inj.mp
  rw [UInt64.toNat_and, pred]
  exact (and_pred_eq_zero_iff (by omega)).mpr ⟨e, power⟩

end leaves

theorem length_indices (auditK : UInt32) (totalLeaves : UInt64) (xofUsed : List UInt8) :
    (AuditIndexDeriver.indices auditK totalLeaves xofUsed).length = auditK.toNat := by
  rw [AuditIndexDeriver.indices, length_map, length_range]

theorem indices_lt {totalLeaves : UInt64} (some : totalLeaves ≠ 0) (auditK : UInt32) (xofUsed : List UInt8) :
    ∀ i ∈ AuditIndexDeriver.indices auditK totalLeaves xofUsed, i.toNat < totalLeaves.toNat := by
  intro i member
  obtain ⟨place, -, rfl⟩ := mem_map.mp member
  have positive : 0 < totalLeaves.toNat := Nat.pos_of_ne_zero fun zero => some (UInt64.toNat_inj.mp zero)
  rw [UInt64.toNat_toUInt32, UInt64.toNat_mod]
  exact Nat.lt_of_le_of_lt (Nat.mod_le _ _) (Nat.mod_lt _ positive)

theorem derive_eq (claimedHash bSeed : Digest) {auditK : UInt32} (cap : auditK.toNat ≤ auditKMax)
    {totalLeaves : UInt64} {e : Nat} (power : totalLeaves.toNat = 2 ^ e) :
    AuditIndexDeriver.derive claimedHash bSeed auditK totalLeaves =
      .ok (AuditIndexDeriver.indices auditK totalLeaves
        (tabulate (Blake3.xofByte .unkeyed (AuditIndexDeriver.xofInput claimedHash bSeed auditK)) (auditK * 4).toNat)) := by
  unfold AuditIndexDeriver.derive
  by_cases none : auditK = 0
  · subst none
    rfl
  have input : (AuditIndexDeriver.xofInput claimedHash bSeed auditK).length ≤ 1024 := by
    simp [AuditIndexDeriver.xofInput, AuditIndexDeriver.domainSeparator, wordBytes]
  have length : (auditK * 4).toNat < 2 ^ 31 := by
    rw [auditKMax] at cap
    rw [UInt32.toNat_mul, show (4 : UInt32).toNat = 4 from rfl]
    omega
  rw [if_neg none, if_neg (by omega), if_neg (leaves_ne_zero power), if_neg (by simpa using leaves_and_pred power),
    xof_eq input (by omega)]
  rfl

def hostNodes (key : Digest) : NodeHasher Digest where
  hash := treeHash (.keyed key)
  chunkCv bytes i := Blake3.chunkCv (.keyed key) i bytes
  parentCv := Blake3.parentCv (.keyed key)
  rootCv := Blake3.rootCv (.keyed key)
  hashChunks data := tabulate (Blake3.chunkCvAt (.keyed key) data) (chunkCount data.length)
  combineLayer := pairUp (Blake3.parentCv (.keyed key))

theorem hostNodes_lawful (key : Digest) : (hostNodes key).Lawful := ⟨fun _ => rfl, fun _ _ => rfl⟩

namespace AuditProofBuilder

section table
variable (jobKey : Digest) (f : Nat → Digest)

theorem nextLevel_eq {levels lvl m : Nat} (inner : lvl ≠ levels - 1) :
    nextLevel jobKey levels lvl (tabulate f (2 * m)) = tabulate (pairFull (Blake3.parentCv (.keyed jobKey)) f) m := by
  have half : 2 * m / 2 = m := by omega
  unfold nextLevel
  rw [if_neg inner, length_tabulate, half]
  refine tabulate_congr fun j inside => ?_
  simp only [getD_eq_getElem?_getD]
  rw [getElem?_tabulate f (by omega), getElem?_tabulate f (by omega), HostBlake3.parentCv_eq]
  rfl

theorem levelsCvs_holds (d : Nat) :
    HoldsLevels (Blake3.parentCv (.keyed jobKey)) d f (levelsCvs jobKey (d + 1) (tabulate f (2 ^ (d + 1)))) := by
  -- after `count` steps the first `count + 1` levels stand
  have steps : ∀ count ≤ d + 1, ∃ table : List (List Digest),
      (range count).foldl
        (fun table lvl => table ++ [nextLevel jobKey (d + 1) lvl (table.getD lvl [])]) [tabulate f (2 ^ (d + 1))] = table ∧
      table.length = count + 1 ∧ ∀ l ≤ count, l ≤ d →
        table[l]? = some (tabulate ((pairFull (Blake3.parentCv (.keyed jobKey)))^[l] f) (2 ^ (d + 1 - l))) := by
    intro count
    induction count with
    | zero =>
      refine fun _ => ⟨_, rfl, rfl, fun l low _ => ?_⟩
      obtain rfl : l = 0 := by omega
      rfl
    | succ count ih =>
      intro enough
      obtain ⟨table, run, length, held⟩ := ih (by omega)
      refine ⟨_, by rw [range_succ, foldl_append, run, foldl_cons, foldl_nil], by simp [length],
        fun l low below => ?_⟩
      by_cases old : l ≤ count
      · rw [getElem?_append_left (by omega), held l old below]
      · obtain rfl : l = count + 1 := by omega
        have cur := held count (Nat.le_refl _) (by omega)
        have double : 2 ^ (d + 1 - count) = 2 * 2 ^ (d + 1 - (count + 1)) := by
          rw [← Nat.pow_succ']
          congr 1
          omega
        rw [getElem?_append_right (by omega), length, Nat.sub_self, getElem?_cons_zero,
          getD_eq_getElem?_getD, cur, Option.getD_some, double, nextLevel_eq jobKey _ (by omega),
          Function.iterate_succ_apply']
  obtain ⟨table, run, -, held⟩ := steps (d + 1) (Nat.le_refl _)
  intro l below
  rw [levelsCvs, run]
  exact held l (by omega) below

end table

theorem pathStep_of_ok {table : List (List Digest)} {state after : Nat × List Digest} {lvl : Nat}
    (step : auditStep table state lvl = .ok after) : pathStep table state lvl = .ok after := by
  obtain ⟨layer, found, step⟩ := bind_eq_ok.mp step
  obtain ⟨sibling, here, result⟩ := bind_eq_ok.mp step
  unfold pathStep
  rw [index_of_entry (index_ok_iff.mp found), ok_bind, index_of_entry (index_ok_iff.mp here), ok_bind]
  cases result
  rfl

theorem build_eq (jobKey : Digest) {data : List UInt8} {d : Nat} (fits : data.length ≤ 2 ^ 31 - 1024)
    (leaves : chunkCount data.length = 2 ^ (d + 1)) {indices : List UInt32} (cap : indices.length ≤ auditKMax)
    (inRange : ∀ i ∈ indices, i.toNat < 2 ^ (d + 1)) :
    build data jobKey indices = .ok ((auditPathsOf (hostNodes jobKey) (fillChunks data) (d + 1)
      (indices.map toNat)).flatMap Vector.toList) := by
  have large := Nat.one_lt_two_pow (n := d + 1) (by omega)
  have positive : 0 < data.length := by
    rw [chunkCount] at leaves
    omega
  have cvs := leafCvs_eq jobKey data
  rw [leaves] at cvs
  have paths : indices.mapM (siblingPath (levelsCvs jobKey (d + 1)
      (tabulate ((hostNodes jobKey).leaf (fillChunks data)) (2 ^ (d + 1)))) (d + 1) ((2 ^ (d + 1) : Nat) : Int)) =
      .ok (indices.map fun idx => tabulate
        (siblingAt (hostNodes jobKey).parentCv ((hostNodes jobKey).leaf (fillChunks data)) idx.toNat) (d + 1)) := by
    refine mapM_eq_ok fun idx member => ?_
    have walk := foldlM_ok (fun _ _ _ => pathStep_of_ok)
      (auditSteps_eq (levelsCvs_holds jobKey ((hostNodes jobKey).leaf (fillChunks data)) d) (inRange idx member) (d + 1)
        (Nat.le_refl _))
    rw [siblingPath, if_neg (by have := inRange idx member; omega), walk]
    rfl
  unfold build
  rw [if_neg (by omega)]
  by_cases none : indices = []
  · subst none
    rfl
  simp only [totalLeaves_of_fits positive fits, leaves, Int.toNat_natCast, Nat.log2_two_pow,
    padded_of_fits positive fits, ok_bind]
  rw [if_neg (by simpa using none), if_neg (by omega),
    if_neg (not_not.mpr ((and_pred_eq_zero_iff (by omega)).mpr ⟨d + 1, rfl⟩)), cvs, ok_bind]
  refine (congrArg (· >>= _) paths).trans ?_
  rw [ok_bind, auditPathsOf, flatMap_map, flatMap_def]
  rfl

end AuditProofBuilder

def streamLeaf (bSeed : Digest) (i : Nat) : Chunk :=
  ⟨tabulate (fun j => bseedStream bSeed (i * 1024 + j)) 1024, length_tabulate _ _⟩

theorem bytes_streamLeaf (bSeed : Digest) (i : Nat) :
    (streamLeaf bSeed i).bytes = tabulate (fun j => bseedStream bSeed (i * 1024 + j)) 1024 := by
  rw [streamLeaf]

def openedRoot (bSeed jobKey : Digest) (data : List UInt8) (levels i : Nat) : Digest :=
  pathRoot (hostNodes jobKey).parentCv (hostNodes jobKey).rootCv i
    ((hostNodes jobKey).chunkCv (streamLeaf bSeed i).bytes i.toUInt64)
    (tabulate (siblingAt (hostNodes jobKey).parentCv ((hostNodes jobKey).leaf data) i) levels)

namespace AuditProofVerifier

theorem toUInt64_toNat (idx : UInt32) : idx.toNat.toUInt64 = idx.toUInt64 := by
  have below := idx.toNat_lt
  apply UInt64.toNat_inj.mp
  rw [Nat.toUInt64, UInt64.toNat_ofNat', toNat_toUInt64, Nat.mod_eq_of_lt (by omega)]

theorem openingRoot_eq (jobKey : Digest) (d i : Nat) (siblings : List UInt8) (idx : UInt32) (leaf : Chunk) :
    openingRoot jobKey (d + 1) siblings i idx leaf.bytes =
      .ok (pathRoot (hostNodes jobKey).parentCv (hostNodes jobKey).rootCv idx.toNat
        ((hostNodes jobKey).chunkCv leaf.bytes idx.toNat.toUInt64)
        (tabulate (fun lvl => digestAt siblings (i * (d + 1) + lvl)) (d + 1))) := by
  have length : leaf.bytes.length = 1024 := leaf.size
  have cv := HostBlake3.chunkCv_eq jobKey idx.toUInt64 (show 0 < leaf.bytes.length by omega) (by omega)
  unfold openingRoot
  rw [cv, ok_bind, toUInt64_toNat, tabulate_add, show tabulate _ 1 = [digestAt siblings (i * (d + 1) + (d + 0))] from rfl,
    pathRoot_concat, tabulate, foldl_map]
  simp only [HostBlake3.parentCv_eq, HostBlake3.rootCv_eq, Nat.add_sub_cancel, Nat.add_zero]
  rw [if_neg (by omega)]
  rfl

theorem checkOpenings_eq_ok {bSeed jobKey hashB : Digest} {levels : Nat} {siblings : List UInt8}
    {openings : List (UInt32 × Nat)} (leaf : UInt32 → List UInt8) (root : UInt32 × Nat → Digest)
    (leaves : ∀ p ∈ openings, expandRangeRaw bSeed (p.1.toUInt64 * 1024) 1024 = .ok (leaf p.1))
    (roots : ∀ p ∈ openings, openingRoot jobKey levels siblings p.2 p.1 (leaf p.1) = .ok (root p)) :
    checkOpenings bSeed jobKey hashB levels siblings openings = .ok (.ok, -1) ↔ ∀ p ∈ openings, root p = hashB := by
  induction openings with
  | nil => simp [checkOpenings, pure, Except.pure]
  | cons first rest ih =>
    have tail := ih (fun p member => leaves p (mem_cons_of_mem _ member))
      (fun p member => roots p (mem_cons_of_mem _ member))
    rw [checkOpenings, leaves first mem_cons_self, ok_bind, roots first mem_cons_self, ok_bind,
      forall_mem_cons, ← tail]
    by_cases same : root first = hashB
    · simp [same]
    · simp [same, pure, Except.pure]

theorem expandLeaf_eq (bSeed : Digest) (idx : UInt32) :
    expandRangeRaw bSeed (idx.toUInt64 * 1024) 1024 = .ok (streamLeaf bSeed idx.toNat).bytes := by
  have below := idx.toNat_lt
  have offset : (idx.toUInt64 * 1024).toNat = idx.toNat * 1024 := by
    rw [UInt64.toNat_mul, toNat_toUInt64, show (1024 : UInt64).toNat = 1024 from rfl]
    exact Nat.mod_eq_of_lt (by omega)
  rw [expandRangeRaw_eq bSeed _ (by omega), offset, bytes_streamLeaf]

theorem block_eq {hasher : NodeHasher Digest} {data : List UInt8} {levels : Nat} {indices : List UInt32} {i : Nat}
    {idx : UInt32} (entry : indices[i]? = some idx) :
    tabulate (fun lvl => digestAt
        ((auditPathsOf hasher data levels (indices.map toNat)).flatMap Vector.toList) (i * levels + lvl)) levels =
      tabulate (siblingAt hasher.parentCv (hasher.leaf data) idx.toNat) levels := by
  have known : (indices.map toNat)[i]? = some idx.toNat := by rw [getElem?_map, entry]; rfl
  have block := auditBlock_paths hasher data levels known
  refine tabulate_congr fun lvl inside => digestAt_eq (drop_take_flatMap (fun _ _ => Vector.length_toList) ?_)
  have here := congrArg (·[lvl]?) block
  simp only [auditBlock, getElem?_take, if_pos inside, getElem?_drop, getElem?_tabulate _ inside] at here
  exact here

theorem verify_of_levels {claimedHash bSeed jobKey hashB : Digest} {auditK : UInt32} (some : auditK ≠ 0)
    (cap : auditK.toNat ≤ auditKMax) {totalLeaves : UInt64} {e levels : Nat} (power : totalLeaves.toNat = 2 ^ e)
    (counted : (if totalLeaves = 1 then 0 else Nat.log2 totalLeaves.toUInt32.toNat) = levels) {indices : List UInt32}
    (derived : AuditIndexDeriver.derive claimedHash bSeed auditK totalLeaves = .ok indices) (siblings : List UInt8) :
    verify claimedHash bSeed jobKey hashB auditK totalLeaves siblings =
      if siblings.length ≠ auditK.toNat * levels * 32 then .ok (.wrongSiblingLength, -1)
      else checkOpenings bSeed jobKey hashB levels siblings indices.zipIdx := by
  have valid : ¬ (totalLeaves = 0 ∨ totalLeaves &&& (totalLeaves - 1) ≠ 0) := by
    rintro (zero | bits)
    · exact leaves_ne_zero power zero
    · exact bits (leaves_and_pred power)
  unfold verify
  rw [if_neg (by omega), if_neg valid, if_neg some, counted, derived]
  rfl

/-- `Verify` of the built openings accepts exactly when all of them lead to the given root. -/
theorem verify_eq_ok {claimedHash bSeed jobKey hashB : Digest} {auditK : UInt32} (cap : auditK.toNat ≤ auditKMax)
    {totalLeaves : UInt64} {d : Nat} (few : d < 31) (power : totalLeaves.toNat = 2 ^ (d + 1)) {indices : List UInt32}
    (derived : AuditIndexDeriver.derive claimedHash bSeed auditK totalLeaves = .ok indices)
    (count : indices.length = auditK.toNat) (data : List UInt8) :
    verify claimedHash bSeed jobKey hashB auditK totalLeaves
        ((auditPathsOf (hostNodes jobKey) data (d + 1) (indices.map toNat)).flatMap Vector.toList) =
        .ok (.ok, -1) ↔
      ∀ idx ∈ indices, openedRoot bSeed jobKey data (d + 1) idx.toNat = hashB := by
  have large := Nat.one_lt_two_pow (n := d + 1) (by omega)
  have several : totalLeaves ≠ 1 := by
    intro one
    rw [one] at power
    exact absurd power.symm large.ne'
  have levels : Nat.log2 totalLeaves.toUInt32.toNat = d + 1 := by
    have small : 2 ^ (d + 1) < 2 ^ 32 := Nat.pow_lt_pow_right (by decide) (by omega)
    rw [UInt64.toNat_toUInt32, power, Nat.mod_eq_of_lt small, Nat.log2_two_pow]
  have length : ((auditPathsOf (hostNodes jobKey) data (d + 1) (indices.map toNat)).flatMap
      Vector.toList).length = auditK.toNat * (d + 1) * 32 := by
    rw [length_flatMap_of_size fun _ _ => Vector.length_toList, length_auditPathsOf, length_map, count]
  have openings : checkOpenings bSeed jobKey hashB (d + 1)
      ((auditPathsOf (hostNodes jobKey) data (d + 1) (indices.map toNat)).flatMap Vector.toList)
      indices.zipIdx = .ok (.ok, -1) ↔ ∀ p ∈ indices.zipIdx, openedRoot bSeed jobKey data (d + 1) p.1.toNat = hashB := by
    refine checkOpenings_eq_ok (fun idx => (streamLeaf bSeed idx.toNat).bytes)
      (fun p => openedRoot bSeed jobKey data (d + 1) p.1.toNat) (fun p _ => expandLeaf_eq bSeed p.1) fun p member => ?_
    have entry := mk_mem_zipIdx_iff_getElem?.mp member
    rw [openingRoot_eq, block_eq entry]
    rfl
  by_cases none : auditK = 0
  -- with nothing to open `Verify` returns before it derives an index
  · have empty : indices = [] := by
      rw [none] at count
      exact length_eq_zero_iff.mp count
    subst empty none
    unfold verify
    simp [leaves_ne_zero power, leaves_and_pred power, auditPathsOf, pure, Except.pure]
  · rw [verify_of_levels none cap power ((if_neg several).trans levels) derived, if_neg (not_not.mpr length), openings]
    constructor
    · intro all idx member
      obtain ⟨i, inside, rfl⟩ := getElem_of_mem member
      exact all (indices[i], i) (mk_mem_zipIdx_iff_getElem?.mpr (getElem?_eq_getElem inside))
    · exact fun all p member => all p.1 (fst_mem_of_mem_zipIdx member)

end AuditProofVerifier

/-- Different inputs, of the tree over the filled matrix and of the openings, have different digests. -/
def RoundTripCollisionFree (bSeed jobKey : Digest) (size levels : Nat) (indices : List UInt32) : Prop :=
  let hasher := hostNodes jobKey
  let data := fillChunks (bseedMatrix bSeed size)
  CollisionFree hasher (MerkleTree.calls hasher jobKey data ++ indices.flatMap fun idx =>
    openingCalls hasher idx.toNat (streamLeaf bSeed idx.toNat)
      (tabulate (siblingAt hasher.parentCv (hasher.leaf data) idx.toNat) levels))

theorem streamLeaf_eq_iff (bSeed : Digest) {size i : Nat} (inside : i < chunkCount size) :
    (streamLeaf bSeed i).bytes = chunkAt (fillChunks (bseedMatrix bSeed size)) i ↔
      ∀ j, size ≤ j → i * 1024 ≤ j → j < i * 1024 + 1024 → bseedStream bSeed j = 0 := by
  have before : i * 1024 < size := by
    rw [chunkCount] at inside
    omega
  obtain ⟨valid, same⟩ : ∃ valid, valid = min (size - i * 1024) 1024 := ⟨_, rfl⟩
  have split : tabulate (fun j => bseedStream bSeed (i * 1024 + j)) 1024 =
      tabulate (fun j => bseedStream bSeed (i * 1024 + j)) valid ++
        tabulate (fun j => bseedStream bSeed (i * 1024 + (valid + j))) (1024 - valid) := by
    rw [← tabulate_add (fun j => bseedStream bSeed (i * 1024 + j)), Nat.add_sub_of_le (by omega)]
  rw [bytes_streamLeaf, ← padToChunkBoundary_eq, ← seedLeaf_eq_chunkAt bSeed inside, seedLeaf, ← same, split,
    append_right_inj, eq_replicate_iff]
  simp only [length_tabulate, true_and]
  constructor
  · intro zeros j past low high
    have place : i * 1024 + (valid + (j - i * 1024 - valid)) = j := by omega
    rw [← place]
    exact zeros _ (mem_map.mpr ⟨_, mem_range.mpr (by omega), rfl⟩)
  · intro zeros b member
    obtain ⟨t, bound, rfl⟩ := mem_map.mp member
    have := mem_range.mp bound
    exact zeros _ (by omega) (Nat.le_add_right _ _) (Nat.add_lt_add_left (by omega) _)

section openings
variable {bSeed jobKey : Digest} {size d : Nat} (fits : size < 2 ^ 31)
  (leaves : chunkCount size = 2 ^ (d + 1))

include leaves in
theorem size_filled : (fillChunks (bseedMatrix bSeed size)).length = 2 ^ (d + 1) * 1024 := by
  rw [Blake3.length_fillChunks, length_bseedMatrix, leaves]

include fits in
theorem filled_fits : (fillChunks (bseedMatrix bSeed size)).length < 2 ^ 63 := by
  rw [Blake3.length_fillChunks, length_bseedMatrix, chunkCount]
  omega

include leaves in
theorem treeHash_filled : treeHash (.keyed jobKey) (fillChunks (bseedMatrix bSeed size)) =
    treeRoot (hostNodes jobKey).parentCv (hostNodes jobKey).rootCv
      ((hostNodes jobKey).leaf (fillChunks (bseedMatrix bSeed size))) (2 ^ (d + 1)) := by
  have large := Nat.one_lt_two_pow (n := d + 1) (by omega)
  rw [treeHash, if_neg (by rw [size_filled leaves]; omega), chunkCount_two_pow (size_filled leaves)]
  rfl

include leaves in
theorem openedRoot_of_bytes {idx : UInt32} (inside : idx.toNat < 2 ^ (d + 1))
    (bytes : (streamLeaf bSeed idx.toNat).bytes = chunkAt (fillChunks (bseedMatrix bSeed size)) idx.toNat) :
    openedRoot bSeed jobKey (fillChunks (bseedMatrix bSeed size)) (d + 1) idx.toNat =
      treeHash (.keyed jobKey) (fillChunks (bseedMatrix bSeed size)) := by
  rw [treeHash_filled leaves, openedRoot, bytes]
  exact pathRoot_siblingAt _ _ ((hostNodes jobKey).leaf _) inside

include fits leaves in
theorem bytes_of_openedRoot {indices : List UInt32} (free : RoundTripCollisionFree bSeed jobKey size (d + 1) indices)
    {idx : UInt32} (member : idx ∈ indices) (inside : idx.toNat < 2 ^ (d + 1))
    (top : openedRoot bSeed jobKey (fillChunks (bseedMatrix bSeed size)) (d + 1) idx.toNat =
      treeHash (.keyed jobKey) (fillChunks (bseedMatrix bSeed size))) :
    (streamLeaf bSeed idx.toNat).bytes = chunkAt (fillChunks (bseedMatrix bSeed size)) idx.toNat := by
  rw [treeHash_filled leaves] at top
  refine opening_sound (hostNodes_lawful jobKey) (size_filled leaves) (filled_fits fits) free
    (subset_append_left _ _) inside (length_tabulate _ _) ?_ top
  intro call opening
  exact mem_append_right _ (mem_flatMap.mpr ⟨idx, member, opening⟩)

end openings

/-- All opened leaves of the stream are those of the filled matrix when the last one is not opened or is not cut. -/
theorem opened_leaves_iff (bSeed : Digest) {size count : Nat} (leaves : chunkCount size = count)
    (positive : 0 < count) (few : count ≤ 2 ^ 31) {indices : List UInt32}
    (inRange : ∀ idx ∈ indices, idx.toNat < count) :
    (∀ idx ∈ indices, (streamLeaf bSeed idx.toNat).bytes =
        chunkAt (fillChunks (bseedMatrix bSeed size)) idx.toNat) ↔
      (count - 1).toUInt32 ∉ indices ∨ ∀ j, size ≤ j → j < count * 1024 → bseedStream bSeed j = 0 := by
  have last : ((count - 1).toUInt32).toNat = count - 1 := by
    rw [Nat.toUInt32, toNat_ofNat']
    exact Nat.mod_eq_of_lt (by omega)
  have leaf : ∀ idx ∈ indices, _ := fun idx member => streamLeaf_eq_iff bSeed (leaves ▸ inRange idx member)
  have bounds : size ≤ count * 1024 ∧ count * 1024 < size + 1024 := by
    rw [chunkCount] at leaves
    omega
  constructor
  · intro same
    by_cases opened : (count - 1).toUInt32 ∈ indices
    · have step : (count - 1) * 1024 + 1024 = count * 1024 := by
        rw [← Nat.succ_mul, Nat.succ_eq_add_one, Nat.sub_add_cancel positive]
      refine Or.inr fun j past below => (leaf _ opened).mp (same _ opened) j past ?_ ?_
      · rw [last]
        omega
      · rw [last, step]
        exact below
    · exact Or.inl opened
  · intro either idx member
    refine (leaf idx member).mpr fun j past low high => ?_
    have inside := inRange idx member
    rcases either with closed | zeros
    · -- any other leaf lies inside the matrix
      have other : idx.toNat ≠ count - 1 := by
        intro same
        rw [← last] at same
        exact closed (UInt32.toNat_inj.mp same ▸ member)
      omega
    · refine zeros j past (Nat.lt_of_lt_of_le high ?_)
      rw [← Nat.succ_mul]
      exact Nat.mul_le_mul_right 1024 inside

section run
variable {claimedHash bSeed jobKey : Digest} {auditK : UInt32} (cap : auditK.toNat ≤ auditKMax) {n k d : Nat}
  (fits : n * k < 2 ^ 31) (leaves : chunkCount (n * k) = 2 ^ (d + 1))

include fits leaves in
theorem levels_lt : d < 21 := by
  have small : 2 ^ (d + 1) ≤ 2 ^ 21 := by
    rw [← leaves, chunkCount]
    omega
  have := (Nat.pow_le_pow_iff_right (show 1 < 2 by decide)).mp small
  omega

include fits leaves in
theorem toNat_leaves : ((chunkCount (n * k)).toUInt64).toNat = 2 ^ (d + 1) := by
  have small := Nat.pow_lt_pow_right (show 1 < 2 by decide) (show d + 1 < 64 by have := levels_lt fits leaves; omega)
  rw [leaves, Nat.toUInt64, UInt64.toNat_ofNat']
  exact Nat.mod_eq_of_lt small

include leaves in
theorem matrix_nonempty : 0 < n * k := by
  have := Nat.two_pow_pos (d + 1)
  rw [chunkCount] at leaves
  omega

include fits leaves in
theorem expandRaw_matrix : expandRaw bSeed n k = .ok (bseedMatrix bSeed (n * k)) :=
  expandRaw_eq bSeed (Nat.pos_of_mul_pos_right (matrix_nonempty leaves))
    (Nat.pos_of_mul_pos_left (matrix_nonempty leaves)) fits

variable {indices : List UInt32}
  (derived : AuditIndexDeriver.derive claimedHash bSeed auditK (chunkCount (n * k)).toUInt64 = .ok indices)
include cap fits leaves derived

theorem derived_count : indices.length = auditK.toNat ∧ ∀ idx ∈ indices, idx.toNat < 2 ^ (d + 1) := by
  have power := toNat_leaves fits leaves
  have shape := derive_eq claimedHash bSeed cap power
  rw [derived, Except.ok.injEq] at shape
  rw [← power, shape]
  exact ⟨length_indices _ _ _, indices_lt (leaves_ne_zero power) auditK _⟩

theorem auditRoundTrip_eq_ok (room : n * k ≤ 2 ^ 31 - 1024) :
    auditRoundTrip claimedHash bSeed jobKey auditK n k = .ok (.ok, -1) ↔
      ∀ idx ∈ indices, openedRoot bSeed jobKey (fillChunks (bseedMatrix bSeed (n * k))) (d + 1) idx.toNat =
        treeHash (.keyed jobKey) (fillChunks (bseedMatrix bSeed (n * k))) := by
  obtain ⟨count, inRange⟩ := derived_count cap fits leaves derived
  have few := levels_lt fits leaves
  have length := length_bseedMatrix bSeed (n * k)
  have some := matrix_nonempty leaves
  unfold auditRoundTrip
  rw [expandRaw_matrix fits leaves, ok_bind]
  simp only [length]
  rw [derived, ok_bind, AuditProofBuilder.build_eq jobKey (by rwa [length]) (by rwa [length]) (by rwa [count]) inRange,
    ok_bind, merkleRoot_of_fits jobKey (by rwa [← length_pos_iff, length]) (by rwa [length]), ok_bind,
    AuditProofVerifier.verify_eq_ok cap (by omega) (toNat_leaves fits leaves) derived count]

omit cap in
theorem auditRoundTrip_overflow (large : 2 ^ 31 - 1024 < n * k) :
    auditRoundTrip claimedHash bSeed jobKey auditK n k ≠ .ok (.ok, -1) := by
  have length := length_bseedMatrix bSeed (n * k)
  unfold auditRoundTrip
  rw [expandRaw_matrix fits leaves, ok_bind]
  simp only [length]
  rw [derived, ok_bind]
  intro accepted
  obtain ⟨siblings, -, accepted⟩ := bind_eq_ok.mp accepted
  rw [merkleRoot_of_overflow jobKey (by rwa [length]) (by rwa [length])] at accepted
  cases accepted

end run

/-- The host can fill the matrix up, and the last leaf is not opened or the stream is zero from the end of the
matrix to the end of that leaf. -/
def Opens (bSeed : Digest) (size count : Nat) (indices : List UInt32) : Prop :=
  size ≤ 2 ^ 31 - 1024 ∧
    ((count - 1).toUInt32 ∉ indices ∨ ∀ j, size ≤ j → j < count * 1024 → bseedStream bSeed j = 0)

theorem audit_round_trip_iff (claimedHash bSeed jobKey : Digest) (auditK : UInt32) (cap : auditK.toNat ≤ auditKMax)
    (n k : Nat) (fits : n * k < 2 ^ 31) (d : Nat) (leaves : chunkCount (n * k) = 2 ^ (d + 1))
    (indices : List UInt32)
    (derived : AuditIndexDeriver.derive claimedHash bSeed auditK (chunkCount (n * k)).toUInt64 = .ok indices) :
    (Opens bSeed (n * k) (2 ^ (d + 1)) indices →
      auditRoundTrip claimedHash bSeed jobKey auditK n k = .ok (.ok, -1)) ∧
    (RoundTripCollisionFree bSeed jobKey (n * k) (d + 1) indices →
      (auditRoundTrip claimedHash bSeed jobKey auditK n k = .ok (.ok, -1) ↔
        Opens bSeed (n * k) (2 ^ (d + 1)) indices)) := by
  obtain ⟨-, inRange⟩ := derived_count cap fits leaves derived
  have few : 2 ^ (d + 1) ≤ 2 ^ 31 := Nat.pow_le_pow_right (by decide) (by have := levels_lt fits leaves; omega)
  have opened := opened_leaves_iff bSeed leaves (Nat.two_pow_pos _) few inRange
  have accepts : Opens bSeed (n * k) (2 ^ (d + 1)) indices →
      auditRoundTrip claimedHash bSeed jobKey auditK n k = .ok (.ok, -1) := by
    rintro ⟨room, last⟩
    refine (auditRoundTrip_eq_ok cap fits leaves derived room).mpr fun idx member => ?_
    exact openedRoot_of_bytes leaves (inRange idx member) (opened.mpr last idx member)
  refine ⟨accepts, fun free => ⟨fun accepted => ?_, accepts⟩⟩
  have room : n * k ≤ 2 ^ 31 - 1024 := by
    by_contra large
    exact auditRoundTrip_overflow fits leaves derived (Nat.not_le.mp large) accepted
  refine ⟨room, opened.mp fun idx member => bytes_of_openedRoot fits leaves free member (inRange idx member) ?_⟩
  exact (auditRoundTrip_eq_ok cap fits leaves derived room).mp accepted idx member

theorem streamLeaf_blocks (bSeed : Digest) (i : Nat) :
    (streamLeaf bSeed i).bytes = ((range' (i * 16) 16).flatMap fun c =>
      (Blake3.xofWords .unkeyed bSeed.toList c.toUInt64).bytes).map mapXofByteToInt7 := by
  rw [← Blake3.tabulate_xofByte, bytes_streamLeaf, tabulate, tabulate, map_map]
  refine map_congr_left fun j _ => ?_
  rw [bseedStream, Function.comp_apply, Nat.mul_assoc]

theorem chunkAt_filled (bSeed : Digest) {size i : Nat} (whole : (i + 1) * 1024 ≤ size) :
    chunkAt (fillChunks (bseedMatrix bSeed size)) i = (streamLeaf bSeed i).bytes := by
  have inside : i < chunkCount size := by
    rw [chunkCount]
    omega
  exact ((streamLeaf_eq_iff bSeed inside).mpr (by omega)).symm

theorem calls_two {hasher : NodeHasher Digest} (lawful : hasher.Lawful) (key : Digest) {data : List UInt8}
    (size : data.length = 2 ^ 1 * 1024) : MerkleTree.calls hasher key data =
      [.root (hasher.leaf data 0) (hasher.leaf data 1), .chunk (Nat.toUInt64 0) (chunkAt data 0),
        .chunk (Nat.toUInt64 1) (chunkAt data 1)] := by
  rw [MerkleTree.calls, MerkleTree.root_build (traced_lawful lawful) key (by omega) (by omega), chunkCount_two_pow size,
    Nat.pow_one, treeRoot_two]
  rfl

theorem openedRoot_second (bSeed jobKey : Digest) (data : List UInt8) :
    openedRoot bSeed jobKey data 1 1 = (hostNodes jobKey).rootCv ((hostNodes jobKey).leaf data 0)
      ((hostNodes jobKey).chunkCv (streamLeaf bSeed 1).bytes 1) := rfl

section zeros
open Blake3 (zeroKey)

set_option maxRecDepth 10000

theorem zeroStream_first : (hostNodes zeroKey).chunkCv (streamLeaf zeroKey 0).bytes (Nat.toUInt64 0) =
    #v[238, 210, 57, 30, 229, 93, 153, 37, 83, 198, 91, 86, 235, 217, 62, 150, 95, 202, 60, 128, 55, 158, 233, 16, 108,
      239, 251, 90, 124, 9, 175, 218] := by
  rw [streamLeaf_blocks]
  decide +kernel

theorem zeroStream_second : (hostNodes zeroKey).chunkCv (streamLeaf zeroKey 1).bytes (Nat.toUInt64 1) =
    #v[194, 215, 217, 180, 150, 5, 142, 214, 202, 66, 117, 163, 154, 246, 209, 53, 186, 13, 88, 17, 81, 229, 14, 141, 233,
      42, 92, 27, 79, 131, 18, 88] := by
  rw [streamLeaf_blocks]
  decide +kernel

theorem zeroStream_cut : (hostNodes zeroKey).leaf (fillChunks (bseedMatrix zeroKey (1 * 1025))) 1 =
    #v[125, 220, 117, 43, 77, 79, 100, 158, 244, 57, 135, 141, 70, 65, 154, 199, 82, 165, 41, 119, 198, 229, 31, 123, 67,
      215, 70, 33, 251, 97, 239, 124] := by
  rw [NodeHasher.leaf, ← padToChunkBoundary_eq, ← seedLeaf_eq_chunkAt zeroKey (by decide)]
  decide +kernel

theorem zero_derived : AuditIndexDeriver.derive zeroKey zeroKey 1 2 = .ok [1] := by
  rw [derive_eq zeroKey zeroKey (e := 1) (by decide) rfl]
  decide +kernel

/-- A matrix of 1025 bytes: leaf 1 is opened, and its stream does not lead to the root. -/
theorem audit_round_trip_cut : chunkCount (1 * 1025) = 2 ∧
    AuditIndexDeriver.derive zeroKey zeroKey 1 2 = .ok [1] ∧
    auditRoundTrip zeroKey zeroKey zeroKey 1 1 1025 ≠ .ok (.ok, -1) := by
  have two : chunkCount (1 * 1025) = 2 ^ (0 + 1) := by decide
  refine ⟨two, zero_derived, fun accepted => ?_⟩
  have every := (auditRoundTrip_eq_ok (by decide) (by decide) two zero_derived (by decide)).mp accepted
  have opened := every 1 (mem_singleton.mpr rfl)
  rw [treeHash_filled two, show toNat 1 = 1 from rfl, openedRoot_second, Nat.pow_one, treeRoot_two,
    zeroStream_cut, NodeHasher.leaf, chunkAt_filled zeroKey (by decide), zeroStream_first] at opened
  refine absurd (opened.symm.trans (congrArg _ zeroStream_second)) ?_
  decide +kernel

theorem whole_free : RoundTripCollisionFree zeroKey zeroKey (1 * 2048) 1 [1] := by
  let calls : List HashCall :=
    [.root ((hostNodes zeroKey).chunkCv (streamLeaf zeroKey 0).bytes (Nat.toUInt64 0))
        ((hostNodes zeroKey).chunkCv (streamLeaf zeroKey 1).bytes (Nat.toUInt64 1)),
      .chunk (Nat.toUInt64 0) (streamLeaf zeroKey 0).bytes, .chunk (Nat.toUInt64 1) (streamLeaf zeroKey 1).bytes]
  have distinct : (calls.map (hostNodes zeroKey).answer).Nodup := by
    simp only [calls, map_cons, map_nil, NodeHasher.answer, zeroStream_first, zeroStream_second]
    decide +kernel
  have free : CollisionFree (hostNodes zeroKey) calls := fun a ha b hb => inj_on_of_nodup_map distinct ha hb
  refine free.mono ?_
  have opening : openingCalls (hostNodes zeroKey) 1 (streamLeaf zeroKey 1)
      (tabulate (siblingAt (hostNodes zeroKey).parentCv
        ((hostNodes zeroKey).leaf (fillChunks (bseedMatrix zeroKey (1 * 2048)))) 1) 1) =
      [.root ((hostNodes zeroKey).leaf (fillChunks (bseedMatrix zeroKey (1 * 2048))) 0)
        ((hostNodes zeroKey).chunkCv (streamLeaf zeroKey 1).bytes (Nat.toUInt64 1)),
        .chunk (Nat.toUInt64 1) (streamLeaf zeroKey 1).bytes] := rfl
  rw [calls_two (hostNodes_lawful zeroKey) zeroKey (size_filled (by decide)), flatMap_singleton,
    show toNat 1 = 1 from rfl, opening]
  simp only [NodeHasher.leaf]
  rw [chunkAt_filled zeroKey (by decide), chunkAt_filled zeroKey (by decide)]
  simp [calls]

/-- A matrix of two whole leaves: leaf 1 is opened and accepted. -/
theorem audit_round_trip_whole : auditRoundTrip zeroKey zeroKey zeroKey 1 1 2048 = .ok (.ok, -1) :=
  ((audit_round_trip_iff zeroKey zeroKey zeroKey 1 (by decide) 1 2048 (by decide) 0 (by decide) [1]
    zero_derived).2 whole_free).mpr ⟨by decide, Or.inr fun j past below => by omega⟩

end zeros
end ArcMiner.AkoyaCrypto
