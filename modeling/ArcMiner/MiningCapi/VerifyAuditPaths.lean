import ArcMiner.MiningCapi.LeafCvs
import ArcMiner.PearlBlake3.AuditPaths
import ArcMiner.PearlBlake3.Soundness

/-! `pearl_capi_merkle_verify_audit_paths`.

The buffers hold at least as many elements as announced; a read outside of them
is a panic here.
-/

namespace ArcMiner.MiningCapi

open Library Library.Rust PearlBlake3 List MerkleTree Blake3
open Blake3Hasher (withKey)

section climb
variable {δ : Type}

def climbStep (hasher : NodeHasher δ) (levels : Nat) (siblings : List δ) (blockBase : Nat) (state : Nat × δ)
    (level : Nat) : Result (Nat × δ) := do
  let sibling ← index siblings (blockBase + level)
  let (left, right) := if state.1 % 2 = 0 then (state.2, sibling) else (sibling, state.2)
  return (state.1 / 2, if level = levels - 1 then hasher.rootCv left right else hasher.parentCv left right)

def auditLeaf (hasher : NodeHasher δ) (totalLeaves leafIdx : Nat) (leaf : Chunk) : δ :=
  if totalLeaves = 1 then hasher.hash leaf.bytes else hasher.chunkCv leaf.bytes leafIdx.toUInt64

def auditBlock (siblings : List δ) (levels i : Nat) : List δ := (siblings.drop (i * levels)).take levels

end climb

def auditRangeMessage (leafIdx totalLeaves : Nat) : String :=
  s!"leaf index {leafIdx} out of bounds for total_leaves={totalLeaves}"

def auditMismatchMessage (i leafIdx : Nat) (expected computed : Digest) : String :=
  let expectedHex := hexDigest expected
  let actualHex := hexDigest computed
  s!"audit path root mismatch at opening {i} leaf {leafIdx}: expected={expectedHex}, computed={actualHex}"

def siblingCountMessage (expected actual : Nat) : String :=
  s!"wrong sibling count: expected={expected}, actual={actual}"

def verifyOpening (hasher : NodeHasher Digest) (expectedRoot : Digest) (totalLeaves levels : Nat)
    (leafData : List Chunk) (leafIndices : List UInt32) (siblings : List Digest) (i : Nat) : Result Unit := do
  let leafIdx := (← index leafIndices i).toNat
  reject (decide (totalLeaves ≤ leafIdx)) (auditRangeMessage leafIdx totalLeaves)
  let leaf ← index leafData i
  let (_, node) ← (range levels).foldlM (climbStep hasher levels siblings (i * levels))
    (leafIdx, auditLeaf hasher totalLeaves leafIdx leaf)
  reject (node != expectedRoot) (auditMismatchMessage i leafIdx expectedRoot node)

def verifyAuditPaths (crate : Blake3Crate) (leafData : Option (List Chunk)) (leafIndices : Option (List UInt32))
    (leafCount totalLeaves : Nat) (siblings : Option (List Digest)) (siblingCount : Nat)
    (key expectedRoot : Option Digest) : Result Unit := do
  let key ← require key "key/root pointers must be non-null"
  let expectedRoot ← require expectedRoot "key/root pointers must be non-null"
  reject (leafCount == 0) "leaf_count must be > 0"
  let leafData ← require leafData "leaf_data/indices pointers must be non-null"
  let leafIndices ← require leafIndices "leaf_data/indices pointers must be non-null"
  reject (decide (0 < siblingCount) && siblings.isNone) "siblings_ptr null with non-zero sibling_count"
  reject (totalLeaves == 0) "total_leaves must be > 0"
  reject (!isPowerOfTwo totalLeaves) s!"total_leaves ({totalLeaves}) must be a power of two"
  let levels := auditLevels totalLeaves
  let expectedSiblings ← require (checkedMul leafCount levels) "leaf_count * levels overflows"
  reject (siblingCount != expectedSiblings) (siblingCountMessage expectedSiblings siblingCount)
  (range leafCount).forM
    (verifyOpening ((withKey key).nodes crate) expectedRoot totalLeaves levels leafData leafIndices
      (siblings.getD []))

def merkleVerifyAuditPaths (crate : Blake3Crate) (leafData : Option (List Chunk)) (leafIndices : Option (List UInt32))
    (leafCount totalLeaves : Nat) (siblings : Option (List Digest)) (siblingCount : Nat)
    (key expectedRoot : Option Digest) : CResult Unit :=
  catchUnwind "panic during merkle_verify_audit_paths"
    (verifyAuditPaths crate leafData leafIndices leafCount totalLeaves siblings siblingCount key expectedRoot)

section climb
variable {δ : Type} (hasher : NodeHasher δ)

theorem climbStep_eq {levels blockBase level : Nat} {siblings : List δ} {sibling : δ}
    (found : siblings[blockBase + level]? = some sibling) (i : Nat) (cv : δ) :
    climbStep hasher levels siblings blockBase (i, cv) level =
      .ok (i / 2, joinAt (if level = levels - 1 then hasher.rootCv else hasher.parentCv) i cv sibling) := by
  unfold climbStep joinAt
  rw [index_eq_ok found, ok_bind]
  by_cases even : i % 2 = 0 <;> by_cases last : level = levels - 1 <;> simp [even, last, pure, Except.pure]

theorem auditLeaf_single (i : Nat) (leaf : Chunk) : auditLeaf hasher (2 ^ 0) i leaf = hasher.hash leaf.bytes :=
  if_pos (Nat.pow_zero 2)

theorem auditLeaf_several (d i : Nat) (leaf : Chunk) :
    auditLeaf hasher (2 ^ (d + 1)) i leaf = hasher.chunkCv leaf.bytes i.toUInt64 :=
  if_neg (Nat.one_lt_two_pow (Nat.succ_ne_zero d)).ne'

theorem climbSteps_eq {levels blockBase : Nat} {siblings : List δ} (enough : blockBase + levels ≤ siblings.length)
    {count start : Nat} (total : start + count = levels) (i : Nat) (cv : δ) :
    (range' start count).foldlM (climbStep hasher levels siblings blockBase) (i, cv) =
      .ok (i / 2 ^ count, pathRoot hasher.parentCv hasher.rootCv i cv
        ((siblings.drop (blockBase + start)).take count)) := by
  induction count generalizing start i cv with
  | zero => simp [pathRoot, pure, Except.pure]
  | succ count ih =>
    have inside : blockBase + start < siblings.length := by omega
    have found := getElem?_eq_getElem inside
    rw [range'_succ, foldlM_cons, climbStep_eq hasher found, ok_bind, ih (by omega),
      drop_eq_getElem_cons inside, take_succ_cons, Nat.div_div_eq_div_mul, ← Nat.pow_succ']
    congr 2
    cases count with
    | zero =>
      rw [if_pos (by omega)]
      rfl
    | succ count =>
      have more : (siblings.drop (blockBase + start + 1)).take (count + 1) ≠ [] := by
        rw [← length_pos_iff, length_take, length_drop]
        omega
      rw [if_neg (by omega), pathRoot_cons _ _ _ _ _ more, Nat.add_assoc]

theorem climb_eq {levels i : Nat} {siblings : List δ} (enough : i * levels + levels ≤ siblings.length)
    (leafIdx : Nat) (cv : δ) :
    (range levels).foldlM (climbStep hasher levels siblings (i * levels)) (leafIdx, cv) =
      .ok (leafIdx / 2 ^ levels, pathRoot hasher.parentCv hasher.rootCv leafIdx cv (auditBlock siblings levels i)) := by
  rw [range_eq_range']
  exact climbSteps_eq hasher enough (by omega) leafIdx cv

theorem climb_reads {levels blockBase : Nat} {siblings : List δ} {state result : Nat × δ}
    (climbed : (range levels).foldlM (climbStep hasher levels siblings blockBase) state = .ok result) :
    levels = 0 ∨ blockBase + levels ≤ siblings.length := by
  cases levels with
  | zero => exact Or.inl rfl
  | succ l =>
    rw [range_succ, foldlM_append] at climbed
    obtain ⟨before, -, last⟩ := bind_eq_ok.mp climbed
    simp only [foldlM_cons, foldlM_nil, climbStep, bind_eq_ok] at last
    obtain ⟨_, ⟨sibling, found, -⟩, -⟩ := last
    refine Or.inr ?_
    unfold index at found
    split at found
    next here => exact (List.getElem?_eq_some_iff.mp here).1
    next => cases found

end climb

theorem index_ok_iff {α : Type} {xs : List α} {i : Nat} {x : α} : index xs i = .ok x ↔ xs[i]? = some x := by
  unfold index
  cases xs[i]? <;> simp

theorem verifyOpening_eq_ok {hasher : NodeHasher Digest} {expectedRoot : Digest} {totalLeaves levels : Nat}
    {leafData : List Chunk} {leafIndices : List UInt32} {siblings : List Digest} {i : Nat} {result : Unit} :
    verifyOpening hasher expectedRoot totalLeaves levels leafData leafIndices siblings i = .ok result ↔
      ∃ leafIdx leaf, leafIndices[i]? = some leafIdx ∧ leafIdx.toNat < totalLeaves ∧ leafData[i]? = some leaf ∧
        i * levels + levels ≤ siblings.length ∧
        pathRoot hasher.parentCv hasher.rootCv leafIdx.toNat (auditLeaf hasher totalLeaves leafIdx.toNat leaf)
          (auditBlock siblings levels i) = expectedRoot := by
  unfold verifyOpening
  simp only [bind_eq_ok, index_ok_iff, reject_eq_ok, decide_eq_false_iff_not, Nat.not_le, exists_and_left, exists_const]
  constructor
  · rintro ⟨leafIdx, known, bound, leaf, chunk, ⟨_, node⟩, climbed, same⟩
    have enough : i * levels + levels ≤ siblings.length := by
      rcases climb_reads hasher climbed with rfl | enough
      · simp
      · exact enough
    rw [climb_eq hasher enough, Except.ok.injEq, Prod.mk.injEq] at climbed
    refine ⟨leafIdx, known, bound, leaf, chunk, enough, ?_⟩
    rw [climbed.2]
    simpa using same
  · rintro ⟨leafIdx, known, bound, leaf, chunk, enough, same⟩
    exact ⟨leafIdx, known, bound, leaf, chunk, _, climb_eq hasher enough _ _, by simpa using same⟩

theorem checkedMul_eq_some {a b product : Nat} :
    checkedMul a b = some product ↔ product = a * b ∧ a * b < 2 ^ 64 := by
  unfold checkedMul
  by_cases fits : a * b < 2 ^ 64
  · rw [if_pos fits, Option.some.injEq]
    exact ⟨fun same => ⟨same.symm, fits⟩, fun both => both.1.symm⟩
  · rw [if_neg fits]
    exact ⟨fun none => (Option.some_ne_none _ none.symm).elim, fun both => absurd both.2 fits⟩

theorem verifyAuditPaths_eq_ok {crate : Blake3Crate} {leafData : List Chunk} {leafIndices : List UInt32}
    {leafCount e : Nat} (few : e < 64) {siblings : Option (List Digest)} {siblingCount : Nat} {key root : Digest}
    {result : Unit} :
    verifyAuditPaths crate (some leafData) (some leafIndices) leafCount (2 ^ e) siblings siblingCount (some key)
        (some root) = .ok result ↔
      leafCount ≠ 0 ∧ (0 < siblingCount → siblings ≠ none) ∧ siblingCount = leafCount * e ∧
      leafCount * e < 2 ^ 64 ∧ ∀ i < leafCount, verifyOpening ((withKey key).nodes crate) root (2 ^ e) e
        leafData leafIndices (siblings.getD []) i = .ok () := by
  have power := isPowerOfTwo_iff.mpr ⟨e, rfl⟩
  rw [← and_assoc (a := siblingCount = _), ← checkedMul_eq_some]
  simp only [verifyAuditPaths, power, Bool.not_true, auditLevels_two_pow few, bind_eq_ok, require_eq_ok,
    Option.some.injEq, reject_eq_ok, beq_eq_false_iff_ne, ne_eq, Bool.and_eq_false_imp, decide_eq_true_eq,
    Option.isNone_eq_false_iff, Option.isSome_iff_ne_none, Nat.pow_eq_zero, OfNat.ofNat_ne_zero, false_and,
    not_false_eq_true, bne_eq_false_iff_eq, exists_const, ↓existsAndEq, true_and, exists_eq_left', and_congr_right_iff]
  exact fun _ _ _ => forM_eq_ok.trans (by simp only [mem_range])

section
variable {crate : Blake3Crate} (conforms : crate.Conforms) (key : Digest) {data : List UInt8} {e : Nat}
  (size : data.length = 2 ^ e * 1024) (fits : data.length < 2 ^ 63)

include size in
theorem chunkCount_two_pow : chunkCount data.length = 2 ^ e := by
  rw [size, chunkCount]
  omega

include size fits in
theorem levels_fit : e < 64 := by
  have small : 2 ^ e < 2 ^ 64 := by omega
  exact (Nat.pow_lt_pow_iff_right (by decide)).mp small

include conforms size in
theorem layers_new {d : Nat} (several : e = d + 1) :
    HoldsLevels ((withKey key).nodes crate).parentCv d (((withKey key).nodes crate).leaf data)
      (new crate ⟨data, fits⟩ key).layers := by
  subst several
  have large := Nat.one_lt_two_pow (n := d + 1) (by omega)
  have made := layers_build (nodes_lawful conforms key) key fits (by omega)
  rw [chunkCount_two_pow size, levels_eq_append _ _ _ large] at made
  rw [new, made]
  exact holdsLevels_lowerLevels _ d _ _

def auditPathsOf (hasher : NodeHasher Digest) (data : List UInt8) (levels : Nat) (indices : List Nat) : List Digest :=
  indices.flatMap fun i => tabulate (siblingAt hasher.parentCv (hasher.leaf data) i) levels

include conforms size in
theorem getAuditPaths_new {indices : List Nat} (inRange : ∀ i ∈ indices, i < 2 ^ e)
    (room : indices.length * e * 32 < 2 ^ 63) :
    (new crate ⟨data, fits⟩ key).getAuditPaths indices =
      .ok (auditPathsOf ((withKey key).nodes crate) data e indices) := by
  have few := levels_fit size fits
  obtain rfl | ⟨d, several⟩ : e = 0 ∨ ∃ d, e = d + 1 := by cases e <;> simp
  · have zeros : ∀ i ∈ indices, ¬ 1 ≤ i := fun i member => by have := inRange i member; omega
    have nothing : auditPathsOf ((withKey key).nodes crate) data 0 indices = [] := by
      rw [auditPathsOf, flatMap_eq_nil_iff]
      exact fun i _ => rfl
    rw [new_single key (by simpa using size) fits rfl, nothing]
    cases indices with
    | nil => rfl
    | cons first rest =>
      have bounds : (first :: rest).find? (fun i => decide (max 1 1 ≤ i)) = none :=
        find?_eq_none.mpr fun i member => by simpa using zeros i member
      unfold getAuditPaths
      rw [show numLeaves _ = .ok 1 from rfl, ok_bind, bounds]
      rfl
  · subst several
    exact getAuditPaths_eq (layers_new conforms key size fits rfl) few rfl inRange room

include conforms size fits in
theorem pathRoot_opened {i : Nat} (bound : i < 2 ^ e) {leaf : Chunk} (bytes : leaf.bytes = chunkAt data i) :
    let hasher := (withKey key).nodes crate
    pathRoot hasher.parentCv hasher.rootCv i (auditLeaf hasher (2 ^ e) i leaf)
      (tabulate (siblingAt hasher.parentCv (hasher.leaf data) i) e) = hasher.hash data := by
  intro hasher
  obtain rfl | ⟨d, rfl⟩ : e = 0 ∨ ∃ d, e = d + 1 := by cases e <;> simp
  · obtain rfl : i = 0 := by omega
    have whole : leaf.bytes = data := by
      rw [bytes, chunkAt, Nat.mul_zero, drop_zero, take_of_length_le (by omega)]
    rw [auditLeaf_single, whole]
    rfl
  · have leafCv : auditLeaf hasher (2 ^ (d + 1)) i leaf = hasher.leaf data i := by
      rw [auditLeaf_several, bytes]
      rfl
    rw [leafCv, pathRoot_siblingAt _ _ _ bound]
    exact hash_nodes conforms key size fits (Nat.one_lt_two_pow (Nat.succ_ne_zero d))

theorem length_auditPathsOf (hasher : NodeHasher Digest) (data : List UInt8) (levels : Nat) (indices : List Nat) :
    (auditPathsOf hasher data levels indices).length = indices.length * levels :=
  length_flatMap_of_size fun _ _ => length_tabulate _ levels

theorem auditBlock_paths (hasher : NodeHasher Digest) (data : List UInt8) (levels : Nat) {indices : List Nat}
    {i leafIdx : Nat} (entry : indices[i]? = some leafIdx) :
    auditBlock (auditPathsOf hasher data levels indices) levels i =
      tabulate (siblingAt hasher.parentCv (hasher.leaf data) leafIdx) levels := by
  rw [auditBlock, Nat.mul_comm]
  exact drop_take_flatMap (fun _ _ => length_tabulate _ levels) entry

include conforms size in
theorem verifyAuditPaths_opened {indices : List UInt32} (nonempty : indices ≠ [])
    (inRange : ∀ i ∈ indices, i.toNat < 2 ^ e) (room : indices.length * e * 32 < 2 ^ 63) {siblings : List Digest}
    (paths : siblings = auditPathsOf ((withKey key).nodes crate) data e (indices.map UInt32.toNat)) :
    verifyAuditPaths crate
      (some (indices.map fun i => (new crate ⟨data, fits⟩ key).leafChunk i.toNat)) (some indices)
      indices.length (2 ^ e) (if siblings.isEmpty then none else some siblings) siblings.length (some key)
      (some ((withKey key).hash crate data)) = .ok () := by
  have count : siblings.length = indices.length * e := by rw [paths, length_auditPathsOf, length_map]
  have given : (if siblings.isEmpty then none else some siblings).getD [] = siblings := by
    cases siblings <;> rfl
  refine (verifyAuditPaths_eq_ok (levels_fit size fits)).mpr
    ⟨by simpa using nonempty, ?_, count, by omega, fun i bound => ?_⟩
  · cases siblings <;> simp
  · have known := getElem?_eq_getElem bound
    have below := inRange indices[i] (getElem_mem bound)
    have aligned : 1024 ∣ data.length := ⟨2 ^ e, by omega⟩
    have bytes := leafChunk_build ((withKey key).nodes crate) key aligned (i := indices[i].toNat)
      (by rwa [chunkCount_two_pow size])
    have entry : (indices.map UInt32.toNat)[i]? = some indices[i].toNat := by simp [known]
    have block := auditBlock_paths ((withKey key).nodes crate) data e entry
    rw [given]
    have chunk : (indices.map fun i => (new crate ⟨data, fits⟩ key).leafChunk i.toNat)[i]? =
        some ((new crate ⟨data, fits⟩ key).leafChunk indices[i].toNat) := by
      rw [getElem?_map, known]
      rfl
    refine verifyOpening_eq_ok.mpr ⟨indices[i], _, known, below, chunk, ?_, ?_⟩
    · rw [count, ← Nat.succ_mul]
      exact Nat.mul_le_mul_right e bound
    · rw [paths, block]
      exact pathRoot_opened conforms key size fits below bytes

def openingCalls (hasher : NodeHasher Digest) (leafIdx : Nat) (leaf : Chunk) (block : List Digest) : List HashCall :=
  (pathRoot hasher.traced.parentCv hasher.traced.rootCv leafIdx (hasher.traced.chunkCv leaf.bytes leafIdx.toUInt64)
    (block.map fun digest => ⟨digest, []⟩)).calls

/-- Different inputs, of the tree and of the openings, have different digests: for one leaf the keyed hash is used, for
several the chaining values are. -/
def AuditCollisionFree (hasher : NodeHasher Digest) (key : Digest) (data : List UInt8) (levels : Nat)
    (leafData : List Chunk) (leafIndices : List UInt32) (siblings : List Digest) : Prop :=
  if levels = 0 then Set.InjOn hasher.hash { bytes | bytes = data ∨ ∃ leaf ∈ leafData, bytes = leaf.bytes }
  else CollisionFree hasher (calls hasher key data ++
    (leafIndices.zip leafData).zipIdx.flatMap fun (opening, i) =>
      openingCalls hasher opening.1.toNat opening.2 (auditBlock siblings levels i))

/-- A path that leads to the root of the tree starts from the chunk at its index. -/
theorem opening_sound {hasher : NodeHasher Digest} (lawful : hasher.Lawful) {key : Digest} {data : List UInt8} {d : Nat}
    (size : data.length = 2 ^ (d + 1) * 1024) (fits : data.length < 2 ^ 63) {calls : List HashCall}
    (free : CollisionFree hasher calls) (tree : MerkleTree.calls hasher key data ⊆ calls) {i : Nat}
    (bound : i < 2 ^ (d + 1)) {leaf : Chunk} {block : List Digest} (full : block.length = d + 1)
    (opening : openingCalls hasher i leaf block ⊆ calls)
    (top : pathRoot hasher.parentCv hasher.rootCv i (hasher.chunkCv leaf.bytes i.toUInt64) block =
      treeRoot hasher.parentCv hasher.rootCv (hasher.leaf data) (2 ^ (d + 1))) :
    leaf.bytes = chunkAt data i := by
  have large := Nat.one_lt_two_pow (n := d + 1) (by omega)
  have tracedRoot := root_build (traced_lawful lawful) key fits (by omega)
  rw [chunkCount_two_pow size] at tracedRoot
  have hom := traced_hom hasher
  have agree : Agree calls
      (pathRoot hasher.traced.parentCv hasher.traced.rootCv i (hasher.traced.chunkCv leaf.bytes i.toUInt64)
        (block.map fun digest => ⟨digest, []⟩))
      (treeRoot hasher.traced.parentCv hasher.traced.rootCv (hasher.traced.leaf data) (2 ^ (d + 1))) := by
    refine ⟨?_, opening, ?_⟩
    · rw [pathRoot_map Traced.digest hom.parentCv hom.rootCv, treeRoot_map Traced.digest hom.parentCv hom.rootCv,
        map_map]
      exact (congrArg _ (map_id _)).trans top
    · intro call member
      apply tree
      rw [MerkleTree.calls, tracedRoot]
      exact member
  have leaves := pathRoot_descends (R := Agree calls) (fun _ _ _ _ parent => parent.operands free HashCall.parent.inj)
    (fun _ _ _ _ root => root.operands free HashCall.root.inj) (hasher.traced.leaf data) bound (by simpa using full) agree
  exact leaves.chunk free

theorem length_auditBlock {siblings : List Digest} {levels i : Nat} (enough : i * levels + levels ≤ siblings.length) :
    (auditBlock siblings levels i).length = levels := by
  rw [auditBlock, length_take, length_drop]
  omega

include conforms size fits in
theorem verifyOpening_sound {leafData : List Chunk} {leafIndices : List UInt32} {siblings : List Digest}
    (free : AuditCollisionFree ((withKey key).nodes crate) key data e leafData leafIndices siblings)
    {i : Nat} (accepted : verifyOpening ((withKey key).nodes crate)
      ((withKey key).hash crate data) (2 ^ e) e leafData leafIndices siblings i = .ok ()) :
    ∃ leafIdx leaf, leafIndices[i]? = some leafIdx ∧ leafData[i]? = some leaf ∧ leafIdx.toNat < 2 ^ e ∧
      leaf.bytes = chunkAt data leafIdx.toNat := by
  obtain ⟨leafIdx, leaf, known, bound, chunk, enough, top⟩ := verifyOpening_eq_ok.mp accepted
  refine ⟨leafIdx, leaf, known, chunk, bound, ?_⟩
  obtain rfl | ⟨d, rfl⟩ : e = 0 ∨ ∃ d, e = d + 1 := by cases e <;> simp
  · rw [AuditCollisionFree, if_pos rfl] at free
    have first : leafIdx.toNat = 0 := by omega
    have hashed : ((withKey key).nodes crate).hash leaf.bytes =
        ((withKey key).nodes crate).hash data := by
      have block : auditBlock siblings 0 i = [] := by rw [auditBlock, take_zero]
      rw [block, pathRoot, auditLeaf_single] at top
      exact top
    have same := free (Or.inr ⟨leaf, mem_of_getElem? chunk, rfl⟩) (Or.inl rfl) hashed
    rw [same, first, chunkAt, Nat.mul_zero, drop_zero, take_of_length_le (by omega)]
  · have several := Nat.one_lt_two_pow (n := d + 1) (by omega)
    rw [AuditCollisionFree, if_neg (by omega)] at free
    rw [auditLeaf_several] at top
    refine opening_sound (nodes_lawful conforms key) size fits free (subset_append_left _ _) bound
      (length_auditBlock enough) ?_ (top.trans (hash_nodes conforms key size fits several).symm)
    intro call member
    refine mem_append_right _ (mem_flatMap.mpr ⟨((leafIdx, leaf), i), ?_, member⟩)
    rw [mk_mem_zipIdx_iff_getElem?, getElem?_zip_eq_some]
    exact ⟨known, chunk⟩

end

/-- The audit paths of any leaves of a tree with a power-of-two number of leaves are accepted against its root, and
what is accepted against that root and leaf count holds the chunks of the data at the given indices. -/
theorem audit_paths_round_trip {crate : Blake3Crate} (conforms : crate.Conforms) (key : Digest) (data : List UInt8)
    (e : Nat) (size : data.length = 2 ^ e * 1024) (fits : data.length < 2 ^ 63) :
    ∃ root, (new crate ⟨data, fits⟩ key).root = .ok root ∧
      (∀ indices : List UInt32, indices ≠ [] → (∀ i ∈ indices, i.toNat < 2 ^ e) →
        indices.length * e * 32 < 2 ^ 63 →
        ∃ siblings, (new crate ⟨data, fits⟩ key).getAuditPaths (indices.map UInt32.toNat) = .ok siblings ∧
          merkleVerifyAuditPaths crate
            (some (indices.map fun i => (new crate ⟨data, fits⟩ key).leafChunk i.toNat)) (some indices)
            indices.length (2 ^ e) (if siblings.isEmpty then none else some siblings) siblings.length (some key)
            (some root) = ⟨ok, none, some ()⟩) ∧
      ∀ (leafData : List Chunk) (leafIndices : List UInt32) (leafCount : Nat) (siblings : Option (List Digest))
        (siblingCount : Nat),
        AuditCollisionFree ((withKey key).nodes crate) key data e leafData leafIndices
          (siblings.getD []) →
        (merkleVerifyAuditPaths crate (some leafData) (some leafIndices) leafCount (2 ^ e) siblings siblingCount
          (some key) (some root)).code = ok →
        ∀ i < leafCount, ∃ leafIdx leaf, leafIndices[i]? = some leafIdx ∧ leafData[i]? = some leaf ∧
          leafIdx.toNat < 2 ^ e ∧ leaf.bytes = chunkAt data leafIdx.toNat := by
  have nonempty : data ≠ [] := by
    have := Nat.two_pow_pos e
    rw [← length_pos_iff]
    omega
  refine ⟨_, root_new_hash conforms key nonempty fits, ?_, ?_⟩
  · intro indices nonempty inRange room
    have below : ∀ i ∈ indices.map UInt32.toNat, i < 2 ^ e := by simpa using inRange
    have made := getAuditPaths_new conforms key size fits below (by simpa using room)
    exact ⟨_, made, catchUnwind_eq_ok.mpr (verifyAuditPaths_opened conforms key size fits nonempty inRange room rfl)⟩
  · intro leafData leafIndices leafCount siblings siblingCount free accepted i bound
    obtain ⟨result, run⟩ := catchUnwind_code.mp accepted
    obtain ⟨-, -, -, -, openings⟩ := (verifyAuditPaths_eq_ok (levels_fit size fits)).mp run
    exact verifyOpening_sound conforms key size fits free (openings i bound)

section zeros

def zeroLeaf : Chunk := ⟨zeroChunk, length_zeroChunk⟩

def zeroPair : Slice := .zeros 2048 (by decide)

theorem zeroPair_free : AuditCollisionFree zeroHasher zeroKey zeroPair.bytes 1 [zeroLeaf] [1]
    [zeroHasher.chunkCv zeroChunk 0] := by
  rw [AuditCollisionFree, if_neg (by decide)]
  refine zeroCalls_free.mono ?_
  rw [calls, zeroPair, zeroTree_root (traced_lawful zeroHasher_lawful)]
  have opening : openingCalls zeroHasher 1 zeroLeaf [zeroHasher.chunkCv zeroChunk 0] =
      [.root (zeroHasher.chunkCv zeroChunk 0) (zeroHasher.chunkCv zeroChunk 1), .chunk 1 zeroChunk] := rfl
  have block : auditBlock [zeroHasher.chunkCv zeroChunk 0] 1 0 = [zeroHasher.chunkCv zeroChunk 0] := rfl
  simp [zeroCalls, NodeHasher.traced, opening, block, show UInt32.toNat 1 = 1 from rfl]

/-- Two chunks of zeros: leaf 1 is opened twice around leaf 0, and a path from leaf 1 holds the second chunk. -/
theorem audit_paths_round_trip_zeros : ∃ root, (new .reference zeroPair zeroKey).root = .ok root ∧
    (∃ siblings, (new .reference zeroPair zeroKey).getAuditPaths [1, 0, 1] = .ok siblings ∧
      merkleVerifyAuditPaths .reference
        (some ([1, 0, 1].map (new .reference zeroPair zeroKey).leafChunk)) (some [1, 0, 1]) 3 2
        (if siblings.isEmpty then none else some siblings) siblings.length (some zeroKey) (some root) =
          ⟨ok, none, some ()⟩) ∧
    (merkleVerifyAuditPaths .reference (some [zeroLeaf]) (some [1]) 1 2 (some [zeroHasher.chunkCv zeroChunk 0]) 1
      (some zeroKey) (some root)).code = ok ∧
    zeroLeaf.bytes = chunkAt zeroPair.bytes 1 := by
  obtain ⟨root, made, complete, sound⟩ := audit_paths_round_trip Blake3Crate.reference_conforms zeroKey zeroPair.bytes 1
    (by rw [zeroPair, Slice.length_zeros, Nat.pow_one]) zeroPair.fits
  have top := Except.ok.inj ((zeroTree_root zeroHasher_lawful).symm.trans made)
  have accepted : (merkleVerifyAuditPaths .reference (some [zeroLeaf]) (some [1]) 1 2
      (some [zeroHasher.chunkCv zeroChunk 0]) 1 (some zeroKey) (some root)).code = ok := by
    refine catchUnwind_code.mpr ⟨(), (verifyAuditPaths_eq_ok (e := 1) (by decide)).mpr
      ⟨by decide, by simp, by decide, by decide, fun i bound => ?_⟩⟩
    obtain rfl : i = 0 := by omega
    exact verifyOpening_eq_ok.mpr ⟨1, zeroLeaf, rfl, by decide, rfl, by decide, top⟩
  refine ⟨root, made, complete [1, 0, 1] (by decide) (by simp) (by decide), accepted, ?_⟩
  obtain ⟨leafIdx, leaf, known, chunk, -, bytes⟩ := sound [zeroLeaf] [1] 1 (some [zeroHasher.chunkCv zeroChunk 0]) 1
    zeroPair_free accepted 0 (by decide)
  cases known
  cases chunk
  exact bytes

end zeros
end ArcMiner.MiningCapi
