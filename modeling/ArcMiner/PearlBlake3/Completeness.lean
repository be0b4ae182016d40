import ArcMiner.PearlBlake3.Layers

/-! Completeness of multi-leaf proofs.

Prover and verifier are both related to the openings of the tree: the prover
collects exactly these, and the walk of the verifier uses them up level by level.
-/

namespace ArcMiner.PearlBlake3

open Library Library.Rust List OrderedList MerkleTree MerkleProof Blake3Hasher
open Blake3 (chunkCount zeroKey)

variable {δ : Type}

namespace MerkleTree

theorem index_tabulate (f : Nat → δ) {n i : Nat} (bound : i < n) : index (tabulate f n) i = .ok (f i) :=
  index_eq_ok (getElem?_tabulate f bound)

theorem openNode_eq {n : Nat} (f : Nat → δ) (s : IndexSet) (siblings : List δ) {i : Nat} (bound : i < n) :
    openNode (tabulate f n) s n siblings i = .ok (siblings ++ opened n f s i) := by
  unfold openNode opened
  rw [contains_eq_decide, contains_eq_decide]
  by_cases odd : i % 2 = 1
  · have before : i - 1 < n := by omega
    by_cases present : i - 1 ∈ s.entries
    · simp [odd, present, pure, Except.pure]
    · simp [odd, present, index_tabulate f before, pure, Except.pure]
  · by_cases partner : i + 1 ∉ s.entries ∧ i + 1 < n
    · simp [odd, partner, index_tabulate f partner.2, pure, Except.pure]
    · simp only [not_and_or, Decidable.not_not] at partner
      rcases partner with present | last <;> simp [*, pure, Except.pure]

theorem openNodes_eq {n : Nat} (f : Nat → δ) (s : IndexSet) (xs : List Nat) (below : ∀ i ∈ xs, i < n)
    (siblings : List δ) :
    xs.foldlM (openNode (tabulate f n) s n) siblings = .ok (siblings ++ xs.flatMap (opened n f s)) := by
  induction xs generalizing siblings with
  | nil => simp [pure, Except.pure]
  | cons i xs ih =>
    rw [foldlM_cons, openNode_eq f s siblings (below i (by simp)), ok_bind,
      ih (fun j member => below j (by simp [member]))]
    simp

theorem openLevels_decreases (self : MerkleTree δ) : Decreases Opening.levelLen
    (fun opening => decide (1 < opening.levelLen) && !opening.currentSet.entries.isEmpty)
    (openLevel self) := by
  apply Decreases.of_except
  · intro opening running
    simp only [Bool.and_eq_true, decide_eq_true_eq] at running
    omega
  · intro opening after running result
    simp only [Bool.and_eq_true, decide_eq_true_eq] at running
    obtain ⟨nodes, -, result⟩ := bind_eq_ok.mp result
    obtain ⟨siblings, -, result⟩ := bind_eq_ok.mp result
    cases result
    exact halfUp_lt (by omega)

theorem openLevels_eq {self : MerkleTree δ} {node : δ → δ → δ} {n : Nat} (large : 2 ≤ n) {f : Nat → δ}
    {s : IndexSet} {level : Nat} (above : lowerLevels node n f <+: self.layers.drop level)
    (below : ∀ i ∈ s.entries, i < n) (nonempty : s.entries ≠ []) (siblings : List δ) :
    ∃ last, openLevels self ⟨level, n, s, siblings⟩ = .ok last ∧
      last.siblings = siblings ++ allOpenings node n f s := by
  induction n using Nat.strong_induction_on generalizing f s level siblings with
  | _ n ih =>
    obtain ⟨rest, above⟩ := above
    have here : self.layers[level]? = some (tabulate f n) := by
      rw [← head?_drop, ← above, head?_append, head?_lowerLevels]
      rfl
    have running : (decide (1 < n) && !s.entries.isEmpty) = true := by
      simp only [Bool.and_eq_true, decide_eq_true_eq, Bool.not_eq_true', isEmpty_eq_false_iff]
      exact ⟨by omega, nonempty⟩
    have step : openLevels self ⟨level, n, s, siblings⟩ =
        openLevels self ⟨level + 1, halfUp n, halve s, siblings ++ openings n f s⟩ := by
      conv_lhs => unfold openLevels
      rw [whileLoop_step (openLevels_decreases self) _ running, openLevel, index_eq_ok here, ok_bind]
      dsimp only
      rw [openNodes_eq f s s.entries below]
      rfl
    rw [step, allOpenings_of_large node f s large]
    -- two nodes are opened like any level, but nothing lies above them
    rcases (show n = 2 ∨ 3 ≤ n by omega) with rfl | more
    · refine ⟨_, whileLoop_stop _ (by simp [halfUp]), ?_⟩
      rw [allOpenings_of_small _ _ _ (by decide), append_nil]
    · rw [lowerLevels_of_large node f more] at above
      have next : lowerLevels node (halfUp n) (up node n f) <+: self.layers.drop (level + 1) := by
        rw [← tail_drop, ← above]
        exact prefix_append _ rest
      obtain ⟨last, run, result⟩ := ih (halfUp n) (halfUp_lt large) (leftCount_halfUp more).2 next
        (halve_below below) (halve_nonempty nonempty) (siblings ++ openings n f s)
      exact ⟨last, run, by rw [result, append_assoc]⟩

end MerkleTree

namespace MerkleProof

variable (hasher : NodeHasher δ) {n : Nat} (f : Nat → δ) {s : IndexSet}

/-- One path node in the walk: it takes the sibling opened for it, if any, and
its parent is recorded once. -/
theorem climbNode_eq {pre post : List Nat}
    {i : Nat} (split : s.entries = pre ++ i :: post) (bound : ∀ j ∈ s.entries, j < n) (rest : List δ) :
    climbNode hasher (.graph f s) n
        (.graph (up hasher.parentCv n f) (.toSet (pre.map (· / 2))), opened n f s i ++ rest) (i, f i) =
      some (.graph (up hasher.parentCv n f) (.toSet ((pre ++ [i]).map (· / 2))), rest) := by
  have record : graph (up hasher.parentCv n f) (.toSet ((pre ++ [i]).map (· / 2))) =
      (graph (up hasher.parentCv n f) (.toSet (pre.map (· / 2)))).insert
        (i / 2, up hasher.parentCv n f (i / 2)) := by
    simp only [← collect_graph, map_append, map_map]
    exact collect_append _ _
  have member : i ∈ s.entries := by simp [split]
  have below := bound i member
  simp only [climbNode, opened, contains_graph, contains_eq_decide, record]
  rcases Nat.mod_two_eq_zero_or_one i with even | odd
  · have place : 2 * (i / 2) = i := by omega
    have here : i % 2 ≠ 1 := by omega
    by_cases present : i + 1 ∈ s.entries
    · have partner := bound _ present
      simp [even, present, find?_graph_of_mem f present, up, place, partner]
    · by_cases partner : i + 1 < n
      · simp [even, present, find?_graph_of_not_mem f present, partner, nextSibling, up, place]
      · simp [even, present, find?_graph_of_not_mem f present, partner, up, place]
  · have place : 2 * (i / 2) = i - 1 := by omega
    have next : i - 1 + 1 = i := by omega
    by_cases present : i - 1 ∈ s.entries
    · -- The even partner came first and has recorded the same parent.
      have before : i - 1 ∈ pre := by
        have order := s.ordered
        rw [split] at order present
        rcases mem_append.mp present with before | after
        · exact before
        · have := (pairwise_append.mp order).2.1
          rcases mem_cons.mp after with same | after
          · omega
          · have := rel_of_pairwise_cons this after
            omega
      have known : (i / 2, up hasher.parentCv n f (i / 2)) ∈
          (graph (up hasher.parentCv n f) (.toSet (pre.map (· / 2)))).entries := by
        simp only [entries_graph, mem_map, mem_toSet]
        exact ⟨i / 2, ⟨i - 1, before, by omega⟩, rfl⟩
      simp [odd, present, insert_of_mem known]
    · simp [odd, present, nextSibling, up, place, next, below]

theorem climbNodes_eq
    (below : ∀ j ∈ s.entries, j < n) (rest : List δ) (pre post : List Nat) (split : s.entries = pre ++ post) :
    (post.map fun i => (i, f i)).foldlM (climbNode hasher (.graph f s) n)
        (.graph (up hasher.parentCv n f) (.toSet (pre.map (· / 2))),
          post.flatMap (opened n f s) ++ rest) =
      some (.graph (up hasher.parentCv n f) (.toSet ((pre ++ post).map (· / 2))), rest) := by
  induction post generalizing pre with
  | nil => simp
  | cons i post ih =>
    rw [map_cons, foldlM_cons, flatMap_cons, append_assoc,
      climbNode_eq hasher f split below, Option.bind_eq_bind, Option.bind_some,
      ih (pre ++ [i]) (by simp [split])]
    simp

theorem climbLevel_eq
    (below : ∀ j ∈ s.entries, j < n) (rest : List δ) :
    climbLevel hasher ⟨n, .graph f s, openings n f s ++ rest⟩ =
      some ⟨halfUp n, .graph (up hasher.parentCv n f) (halve s), rest⟩ := by
  have run := climbNodes_eq hasher f below rest [] s.entries rfl
  unfold climbLevel
  rw [show (empty : NodeMap δ) = .graph (up hasher.parentCv n f) (.toSet (List.map (· / 2) []))
    from rfl]
  simp only [entries_graph, openings, run]
  rfl

theorem nodeOrSibling_of_mem {f : Nat → δ} {s : IndexSet} {i : Nat} (present : i ∈ s.entries) (rest : List δ) :
    nodeOrSibling (.graph f s) i rest = some (f i, rest) := by
  simp [nodeOrSibling, find?_graph_of_mem f present]

theorem nodeOrSibling_of_not_mem {f : Nat → δ} {s : IndexSet} {i : Nat} (absent : i ∉ s.entries) (rest : List δ) :
    nodeOrSibling (.graph f s) i (f i :: rest) = some (f i, rest) := by
  simp [nodeOrSibling, find?_graph_of_not_mem f absent, nextSibling]

theorem entries_below_two {s : IndexSet} (below : ∀ j ∈ s.entries, j < 2) (nonempty : s.entries ≠ []) :
    s.entries = [0] ∨ s.entries = [1] ∨ s.entries = [0, 1] := by
  have order := s.ordered
  match entries : s.entries with
  | [] => exact absurd entries nonempty
  | [i] =>
    have := below i (by simp [entries])
    simp only [List.cons.injEq, and_true]
    omega
  | i :: j :: rest =>
    rw [entries] at order below
    have first := rel_of_pairwise_cons order (mem_cons_self ..)
    have second := below j (by simp)
    match rest with
    | [] =>
      simp only [List.cons.injEq, and_true]
      omega
    | k :: rest =>
      have third := rel_of_pairwise_cons (pairwise_cons.mp order).2 (mem_cons_self ..)
      have := below k (by simp)
      omega

/-- The walk ends with both children of the root and has taken exactly the openings. -/
theorem climb_eq (hasher : NodeHasher δ) {n : Nat} (large : 2 ≤ n) (f : Nat → δ) {s : IndexSet}
    (below : ∀ j ∈ s.entries, j < n) (nonempty : s.entries ≠ []) (rest : List δ) :
    ∃ left right, climb hasher ⟨n, .graph f s, allOpenings hasher.parentCv n f s ++ rest⟩ =
      some (left, right, rest) ∧ hasher.rootCv left right = treeRoot hasher.parentCv hasher.rootCv f n := by
  induction n using Nat.strong_induction_on generalizing f s with
  | _ n ih =>
    rcases (show n = 2 ∨ 3 ≤ n by omega) with rfl | more
    · refine ⟨f 0, f 1, ?_, (treeRoot_two _ _ f).symm⟩
      have used : allOpenings hasher.parentCv 2 f s = openings 2 f s := by
        rw [allOpenings_of_large _ f s large, allOpenings_of_small _ _ _ (by decide), append_nil]
      rw [climb_of_small hasher (Nat.le_refl 2), used]
      rcases entries_below_two below nonempty with only | only | both
      · have shown : openings 2 f s = [f 1] := by simp [openings, opened, only]
        simp [shown, nodeOrSibling_of_mem (f := f) (s := s) (i := 0) (by simp [only]),
          nodeOrSibling_of_not_mem (f := f) (s := s) (i := 1) (by simp [only])]
      · have shown : openings 2 f s = [f 0] := by simp [openings, opened, only]
        simp [shown, nodeOrSibling_of_not_mem (f := f) (s := s) (i := 0) (by simp [only]),
          nodeOrSibling_of_mem (f := f) (s := s) (i := 1) (by simp [only])]
      · have shown : openings 2 f s = [] := by simp [openings, opened, both]
        simp [shown, nodeOrSibling_of_mem (f := f) (s := s) (i := 0) (by simp [both]),
          nodeOrSibling_of_mem (f := f) (s := s) (i := 1) (by simp [both])]
    · obtain ⟨left, right, run, same⟩ := ih (halfUp n) (halfUp_lt large) (leftCount_halfUp more).2
        (up hasher.parentCv n f) (halve_below below) (halve_nonempty nonempty)
      refine ⟨left, right, ?_, by rw [same, treeRoot_up _ _ f more]⟩
      rw [← run, allOpenings_of_large _ f s large, append_assoc]
      rw [climb_of_large hasher more, climbLevel_eq hasher f below]
      rfl

end MerkleProof

variable (hasher : NodeHasher δ) (key : Digest) {data : List UInt8}

theorem leafChunk_build (aligned : 1024 ∣ data.length) {i : Nat}
    (bound : i < chunkCount data.length) :
    ((build hasher key data).leafChunk i).bytes = Blake3.chunkAt data i := by
  have length := Blake3.length_chunkAt data i
  simp only [chunkCount] at bound
  obtain ⟨count, same⟩ := aligned
  simp only [leafChunk, data_build, rightpad, chunkLen]
  rw [show 1024 - (Blake3.chunkAt data i).length = 0 by omega]
  simp

theorem leaves_of_opened (aligned : 1024 ∣ data.length)
    {s : IndexSet} (below : ∀ i ∈ s.entries, i < chunkCount data.length) (total : Nat) (root : δ)
    (siblings : List δ) :
    leaves hasher ⟨s.entries.map (build hasher key data).leafChunk, s.entries,
      total, root, siblings⟩ = .graph (hasher.leaf data) s := by
  have hashes : zipWith (fun idx (chunk : Chunk) => hasher.chunkCv chunk.bytes idx.toUInt64) s.entries
      (s.entries.map (build hasher key data).leafChunk) = s.entries.map (hasher.leaf data) := by
    rw [zipWith_map_right, zipWith_self]
    apply map_congr_left
    intro i member
    rw [leafChunk_build hasher key aligned (below i member)]
    rfl
  have entries : s.entries.zip (s.entries.map (hasher.leaf data)) =
      s.entries.map (fun i => (i, hasher.leaf data i)) := map_prod_left_eq_zip.symm
  unfold leaves leafHashes
  simp only [hashes, entries]
  rw [collect_graph, toSet, collect_entries]

section
variable {hasher : NodeHasher δ} (lawful : hasher.Lawful)
include lawful

theorem getMultileafProof_eq [Inhabited δ] (key : Digest) {data : List UInt8} (fits : data.length < 2 ^ 63)
    (large : 1024 < data.length) {indices : List Nat} (nonempty : indices ≠ [])
    (inRange : ∀ i ∈ indices, i < chunkCount data.length) :
    (build hasher key data).getMultileafProof indices =
      .ok ⟨(toSet indices).entries.map (build hasher key data).leafChunk,
        (toSet indices).entries, chunkCount data.length,
        treeRoot hasher.parentCv hasher.rootCv (hasher.leaf data) (chunkCount data.length),
        allOpenings hasher.parentCv (chunkCount data.length) (hasher.leaf data) (.toSet indices)⟩ := by
  let tree := build hasher key data
  let n := chunkCount data.length
  have two : 2 ≤ n := by
    simp only [n, chunkCount]
    omega
  have layers := layers_build lawful key fits large
  have lower : lowerLevels hasher.parentCv n (hasher.leaf data) <+: tree.layers.drop 0 := by
    rw [drop_zero, layers, levels_eq_append _ _ _ two]
    exact prefix_append _ _
  have below : ∀ i ∈ (toSet indices).entries, i < n :=
    fun i member => inRange i (mem_toSet.mp member)
  have leaves : tree.numLeaves = .ok n := by
    have bottom : tree.layers[0]? = some (tabulate (hasher.leaf data) n) := by
      rw [← head?_eq_getElem?, layers, head?_levels]
    simp [numLeaves, index_eq_ok bottom, pure, Except.pure]
  have last : (toSet indices).entries.getLast?.any (· < n) = true := by
    rw [getLast?_eq_some_getLast (toSet_nonempty nonempty)]
    simpa using below _ (getLast_mem _)
  have root : tree.root = .ok (treeRoot hasher.parentCv hasher.rootCv (hasher.leaf data) n) :=
    root_build lawful key fits large
  obtain ⟨opening, run, siblings⟩ :=
    openLevels_eq two lower below (toSet_nonempty nonempty) []
  rw [nil_append] at siblings
  have given : (!indices.isEmpty) = true := by simpa using nonempty
  show getMultileafProof tree indices = _
  unfold getMultileafProof
  simp only [given, assert, ↓reduceIte, ok_bind, leaves, last, run, root, siblings]
  rfl

end

theorem getMultileafProof_inRange {tree : MerkleTree Digest} {leaves : List Digest} {indices : List Nat}
    {proof : MerkleProof Digest} (bottom : tree.layers[0]? = some leaves)
    (made : tree.getMultileafProof indices = .ok proof) :
    indices ≠ [] ∧ ∀ i ∈ indices, i < leaves.length := by
  unfold getMultileafProof at made
  obtain ⟨_, nonempty, made⟩ := bind_eq_ok.mp made
  obtain ⟨total, count, made⟩ := bind_eq_ok.mp made
  obtain ⟨_, bounded, -⟩ := bind_eq_ok.mp made
  have size : total = leaves.length := by
    simpa [numLeaves, index_eq_ok bottom, pure, Except.pure, eq_comm] using count
  refine ⟨by simpa using assert_eq_ok.mp nonempty, fun i member => ?_⟩
  obtain ⟨last, found, small⟩ := (Option.any_eq_true _ _).mp (assert_eq_ok.mp bounded)
  obtain ⟨before, split⟩ := getLast?_eq_some_iff.mp found
  have here := mem_toSet.mpr member
  have order := (toSet indices).ordered
  simp only [decide_eq_true_eq] at small
  rw [split] at here order
  rcases mem_append.mp here with early | same
  · have := (pairwise_append.mp order).2.2 i early last (by simp)
    omega
  · rw [mem_singleton.mp same]
    omega

theorem entries_of_zeros {indices : List Nat} (nonempty : indices ≠ []) (zeros : ∀ i ∈ indices, i < 1) :
    (toSet indices).entries = [0] := by
  have only : toSet indices = toSet [0] := by
    apply ext_mem
    intro i
    rw [mem_toSet, mem_toSet, mem_singleton]
    constructor
    · intro member
      have := zeros i member
      omega
    · rintro rfl
      obtain ⟨j, member⟩ := exists_mem_of_ne_nil _ nonempty
      have := zeros j member
      rwa [show 0 = j by omega]
  rw [only]
  rfl

theorem getMultileafProof_single (key root : Digest) (data : List UInt8) {indices : List Nat}
    (nonempty : indices ≠ []) (zeros : ∀ i ∈ indices, i < 1) :
    (⟨key, [[root]], data⟩ : MerkleTree Digest).getMultileafProof indices =
      .ok ⟨[(⟨key, [[root]], data⟩ : MerkleTree Digest).leafChunk 0], [0], 1, root, []⟩ := by
  have given : (!indices.isEmpty) = true := by simpa using nonempty
  have only := entries_of_zeros nonempty zeros
  have stopped : openLevels (⟨key, [[root]], data⟩ : MerkleTree Digest)
      ⟨0, 1, .toSet indices, []⟩ = .ok ⟨0, 1, .toSet indices, []⟩ := whileLoop_stop _ (by simp)
  unfold getMultileafProof
  simp only [given, assert, ↓reduceIte, ok_bind]
  rw [show (⟨key, [[root]], data⟩ : MerkleTree Digest).numLeaves = .ok 1 from rfl]
  simp only [ok_bind, only, getLast?_singleton, Option.any_some, decide_true, Nat.lt_one_iff,
    ↓reduceIte, stopped]
  rfl

/-- A generated proof verifies, and the walk of `compute_root` takes every sibling exactly once: offered the
siblings followed by anything else, it leaves precisely what followed. -/
theorem multileaf_proof_complete {crate : Blake3Crate} (conforms : crate.Conforms) (key : Digest) (data : Slice)
    (aligned : 1024 ∣ data.bytes.length) (chunks : 2 ≤ data.bytes.length / 1024) (indices : List Nat)
    (nonempty : indices ≠ []) (inRange : ∀ i ∈ indices, i < data.bytes.length / 1024) :
    ∃ proof, (new crate data key).getMultileafProof indices = .ok proof ∧
      proof.verify crate key = .ok true ∧
      ∀ rest, ∃ left right, climb ((withKey key).nodes crate)
        ⟨proof.totalLeaves, proof.leaves ((withKey key).nodes crate), proof.siblings ++ rest⟩ =
          some (left, right, rest) := by
  let hasher := (withKey key).nodes crate
  let leaf := hasher.leaf data.bytes
  let n := chunkCount data.bytes.length
  have count : n = data.bytes.length / 1024 := by
    simp only [n, chunkCount]
    omega
  rw [← count] at chunks inRange
  have below : ∀ i ∈ (toSet indices).entries, i < n :=
    fun i member => inRange i (mem_toSet.mp member)
  have made := getMultileafProof_eq (nodes_lawful conforms key) key data.fits
    (by simp only [n, chunkCount] at chunks; omega) nonempty inRange
  refine ⟨_, made, ?_, ?_⟩
  · obtain ⟨left, right, walk, same⟩ := climb_eq hasher chunks leaf below (toSet_nonempty nonempty) []
    rw [append_nil] at walk
    unfold verify computeRoot recomputeRoot
    rw [leaves_of_opened hasher key aligned below, if_neg (by simpa using toSet_nonempty nonempty),
      if_neg (show n ≠ 1 by omega), walk]
    simp [same, pure, Except.pure, hasher, leaf, n]
  · intro rest
    obtain ⟨left, right, walk, -⟩ := climb_eq hasher chunks leaf below
      (toSet_nonempty nonempty) rest
    refine ⟨left, right, ?_⟩
    rw [leaves_of_opened hasher key aligned below]
    exact walk

theorem multileaf_proof_complete_three :
    ∃ proof, (new .reference (.zeros 3072 (by decide)) zeroKey).getMultileafProof
        [2, 0, 2] = .ok proof ∧
      proof.verify .reference zeroKey = .ok true ∧
      ∀ rest, ∃ left right, climb ((withKey zeroKey).nodes .reference)
        ⟨proof.totalLeaves, proof.leaves ((withKey zeroKey).nodes .reference),
          proof.siblings ++ rest⟩ = some (left, right, rest) :=
  multileaf_proof_complete Blake3Crate.reference_conforms zeroKey (.zeros 3072 (by decide))
    (by rw [Slice.length_zeros]; decide) (by rw [Slice.length_zeros]; decide) [2, 0, 2] (by decide)
    (by rw [Slice.length_zeros]; decide)

end ArcMiner.PearlBlake3
