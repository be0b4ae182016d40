import ArcMiner.PearlBlake3.Merkle

/-! The layers of a built tree.

For two chunks or more the layers are the levels of the binary tree over the
chunk chaining values, with the root on top.
-/

namespace ArcMiner.PearlBlake3

open Library Library.Rust Blake3Hasher Blake3

variable {δ : Type}

/-- What the batched methods of the hasher compute in terms of the single ones. -/
structure NodeHasher.Lawful (hasher : NodeHasher δ) : Prop where
  combineLayer : ∀ prev, hasher.combineLayer prev = pairUp hasher.parentCv prev
  hashChunks : ∀ data : List UInt8, data.length < 2 ^ 63 → hasher.hashChunks data =
    tabulate (fun i => hasher.chunkCv (chunkAt data i) i.toUInt64) (chunkCount data.length)

def NodeHasher.leaf (hasher : NodeHasher δ) (data : List UInt8) (i : Nat) : δ :=
  hasher.chunkCv (chunkAt data i) i.toUInt64

theorem leaf_nodes {crate : Blake3Crate} (conforms : crate.Conforms) (key : Digest) {data : List UInt8}
    (fits : data.length < 2 ^ 63) {i : Nat} (bound : i < chunkCount data.length) :
    ((withKey key).nodes crate).leaf data i = chunkCvAt (.keyed key) data i :=
  chunkCv_chunkAt conforms (.withKey key) fits bound

theorem nodes_lawful {crate : Blake3Crate} (conforms : crate.Conforms) (key : Digest) :
    ((withKey key).nodes crate).Lawful := by
  refine ⟨fun prev => rfl, fun data fits => ?_⟩
  have chunks : ((withKey key).nodes crate).hashChunks data =
      tabulate (chunkCvAt (.keyed key) data) (chunkCount data.length) :=
    hashChunks_eq conforms (withKey_words key) data fits
  rw [chunks]
  exact tabulate_congr fun i bound => (leaf_nodes conforms key fits bound).symm

namespace MerkleTree

theorem lastLayer_append (layers : List (List δ)) (layer : List δ) : lastLayer (layers ++ [layer]) = layer := by
  simp [lastLayer]

theorem combineAll_stop (hasher : NodeHasher δ) {pre : List (List δ)} {layer : List δ} (small : layer.length ≤ 2) :
    combineAll hasher (pre ++ [layer]) = pre ++ [layer] := by
  unfold combineAll
  rw [whileLoop_stop _ (by simpa [lastLayer_append] using small)]
  rfl

section
variable {hasher : NodeHasher δ} (lawful : hasher.Lawful)
include lawful

theorem combineAll_decreases : Decreases (m := Id) (fun layers : List (List δ) => (lastLayer layers).length)
    (fun layers => decide (2 < (lastLayer layers).length))
    (fun layers => pure (layers ++ [hasher.combineLayer (lastLayer layers)])) := by
  apply Decreases.of_pure
  · intro layers running
    have large := of_decide_eq_true running
    omega
  · intro layers running
    have large := of_decide_eq_true running
    simp only [pure, lastLayer_append, lawful.combineLayer, length_pairUp]
    exact halfUp_lt (by omega)

theorem combineAll_step {pre : List (List δ)} {layer : List δ} (large : 2 < layer.length) :
    combineAll hasher (pre ++ [layer]) =
      combineAll hasher (pre ++ [layer] ++ [pairUp hasher.parentCv layer]) := by
  unfold combineAll
  rw [whileLoop_step (combineAll_decreases lawful) _ (by simpa [lastLayer_append] using large)]
  simp only [lastLayer_append, lawful.combineLayer]
  rfl

theorem combineAll_eq {n : Nat} (large : 2 ≤ n) (f : Nat → δ) (pre : List (List δ)) :
    combineAll hasher (pre ++ [tabulate f n]) = pre ++ lowerLevels hasher.parentCv n f := by
  induction n using Nat.strong_induction_on generalizing f pre with
  | _ n ih =>
    rcases (show n = 2 ∨ 3 ≤ n by omega) with rfl | more
    · rw [combineAll_stop hasher (by simp), lowerLevels_two]
    · rw [combineAll_step lawful (by rw [length_tabulate]; omega), pairUp_tabulate,
        ih (halfUp n) (halfUp_lt large) (leftCount_halfUp more).2, lowerLevels_of_large _ f more, List.append_assoc]
      rfl

omit lawful in
theorem lastLayer_lowerLevels (hasher : NodeHasher δ) {n : Nat} (large : 2 ≤ n) (f : Nat → δ) :
    ∃ left right, lastLayer (lowerLevels hasher.parentCv n f) = [left, right] ∧
      ∀ root, root left right = treeRoot hasher.parentCv root f n := by
  obtain ⟨left, right, last, top⟩ := getLast?_lowerLevels hasher.parentCv f large
  exact ⟨left, right, by rw [lastLayer, List.getLastD_eq_getLast?, last]; rfl, top⟩

theorem layers_build (key : Digest) {data : List UInt8} (fits : data.length < 2 ^ 63) (large : 1024 < data.length) :
    (build hasher key data).layers =
      levels hasher.parentCv hasher.rootCv (chunkCount data.length) (hasher.leaf data) := by
  have two : 2 ≤ chunkCount data.length := by
    simp only [chunkCount]
    omega
  have built := combineAll_eq lawful two (hasher.leaf data) []
  obtain ⟨left, right, last, top⟩ := lastLayer_lowerLevels hasher two (hasher.leaf data)
  have chunks : hasher.hashChunks data = tabulate (hasher.leaf data) (chunkCount data.length) :=
    lawful.hashChunks data fits
  rw [build, if_neg (by cases data <;> simp_all), if_neg (by simp only [chunkLen]; omega), chunks]
  rw [List.nil_append, List.nil_append] at built
  simp only [built, last, top]
  exact (levels_eq_append _ _ _ two).symm

theorem root_build [Inhabited δ] (key : Digest) {data : List UInt8} (fits : data.length < 2 ^ 63)
    (large : 1024 < data.length) : (build hasher key data).root =
      .ok (treeRoot hasher.parentCv hasher.rootCv (hasher.leaf data) (chunkCount data.length)) := by
  have two : 2 ≤ chunkCount data.length := by
    simp only [chunkCount]
    omega
  unfold root
  rw [layers_build lawful key fits large, getLast?_levels _ _ _ two]
  rfl

end

theorem data_build (hasher : NodeHasher δ) (key : Digest) (data : List UInt8) :
    (build hasher key data).data = data := by
  unfold build
  split
  next none => simp_all
  next =>
    split
    next => rfl
    next =>
      dsimp only
      split <;> rfl

end MerkleTree

theorem padToChunkBoundary_eq (data : List UInt8) : padToChunkBoundary data = fillChunks data := by
  unfold padToChunkBoundary fillChunks paddedChunkLen divCeil chunkLen chunkCount
  rw [show data.length + 1024 - 1 = data.length + 1023 by omega]

theorem root_new {crate : Blake3Crate} (conforms : crate.Conforms) (key : Digest) {data : Slice}
    (nonempty : data.bytes ≠ []) :
    (MerkleTree.new crate data key).root = .ok (treeHash (.keyed key) data.bytes) := by
  have given : ¬ data.bytes.isEmpty = true := by simpa using nonempty
  by_cases single : data.bytes.length ≤ 1024
  · have one : data.bytes.length ≤ chunkLen := single
    have tree : MerkleTree.new crate data key =
        ⟨key, [[(withKey key).hash crate data.bytes]], data.bytes⟩ := by
      unfold MerkleTree.new MerkleTree.build
      rw [if_neg given, if_pos one]
      rfl
    rw [tree, hash_eq conforms]
    rfl
  · have fits := data.fits
    have node : ((withKey key).nodes crate).parentCv = parentCv (.keyed key) :=
      parentCv_eq conforms key
    have root : ((withKey key).nodes crate).rootCv = rootCv (.keyed key) :=
      rootCv_eq conforms key
    have two : 2 ≤ chunkCount data.bytes.length := by
      unfold chunkCount
      omega
    unfold MerkleTree.new
    rw [MerkleTree.root_build (nodes_lawful conforms key) key fits (by omega), treeHash, if_neg single,
      node, root, treeRoot_congr _ _ two (fun i bound => leaf_nodes conforms key fits bound)]

end ArcMiner.PearlBlake3
