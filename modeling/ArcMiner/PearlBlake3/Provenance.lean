import ArcMiner.PearlBlake3.Layers

/-! Digests that remember the hasher calls behind them.

Running the tree builder and `compute_root` on traced digests yields, beside the
digests of the plain run, the calls whose answers they were computed from.
-/

namespace ArcMiner.PearlBlake3

open Library Library.Rust Option OrderedList Prod

/-- The calls that produce chaining values. -/
inductive HashCall where
  | chunk (index : UInt64) (data : List UInt8)
  | parent (left right : Digest)
  | root (left right : Digest)
deriving DecidableEq

def NodeHasher.answer (hasher : NodeHasher Digest) : HashCall → Digest
  | .chunk index data => hasher.chunkCv data index
  | .parent left right => hasher.parentCv left right
  | .root left right => hasher.rootCv left right

structure Traced where
  digest : Digest
  calls : List HashCall
deriving Inhabited

def NodeHasher.traced (hasher : NodeHasher Digest) : NodeHasher Traced where
  hash data := ⟨hasher.hash data, []⟩
  chunkCv data index := ⟨hasher.chunkCv data index, [.chunk index data]⟩
  parentCv left right := ⟨hasher.parentCv left.digest right.digest,
    .parent left.digest right.digest :: (left.calls ++ right.calls)⟩
  rootCv left right := ⟨hasher.rootCv left.digest right.digest,
    .root left.digest right.digest :: (left.calls ++ right.calls)⟩
  hashChunks data := (hasher.hashChunks data).mapIdx fun i cv => ⟨cv, [.chunk i.toUInt64 (Blake3.chunkAt data i)]⟩
  combineLayer := pairUp fun left right => ⟨hasher.parentCv left.digest right.digest,
    .parent left.digest right.digest :: (left.calls ++ right.calls)⟩

theorem traced_lawful {hasher : NodeHasher Digest} (lawful : hasher.Lawful) : hasher.traced.Lawful := by
  refine ⟨fun prev => rfl, fun data fits => ?_⟩
  unfold NodeHasher.traced
  simp only [lawful.hashChunks data fits, mapIdx_tabulate]

/-- A map between digest types that commutes with the methods used by proofs. -/
structure NodeHasher.Hom {δ ε : Type} (φ : δ → ε) (source : NodeHasher δ) (target : NodeHasher ε) : Prop where
  chunkCv : ∀ data i, φ (source.chunkCv data i) = target.chunkCv data i
  parentCv : ∀ left right, φ (source.parentCv left right) = target.parentCv (φ left) (φ right)
  rootCv : ∀ left right, φ (source.rootCv left right) = target.rootCv (φ left) (φ right)

theorem traced_hom (hasher : NodeHasher Digest) : NodeHasher.Hom Traced.digest hasher.traced hasher :=
  ⟨fun _ _ => rfl, fun _ _ => rfl, fun _ _ => rfl⟩

namespace MerkleProof
variable {δ ε : Type} (φ : δ → ε)

def mapDigests (self : MerkleProof δ) : MerkleProof ε :=
  { self with root := φ self.root, siblings := self.siblings.map φ }

def Walk.mapDigests (walk : Walk δ) : Walk ε :=
  ⟨walk.levelLen, walk.current.mapValues φ, walk.siblings.map φ⟩

theorem nextSibling_map (siblings : List δ) :
    nextSibling (siblings.map φ) = map φ (List.map φ) <$> nextSibling siblings := by
  cases siblings <;> rfl

theorem nodeOrSibling_map (current : NodeMap δ) (i : Nat) (siblings : List δ) :
    nodeOrSibling (current.mapValues φ) i (siblings.map φ) =
      map φ (List.map φ) <$> nodeOrSibling current i siblings := by
  unfold nodeOrSibling
  rw [find?_mapValues]
  cases current.find? i with
  | none => exact nextSibling_map φ siblings
  | some entry => rfl

section
variable {φ} {source : NodeHasher δ} {target : NodeHasher ε} (hom : NodeHasher.Hom φ source target)
include hom

theorem climbNode_map (current : NodeMap δ) (levelLen : Nat) (state : NodeMap δ × List δ) (entry : Nat × δ) :
    climbNode target (current.mapValues φ) levelLen (Prod.map (·.mapValues φ) (List.map φ) state)
        (Prod.map id φ entry) =
      Prod.map (·.mapValues φ) (List.map φ) <$> climbNode source current levelLen state entry := by
  obtain ⟨next, siblings⟩ := state
  obtain ⟨i, cv⟩ := entry
  simp only [climbNode, Prod.map_apply, id_eq, find?_mapValues, contains_mapValues,
    nextSibling_map]
  by_cases even : i % 2 = 0
  · simp only [even, ↓reduceIte]
    cases current.find? (i + 1) with
    | some right => simp [hom.parentCv, mapValues_insert]
    | none =>
      by_cases inside : i + 1 < levelLen
      · cases siblings <;> simp [inside, nextSibling, hom.parentCv, mapValues_insert]
      · simp [inside, mapValues_insert]
  · simp only [even, ↓reduceIte]
    by_cases present : current.contains (i - 1) = true
    · simp [present]
    · cases siblings <;> simp [present, nextSibling, hom.parentCv, mapValues_insert]

theorem climbNodes_map (current : NodeMap δ) (levelLen : Nat) (entries : List (Nat × δ))
    (state : NodeMap δ × List δ) :
    (entries.map (map id φ)).foldlM (climbNode target (current.mapValues φ) levelLen)
        (map (·.mapValues φ) (List.map φ) state) =
      map (·.mapValues φ) (List.map φ) <$> entries.foldlM (climbNode source current levelLen) state := by
  induction entries generalizing state with
  | nil => rfl
  | cons entry entries ih =>
    rw [List.map_cons, List.foldlM_cons, List.foldlM_cons, climbNode_map hom]
    cases climbNode source current levelLen state entry with
    | none => rfl
    | some after => exact ih after

theorem climbLevel_map (walk : Walk δ) :
    climbLevel target (walk.mapDigests φ) = Walk.mapDigests φ <$> climbLevel source walk := by
  have run := climbNodes_map hom walk.current walk.levelLen walk.current.entries (.empty, walk.siblings)
  unfold climbLevel
  simp only [Walk.mapDigests, entries_mapValues]
  rw [show ((.empty : NodeMap ε), walk.siblings.map φ) =
    map (·.mapValues φ) (List.map φ) ((.empty : NodeMap δ), walk.siblings) from rfl, run]
  cases walk.current.entries.foldlM (climbNode source walk.current walk.levelLen) (.empty, walk.siblings) <;> rfl

theorem climb_map (walk : Walk δ) :
    climb target (walk.mapDigests φ) = map φ (map φ (List.map φ)) <$> climb source walk := by
  have run : whileLoop Walk.levelLen (fun walk => decide (2 < walk.levelLen)) (climbLevel target)
      (walk.mapDigests φ) = Walk.mapDigests φ <$>
        whileLoop Walk.levelLen (fun walk => decide (2 < walk.levelLen)) (climbLevel source) walk :=
    whileLoop_map (Walk.mapDigests φ) (fun _ => rfl) (fun _ => rfl) (climbLevel_map hom) walk
  unfold climb
  rw [run]
  cases whileLoop Walk.levelLen (fun walk => decide (2 < walk.levelLen)) (climbLevel source) walk with
  | none => rfl
  | some last =>
    simp only [map_eq_map, map_some, bind_eq_bind, bind_some, Walk.mapDigests]
    rw [nodeOrSibling_map φ]
    cases nodeOrSibling last.current 0 last.siblings with
    | none => rfl
    | some left =>
      simp only [map_eq_map, map_some, bind_some, map_snd]
      rw [nodeOrSibling_map φ]
      cases nodeOrSibling last.current 1 left.2 <;> rfl

theorem leaves_map (self : MerkleProof δ) : (self.mapDigests φ).leaves target = (self.leaves source).mapValues φ := by
  have hashes : (self.mapDigests φ).leafHashes target = (self.leafHashes source).map φ := by
    unfold leafHashes
    rw [List.map_zipWith]
    simp only [hom.chunkCv]
    rfl
  unfold leaves
  rw [mapValues_collect, hashes, List.zip_map_right]
  rfl

theorem recomputeRoot_map (self : MerkleProof δ) :
    (self.mapDigests φ).recomputeRoot target = Except.map (Option.map φ) (self.recomputeRoot source) := by
  unfold recomputeRoot
  rw [leaves_map hom]
  by_cases none : self.leafIndices.isEmpty = true
  · simp [mapDigests, none, Except.map]
  by_cases single : self.totalLeaves = 1
  · by_cases spare : self.siblings.isEmpty = true
    · simp [mapDigests, none, single, spare, find?_mapValues]
      cases (self.leaves source).find? 0 <;> rfl
    · simp [mapDigests, none, single, spare, Except.map]
  · have walk := climb_map hom ⟨self.totalLeaves, self.leaves source, self.siblings⟩
    simp only [Walk.mapDigests] at walk
    simp only [mapDigests, none, single, ↓reduceIte, walk]
    cases climb source ⟨self.totalLeaves, self.leaves source, self.siblings⟩ with
    | none => rfl
    | some result =>
      obtain ⟨left, right, rest⟩ := result
      cases rest <;> simp [Except.map, hom.rootCv]

end
end MerkleProof
end ArcMiner.PearlBlake3
