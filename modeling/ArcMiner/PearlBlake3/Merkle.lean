import ArcMiner.Library.Loop
import ArcMiner.Library.OrderedList
import ArcMiner.PearlBlake3.Hasher

/-! Merkle trees and multi-leaf proofs of pearl-blake3.

`MerkleTree` and `MerkleProof` reach digests only through the methods of the
hasher, so both are written over a `NodeHasher` with an arbitrary digest type.
The code runs them with `Blake3Hasher::with_key`; the soundness argument also
runs them on digests that remember how they were computed.
-/

namespace ArcMiner.PearlBlake3

open Library Library.Rust

structure Chunk where
  bytes : List UInt8
  size : bytes.length = chunkLen
deriving DecidableEq

def paddedChunkLen (rawLen : Nat) : Nat := divCeil rawLen chunkLen * chunkLen

def padToChunkBoundary (data : List UInt8) : List UInt8 :=
  data ++ List.replicate (paddedChunkLen data.length - data.length) 0

structure NodeHasher (δ : Type) where
  hash : List UInt8 → δ
  chunkCv : List UInt8 → UInt64 → δ
  parentCv : δ → δ → δ
  rootCv : δ → δ → δ
  hashChunks : List UInt8 → List δ
  combineLayer : List δ → List δ

def Blake3Hasher.nodes (crate : Blake3Crate) (self : Blake3Hasher) : NodeHasher Digest where
  hash := self.hash crate
  chunkCv := self.chunkCv crate
  parentCv := self.parentCv crate
  rootCv := self.rootCv crate
  hashChunks := self.hashChunks crate
  combineLayer := self.combineLayer crate

abbrev IndexSet := OrderedList (fun i : Nat => i)
abbrev NodeMap (δ : Type) := OrderedList (Prod.fst : Nat × δ → Nat)

structure MerkleProof (δ : Type) where
  leafData : List Chunk
  leafIndices : List Nat
  totalLeaves : Nat
  root : δ
  siblings : List δ

structure MerkleTree (δ : Type) where
  key : Digest
  layers : List (List δ)
  data : List UInt8

namespace MerkleTree
variable {δ : Type}

def lastLayer (layers : List (List δ)) : List δ := layers.getLastD []

def combineAll (hasher : NodeHasher δ) (layers : List (List δ)) : List (List δ) :=
  Id.run <| whileLoop (fun layers => (lastLayer layers).length)
    (fun layers => decide (2 < (lastLayer layers).length))
    (fun layers => pure (layers ++ [hasher.combineLayer (lastLayer layers)])) layers

def build (hasher : NodeHasher δ) (key : Digest) (data : List UInt8) : MerkleTree δ :=
  if data.isEmpty then ⟨key, [[]], []⟩
  else if data.length ≤ chunkLen then ⟨key, [[hasher.hash data]], data⟩
  else
    let layers := combineAll hasher [hasher.hashChunks data]
    match lastLayer layers with
    | [left, right] => ⟨key, layers ++ [[hasher.rootCv left right]], data⟩
    | _ => ⟨key, layers, data⟩

def root [Inhabited δ] (self : MerkleTree δ) : Result δ :=
  match self.layers.getLast? with
  | some layer => index layer 0
  | none => .ok default

def numLeaves (self : MerkleTree δ) : Result Nat := do return (← index self.layers 0).length

def leafChunk (self : MerkleTree δ) (i : Nat) : Chunk :=
  ⟨(Blake3.chunkAt self.data i).rightpad chunkLen 0, by simp [Blake3.chunkAt, chunkLen]⟩

structure Opening (δ : Type) where
  level : Nat
  levelLen : Nat
  currentSet : IndexSet
  siblings : List δ

def openNode (levelNodes : List δ) (currentSet : IndexSet) (levelLen : Nat) (siblings : List δ) (i : Nat) :
    Result (List δ) := do
  if i % 2 = 1 then
    if !currentSet.contains (i - 1) then return siblings ++ [← index levelNodes (i - 1)]
    else return siblings
  else if !currentSet.contains (i + 1) && decide (i + 1 < levelLen) then
    return siblings ++ [← index levelNodes (i + 1)]
  else return siblings

def openLevel (self : MerkleTree δ) (opening : Opening δ) : Result (Opening δ) := do
  let levelNodes ← index self.layers opening.level
  let siblings ← opening.currentSet.entries.foldlM
    (openNode levelNodes opening.currentSet opening.levelLen) opening.siblings
  return ⟨opening.level + 1, divCeil opening.levelLen 2,
    .toSet (opening.currentSet.entries.map (· / 2)), siblings⟩

def openLevels (self : MerkleTree δ) (opening : Opening δ) : Result (Opening δ) :=
  whileLoop Opening.levelLen
    (fun opening => decide (1 < opening.levelLen) && !opening.currentSet.entries.isEmpty)
    (openLevel self) opening

def getMultileafProof [Inhabited δ] (self : MerkleTree δ) (leafIndices : List Nat) : Result (MerkleProof δ) := do
  assert (!leafIndices.isEmpty) "leaf_indices must be non-empty"
  let unique : IndexSet := .toSet leafIndices
  let totalLeaves ← self.numLeaves
  assert (unique.entries.getLast?.any (· < totalLeaves)) "leaf index out of bounds"
  let opening ← self.openLevels ⟨0, totalLeaves, unique, []⟩
  return ⟨unique.entries.map self.leafChunk, unique.entries, totalLeaves, ← self.root, opening.siblings⟩

def computeLeafIndicesFromRows (rowIndices : List Nat) (cols : Nat) : List Nat :=
  (OrderedList.toSet (rowIndices.flatMap fun row =>
    let first := row * cols / chunkLen
    let last := ((row + 1) * cols - 1) / chunkLen
    (List.range (last + 1 - first)).map (first + ·))).entries

def new (crate : Blake3Crate) (data : Slice) (key : Digest) : MerkleTree Digest :=
  build ((Blake3Hasher.withKey key).nodes crate) key data.bytes

end MerkleTree

namespace MerkleProof
variable {δ : Type}

def windowsIncrease : List Nat → Bool
  | first :: second :: rest => decide (first < second) && windowsIncrease (second :: rest)
  | _ => true

def sanityCheck (self : MerkleProof δ) : Result Unit := do
  ensure (!self.leafIndices.isEmpty) "leaf_indices must be non-empty"
  ensure (self.leafIndices.length == self.leafData.length)
    "leaf_indices and leaf_data must have the same length"
  ensure (windowsIncrease self.leafIndices) "leaf_indices must be sorted and unique"

def leafHashes (hasher : NodeHasher δ) (self : MerkleProof δ) : List δ :=
  List.zipWith (fun idx data => hasher.chunkCv data.bytes idx.toUInt64) self.leafIndices self.leafData

structure Walk (δ : Type) where
  levelLen : Nat
  current : NodeMap δ
  siblings : List δ

def nextSibling : List δ → Option (δ × List δ)
  | sibling :: rest => some (sibling, rest)
  | [] => none

def climbNode (hasher : NodeHasher δ) (current : NodeMap δ) (levelLen : Nat)
    (state : NodeMap δ × List δ) (entry : Nat × δ) : Option (NodeMap δ × List δ) :=
  let (next, siblings) := state
  let (i, cv) := entry
  if i % 2 = 0 then
    match current.find? (i + 1) with
    | some (_, right) => some (next.insert (i / 2, hasher.parentCv cv right), siblings)
    | none =>
      if i + 1 < levelLen then do
        let (right, siblings) ← nextSibling siblings
        some (next.insert (i / 2, hasher.parentCv cv right), siblings)
      else some (next.insert (i / 2, cv), siblings)
  else if current.contains (i - 1) then some (next, siblings)
  else do
    let (left, siblings) ← nextSibling siblings
    some (next.insert (i / 2, hasher.parentCv left cv), siblings)

def climbLevel (hasher : NodeHasher δ) (walk : Walk δ) : Option (Walk δ) := do
  let (next, siblings) ← walk.current.entries.foldlM
    (climbNode hasher walk.current walk.levelLen) (.empty, walk.siblings)
  some ⟨divCeil walk.levelLen 2, next, siblings⟩

def nodeOrSibling (current : NodeMap δ) (i : Nat) (siblings : List δ) : Option (δ × List δ) :=
  match current.find? i with
  | some (_, cv) => some (cv, siblings)
  | none => nextSibling siblings

/-- The loop of `compute_root` and the two nodes below the root, with what is left of `sib_iter`. -/
def climb (hasher : NodeHasher δ) (walk : Walk δ) : Option (δ × δ × List δ) := do
  let walk ← whileLoop Walk.levelLen (fun walk => decide (2 < walk.levelLen)) (climbLevel hasher) walk
  let (left, siblings) ← nodeOrSibling walk.current 0 walk.siblings
  let (right, siblings) ← nodeOrSibling walk.current 1 siblings
  some (left, right, siblings)

theorem climb_decreases (hasher : NodeHasher δ) :
    Decreases Walk.levelLen (fun walk => decide (2 < walk.levelLen)) (climbLevel hasher) := by
  apply Decreases.of_option
  · intro walk running
    have large := of_decide_eq_true running
    omega
  · intro walk after running result
    have large := of_decide_eq_true running
    obtain ⟨state, -, result⟩ := Option.bind_eq_some_iff.mp result
    cases result
    exact halfUp_lt (by omega)

theorem climb_of_large (hasher : NodeHasher δ) {n : Nat} (large : 2 < n) (current : NodeMap δ) (siblings : List δ) :
    climb hasher ⟨n, current, siblings⟩ = climbLevel hasher ⟨n, current, siblings⟩ >>= climb hasher := by
  have running : decide (2 < n) = true := decide_eq_true large
  conv_lhs => unfold climb
  rw [whileLoop_step (climb_decreases hasher) _ running]
  cases climbLevel hasher ⟨n, current, siblings⟩ <;> rfl

theorem climb_of_small (hasher : NodeHasher δ) {n : Nat} (small : n ≤ 2) (current : NodeMap δ) (siblings : List δ) :
    climb hasher ⟨n, current, siblings⟩ = (do
      let (left, siblings) ← nodeOrSibling current 0 siblings
      let (right, siblings) ← nodeOrSibling current 1 siblings
      some (left, right, siblings)) := by
  have stopped : decide (2 < n) = false := decide_eq_false (by omega)
  unfold climb
  rw [whileLoop_stop (⟨n, current, siblings⟩ : Walk δ) stopped]
  rfl

def leaves (hasher : NodeHasher δ) (self : MerkleProof δ) : NodeMap δ :=
  .collect _ (self.leafIndices.zip (self.leafHashes hasher))

def recomputeRoot (hasher : NodeHasher δ) (self : MerkleProof δ) : Result (Option δ) :=
  if self.leafIndices.isEmpty then .ok none
  else if self.totalLeaves = 1 then
    if self.siblings.isEmpty then
      match (self.leaves hasher).find? 0 with
      | some (_, cv) => .ok (some cv)
      -- `current[&0]` panics on a missing key
      | none => .error (.panic "no entry found for key")
    else .ok none
  else .ok do
    let (left, right, siblings) ← climb hasher ⟨self.totalLeaves, self.leaves hasher, self.siblings⟩
    if siblings.isEmpty then some (hasher.rootCv left right) else none

def computeRoot (crate : Blake3Crate) (self : MerkleProof Digest) (key : Digest) : Result (Option Digest) :=
  self.recomputeRoot ((Blake3Hasher.withKey key).nodes crate)

def verify (crate : Blake3Crate) (self : MerkleProof Digest) (key : Digest) : Result Bool := do
  return (← self.computeRoot crate key) == some self.root

end MerkleProof
end ArcMiner.PearlBlake3
