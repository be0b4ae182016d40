import ArcMiner.AkoyaCrypto.Blake3
import ArcMiner.Spec.Noise

/-! `Akoya.Crypto.NoiseGenerator`: noise rows on the host. -/

namespace ArcMiner.AkoyaCrypto.NoiseGenerator

open Library Library.CSharp List Except Spec

/-- `SeedLabels`: eight characters and 24 zeros. -/
def seedLabelA : List UInt8 := [0x41, 0x5F, 0x74, 0x65, 0x6E, 0x73, 0x6F, 0x72] ++ replicate 24 0

def seedLabelB : List UInt8 := [0x42, 0x5F, 0x74, 0x65, 0x6E, 0x73, 0x6F, 0x72] ++ replicate 24 0

def mulHiU32 (a b : UInt32) : UInt32 := ((a.toUInt64 * b.toUInt64) >>> 32).toUInt32

/-- The message of `GetRandomHash`: the counter at word `prependIndex`, then the seed at byte 32. -/
def randomMessage (counter : UInt32) (seed : List UInt8) (prependIndex : Nat) : List UInt8 :=
  (List.range 64).map fun i =>
    if 32 ≤ i then seed.getD (i - 32) 0
    else if 4 * prependIndex ≤ i ∧ i < 4 * prependIndex + 4 then wordByte counter (i - 4 * prependIndex)
    else 0

/-- `index` is a `uint`, and its successor is checked. -/
def getRandomHash (index : Nat) (seed : List UInt8) (key : Digest) (prependIndex : Nat) : Result Digest :=
  if 2 ^ 32 ≤ index + 1 then .error .overflow
  else HostBlake3.keyedHash key (randomMessage (index + 1).toUInt32 seed prependIndex)

def rowPart (hash : Digest) (block : Int) (startIndex endIndex : Nat) : List Int8 :=
  (List.range 32).filterMap fun (i : Nat) =>
    let absIdx := block * 32 + i
    if absIdx < startIndex ∨ endIndex ≤ absIdx then none
    else some (Int8.ofInt (((hash.toList.getD i 0) &&& 63).toNat - 32))

def uniformRow (seed : List UInt8) (key : Digest) (rowIndex numCols : Nat) : Result (List Int8) := do
  let startIndex := rowIndex * numCols
  let endIndex := startIndex + numCols
  let startBlock := int32 (startIndex / 32 : Nat)
  let endBlock := int32 ((endIndex + 32 - 1) / 32 : Nat)
  let parts ← (List.range (endBlock - startBlock).toNat).mapM fun (j : Nat) => do
    -- for large rows both bounds have wrapped, and the cast to `uint` turns a negative block around
    let block := startBlock + j
    let hash ← getRandomHash (block % 2 ^ 32).toNat seed key 0
    return rowPart hash block startIndex endIndex
  let written := parts.flatten
  -- the row has `numCols` places, zero unless written
  if numCols < written.length then .error .indexOutOfRange
  else return written ++ replicate (numCols - written.length) 0

def generateUniformRandomMatrix (seed : List UInt8) (key : Digest) (rowIndices : List Nat) (numCols : Nat) :
    Result (List (List Int8)) := rowIndices.mapM fun rowIndex => uniformRow seed key rowIndex numCols

structure PermutationPair where
  firstIndex : UInt32
  secondIndex : UInt32
deriving DecidableEq

instance : Inhabited PermutationPair := ⟨⟨0, 0⟩⟩

def permutationPair (noiseRank : Nat) (rand : UInt32) : PermutationPair :=
  let first := rand &&& (noiseRank - 1).toUInt32
  ⟨first, first ^^^ (1 + mulHiU32 (noiseRank - 1).toUInt32 rand)⟩

def generatePermutationMatrix (seed : List UInt8) (key : Digest) (k noiseRank : Nat) :
    Result (List PermutationPair) := do
  let chunks ← (List.range ((k + 8 - 1) / 8)).mapM fun chunk => do
    let hash ← getRandomHash chunk seed key 1
    let len := min 8 (k - chunk * 8)
    return (List.range len).map fun j => permutationPair noiseRank (leWordAt hash.toList (j * 4))
  return chunks.flatten

def applySparsePermutation (perm : List PermutationPair) (vector : List Int8) : Result (List Int8) :=
  perm.mapM fun p => do
    let first ← index vector (int32 p.firstIndex.toNat)
    let second ← index vector (int32 p.secondIndex.toNat)
    return Int8.ofInt (first.toInt - second.toInt)

def noiseRows (seed : List UInt8) (key : Digest) (rowIndices : List Nat) (k noiseRank : Nat) :
    Result (List (List Int8)) := do
  let uniform ← generateUniformRandomMatrix seed key rowIndices noiseRank
  let perm ← generatePermutationMatrix seed key k noiseRank
  uniform.mapM (applySparsePermutation perm)

theorem randomMessage_eq (counter : UInt32) (seed : List UInt8) (prependIndex : Nat) :
    randomMessage counter seed prependIndex = noiseMessage prependIndex counter seed := rfl

theorem getRandomHash_eq {index : Nat} (fits : index + 1 < 2 ^ 32) (seed : List UInt8) (key : Digest) (prependIndex : Nat) :
    getRandomHash index seed key prependIndex = .ok (noiseHash key prependIndex index seed) := by
  unfold getRandomHash
  rw [if_neg (by omega), randomMessage_eq,
    HostBlake3.keyedHash_eq key (by rw [length_noiseMessage]; decide)]
  rfl

theorem flatMap_rowPart (key : Digest) (seed : List UInt8) {first count startIndex endIndex : Nat}
    (below : first * 32 ≤ startIndex) (ordered : startIndex ≤ endIndex) (above : endIndex ≤ first * 32 + count * 32) :
    (range' first count).flatMap
        (fun block => rowPart (noiseHash key 0 block seed) (block : Nat) startIndex endIndex) =
      (range' startIndex (endIndex - startIndex)).map (uniform key seed) := by
  have block : ∀ block : Nat, rowPart (noiseHash key 0 block seed) block startIndex endIndex =
      ((((List.range 32).map fun i => block * 32 + i).filter
        fun x => startIndex ≤ x ∧ x < endIndex).map (uniform key seed)) := by
    intro block
    unfold rowPart
    rw [filter_map, map_map, ← filterMap_eq_map, filterMap_filter]
    refine filterMap_congr fun i member => ?_
    have inside := mem_range.mp member
    have quotient : (block * 32 + i) / 32 = block := by omega
    have place : (block * 32 + i) % 32 = i := by omega
    by_cases row : startIndex ≤ block * 32 + i ∧ block * 32 + i < endIndex
    · rw [if_neg (by omega)]
      simp [row, uniform, quotient, place]
    · rw [if_pos (by omega)]
      simp
      omega
  simp only [block]
  rw [← map_flatMap, ← filter_flatMap, flatMap_range'_blocks, filter_range' below ordered above]

theorem uniformRow_eq (seed : List UInt8) (key : Digest) {rowIndex numCols : Nat}
    (fits : rowIndex * numCols + numCols < 2 ^ 31) : uniformRow seed key rowIndex numCols =
      .ok (tabulate (fun j => uniform key seed (rowIndex * numCols + j)) numCols) := by
  generalize start : rowIndex * numCols = startIndex at fits
  have startBlock : int32 ((startIndex / 32 : Nat) : Int) = (startIndex / 32 : Nat) := int32_of_fits (by omega) (by omega)
  have endBlock : int32 (((startIndex + numCols + 32 - 1) / 32 : Nat) : Int) =
      ((startIndex + numCols + 32 - 1) / 32 : Nat) := int32_of_fits (by omega) (by omega)
  have count : (((startIndex + numCols + 32 - 1) / 32 : Nat) - (startIndex / 32 : Nat) : Int).toNat =
      (startIndex + numCols + 32 - 1) / 32 - startIndex / 32 := by omega
  have hashes : ((List.range ((startIndex + numCols + 32 - 1) / 32 - startIndex / 32)).mapM fun (j : Nat) => do
        let hash ← getRandomHash ((((startIndex / 32 : Nat) : Int) + j) % 2 ^ 32).toNat seed key 0
        return rowPart hash (((startIndex / 32 : Nat) : Int) + j) startIndex (startIndex + numCols)) =
      .ok ((List.range ((startIndex + numCols + 32 - 1) / 32 - startIndex / 32)).map fun j =>
        rowPart (noiseHash key 0 (startIndex / 32 + j) seed) (startIndex / 32 + j : Nat) startIndex
          (startIndex + numCols)) := by
    refine mapM_eq_ok fun j member => ?_
    have inside := mem_range.mp member
    have block : (((startIndex / 32 : Nat) : Int) + j) = (startIndex / 32 + j : Nat) := by omega
    have counter : (((startIndex / 32 + j : Nat) : Int) % 2 ^ 32).toNat = startIndex / 32 + j := by omega
    rw [block, counter, getRandomHash_eq (by omega), ok_bind]
    rfl
  have row : ((List.range ((startIndex + numCols + 32 - 1) / 32 - startIndex / 32)).map fun j =>
      rowPart (noiseHash key 0 (startIndex / 32 + j) seed) (startIndex / 32 + j : Nat) startIndex
        (startIndex + numCols)).flatten =
      (range' startIndex (startIndex + numCols - startIndex)).map (uniform key seed) := by
    have below : startIndex / 32 * 32 ≤ startIndex := by omega
    have above : startIndex + numCols ≤
        startIndex / 32 * 32 + ((startIndex + numCols + 32 - 1) / 32 - startIndex / 32) * 32 := by omega
    rw [← flatMap_rowPart key seed below (by omega) above, range'_eq_map_range, flatMap_map, flatMap_def]
  have entries : (range' startIndex numCols).map (uniform key seed) =
      tabulate (fun j => uniform key seed (startIndex + j)) numCols := by
    rw [range'_eq_map_range, map_map]
    rfl
  unfold uniformRow
  rw [start]
  simp only [startBlock, endBlock, count, hashes, ok_bind]
  rw [row, Nat.add_sub_cancel_left, entries, length_tabulate, if_neg (by omega), Nat.sub_self,
    replicate_zero, append_nil]
  rfl

theorem generatePermutationMatrix_eq (seed : List UInt8) (key : Digest) {k : Nat} (noiseRank : Nat) (fits : k < 2 ^ 31) :
    generatePermutationMatrix seed key k noiseRank =
      .ok (tabulate (fun l => permutationPair noiseRank (draw key seed l)) k) := by
  have hashes : ((List.range ((k + 8 - 1) / 8)).mapM fun chunk => do
      let hash ← getRandomHash chunk seed key 1
      let len := min 8 (k - chunk * 8)
      return (List.range len).map fun j => permutationPair noiseRank (leWordAt hash.toList (j * 4))) =
      .ok ((List.range ((k + 8 - 1) / 8)).map fun chunk => tabulate
        (fun j => permutationPair noiseRank (draw key seed (chunk * 8 + j))) (min 8 (k - chunk * 8))) := by
    refine mapM_eq_ok fun chunk member => ?_
    have inside := mem_range.mp member
    rw [getRandomHash_eq (by omega), ok_bind]
    refine congrArg ok (tabulate_congr fun j small => ?_)
    have quotient : (chunk * 8 + j) / 8 = chunk := by omega
    have place : 4 * ((chunk * 8 + j) % 8) = j * 4 := by omega
    rw [draw, quotient, place]
  unfold generatePermutationMatrix
  rw [hashes, ok_bind, ← flatMap_def,
    flatMap_segments (fun l => permutationPair noiseRank (draw key seed l)) (by decide) k]
  rfl

theorem permutationPair_eq (r : Nat) (u : UInt32) :
    permutationPair r u = ⟨firstIndex r u, secondIndex r u⟩ := rfl

theorem applySparsePermutation_eq (seed : List UInt8) (key : Digest) (k : Nat) {r e : Nat} (power : r = 2 ^ e)
    (fits : r < 2 ^ 31) (proper : 2 ≤ r) (row : Nat → Int8) :
    applySparsePermutation (tabulate (fun l => permutationPair r (draw key seed l)) k) (tabulate row r) =
      .ok (tabulate (noise key seed r row) k) := by
  have entry : ∀ i : UInt32, i.toNat < r → index (tabulate row r) (int32 i.toNat) = .ok (row i.toNat) := by
    intro i inside
    rw [int32_of_fits (by omega) (by omega), index_of_lt (by rw [length_tabulate]; exact inside),
      getD_eq_getElem?_getD, getElem?_tabulate row inside]
    rfl
  unfold applySparsePermutation tabulate
  rw [mapM_map]
  refine mapM_eq_ok fun l _ => ?_
  have first := entry _ (firstIndex_lt power fits (draw key seed l))
  have second := entry _ (secondIndex_lt power fits proper (draw key seed l))
  unfold tabulate at first second
  rw [Function.comp_apply, permutationPair_eq, first, ok_bind, second, ok_bind, noise, Int8.ofInt_sub,
    Int8.ofInt_toInt, Int8.ofInt_toInt]
  rfl

section range

def Bounded (bound : Nat) (row : List Int8) : Prop := ∀ x ∈ row, x.toInt.natAbs ≤ bound

variable {seed : List UInt8} {key : Digest}

theorem uniformRow_range {rowIndex numCols : Nat} {row : List Int8}
    (returned : uniformRow seed key rowIndex numCols = .ok row) : ∀ x ∈ row, -32 ≤ x.toInt ∧ x.toInt ≤ 31 := by
  obtain ⟨parts, hashed, finished⟩ := bind_eq_ok.mp returned
  dsimp only at finished
  split_ifs at finished
  obtain rfl := ok.inj finished
  intro x member
  rcases mem_append.mp member with written | zero
  · obtain ⟨part, inside, entry⟩ := mem_flatten.mp written
    obtain ⟨j, -, block⟩ := mem_mapM_ok hashed part inside
    obtain ⟨hash, -, same⟩ := bind_eq_ok.mp block
    obtain rfl := ok.inj same
    obtain ⟨i, -, written⟩ := mem_filterMap.mp entry
    dsimp only at written
    split_ifs at written
    obtain rfl := Option.some.inj written
    exact sixBits_range _
  · rw [eq_of_mem_replicate zero]
    decide

theorem generatePermutationMatrix_range {k r e : Nat} (power : r = 2 ^ e)
    (fits : r < 2 ^ 31) (proper : 2 ≤ r) {perm : List PermutationPair}
    (returned : generatePermutationMatrix seed key k r = .ok perm) :
    ∀ p ∈ perm, p.firstIndex ≠ p.secondIndex ∧ p.firstIndex.toNat < r ∧ p.secondIndex.toNat < r := by
  obtain ⟨chunks, hashed, same⟩ := bind_eq_ok.mp returned
  obtain rfl := ok.inj same
  intro p member
  obtain ⟨chunk, inside, entry⟩ := mem_flatten.mp member
  obtain ⟨c, -, drawn⟩ := mem_mapM_ok hashed chunk inside
  obtain ⟨hash, -, made⟩ := bind_eq_ok.mp drawn
  obtain rfl := ok.inj made
  obtain ⟨j, -, rfl⟩ := mem_map.mp entry
  rw [permutationPair_eq]
  exact ⟨fun same => firstIndex_ne power fits proper _ (congrArg UInt32.toNat same),
    firstIndex_lt power fits _, secondIndex_lt power fits proper _⟩

theorem mem_of_index {row : List Int8} {i : Int} {x : Int8} (read : index row i = .ok x) : x ∈ row := by
  unfold index at read
  split_ifs at read
  cases found : row[i.toNat]? with
  | none => rw [found] at read; cases read
  | some value =>
    rw [found] at read
    obtain rfl := ok.inj read
    exact mem_of_getElem? found

theorem noiseRows_bounded {rowIndices : List Nat} {k r : Nat}
    {noise : List (List Int8)} (returned : noiseRows seed key rowIndices k r = .ok noise) :
    ∀ row ∈ noise, Bounded 63 row := by
  obtain ⟨uniform, generated, returned⟩ := bind_eq_ok.mp returned
  obtain ⟨perm, -, returned⟩ := bind_eq_ok.mp returned
  intro row member
  obtain ⟨vector, inside, applied⟩ := mem_mapM_ok returned row member
  obtain ⟨rowIndex, -, own⟩ := mem_mapM_ok generated vector inside
  intro x entry
  obtain ⟨p, -, made⟩ := mem_mapM_ok applied x entry
  obtain ⟨first, atFirst, made⟩ := bind_eq_ok.mp made
  obtain ⟨second, atSecond, made⟩ := bind_eq_ok.mp made
  obtain rfl := ok.inj made
  have low := uniformRow_range own first (mem_of_index atFirst)
  have high := uniformRow_range own second (mem_of_index atSecond)
  rw [Int8.toInt_ofInt_of_le (by omega) (by omega)]
  omega

theorem length_noiseRows {rowIndices : List Nat} {k r : Nat} (columns : k < 2 ^ 31)
    {noise : List (List Int8)} (returned : noiseRows seed key rowIndices k r = .ok noise) :
    noise.length = rowIndices.length ∧ ∀ row ∈ noise, row.length = k := by
  obtain ⟨uniform, generated, returned⟩ := bind_eq_ok.mp returned
  rw [generatePermutationMatrix_eq seed key r columns, ok_bind] at returned
  refine ⟨(length_mapM_ok returned).trans (length_mapM_ok generated), fun row member => ?_⟩
  obtain ⟨vector, -, applied⟩ := mem_mapM_ok returned row member
  exact (length_mapM_ok applied).trans (length_tabulate _ _)

end range

def uniformFactor (key : Digest) (seed : List UInt8) (r row a : Nat) : Int8 := uniform key seed (row * r + a)

theorem generateUniformRandomMatrix_eq (seed : List UInt8) (key : Digest) {rowIndices : List Nat} {numCols : Nat}
    (fits : ∀ row ∈ rowIndices, row * numCols + numCols < 2 ^ 31) :
    generateUniformRandomMatrix seed key rowIndices numCols =
      .ok (rowIndices.map fun row => tabulate (uniformFactor key seed numCols row) numCols) :=
  mapM_eq_ok fun row member => uniformRow_eq seed key (fits row member)

theorem noiseRows_eq (seed : List UInt8) (key : Digest) {rowIndices : List Nat} {k r e : Nat} (power : r = 2 ^ e)
    (proper : 2 ≤ r) (columns : k < 2 ^ 31) (rank : r < 2 ^ 31) (fits : ∀ row ∈ rowIndices, row * r + r < 2 ^ 31) :
    noiseRows seed key rowIndices k r =
      .ok (rowIndices.map fun row => tabulate (noise key seed r (uniformFactor key seed r row)) k) := by
  unfold noiseRows
  rw [generateUniformRandomMatrix_eq seed key fits, ok_bind, generatePermutationMatrix_eq seed key r columns, ok_bind,
    mapM_map]
  exact mapM_eq_ok fun row _ => applySparsePermutation_eq seed key k power rank proper (uniformFactor key seed r row)

/-- With rank one the second index is past the only entry. -/
theorem permutationPair_one (rand : UInt32) : permutationPair 1 rand = ⟨0, 1⟩ := by
  simp [permutationPair, mulHiU32]

theorem applySparsePermutation_rank_one (x : Int8) : applySparsePermutation [⟨0, 1⟩] [x] = .error .indexOutOfRange := by
  have first : int32 ((0 : UInt32).toNat : Int) = 0 := int32_of_fits (by decide) (by decide)
  have second : int32 ((1 : UInt32).toNat : Int) = 1 := int32_of_fits (by decide) (by decide)
  rw [applySparsePermutation, mapM_cons, first, second]
  rfl

theorem noiseRows_rank_one (seed : List UInt8) (key : Digest) : noiseRows seed key [0] 1 1 = .error .indexOutOfRange := by
  unfold noiseRows
  rw [generateUniformRandomMatrix_eq seed key (by simp), ok_bind, generatePermutationMatrix_eq seed key 1 (by decide), ok_bind]
  simp only [permutationPair_one]
  change [[uniformFactor key seed 1 0 0]].mapM (applySparsePermutation [⟨0, 1⟩]) = _
  rw [mapM_cons, applySparsePermutation_rank_one]
  rfl

end ArcMiner.AkoyaCrypto.NoiseGenerator
