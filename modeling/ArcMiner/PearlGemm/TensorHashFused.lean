import ArcMiner.AkoyaCrypto.LcgInt7
import ArcMiner.Library.XorFold
import ArcMiner.PearlGemm.TensorHash

/-! `launch_lcg_int7_fill` and `parallel_tensor_hash_fused`: the signal matrix and its root on the device.

The fused kernel hashes the matrix while it generates it and keeps only the part
below `write_limit`. A `long` has 64 bits here.
-/

namespace ArcMiner.PearlGemm

open Library B3 AkoyaCrypto List Nat LcgInt7

def splitmix (z : UInt64) : UInt64 :=
  let z := z + 0x9E3779B97F4A7C15
  let z := (z ^^^ (z >>> 30)) * 0xBF58476D1CE4E5B9
  let z := (z ^^^ (z >>> 27)) * 0x94D049BB133111EB
  z ^^^ (z >>> 31)

/-- The remainder modulo 127 of a byte, by two conditional subtractions. -/
def mod127 (v : UInt32) : UInt32 :=
  let v := if 127 ≤ v then v - 127 else v
  if 127 ≤ v then v - 127 else v

def centred (v : UInt32) : UInt8 := UInt8.ofInt (v.toNat - 63)

def int7Byte (z : UInt64) (b : Nat) : UInt8 := centred (mod127 ((z >>> (b * 8).toUInt64) &&& 0xFF).toUInt32)

/-- Work item `i` of `KLcg`: eight bytes in one store, and for the first item the tail. -/
def lcgStores (n : Nat) (base : UInt64) (i : Nat) : List (Nat × UInt8) :=
  let n8 := n / 8
  let whole :=
    if i < n8 then
      let packed := packBytes (int7Byte (splitmix (base + i.toUInt64))) 8
      (range 8).map fun b => (i * 8 + b, longByte packed b)
    else []
  let tail :=
    if i = 0 ∧ n % 8 ≠ 0 then
      let z := splitmix (base + n8.toUInt64)
      (range (n - n8 * 8)).map fun b => (n8 * 8 + b, int7Byte z b)
    else []
  whole ++ tail

def lcgItems (n : Nat) : Nat :=
  let blk := int32 ((n / 8 + 63) / 64 : Nat)
  let blk := if blk < 1 then 1 else blk
  sizeT blk * 64

def launchLcgInt7Fill (schedule : Schedule) (n : Nat) (base : UInt64) (out : Nat → UInt8) : Nat → UInt8 :=
  parallelFor schedule (lcgItems n) (fun i => storeAll (lcgStores n base i)) out

/-- `v0` to `v7` of the fused kernel; the last one is not masked. -/
def fusedByte (z : UInt64) (b : Nat) : UInt8 :=
  centred (mod127 (if b = 7 then (z >>> 56).toUInt32 else ((z >>> (b * 8).toUInt64) &&& 0xFF).toUInt32))

/-- Word `j` of block `b` of chunk `i`: `val_low` or `val_high` of one draw. -/
def fusedWord (base : UInt64) (i b j : Nat) : UInt32 :=
  let z := splitmix (base + (i * 128 + b * 8 + j / 2).toUInt64)
  if j % 2 = 0 then leWord (fusedByte z 0) (fusedByte z 1) (fusedByte z 2) (fusedByte z 3)
  else leWord (fusedByte z 4) (fusedByte z 5) (fusedByte z 6) (fusedByte z 7)

def fusedLeafCv (base : UInt64) (key : Option Node) (nchunks i : Nat) : Node :=
  (range 16).foldl (fun cv b =>
    let f := keyFlag key
    let f := if b = 0 then f ||| chunkStart else f
    let f := if b = 15 then (if nchunks == 1 then f ||| chunkEnd ||| root else f ||| chunkEnd) else f
    compress cv (Vector.ofFn fun j => fusedWord base i b j.val) i.toUInt64 64 f) (initCv key)

/-- What work item `i` of `KBlakeLeavesFused` stores to the matrix, word by word. -/
def fusedStores (base : UInt64) (nchunks writeLimit i : Nat) : List (Nat × UInt8) :=
  let off := i * 1024
  if nchunks ≤ i then []
  else if off < writeLimit then
    (range 16).flatMap fun b => (range 16).flatMap fun j => (range 4).map fun k =>
      (off + (b * 64 + (j * 4 + k)), wordByte (fusedWord base i b j) k)
  else []

structure FusedOutput where
  data : Nat → UInt8
  hashes : HashOutput

/-- The leaf kernel stores to the matrix and to the scratch buffer and reads neither. -/
def parallelTensorHashFused (schedules : Nat → Schedule) (data : Nat → UInt8) (len : Nat) (key : Option Node)
    (scratch : Scratch) (base : UInt64) (writeLimit : Nat) : FusedOutput :=
  let nchunks := chunksOf len
  let scratch := parallelFor (schedules 0) (globalSize nchunks)
    (storeItem 0 nchunks fun i _ => fusedLeafCv base key nchunks i) scratch
  { data := parallelFor (schedules 0) (globalSize nchunks) (fun i => storeAll (fusedStores base nchunks writeLimit i)) data
    hashes := hashLeaves schedules key nchunks scratch }

def lcgByte (base : UInt64) (p : Nat) : UInt8 := (entry base p).toUInt8

theorem splitmix_eq (z : UInt64) : splitmix z = splitMix64 z := rfl

theorem mod127_eq {v : UInt32} (byte : v.toNat ≤ 255) : mod127 v = v % 127 := by
  have step {w : UInt32} (large : 127 ≤ w) : (w - 127).toNat = w.toNat - 127 :=
    UInt32.toNat_sub_of_le _ _ large
  apply UInt32.toNat_inj.mp
  unfold mod127
  simp only [UInt32.le_iff_toNat_le, UInt32.toNat_mod, UInt32.reduceToNat] at step ⊢
  split_ifs with first second
  · rw [step second, step first]
    rw [step first] at second
    omega
  · rw [step first]
    rw [step first] at second
    omega
  · omega

theorem centred_eq (v : UInt32) : centred v = (Int8.ofInt (v.toNat - 63)).toUInt8 := by
  unfold centred
  generalize (v.toNat : Int) - 63 = x
  have signed : (Int8.ofInt x).toUInt8.toNat = (x % 2 ^ 8).toNat := BitVec.toNat_ofInt x
  apply UInt8.toNat_inj.mp
  rw [signed, UInt8.ofInt, UInt8.toNat_ofNat']
  omega

theorem toNat_masked (z : UInt64) (b : Nat) : ((z >>> (b * 8).toUInt64) &&& 0xFF).toUInt32.toNat ≤ 255 := by
  have masked : ((z >>> (b * 8).toUInt64) &&& 0xFF).toNat ≤ 255 := by
    rw [UInt64.toNat_and]
    exact and_le_right
  rw [UInt64.toNat_toUInt32]
  omega

theorem int7Byte_eq (z : UInt64) (b : Nat) : int7Byte z b = (int7 z b).toUInt8 := by
  rw [int7Byte, mod127_eq (toNat_masked z b), centred_eq, int7]

theorem fusedByte_eq (z : UInt64) (b : Nat) : fusedByte z b = int7Byte z b := by
  unfold fusedByte int7Byte
  by_cases top : b = 7
  · have small : (z >>> 56).toNat < 256 := by
      have bound := z.toNat_lt
      rw [UInt64.toNat_shiftRight]
      simp only [UInt64.reduceToNat, reduceMod, shiftRight_eq_div_pow]
      omega
    have mask : (z >>> 56) &&& (0xFF : UInt64) = z >>> 56 := by
      apply UInt64.toNat_inj.mp
      rw [UInt64.toNat_and]
      exact (and_two_pow_sub_one_eq_mod _ 8).trans (mod_eq_of_lt small)
    rw [if_pos top, top, show (7 * 8 : Nat).toUInt64 = (56 : UInt64) from rfl, mask]
  · rw [if_neg top]

theorem fusedWord_eq (base : UInt64) (i b j : Nat) {p : Nat} (place : p = i * 1024 + (b * 64 + j * 4)) :
    fusedWord base i b j = leWord (lcgByte base p) (lcgByte base (p + 1)) (lcgByte base (p + 2)) (lcgByte base (p + 3)) := by
  have byte (k : Nat) (small : k < 4) : fusedByte (splitmix (base + (i * 128 + b * 8 + j / 2).toUInt64)) (j % 2 * 4 + k) =
      lcgByte base (p + k) := by
    have quotient : (p + k) / 8 = i * 128 + b * 8 + j / 2 := by omega
    have rest : (p + k) % 8 = j % 2 * 4 + k := by omega
    rw [fusedByte_eq, int7Byte_eq, splitmix_eq, lcgByte, entry, quotient, rest]
  have b0 := byte 0 (by decide)
  have b1 := byte 1 (by decide)
  have b2 := byte 2 (by decide)
  have b3 := byte 3 (by decide)
  simp only [fusedWord]
  rcases mod_two_eq_zero_or_one j with even | odd
  · rw [even] at b0 b1 b2 b3
    rw [if_pos even, ← b1, ← b2, ← b3, ← Nat.add_zero p, ← b0]
  · rw [odd] at b0 b1 b2 b3
    rw [if_neg (by omega), ← b1, ← b2, ← b3, ← Nat.add_zero p, ← b0]

section leaves
variable (base : UInt64) {n : Nat}

theorem fusedBlock_eq {i b : Nat} (chunk : i < n) (block : b < 16) :
    (Vector.ofFn fun j : Fin 16 => fusedWord base i b j.val) =
      loadBlock (((tabulate (lcgByte base) (n * 1024)).drop (i * 1024)).drop (b * 64)) := by
  apply Vector.ext
  intro j bound
  have byte {p : Nat} (inside : p < n * 1024) : (tabulate (lcgByte base) (n * 1024)).getD p 0 = lcgByte base p := by
    rw [getD_eq_getElem?_getD, getElem?_tabulate _ inside]
    rfl
  rw [Vector.getElem_ofFn, fusedWord_eq base i b j (Nat.add_assoc (i * 1024) (b * 64) (j * 4)), loadBlock, Vector.getElem_ofFn, drop_drop,
    Blake3.leWordAt_drop, leWordAt]
  dsimp only
  rw [byte (by omega), byte (by omega), byte (by omega), byte (by omega)]

theorem fusedLeafCv_eq (key : Option Node) {i : Nat} (chunk : i < n) :
    fusedLeafCv base key n i = leafCv (tabulate (lcgByte base) (n * 1024)) key n i := by
  unfold fusedLeafCv leafCv
  rw [if_pos (by rw [length_tabulate]; omega), chunkCv]
  refine foldl_ext _ _ _ fun cv b member => ?_
  rw [fusedBlock_eq base chunk (mem_range.mp member)]

end leaves

section stores
variable (base : UInt64)

theorem lcgStores_fill {n : Nat} (whole : n % 8 = 0) (size : Nat) :
    Fills size (lcgStores n base) (fun p => p < n ∧ p / 8 < size) (lcgByte base) := by
  have byte (i : Nat) {b : Nat} (inside : b < 8) :
      longByte (packBytes (int7Byte (splitmix (base + i.toUInt64))) 8) b = lcgByte base (i * 8 + b) := by
    have quotient : (i * 8 + b) / 8 = i := by omega
    have rest : (i * 8 + b) % 8 = b := by omega
    rw [longByte_packBytes _ inside, int7Byte_eq, splitmix_eq, lcgByte, entry, quotient, rest]
  have noTail (i : Nat) : ¬(i = 0 ∧ n % 8 ≠ 0) := fun tail => tail.2 whole
  constructor
  · intro i launched store member
    simp only [lcgStores, if_neg (noTail i), append_nil] at member
    split_ifs at member with inside
    · obtain ⟨b, small, rfl⟩ := mem_map.mp member
      have small := mem_range.mp small
      exact ⟨⟨by omega, by omega⟩, byte i small⟩
    · cases member
  · rintro p ⟨inside, launched⟩
    have place : p / 8 * 8 + p % 8 = p := div_add_mod' p 8
    refine ⟨p / 8, launched, ?_⟩
    simp only [lcgStores, if_neg (noTail (p / 8)), append_nil]
    rw [if_pos (by omega)]
    refine mem_map.mpr ⟨p % 8, mem_range.mpr (by omega), ?_⟩
    rw [byte (p / 8) (by omega), place]

theorem wordByte_fusedWord (i b j : Nat) {k p : Nat} (inside : k < 4) (place : p = i * 1024 + (b * 64 + j * 4)) :
    wordByte (fusedWord base i b j) k = lcgByte base (p + k) := by
  obtain ⟨w0, w1, w2, w3⟩ := wordByte_leWord (lcgByte base p) (lcgByte base (p + 1)) (lcgByte base (p + 2))
    (lcgByte base (p + 3))
  rw [fusedWord_eq base i b j place]
  have cases : k = 0 ∨ k = 1 ∨ k = 2 ∨ k = 3 := by omega
  rcases cases with rfl | rfl | rfl | rfl
  · exact w0
  · exact w1
  · exact w2
  · exact w3

theorem fusedStores_fill {n l : Nat} (within : l ≤ n) :
    Fills (globalSize n) (fusedStores base n (l * 1024)) (· < l * 1024) (lcgByte base) := by
  have place (i b j k : Nat) : i * 1024 + (b * 64 + (j * 4 + k)) = i * 1024 + (b * 64 + j * 4) + k := by ring
  constructor
  · intro i launched store member
    simp only [fusedStores] at member
    split_ifs at member with past kept
    · cases member
    · simp only [mem_flatMap, mem_map, mem_range] at member
      obtain ⟨b, block, j, word, k, small, rfl⟩ := member
      have chunk : i < l := by omega
      have inner : b * 64 + (j * 4 + k) < 1024 := by omega
      exact ⟨segment_lt inner chunk, by rw [wordByte_fusedWord base i b j small rfl, place]⟩
    · cases member
  · intro p inside
    have launched := le_globalSize n
    have chunk : p / 1024 < l := by omega
    have words : p % 64 / 4 * 4 + p % 4 = p % 64 := by omega
    have blocks : p % 1024 / 64 * 64 + p % 64 = p % 1024 := by omega
    have chunks := div_add_mod' p 1024
    refine ⟨p / 1024, by omega, ?_⟩
    simp only [fusedStores]
    rw [if_neg (by omega), if_pos (Nat.mul_lt_mul_of_pos_right chunk (by decide))]
    simp only [mem_flatMap, mem_map, mem_range]
    refine ⟨p % 1024 / 64, by omega, p % 64 / 4, by omega, p % 4, by omega, ?_⟩
    rw [wordByte_fusedWord base _ _ _ (mod_lt p (by decide)) rfl, ← place, words, blocks, chunks]

end stores

theorem hashLeaves_congr (key : Digest) (schedules others : Nat → Schedule) {n : Nat} (positive : 0 < n)
    {scratch other : Scratch} (same : ∀ i < n, scratch i = other i) :
    hashLeaves schedules (some (keyWords key)) n scratch = hashLeaves others (some (keyWords key)) n other := by
  have leaves : (hashLeaves schedules (some (keyWords key)) n scratch).leafCvs =
      (hashLeaves others (some (keyWords key)) n other).leafCvs := by
    unfold hashLeaves
    dsimp only
    rw [flatMap_def, flatMap_def]
    refine congrArg flatten (map_congr_left fun i member => ?_)
    rw [same i (mem_range.mp member)]
  have roots : (hashLeaves schedules (some (keyWords key)) n scratch).out =
      (hashLeaves others (some (keyWords key)) n other).out := by
    rcases (show n = 1 ∨ 2 ≤ n by omega) with single | large
    · simp only [hashLeaves]
      rw [if_pos single, if_pos single, same 0 positive]
    · rw [hashLeaves_out key schedules large scratch fun i inside => congrArg cvToBytes (same i inside),
        hashLeaves_out key others large other fun i _ => rfl]
  generalize hashLeaves schedules (some (keyWords key)) n scratch = a at leaves roots ⊢
  generalize hashLeaves others (some (keyWords key)) n other = b at leaves roots ⊢
  cases a
  cases b
  simp only at leaves roots
  rw [leaves, roots]

theorem lcgItems_whole {n : Nat} (positive : 0 < n) (fits : n < 2 ^ 30) : lcgItems (n * 1024) = n * 128 := by
  have blocks : int32 ((n * 1024 / 8 + 63) / 64 : Nat) = ((2 * n : Nat) : Int) := by
    have count : (n * 1024 / 8 + 63) / 64 = 2 * n := by omega
    rw [count, int32_of_fits (by omega) (by omega)]
  unfold lcgItems
  simp only [blocks]
  rw [if_neg (by omega), sizeT_natCast (by omega)]
  omega

theorem hashes_fused (schedules others : Nat → Schedule) (data : Nat → UInt8) (base : UInt64) (key : Digest) {n : Nat}
    (positive : 0 < n) (scratch other : Scratch) (limit : Nat) :
    (parallelTensorHashFused schedules data (n * 1024) (some (keyWords key)) scratch base limit).hashes =
      parallelTensorHash others (tabulate (lcgByte base) (n * 1024)) (some (keyWords key)) other := by
  have length : (tabulate (lcgByte base) (n * 1024)).length = n * 1024 := length_tabulate _ _
  have count : chunksOf (n * 1024) = n := length ▸ chunksOf_whole length positive
  obtain ⟨filled, stored, same⟩ := parallelTensorHash_whole key length positive others other
  rw [same]
  unfold parallelTensorHashFused
  rw [count]
  refine hashLeaves_congr key schedules others positive fun i inside => ?_
  rw [parallelFor_storeItem (fun _ _ _ _ _ => rfl) (le_globalSize n), if_pos (by omega), Nat.sub_zero,
    fusedLeafCv_eq base _ inside, stored i inside]

/-- The fused kernel agrees with the fill followed by the hash, and keeps exactly the bytes below its limit. -/
theorem fused_hash_agrees (schedules others : Nat → Schedule) (filling : Schedule) (seedLo seedHi : UInt64)
    (key : Digest) {n l : Nat} (positive : 0 < n) (fits : n * 1024 < 2 ^ 40) (within : l ≤ n)
    (data matrix : Nat → UInt8) (scratch other : Scratch) : let base := splitmix (seedLo ^^^ splitmix seedHi)
    let fused := parallelTensorHashFused schedules data (n * 1024) (some (keyWords key)) scratch base (l * 1024)
    let filled := tabulate (launchLcgInt7Fill filling (n * 1024) base matrix) (n * 1024)
    fused.hashes = parallelTensorHash others filled (some (keyWords key)) other ∧
    filled = (fill (n * 1024) seedLo seedHi).map Int8.toUInt8 ∧
    ∀ p, fused.data p = if p < l * 1024 then lcgByte base p else data p := by
  intro base fused filled
  have bytes : filled = tabulate (lcgByte base) (n * 1024) := by
    refine tabulate_congr fun p inside => ?_
    unfold launchLcgInt7Fill
    rw [lcgItems_whole (by omega) (by omega)]
    exact parallelFor_of_covered (lcgStores_fill base (by omega) (n * 128)) filling matrix ⟨inside, by omega⟩
  refine ⟨?_, ?_, fun p => ?_⟩
  · rw [bytes]
    exact hashes_fused schedules others data base key positive scratch other (l * 1024)
  · rw [bytes, fill_eq, tabulate, tabulate, map_map]
    rfl
  · have count : chunksOf (n * 1024) = n := by
      unfold chunksOf
      omega
    have fills := fusedStores_fill base within
    change parallelFor (schedules 0) (globalSize (chunksOf (n * 1024)))
      (fun i => storeAll (fusedStores base (chunksOf (n * 1024)) (l * 1024) i)) data p = _
    rw [count]
    split
    next kept => exact parallelFor_of_covered fills (schedules 0) data kept
    next dropped => exact parallelFor_of_not_covered fills (schedules 0) data dropped

theorem leaf_of_leafCvs (schedules others : Nat → Schedule) (key : Option Node) {n : Nat} {scratch other : Scratch}
    (same : (hashLeaves schedules key n scratch).leafCvs = (hashLeaves others key n other).leafCvs) {i : Nat}
    (inside : i < n) : cvToBytes (scratch i) = cvToBytes (other i) := by
  -- byte `p` of the table is byte `p % 32` of entry `p / 32`
  have table (scratch : Scratch) : ((range n).flatMap fun i => (cvToBytes (scratch i)).toList) =
      tabulate (fun p => (cvToBytes (scratch (p / 32))).toList.getD (p % 32) 0) (n * 32) := by
    rw [← flatMap_blocks]
    refine congrArg flatten (map_congr_left fun i _ => ?_)
    have entry : ∀ b < 32, (cvToBytes (scratch ((i * 32 + b) / 32))).toList.getD ((i * 32 + b) % 32) 0 =
        (cvToBytes (scratch i)).toList.getD b default := by
      intro b small
      have quotient : (i * 32 + b) / 32 = i := by omega
      have rest : (i * 32 + b) % 32 = b := by omega
      rw [quotient, rest]
      rfl
    rw [tabulate_congr entry]
    have whole := tabulate_getD (cvToBytes (scratch i)).toList
    rw [Vector.length_toList] at whole
    exact whole.symm
  have tables : tabulate (fun p => (cvToBytes (scratch (p / 32))).toList.getD (p % 32) 0) (n * 32) =
      tabulate (fun p => (cvToBytes (other (p / 32))).toList.getD (p % 32) 0) (n * 32) := by
    rw [← table scratch, ← table other]
    exact same
  apply Vector.ext
  intro b small
  have place : i * 32 + b < n * 32 := segment_lt small inside
  have bytes := congrArg (·[i * 32 + b]?) tables
  simp only [getElem?_tabulate _ place, Option.some.injEq, segment_div small, segment_mod small] at bytes
  rw [getD_eq_getElem _ _ (by rw [Vector.length_toList]; exact small),
    getD_eq_getElem _ _ (by rw [Vector.length_toList]; exact small), Vector.getElem_toList,
    Vector.getElem_toList] at bytes
  exact bytes

theorem chunkAt_tabulate (f : Nat → UInt8) {n i : Nat} (inside : i < n) :
    Blake3.chunkAt (tabulate f (n * 1024)) i = tabulate (fun p => f (1024 * i + p)) 1024 := by
  apply ext_getElem?
  intro p
  simp only [Blake3.chunkAt, getElem?_take, getElem?_drop]
  by_cases small : p < 1024
  · rw [if_pos small, getElem?_tabulate _ (by omega), getElem?_tabulate _ small]
  · rw [if_neg small, getElem?_eq_none (by rw [length_tabulate]; omega)]

section overflow
open Blake3 (zeroKey zeroChunk)

def zeroMatrix : Nat → UInt8 := fun _ => 0

def zeroScratch : Scratch := fun _ => Vector.replicate 8 0

def zeroBase : UInt64 := splitmix (0 ^^^ splitmix 0)

/-- At 2^40 bytes the number of blocks no longer fits and only 64 items run. -/
theorem lcgItems_overflow : lcgItems (2 ^ 30 * 1024) = 64 := by decide +kernel

theorem launchLcgInt7Fill_overflow {p : Nat} (past : 512 ≤ p) :
    launchLcgInt7Fill .ascending (2 ^ 30 * 1024) zeroBase zeroMatrix p = 0 := by
  unfold launchLcgInt7Fill
  rw [lcgItems_overflow]
  exact parallelFor_of_not_covered (lcgStores_fill zeroBase (by decide) 64) _ _ fun covered => by omega

theorem chunkCv_lcg_second : Blake3.chunkCv (.keyed zeroKey) 1 (tabulate (fun p => lcgByte zeroBase (1024 * 1 + p)) 1024) ≠
    Blake3.chunkCv (.keyed zeroKey) 1 zeroChunk := by
  rw [Blake3.chunkCv_zero_second]
  decide +kernel

/-- Two passes over 2^40 bytes hash a matrix that was mostly not filled. -/
theorem fused_hash_overflow :
    (parallelTensorHashFused (fun _ => .ascending) zeroMatrix (2 ^ 30 * 1024) (some (keyWords zeroKey)) zeroScratch
        zeroBase 0).hashes ≠
      parallelTensorHash (fun _ => .ascending)
        (tabulate (launchLcgInt7Fill .ascending (2 ^ 30 * 1024) zeroBase zeroMatrix) (2 ^ 30 * 1024))
        (some (keyWords zeroKey)) zeroScratch := by
  generalize size : 2 ^ 30 = n
  have large : 2 ≤ n := by omega
  have unfilled : ∀ p, 512 ≤ p → launchLcgInt7Fill .ascending (n * 1024) zeroBase zeroMatrix p = 0 := fun p past =>
    size ▸ launchLcgInt7Fill_overflow past
  intro same
  rw [hashes_fused (fun _ => .ascending) (fun _ => .ascending) zeroMatrix zeroBase zeroKey (by omega) zeroScratch
    zeroScratch 0] at same
  obtain ⟨generated, storedGenerated, hashed⟩ := parallelTensorHash_whole zeroKey
    (length_tabulate (lcgByte zeroBase) (n * 1024)) (by omega) (fun _ => .ascending) zeroScratch
  obtain ⟨filled, storedFilled, rehashed⟩ := parallelTensorHash_whole zeroKey
    (length_tabulate (launchLcgInt7Fill .ascending (n * 1024) zeroBase zeroMatrix) (n * 1024)) (by omega)
    (fun _ => .ascending) zeroScratch
  rw [hashed, rehashed] at same
  have second := leaf_of_leafCvs _ _ _ (congrArg HashOutput.leafCvs same) (show 1 < n by omega)
  rw [storedGenerated 1 (by omega), storedFilled 1 (by omega),
    leafCv_many zeroKey (length_tabulate _ _) large (by omega), leafCv_many zeroKey (length_tabulate _ _) large (by omega),
    Blake3.chunkCvAt, Blake3.chunkCvAt, chunkAt_tabulate _ (by omega), chunkAt_tabulate _ (by omega)] at second
  refine chunkCv_lcg_second (second.trans ?_)
  refine congrArg (Blake3.chunkCv (.keyed zeroKey) 1) ?_
  rw [tabulate_congr fun p _ => unfilled (1024 * 1 + p) (by omega), tabulate, map_const', length_range, zeroChunk]

theorem fused_hash_agrees_three : let base := splitmix (0 ^^^ splitmix 0)
    let fused := parallelTensorHashFused (fun _ => .ascending) zeroMatrix (3 * 1024) (some (keyWords zeroKey)) zeroScratch
      base (2 * 1024)
    let filled := tabulate (launchLcgInt7Fill .ascending (3 * 1024) base zeroMatrix) (3 * 1024)
    fused.hashes = parallelTensorHash (fun _ => .ascending) filled (some (keyWords zeroKey)) zeroScratch ∧
    filled = (fill (3 * 1024) 0 0).map Int8.toUInt8 ∧
    ∀ p, fused.data p = if p < 2 * 1024 then lcgByte base p else zeroMatrix p :=
  fused_hash_agrees (fun _ => .ascending) (fun _ => .ascending) .ascending 0 0 zeroKey (by decide) (by decide) (by decide)
    zeroMatrix zeroMatrix zeroScratch zeroScratch

end overflow
end ArcMiner.PearlGemm
