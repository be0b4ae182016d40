import ArcMiner.AkoyaCrypto.MerkleRoot
import ArcMiner.Library.Kernel
import ArcMiner.Library.TreeCalls
import ArcMiner.PearlGemm.Blake3Device

/-! `parallel_tensor_hash`: the Merkle root of a matrix on the device.

Every access to the scratch buffer is aligned to a chaining value, so the buffer is
modelled by its slots of eight words. `bufA` starts at slot 0 and `bufB` at slot
`nchunks`. The queue is in order: a launch sees all writes of the launch before it.
-/

namespace ArcMiner.PearlGemm

open Library B3 List Nat
open Blake3 (chunkCv fillChunks parentCv)
open AkoyaCrypto.HostBlake3 (merkleRoot)
open Blake3 (chunkAt chunkCount chunkCvAt rootCv treeHash)

abbrev Scratch := Nat → Node

def globalSize (count : Nat) : Nat := (count + 255) / 256 * 256

theorem le_globalSize (count : Nat) : count ≤ globalSize count := by
  unfold globalSize
  omega

def partialChunkCv (data : List UInt8) (off : Nat) (idx : UInt64) (key : Option Node) : Node :=
  let rem := data.length - off
  let nb := max 1 ((rem + 63) / 64)
  (range nb).foldl (fun cv b =>
    -- bytes past the end of the data are read as zeros
    let bl := loadBlock (data.drop (off + b * 64))
    let blen := min 64 (rem - b * 64)
    let f := keyedHash
    let f := if b = 0 then f ||| chunkStart else f
    let f := if b = nb - 1 then f ||| chunkEnd else f
    compress cv bl idx blen.toUInt32 f) (initCv key)

def leafCv (data : List UInt8) (key : Option Node) (nchunks i : Nat) : Node :=
  let off := i * 1024
  if 1024 ≤ data.length - off then chunkCv (data.drop off) i.toUInt64 key (nchunks == 1)
  else partialChunkCv data off i.toUInt64 key

def reduceLevel (schedule : Schedule) (key : Option Node) (inBuf obBuf npairs : Nat) (scratch : Scratch) : Scratch :=
  parallelFor schedule (globalSize npairs) (storeItem obBuf npairs fun i scratch =>
    parentCv (scratch (inBuf + 2 * i)) (scratch (inBuf + (2 * i + 1))) key (npairs == 1)) scratch

/-- The loop over levels, which ends after the level of one pair; `npairs` is never zero here. -/
def reduceLevels (schedules : Nat → Schedule) (key : Option Node) (launch inBuf obBuf npairs : Nat)
    (scratch : Scratch) : Digest :=
  let scratch := reduceLevel (schedules launch) key inBuf obBuf npairs scratch
  if npairs ≤ 1 then cvToBytes (scratch obBuf)
  else reduceLevels schedules key (launch + 1) obBuf inBuf (npairs / 2) scratch
termination_by npairs

def chunksOf (len : Nat) : Nat := max 1 ((len + 1023) / 1024)

structure HashOutput where
  leafCvs : List UInt8
  out : Digest
deriving DecidableEq

def hashLeaves (schedules : Nat → Schedule) (key : Option Node) (nchunks : Nat) (scratch : Scratch) : HashOutput where
  leafCvs := (range nchunks).flatMap fun i => (cvToBytes (scratch i)).toList
  out :=
    if nchunks = 1 then cvToBytes (scratch 0)
    else reduceLevels schedules key 1 0 nchunks (nchunks / 2) scratch

def parallelTensorHash (schedules : Nat → Schedule) (data : List UInt8) (key : Option Node) (scratch : Scratch) :
    HashOutput :=
  let nchunks := chunksOf data.length
  let scratch := parallelFor (schedules 0) (globalSize nchunks)
    (storeItem 0 nchunks fun i _ => leafCv data key nchunks i) scratch
  hashLeaves schedules key nchunks scratch

section reduction
variable (key : Digest)

theorem reduceLevel_apply (schedule : Schedule) {inBuf obBuf npairs : Nat}
    (apart : inBuf + 2 * npairs ≤ obBuf ∨ obBuf + npairs ≤ inBuf) (scratch : Scratch) {i : Nat} (inside : i < npairs) :
    reduceLevel schedule (some (keyWords key)) inBuf obBuf npairs scratch (obBuf + i) =
      parentCv (scratch (inBuf + 2 * i)) (scratch (inBuf + (2 * i + 1))) (some (keyWords key)) (npairs == 1) := by
  unfold reduceLevel
  rw [parallelFor_storeItem ?_ (le_globalSize npairs), if_pos (by omega), Nat.add_sub_cancel_left]
  intro j bound memory other same
  rw [same _ (by omega), same _ (by omega)]

/-- The loop hashes the largest full tree over the slots it is given and ignores the rest. -/
theorem reduceLevels_eq (schedules : Nat → Schedule) (launch : Nat) {inBuf obBuf npairs : Nat} (positive : 1 ≤ npairs)
    (apart : inBuf + 2 * npairs ≤ obBuf ∨ obBuf + npairs ≤ inBuf) (scratch : Scratch) :
    reduceLevels schedules (some (keyWords key)) launch inBuf obBuf npairs scratch =
      rootCv (.keyed key)
        (subtree (parentCv (.keyed key)) (fun j => cvToBytes (scratch (inBuf + j))) 0 (2 ^ Nat.log 2 npairs))
        (subtree (parentCv (.keyed key)) (fun j => cvToBytes (scratch (inBuf + j))) (2 ^ Nat.log 2 npairs)
          (2 ^ Nat.log 2 npairs)) := by
  induction npairs using Nat.strong_induction_on generalizing launch inBuf obBuf scratch with
  | _ npairs ih =>
    have level := fun i (inside : i < npairs) => reduceLevel_apply key (schedules launch) apart scratch inside
    rw [reduceLevels]
    by_cases last : npairs = 1
    · subst last
      have top := level 0 (by decide)
      rw [Nat.add_zero] at top
      rw [if_pos (by decide), top, show ((1 : Nat) == 1) = true from rfl, rootCv_eq, log_one_right, Nat.pow_zero,
        subtree_one, subtree_one]
    · have log : Nat.log 2 npairs = Nat.log 2 (npairs / 2) + 1 := log_of_one_lt_of_le (by decide) (by omega)
      have small : 2 ^ Nat.log 2 (npairs / 2) ≤ npairs / 2 := pow_log_le_self 2 (by omega)
      have notRoot : (npairs == 1) = false := by simpa using last
      -- the next level reads what this one stored
      have next : ∀ i < npairs, cvToBytes (reduceLevel (schedules launch) (some (keyWords key)) inBuf obBuf npairs
          scratch (obBuf + i)) = pairFull (parentCv (.keyed key)) (fun j => cvToBytes (scratch (inBuf + j))) i := by
        intro i inside
        rw [level i inside, notRoot, parentCv_eq]
        rfl
      have full := subtree_pairFull (parentCv (.keyed key)) (fun j => cvToBytes (scratch (inBuf + j)))
        (Nat.log 2 (npairs / 2))
      have left := full 0
      have right := full 1
      simp only [Nat.zero_mul, Nat.one_mul] at left right
      rw [if_neg (by omega), ih (npairs / 2) (by omega) (launch + 1) (by omega) (by omega), log,
        subtree_congr _ 0 _ (Nat.two_pow_pos _) (fun i _ high => next i (by omega)),
        subtree_congr _ (2 ^ Nat.log 2 (npairs / 2)) _ (Nat.two_pow_pos _) (fun i _ high => next i (by omega)),
        left, right]

theorem hashLeaves_out (schedules : Nat → Schedule) {n : Nat} (large : 2 ≤ n) (scratch : Scratch) {leaf : Nat → Digest}
    (stored : ∀ i < n, cvToBytes (scratch i) = leaf i) : (hashLeaves schedules (some (keyWords key)) n scratch).out =
      rootCv (.keyed key) (subtree (parentCv (.keyed key)) leaf 0 (2 ^ Nat.log 2 (n / 2)))
        (subtree (parentCv (.keyed key)) leaf (2 ^ Nat.log 2 (n / 2)) (2 ^ Nat.log 2 (n / 2))) := by
  have small : 2 ^ Nat.log 2 (n / 2) ≤ n / 2 := pow_log_le_self 2 (by omega)
  have same : ∀ i < n, cvToBytes (scratch (0 + i)) = leaf i := by simpa using stored
  unfold hashLeaves
  rw [if_neg (by omega), reduceLevels_eq key schedules 1 (by omega) (by omega),
    subtree_congr _ 0 _ (Nat.two_pow_pos _) (fun i _ high => same i (by omega)),
    subtree_congr _ (2 ^ Nat.log 2 (n / 2)) _ (Nat.two_pow_pos _) (fun i _ high => same i (by omega))]

end reduction

section leaves
variable (key : Digest) {data : List UInt8} {n : Nat} (whole : data.length = n * 1024)
include whole

theorem leafCv_whole {i : Nat} (inside : i < n) :
    cvToBytes (leafCv data (some (keyWords key)) n i) =
      (Blake3.chunk (.load key) Blake3.keyedHash (if n == 1 then Blake3.root else 0) i.toUInt64
        (chunkAt data i)).store := by
  have room : 1024 ≤ data.length - i * 1024 := by omega
  unfold leafCv
  rw [if_pos room, cvToBytes_eq, chunkCv_eq key (by rw [length_drop]; exact room), chunkAt, Nat.mul_comm]

theorem leafCv_many (large : 2 ≤ n) {i : Nat} (inside : i < n) :
    cvToBytes (leafCv data (some (keyWords key)) n i) = chunkCvAt (.keyed key) data i := by
  have notRoot : (n == 1) = false := by
    rw [beq_eq_false_iff_ne]
    omega
  rw [leafCv_whole key whole inside, notRoot]
  rfl

theorem leafCv_single (single : n = 1) :
    cvToBytes (leafCv data (some (keyWords key)) n 0) = Blake3.rootChunk (.keyed key) data := by
  subst single
  have all : chunkAt data 0 = data := take_of_length_le (by simp [whole])
  rw [leafCv_whole key whole (by decide), all]
  rfl

theorem chunksOf_whole (positive : 0 < n) : chunksOf data.length = n := by
  unfold chunksOf
  omega

theorem parallelTensorHash_whole (positive : 0 < n) (schedules : Nat → Schedule) (scratch : Scratch) :
    ∃ filled : Scratch, (∀ i < n, filled i = leafCv data (some (keyWords key)) n i) ∧
      parallelTensorHash schedules data (some (keyWords key)) scratch =
        hashLeaves schedules (some (keyWords key)) n filled := by
  unfold parallelTensorHash
  rw [chunksOf_whole whole positive]
  refine ⟨_, fun i inside => ?_, rfl⟩
  rw [parallelFor_storeItem (fun _ _ _ _ _ => rfl) (le_globalSize n), if_pos (by omega), Nat.sub_zero]

theorem parallelTensorHash_two_pow {e : Nat} (power : n = 2 ^ e) (schedules : Nat → Schedule) (scratch : Scratch) :
    (parallelTensorHash schedules data (some (keyWords key)) scratch).out = treeHash (.keyed key) data := by
  have positive : 0 < n := power ▸ Nat.two_pow_pos e
  obtain ⟨filled, stored, same⟩ := parallelTensorHash_whole key whole positive schedules scratch
  rw [same]
  cases e with
  | zero =>
    have single : n = 1 := power
    rw [treeHash, if_pos (by omega), hashLeaves, if_pos single, stored 0 positive,
      leafCv_single key whole single]
  | succ e =>
    have := Nat.two_pow_pos e
    have double : 2 ^ (e + 1) = 2 * 2 ^ e := Nat.pow_succ'
    have large : 2 ≤ n := by omega
    have count : chunkCount data.length = n := by
      rw [whole, chunkCount]
      omega
    have half : n / 2 = 2 ^ e := by omega
    have rest : 2 ^ (e + 1) - 2 ^ e = 2 ^ e := by omega
    rw [treeHash, if_neg (by omega), count, hashLeaves_out key schedules large filled fun i inside => by
      rw [stored i inside, leafCv_many key whole large inside]]
    rw [half, log_pow (by decide), treeRoot, power, leftCount_two_pow, rest]

end leaves

/-- The compressions of the host and of the device on the same chunks. -/
def comparedCalls (key : Digest) (data : List UInt8) (n : Nat) : List (TreeCall Digest) :=
  rootCalls (parentCv (.keyed key)) (chunkCvAt (.keyed key) data) (leftCount n) n ++
    rootCalls (parentCv (.keyed key)) (chunkCvAt (.keyed key) data) (2 ^ Nat.log 2 (n / 2))
      (2 ^ (Nat.log 2 (n / 2) + 1))

def ComparedApart (key : Digest) (data : List UInt8) (n : Nat) : Prop :=
  NoCollision (parentCv (.keyed key)) (rootCv (.keyed key)) (chunkCvAt (.keyed key) data)
    (comparedCalls key data n)

theorem two_pow_of_root {key : Digest} {data : List UInt8} {n : Nat} (whole : data.length = n * 1024)
    (large : 2 ≤ n) (apart : ComparedApart key data n) (schedules : Nat → Schedule) (scratch : Scratch)
    (equal : treeHash (.keyed key) data =
      (parallelTensorHash schedules data (some (keyWords key)) scratch).out) : ∃ e, n = 2 ^ e := by
  have count : chunkCount data.length = n := by
    rw [whole, chunkCount]
    omega
  have log := log_of_one_lt_of_le (by decide) large
  have below := log ▸ pow_log_le_self 2 (by omega)
  have above : n < 2 ^ (Nat.log 2 (n / 2) + 2) := by
    have := lt_pow_succ_log_self (show 1 < 2 by decide) n
    rwa [log] at this
  by_contra notPower
  obtain ⟨filled, stored, same⟩ := parallelTensorHash_whole key whole (by omega) schedules scratch
  rw [treeHash, if_neg (by omega), count, same, hashLeaves_out key schedules large filled fun i inside => by
    rw [stored i inside, leafCv_many key whole large inside]] at equal
  refine NoCollision.root_ne apart (Nat.lt_of_le_of_ne below fun same => notPower ⟨_, same.symm⟩) above
    (fun call member => mem_append_left _ member) (fun call member => mem_append_right _ member) equal

theorem merkleRoot_whole (key : Digest) {data : CSharp.Span} (positive : 0 < data.bytes.length)
    (whole : data.bytes.length % 1024 = 0) :
    merkleRoot data.bytes key.toList = .ok (treeHash (.keyed key) data.bytes) := by
  have fits := data.fits
  have full : fillChunks data.bytes = data.bytes := by
    have none : chunkCount data.bytes.length * 1024 - data.bytes.length = 0 := by
      unfold chunkCount
      omega
    rw [fillChunks, none, replicate_zero, append_nil]
  rw [AkoyaCrypto.HostBlake3.merkleRoot_of_fits key (length_pos_iff.mp positive) (by omega), full]

/-- The device root is the host root when the number of chunks is a power of two, and, as long as no two different
compressions collide, in no other case. -/
theorem tensorHash_eq_host_iff (schedules : Nat → Schedule) (key : Digest) (data : CSharp.Span) (scratch : Scratch)
    (positive : 0 < data.bytes.length) (whole : data.bytes.length % 1024 = 0) :
    ((∃ e, data.bytes.length / 1024 = 2 ^ e) →
      merkleRoot data.bytes key.toList =
        .ok (parallelTensorHash schedules data.bytes (some (keyWords key)) scratch).out) ∧
    (ComparedApart key data.bytes (data.bytes.length / 1024) →
      (merkleRoot data.bytes key.toList =
          .ok (parallelTensorHash schedules data.bytes (some (keyWords key)) scratch).out ↔
        ∃ e, data.bytes.length / 1024 = 2 ^ e)) := by
  have chunks : data.bytes.length = data.bytes.length / 1024 * 1024 := by omega
  rw [merkleRoot_whole key positive whole]
  have forward : (∃ e, data.bytes.length / 1024 = 2 ^ e) →
      (.ok (treeHash (.keyed key) data.bytes) : CSharp.Result Digest) =
        .ok (parallelTensorHash schedules data.bytes (some (keyWords key)) scratch).out := by
    rintro ⟨e, power⟩
    rw [parallelTensorHash_two_pow key chunks power]
  refine ⟨forward, fun apart => ⟨fun equal => ?_, forward⟩⟩
  rcases (show data.bytes.length / 1024 = 1 ∨ 2 ≤ data.bytes.length / 1024 by omega) with single | large
  · exact ⟨0, single⟩
  · exact two_pow_of_root chunks large apart schedules scratch (Except.ok.inj equal)

section zeros
open Blake3 (zeroKey zeroChunk)

def threeChunks : CSharp.Span := ⟨replicate 3072 0, by rw [length_replicate]; decide⟩

theorem length_threeChunks : threeChunks.bytes.length = 3 * 1024 := length_replicate

theorem chunkCvAt_threeChunks {i : Nat} (inside : i < 3) :
    chunkCvAt (.keyed zeroKey) threeChunks.bytes i = chunkCv (.keyed zeroKey) i.toUInt64 zeroChunk := by
  have chunk : chunkAt threeChunks.bytes i = zeroChunk := by
    rw [threeChunks, chunkAt, drop_replicate, take_replicate, zeroChunk]
    congr 1
    omega
  rw [chunkCvAt, chunk]

theorem leaves_threeChunks : chunkCvAt (.keyed zeroKey) threeChunks.bytes 0 =
      chunkCv (.keyed zeroKey) 0 zeroChunk ∧
    chunkCvAt (.keyed zeroKey) threeChunks.bytes 1 = chunkCv (.keyed zeroKey) 1 zeroChunk ∧
    chunkCvAt (.keyed zeroKey) threeChunks.bytes 2 = chunkCv (.keyed zeroKey) 2 zeroChunk :=
  ⟨chunkCvAt_threeChunks (by decide), chunkCvAt_threeChunks (by decide), chunkCvAt_threeChunks (by decide)⟩

def threeCalls : List (TreeCall Digest) :=
  [.root (parentCv (.keyed zeroKey) (chunkCv (.keyed zeroKey) 0 zeroChunk)
      (chunkCv (.keyed zeroKey) 1 zeroChunk)) (chunkCv (.keyed zeroKey) 2 zeroChunk),
    .node (chunkCv (.keyed zeroKey) 0 zeroChunk) (chunkCv (.keyed zeroKey) 1 zeroChunk),
    .leaf 0, .leaf 1, .leaf 2,
    .root (chunkCv (.keyed zeroKey) 0 zeroChunk) (chunkCv (.keyed zeroKey) 1 zeroChunk)]

theorem comparedCalls_threeChunks : comparedCalls zeroKey threeChunks.bytes 3 ⊆ threeCalls := by
  obtain ⟨first, second, third⟩ := leaves_threeChunks
  have two := subtreeCalls_two_pow (parentCv (.keyed zeroKey))
    (chunkCvAt (.keyed zeroKey) threeChunks.bytes) 0 0
  rw [comparedCalls, show leftCount 3 = 2 from rfl, show Nat.log 2 (3 / 2) = 0 from rfl]
  simp only [Nat.pow_zero, Nat.zero_add, Nat.pow_one, subtree_one, subtreeCalls_one] at two
  simp [rootCalls, two, subtree_one, subtree_two, subtreeCalls_one, first, second, third, threeCalls]

theorem threeChunks_apart : ComparedApart zeroKey threeChunks.bytes 3 := by
  obtain ⟨first, second, third⟩ := leaves_threeChunks
  refine NoCollision.of_nodup _ _ _ ?_ comparedCalls_threeChunks
  simp only [threeCalls, map_cons, map_nil, TreeCall.answer, first, second, third]
  rw [Blake3.chunkCv_zero_first, Blake3.chunkCv_zero_second, Blake3.chunkCv_zero_third]
  decide +kernel

/-- On three chunks of zeros the device drops the third one. -/
theorem tensorHash_threeChunks_differs : merkleRoot threeChunks.bytes zeroKey.toList ≠
      .ok (parallelTensorHash (fun _ => .ascending) threeChunks.bytes (some (keyWords zeroKey))
        fun _ => Vector.replicate 8 0).out := by
  have length := length_threeChunks
  rw [merkleRoot_whole zeroKey (by omega) (by omega)]
  intro equal
  obtain ⟨e, power⟩ := two_pow_of_root length (by decide) threeChunks_apart _ _ (Except.ok.inj equal)
  rcases e with _ | _ | e
  · cases power
  · cases power
  · have := Nat.two_pow_pos e
    rw [Nat.pow_succ, Nat.pow_succ] at power
    omega

theorem tensorHash_eq_host_iff_threeChunks : merkleRoot threeChunks.bytes zeroKey.toList =
        .ok (parallelTensorHash (fun _ => .ascending) threeChunks.bytes (some (keyWords zeroKey))
          fun _ => Vector.replicate 8 0).out ↔ ∃ e, threeChunks.bytes.length / 1024 = 2 ^ e :=
  (tensorHash_eq_host_iff _ zeroKey threeChunks _ (by rw [length_threeChunks]; decide)
    (by rw [length_threeChunks])).2 (by rw [length_threeChunks]; exact threeChunks_apart)

end zeros
end ArcMiner.PearlGemm
