import ArcMiner.AkoyaCrypto.Blake3
import ArcMiner.PearlBlake3.Layers

/-! The Merkle root of the host and of pearl-blake3.

Both pair chaining values bottom-up and promote an odd last one. For every number
of chunks this is the top-down tree of BLAKE3 over the zero-filled data. The host
computes the filled length in `int`, which wraps for the longest spans.
-/

namespace ArcMiner.AkoyaCrypto.HostBlake3

open Library Library.CSharp Int
open Blake3 (chunkCount fillChunks treeHash)

theorem paddedLength_of_fits {length : Nat} (positive : 0 < length) (fits : length ≤ 2 ^ 31 - 1024) :
    paddedLength length = (chunkCount length * 1024 : Nat) := by
  unfold paddedLength chunkCount
  have inner : int32 (int32 (length + 1024) - 1) = length + 1023 := by
    unfold int32
    rw [bmod_eq_emod, bmod_eq_emod]
    split <;> split <;> omega
  rw [inner, show (length + 1023 : Int).tdiv 1024 = ((length + 1023) / 1024 : Nat) by
    rw [show (length + 1023 : Int) = ((length + 1023 : Nat) : Int) by push_cast; rfl]
    rfl]
  rw [int32_of_fits (by omega) (by omega), if_neg (by omega)]
  push_cast
  rfl

theorem paddedLength_of_overflow {length : Nat} (large : 2 ^ 31 - 1024 < length) (span : length < 2 ^ 31) :
    paddedLength length < -1024 := by
  have inner : int32 (int32 (length + 1024) - 1) = -((2 ^ 32 - 1023 - length : Nat) : Int) := by
    unfold int32
    rw [bmod_eq_emod, bmod_eq_emod]
    split <;> split <;> omega
  have quotient : (-((2 ^ 32 - 1023 - length : Nat) : Int)).tdiv 1024 =
      -(((2 ^ 32 - 1023 - length) / 1024 : Nat) : Int) := by
    rw [Int.neg_tdiv]
    rfl
  unfold paddedLength
  rw [inner, quotient, int32_of_fits (by omega) (by omega), if_neg (by omega)]
  omega

theorem combineLevels_eq (key : Digest) {n : Nat} (large : 2 ≤ n) (f : Nat → Digest) :
    ∃ left right, combineLevels key (tabulate f n) = [left, right] ∧
      rootCv left right key = treeRoot (Blake3.parentCv (.keyed key)) (Blake3.rootCv (.keyed key)) f n := by
  have decreases : Decreases (m := Id) List.length (fun cvs => decide (2 < cvs.length))
      (fun cvs => pure (nextLevel key cvs)) := by
    apply Decreases.of_pure
    · intro cvs running
      have := of_decide_eq_true running
      omega
    · intro cvs running
      have := of_decide_eq_true running
      simp only [pure, nextLevel, length_pairUp]
      exact halfUp_lt (by omega)
  induction n using Nat.strong_induction_on generalizing f with
  | _ n ih =>
    rcases (show n = 2 ∨ 3 ≤ n by omega) with rfl | more
    · refine ⟨f 0, f 1, ?_, by rw [rootCv_eq, treeRoot_two]⟩
      unfold combineLevels
      rw [whileLoop_stop _ (by simp)]
      rfl
    -- one round replaces the values by those of the level above, which has the same root
    · obtain ⟨left, right, reached, same⟩ := ih (halfUp n) (halfUp_lt large) (leftCount_halfUp more).2
        (up (Blake3.parentCv (.keyed key)) n f)
      refine ⟨left, right, ?_, by rw [same, treeRoot_up _ _ f more]⟩
      have running : decide (2 < (tabulate f n).length) = true := by
        rw [length_tabulate]
        exact decide_eq_true more
      have step : nextLevel key (tabulate f n) = tabulate (up (Blake3.parentCv (.keyed key)) n f) (halfUp n) := by
        rw [← pairUp_tabulate]
        simp only [nextLevel, parentCv_eq]
      unfold combineLevels at reached ⊢
      rw [whileLoop_step decreases _ running, step]
      exact reached

section fits
variable {data : List UInt8} (positive : 0 < data.length) (fits : data.length ≤ 2 ^ 31 - 1024)
include positive fits

theorem totalLeaves_of_fits : (paddedLength data.length).tdiv 1024 = (chunkCount data.length : Int) := by
  rw [paddedLength_of_fits positive fits, natCast_mul]
  exact mul_tdiv_cancel _ (by decide)

theorem padded_of_fits : padded data = .ok (fillChunks data) := by
  have count : chunkCount data.length = (data.length + 1023) / 1024 := rfl
  unfold padded
  rw [paddedLength_of_fits positive fits]
  by_cases whole : ((chunkCount data.length * 1024 : Nat) : Int) = data.length
  · have none : chunkCount data.length * 1024 - data.length = 0 := by omega
    have same : fillChunks data = data := by
      rw [fillChunks, none, List.replicate_zero, List.append_nil]
    simp [whole, same, pure, Except.pure]
  · have fine : rent ((chunkCount data.length * 1024 : Nat) : Int) = .ok () := if_neg (by omega)
    simp only [whole, ↓reduceIte, fine, ok_bind, toNat_natCast]
    rfl

end fits

theorem leafCvs_eq (key : Digest) (data : List UInt8) : (List.range (chunkCount data.length)).mapM (fun i =>
      chunkCv (((fillChunks data).drop (1024 * i)).take 1024) i.toUInt64 key) =
      .ok (tabulate (Blake3.chunkCvAt (.keyed key) (fillChunks data)) (chunkCount data.length)) := by
  have length := Blake3.length_fillChunks data
  apply mapM_eq_ok
  intro i member
  have bound := List.mem_range.mp member
  have chunk := Blake3.length_chunkAt (fillChunks data) i
  rw [Blake3.chunkAt] at chunk
  exact chunkCv_eq key i.toUInt64 (by omega) (by omega)

theorem merkleRoot_of_fits (key : Digest) {data : List UInt8} (nonempty : data ≠ [])
    (fits : data.length ≤ 2 ^ 31 - 1024) : merkleRoot data key.toList =
      .ok (treeHash (.keyed key) (fillChunks data)) := by
  have positive := List.length_pos_iff.mpr nonempty
  have length := Blake3.length_fillChunks data
  have count : chunkCount data.length = (data.length + 1023) / 1024 := rfl
  have keyBytes : (⟨key.toList.toArray, by simp⟩ : Digest) = key := by simp [Vector.toList]
  unfold merkleRoot
  rw [dif_pos (by simp)]
  simp only [keyBytes, totalLeaves_of_fits positive fits, padded_of_fits positive fits, ok_bind, toNat_natCast]
  by_cases single : chunkCount data.length = 1
  · have whole : (fillChunks data).take 1024 = fillChunks data := List.take_of_length_le (by omega)
    rw [if_pos (by omega), whole, keyedHash_eq key (by omega), treeHash, if_pos (by omega)]
  · obtain ⟨left, right, reached, same⟩ := combineLevels_eq key (show 2 ≤ chunkCount data.length by omega)
      (Blake3.chunkCvAt (.keyed key) (fillChunks data))
    have total : chunkCount (fillChunks data).length = chunkCount data.length := by
      rw [length, chunkCount]
      omega
    rw [if_neg (by omega), leafCvs_eq, ok_bind, reached, treeHash, if_neg (by omega), total, ← same]
    rfl

theorem merkleRoot_of_overflow (key : Digest) {data : List UInt8} (large : 2 ^ 31 - 1024 < data.length)
    (span : data.length < 2 ^ 31) : merkleRoot data key.toList = .error (.argumentOutOfRange "minimumLength") := by
  have below := paddedLength_of_overflow large span
  have negative : paddedLength data.length < 0 := by omega
  have apart : paddedLength data.length ≠ data.length := by omega
  unfold merkleRoot padded rent
  rw [dif_pos (by simp)]
  simp [apart, negative]

end ArcMiner.AkoyaCrypto.HostBlake3

namespace ArcMiner.PearlBlake3

open Library Library.Rust
open Blake3 (chunkCount fillChunks treeHash)

/-- The tree builder and the host agree with the top-down BLAKE3 tree on the zero-filled data; the host does so
exactly while the filled length stays an `int`. -/
theorem merkle_roots_agree {crate : Blake3Crate} (conforms : crate.Conforms) (key : Digest) (data filled : Slice)
    (nonempty : data.bytes ≠ []) (fill : filled.bytes = padToChunkBoundary data.bytes) :
    (MerkleTree.new crate filled key).root = .ok (treeHash (.keyed key) filled.bytes) ∧
    (data.bytes.length < 2 ^ 31 →
      (AkoyaCrypto.HostBlake3.merkleRoot data.bytes key.toList = .ok (treeHash (.keyed key) filled.bytes) ↔
        data.bytes.length ≤ 2 ^ 31 - 1024)) := by
  have present : filled.bytes ≠ [] := by
    rw [fill, padToChunkBoundary]
    simp [nonempty]
  refine ⟨root_new conforms key present, fun span => ?_⟩
  rw [fill, padToChunkBoundary_eq]
  constructor
  · intro equal
    by_cases fits : data.bytes.length ≤ 2 ^ 31 - 1024
    · exact fits
    · rw [AkoyaCrypto.HostBlake3.merkleRoot_of_overflow key (by omega) span] at equal
      cases equal
  · intro fits
    exact AkoyaCrypto.HostBlake3.merkleRoot_of_fits key nonempty fits

section zeros
open Blake3 (zeroKey)

theorem padToChunkBoundary_zeros {len full : Nat} (fits : len < 2 ^ 63) (fullFits : full < 2 ^ 63)
    (fill : full = chunkCount len * 1024) :
    (Slice.zeros full fullFits).bytes = padToChunkBoundary (Slice.zeros len fits).bytes := by
  have covers : len + (full - len) = full := by
    simp only [chunkCount] at fill
    omega
  rw [padToChunkBoundary_eq, fillChunks, Slice.length_zeros, ← fill]
  simp only [Slice.zeros, List.replicate_append_replicate, covers]

/-- Beyond 2^31 - 1024 bytes the host throws instead of returning the root. -/
theorem merkle_roots_overflow :
    ∃ root, (MerkleTree.new .reference (.zeros (2 ^ 31) (by decide)) zeroKey).root = .ok root ∧
      (Slice.zeros (2 ^ 31) (by decide)).bytes = padToChunkBoundary (Slice.zeros (2 ^ 31 - 1000) (by decide)).bytes ∧
      AkoyaCrypto.HostBlake3.merkleRoot (Slice.zeros (2 ^ 31 - 1000) (by decide)).bytes zeroKey.toList ≠ .ok root := by
  refine ⟨_, root_new Blake3Crate.reference_conforms zeroKey ?_, padToChunkBoundary_zeros _ _ (by decide), ?_⟩
  · rw [← List.length_pos_iff, Slice.length_zeros]
    decide
  · rw [AkoyaCrypto.HostBlake3.merkleRoot_of_overflow zeroKey (by rw [Slice.length_zeros]; decide)
      (by rw [Slice.length_zeros]; decide)]
    intro equal
    cases equal

theorem merkle_roots_agree_zeros : (MerkleTree.new .reference (.zeros 3072 (by decide)) zeroKey).root =
      .ok (treeHash (.keyed zeroKey) (Slice.zeros 3072 (by decide)).bytes) ∧
    AkoyaCrypto.HostBlake3.merkleRoot (Slice.zeros 3000 (by decide)).bytes zeroKey.toList =
      .ok (treeHash (.keyed zeroKey) (Slice.zeros 3072 (by decide)).bytes) := by
  obtain ⟨tree, host⟩ := merkle_roots_agree Blake3Crate.reference_conforms zeroKey (.zeros 3000 (by decide))
    (.zeros 3072 (by decide)) (by rw [← List.length_pos_iff, Slice.length_zeros]; decide) (padToChunkBoundary_zeros _ _ (by decide))
  exact ⟨tree, (host (by rw [Slice.length_zeros]; decide)).mpr (by rw [Slice.length_zeros]; decide)⟩

end zeros
end ArcMiner.PearlBlake3
