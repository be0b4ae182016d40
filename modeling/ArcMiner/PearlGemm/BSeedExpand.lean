import ArcMiner.AkoyaCrypto.BSeedExpander
import ArcMiner.PearlGemm.TensorHashFused

/-! `launch_bseed_expand`: the extendable output of a seed on the device.

Each work item makes one block of 64 bytes, reduces them and stores them word by word. Blocks and places are counted
in a `long`, which has 32 bits on Windows and 64 bits elsewhere; a run in which one of its sums overflows has no meaning. -/

namespace ArcMiner.PearlGemm

open Library B3 AkoyaCrypto MiningCapi BSeedExpander HostBlake3
open List hiding Vector

inductive LongWidth where
  | bits32
  | bits64
deriving DecidableEq

namespace LongWidth

def limit : LongWidth → Nat
  | bits32 => 2 ^ 31
  | bits64 => 2 ^ 63

def convert (long : LongWidth) (x : Int) : Int := x.bmod (2 * long.limit)

def Holds (long : LongWidth) (x : Int) : Prop := -long.limit ≤ x ∧ x < long.limit

instance (long : LongWidth) (x : Int) : Decidable (long.Holds x) := inferInstanceAs (Decidable (_ ∧ _))

theorem convert_of_holds {long : LongWidth} {x : Int} (holds : long.Holds x) : long.convert x = x := by
  obtain ⟨low, high⟩ := holds
  cases long <;> exact Int.bmod_eq_of_le (by simp only [limit] at low ⊢; omega) (by simp only [limit] at high ⊢; omega)

end LongWidth

def xofInt7 (v : UInt32) (b : Nat) : UInt8 := centred (mod127 ((v >>> (b * 8).toUInt32) &&& 0xFF))

def seedMessage (sw : Node) : Vector UInt32 16 := Vector.ofFn fun i => if h : i.val < 8 then sw[i.val] else 0

/-- A word that ends before `n` is stored at once, another one byte by byte. -/
def wordStores (v : UInt32) (n : Int) (woff : Nat) : List (Nat × UInt8) :=
  if ((woff + 4 : Nat) : Int) ≤ n then
    let packed := leWord (xofInt7 v 0) (xofInt7 v 1) (xofInt7 v 2) (xofInt7 v 3)
    (range 4).map fun b => (woff + b, wordByte packed b)
  else (range 4).filterMap fun b => if ((woff + b : Nat) : Int) < n then some (woff + b, xofInt7 v b) else none

/-- Work item `j` of `KBseed`. -/
def bseedStores (sw : Node) (n nblk : Int) (j : Nat) : List (Nat × UInt8) :=
  if nblk ≤ j then []
  else
    let o := compressFull (initCv none) (seedMessage sw) j.toUInt64 32 (chunkStart ||| chunkEnd ||| root)
    (range 16).flatMap fun w => wordStores (o.toList.getD w 0) n (j * 64 + w * 4)

/-- The largest `long` of work item `j` is the end of its last word. In front of the buffer it has no place to store to. -/
def BseedLongs (long : LongWidth) (nblk j : Int) : Prop := j < nblk → 0 ≤ j ∧ long.Holds (j * 64 + 64)

instance (long : LongWidth) (nblk j : Int) : Decidable (BseedLongs long nblk j) := inferInstanceAs (Decidable (_ → _))

def launchBseedExpand (long : LongWidth) (schedule : Schedule) (bseed : Digest) (n : Int) (out : Nat → UInt8) :
    Option (Nat → UInt8) :=
  let nblk := long.convert ((int64 (n + 63)).tdiv 64)
  let size := sizeT ((nblk + 63).tdiv 64 * 64)
  if long.Holds (nblk + 64) ∧ ∀ id < size, BseedLongs long nblk (long.convert id) then
    some (parallelFor schedule size (fun id => storeAll (bseedStores (keyWords bseed) n nblk (long.convert id).toNat)) out)
  else none

theorem xofInt7_eq (v : UInt32) (b : Nat) : xofInt7 v b = mapXofByteToInt7 (wordByte v b) := by
  have byte : ((v >>> (b * 8).toUInt32) &&& 0xFF).toNat = (wordByte v b).toNat := by
    rw [UInt32.toNat_and, wordByte, UInt32.toNat_toUInt8, Nat.mul_comm]
    exact Nat.and_two_pow_sub_one_eq_mod _ 8
  have small := (wordByte v b).toNat_lt
  have value : (((v >>> (b * 8).toUInt32) &&& 0xFF) % 127).toNat = (wordByte v b).toNat % 127 := by
    rw [UInt32.toNat_mod, byte]
    rfl
  rw [xofInt7, mod127_eq (by omega), centred_eq, value, ← toInt7_eq]
  rfl

theorem seedMessage_eq (bseed : Digest) : seedMessage (keyWords bseed) = (Blake3.Words.load bseed.toList).toArray := by
  apply Vector.ext
  intro i bound
  rw [Blake3.getElem_load _ bound, seedMessage, Vector.getElem_ofFn]
  split
  next inside => rw [keyWords, Vector.getElem_ofFn]
  next outside =>
    rw [leWordAt_end]
    rw [Vector.length_toList]
    exact Nat.mul_le_mul_left 4 (Nat.le_of_not_lt outside)

theorem compressFull_seed (bseed : Digest) (counter : UInt64) :
    compressFull (initCv none) (seedMessage (keyWords bseed)) counter 32 (chunkStart ||| chunkEnd ||| root) =
      (Blake3.xofWords .unkeyed bseed.toList counter).toArray := by
  have length : bseed.toList.length = 32 := Vector.length_toList
  have count : Blake3.blockCount bseed.toList.length = 1 := by rw [length]; rfl
  have whole : Blake3.blockAt bseed.toList 0 = bseed.toList := by
    rw [Blake3.blockAt, Nat.mul_zero, drop_zero, take_of_length_le (by omega)]
  rw [compressFull_eq, seedMessage_eq, Blake3.Words.ofArray_toArray, Blake3.xofWords, Blake3.beforeLast, count, Nat.sub_self, whole, length]
  rfl

theorem xofInt7_seed (bseed : Digest) {j w b : Nat} (word : w < 16) (byte : b < 4) :
    xofInt7 ((compressFull (initCv none) (seedMessage (keyWords bseed)) j.toUInt64 32
      (chunkStart ||| chunkEnd ||| root)).toList.getD w 0) b = bseedStream bseed (j * 64 + w * 4 + b) := by
  have block : (j * 64 + w * 4 + b) / 64 = j := by omega
  have place : (j * 64 + w * 4 + b) % 64 / 4 = w := by omega
  have offset : (j * 64 + w * 4 + b) % 4 = b := by omega
  rw [xofInt7_eq, compressFull_seed, word_toArray _ word, bseedStream, Blake3.xofByte, block, place, offset]

theorem mem_wordStores (v : UInt32) (n woff : Nat) (store : Nat × UInt8) :
    store ∈ wordStores v n woff ↔ ∃ b < 4, woff + b < n ∧ store = (woff + b, xofInt7 v b) := by
  rw [wordStores]
  split
  next whole =>
    have byte (b : Nat) (inside : b < 4) :
        wordByte (leWord (xofInt7 v 0) (xofInt7 v 1) (xofInt7 v 2) (xofInt7 v 3)) b = xofInt7 v b := by
      obtain ⟨b0, b1, b2, b3⟩ := wordByte_leWord (xofInt7 v 0) (xofInt7 v 1) (xofInt7 v 2) (xofInt7 v 3)
      match b with
      | 0 => exact b0
      | 1 => exact b1
      | 2 => exact b2
      | 3 => exact b3
      | b + 4 => omega
    constructor
    · intro member
      obtain ⟨b, inside, rfl⟩ := mem_map.mp member
      have inside := mem_range.mp inside
      exact ⟨b, inside, by omega, by rw [byte b inside]⟩
    · rintro ⟨b, inside, -, rfl⟩
      exact mem_map.mpr ⟨b, mem_range.mpr inside, by rw [byte b inside]⟩
  next part =>
    constructor
    · intro member
      obtain ⟨b, inside, stored⟩ := mem_filterMap.mp member
      split at stored
      next below => exact ⟨b, mem_range.mp inside, by omega, (Option.some.inj stored).symm⟩
      next => cases stored
    · rintro ⟨b, inside, below, rfl⟩
      exact mem_filterMap.mpr ⟨b, mem_range.mpr inside, if_pos (by omega)⟩

theorem bseedStores_fill (bseed : Digest) {n size : Nat} {nblk : Int} {item : Nat → Nat}
    (enough : nblk.toNat ≤ size) (own : 0 < nblk → ∀ id < size, item id = id) :
    Fills size (fun id => bseedStores (keyWords bseed) n nblk (item id)) (fun p => p < n ∧ p < nblk.toNat * 64)
      (bseedStream bseed) := by
  constructor
  · intro id launched store member
    rw [bseedStores] at member
    split at member
    next => cases member
    next before =>
      obtain ⟨w, word, member⟩ := mem_flatMap.mp member
      obtain ⟨b, byte, inside, rfl⟩ := (mem_wordStores _ n _ store).mp member
      have word := mem_range.mp word
      exact ⟨⟨inside, by omega⟩, xofInt7_seed bseed word byte⟩
  · rintro p ⟨inside, made⟩
    have place : p / 64 * 64 + p % 64 / 4 * 4 + p % 4 = p := by omega
    refine ⟨p / 64, by omega, ?_⟩
    rw [own (by omega) _ (by omega), bseedStores, if_neg (by omega)]
    refine mem_flatMap.mpr ⟨p % 64 / 4, mem_range.mpr (by omega), ?_⟩
    apply (mem_wordStores _ n _ _).mpr
    exact ⟨p % 4, by omega, by omega, by rw [xofInt7_seed bseed (by omega) (by omega), place]⟩

section launch
variable {long : LongWidth} {nblk : Int} (sum : long.Holds (nblk + 64))
include sum

theorem bseedSize_eq (some : 0 < nblk) : sizeT ((nblk + 63).tdiv 64 * 64) = (nblk.toNat + 63) / 64 * 64 := by
  have small : nblk + 64 < 2 ^ 63 := Int.lt_of_lt_of_le sum.2 (by cases long <;> decide)
  rw [Int.tdiv_eq_ediv_of_nonneg (by omega)]
  unfold sizeT
  omega

theorem bseedItem_eq (some : 0 < nblk) {id : Nat} (launched : id < sizeT ((nblk + 63).tdiv 64 * 64)) :
    long.convert id = id := by
  rw [bseedSize_eq sum some] at launched
  have high := sum.2
  exact LongWidth.convert_of_holds ⟨by omega, by omega⟩

/-- A block that is counted is made, and nothing else is stored. -/
theorem parallelFor_bseedStores (schedule : Schedule) (bseed : Digest) (n : Nat) (out : Nat → UInt8) (p : Nat) :
    parallelFor schedule (sizeT ((nblk + 63).tdiv 64 * 64))
        (fun id => storeAll (bseedStores (keyWords bseed) n nblk (long.convert id).toNat)) out p =
      if p < n ∧ p < nblk.toNat * 64 then bseedStream bseed p else out p := by
  have enough : nblk.toNat ≤ sizeT ((nblk + 63).tdiv 64 * 64) := by
    rcases Int.lt_or_le 0 nblk with some | none
    · rw [bseedSize_eq sum some]
      omega
    · omega
  have fills := @bseedStores_fill bseed n _ nblk (fun id => (long.convert id).toNat) enough fun some id launched => by
    rw [bseedItem_eq sum some launched]
    rfl
  split
  next inside => exact parallelFor_of_covered fills schedule out inside
  next outside => exact parallelFor_of_not_covered fills schedule out outside

end launch

/-- The device makes the whole output exactly as long as the end of its last block is a `long`. -/
theorem launchBseedExpand_iff (long : LongWidth) (bseed : Digest) {n : Nat} (fits : n + 63 < 2 ^ 63) :
    (∀ schedule out, ∃ memory, launchBseedExpand long schedule bseed n out = some memory ∧
      ∀ p < n, memory p = bseedStream bseed p) ↔ n + 64 ≤ long.limit := by
  have count : (int64 ((n : Int) + 63)).tdiv 64 = ((n + 63) / 64 : Nat) := by
    rw [int64_of_fits (by omega) (by omega), Int.tdiv_eq_ediv_of_nonneg (by omega)]
    omega
  have large : 2 ^ 31 ≤ long.limit := by cases long <;> decide
  unfold launchBseedExpand
  dsimp only
  rw [count]
  constructor
  · intro makes
    by_contra beyond
    -- a byte that is not stored keeps what was there, which may be another one
    obtain ⟨memory, ran, same⟩ := makes .ascending fun p => bseedStream bseed p + 1
    generalize long.convert ((n + 63) / 64 : Nat) = nblk at ran
    obtain ⟨⟨sum, items⟩, ⟨⟩⟩ := Option.ite_none_right_eq_some.mp ran
    have ends : nblk.toNat * 64 < n := by
      rcases Int.lt_or_le 0 nblk with some | none
      · have launched : nblk.toNat - 1 < sizeT ((nblk + 63).tdiv 64 * 64) := by
          rw [bseedSize_eq sum some]
          omega
        have last := items _ launched
        rw [bseedItem_eq sum some launched] at last
        have high := (last (by omega)).2.2
        cases long <;> simp only [LongWidth.limit] at high beyond <;> omega
      · omega
    have byte := same _ ends
    rw [parallelFor_bseedStores sum, if_neg (by omega)] at byte
    simp at byte
  · intro inside schedule out
    have holds : long.Holds ((n + 63) / 64 : Nat) := ⟨by omega, by omega⟩
    have sum : long.Holds (((n + 63) / 64 : Nat) + 64) := ⟨by omega, by omega⟩
    rw [LongWidth.convert_of_holds holds]
    have items : ∀ id < sizeT ((((n + 63) / 64 : Nat) + 63 : Int).tdiv 64 * 64),
        BseedLongs long ((n + 63) / 64 : Nat) (long.convert id) := by
      intro id launched before
      have some : 0 < (((n + 63) / 64 : Nat) : Int) := by
        by_contra none
        rw [show (((n + 63) / 64 : Nat) : Int) = 0 by omega] at launched
        exact absurd launched (Nat.not_lt_zero id)
      rw [bseedItem_eq sum some launched] at before ⊢
      exact ⟨by omega, by omega, by omega⟩
    refine ⟨_, if_pos ⟨sum, items⟩, fun p below => ?_⟩
    rw [parallelFor_bseedStores sum, if_pos (by omega)]

/-- Reading the output of a seed from any byte on gives a part of reading it from the start, in every implementation;
on the device as long as the end of its last block is a `long`. -/
theorem xof_seekable {reader : XofReader} (stream : reader.Conforms) :
    (∀ {input : List UInt8} {offset : UInt64} {len total : Nat}, input.length ≤ 1024 → offset.toNat + len ≤ total →
      total ≤ 2 ^ 64 → ∃ output, xof input total = .ok output ∧
        xofAt input offset len = .ok ((output.drop offset.toNat).take len) ∧
        ∃ digest, HostBlake3.hash input = .ok digest ∧ (32 ≤ total → digest.toList = output.take 32)) ∧
    (∀ {bSeed : Digest} {offset : UInt64} {len : Nat}, offset.toNat + len ≤ 2 ^ 64 →
      expandRangeRaw bSeed offset len = .ok (expandBseedInt7RangeInto reader bSeed offset len).toList ∧
      ∀ {n k : Int} {whole : List UInt8}, expandRaw bSeed n k = .ok whole → offset.toNat + len ≤ whole.length →
        expandRangeRaw bSeed offset len = .ok ((whole.drop offset.toNat).take len)) ∧
    ∀ (long : LongWidth) {bSeed : Digest} {n : Nat}, n + 63 < 2 ^ 63 →
      ((∀ schedule out, ∃ memory, launchBseedExpand long schedule bSeed n out = some memory ∧
        ∀ (offset : UInt64) (len : Nat), offset.toNat + len ≤ n →
          expandRangeRaw bSeed offset len = .ok (((tabulate memory n).drop offset.toNat).take len)) ↔
        n + 64 ≤ long.limit) := by
  refine ⟨?_, ?_, ?_⟩
  · intro input offset len total single inside fits
    have digest := hash_eq single
    refine ⟨_, xof_eq single (by omega), ?_, _, digest, fun long => ?_⟩
    · rw [xofAt_eq single offset (by omega), drop_take_tabulate _ inside]
    · have first := drop_take_tabulate (Blake3.xofByte .unkeyed input) (show 0 + 32 ≤ total by omega)
      simp only [drop_zero, Nat.zero_add] at first
      rw [Blake3.rootChunk_eq, first]
  · intro bSeed offset len fits
    have range := expandRangeRaw_eq bSeed offset (show offset.toNat + len < 2 ^ 64 * 64 by omega)
    refine ⟨?_, fun {n k whole} expanded inside => ?_⟩
    · rw [range, expandRange_eq stream bSeed fits]
    · obtain ⟨total, -, rfl⟩ := expandRaw_ok expanded
      rw [length_bseedMatrix] at inside
      rw [range, bseedMatrix, drop_take_tabulate _ inside]
  · intro long bSeed n fits
    rw [← launchBseedExpand_iff long bSeed fits]
    refine forall₂_congr fun schedule out => exists_congr fun memory => and_congr_right fun _ => ⟨?_, ?_⟩
    · intro parts p below
      have place : (UInt64.ofNat p).toNat = p := UInt64.toNat_ofNat_of_lt' (show p < 2 ^ 64 by omega)
      have part := parts (.ofNat p) 1 (by omega)
      rw [expandRangeRaw_eq bSeed _ (by omega), drop_take_tabulate _ (by omega), place] at part
      exact ((cons.inj (Except.ok.inj part)).1).symm
    · intro same offset len inside
      rw [expandRangeRaw_eq bSeed _ (by omega), drop_take_tabulate _ inside]
      exact congrArg Except.ok (tabulate_congr fun j below => (same _ (by omega)).symm)

theorem xof_seekable_zeros : let seed : Digest := Vector.replicate 32 0
    (∃ output, HostBlake3.xof (replicate 1000 0) 300 = .ok output ∧
      HostBlake3.xofAt (replicate 1000 0) 70 130 = .ok ((output.drop 70).take 130)) ∧
    expandRangeRaw seed 70 130 = .ok (expandBseedInt7RangeInto .reference seed 70 130).toList ∧
    ∃ memory, launchBseedExpand .bits32 .ascending seed 300 (fun _ => 0) = some memory ∧
      expandRangeRaw seed 70 130 = .ok (((tabulate memory 300).drop 70).take 130) := by
  intro seed
  obtain ⟨host, expansions, device⟩ := xof_seekable XofReader.reference_conforms
  obtain ⟨output, read, part, -⟩ := @host (replicate 1000 0) 70 130 300
    (by rw [length_replicate]; decide) (by decide) (by decide)
  obtain ⟨memory, ran, parts⟩ := (@device .bits32 seed 300 (by decide)).mpr (by decide) .ascending fun _ => 0
  exact ⟨⟨output, read, part⟩, (@expansions seed 70 130 (by decide)).1, memory, ran, parts 70 130 (by decide)⟩

/-- At 2 GiB the end of the last block is one more than the largest `long` of 32 bits. -/
theorem bseed_expand_overflows :
    launchBseedExpand .bits32 .ascending (Vector.replicate 32 0) (2 ^ 31) (fun _ => 0) = none := by
  have count : LongWidth.bits32.convert ((int64 (2 ^ 31 + 63)).tdiv 64) = 2 ^ 25 := by decide +kernel
  unfold launchBseedExpand
  dsimp only
  rw [count, if_neg]
  rintro ⟨-, items⟩
  have last := items (2 ^ 25 - 1) (by decide +kernel)
  revert last
  decide +kernel

end ArcMiner.PearlGemm
