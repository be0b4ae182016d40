import ArcMiner.Library.Blake3Array
import ArcMiner.Library.CSharp
import ArcMiner.Library.Except
import ArcMiner.Library.Loop

/-! `Akoya.Crypto.Blake3`: single-chunk hashing and `MerkleRoot`.

Digests and keys are arrays of 32 bytes, so the length checks of `ParentCv`,
`RootCv` and of the output spans hold by type. The XOF is not modelled here.
-/

namespace ArcMiner.AkoyaCrypto.HostBlake3

open Library Library.CSharp Blake3 Vector

abbrev cvWords : Nat := 8
abbrev blockWords : Nat := 16

def iv : Vector UInt32 cvWords :=
  ⟨#[0x6A09E667, 0xBB67AE85, 0x3C6EF372, 0xA54FF53A, 0x510E527F, 0x9B05688C, 0x1F83D9AB, 0x5BE0CD19], by decide⟩

local instance : NeZero blockWords := ⟨by decide⟩

def msgPermutation : Vector (Fin blockWords) blockWords := #v[2, 6, 3, 10, 7, 0, 4, 13, 1, 11, 12, 5, 9, 14, 15, 8]

def flagChunkStart : UInt32 := 1
def flagChunkEnd : UInt32 := 2
def flagParent : UInt32 := 4
def flagRoot : UInt32 := 8
def flagKeyedHash : UInt32 := 16

def rotR (x n : UInt32) : UInt32 := (x >>> n) ||| (x <<< (32 - n))

def g (s : Vector UInt32 blockWords) (a b c d : Fin blockWords) (mx my : UInt32) : Vector UInt32 blockWords :=
  let s := s.set a (s[a] + s[b] + mx)
  let s := s.set d (rotR (s[d] ^^^ s[a]) 16)
  let s := s.set c (s[c] + s[d])
  let s := s.set b (rotR (s[b] ^^^ s[c]) 12)
  let s := s.set a (s[a] + s[b] + my)
  let s := s.set d (rotR (s[d] ^^^ s[a]) 8)
  let s := s.set c (s[c] + s[d])
  s.set b (rotR (s[b] ^^^ s[c]) 7)

/-- One iteration of the round loop; the message is permuted in all but the last. -/
def roundStep (state : Vector UInt32 blockWords × Vector UInt32 blockWords) (round : Nat) :
    Vector UInt32 blockWords × Vector UInt32 blockWords :=
  let (s, m) := state
  (roundWith g s m, if round < 6 then ofFn fun i => m[msgPermutation[i]] else m)

def initialState (cv : Vector UInt32 cvWords) (counter : UInt64) (blockLen flags : UInt32) : Vector UInt32 16 :=
  #v[cv[0], cv[1], cv[2], cv[3], cv[4], cv[5], cv[6], cv[7], iv[0], iv[1], iv[2], iv[3],
    (counter &&& 0xFFFFFFFF).toUInt32, (counter >>> 32).toUInt32, blockLen, flags]

def outWords (s : Vector UInt32 blockWords) (cv : Vector UInt32 cvWords) : Vector UInt32 16 :=
  #v[s[0] ^^^ s[8], s[1] ^^^ s[9], s[2] ^^^ s[10], s[3] ^^^ s[11], s[4] ^^^ s[12], s[5] ^^^ s[13],
    s[6] ^^^ s[14], s[7] ^^^ s[15], s[8] ^^^ cv[0], s[9] ^^^ cv[1], s[10] ^^^ cv[2], s[11] ^^^ cv[3],
    s[12] ^^^ cv[4], s[13] ^^^ cv[5], s[14] ^^^ cv[6], s[15] ^^^ cv[7]]

def compress (cv : Vector UInt32 8) (block : Vector UInt32 16) (counter : UInt64) (blockLen flags : UInt32) :
    Vector UInt32 16 := outWords ((List.range 7).foldl roundStep (initialState cv counter blockLen flags, block)).1 cv

def firstEight (w : Vector UInt32 blockWords) : Vector UInt32 8 := #v[w[0], w[1], w[2], w[3], w[4], w[5], w[6], w[7]]

def loadKeyWords (key : Digest) : Vector UInt32 8 := ofFn fun i => leWordAt key.toList (4 * i.val)

def wordsToBytes (words : Vector UInt32 8) : Digest := ofFn fun i => wordByte (getElem words (i.val / 4) (word_lt i)) (i.val % 4)

def loadBlock (data : List UInt8) : Vector UInt32 16 :=
  let words := (List.range (min (data.length / 4) 16)).foldl
    (fun words i => words.setIfInBounds i (leWordAt ((data.drop (4 * i)).take 4) 0)) (replicate 16 0)
  let fullWords := data.length / 4
  let tail := data.length % 4
  -- the remaining bytes are copied into four zero bytes
  if 0 < tail ∧ fullWords < 16 then
    words.setIfInBounds fullWords (leWordAt ((data.drop (4 * fullWords)).take tail) 0)
  else words

/-- The block loop of `Hash`, `KeyedHash` and `ChunkCv`, which differ in the words they start from, the counter and
the flags. -/
def chainBlocks (start : Vector UInt32 8) (baseFlags : UInt32) (counter : UInt64) (lastFlags : UInt32)
    (input : List UInt8) : Digest :=
  let totalBlocks := max 1 ((input.length + 63) / 64)
  wordsToBytes <| (List.range totalBlocks).foldl (fun cv i =>
    let blockBytes := min 64 (input.length - 64 * i)
    let block := loadBlock ((input.drop (64 * i)).take blockBytes)
    let flags := baseFlags
    let flags := if i = 0 then flags ||| flagChunkStart else flags
    let flags := if i = totalBlocks - 1 then flags ||| lastFlags else flags
    firstEight (compress cv block counter blockBytes.toUInt32 flags)) start

def hash (input : List UInt8) : Result Digest :=
  if 1024 < input.length then
    .error (.notSupported "Blake3.Hash only supports inputs ≤ 1024 bytes (single chunk). Use MerkleRoot for bigger inputs.")
  else .ok (chainBlocks iv 0 0 (flagChunkEnd ||| flagRoot) input)

def keyedHash (key : Digest) (input : List UInt8) : Result Digest :=
  if 1024 < input.length then .error (.notSupported "Blake3.KeyedHash only supports inputs ≤ 1024 bytes.")
  else .ok (chainBlocks (loadKeyWords key) flagKeyedHash 0 (flagChunkEnd ||| flagRoot) input)

def chunkCv (chunk : List UInt8) (chunkIndex : UInt64) (key : Digest) : Result Digest :=
  if chunk.length = 0 ∨ 1024 < chunk.length then .error (.argumentOutOfRange "chunk")
  else .ok (chainBlocks (loadKeyWords key) flagKeyedHash chunkIndex flagChunkEnd chunk)

def compressParent (left right key : Digest) (flags : UInt32) : Vector UInt32 16 :=
  let block := ofFn fun i : Fin 16 =>
    if i.val < 8 then leWordAt left.toList (4 * i.val) else leWordAt right.toList (4 * (i.val - 8))
  compress (loadKeyWords key) block 0 64 flags

def parentCv (left right key : Digest) : Digest :=
  wordsToBytes (firstEight (compressParent left right key (flagParent ||| flagKeyedHash)))

def rootCv (left right key : Digest) : Digest :=
  wordsToBytes (firstEight (compressParent left right key (flagParent ||| flagRoot ||| flagKeyedHash)))

/-- One pass of the loop over pairs; an odd last value moves up unchanged. -/
def nextLevel (key : Digest) (cvs : List Digest) : List Digest := pairUp (fun l r => parentCv l r key) cvs

def combineLevels (key : Digest) (cvs : List Digest) : List Digest :=
  Id.run <| whileLoop List.length (fun cvs => decide (2 < cvs.length)) (fun cvs => pure (nextLevel key cvs)) cvs

def rent (minimumLength : Int) : Result Unit :=
  if minimumLength < 0 then .error (.argumentOutOfRange "minimumLength") else .ok ()

def paddedLength (length : Nat) : Int :=
  let padded := int32 ((int32 (int32 (length + 1024) - 1)).tdiv 1024 * 1024)
  if padded = 0 then 1024 else padded

def padded (data : List UInt8) : Result (List UInt8) := do
  let paddedLen := paddedLength data.length
  if paddedLen = data.length then return data
  else
    rent paddedLen
    return data ++ List.replicate (paddedLen.toNat - data.length) 0

theorem size_key {key : List UInt8} (size : key.length = 32) : key.toArray.size = 32 := by simpa using size

def merkleRoot (data key : List UInt8) : Result Digest :=
  if size : key.length = 32 then do
    let key : Digest := ⟨key.toArray, size_key size⟩
    let totalLeaves := (paddedLength data.length).tdiv 1024
    let paddedData ← padded data
    if totalLeaves = 1 then keyedHash key (paddedData.take 1024)
    else
      let cvs ← (List.range totalLeaves.toNat).mapM fun i =>
        chunkCv ((paddedData.drop (1024 * i)).take 1024) i.toUInt64 key
      match combineLevels key cvs with
      | left :: right :: _ => return rootCv left right key
      | _ => .error .indexOutOfRange
  else .error (.argument "Key must be 32 bytes.")

theorem roundWith_g : roundWith g = roundWith mixAt :=
  roundWith_congr fun s _ _ _ _ mx my apart => mixAt_inPlace apart s mx my

theorem permuted_eq (m : Vector UInt32 blockWords) : (Vector.ofFn fun i => m[msgPermutation[i]]) = permuteArray m := by
  apply Vector.ext
  intro i bound
  simp only [Vector.getElem_ofFn]
  interval_cases i <;> rfl

theorem roundStep_eq (s m : Vector UInt32 16) (round : Nat) :
    roundStep (s, m) round =
      (roundWith mixAt s m, if round < 6 then permuteArray m else m) := by
  show (roundWith g s m, if round < 6 then ofFn fun i => m[msgPermutation[i]] else m) = _
  rw [roundWith_g, permuted_eq]

theorem rounds_eq (s m : Vector UInt32 16) :
    ((List.range 7).foldl roundStep (s, m)).1 = roundsArray 7 s m := by
  rw [show List.range 7 = [0, 1, 2, 3, 4, 5, 6] from rfl]
  simp only [List.foldl_cons, List.foldl_nil, roundStep_eq, roundsArray]
  rfl

theorem initialState_eq (cv : Vector UInt32 8) (counter : UInt64) (blockLen flags : UInt32) :
    initialState cv counter blockLen flags = (start (.ofWords cv) counter blockLen flags).toArray := by
  have low : (counter &&& 0xFFFFFFFF).toUInt32 = counter.toUInt32 := by
    rw [UInt64.toUInt32_and, show (0xFFFFFFFF : UInt64).toUInt32 = -1 from rfl, UInt32.and_neg_one]
  unfold initialState
  rw [low]
  rfl

theorem outWords_eq (s : Blake3.Words) (cv : Vector UInt32 8) :
    outWords s.toArray cv = (⟨s.r0.xor s.r2, s.r1.xor s.r3, s.r2.xor (Blake3.Cv.ofWords cv).lo,
      s.r3.xor (Blake3.Cv.ofWords cv).hi⟩ : Blake3.Words).toArray := rfl

theorem compress_eq (cv : Vector UInt32 8) (block : Vector UInt32 16) (counter : UInt64) (blockLen flags : UInt32) :
    compress cv block counter blockLen flags =
      (compressFull (.ofWords cv) (.ofArray block) counter blockLen flags).toArray := by
  have words := Blake3.Words.toArray_ofArray block
  unfold compress
  rw [rounds_eq, initialState_eq]
  conv_lhs => rw [← words]
  rw [roundsArray_toArray, outWords_eq]
  rfl

theorem firstEight_compress (cv : Vector UInt32 8) (block : Vector UInt32 16) (counter : UInt64) (blockLen flags : UInt32) :
    Blake3.Cv.ofWords (firstEight (compress cv block counter blockLen flags)) =
      Blake3.compress (.ofWords cv) (.ofArray block) counter blockLen flags := by
  rw [compress_eq]
  rfl

theorem wordsToBytes_eq (words : Vector UInt32 8) : wordsToBytes words = (Blake3.Cv.ofWords words).store :=
  (Blake3.Cv.store_ofWords words).symm

theorem loadKeyWords_eq (key : Digest) : Blake3.Cv.ofWords (loadKeyWords key) = .load key :=
  Blake3.Cv.ofWords_leWordAt key

theorem getElem_foldl_set (f : Nat → UInt32) (n : Nat) {i : Nat} (bound : i < 16) :
    ((List.range n).foldl (fun words i => words.setIfInBounds i (f i)) (replicate 16 0))[i] =
      if i < n then f i else 0 := by
  induction n with
  | zero => simp
  | succ n ih =>
    rw [List.range_succ, List.foldl_append, List.foldl_cons, List.foldl_nil, getElem_setIfInBounds, ih]
    split_ifs <;> first | rfl | omega | simp_all

theorem loadBlock_eq (data : List UInt8) : loadBlock data = (Blake3.Words.load data).toArray := by
  apply Vector.ext
  intro i bound
  rw [getElem_load data bound]
  unfold loadBlock
  simp only
  split
  next tail =>
    rw [Vector.getElem_setIfInBounds, getElem_foldl_set]
    split
    next last =>
      subst last
      exact leWordAt_take data _ _ (Or.inr (by omega))
    next =>
      split
      next inside => exact leWordAt_take data _ _ (Or.inl (by decide))
      next outside => exact (leWordAt_end data (by omega)).symm
  next tail =>
    rw [getElem_foldl_set]
    split
    next inside => exact leWordAt_take data _ _ (Or.inl (by decide))
    next outside => exact (leWordAt_end data (by omega)).symm

theorem blockFlags_eq (base last : UInt32) (i : Nat) {count : Nat} (positive : 0 < count) :
    (let flags := base
     let flags := if i = 0 then flags ||| flagChunkStart else flags
     if i = count - 1 then flags ||| (flagChunkEnd ||| last) else flags) =
      blockFlags base last count i := by
  have same : (i = count - 1) = (i + 1 = count) := by
    rw [eq_iff_iff]
    omega
  simp only [blockFlags, same]
  split_ifs <;> simp [flagChunkStart, flagChunkEnd, chunkStart, chunkEnd]

theorem chainBlocks_eq (start : Vector UInt32 8) (base : UInt32) (counter : UInt64) (last : UInt32) (input : List UInt8) :
    chainBlocks start base counter (flagChunkEnd ||| last) input =
      (Blake3.chunk (.ofWords start) base last counter input).store := by
  unfold chainBlocks Blake3.chunk
  rw [wordsToBytes_eq]
  congr 1
  refine (List.foldl_hom Blake3.Cv.ofWords fun cv i => ?_).symm
  have block : (input.drop (64 * i)).take (min 64 (input.length - 64 * i)) = Blake3.blockAt input i := by
    rw [Blake3.blockAt, ← List.take_take, List.take_of_length_le (l := input.drop (64 * i)) (by simp)]
  have length : min 64 (input.length - 64 * i) = (Blake3.blockAt input i).length := by
    simp [Blake3.blockAt]
  have flags := blockFlags_eq base last i (show 0 < Blake3.blockCount input.length by simp [Blake3.blockCount])
  simp only [firstEight_compress, block, loadBlock_eq, Blake3.Words.ofArray_toArray, Blake3.chainBlock, ← flags]
  rw [length]
  rfl

theorem hash_eq {input : List UInt8} (single : input.length ≤ 1024) :
    hash input = .ok (rootChunk .unkeyed input) := by
  unfold hash
  rw [if_neg (by omega), chainBlocks_eq]
  rfl

theorem keyedHash_eq (key : Digest) {input : List UInt8} (single : input.length ≤ 1024) :
    keyedHash key input = .ok (rootChunk (.keyed key) input) := by
  unfold keyedHash
  rw [if_neg (by omega), chainBlocks_eq, loadKeyWords_eq]
  rfl

theorem chunkCv_eq (key : Digest) {chunk : List UInt8} (index : UInt64) (nonempty : 0 < chunk.length)
    (single : chunk.length ≤ 1024) : chunkCv chunk index key = .ok (Blake3.chunkCv (.keyed key) index chunk) := by
  have flags : flagChunkEnd = flagChunkEnd ||| 0 := rfl
  unfold chunkCv
  rw [if_neg (by omega), flags, chainBlocks_eq, loadKeyWords_eq]
  rfl

theorem compressParent_eq (left right key : Digest) (flags : UInt32) :
    wordsToBytes (firstEight (compressParent left right key (flags ||| flagKeyedHash))) =
      joinCvs (.keyed key) flags left right := by
  have block : Blake3.Words.ofArray (ofFn fun i : Fin 16 =>
      if i.val < 8 then leWordAt left.toList (4 * i.val) else leWordAt right.toList (4 * (i.val - 8))) =
      ⟨(Blake3.Cv.load left).lo, (Blake3.Cv.load left).hi, (Blake3.Cv.load right).lo, (Blake3.Cv.load right).hi⟩ := by
    simp [Blake3.Words.ofArray, Blake3.Cv.load, loadRow, leWordAt_drop]
  unfold compressParent
  rw [wordsToBytes_eq, firstEight_compress, block, loadKeyWords_eq]
  rfl

theorem parentCv_eq (left right key : Digest) : parentCv left right key = Blake3.parentCv (.keyed key) left right :=
  compressParent_eq left right key flagParent

theorem rootCv_eq (left right key : Digest) : rootCv left right key = Blake3.rootCv (.keyed key) left right :=
  compressParent_eq left right key (flagParent ||| flagRoot)

end ArcMiner.AkoyaCrypto.HostBlake3
