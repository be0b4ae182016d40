import ArcMiner.Library.Blake3Array

/-! `blake3_device.hpp`: BLAKE3 in kernel code.

A pointer is the list of bytes it points at. A null key pointer is `none`.
-/

namespace ArcMiner.PearlGemm.B3

open Library
open Blake3.Cv (ofWords)

abbrev Node := Vector UInt32 8
abbrev nodeWords : Nat := 8
abbrev blockWords : Nat := 16

def chunkStart : UInt32 := 1
def chunkEnd : UInt32 := 2
def parent : UInt32 := 4
def root : UInt32 := 8
def keyedHash : UInt32 := 16

def add32 (x y : UInt32) : UInt32 := x + y

def rightrotate32 (x n : UInt32) : UInt32 := (x <<< (32 - n)) ||| (x >>> n)

/-- Eight consecutive statements of `BLAKE3_ROUND`. -/
def quarter (s : Vector UInt32 blockWords) (a b c d : Fin blockWords) (mx my : UInt32) : Vector UInt32 blockWords :=
  let s := s.set a (add32 s[a] (add32 s[b] mx))
  let s := s.set d (rightrotate32 (s[d] ^^^ s[a]) 16)
  let s := s.set c (add32 s[c] s[d])
  let s := s.set b (rightrotate32 (s[b] ^^^ s[c]) 12)
  let s := s.set a (add32 s[a] (add32 s[b] my))
  let s := s.set d (rightrotate32 (s[d] ^^^ s[a]) 8)
  let s := s.set c (add32 s[c] s[d])
  s.set b (rightrotate32 (s[b] ^^^ s[c]) 7)

def blake3Round (state block : Vector UInt32 16) : Vector UInt32 16 := Blake3.roundWith quarter state block

def blake3Permute (m : Vector UInt32 blockWords) : Vector UInt32 16 :=
  #v[m[2], m[6], m[3], m[10], m[7], m[0], m[4], m[13], m[1], m[11], m[12], m[5], m[9], m[14], m[15], m[8]]

def initialState (cv : Vector UInt32 nodeWords) (counter : UInt64) (blockLen flags : UInt32) : Vector UInt32 16 :=
  #v[cv[0], cv[1], cv[2], cv[3], cv[4], cv[5], cv[6], cv[7], 0x6A09E667, 0xBB67AE85, 0x3C6EF372, 0xA54FF53A,
    counter.toUInt32, (counter >>> 32).toUInt32, blockLen, flags]

def roundPermute (regs : Vector UInt32 16 × Vector UInt32 16) : Vector UInt32 16 × Vector UInt32 16 :=
  (blake3Round regs.1 regs.2, blake3Permute regs.2)

def sevenRounds (state block : Vector UInt32 16) : Vector UInt32 16 :=
  let regs := (List.range 6).foldl (fun regs _ => roundPermute regs) (state, block)
  blake3Round regs.1 regs.2

def xorHalves (state : Vector UInt32 blockWords) : Node :=
  #v[state[0] ^^^ state[8], state[1] ^^^ state[9], state[2] ^^^ state[10], state[3] ^^^ state[11],
    state[4] ^^^ state[12], state[5] ^^^ state[13], state[6] ^^^ state[14], state[7] ^^^ state[15]]

def compress (cv : Node) (block : Vector UInt32 16) (counter : UInt64) (blockLen flags : UInt32) : Node :=
  xorHalves (sevenRounds (initialState cv counter blockLen flags) block)

def xorFull (state : Vector UInt32 blockWords) (cv : Vector UInt32 nodeWords) : Vector UInt32 16 :=
  #v[state[0] ^^^ state[8], state[1] ^^^ state[9], state[2] ^^^ state[10], state[3] ^^^ state[11],
    state[4] ^^^ state[12], state[5] ^^^ state[13], state[6] ^^^ state[14], state[7] ^^^ state[15],
    state[8] ^^^ cv[0], state[9] ^^^ cv[1], state[10] ^^^ cv[2], state[11] ^^^ cv[3],
    state[12] ^^^ cv[4], state[13] ^^^ cv[5], state[14] ^^^ cv[6], state[15] ^^^ cv[7]]

def compressFull (cv : Node) (block : Vector UInt32 16) (counter : UInt64) (blockLen flags : UInt32) : Vector UInt32 16 :=
  xorFull (sevenRounds (initialState cv counter blockLen flags) block) cv

def initCv : Option Node → Vector UInt32 nodeWords
  | some key => key
  | none =>
    ⟨#[0x6A09E667, 0xBB67AE85, 0x3C6EF372, 0xA54FF53A, 0x510E527F, 0x9B05688C, 0x1F83D9AB, 0x5BE0CD19], by decide⟩

def keyFlag (key : Option Node) : UInt32 := if key.isSome then keyedHash else 0

def cvToBytes (cv : Node) : Digest := Vector.ofFn fun i => wordByte (getElem cv (i.val / 4) (Blake3.word_lt i)) (i.val % 4)

def loadBlock (p : List UInt8) : Vector UInt32 16 := Vector.ofFn fun j => leWordAt p (j.val * 4)

def hashBlockU32 (block : Vector UInt32 16) (key : Option Node) : Node :=
  compress (initCv key) block 0 64 (keyFlag key ||| chunkStart ||| chunkEnd ||| root)

def hashBlock (block : Vector UInt32 16) (key : Option Node) : Digest := cvToBytes (hashBlockU32 block key)

def chunkCv (data : List UInt8) (idx : UInt64) (key : Option Node) (isRoot : Bool) : Node :=
  (List.range 16).foldl (fun cv b =>
    let f := keyFlag key
    let f := if b = 0 then f ||| chunkStart else f
    let f := if b = 15 then (if isRoot then f ||| chunkEnd ||| root else f ||| chunkEnd) else f
    compress cv (loadBlock (data.drop (b * 64))) idx 64 f) (initCv key)

def parentCv (left right : Node) (key : Option Node) (isRoot : Bool) : Node :=
  compress (initCv key) (Vector.ofFn fun i : Fin 16 => if h : i.val < 8 then left[i.val] else right[i.val - 8]) 0 64
    (parent ||| keyFlag key ||| (if isRoot then root else 0))

def keyWords (key : Digest) : Node := Vector.ofFn fun i => leWordAt key.toList (4 * i.val)

theorem rightrotate32_eq (x n : UInt32) : rightrotate32 x n = Blake3.rotateRight x n := UInt32.or_comm _ _

theorem add32_add32 (x y z : UInt32) : add32 x (add32 y z) = x + y + z := (UInt32.add_assoc x y z).symm

theorem roundWith_quarter : Blake3.roundWith quarter = Blake3.roundWith Blake3.mixAt := by
  refine Blake3.roundWith_congr fun s a b c d mx my apart => ?_
  simp only [quarter, add32_add32, rightrotate32_eq]
  exact Blake3.mixAt_inPlace apart s mx my

theorem blake3Round_eq : blake3Round = Blake3.roundWith Blake3.mixAt := roundWith_quarter

theorem sevenRounds_eq (s m : Vector UInt32 16) : sevenRounds s m = Blake3.roundsArray 7 s m := by
  have permute : blake3Permute = Blake3.permuteArray := rfl
  unfold sevenRounds
  rw [show List.range 6 = [0, 1, 2, 3, 4, 5] from rfl]
  simp only [List.foldl_cons, List.foldl_nil, roundPermute, blake3Round_eq, permute, Blake3.roundsArray]

theorem initialState_eq (cv : Node) (counter : UInt64) (blockLen flags : UInt32) :
    initialState cv counter blockLen flags = (Blake3.start (.ofWords cv) counter blockLen flags).toArray := rfl

theorem xorHalves_eq (s : Blake3.Words) : ofWords (xorHalves s.toArray) = ⟨s.r0.xor s.r2, s.r1.xor s.r3⟩ := rfl

theorem compress_eq (cv : Node) (block : Vector UInt32 16) (counter : UInt64) (blockLen flags : UInt32) :
    ofWords (compress cv block counter blockLen flags) =
      Blake3.compress (.ofWords cv) (.ofArray block) counter blockLen flags := by
  have words := Blake3.Words.toArray_ofArray block
  unfold compress
  rw [sevenRounds_eq, initialState_eq]
  conv_lhs => rw [← words]
  rw [Blake3.roundsArray_toArray, xorHalves_eq]
  rfl

theorem xorFull_eq (s : Blake3.Words) (cv : Node) :
    xorFull s.toArray cv = (⟨s.r0.xor s.r2, s.r1.xor s.r3, s.r2.xor (ofWords cv).lo,
      s.r3.xor (ofWords cv).hi⟩ : Blake3.Words).toArray := rfl

theorem compressFull_eq (cv : Node) (block : Vector UInt32 16) (counter : UInt64) (blockLen flags : UInt32) :
    compressFull cv block counter blockLen flags =
      (Blake3.compressFull (.ofWords cv) (.ofArray block) counter blockLen flags).toArray := by
  have words := Blake3.Words.toArray_ofArray block
  unfold compressFull
  rw [sevenRounds_eq, initialState_eq]
  conv_lhs => rw [← words]
  rw [Blake3.roundsArray_toArray, xorFull_eq]
  rfl

theorem cvToBytes_eq (cv : Node) : cvToBytes cv = (ofWords cv).store := (Blake3.Cv.store_ofWords cv).symm

theorem load_cvToBytes (cv : Node) : Blake3.Cv.load (cvToBytes cv) = .ofWords cv := by
  rw [cvToBytes_eq, Blake3.Cv.load_store]

theorem ofWords_keyWords (key : Digest) : ofWords (keyWords key) = .load key := Blake3.Cv.ofWords_leWordAt key

theorem keyWords_cvToBytes (cv : Node) : keyWords (cvToBytes cv) = cv := by
  have same : ofWords (keyWords (cvToBytes cv)) = .ofWords cv := by rw [ofWords_keyWords, load_cvToBytes]
  apply Vector.ext
  intro k bound
  rw [← Blake3.Cv.word_ofWords _ bound, same, Blake3.Cv.word_ofWords _ bound]

theorem leWordAt_cvToBytes (cv : Node) {k : Nat} (bound : k < 8) : leWordAt (cvToBytes cv).toList (4 * k) = cv[k] := by
  calc leWordAt (cvToBytes cv).toList (4 * k) = (keyWords (cvToBytes cv))[k] := by
        rw [keyWords, Vector.getElem_ofFn]
    _ = cv[k] := by simp only [keyWords_cvToBytes]

theorem ofArray_loadBlock (p : List UInt8) : Blake3.Words.ofArray (loadBlock p) = .load p := by
  simp [Blake3.Words.ofArray, loadBlock, Blake3.Words.load, Blake3.loadRow, Blake3.leWordAt_drop]

theorem load_block (data : List UInt8) {b : Nat} (inside : b < 16) :
    Blake3.Words.load (data.drop (b * 64)) = .load (Blake3.blockAt (data.take 1024) b) := by
  apply Blake3.load_congr
  intro k small
  simp only [Blake3.blockAt, List.getD_eq_getElem?_getD, List.getElem?_take, List.getElem?_drop]
  rw [if_pos small, if_pos (by omega), Nat.mul_comm]

theorem blockFlags_eq (isRoot : Bool) (b : Nat) :
    (let f := keyedHash
     let f := if b = 0 then f ||| chunkStart else f
     if b = 15 then (if isRoot then f ||| chunkEnd ||| root else f ||| chunkEnd) else f) =
      Blake3.blockFlags Blake3.keyedHash (if isRoot then Blake3.root else 0) 16 b := by
  have last : (b + 1 = 16) = (b = 15) := by simp
  simp only [Blake3.blockFlags, last]
  split_ifs <;> rfl

theorem chunkCv_eq (key : Digest) {data : List UInt8} (full : 1024 ≤ data.length) (idx : UInt64) (isRoot : Bool) :
    ofWords (chunkCv data idx (some (keyWords key)) isRoot) =
      Blake3.chunk (.load key) Blake3.keyedHash (if isRoot then Blake3.root else 0) idx (data.take 1024) := by
  have length : (data.take 1024).length = 1024 := by rw [List.length_take, Nat.min_eq_left full]
  have count : Blake3.blockCount (data.take 1024).length = 16 := by
    rw [length]
    rfl
  unfold chunkCv Blake3.chunk
  rw [count, ← ofWords_keyWords]
  -- the words kept by the loop are the chaining value of the specification
  refine List.foldl_rel (r := fun words cv => ofWords words = cv) rfl fun b member words cv same => ?_
  have inside := List.mem_range.mp member
  have size : (Blake3.blockAt (data.take 1024) b).length = 64 := by
    rw [Blake3.blockAt, List.length_take, List.length_drop, length]
    omega
  subst same
  rw [compress_eq, ofArray_loadBlock, load_block data inside, Blake3.chainBlock, size, count,
    ← blockFlags_eq isRoot b]
  rfl

theorem keyFlag_some (key : Node) : keyFlag (some key) = keyedHash := rfl

theorem hashBlock_eq {key : Option Node} {mode : Blake3.Mode} (start : ofWords (initCv key) = mode.key)
    (flags : keyFlag key = mode.flags) {bytes : List UInt8} (length : bytes.length = 64) :
    hashBlock (loadBlock bytes) key = Blake3.rootChunk mode bytes := by
  have count : Blake3.blockCount bytes.length = 1 := by rw [length]; rfl
  have whole : Blake3.blockAt bytes 0 = bytes := List.take_of_length_le (by rw [List.length_drop]; omega)
  have last : keyFlag key ||| chunkStart ||| chunkEnd ||| root = Blake3.blockFlags mode.flags Blake3.root 1 0 := by
    rw [flags, UInt32.or_assoc _ chunkEnd root]
    rfl
  unfold hashBlock hashBlockU32 Blake3.rootChunk Blake3.chunk
  rw [cvToBytes_eq, compress_eq, ofArray_loadBlock, count, List.range_one, List.foldl_cons, List.foldl_nil,
    Blake3.chainBlock, whole, count, length, start, last]
  rfl

theorem hashBlock_keyed (key : Digest) {bytes : List UInt8} (length : bytes.length = 64) :
    hashBlock (loadBlock bytes) (some (keyWords key)) = Blake3.rootChunk (.keyed key) bytes := by
  apply hashBlock_eq
  · exact ofWords_keyWords key
  · rfl
  · exact length

theorem hashBlock_unkeyed {bytes : List UInt8} (length : bytes.length = 64) :
    hashBlock (loadBlock bytes) none = Blake3.rootChunk .unkeyed bytes := hashBlock_eq rfl rfl length

theorem parentCv_join (key : Digest) (left right : Node) (isRoot : Bool) :
    cvToBytes (parentCv left right (some (keyWords key)) isRoot) =
      Blake3.joinCvs (.keyed key) (if isRoot then Blake3.parent ||| Blake3.root else Blake3.parent)
        (cvToBytes left) (cvToBytes right) := by
  have block : Blake3.Words.ofArray (Vector.ofFn fun i : Fin 16 =>
      if h : i.val < 8 then left[i.val] else right[i.val - 8]) =
      ⟨(ofWords left).lo, (ofWords left).hi,
        (ofWords right).lo, (ofWords right).hi⟩ := by
    simp [Blake3.Words.ofArray, ofWords]
  have flags : parent ||| keyFlag (some (keyWords key)) ||| (if isRoot then root else 0) =
      (if isRoot then Blake3.parent ||| Blake3.root else Blake3.parent) ||| (Blake3.Mode.keyed key).flags := by
    rw [keyFlag_some, show (Blake3.Mode.keyed key).flags = Blake3.keyedHash from rfl]
    cases isRoot <;> rfl
  have start : ofWords (initCv (some (keyWords key))) = (Blake3.Mode.keyed key).key := ofWords_keyWords key
  rw [cvToBytes_eq, parentCv, compress_eq, block, flags, start, Blake3.joinCvs, load_cvToBytes, load_cvToBytes]

theorem parentCv_eq (key : Digest) (left right : Node) : cvToBytes (parentCv left right (some (keyWords key)) false) =
      Blake3.parentCv (.keyed key) (cvToBytes left) (cvToBytes right) := parentCv_join key left right false

theorem rootCv_eq (key : Digest) (left right : Node) : cvToBytes (parentCv left right (some (keyWords key)) true) =
      Blake3.rootCv (.keyed key) (cvToBytes left) (cvToBytes right) := parentCv_join key left right true

end ArcMiner.PearlGemm.B3
