import ArcMiner.Library.LittleEndian
import ArcMiner.Library.PairTree

/-! BLAKE3 as published.

The compression state is a four by four matrix of words, kept as four rows. A
round mixes the columns and then the diagonals. Chunks of 1024 bytes are chained
block by block, and the chunk chaining values are combined by the top-down tree
rule, with the root flag on the last compression only.
-/

namespace ArcMiner.Library

abbrev Digest := Vector UInt8 32

namespace Blake3

structure Row where
  x0 : UInt32
  x1 : UInt32
  x2 : UInt32
  x3 : UInt32
deriving DecidableEq

structure Words where
  r0 : Row
  r1 : Row
  r2 : Row
  r3 : Row
deriving DecidableEq

structure Cv where
  lo : Row
  hi : Row
deriving DecidableEq

def Row.xor (a b : Row) : Row := ⟨a.x0 ^^^ b.x0, a.x1 ^^^ b.x1, a.x2 ^^^ b.x2, a.x3 ^^^ b.x3⟩

def iv : Cv :=
  ⟨⟨0x6A09E667, 0xBB67AE85, 0x3C6EF372, 0xA54FF53A⟩, ⟨0x510E527F, 0x9B05688C, 0x1F83D9AB, 0x5BE0CD19⟩⟩

def chunkStart : UInt32 := 1
def chunkEnd : UInt32 := 2
def parent : UInt32 := 4
def root : UInt32 := 8
def keyedHash : UInt32 := 16

def rotateRight (x n : UInt32) : UInt32 := (x >>> n) ||| (x <<< (32 - n))

def mix (q : Row) (mx my : UInt32) : Row :=
  let a := q.x0 + q.x1 + mx
  let d := rotateRight (q.x3 ^^^ a) 16
  let c := q.x2 + d
  let b := rotateRight (q.x1 ^^^ c) 12
  let a := a + b + my
  let d := rotateRight (d ^^^ a) 8
  let c := c + d
  let b := rotateRight (b ^^^ c) 7
  ⟨a, b, c, d⟩

def round (s m : Words) : Words :=
  let c0 := mix ⟨s.r0.x0, s.r1.x0, s.r2.x0, s.r3.x0⟩ m.r0.x0 m.r0.x1
  let c1 := mix ⟨s.r0.x1, s.r1.x1, s.r2.x1, s.r3.x1⟩ m.r0.x2 m.r0.x3
  let c2 := mix ⟨s.r0.x2, s.r1.x2, s.r2.x2, s.r3.x2⟩ m.r1.x0 m.r1.x1
  let c3 := mix ⟨s.r0.x3, s.r1.x3, s.r2.x3, s.r3.x3⟩ m.r1.x2 m.r1.x3
  let d0 := mix ⟨c0.x0, c1.x1, c2.x2, c3.x3⟩ m.r2.x0 m.r2.x1
  let d1 := mix ⟨c1.x0, c2.x1, c3.x2, c0.x3⟩ m.r2.x2 m.r2.x3
  let d2 := mix ⟨c2.x0, c3.x1, c0.x2, c1.x3⟩ m.r3.x0 m.r3.x1
  let d3 := mix ⟨c3.x0, c0.x1, c1.x2, c2.x3⟩ m.r3.x2 m.r3.x3
  ⟨⟨d0.x0, d1.x0, d2.x0, d3.x0⟩, ⟨d3.x1, d0.x1, d1.x1, d2.x1⟩,
    ⟨d2.x2, d3.x2, d0.x2, d1.x2⟩, ⟨d1.x3, d2.x3, d3.x3, d0.x3⟩⟩

def permute (m : Words) : Words :=
  ⟨⟨m.r0.x2, m.r1.x2, m.r0.x3, m.r2.x2⟩, ⟨m.r1.x3, m.r0.x0, m.r1.x0, m.r3.x1⟩,
    ⟨m.r0.x1, m.r2.x3, m.r3.x0, m.r1.x1⟩, ⟨m.r2.x1, m.r3.x2, m.r3.x3, m.r2.x0⟩⟩

def rounds : Nat → Words → Words → Words
  | 0, s, _ => s
  | n + 1, s, m => rounds n (round s m) (permute m)

def start (cv : Cv) (counter : UInt64) (blockLen flags : UInt32) : Words :=
  ⟨cv.lo, cv.hi, iv.lo, ⟨counter.toUInt32, (counter >>> 32).toUInt32, blockLen, flags⟩⟩

def compressFull (cv : Cv) (block : Words) (counter : UInt64) (blockLen flags : UInt32) : Words :=
  let s := rounds 7 (start cv counter blockLen flags) block
  ⟨s.r0.xor s.r2, s.r1.xor s.r3, s.r2.xor cv.lo, s.r3.xor cv.hi⟩

def compress (cv : Cv) (block : Words) (counter : UInt64) (blockLen flags : UInt32) : Cv :=
  let out := compressFull cv block counter blockLen flags
  ⟨out.r0, out.r1⟩

def loadRow (bytes : List UInt8) : Row :=
  ⟨leWordAt bytes 0, leWordAt bytes 4, leWordAt bytes 8, leWordAt bytes 12⟩

def Words.load (bytes : List UInt8) : Words :=
  ⟨loadRow bytes, loadRow (bytes.drop 16), loadRow (bytes.drop 32), loadRow (bytes.drop 48)⟩

def Cv.load (d : Digest) : Cv := ⟨loadRow d.toList, loadRow (d.toList.drop 16)⟩

abbrev cvWords : Nat := 8

def Cv.ofWords (w : Vector UInt32 cvWords) : Cv := ⟨⟨w[0], w[1], w[2], w[3]⟩, ⟨w[4], w[5], w[6], w[7]⟩⟩

def Row.word (r : Row) : Nat → UInt32
  | 0 => r.x0
  | 1 => r.x1
  | 2 => r.x2
  | _ => r.x3

def Cv.word (cv : Cv) (i : Nat) : UInt32 := if i < 4 then cv.lo.word i else cv.hi.word (i - 4)

def Cv.store (cv : Cv) : Digest := Vector.ofFn fun i => wordByte (cv.word (i.val / 4)) (i.val % 4)

section chunks

def blockCount (len : Nat) : Nat := max 1 ((len + 63) / 64)

def blockAt (bytes : List UInt8) (i : Nat) : List UInt8 := (bytes.drop (64 * i)).take 64

def blockFlags (base last : UInt32) (count i : Nat) : UInt32 :=
  base ||| (if i = 0 then chunkStart else 0) ||| (if i + 1 = count then chunkEnd ||| last else 0)

def chainBlock (base last : UInt32) (counter : UInt64) (bytes : List UInt8) (cv : Cv) (i : Nat) : Cv :=
  let block := blockAt bytes i
  compress cv (Words.load block) counter block.length.toUInt32
    (blockFlags base last (blockCount bytes.length) i)

def chunk (key : Cv) (base last : UInt32) (counter : UInt64) (bytes : List UInt8) : Cv :=
  (List.range (blockCount bytes.length)).foldl (chainBlock base last counter bytes) key

end chunks

/-- A mode of operation: the words the chaining starts from and the flags of every compression. -/
structure Mode where
  key : Cv
  flags : UInt32
deriving DecidableEq

def Mode.unkeyed : Mode := ⟨iv, 0⟩

def Mode.keyed (key : Digest) : Mode := ⟨.load key, keyedHash⟩

section tree
variable (mode : Mode)

def chunkCv (counter : UInt64) (bytes : List UInt8) : Digest := (chunk mode.key mode.flags 0 counter bytes).store

def rootChunk (bytes : List UInt8) : Digest := (chunk mode.key mode.flags root 0 bytes).store

def joinCvs (flags : UInt32) (left right : Digest) : Digest :=
  let l := Cv.load left
  let r := Cv.load right
  (compress mode.key ⟨l.lo, l.hi, r.lo, r.hi⟩ 0 64 (flags ||| mode.flags)).store

def parentCv (left right : Digest) : Digest := joinCvs mode parent left right

def rootCv (left right : Digest) : Digest := joinCvs mode (parent ||| root) left right

def chunkAt (bytes : List UInt8) (i : Nat) : List UInt8 := (bytes.drop (1024 * i)).take 1024

def chunkCount (len : Nat) : Nat := (len + 1023) / 1024

def chunkCvAt (bytes : List UInt8) (i : Nat) : Digest := chunkCv mode i.toUInt64 (chunkAt bytes i)

def treeHash (bytes : List UInt8) : Digest :=
  if bytes.length ≤ 1024 then rootChunk mode bytes
  else treeRoot (parentCv mode) (rootCv mode) (chunkCvAt mode bytes) (chunkCount bytes.length)

end tree

theorem chunkAt_drop_take (data : List UInt8) {first i stop : Nat}
    (whole : 1024 * (first + i + 1) ≤ stop ∨ data.length ≤ stop) :
    chunkAt ((data.take stop).drop (1024 * first)) i = chunkAt data (first + i) := by
  apply List.ext_getElem?
  intro j
  simp only [chunkAt, List.getElem?_take, List.getElem?_drop]
  by_cases inside : j < 1024
  · have place : 1024 * first + (1024 * i + j) = 1024 * (first + i) + j := by ring
    rw [if_pos inside, if_pos inside, place]
    rcases whole with whole | whole
    · rw [if_pos (by omega)]
    · by_cases before : 1024 * (first + i) + j < stop
      · rw [if_pos before]
      · rw [if_neg before, List.getElem?_eq_none (by omega)]
  · rw [if_neg inside, if_neg inside]

theorem length_chunkAt (data : List UInt8) (i : Nat) :
    (chunkAt data i).length = min 1024 (data.length - 1024 * i) := by
  simp [chunkAt]

def fillChunks (bytes : List UInt8) : List UInt8 :=
  bytes ++ List.replicate (chunkCount bytes.length * 1024 - bytes.length) 0

theorem length_fillChunks (bytes : List UInt8) : (fillChunks bytes).length = chunkCount bytes.length * 1024 := by
  simp only [fillChunks, List.length_append, List.length_replicate, chunkCount]
  omega

theorem Cv.ofWords_leWordAt (d : Digest) :
    Cv.ofWords (Vector.ofFn fun i => leWordAt d.toList (4 * i.val)) = Cv.load d := by
  simp [Cv.ofWords, Cv.load, loadRow, leWordAt]

theorem loadRow_words (r : Row) (rest : List UInt8) :
    loadRow ([wordByte r.x0 0, wordByte r.x0 1, wordByte r.x0 2, wordByte r.x0 3,
      wordByte r.x1 0, wordByte r.x1 1, wordByte r.x1 2, wordByte r.x1 3,
      wordByte r.x2 0, wordByte r.x2 1, wordByte r.x2 2, wordByte r.x2 3,
      wordByte r.x3 0, wordByte r.x3 1, wordByte r.x3 2, wordByte r.x3 3] ++ rest) = r := by
  simp only [loadRow, leWordAt, List.cons_append, List.getD_cons_zero, List.getD_cons_succ, leWord_wordByte]

theorem Cv.load_store (cv : Cv) : Cv.load cv.store = cv := by
  have bytes : cv.store.toList =
    [wordByte cv.lo.x0 0, wordByte cv.lo.x0 1, wordByte cv.lo.x0 2, wordByte cv.lo.x0 3,
      wordByte cv.lo.x1 0, wordByte cv.lo.x1 1, wordByte cv.lo.x1 2, wordByte cv.lo.x1 3,
      wordByte cv.lo.x2 0, wordByte cv.lo.x2 1, wordByte cv.lo.x2 2, wordByte cv.lo.x2 3,
      wordByte cv.lo.x3 0, wordByte cv.lo.x3 1, wordByte cv.lo.x3 2, wordByte cv.lo.x3 3] ++
    [wordByte cv.hi.x0 0, wordByte cv.hi.x0 1, wordByte cv.hi.x0 2, wordByte cv.hi.x0 3,
      wordByte cv.hi.x1 0, wordByte cv.hi.x1 1, wordByte cv.hi.x1 2, wordByte cv.hi.x1 3,
      wordByte cv.hi.x2 0, wordByte cv.hi.x2 1, wordByte cv.hi.x2 2, wordByte cv.hi.x2 3,
      wordByte cv.hi.x3 0, wordByte cv.hi.x3 1, wordByte cv.hi.x3 2, wordByte cv.hi.x3 3] := by
    rw [Cv.store, Vector.toList_ofFn]
    rfl
  rw [Cv.load, bytes, loadRow_words, List.drop_append_of_le_length (by simp)]
  have hi := loadRow_words cv.hi []
  rw [List.append_nil] at hi
  simp only [List.drop_succ_cons, List.drop_zero, List.nil_append, hi]

section zeros

/-! Values for chunks of zeros under the zero key. -/

def zeroKey : Digest := Vector.replicate 32 0

def zeroChunk : List UInt8 := List.replicate 1024 0

theorem length_zeroChunk : zeroChunk.length = 1024 := List.length_replicate

set_option maxRecDepth 10000

theorem chunkCv_zero_first : chunkCv (.keyed zeroKey) 0 zeroChunk =
    #v[254, 83, 50, 65, 148, 2, 210, 238, 2, 27, 149, 160, 92, 253, 69, 188, 5, 108, 59, 239,
    92, 6, 113, 160, 202, 47, 138, 53, 89, 91, 190, 244] := by
  decide +kernel

theorem chunkCv_zero_second : chunkCv (.keyed zeroKey) 1 zeroChunk =
    #v[168, 115, 76, 54, 251, 234, 219, 120, 90, 180, 235, 99, 138, 51, 189, 180, 136, 88, 145, 82,
    70, 30, 77, 83, 163, 216, 11, 231, 7, 59, 152, 7] := by
  decide +kernel

theorem chunkCv_zero_third : chunkCv (.keyed zeroKey) 2 zeroChunk =
    #v[33, 17, 211, 219, 114, 33, 168, 27, 21, 238, 26, 34, 176, 231, 222, 14, 89, 92, 219, 236,
    71, 165, 3, 254, 79, 99, 104, 212, 161, 234, 83, 141] := by
  decide +kernel

theorem chunkCv_zero_sixth : chunkCv (.keyed zeroKey) 5 zeroChunk =
    #v[188, 206, 21, 134, 204, 4, 227, 41, 193, 250, 199, 41, 153, 246, 126, 94, 9, 122, 50, 180,
    184, 157, 30, 140, 221, 100, 42, 82, 53, 101, 109, 102] := by
  decide +kernel

theorem rootChunk_zero : rootChunk (.keyed zeroKey) zeroChunk =
    #v[170, 211, 171, 219, 235, 10, 36, 150, 169, 102, 163, 128, 152, 65, 162, 234, 87, 254, 5, 10,
    0, 147, 247, 51, 136, 144, 200, 118, 70, 168, 11, 145] := by
  decide +kernel

end zeros
end Blake3
end ArcMiner.Library
