import ArcMiner.Library.Blake3

/-! The extendable output of BLAKE3 for inputs of one chunk.

The last block of the chunk is compressed once for every 64 bytes of output,
with the number of the output block as the counter.
-/

namespace ArcMiner.Library.Blake3

def Words.word (w : Words) (i : Nat) : UInt32 :=
  if i < 4 then w.r0.word i else if i < 8 then w.r1.word (i - 4) else if i < 12 then w.r2.word (i - 8)
  else w.r3.word (i - 12)

def beforeLast (mode : Mode) (bytes : List UInt8) : Cv :=
  (List.range (blockCount bytes.length - 1)).foldl (chainBlock mode.flags root 0 bytes) mode.key

def xofWords (mode : Mode) (bytes : List UInt8) (counter : UInt64) : Words :=
  let last := blockCount bytes.length - 1
  let block := blockAt bytes last
  compressFull (beforeLast mode bytes) (Words.load block) counter block.length.toUInt32
    (blockFlags mode.flags root (blockCount bytes.length) last)

def xofByte (mode : Mode) (bytes : List UInt8) (i : Nat) : UInt8 :=
  wordByte ((xofWords mode bytes (i / 64).toUInt64).word (i % 64 / 4)) (i % 4)

def Row.bytes (r : Row) : List UInt8 := wordBytes r.x0 ++ (wordBytes r.x1 ++ (wordBytes r.x2 ++ wordBytes r.x3))

def Words.bytes (w : Words) : List UInt8 := w.r0.bytes ++ (w.r1.bytes ++ (w.r2.bytes ++ w.r3.bytes))

theorem Words.bytes_eq (w : Words) : w.bytes = tabulate (fun j => wordByte (w.word (j / 4)) (j % 4)) 64 := rfl

theorem tabulate_xofByte (mode : Mode) (bytes : List UInt8) (first count : Nat) :
    tabulate (fun j => xofByte mode bytes (first * 64 + j)) (count * 64) =
      (List.range' first count).flatMap fun c => (xofWords mode bytes c.toUInt64).bytes := by
  rw [← flatMap_blocks, List.range'_eq_map_range, List.flatMap_map]
  refine List.flatMap_congr fun c member => ?_
  have inside := List.mem_range.mp member
  rw [Words.bytes_eq]
  refine tabulate_congr fun j bound => ?_
  have block : (first * 64 + (c * 64 + j)) / 64 = first + c := by omega
  have place : (first * 64 + (c * 64 + j)) % 64 = j := by omega
  have byte : (first * 64 + (c * 64 + j)) % 4 = j % 4 := by omega
  rw [xofByte, block, place, byte]

theorem rootChunk_eq (mode : Mode) (bytes : List UInt8) :
    (rootChunk mode bytes).toList = tabulate (xofByte mode bytes) 32 := by
  have count : blockCount bytes.length = blockCount bytes.length - 1 + 1 := by
    have : 1 ≤ blockCount bytes.length := Nat.le_max_left ..
    omega
  have last : chunk mode.key mode.flags root 0 bytes = ⟨(xofWords mode bytes 0).r0, (xofWords mode bytes 0).r1⟩ := by
    rw [chunk, count, List.range_succ, List.foldl_append]
    rfl
  rw [rootChunk, last, Cv.store, Vector.toList_ofFn]
  apply List.ext_getElem
  · simp
  · intro i inStore inOutput
    have small : i < 32 := by simpa using inStore
    have block : i / 64 = 0 := by omega
    have place : i % 64 = i := by omega
    have word : (xofWords mode bytes 0).word (i / 4) =
        Cv.word ⟨(xofWords mode bytes 0).r0, (xofWords mode bytes 0).r1⟩ (i / 4) := by
      rw [Words.word, Cv.word, if_pos (show i / 4 < 8 by omega)]
    rw [List.getElem_ofFn, ← word]
    simp only [tabulate, List.getElem_map, List.getElem_range, xofByte, block, place]
    rfl

end ArcMiner.Library.Blake3
