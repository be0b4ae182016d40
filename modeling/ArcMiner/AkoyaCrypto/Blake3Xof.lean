import ArcMiner.AkoyaCrypto.Blake3
import ArcMiner.Library.Blake3Xof

/-! `Akoya.Crypto.Blake3`: the extendable output.

`Xof` reads the output from its start and `XofAt` from any byte on. Both compress
the last block again for every 64 bytes.
-/

namespace ArcMiner.AkoyaCrypto.HostBlake3

open Library Library.CSharp
open Blake3 (blockAt blockCount blockFlags xofByte)

structure LastBlock where
  chainingValue : Vector UInt32 8
  blockWords : Vector UInt32 16
  lastBlockLen : UInt32
  lastFlags : UInt32

def lastBlock (input : List UInt8) : LastBlock :=
  let totalBlocks := max 1 ((input.length + 63) / 64)
  let lastBlockOffset := (totalBlocks - 1) * 64
  let lastBlockLen := min 64 (input.length - lastBlockOffset)
  let chainingValue := (List.range (totalBlocks - 1)).foldl (fun cv i =>
    let blockBytes := min 64 (input.length - 64 * i)
    let block := loadBlock ((input.drop (64 * i)).take blockBytes)
    let flags := if i = 0 then 0 ||| flagChunkStart else 0
    firstEight (compress cv block 0 blockBytes.toUInt32 flags)) iv
  let lastFlags := flagChunkEnd ||| flagRoot
  let lastFlags := if totalBlocks = 1 then lastFlags ||| flagChunkStart else lastFlags
  ⟨chainingValue, loadBlock ((input.drop lastBlockOffset).take lastBlockLen), lastBlockLen.toUInt32, lastFlags⟩

def LastBlock.xofOut (last : LastBlock) (counter : UInt64) : Vector UInt32 16 :=
  compress last.chainingValue last.blockWords counter last.lastBlockLen last.lastFlags

def blockByte (words : Vector UInt32 16) (j : Nat) : UInt8 := wordByte (words.toList.getD (j / 4) 0) (j % 4)

structure XofState where
  output : List UInt8
  counter : UInt64
  skipInFirst : Nat

def xofAtStep (last : LastBlock) (length : Nat) (state : XofState) : XofState :=
  let blockBuf := tabulate (blockByte (last.xofOut state.counter)) 64
  let take := min (64 - state.skipInFirst) (length - state.output.length)
  ⟨state.output ++ (blockBuf.drop state.skipInFirst).take take, state.counter + 1, 0⟩

def xofAt (input : List UInt8) (byteOffset : UInt64) (length : Nat) : Result (List UInt8) :=
  if 1024 < input.length then .error (.notSupported "Blake3.XofAt only supports inputs ≤ 1024 bytes.")
  else
    let final := Id.run <| whileLoop (fun state => length - state.output.length)
      (fun state => decide (state.output.length < length)) (fun state => pure (xofAtStep (lastBlock input) length state))
      ⟨[], byteOffset / 64, (byteOffset % 64).toNat⟩
    .ok final.output

/-- The words of one compression, each cut to the bytes that remain. -/
def xofStep (last : LastBlock) (length : Nat) (state : List UInt8 × UInt64) : List UInt8 × UInt64 :=
  let xofOut := last.xofOut state.2
  let remaining := length - state.1.length
  let toCopy := min 64 remaining
  let bytes := (List.range ((toCopy + 3) / 4)).flatMap fun w =>
    (wordBytes (xofOut.toList.getD w 0)).take (min 4 (remaining - w * 4))
  (state.1 ++ bytes, state.2 + 1)

def xof (input : List UInt8) (length : Nat) : Result (List UInt8) :=
  if 1024 < input.length then .error (.notSupported "Blake3.Xof only supports inputs ≤ 1024 bytes.")
  else
    let final := Id.run <| whileLoop (fun state => length - state.1.length)
      (fun state => decide (state.1.length < length)) (fun state => pure (xofStep (lastBlock input) length state)) ([], 0)
    .ok final.1

theorem word_toArray (words : Blake3.Words) {i : Nat} (bound : i < 16) : words.toArray.toList.getD i 0 = words.word i := by
  interval_cases i <;> rfl

variable (input : List UInt8)

theorem input_block (i : Nat) : (input.drop (64 * i)).take (min 64 (input.length - 64 * i)) = blockAt input i := by
  rw [blockAt, ← List.take_take, List.take_of_length_le (l := input.drop (64 * i)) (by simp)]

theorem length_input_block (i : Nat) : min 64 (input.length - 64 * i) = (blockAt input i).length := by
  simp [blockAt]

theorem innerBlock_eq {i : Nat} (inner : i + 1 < blockCount input.length)
    (cv : Vector UInt32 8) :
    Blake3.Cv.ofWords (firstEight (compress cv
      (loadBlock ((input.drop (64 * i)).take (min 64 (input.length - 64 * i)))) 0
      (min 64 (input.length - 64 * i)).toUInt32 (if i = 0 then 0 ||| flagChunkStart else 0))) =
      Blake3.chainBlock 0 Blake3.root 0 input (.ofWords cv) i := by
  have flags : (if i = 0 then 0 ||| flagChunkStart else 0) =
      blockFlags 0 Blake3.root (blockCount input.length) i := by
    simp only [blockFlags, if_neg (show i + 1 ≠ blockCount input.length by omega)]
    split_ifs <;> rfl
  rw [firstEight_compress, input_block, length_input_block, loadBlock_eq, Blake3.Words.ofArray_toArray, flags]
  rfl

theorem chainingValue_eq : Blake3.Cv.ofWords (lastBlock input).chainingValue = Blake3.beforeLast .unkeyed input := by
  have inner : ∀ i ∈ List.range (blockCount input.length - 1), i + 1 < blockCount input.length := by
    intro i member
    have := List.mem_range.mp member
    omega
  unfold lastBlock Blake3.beforeLast
  rw [show Blake3.Mode.unkeyed.key = Blake3.Cv.ofWords iv from rfl]
  simp only
  generalize iv = cv
  revert inner cv
  rw [show max 1 ((input.length + 63) / 64) = blockCount input.length from rfl]
  -- along the blocks, for any chaining value
  induction List.range (blockCount input.length - 1) with
  | nil => exact fun _ _ => rfl
  | cons i rest ih =>
    intro inner cv
    rw [List.foldl_cons, List.foldl_cons, ih fun j member => inner j (List.mem_cons_of_mem _ member),
      innerBlock_eq input (inner i List.mem_cons_self)]
    rfl

theorem lastFlags_eq {count : Nat} (positive : 0 < count) :
    (if count = 1 then flagChunkEnd ||| flagRoot ||| flagChunkStart else flagChunkEnd ||| flagRoot) =
      blockFlags 0 Blake3.root count (count - 1) := by
  have last : count - 1 + 1 = count := by omega
  have first : (count - 1 = 0) = (count = 1) := by
    rw [eq_iff_iff]
    omega
  simp only [blockFlags, last, first]
  split_ifs <;> rfl

theorem xofOut_eq (counter : UInt64) :
    (lastBlock input).xofOut counter = (Blake3.xofWords .unkeyed input counter).toArray := by
  have positive : 0 < blockCount input.length := by simp [blockCount]
  have flags : (lastBlock input).lastFlags = _ := lastFlags_eq positive
  have place : (max 1 ((input.length + 63) / 64) - 1) * 64 = 64 * (blockCount input.length - 1) := Nat.mul_comm _ _
  have words : (lastBlock input).blockWords =
      (Blake3.Words.load (blockAt input (blockCount input.length - 1))).toArray := by
    simp only [lastBlock, place]
    rw [input_block, loadBlock_eq]
  have length : (lastBlock input).lastBlockLen =
      (blockAt input (blockCount input.length - 1)).length.toUInt32 := by
    simp only [lastBlock, place]
    rw [length_input_block]
  rw [LastBlock.xofOut, compress_eq, chainingValue_eq, flags, words, length, Blake3.Words.ofArray_toArray]
  rfl

theorem blockByte_eq (counter : UInt64) {j : Nat} (bound : j < 64) :
    blockByte ((lastBlock input).xofOut counter) j = xofByte .unkeyed input (counter.toNat * 64 + j) := by
  have block : (counter.toNat * 64 + j) / 64 = counter.toNat := by omega
  have inside : (counter.toNat * 64 + j) % 64 = j := by omega
  have byte : (counter.toNat * 64 + j) % 4 = j % 4 := by omega
  rw [blockByte, xofOut_eq, word_toArray _ (by omega), xofByte, block, inside, byte, Nat.toUInt64,
    UInt64.ofNat_toNat]

theorem blockBuf_part (counter : UInt64) {skip take : Nat} (inside : skip + take ≤ 64) :
    ((tabulate (blockByte ((lastBlock input).xofOut counter)) 64).drop skip).take take =
      tabulate (fun j => xofByte .unkeyed input (counter.toNat * 64 + skip + j)) take := by
  apply List.ext_getElem?
  intro j
  rw [List.getElem?_take]
  by_cases bound : j < take
  · rw [if_pos bound, List.getElem?_drop, getElem?_tabulate _ (by omega), getElem?_tabulate _ bound,
      blockByte_eq input counter (by omega), Nat.add_assoc]
  · rw [if_neg bound, List.getElem?_eq_none (by rw [length_tabulate]; omega)]

structure XofProgress (input : List UInt8) (offset length : Nat) (output : List UInt8) (position : Nat) : Prop where
  bytes : output = tabulate (fun j => xofByte .unkeyed input (offset + j)) output.length
  short : output.length ≤ length
  next : output.length < length → position = offset + output.length

variable {input : List UInt8}

theorem XofProgress.extend {offset length position take : Nat} {output : List UInt8}
    (progress : XofProgress input offset length output position) (running : output.length < length)
    (room : take ≤ length - output.length) {position' : Nat}
    (next : output.length + take < length → position' = position + take) : XofProgress input offset length
      (output ++ tabulate (fun j => xofByte .unkeyed input (position + j)) take) position' := by
  have here := progress.next running
  refine ⟨?_, ?_, ?_⟩
  · rw [List.length_append, length_tabulate, tabulate_add, ← progress.bytes, here]
    simp only [Nat.add_assoc]
  · rw [List.length_append, length_tabulate]
    omega
  · rw [List.length_append, length_tabulate]
    intro more
    rw [next more, here, Nat.add_assoc]

theorem XofProgress.complete {offset length position : Nat} {output : List UInt8}
    (progress : XofProgress input offset length output position) (stopped : ¬ output.length < length) :
    output = tabulate (fun j => xofByte .unkeyed input (offset + j)) length := by
  have full : output.length = length := Nat.le_antisymm progress.short (Nat.not_lt.mp stopped)
  rw [← full]
  exact progress.bytes

theorem next_position {counter : UInt64} {skip take offset written length : Nat}
    (here : counter.toNat * 64 + skip = offset + written) (small : offset + length < 2 ^ 64 * 64)
    (whole : written + take < length → skip + take = 64) (more : written + take < length) :
    (counter + 1).toNat * 64 = counter.toNat * 64 + skip + take := by
  have filled := whole more
  rw [UInt64.toNat_add, show (1 : UInt64).toNat = 1 from rfl, Nat.mod_eq_of_lt (by omega)]
  omega

def AtProgress (input : List UInt8) (offset length : Nat) (state : XofState) : Prop :=
  XofProgress input offset length state.output (state.counter.toNat * 64 + state.skipInFirst) ∧ state.skipInFirst < 64

theorem xofAtStep_position (last : LastBlock) (length : Nat) (state : XofState) :
    (xofAtStep last length state).counter.toNat * 64 + (xofAtStep last length state).skipInFirst =
      (state.counter + 1).toNat * 64 := rfl

theorem xofAtStep_progress {offset length : Nat} (small : offset + length < 2 ^ 64 * 64)
    (state : XofState) (progress : AtProgress input offset length state)
    (running : decide (state.output.length < length) = true) :
    AtProgress input offset length (xofAtStep (lastBlock input) length state) ∧
      length - (xofAtStep (lastBlock input) length state).output.length < length - state.output.length := by
  obtain ⟨progress, skip⟩ := progress
  have running := of_decide_eq_true running
  have here := progress.next running
  have step : (xofAtStep (lastBlock input) length state).output = state.output ++
      tabulate (fun j => xofByte .unkeyed input (state.counter.toNat * 64 + state.skipInFirst + j))
        (min (64 - state.skipInFirst) (length - state.output.length)) := by
    rw [← blockBuf_part input state.counter (by omega)]
    rfl
  refine ⟨⟨?_, Nat.zero_lt_succ _⟩, ?_⟩
  · rw [step]
    refine progress.extend running (Nat.min_le_right _ _) fun more => ?_
    rw [xofAtStep_position]
    exact next_position here small (by omega) more
  · rw [step, List.length_append, length_tabulate]
    omega

theorem xofAt_eq (single : input.length ≤ 1024) (byteOffset : UInt64) {length : Nat}
    (small : byteOffset.toNat + length < 2 ^ 64 * 64) : xofAt input byteOffset length =
      .ok (tabulate (fun j => xofByte .unkeyed input (byteOffset.toNat + j)) length) := by
  have block : (byteOffset / 64).toNat = byteOffset.toNat / 64 := UInt64.toNat_div _ _
  have skip : (byteOffset % 64).toNat = byteOffset.toNat % 64 := UInt64.toNat_mod _ _
  have initial : AtProgress input byteOffset.toNat length ⟨[], byteOffset / 64, (byteOffset % 64).toNat⟩ := by
    refine ⟨⟨rfl, Nat.zero_le _, fun _ => ?_⟩, ?_⟩
    · show (byteOffset / 64).toNat * 64 + (byteOffset % 64).toNat = byteOffset.toNat
      omega
    · show (byteOffset % 64).toNat < 64
      omega
  obtain ⟨⟨progress, -⟩, stopped⟩ := whileLoop_rule _ (fun state => length - state.output.length)
    (fun state => decide (state.output.length < length)) (fun state => pure (xofAtStep (lastBlock input) length state))
    (xofAtStep_progress small) initial
  unfold xofAt
  rw [if_neg (by omega)]
  exact congrArg Except.ok (progress.complete (of_decide_eq_false stopped))

theorem take_wordBytes (w : UInt32) {n : Nat} (bound : n ≤ 4) : (wordBytes w).take n = tabulate (wordByte w) n := by
  have cases : n = 0 ∨ n = 1 ∨ n = 2 ∨ n = 3 ∨ n = 4 := by omega
  rcases cases with rfl | rfl | rfl | rfl | rfl <;> rfl

theorem copiedWords_eq (words : Vector UInt32 16) (remaining : Nat) :
    ((List.range ((min 64 remaining + 3) / 4)).flatMap fun w =>
      (wordBytes (words.toList.getD w 0)).take (min 4 (remaining - w * 4))) =
      tabulate (blockByte words) (min 64 remaining) := by
  rw [← flatMap_segments (blockByte words) (show 0 < 4 by decide) (min 64 remaining)]
  refine List.flatMap_congr fun w member => ?_
  have bound := List.mem_range.mp member
  have same : min 4 (remaining - w * 4) = min 4 (min 64 remaining - w * 4) := by omega
  rw [take_wordBytes _ (Nat.min_le_left _ _), same]
  refine tabulate_congr fun j inside => ?_
  have word : (w * 4 + j) / 4 = w := by omega
  have byte : (w * 4 + j) % 4 = j := by omega
  rw [blockByte, word, byte]

theorem xofStep_counter (last : LastBlock) (length : Nat) (state : List UInt8 × UInt64) :
    (xofStep last length state).2 = state.2 + 1 := rfl

theorem xofStep_progress {length : Nat} (small : length < 2 ^ 64 * 64)
    (state : List UInt8 × UInt64) (progress : XofProgress input 0 length state.1 (state.2.toNat * 64))
    (running : decide (state.1.length < length) = true) :
    XofProgress input 0 length (xofStep (lastBlock input) length state).1
        ((xofStep (lastBlock input) length state).2.toNat * 64) ∧
      length - (xofStep (lastBlock input) length state).1.length < length - state.1.length := by
  have running := of_decide_eq_true running
  have here := progress.next running
  have step : (xofStep (lastBlock input) length state).1 = state.1 ++
      tabulate (fun j => xofByte .unkeyed input (state.2.toNat * 64 + j)) (min 64 (length - state.1.length)) := by
    show state.1 ++ _ = _
    rw [copiedWords_eq, tabulate_congr fun j inside => blockByte_eq input state.2 (by omega)]
  refine ⟨?_, ?_⟩
  · rw [step]
    refine progress.extend running (Nat.min_le_right _ _) fun more => ?_
    rw [xofStep_counter, ← Nat.add_zero (state.2.toNat * 64)]
    exact next_position (by omega) (show 0 + length < _ by omega) (by omega) more
  · rw [step, List.length_append, length_tabulate]
    omega

theorem xof_eq (single : input.length ≤ 1024) {length : Nat} (small : length < 2 ^ 64 * 64) :
    xof input length = .ok (tabulate (xofByte .unkeyed input) length) := by
  obtain ⟨progress, stopped⟩ := whileLoop_rule
    (fun state : List UInt8 × UInt64 => XofProgress input 0 length state.1 (state.2.toNat * 64))
    (fun state => length - state.1.length) (fun state => decide (state.1.length < length))
    (fun state => pure (xofStep (lastBlock input) length state)) (xofStep_progress small)
    (⟨rfl, Nat.zero_le _, fun _ => rfl⟩ : XofProgress input 0 length ([], (0 : UInt64)).1 _)
  have bytes := progress.complete (of_decide_eq_false stopped)
  simp only [Nat.zero_add] at bytes
  unfold xof
  rw [if_neg (by omega)]
  exact congrArg Except.ok bytes

end ArcMiner.AkoyaCrypto.HostBlake3
