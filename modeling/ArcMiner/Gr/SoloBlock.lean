import ArcMiner.Gr.GrSolo

/-! The block of `GrSolo`, read back: the height in its coinbase, and its parts. -/

namespace ArcMiner.Gr.GrSolo

open Library Library.CSharp Library.CSharp.JsonElement Library.Reader Library.Bitcoin AkoyaCrypto List Nat UInt64
open Pool.StratumJobParser (tryParseBip34Height pushOffset scriptSigLenOffset)

section height

theorem leValue_scriptBytes {rounds v : Nat} (fits : v < 256 ^ rounds) : leValue (scriptBytes rounds v) = v := by
  induction rounds generalizing v with
  | zero =>
    obtain rfl : v = 0 := by omega
    rfl
  | succ rounds ih =>
    rw [scriptBytes]
    split
    · next zero => exact zero.symm
    · have byte : v.toUInt8.toNat = v % 256 := rfl
      rw [leValue_cons, ih (by rw [Nat.pow_succ] at fits; omega), byte]
      omega

theorem length_scriptBytes {rounds v n : Nat} (fits : v < 256 ^ n) : (scriptBytes rounds v).length ≤ n := by
  induction rounds generalizing v n with
  | zero => exact Nat.zero_le n
  | succ rounds ih =>
    rw [scriptBytes]
    split
    · exact Nat.zero_le n
    · cases n with
      | zero => omega
      | succ n => exact succ_le_succ (ih (by rw [Nat.pow_succ] at fits; omega))

theorem length_scriptBytes_le_rounds (rounds v : Nat) : (scriptBytes rounds v).length ≤ rounds := by
  induction rounds generalizing v with
  | zero => exact Nat.le_refl 0
  | succ rounds ih =>
    rw [scriptBytes]
    split
    · exact Nat.zero_le _
    · exact succ_le_succ (ih (v / 256))

theorem leValue_pad (bytes : List UInt8) : leValue (bytes ++ [0]) = leValue bytes := by
  rw [leValue_concat]
  rfl

theorem scriptNum_ok {v n : Nat} (long : v < 2 ^ 63) (fits : v < 256 ^ n * 128) :
    ∃ push, scriptNum v = .ok push ∧ leValue push = v ∧ push.length ≤ n + 1 := by
  have value : leValue (scriptBytes 8 v) = v := leValue_scriptBytes (by omega)
  have few : (scriptBytes 8 v).length ≤ n + 1 := length_scriptBytes (by rw [Nat.pow_succ]; omega)
  have ok : scriptNum v = .ok (if (scriptBytes 8 v).getLast?.any (· &&& 0x80 ≠ 0) then scriptBytes 8 v ++ [0]
      else scriptBytes 8 v) := by
    rw [scriptNum, if_neg (by omega), Int.toNat_natCast]
  refine ⟨_, ok, ?_, ?_⟩
  · split
    · rw [leValue_pad, value]
    · exact value
  · split
    · next top =>
      rcases eq_nil_or_concat' (scriptBytes 8 v) with none | ⟨low, high, split⟩
      · simp [none]
      · -- a byte with the top bit set is worth too much to be byte `n + 1`
        have set : 128 ≤ high.toNat := by
          by_contra small
          have clear : high &&& 0x80 = 0 := by
            apply UInt8.toNat_inj.mp
            rw [UInt8.toNat_and]
            refine (and_two_pow high.toNat 7).trans ?_
            rw [testBit_lt_two_pow (by omega)]
            rfl
          simp [split, clear] at top
        rw [split, leValue_concat] at value
        rw [split] at few
        simp only [split, length_append, length_singleton] at few ⊢
        by_contra many
        obtain rfl : low.length = n := by omega
        have least := Nat.mul_le_mul_left (256 ^ low.length) set
        omega
    · exact few

theorem tryParse_push {front push rest : List UInt8} (start : front.length = 41) (few : push.length ≤ 4)
    (positive : 0 < leValue push) (small : leValue push < 100000000) :
    tryParseBip34Height (front ++ (push.length + 2).toUInt8 :: push.length.toUInt8 :: (push ++ rest)) = leValue push := by
  have some : 0 < push.length := length_pos_iff.mpr fun none => by simp [none, leValue] at positive
  have read : ∀ j, (front ++ (push.length + 2).toUInt8 :: push.length.toUInt8 :: (push ++ rest)).getD (41 + j) 0 =
      ((push.length + 2).toUInt8 :: push.length.toUInt8 :: (push ++ rest)).getD j 0 := by
    intro j
    rw [← start, getD_append_right _ _ _ _ (by omega), Nat.add_sub_cancel_left]
  have bytes : (range push.length).map (fun i => (push ++ rest).getD i 0) = push := by
    conv_rhs => rw [← tabulate_getD push]
    exact tabulate_congr fun i inside => getD_append _ _ _ _ inside
  have count : push.length.toUInt8.toNat = push.length := mod_eq_of_lt (by omega)
  have script : (push.length + 2).toUInt8.toNat = push.length + 2 := mod_eq_of_lt (by omega)
  generalize shape : front ++ (push.length + 2).toUInt8 :: push.length.toUInt8 :: (push ++ rest) = coinb1 at read ⊢
  have length : coinb1.length = 43 + push.length + rest.length := by
    rw [← shape]
    simp only [length_append, length_cons]
    omega
  have scriptAt : coinb1.getD scriptSigLenOffset 0 = (push.length + 2).toUInt8 := read 0
  have pushAt : coinb1.getD pushOffset 0 = push.length.toUInt8 := read 1
  have height : (packBytes (fun i => coinb1.getD (pushOffset + 1 + i) 0) push.length.toUInt8.toNat).toNat = leValue push := by
    rw [count, packBytes_toNat _ (by omega)]
    conv_rhs => rw [← bytes]
    refine congrArg leValue (map_congr_left fun i _ => ?_)
    rw [show pushOffset + 1 + i = 41 + (i + 2) by simp only [pushOffset, scriptSigLenOffset]; omega, read]
    rfl
  have form : ¬ ((push.length + 2).toUInt8 = 0 ∨ 0xFD ≤ (push.length + 2).toUInt8) := by
    rw [← UInt8.toNat_inj, UInt8.le_iff_toNat_le, script]
    show ¬ (push.length + 2 = 0 ∨ 0xFD ≤ push.length + 2)
    omega
  have direct : ¬ (push.length.toUInt8 < 1 ∨ 4 < push.length.toUInt8) := by
    rw [UInt8.lt_iff_toNat_lt, UInt8.lt_iff_toNat_lt, count]
    show ¬ (push.length < 1 ∨ 4 < push.length)
    omega
  have inside : ¬ push.length.toUInt8 > (push.length + 2).toUInt8 := by
    rw [gt_iff_lt, UInt8.lt_iff_toNat_lt, count, script]
    omega
  simp only [tryParseBip34Height, scriptAt, pushAt, height]
  rw [if_neg (by simp only [length, scriptSigLenOffset]; omega), if_neg form, if_neg direct,
    if_neg (by simp only [count, length, pushOffset, scriptSigLenOffset]; omega), if_neg inside, if_pos ⟨positive, small⟩]

/-- The pool client reads the height that the solo miner writes. -/
theorem coinbase_height {height : Int} (positive : 0 < height) (small : height < 100000000) (value : Int)
    (payoutScript : List UInt8) : ∃ tx txid, buildCoinbase height value payoutScript = .ok (tx, txid) ∧
      (tryParseBip34Height tx : Int) = height := by
  obtain ⟨h, rfl⟩ := Int.eq_ofNat_of_zero_le positive.le
  obtain ⟨push, pushed, worth, few⟩ := @scriptNum_ok h 3 (by omega) (by omega)
  refine ⟨_, _, by rw [buildCoinbase, pushed]; rfl, ?_⟩
  have count : (push.length.toUInt8 :: (push ++ [0])).length = push.length + 2 := by simp
  have number : (push.length + 2).toUInt64.toNat = push.length + 2 := mod_eq_of_lt (by omega)
  have script : writeVarInt (push.length + 2).toUInt64 = [(push.length + 2).toUInt8] := by
    rw [writeVarInt, if_pos (lt_iff_toNat_lt.mpr (by rw [number]; show push.length + 2 < 0xFD; omega))]
    refine congrArg (fun byte => [byte]) (UInt8.toNat_inj.mp ?_)
    rw [toNat_toUInt8, number]
    rfl
  have front : (le 2 4 ++ ([0x01] ++ (replicate 32 0 ++ le 0xFFFFFFFF 4))).length = 41 := by simp [le]
  rw [count, script, ← worth, Nat.cast_inj]
  generalize le 0xFFFFFFFF 4 ++ ([0x01] ++ _) = rest
  have parsed := @tryParse_push _ push ([0] ++ rest) front few (by omega) (by omega)
  simpa only [append_assoc, cons_append, nil_append] using parsed

/-- Block 8,388,608: the third byte has the top bit set, so a zero follows it. -/
theorem coinbase_height_padded : ∃ tx txid, buildCoinbase 8388608 5000000000 [0x51] = .ok (tx, txid) ∧
    (tryParseBip34Height tx : Int) = 8388608 := coinbase_height (by decide) (by decide) 5000000000 [0x51]

end height

section reads

theorem reads_le (val : UInt64) {width : Nat} (small : width ≤ 8) :
    Reads (readLe width) (le val width) (val.toNat % 256 ^ width) := by
  have read := (reads_tokens (le val width)).map leValue
  have length : (le val width).length = width := by simp [le]
  have value : leValue (le val width) = val.toNat % 256 ^ width := by
    rw [le, ← packBytes_toNat _ small, packBytes_longByte_mod val small]
  rw [length, value] at read
  exact read

theorem reads_wide (n : UInt64) {width least : Nat} (small : width ≤ 8) (enough : least ≤ n.toNat)
    (fits : n.toNat < 256 ^ width) : Reads (readWide width least) (le n width) n.toNat := by
  have read := reads_le n small
  rw [mod_eq_of_lt fits] at read
  rw [← append_nil (le n width)]
  refine read.bind ?_
  rw [if_pos enough]
  exact Reads.pure _

theorem reads_varInt (n : UInt64) : Reads readVarInt (writeVarInt n) n.toNat := by
  have bound := n.toNat_lt
  rw [writeVarInt]
  split_ifs with one two four
  · have small : n.toNat < 0xFD := lt_iff_toNat_lt.mp one
    have byte : n.toUInt8.toNat = n.toNat := by
      rw [toNat_toUInt8]
      omega
    have other : ∀ mark : UInt8, 0xFD ≤ mark.toNat → n.toUInt8 ≠ mark := by
      rintro mark large rfl
      omega
    rw [← append_nil [n.toUInt8]]
    refine (reads_token n.toUInt8).bind ?_
    rw [if_neg (other _ (by decide)), if_neg (other _ (by decide)), if_neg (other _ (by decide)), ← byte]
    exact Reads.pure _
  · refine (reads_token 0xFD).bind (reads_wide n (by decide) ?_ ?_)
    · exact Nat.not_lt.mp fun less => one (lt_iff_toNat_lt.mpr less)
    · exact lt_succ_of_le (le_iff_toNat_le.mp two)
  · refine (reads_token 0xFE).bind (reads_wide n (by decide) ?_ ?_)
    · exact Nat.not_le.mp fun less => two (le_iff_toNat_le.mpr less)
    · exact lt_succ_of_le (le_iff_toNat_le.mp four)
  · refine (reads_token 0xFF).bind (reads_wide n (by decide) ?_ bound)
    exact Nat.not_le.mp fun less => four (le_iff_toNat_le.mpr less)

theorem reads_script {script : List UInt8} (fits : script.length < 2 ^ 64) :
    Reads readScript (writeVarInt script.length.toUInt64 ++ script) script := by
  have number : script.length.toUInt64.toNat = script.length := mod_eq_of_lt fits
  refine (reads_varInt _).bind ?_
  rw [number]
  exact reads_tokens script

theorem reads_one {α : Type} {item : Reader UInt8 α} {front : List UInt8} {x : α} (read : Reads item front x) :
    Reads (many item 1) front [x] := read.map (fun x => [x])

/-- One input that spends nothing, with the height in its script, and one output. -/
def coinbaseOf (scriptSig : List UInt8) (value : Int) (payoutScript : List UInt8) : Transaction where
  version := 2
  inputs := [⟨replicate 32 0 ++ le 0xFFFFFFFF 4, scriptSig, 0xFFFFFFFF⟩]
  outputs := [⟨(ofInt value).toNat, payoutScript⟩]
  lockTime := 0

theorem reads_coinbase {height : Int} (positive : 0 < height) (value : Int) (payoutScript : Span) :
    ∃ tx scriptSig, buildCoinbase height value payoutScript.bytes = .ok (tx, sha256d tx) ∧
      Reads readTransaction tx (coinbaseOf scriptSig value payoutScript.bytes) := by
  obtain ⟨push, pushed, few⟩ : ∃ push, scriptNum height = .ok push ∧ push.length ≤ 9 := by
    have few := length_scriptBytes_le_rounds 8 height.toNat
    rw [scriptNum, if_neg (by omega)]
    refine ⟨_, rfl, ?_⟩
    split
    · rw [length_append]
      exact succ_le_succ few
    · exact few.trans (by decide)
  refine ⟨_, push.length.toUInt8 :: (push ++ [0]), by rw [buildCoinbase, pushed]; rfl, ?_⟩
  have script := reads_script (show (push.length.toUInt8 :: (push ++ [0])).length < 2 ^ 64 by simp; omega)
  have payout := reads_script (show payoutScript.bytes.length < 2 ^ 64 by have := payoutScript.fits; omega)
  have prevout := reads_tokens (replicate 32 0 ++ le 0xFFFFFFFF 4)
  have input : Reads readTxIn _ _ := prevout.bind (script.bind ((reads_le 0xFFFFFFFF (by decide)).map (TxIn.mk _ _)))
  have output : Reads readTxOut _ _ := (reads_le (ofInt value) (by decide)).bind (payout.map (TxOut.mk _))
  rw [mod_eq_of_lt (show (ofInt value).toNat < 256 ^ 8 from toNat_lt _)] at output
  have whole : Reads readTransaction _ (coinbaseOf (push.length.toUInt8 :: (push ++ [0])) value payoutScript.bytes) :=
    (reads_le 2 (by decide)).bind ((reads_varInt 1).bind ((reads_one input).bind ((reads_varInt 1).bind
      ((reads_one output).bind ((reads_le 0 (by decide)).map (Transaction.mk _ _ _))))))
  have one : writeVarInt 1 = [0x01] := rfl
  simpa only [append_assoc, one] using whole

end reads

section tree

def parent (left right : List UInt8) : List UInt8 := sha256d (left ++ right)

theorem evened_tabulate (f : Nat → List UInt8) (m : Nat) :
    evened (tabulate f (m + 1)) = tabulate (fun j => f (min j m)) (2 * (m / 2 + 1)) := by
  have within : tabulate f (m + 1) = tabulate (fun j => f (min j m)) (m + 1) :=
    tabulate_congr fun j bound => congrArg f (Nat.min_eq_left (by omega)).symm
  rw [evened, length_tabulate]
  split
  · have last : (tabulate f (m + 1)).getLastD [] = f (min (m + 1) m) := by
      rw [tabulate, range_succ, map_append, map_singleton, getLastD_concat, Nat.min_eq_right (by omega)]
    rw [last, within, show 2 * (m / 2 + 1) = m + 1 + 1 by omega]
    simp only [tabulate, range_succ, map_append, map_singleton]
  · rw [within, show 2 * (m / 2 + 1) = m + 1 by omega]

theorem nextLayer_layerAt (leaf : Nat → List UInt8) (n l : Nat) :
    nextLayer (layerAt parent leaf n l) = layerAt parent leaf n (l + 1) := by
  have entry : ∀ {f : Nat → List UInt8} {m j : Nat}, j < m → (tabulate f m).getD j [] = f j := by
    intro f m j inside
    rw [getD_eq_getElem?_getD, getElem?_tabulate f inside]
    rfl
  simp only [nextLayer, layerAt, evened_tabulate, length_tabulate, lastAt_succ]
  rw [Nat.mul_div_cancel_left _ (by decide)]
  refine tabulate_congr fun i inside => ?_
  rw [entry (by omega), entry (by omega), Nat.min_eq_left (by omega)]
  rfl

theorem merkleRoot_eq {txids : List (List UInt8)} (some : 0 < txids.length) :
    merkleRoot txids = rootNode parent (fun i => txids.getD i []) txids.length := by
  let Reached (layer : List (List UInt8)) : Prop :=
    ∃ l ≤ clog 2 txids.length, layer = layerAt parent (fun i => txids.getD i []) txids.length l
  have start : Reached txids := by
    refine ⟨0, Nat.zero_le _, ?_⟩
    rw [layerAt, lastAt, Nat.pow_zero, Nat.div_one, Nat.sub_add_cancel some]
    exact (tabulate_getD txids).symm
  have step : ∀ layer, Reached layer → decide (1 < layer.length) = true →
      Reached (nextLayer layer) ∧ (nextLayer layer).length < layer.length := by
    rintro _ ⟨l, below, rfl⟩ running
    rw [nextLayer_layerAt]
    rw [layerAt, length_tabulate, decide_eq_true_iff] at running
    have more : ¬ clog 2 txids.length ≤ l := fun top => by
      rw [(lastAt_eq_zero_iff some l).mpr top] at running
      omega
    refine ⟨⟨l + 1, by omega, rfl⟩, ?_⟩
    rw [layerAt, layerAt, length_tabulate, length_tabulate, lastAt_succ]
    omega
  obtain ⟨⟨l, below, reached⟩, stopped⟩ := whileLoop_rule Reached List.length _ nextLayer step start
  rw [merkleRoot, if_neg (by omega), reached]
  rw [reached, layerAt, length_tabulate, decide_eq_false_iff_not] at stopped
  have top := (lastAt_eq_zero_iff some l).mp (by omega)
  rw [layerAt_eq_root _ _ (Nat.le_antisymm below top) some]
  rfl

end tree

section block

theorem length_rootNode {leaf : Nat → List UInt8} (first : (leaf 0).length = 32) (n : Nat) :
    (rootNode parent leaf n).length = 32 := by
  rw [rootNode]
  cases clog 2 n with
  | zero => exact first
  | succ l => exact length_sha256d _

theorem buildHeader_ok {w : Work} (prev : 32 ≤ w.prevInternal.length) (root : w.merkleRootInternal.length = 32) :
    ∃ header, buildHeader w = .ok header ∧ (header.take 76).length = 76 ∧
      ((header.take 76).drop 36).take 32 = w.merkleRootInternal := by
  have front : (wordBytes (UInt32.ofInt w.version) ++ w.prevInternal.take 32).length = 36 := by
    rw [length_append, length_take, Nat.min_eq_left prev]
    rfl
  have ok : buildHeader w = .ok ((wordBytes (UInt32.ofInt w.version) ++ w.prevInternal.take 32) ++
      (w.merkleRootInternal ++ (wordBytes w.time ++ (wordBytes w.bits ++ replicate 4 0)))) := by
    rw [buildHeader, copyHash, if_neg (by omega), copyHash, if_neg (by omega), take_of_length_le root.le]
    simp only [ok_bind, append_assoc]
    rfl
  refine ⟨_, ok, ?_, ?_⟩
  · rw [length_take, length_append, front, length_append, root]
    rfl
  · rw [drop_take, ← front, drop_left, front, take_take]
    exact (take_append_of_le_length root.ge).trans (take_of_length_le root.le)

variable {τ : Type} (readTx : Reader UInt8 τ)

/-- The parameters carry the bytes of a block that can be cut in one way only: a header of 80 bytes, the count of the
transactions in its shortest form, the coinbase, and the transactions in order. The root in the header is that of the tree
over the ids of the coinbase and these transactions. -/
def Carries (coinbase : List UInt8) (txs : List (List UInt8 × List UInt8)) (params : String) : Prop :=
  ∃ hex bytes header count, params = "[\"" ++ hex ++ "\"]" ∧ Convert.fromHexString hex = .ok bytes ∧
    (∀ block : Block, block.Parses readTx bytes ↔ block = ⟨header, count, coinbase, txs.map Prod.fst⟩) ∧
    (header.drop 36).take 32 =
      rootNode parent (fun i => (sha256d coinbase :: txs.map Prod.snd).getD i []) (txs.length + 1)

variable {readTx} {fields : Fields} {coinbase : List UInt8} {tx : Transaction} {txs : List (List UInt8 × List UInt8)}

theorem submitBlock_carries (reads : Reads readTransaction coinbase tx) (few : txs.length < arrayMaxLength)
    (prev : 32 ≤ fields.prevInternal.length) (delimited : ∀ tx ∈ txs, ∃ value, Reads readTx tx.1 value) (nonce : UInt32) :
    ∃ params, submitBlock (newWork fields coinbase (sha256d coinbase) txs) nonce = .ok params ∧
      Carries readTx coinbase txs params := by
  have prevInternal : (newWork fields coinbase (sha256d coinbase) txs).prevInternal = fields.prevInternal := rfl
  have coinbaseTx : (newWork fields coinbase (sha256d coinbase) txs).coinbaseTx = coinbase := rfl
  have rawTxs : (newWork fields coinbase (sha256d coinbase) txs).rawTxs = txs.map Prod.fst := rfl
  have merkle : (newWork fields coinbase (sha256d coinbase) txs).merkleRootInternal = _ :=
    merkleRoot_eq (length_pos_of_ne_nil (cons_ne_nil _ _))
  rw [length_cons, length_map] at merkle
  generalize newWork fields coinbase (sha256d coinbase) txs = work at prevInternal coinbaseTx rawTxs merkle ⊢
  have whole : work.merkleRootInternal.length = 32 := by
    rw [merkle]
    exact length_rootNode (length_sha256d coinbase) _
  obtain ⟨front, made, length, field⟩ := buildHeader_ok (prevInternal ▸ prev) whole
  have count : Reads readVarInt (writeVarInt (ofInt (int32 (1 + work.rawTxs.length))))
      ((txs.map Prod.fst).length + 1) := by
    have few : txs.length < 0x7FFFFFC7 := few
    have number : (ofInt (int32 (1 + work.rawTxs.length))).toNat = (txs.map Prod.fst).length + 1 := by
      rw [rawTxs, length_map, int32_of_fits (by omega) (by omega)]
      simp only [ofInt, toNat_ofNat']
      omega
    rw [← number]
    exact reads_varInt _
  obtain ⟨bytes, sent, parses⟩ : ∃ bytes, submittedBlock work nonce = .ok bytes ∧
      Block.Parses readTx bytes ⟨front.take 76 ++ wordBytes nonce,
        writeVarInt (ofInt (int32 (1 + work.rawTxs.length))), coinbase, txs.map Prod.fst⟩ := by
    refine ⟨_, by rw [submittedBlock, made, ok_bind, coinbaseTx, rawTxs]; rfl, by rw [rawTxs], ?_, ?_, ⟨_, reads⟩, ?_⟩
    · rw [length_append, length]
      rfl
    · dsimp only
      exact count
    · rintro _ member
      obtain ⟨tx, inside, rfl⟩ := mem_map.mp member
      exact delimited tx inside
  refine ⟨_, by rw [submitBlock, sent]; rfl, _, bytes, _, _, rfl, fromHexDigits_lower bytes,
    fun block => ⟨fun other => other.unique parses, fun same => same ▸ parses⟩, ?_⟩
  rw [drop_append_of_le_length (by omega), take_append_of_le_length (by rw [length_drop]; omega), field, merkle]

theorem submitBlock_short {work : Work} (short : work.prevInternal.length < 32) (nonce : UInt32) (params : String) :
    submitBlock work nonce ≠ .ok params := by
  rw [submitBlock, submittedBlock, buildHeader, copyHash, if_pos short]
  nofun

/-- What is submitted for a template of positive height carries its block. Work is made of every template whose
transactions fit in a list, and something is submitted for it if its previous hash has 32 bytes. -/
theorem submitted_block_parses (lookup : Lookup) (force : Option String) {template : Json} (payoutScript : Span)
    (nonce : UInt32) (read : readFields lookup force template = .ok fields)
    (listed : transactions lookup template = .ok txs) (positive : 0 < fields.height)
    (delimited : ∀ tx ∈ txs, ∃ value, Reads readTx tx.1 value) :
    ∃ coinbase, buildCoinbase fields.height fields.coinbaseValue payoutScript.bytes = .ok (coinbase, sha256d coinbase) ∧
      (txs.length < arrayMaxLength → ∃ work, fetchTemplate lookup force template payoutScript.bytes = .ok work) ∧
      ∀ work, fetchTemplate lookup force template payoutScript.bytes = .ok work →
        (32 ≤ fields.prevInternal.length → ∃ params, submitBlock work nonce = .ok params) ∧
        ∀ params, submitBlock work nonce = .ok params → Carries readTx coinbase txs params := by
  obtain ⟨coinbase, scriptSig, built, reads⟩ := reads_coinbase positive fields.coinbaseValue payoutScript
  have fetched : fetchTemplate lookup force template payoutScript.bytes =
      if arrayMaxLength < txs.length + 1 then outOfMemory else .ok (newWork fields coinbase (sha256d coinbase) txs) := by
    simp only [fetchTemplate, read, built, listed, ok_bind]
    rfl
  refine ⟨coinbase, built, fun room => ⟨_, fetched.trans (if_neg (by omega))⟩, fun work made => ?_⟩
  rw [fetched] at made
  split at made
  · nomatch made
  · next room =>
    obtain rfl := Except.ok.inj made
    refine ⟨fun prev => ?_, fun params sent => ?_⟩
    · obtain ⟨params, sent, -⟩ := submitBlock_carries reads (by omega) prev delimited nonce
      exact ⟨params, sent⟩
    · have prev := Nat.not_lt.mp fun short => submitBlock_short short nonce params sent
      obtain ⟨same, again, carries⟩ := submitBlock_carries reads (by omega) prev delimited nonce
      rwa [Except.ok.inj (sent.symm.trans again)]

def template : Json :=
  let entry (name : String) (value : Json) := (Utf16.encode name.toList, value)
  let text (digits : String) := Json.string (Utf16.encode digits.toList)
  let hash := text (String.ofList (replicate 64 'a'))
  .object [entry "version" (.number ['4']), entry "previousblockhash" hash, entry "curtime" (.number ['9']),
    entry "bits" (text "207fffff"), entry "height" (.number ['7']), entry "coinbasevalue" (.number ['5']),
    entry "transactions" (.array [.object [entry "data" (text "51"), entry "hash" hash]])]

theorem submitted_block_template : ∃ work coinbase params, fetchTemplate .smooth none template [0x51] = .ok work ∧
    submitBlock work 0 = .ok params ∧ Carries token coinbase [([0x51], replicate 32 0xAA)] params := by
  have read : readFields .smooth none template = .ok ⟨4, replicate 32 0xAA, 9, 0x207FFFFF, 7, 5⟩ := by decide +kernel
  have listed : transactions .smooth template = .ok [([0x51], replicate 32 0xAA)] := by decide +kernel
  obtain ⟨coinbase, -, fetches, submits⟩ := @submitted_block_parses _ token _ _ .smooth none template ⟨[0x51], by decide⟩ 0
    read listed (by decide) (forall_mem_singleton.mpr ⟨0x51, reads_token 0x51⟩)
  obtain ⟨work, fetched⟩ := fetches (by decide)
  obtain ⟨sends, carries⟩ := submits work fetched
  obtain ⟨params, sent⟩ := sends (by decide)
  exact ⟨work, coinbase, params, fetched, sent, carries params sent⟩

end block
end ArcMiner.Gr.GrSolo
