import ArcMiner.Library.BitcoinBlock
import ArcMiner.Library.JsonLookup
import ArcMiner.Library.Loop
import ArcMiner.Library.Sha256
import ArcMiner.Pool.StratumJobParser
import ArcMiner.Pool.TargetCodec
import ArcMiner.Stratum.ShareTargets

/-! `GrSolo`: the block a solo miner builds from the node's template, the target it is tested against, and what is
submitted.
-/

namespace ArcMiner.Gr.GrSolo

open Library Library.CSharp Library.CSharp.JsonElement AkoyaCrypto Stratum Spec List Nat GrHash
open Pool.StratumSession (place nbitsToTarget toNat_exp toNat_mant length_nbitsToTarget nbitsToTarget_expand)

def le (val : UInt64) (bytes : Nat) : List UInt8 := (range bytes).map (longByte val)

def writeVarInt (n : UInt64) : List UInt8 :=
  if n < 0xFD then [n.toUInt8]
  else if n ≤ 0xFFFF then 0xFD :: le n 2
  else if n ≤ 0xFFFFFFFF then 0xFE :: le n 4
  else 0xFF :: le n 8

/-- The bytes of a number from the low one up, until nothing is left of it. -/
def scriptBytes : (rounds : Nat) → Nat → List UInt8
  | 0, _ => []
  | rounds + 1, v => if v = 0 then [] else v.toUInt8 :: scriptBytes rounds (v / 256)

def outOfMemory {α : Type} : Result α := .error (.application "OutOfMemoryException" 0 "")

/-- Eight rounds use up a `long`. A negative one keeps its sign, and the list grows until there is no room for it. -/
def scriptNum (n : Int) : Result (List UInt8) :=
  if n < 0 then outOfMemory
  else
    let o := scriptBytes 8 n.toNat
    .ok (if o.getLast?.any (· &&& 0x80 ≠ 0) then o ++ [0] else o)

def buildCoinbase (height value : Int) (payoutScript : List UInt8) : Result (List UInt8 × List UInt8) := do
  let heightPush ← scriptNum height
  -- a zero in place of an extranonce
  let scriptSig := heightPush.length.toUInt8 :: (heightPush ++ [0x00])
  let full := le 2 4 ++ ([0x01] ++ ((replicate 32 0 ++ le 0xFFFFFFFF 4) ++
    ((writeVarInt scriptSig.length.toUInt64 ++ scriptSig) ++ (le 0xFFFFFFFF 4 ++ ([0x01] ++ (le (UInt64.ofInt value) 8 ++
    ((writeVarInt payoutScript.length.toUInt64 ++ payoutScript) ++ le 0 4)))))))
  return (full, sha256d full)

def evened (layer : List (List UInt8)) : List (List UInt8) :=
  if layer.length % 2 = 1 then layer ++ [layer.getLastD []] else layer

def nextLayer (layer : List (List UInt8)) : List (List UInt8) :=
  let layer := evened layer
  tabulate (fun i => sha256d (layer.getD (2 * i) [] ++ layer.getD (2 * i + 1) [])) (layer.length / 2)

def merkleRoot (txidsInternal : List (List UInt8)) : List UInt8 :=
  if txidsInternal.length = 0 then replicate 32 0
  else (whileLoop (m := Id) length (fun layer => decide (1 < layer.length)) nextLayer txidsInternal).getD 0 []

def targetBytes (bits : UInt32) : List UInt8 :=
  let exp : Int := (bits >>> 24).toNat
  let mant := bits &&& 0x007FFFFF
  (range 3).foldl
    (fun be (i : Nat) =>
      let pos := exp - 1 - i
      if 0 ≤ pos ∧ pos < 32 then be.set (31 - pos).toNat (mant >>> (8 * (2 - i)).toUInt32).toUInt8 else be)
    (replicate 32 0)

def targetFromBits (bits : UInt32) : Words := Vector.ofFn fun w => beWordAt (targetBytes bits) ((7 - w) * 4)

structure Work where
  version : Int
  prevInternal : List UInt8
  time : UInt32
  bits : UInt32
  height : Int
  coinbaseTx : List UInt8
  merkleRootInternal : List UInt8
  rawTxs : List (List UInt8)
  coinbaseValue : Int
  target : Words

section template
variable (lookup : Lookup)

def hasPayees : Json → Bool
  | .array items => 0 < items.length
  | .object members => 0 < members.length
  | _ => false

def payouts (result : Json) (name : String) : Result (Option String) := do
  if (← tryGetProperty lookup name result).any hasPayees then
    return some ("the node requires " ++ name ++ " payouts in the coinbase")
  match ← tryGetProperty lookup (name ++ "_payments_enforced") result with
  | some (.bool true) => return some ("the node enforces " ++ name ++ " payments")
  | _ => return none

def describeUnsupportedRules (result : Json) : Result (Option String) := do
  let payload ← match ← tryGetProperty lookup "coinbase_payload" result with
    | some (.string units) => getString (.string units)
    | _ => pure none
  if payload.any (!·.isEmpty) then return some "the node requires a cbTx coinbase payload (coinbase_payload)"
  if let some reason ← payouts lookup result "smartnode" then return some reason
  if let some reason ← payouts lookup result "masternode" then return some reason
  if (← tryGetProperty lookup "superblock" result).any hasPayees then
    return some "the node requires superblock (treasury) payouts in the coinbase"
  return none

/-- `Convert.FromHexString`, which refuses `null`. -/
def fromHex : Option String → Result (List UInt8)
  | some hex => Convert.fromHexString hex
  | none => .error (.argumentNull "s")

/-- What `FetchTemplateAsync` reads in front of the transactions. -/
structure Fields where
  version : Int
  prevInternal : List UInt8
  curtime : UInt32
  bits : UInt32
  height : Int
  coinbaseValue : Int
deriving DecidableEq

/-- The environment may allow a chain whose rules the builder does not follow. -/
def readFields (force : Option String) (r : Json) : Result Fields := do
  if force ≠ some "1" then
    if let some reason ← describeUnsupportedRules lookup r then
      throw (.application "UnsupportedChainException" 0 ("gr: refusing to solo-mine — " ++ reason ++
        ", which this builder does not implement, so every block would be rejected at submit. Use pool mining for " ++
        "this chain, or set ARC_GR_SOLO_FORCE=1 to override (blocks will almost certainly be rejected)."))
  let version ← getInteger (-2 ^ 31) (2 ^ 31 - 1) (← getProperty lookup "version" r)
  let prevHex ← fromHex (← getString (← getProperty lookup "previousblockhash" r))
  let curtime ← getInt64 (← getProperty lookup "curtime" r)
  let bits ← Convert.toUnsigned 32 (← getString (← getProperty lookup "bits" r))
  let height ← getInt64 (← getProperty lookup "height" r)
  let coinbaseValue ← getInt64 (← getProperty lookup "coinbasevalue" r)
  return { version, height, coinbaseValue, prevInternal := prevHex.reverse, curtime := UInt32.ofInt curtime, bits := bits.toUInt32 }

def transaction (tx : Json) : Result (List UInt8 × List UInt8) := do
  let raw ← fromHex (← getString (← getProperty lookup "data" tx))
  let txidHex ← match ← tryGetProperty lookup "txid" tx with
    | some idEl => getString idEl
    | none => do getString (← getProperty lookup "hash" tx)
  return (raw, (← fromHex txidHex).reverse)

def transactions (r : Json) : Result (List (List UInt8 × List UInt8)) := do
  match ← tryGetProperty lookup "transactions" r with
  | some (.array txs) => txs.mapM (transaction lookup)
  | _ => return []

/-- `Array.MaxLength`, the most elements a list can have. -/
def arrayMaxLength : Nat := 0x7FFFFFC7

def newWork (fields : Fields) (coinbase coinbaseTxid : List UInt8) (txs : List (List UInt8 × List UInt8)) : Work where
  version := fields.version
  prevInternal := fields.prevInternal
  time := fields.curtime
  bits := fields.bits
  height := fields.height
  coinbaseTx := coinbase
  merkleRootInternal := merkleRoot (coinbaseTxid :: txs.map Prod.snd)
  rawTxs := txs.map Prod.fst
  coinbaseValue := fields.coinbaseValue
  target := targetFromBits fields.bits

def fetchTemplate (force : Option String) (r : Json) (payoutScript : List UInt8) : Result Work := do
  let fields ← readFields lookup force r
  let (coinbase, coinbaseTxid) ← buildCoinbase fields.height fields.coinbaseValue payoutScript
  let txs ← transactions lookup r
  if arrayMaxLength < txs.length + 1 then outOfMemory else return newWork fields coinbase coinbaseTxid txs

end template

def copyHash (source : List UInt8) : Result (List UInt8) :=
  if source.length < 32 then .error (.argument "sourceArray") else .ok (source.take 32)

/-- The nonce is filled in for each candidate. -/
def buildHeader (w : Work) : Result (List UInt8) := do
  let prev ← copyHash w.prevInternal
  let root ← copyHash w.merkleRootInternal
  return wordBytes (UInt32.ofInt w.version) ++ prev ++ root ++ wordBytes w.time ++ wordBytes w.bits ++ replicate 4 0

def submittedBlock (w : Work) (nonce : UInt32) : Result (List UInt8) := do
  let header ← buildHeader w
  return (header.take 76 ++ wordBytes nonce) ++ (writeVarInt (UInt64.ofInt (int32 (1 + w.rawTxs.length))) ++
    (w.coinbaseTx ++ w.rawTxs.flatten))

/-- The parameters of the call to the node. -/
def submitBlock (w : Work) (nonce : UInt32) : Result String := do
  return "[\"" ++ toLowerInvariant (Convert.toHexString (← submittedBlock w nonce)) ++ "\"]"

section target
variable (bits : UInt32)

theorem toNat_unsigned : (bits &&& 0xFF7FFFFF).toNat = bits.toNat / 2 ^ 24 * 2 ^ 24 + bits.toNat % 2 ^ 23 := by
  have exponent : (bits &&& 0xFF7FFFFF).toNat / 2 ^ 24 = bits.toNat / 2 ^ 24 := by
    have bound := bits.toNat_lt
    rw [UInt32.toNat_and, ← shiftRight_eq_div_pow, shiftRight_and_distrib, ← shiftRight_eq_div_pow]
    exact and_two_pow_sub_one_of_lt_two_pow (n := 8) (by rw [shiftRight_eq_div_pow]; omega)
  have mantissa : (bits &&& 0xFF7FFFFF).toNat % 2 ^ 24 = bits.toNat % 2 ^ 23 := by
    rw [← toNat_mant, UInt32.and_assoc, UInt32.toNat_and]
    exact and_two_pow_sub_one_eq_mod _ 23
  omega

/-- The sign bit apart, the array is the one that the pool client fills. -/
theorem targetBytes_eq : targetBytes bits = nbitsToTarget (bits &&& 0xFF7FFFFF) := by
  have exponent : ((bits &&& 0xFF7FFFFF) >>> 24).toNat = (bits >>> 24).toNat := by
    rw [toNat_exp, toNat_exp, toNat_unsigned]
    omega
  have mantissa : bits &&& 0xFF7FFFFF &&& 0xFFFFFF = bits &&& 0x007FFFFF := by
    rw [UInt32.and_assoc]
    rfl
  unfold targetBytes nbitsToTarget
  simp only [exponent, mantissa, place]
  generalize (bits >>> 24).toNat = exp
  congr 1
  funext be i
  have position : (31 : Int) - (exp - 1 - i) = 32 - exp + i := by omega
  rw [position]
  congr 1
  exact propext ⟨fun inside => by omega, fun inside => by omega⟩

theorem targetValue_targetFromBits (fits : Compact.expand (bits.toNat / 2 ^ 24) (bits.toNat % 2 ^ 23) < 256 ^ 32) :
    targetValue (targetFromBits bits) = Compact.expand (bits.toNat / 2 ^ 24) (bits.toNat % 2 ^ 23) := by
  have size : (targetBytes bits).length = 32 := by rw [targetBytes_eq, length_nbitsToTarget]
  have words : (targetFromBits bits).toList = (range 8).map fun w => leWordAt (targetBytes bits).reverse (4 * w) := by
    refine ext_getElem (by simp) fun w here there => ?_
    have inside : w < 8 := by simpa using here
    rw [getElem_map, getElem_range, leWordAt_reverse (by omega), size]
    simp only [targetFromBits, Vector.getElem_toList, Vector.getElem_ofFn]
    congr 1
    omega
  rw [targetValue, words, map_map]
  refine (ofDigits_leWords (by rw [length_reverse, size])).trans ?_
  show beValue (targetBytes bits) = _
  rw [targetBytes_eq]
  exact nbitsToTarget_expand (toNat_unsigned bits) (by omega) fits

theorem hashValue_eq (hash : Digest) : hashValue hash = leValue hash.toList := by
  rw [hashValue, hashWords, map_map]
  exact ofDigits_leWords (by simp)

/-- A hash, read from its low byte up, meets the target of compact bits when it is no more than what they stand for. -/
theorem solo_target_iff (hash : Digest) (fits : Compact.expand (bits.toNat / 2 ^ 24) (bits.toNat % 2 ^ 23) < 2 ^ 256) :
    meetsTarget hash (targetFromBits bits) = true ↔
      leValue hash.toList ≤ Compact.expand (bits.toNat / 2 ^ 24) (bits.toNat % 2 ^ 23) := by
  have room : Compact.expand (bits.toNat / 2 ^ 24) (bits.toNat % 2 ^ 23) < 256 ^ 32 := fits.trans_le (by decide)
  rw [meetsTarget_iff, hashValue_eq, targetValue_targetFromBits bits room]

theorem solo_target_easiest : meetsTarget (Vector.replicate 32 0) (targetFromBits 0x207FFFFF) = true :=
  (solo_target_iff 0x207FFFFF (Vector.replicate 32 0) (by decide)).mpr (by decide)

end target
end ArcMiner.Gr.GrSolo
