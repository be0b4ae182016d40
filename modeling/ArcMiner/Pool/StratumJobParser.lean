import ArcMiner.AkoyaCrypto.Hex
import ArcMiner.Library.ByteValue
import ArcMiner.Pool.StratumModels

/-! `StratumJobParser`: the job of a Bitcoin-style notify, and the block height in the front of its coinbase transaction. -/

namespace ArcMiner.Pool.StratumJobParser

open Library Library.CSharp AkoyaCrypto List JsonElement

/-- version(4), input count(1), prev txid(32), prev index(4). -/
def scriptSigLenOffset : Nat := 4 + 1 + 32 + 4

def pushOffset : Nat := scriptSigLenOffset + 1

def tryParseBip34Height (coinb1 : List UInt8) : Nat :=
  if coinb1.length < scriptSigLenOffset + 2 then 0 else
  let scriptSigLen := coinb1.getD scriptSigLenOffset 0
  if scriptSigLen = 0 ∨ 0xFD ≤ scriptSigLen then 0 else
  let push := coinb1.getD pushOffset 0
  if push < 1 ∨ 4 < push then 0 else
  if pushOffset + 1 + push.toNat > coinb1.length then 0 else
  if push > scriptSigLen then 0 else
  let height := (packBytes (fun i => coinb1.getD (pushOffset + 1 + i) 0) push.toNat).toNat
  if 0 < height ∧ height < 100000000 then height else 0

def hexBytes (element : Json) : Result (List UInt8) := do
  Hex.decode ((← getString element).getD "")

def blockCopy (source : List UInt8) (count : Nat) : Result (List UInt8) :=
  if source.length < count then .error (.argument "offset and length were out of bounds") else .ok (source.take count)

def optional (arr : List Json) (position : Nat) : Json := arr.getD position .null

def parseNotification (primitives : Primitives) (arr : List Json) (extranonce1 extranonce2 : List UInt8) :
    Result JobAssignment := do
  let jobIdStr := (← getString (← index arr 0)).getD ""
  let prevHashBytes ← hexBytes (← index arr 1)
  let coinb1Bytes ← hexBytes (← index arr 2)
  let coinb2Bytes ← hexBytes (← index arr 3)
  let merkleBranch ← index arr 4
  let versionBytes ← hexBytes (← index arr 5)
  let nbitsBytes ← hexBytes (← index arr 6)
  let ntimeBytes ← hexBytes (← index arr 7)
  let bSeed ← if 9 < arr.length then do
      let bSeedHex := (← getString (← index arr 9)).getD ""
      if bSeedHex.isEmpty then pure (replicate 32 0) else Hex.decode bSeedHex
    else pure (replicate 32 0)
  let auditK : Int ← match optional arr 10 with
    | .number literal => getUInt32 (.number literal)
    | _ => pure 8
  let txHash := primitives.sha256d (coinb1Bytes ++ extranonce1 ++ extranonce2 ++ coinb2Bytes)
  let merkleRoot ← (← enumerateArray merkleBranch).foldlM
    (fun root branchElement => do return primitives.sha256d (root ++ (← hexBytes branchElement))) txHash
  let sigma := (← blockCopy versionBytes 4) ++ (← blockCopy prevHashBytes 32) ++ (← blockCopy merkleRoot 32) ++
    (← blockCopy ntimeBytes 4) ++ (← blockCopy nbitsBytes 4)
  -- the four bytes are read from the low one up and then turned round
  let targetNbits := leWord (nbitsBytes.getD 3 0) (nbitsBytes.getD 2 0) (nbitsBytes.getD 1 0) (nbitsBytes.getD 0 0)
  return {
    jobId := primitives.jobIdBytes jobIdStr
    sigma, targetNbits
    networkTargetNbits := targetNbits
    blockHeight := tryParseBip34Height coinb1Bytes
    protocolVersion := 2
    bSeed, auditK }

/-- A script number: the last byte's top bit is the sign, the other bits the magnitude from the low byte up. -/
def scriptNum (bytes : List UInt8) : Int :=
  match bytes.getLast? with
  | none => 0
  | some last => if last < 0x80 then leValue bytes else -leValue (bytes.dropLast ++ [last &&& 0x7F])

def pushed (coinb1 : List UInt8) : List UInt8 := (coinb1.drop (pushOffset + 1)).take (coinb1.getD pushOffset 0).toNat

structure States (coinb1 : List UInt8) (height : Int) : Prop where
  direct : 1 ≤ coinb1.getD pushOffset 0 ∧ coinb1.getD pushOffset 0 ≤ 4
  inScript : 1 + (coinb1.getD pushOffset 0).toNat ≤ (coinb1.getD scriptSigLenOffset 0).toNat
  inBuffer : pushOffset + 1 + (coinb1.getD pushOffset 0).toNat ≤ coinb1.length
  value : height = scriptNum (pushed coinb1)

structure Accepted (coinb1 : List UInt8) : Prop where
  direct : 1 ≤ coinb1.getD pushOffset 0 ∧ coinb1.getD pushOffset 0 ≤ 4
  inBuffer : pushOffset + 1 + (coinb1.getD pushOffset 0).toNat ≤ coinb1.length
  height : tryParseBip34Height coinb1 =
    (packBytes (fun i => coinb1.getD (pushOffset + 1 + i) 0) (coinb1.getD pushOffset 0).toNat).toNat

theorem accepted_of_parsed {coinb1 : List UInt8} (parsed : 0 < tryParseBip34Height coinb1) : Accepted coinb1 := by
  dsimp only [tryParseBip34Height] at parsed
  -- every branch but the last answers zero
  split_ifs at parsed with short form direct outside script inRange <;> try exact absurd parsed (Nat.lt_irrefl 0)
  refine ⟨⟨UInt8.not_lt.mp (not_or.mp direct).1, UInt8.not_lt.mp (not_or.mp direct).2⟩, by omega, ?_⟩
  dsimp only [tryParseBip34Height]
  rw [if_neg short, if_neg form, if_neg direct, if_neg outside, if_neg script, if_pos inRange]

variable {coinb1 : List UInt8}

theorem pushed_eq_range (accepted : Accepted coinb1) :
    pushed coinb1 = (range (coinb1.getD pushOffset 0).toNat).map (fun i => coinb1.getD (pushOffset + 1 + i) 0) := by
  have inBuffer := accepted.inBuffer
  refine ext_getElem ?_ (fun i here there => ?_)
  · simp only [pushed, length_take, length_drop, length_map, length_range]
    omega
  · simp only [length_map, length_range] at there
    have inside : pushOffset + 1 + i < coinb1.length := by omega
    simp [pushed, getD_eq_getElem?_getD, getElem?_eq_getElem inside]

theorem getLast_pushed (accepted : Accepted coinb1) :
    (pushed coinb1).getLast? = some (coinb1.getD (pushOffset + (coinb1.getD pushOffset 0).toNat) 0) := by
  obtain ⟨count, same⟩ : ∃ count, (coinb1.getD pushOffset 0).toNat = count + 1 :=
    Nat.exists_eq_add_of_le' (UInt8.le_iff_toNat_le.mp accepted.direct.1)
  rw [pushed_eq_range accepted, same, range_succ, map_append, map_singleton, getLast?_concat,
    show pushOffset + 1 + count = pushOffset + (count + 1) by omega]

theorem height_eq_leValue (accepted : Accepted coinb1) : tryParseBip34Height coinb1 = leValue (pushed coinb1) := by
  have short : (coinb1.getD pushOffset 0).toNat ≤ 4 := UInt8.le_iff_toNat_le.mp accepted.direct.2
  rw [accepted.height, packBytes_toNat _ (by omega), pushed_eq_range accepted]

theorem height_eq_scriptNum_iff (accepted : Accepted coinb1) (parsed : 0 < tryParseBip34Height coinb1) :
    (tryParseBip34Height coinb1 : Int) = scriptNum (pushed coinb1) ↔
      coinb1.getD (pushOffset + (coinb1.getD pushOffset 0).toNat) 0 < 0x80 := by
  rw [height_eq_leValue accepted] at parsed ⊢
  rw [scriptNum, getLast_pushed accepted]
  dsimp only
  split
  · next clear => exact iff_of_true rfl clear
  · next set => exact iff_of_false (by omega) set

/-- A height that is read is the one the coinbase states if the push opcode and its data fit in the scriptSig together,
and the pushed number is not negative. Neither is checked: the opcode's own byte is left out of the comparison with the
script's length, and the top bit of the last byte is read as part of the height. -/
theorem height_stated_iff (parsed : 0 < tryParseBip34Height coinb1) : States coinb1 (tryParseBip34Height coinb1) ↔
      coinb1.getD pushOffset 0 < coinb1.getD scriptSigLenOffset 0 ∧
        coinb1.getD (pushOffset + (coinb1.getD pushOffset 0).toNat) 0 < 0x80 := by
  have accepted := accepted_of_parsed parsed
  rw [← height_eq_scriptNum_iff accepted parsed, UInt8.lt_iff_toNat_lt]
  constructor
  · intro states
    exact ⟨by have := states.inScript; omega, states.value⟩
  · rintro ⟨inScript, value⟩
    exact ⟨accepted.direct, by omega, accepted.inBuffer, value⟩

/-- Block 840000: a push of three bytes in a scriptSig of eight. -/
theorem height_stated_at_halving : States (replicate 41 0 ++ [8, 3, 0x40, 0xD1, 0x0C]) 840000 :=
  have parsed : tryParseBip34Height (replicate 41 0 ++ [8, 3, 0x40, 0xD1, 0x0C]) = 840000 := by decide +kernel
  have states := (height_stated_iff (by rw [parsed]; decide)).mpr (by decide)
  by rwa [parsed] at states

/-- A scriptSig of one byte cannot hold the push of a height, and one whose number is minus zero states none. -/
theorem height_not_stated :
    (tryParseBip34Height (replicate 41 0 ++ [1, 1, 5]) = 5 ∧ ¬ States (replicate 41 0 ++ [1, 1, 5]) 5) ∧
      tryParseBip34Height (replicate 41 0 ++ [2, 1, 0x80]) = 128 ∧
        ¬ States (replicate 41 0 ++ [2, 1, 0x80]) 128 := by
  refine ⟨⟨by decide +kernel, fun states => ?_⟩, by decide +kernel, fun states => ?_⟩
  · exact absurd states.inScript (by decide)
  · exact absurd states.value (by decide)

end ArcMiner.Pool.StratumJobParser
