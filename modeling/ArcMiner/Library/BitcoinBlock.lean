import ArcMiner.Library.ByteValue
import ArcMiner.Library.Reader
import ArcMiner.Library.Tabulate

/-! Blocks in the format of Bitcoin: numbers of variable width, transactions without a witness, and the tree over the
ids of the transactions.
-/

namespace ArcMiner.Library.Bitcoin

open Reader Nat

def readLe (width : Nat) : Reader UInt8 Nat := do
  let bytes ← many token width
  return leValue bytes

/-- A number that would fit a narrower form is refused. -/
def readWide (width least : Nat) : Reader UInt8 Nat := do
  let n ← readLe width
  if least ≤ n then return n else failure

def readVarInt : Reader UInt8 Nat := do
  let first ← token
  if first = 0xFD then readWide 2 0xFD
  else if first = 0xFE then readWide 4 0x10000
  else if first = 0xFF then readWide 8 0x100000000
  else return first.toNat

def readScript : Reader UInt8 (List UInt8) := do many token (← readVarInt)

structure TxIn where
  prevout : List UInt8
  scriptSig : List UInt8
  sequence : Nat

structure TxOut where
  value : Nat
  script : List UInt8

structure Transaction where
  version : Nat
  inputs : List TxIn
  outputs : List TxOut
  lockTime : Nat

def readTxIn : Reader UInt8 TxIn := do
  let prevout ← many token 36
  let scriptSig ← readScript
  let sequence ← readLe 4
  return ⟨prevout, scriptSig, sequence⟩

def readTxOut : Reader UInt8 TxOut := do
  let value ← readLe 8
  let script ← readScript
  return ⟨value, script⟩

def readTransaction : Reader UInt8 Transaction := do
  let version ← readLe 4
  let inputs ← many readTxIn (← readVarInt)
  let outputs ← many readTxOut (← readVarInt)
  let lockTime ← readLe 4
  return ⟨version, inputs, outputs, lockTime⟩

structure Block where
  header : List UInt8
  count : List UInt8
  coinbase : List UInt8
  transactions : List (List UInt8)

structure Block.Parses {τ : Type} (readTx : Reader UInt8 τ) (bytes : List UInt8) (block : Block) : Prop where
  whole : bytes = block.header ++ (block.count ++ (block.coinbase ++ block.transactions.flatten))
  header : block.header.length = 80
  count : Reads readVarInt block.count (block.transactions.length + 1)
  coinbase : ∃ tx, Reads readTransaction block.coinbase tx
  transactions : ∀ raw ∈ block.transactions, ∃ tx, Reads readTx raw tx

theorem Block.Parses.unique {τ : Type} {readTx : Reader UInt8 τ} {bytes : List UInt8} {block other : Block}
    (one : block.Parses readTx bytes) (two : other.Parses readTx bytes) : block = other := by
  obtain ⟨header, count, coinbase, transactions⟩ := block
  obtain ⟨header', count', coinbase', transactions'⟩ := other
  have same := one.whole.symm.trans two.whole
  obtain ⟨headers, same⟩ := List.append_inj same (one.header.trans two.header.symm)
  obtain ⟨counts, number, same⟩ := one.count.delimits two.count same
  obtain ⟨_, first⟩ := one.coinbase
  obtain ⟨_, second⟩ := two.coinbase
  obtain ⟨coinbases, -, same⟩ := first.delimits second same
  have rest := flatten_delimits one.transactions two.transactions (succ.inj number) same
  exact congr (congr (congr (congrArg Block.mk headers) counts) coinbases) rest

section tree
variable {D : Type} (node : D → D → D) (leaf : Nat → D) (n : Nat)

/-- The last position of a layer in the tree over `n` leaves. -/
def lastAt (l : Nat) : Nat := (n - 1) / 2 ^ l

/-- A node joins two neighbours of the layer below. The last one of an odd layer is joined with itself. -/
def treeNode : Nat → Nat → D
  | 0, j => leaf j
  | l + 1, j => node (treeNode l (2 * j)) (treeNode l (min (2 * j + 1) (lastAt n l)))

def rootNode : D := treeNode node leaf n (clog 2 n) 0

def layerAt (l : Nat) : List D := tabulate (treeNode node leaf n l) (lastAt n l + 1)

variable {n}

theorem lastAt_succ (l : Nat) : lastAt n (l + 1) = lastAt n l / 2 := by
  rw [lastAt, lastAt, Nat.pow_succ, Nat.div_div_eq_div_mul]

theorem lastAt_eq_zero_iff (positive : 0 < n) (l : Nat) : lastAt n l = 0 ↔ clog 2 n ≤ l := by
  rw [lastAt, Nat.div_eq_zero_iff, clog_le_iff_le_pow Nat.one_lt_two]
  have power := Nat.two_pow_pos l
  omega

theorem layerAt_eq_root {l : Nat} (level : l = clog 2 n) (positive : 0 < n) :
    layerAt node leaf n l = [rootNode node leaf n] := by
  subst level
  rw [layerAt, (lastAt_eq_zero_iff positive _).mpr (Nat.le_refl _)]
  rfl

end tree
end ArcMiner.Library.Bitcoin
