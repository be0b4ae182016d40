import ArcMiner.Library.Kernel
import ArcMiner.PearlGemm.Xmx

/-! `launch_tgemm_pow`: the transcripts of all tiles of a search window.

A work group is one sub-group of `sg` lanes that works on `rm` by `rn` tiles. The
probe modes of the fold, which are off unless an environment variable asks for a
benchmark, are not modelled.
-/

namespace ArcMiner.PearlGemm

open Library

/-- The compile-time choices of one instantiation: `RM`, `RN`, `SG` and `R_const`. -/
structure Blocking where
  rm : Nat
  rn : Nat
  sg : Nat
  rConst : Nat
  rm_pos : 0 < rm
  rn_pos : 0 < rn
  width : 16 / sg * sg = 16

/-- `NHALF`, the accumulators side by side in a tile. -/
def Blocking.nhalf (blocking : Blocking) : Nat := 16 / blocking.sg

structure TgemmArgs where
  apEA : Nat → Int8
  bt : Nat → Int8
  m : Nat
  n : Nat
  k : Nat
  r : Nat
  nStride : Int

def TgemmArgs.stride (args : TgemmArgs) : Nat := if args.nStride ≤ 0 then args.n else args.nStride.toNat

abbrev Accumulators := Nat → Nat → Fragment Int32

def rotl32 (x : UInt32) (n : UInt32) : UInt32 := (x <<< n) ||| (x >>> (32 - n))

section group
variable (xmx : Xmx) (blocking : Blocking) (viaMem : Bool) (args : TgemmArgs) (grpRow grpCol : Nat)

def fragmentRow (r : Nat) : Nat := (grpRow * blocking.rm + r / 2) * 16 + r % 2 * 8

def fragmentCol (t : Nat) : Nat := (grpCol * blocking.rn + t / blocking.nhalf) * 16 + t % blocking.nhalf * blocking.sg

def doKsStep (kb ks : Nat) (mC : Accumulators) : Accumulators := fun r t =>
  let k0 := kb + ks
  let mA := load args.apEA (fragmentRow blocking grpRow r * args.k + k0) args.k
  let mB := load args.bt (k0 * args.stride + fragmentCol blocking grpCol t) args.stride
  xmx.mad blocking.sg mA mB (mC r t)

def rVal : Nat := if 0 < blocking.rConst then blocking.rConst else args.r

def blockSteps (kb : Nat) (mC : Accumulators) : Accumulators :=
  (List.range ((rVal blocking args + 31) / 32)).foldl
    (fun mC j => doKsStep xmx blocking args grpRow grpCol kb (32 * j) mC) mC

def applyXor (lid : Nat) (fragment : Fragment Int32) (part : UInt32) : UInt32 :=
  ((xmx.elements blocking.sg).filter fun e => xmx.lane blocking.sg e = lid).foldl
    (fun part e => part ^^^ (fragment e.1 e.2).toUInt32) part

/-- The accumulators of a tile after `joint_matrix_store`, one fragment after the other. -/
def foldSlm (mC : Accumulators) (mb t i : Nat) : Int32 :=
  let f := i / (8 * blocking.sg)
  let e := i % (8 * blocking.sg)
  mC (2 * mb + f % 2) (t * blocking.nhalf + f / 2) (e / blocking.sg) (e % blocking.sg)

def lanePart (mC : Accumulators) (mb t lid : Nat) : UInt32 :=
  if viaMem then
    (List.range (2 * blocking.nhalf)).foldl (fun part f => (List.range 8).foldl (fun part r =>
      part ^^^ (foldSlm blocking mC mb t (f * (8 * blocking.sg) + r * blocking.sg + lid)).toUInt32) part) 0
  else
    (List.range blocking.nhalf).foldl (fun part h =>
      applyXor xmx blocking lid (mC (2 * mb + 1) (t * blocking.nhalf + h))
        (applyXor xmx blocking lid (mC (2 * mb) (t * blocking.nhalf + h)) part)) 0

def tileXor (mC : Accumulators) (mb t : Nat) : UInt32 :=
  (List.range blocking.sg).foldl (fun xored lid => xored ^^^ lanePart xmx blocking viaMem mC mb t lid) 0

def groupTiles : List (Nat × Nat) := (List.range blocking.rm).product (List.range blocking.rn)

def slot (tile : Nat × Nat) (e : Nat) : Nat := (tile.1 * blocking.rn + tile.2) * 16 + e

def foldTile (mC : Accumulators) (snap : Nat) (tile : Nat × Nat) (trSlm : Nat → UInt32) : Nat → UInt32 :=
  let idx := slot blocking tile (snap % 16)
  Function.update trSlm idx (rotl32 (trSlm idx) 13 ^^^ tileXor xmx blocking viaMem mC tile.1 tile.2)

structure GroupState where
  mC : Accumulators
  trSlm : Nat → UInt32
  snap : Nat

def snapBlock (state : GroupState) (kb : Nat) : GroupState :=
  let mC := blockSteps xmx blocking args grpRow grpCol kb state.mC
  { mC
    trSlm := (groupTiles blocking).foldl
      (fun trSlm tile => foldTile xmx blocking viaMem mC state.snap tile trSlm) state.trSlm
    snap := state.snap + 1 }

def runBlocks : GroupState :=
  let step := rVal blocking args
  (List.range ((args.k + step - 1) / step)).foldl
    (fun state j => snapBlock xmx blocking viaMem args grpRow grpCol state (j * step))
    ⟨fun _ _ _ _ => 0, fun _ => 0, 0⟩

structure TileRun where
  row : Nat
  col : Nat
  transcript : Vector UInt32 16
deriving DecidableEq

def runGroup : List TileRun :=
  let final := runBlocks xmx blocking viaMem args grpRow grpCol
  (groupTiles blocking).map fun tile =>
    ⟨grpRow * blocking.rm + tile.1, grpCol * blocking.rn + tile.2,
      Vector.ofFn fun e => final.trSlm (slot blocking tile e.val)⟩

end group

def numTiles (len : Nat) : Nat := (len + 16 - 1) / 16

def runGrid (xmx : Xmx) (schedule : Schedule) (viaMem : Bool) (args : TgemmArgs) (blocking : Blocking) : List TileRun :=
  let numGroupsM := numTiles args.m / blocking.rm
  let numGroupsN := numTiles args.n / blocking.rn
  (schedule.order (numGroupsN * numGroupsM)).flatMap fun group =>
    runGroup xmx blocking viaMem args (group % numGroupsM) (group / numGroupsM)

/-- What decides the instantiation: the generation of the card and the two tuning knobs, zero when unset. -/
structure Tuning where
  hpg : Bool
  nbEnv : Nat
  mbEnv : Nat
deriving DecidableEq

def Tuning.sg (tuning : Tuning) : Nat := if tuning.hpg then 8 else 16

theorem Tuning.width (tuning : Tuning) : 16 / tuning.sg * tuning.sg = 16 := by
  unfold Tuning.sg
  split <;> rfl

/-- `dispatchNB`; a column block of one falls back to a row block of one. -/
def dispatchNB (tuning : Tuning) (rConst rm nb numTilesN : Nat) (rm_pos : 0 < rm) : Blocking :=
  if 4 ≤ nb ∧ numTilesN % 4 = 0 then ⟨rm, 4, tuning.sg, rConst, rm_pos, by decide, tuning.width⟩
  else if 2 ≤ nb ∧ numTilesN % 2 = 0 then ⟨rm, 2, tuning.sg, rConst, rm_pos, by decide, tuning.width⟩
  else ⟨1, 1, tuning.sg, rConst, by decide, by decide, tuning.width⟩

def dispatchMB (tuning : Tuning) (rConst nb mb numTilesM numTilesN : Nat) : Blocking :=
  if 2 ≤ mb ∧ numTilesM % 2 = 0 then dispatchNB tuning rConst 2 nb numTilesN (by decide)
  else dispatchNB tuning rConst 1 nb numTilesN (by decide)

/-- Only a rank of 128 on sub-groups of 16 is unrolled. -/
def dispatch (tuning : Tuning) (args : TgemmArgs) : Blocking :=
  let rConst := if tuning.hpg = false ∧ args.r = 128 then 128 else 0
  let nb := if 0 < tuning.nbEnv then tuning.nbEnv else if tuning.hpg then 2 else 4
  let mb := if 0 < tuning.mbEnv then tuning.mbEnv else if tuning.hpg then 1 else 2
  dispatchMB tuning rConst nb mb (numTiles args.m) (numTiles args.n)

def launchTgemmPow (xmx : Xmx) (schedule : Schedule) (viaMem : Bool) (tuning : Tuning) (args : TgemmArgs) :
    List TileRun := runGrid xmx schedule viaMem args (dispatch tuning args)

end ArcMiner.PearlGemm
