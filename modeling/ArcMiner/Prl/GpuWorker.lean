import ArcMiner.Library.Action
import ArcMiner.Library.Blake3

/-! `GpuWorker`: the mining loop of one GPU.

The loop installs a sigma, keeps one batch of iterations in flight on each of two
halves, scans the headers of drained batches and hands shares over. The Merkle tree of
B is built in the background. Every call of the driver or of the native library may
fail; the exception ends the loop, unless it comes from a trigger. The
fork flag is the subject of `SaltedSeedFork`.
-/

namespace ArcMiner.Prl

open Library Library.Action

/-- Job id, configuration bytes and network target are left out: the workers only log them. -/
structure SigmaContext where
  sigma : List UInt8
  commonDim : UInt32
  rank : UInt16
  jobKey : Digest
  bSeed : Digest
  auditK : UInt32
  targetNbits : UInt32
  blockHeight : Int
deriving DecidableEq

def SigmaContext.withTargetNbits (ctx : SigmaContext) (newTargetNbits : UInt32) : SigmaContext :=
  { ctx with targetNbits := newTargetNbits }

namespace GpuWorker

inductive Fault where
  | native (op : String)
  | invalidOperation (message : String)
  | buildFailed
deriving DecidableEq

/-- One of the two pairs of buffers and stream; which of them is `Ping` alternates. -/
inductive Half where
  | first
  | second
deriving DecidableEq

def Half.other : Half → Half
  | .first => .second
  | .second => .first

inductive BuildStatus where
  | running
  | completed
  | faulted
deriving DecidableEq

/-- A background build of a B tree, with the releases of the worker's own reference. -/
structure Build where
  bSeed : Digest
  jobKey : Digest
  status : BuildStatus
  releaseOnCompletion : Bool
  releases : Nat
deriving DecidableEq

namespace Build

def release (build : Build) : Build := { build with releases := build.releases + 1 }

def settle (succeeds : Bool) (build : Build) : Build :=
  match build.status with
  | .running =>
    if succeeds then
      let completed := { build with status := .completed }
      if build.releaseOnCompletion then completed.release else completed
    else { build with status := .faulted }
  | _ => build

def releaseWhenCompleted (build : Build) : Build :=
  match build.status with
  | .running => { build with releaseOnCompletion := true }
  | .completed => build.release
  | .faulted => build

def waitAndRelease (succeeds : Bool) (build : Build) : Build :=
  let settled := build.settle succeeds
  if settled.status = .completed then settled.release else settled

end Build

/-- `BMerkleTree` and `BMerkleTreeBuildTask` as numbers of builds, in the order of their start. -/
structure TreeState where
  builds : Nat → Build
  started : Nat
  bMerkleTree : Option Nat
  bMerkleTreeBuildTask : Option Nat

/-- What is installed on host and device. `none` is an array that is still empty. -/
structure SigmaState where
  seenJob : Option SigmaContext
  installedSigma : List UInt8
  installedJobKey : Option Digest
  installedBSeed : Option Digest
  installedAuditK : UInt32
  installedTargetNbits : UInt32
  bUploaded : Bool
  deviceKey : Option Digest
  deviceBSeed : Option Digest
  powTargetNbits : Half → UInt32

inductive SlotEvent where
  | queued (half : Half) (slot : Nat) (winSeed : UInt64)
  | scanned (half : Half) (slot : Nat) (winSeed : UInt64)
deriving DecidableEq

/-- The pipeline: which half is `Ping`, the batch in flight on it, and what happened to the header slots so far. -/
structure BatchState where
  ping : Half
  globalIterIdx : UInt64
  inflight : Nat
  slots : List SlotEvent

/-- The part of a `SharePayload` that comes from the state of the worker. -/
structure SharePayload where
  sigma : List UInt8
  jobKey : Option Digest
  bMerkleTree : Nat
  bSeed : Option Digest
  auditK : UInt32
  claimedDifficultyNbits : UInt32
  winSeed : UInt64
deriving DecidableEq

inductive Phase where
  | fresh
  | mining
  | stopped
deriving DecidableEq

structure WorkerState where
  phase : Phase
  lastFatal : Option Fault
  sigma : SigmaState
  trees : TreeState
  batches : BatchState
  payloads : List SharePayload
  nativeCalls : Nat

/-- Settings of the worker, and what it cannot foresee: which native calls fail and which builds succeed. -/
structure Env where
  matmulsPerPoll : Nat
  disablePong : Bool
  fails : Nat → Bool
  succeeds : Nat → Bool

abbrev Worker (α : Type) := Action WorkerState Fault α

section worker
variable (env : Env)

def check (op : String) : Worker Unit := do
  let s ← get
  set { s with nativeCalls := s.nativeCalls + 1 }
  if env.fails s.nativeCalls then throw (.native op) else pure ()

def modifySigma (f : SigmaState → SigmaState) : Worker Unit := modify fun s => { s with sigma := f s.sigma }

def modifyTrees (f : TreeState → TreeState) : Worker Unit := modify fun s => { s with trees := f s.trees }

def modifyBatches (f : BatchState → BatchState) : Worker Unit := modify fun s => { s with batches := f s.batches }

def TreeState.update (t : TreeState) (i : Nat) (f : Build → Build) : TreeState :=
  { t with builds := Function.update t.builds i (f (t.builds i)) }

def retireBMerkleState (waitForPendingBuild : Bool) (t : TreeState) : TreeState :=
  let retired := match t.bMerkleTreeBuildTask with
    | some pending => t.update pending
      (if waitForPendingBuild then Build.waitAndRelease (env.succeeds pending) else Build.releaseWhenCompleted)
    | none => t
  let released := match retired.bMerkleTree with
    | some tree => retired.update tree Build.release
    | none => retired
  { released with bMerkleTreeBuildTask := none, bMerkleTree := none }

def TreeState.start (bSeed jobKey : Digest) (t : TreeState) : TreeState :=
  { t with
    builds := Function.update t.builds t.started ⟨bSeed, jobKey, .running, false, 0⟩
    started := t.started + 1
    bMerkleTreeBuildTask := some t.started }

def startBMerkleBuild (bSeed jobKey : Digest) : Worker Unit := do
  check env "dtoh async B leaf CVs"
  modifyTrees (TreeState.start bSeed jobKey)

def ensureBMerkleTreeReady : Worker Nat := do
  match (← get).trees.bMerkleTree with
  | some tree => return tree
  | none =>
    match (← get).trees.bMerkleTreeBuildTask with
    | none => throw (.invalidOperation "B Merkle tree is not available for installed sigma.")
    | some pending =>
      -- `GetResult` blocks until the build has ended and throws what it threw
      modifyTrees (·.update pending (Build.settle (env.succeeds pending)))
      if ((← get).trees.builds pending).status = .completed then
        modifyTrees fun t => { t with bMerkleTreeBuildTask := none, bMerkleTree := some pending }
        return pending
      else throw .buildFailed

def installResidentBState (ctx : SigmaContext) : Worker Unit := do
  check env "H2D"
  modifySigma fun g => { g with deviceKey := some ctx.jobKey }
  check env "tensor_hash_fused A seed"
  check env "install_B"
  -- B is expanded from its seed only if it is not on the device yet
  modifySigma fun g => if g.bUploaded then g else { g with deviceBSeed := some ctx.bSeed, bUploaded := true }

def installSigmaHalf (half : Half) (ctx : SigmaContext) : Worker Unit := do
  check env "H2D"
  modifySigma fun g => { g with powTargetNbits := Function.update g.powTargetNbits half ctx.targetNbits }
  check env "workspace_alloc"
  check env "workspace_install_params"

def retarget (half : Half) (ctx : SigmaContext) : Worker Unit := do
  check env "H2D"
  modifySigma fun g => { g with powTargetNbits := Function.update g.powTargetNbits half ctx.targetNbits }

def SigmaState.sameAsInstalled (g : SigmaState) (ctx : SigmaContext) : Bool :=
  0 < g.installedSigma.length && g.installedSigma = ctx.sigma

def installSigma (ctx : SigmaContext) : Worker Unit := do
  let s ← get
  let ping := s.batches.ping
  if s.sigma.sameAsInstalled ctx then
    if s.sigma.installedTargetNbits = ctx.targetNbits then pure ()
    else
      -- same sigma, new target
      retarget env ping ctx
      retarget env ping.other ctx
      modifySigma fun g => { g with installedTargetNbits := ctx.targetNbits }
  else
    modifyTrees (retireBMerkleState env false)
    modifySigma fun g => if g.installedBSeed = some ctx.bSeed then g
      else { g with installedBSeed := some ctx.bSeed, bUploaded := false }
    installResidentBState env ctx
    installSigmaHalf env ping ctx
    installSigmaHalf env ping.other ctx
    check env "sync σ install [ping]"
    check env "sync σ install [pong]"
    check env "CUDA graph iter prepare"
    modifySigma fun g => { g with
      installedSigma := ctx.sigma
      installedJobKey := some ctx.jobKey
      installedAuditK := ctx.auditK
      installedTargetNbits := ctx.targetNbits }

def startBMerkleForInstalledSigma (ctx : SigmaContext) : Worker Unit := startBMerkleBuild env ctx.bSeed ctx.jobKey

def queueBatch (half : Half) (batch : Nat) (batchStart : UInt64) : Worker Unit := do
  check env "memset dSync"
  check env "iter_batch"
  modifyBatches fun b => { b with
    slots := b.slots ++ (List.range batch).map fun k => .queued half k (batchStart + k.toUInt64) }

def sharePayload (g : SigmaState) (bTree : Nat) (winSeed : UInt64) : SharePayload where
  sigma := g.installedSigma
  jobKey := g.installedJobKey
  bMerkleTree := bTree
  bSeed := g.installedBSeed
  auditK := g.installedAuditK
  claimedDifficultyNbits := g.installedTargetNbits
  winSeed := winSeed

def handleTrigger (winSeed : UInt64) : Worker Unit := do
  check env "drain pre-regen"
  check env "D2H A"
  let bTree ← ensureBMerkleTreeReady env
  check env "B proof"
  modify fun s => { s with payloads := s.payloads ++ [sharePayload s.sigma bTree winSeed] }

section scan
variable (half : Half) (batchStart : UInt64) (hit : Nat → Bool)

/-- Reads the status of `count` slots from `k` on, up to the first trigger. -/
def scanHeaders : Nat → Nat → Worker (Option Nat)
  | 0, _ => return none
  | count + 1, k => do
    modifyBatches fun b => { b with slots := b.slots ++ [.scanned half k (batchStart + k.toUInt64)] }
    if hit k then return some k else scanHeaders count (k + 1)

/-- The loop of `HandleBatchTriggers` from a slot on; every round passes at least one slot. -/
def handleTriggersFrom (batch : Nat) : Nat → Nat → Worker Unit
  | 0, _ => return ()
  | rounds + 1, k => do
    match ← scanHeaders half batchStart hit (batch - k) k with
    | none => return ()
    | some winK =>
      -- a share that fails is dropped
      tryCatch (handleTrigger env (batchStart + winK.toUInt64)) fun _ => return ()
      handleTriggersFrom batch rounds (winK + 1)

def handleBatchTriggers (batch : Nat) : Worker Unit := handleTriggersFrom env half batchStart hit batch (batch + 1) 0

end scan

def installAndQueue (ctx : SigmaContext) : Worker Unit := do
  installSigma env ctx
  modifyBatches fun b => { b with inflight := env.matmulsPerPoll }
  let b := (← get).batches
  queueBatch env b.ping b.inflight b.globalIterIdx
  startBMerkleForInstalledSigma env ctx

/-- Waits for `Ping`, counts its iterations and scans its headers. -/
def drainPing (hit : Nat → Bool) : Worker Unit := do
  let b := (← get).batches
  check env "sync batch"
  modifyBatches fun b => { b with globalIterIdx := b.globalIterIdx + b.inflight.toUInt64 }
  handleBatchTriggers env b.ping b.globalIterIdx hit b.inflight

/-- A pass of the loop that finds a new job on the bus. -/
def rotate (ctx : SigmaContext) (hit : Nat → Bool) : Worker Unit := do
  modifySigma fun g => { g with seenJob := some ctx }
  drainPing env hit
  installAndQueue env ctx

/-- A pass of the loop that finds none. -/
def mine (hit : Nat → Bool) : Worker Unit := do
  let b := (← get).batches
  let pongSize := if env.disablePong then 0 else env.matmulsPerPoll
  if 0 < pongSize then queueBatch env b.ping.other pongSize (b.globalIterIdx + b.inflight.toUInt64) else pure ()
  drainPing env hit
  if pongSize = 0 then do
    let b := (← get).batches
    queueBatch env b.ping b.inflight b.globalIterIdx
  else modifyBatches fun b => { b with ping := b.ping.other, inflight := pongSize }

inductive Event where
  | start (ctx : SigmaContext)
  /-- A pass of the loop, with the headers that report a trigger. -/
  | rotate (ctx : SigmaContext) (hit : Nat → Bool)
  | mine (hit : Nat → Bool)
  | cancel
  | settle (build : Nat)

/-- The `finally` block: the worker gives up its tree. -/
def stop (s : WorkerState) : WorkerState := { s with phase := .stopped, trees := retireBMerkleState env true s.trees }

def finish (action : Worker Unit) (s : WorkerState) : WorkerState :=
  match exec action s with
  | (.ok (), s) => { s with phase := .mining }
  | (.error why, s) => stop env { s with lastFatal := some why }

def step (s : WorkerState) : Event → Option WorkerState
  | .start ctx =>
    if s.phase = .fresh then
      some (finish env (do modifySigma fun g => { g with seenJob := some ctx }; installAndQueue env ctx) s)
    else none
  | .rotate ctx hit => if s.phase = .mining then some (finish env (rotate env ctx hit) s) else none
  | .mine hit => if s.phase = .mining then some (finish env (mine env hit) s) else none
  | .cancel => if s.phase = .mining then some (stop env s) else none
  | .settle build =>
    if build < s.trees.started then
      some { s with trees := s.trees.update build (Build.settle (env.succeeds build)) }
    else none

end worker

def WorkerState.fresh (iterBase : UInt64) : WorkerState where
  phase := .fresh
  lastFatal := none
  sigma := ⟨none, [], none, none, 0, 0, false, none, none, fun _ => 0⟩
  trees := ⟨fun _ => ⟨Blake3.zeroKey, Blake3.zeroKey, .faulted, false, 0⟩, 0, none, none⟩
  batches := ⟨.first, iterBase, 0, []⟩
  payloads := []
  nativeCalls := 0

end GpuWorker
end ArcMiner.Prl
