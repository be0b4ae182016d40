import ArcMiner.AkoyaCrypto.PeriodicPattern
import ArcMiner.Library.Action
import ArcMiner.Pool.TargetCodec
import ArcMiner.Prl.ShareBuilder

/-! `ShareFinalizer`: from the payload of a trigger to the pool.

A payload is built into a share, the share is compared with the target of the pool and
with the one it was mined under, and is handed to the sink or dropped. What happens to
a payload is kept as a list of effects.
-/

namespace ArcMiner.Prl

open Library Library.CSharp Library.Action AkoyaCrypto MiningCapi PearlBlake3
open SigmaContext (nbitsToTarget)
open BSeedMerkleTreeHandle (ProofResult)
open ShareBuilder (ShareSubmission TreeHandle Request)

namespace ShareTargetGuard

/-- The hash, as a little-endian number, is at most the target times the factor, which is cut to 256 bits. -/
def clearsLiveTarget (claimedHash : Digest) (installedNbits : UInt32) (config : MiningConfiguration) : Bool :=
  let product := nbitsToTarget installedNbits * config.difficultyAdjustmentFactor.toNat
  let liveTarget := if 2 ^ 256 ≤ product then 2 ^ 256 - 1 else product
  leValue claimedHash.toList ≤ liveTarget

def tighter (a b : UInt32) : UInt32 :=
  if a = 0 then b
  else if b = 0 then a
  else if nbitsToTarget a ≤ nbitsToTarget b then a else b

/-- The hash is at most the target times the factor, or 256 bits of ones. -/
def Clears (claimedHash : Digest) (nbits : UInt32) (config : MiningConfiguration) : Prop :=
  leValue claimedHash.toList ≤
    min (2 ^ 256 - 1) (nbitsToTarget nbits * config.difficultyAdjustmentFactor.toNat)

instance (claimedHash : Digest) (nbits : UInt32) (config : MiningConfiguration) :
    Decidable (Clears claimedHash nbits config) := inferInstanceAs (Decidable (_ ≤ _))

variable {claimedHash : Digest} {config : MiningConfiguration}

theorem clearsLiveTarget_iff (nbits : UInt32) :
    clearsLiveTarget claimedHash nbits config = true ↔ Clears claimedHash nbits config := by
  unfold clearsLiveTarget Clears
  rw [decide_eq_true_iff]
  split <;> omega

theorem missesLiveTarget_iff (nbits : UInt32) :
    (!clearsLiveTarget claimedHash nbits config) = true ↔ ¬ Clears claimedHash nbits config := by
  rw [Bool.not_eq_true', ← Bool.not_eq_true, clearsLiveTarget_iff]

theorem Clears.mono {tight loose : UInt32} (below : nbitsToTarget tight ≤ nbitsToTarget loose)
    (clears : Clears claimedHash tight config) : Clears claimedHash loose config :=
  clears.trans (min_le_min_left _ (Nat.mul_le_mul_right _ below))

theorem clears_tighter {live mined : UInt32} (known : live ≠ 0) (mines : Clears claimedHash mined config) :
    (tighter live mined = mined ∨ Clears claimedHash (tighter live mined) config) ↔ Clears claimedHash live config := by
  unfold tighter
  rw [if_neg known]
  by_cases unset : mined = 0
  · rw [if_pos unset, unset]
    exact or_iff_right known
  · rw [if_neg unset]
    by_cases below : nbitsToTarget live ≤ nbitsToTarget mined
    · rw [if_pos below]
      exact or_iff_right_of_imp fun same => same ▸ mines
    · rw [if_neg below]
      exact iff_of_true (.inl rfl) (mines.mono (Nat.le_of_not_le below))

end ShareTargetGuard

namespace ShareFinalizer

/-- What the finalizer uses of a `SharePayload`; the arguments of the builder that do not depend on how A is given are a
`Request`. -/
structure SharePayload where
  gpuIndex : Int32
  request : Request
  aBytes : Option (List UInt8)
  aSlice : Option (List UInt8)
  aLeafCvs : Option (List UInt8)
  bProof : ProofResult
  bMerkleTree : TreeHandle
  bSeed : Digest
  auditK : UInt32
  miningConfig : MiningConfiguration

inductive Effect where
  | bMerkleTreeReleased
  | staleTargetDropped
  | skipReported (share : ShareSubmission)
  | pendingShareGpu (gpuIndex : Int32)
  | submitted (share : ShareSubmission)
deriving DecidableEq

/-- The libraries of the builder, and what becomes of a share that is handed to the sink. -/
structure Env where
  crate : Blake3Crate
  xof : XofReader
  sink : ShareSubmission → Result Unit

abbrev Finalizer (α : Type) := Action (List Effect) Exception α

def emit (effect : Effect) : Finalizer Unit := modify (· ++ [effect])

section finalizer
variable (env : Env)

def buildShare (payload : SharePayload) : Result ShareSubmission :=
  match payload.aSlice, payload.aLeafCvs, payload.aBytes with
  | some aSlice, some aLeafCvs, _ =>
    ShareBuilder.buildFromLeafCvs env.crate env.xof payload.request aSlice aLeafCvs payload.bProof payload.bMerkleTree
      payload.bSeed payload.auditK
  | _, _, some aBytes =>
    ShareBuilder.buildWithTree env.crate env.xof payload.request aBytes payload.bProof payload.bMerkleTree payload.bSeed
      payload.auditK
  | _, _, none => .error (.invalidOperation "Share payload contained neither ABytes nor ASlice+ALeafCvs.")

def finalize (payload : SharePayload) (liveTargetNbits : Option UInt32) : Finalizer Unit := do
  let built := buildShare env payload
  -- the `finally` block
  emit .bMerkleTreeReleased
  let share ← ofResult built
  let mined := payload.request.claimedDifficultyNbits
  let liveNbits := liveTargetNbits.getD 0
  let guardNbits := ShareTargetGuard.tighter liveNbits mined
  if liveNbits ≠ 0 ∧ guardNbits ≠ mined ∧
      !ShareTargetGuard.clearsLiveTarget share.claimedHash guardNbits payload.miningConfig then
    emit .staleTargetDropped
  else if !ShareTargetGuard.clearsLiveTarget share.claimedHash mined payload.miningConfig then
    emit (.skipReported share)
  else
    emit (.pendingShareGpu payload.gpuIndex)
    emit (.submitted share)
    ofResult (env.sink share)

def consume (log : List Effect) (payload : SharePayload) (liveTargetNbits : Option UInt32) : List Effect :=
  (exec (finalize env payload liveTargetNbits) log).2

/-- `ConsumeLoopAsync` over the payloads of the channel, each with the live target at its time. -/
def consumeLoop (queue : List (SharePayload × Option UInt32)) : List Effect :=
  queue.foldl (fun log item => consume env log item.1 item.2) []

def Passes (payload : SharePayload) (liveNbits : UInt32) (share : ShareSubmission) : Prop :=
  ShareTargetGuard.Clears share.claimedHash payload.request.claimedDifficultyNbits payload.miningConfig ∧
    (liveNbits ≠ 0 → ShareTargetGuard.Clears share.claimedHash liveNbits payload.miningConfig)

def verdict (payload : SharePayload) (liveNbits : UInt32) (share : ShareSubmission) : List Effect :=
  let mined := payload.request.claimedDifficultyNbits
  let guardNbits := ShareTargetGuard.tighter liveNbits mined
  if liveNbits ≠ 0 ∧ guardNbits ≠ mined ∧
      !ShareTargetGuard.clearsLiveTarget share.claimedHash guardNbits payload.miningConfig then [.staleTargetDropped]
  else if !ShareTargetGuard.clearsLiveTarget share.claimedHash mined payload.miningConfig then [.skipReported share]
  else [.pendingShareGpu payload.gpuIndex, .submitted share]

def effects (payload : SharePayload) (liveTargetNbits : Option UInt32) : List Effect :=
  .bMerkleTreeReleased :: match buildShare env payload with
    | .ok share => verdict payload (liveTargetNbits.getD 0) share
    | .error _ => []

theorem effects_cases (payload : SharePayload) (liveTargetNbits : Option UInt32) :
    (∃ dropped, effects env payload liveTargetNbits = .bMerkleTreeReleased :: dropped ∧
      (dropped = [] ∨ dropped = [.staleTargetDropped] ∨ ∃ share, dropped = [.skipReported share])) ∨
    ∃ share, effects env payload liveTargetNbits =
      [.bMerkleTreeReleased, .pendingShareGpu payload.gpuIndex, .submitted share] := by
  unfold effects
  cases buildShare env payload with
  | error why => exact .inl ⟨[], rfl, .inl rfl⟩
  | ok share =>
    dsimp only [verdict]
    split
    · exact .inl ⟨_, rfl, .inr (.inl rfl)⟩
    · split
      · exact .inl ⟨_, rfl, .inr (.inr ⟨share, rfl⟩)⟩
      · exact .inr ⟨share, rfl⟩

theorem consume_eq (log : List Effect) (payload : SharePayload) (liveTargetNbits : Option UInt32) :
    consume env log payload liveTargetNbits = log ++ effects env payload liveTargetNbits := by
  suffices known : wp (finalize env payload liveTargetNbits) (fun _ => (· = log ++ effects env payload liveTargetNbits))
      (· = log ++ effects env payload liveTargetNbits) log from exec_state known
  simp only [finalize, emit, wp_bind, wp_modify, wp_ofResult, effects, verdict]
  cases buildShare env payload with
  | error why => simp
  | ok share =>
    simp only [wp_ite, wp_modify, wp_bind, wp_ofResult]
    split
    · simp
    · split
      · simp
      · cases env.sink share <;> simp

theorem submitted_verdict_iff (payload : SharePayload) (liveNbits : UInt32) (built share : ShareSubmission) :
    .submitted share ∈ verdict payload liveNbits built ↔ built = share ∧ Passes payload liveNbits built := by
  simp only [verdict, Passes, ShareTargetGuard.missesLiveTarget_iff]
  by_cases mines : ShareTargetGuard.Clears built.claimedHash payload.request.claimedDifficultyNbits payload.miningConfig
  · have guarded := fun known : liveNbits ≠ 0 => ShareTargetGuard.clears_tighter known mines
    split
    · next stale =>
      have misses : ¬ ShareTargetGuard.Clears built.claimedHash liveNbits payload.miningConfig := by
        rw [← guarded stale.1]
        exact not_or.mpr stale.2
      simp [stale.1, misses]
    · next fresh =>
      have clears : liveNbits ≠ 0 → ShareTargetGuard.Clears built.claimedHash liveNbits payload.miningConfig := by
        intro known
        rw [← guarded known]
        by_contra neither
        exact fresh ⟨known, not_or.mp neither⟩
      have handed : .submitted share ∈ [Effect.pendingShareGpu payload.gpuIndex, .submitted built] ↔ built = share := by
        simp [eq_comm]
      exact handed.trans (iff_self_and.mpr fun _ => ⟨mines, clears⟩)
  · split <;> simp [mines]

theorem consumeLoop_eq (queue : List (SharePayload × Option UInt32)) :
    consumeLoop env queue = queue.flatMap fun item => effects env item.1 item.2 := by
  unfold consumeLoop
  induction queue using List.reverseRecOn with
  | nil => rfl
  | append_singleton queue item ih =>
    rw [List.foldl_append, ih, List.flatMap_append, List.flatMap_singleton]
    exact consume_eq env _ item.1 item.2

theorem submitted_iff (payload : SharePayload) (liveTargetNbits : Option UInt32) (share : ShareSubmission) :
    .submitted share ∈ effects env payload liveTargetNbits ↔
      buildShare env payload = .ok share ∧ Passes payload (liveTargetNbits.getD 0) share := by
  unfold effects
  rw [List.mem_cons, or_iff_right nofun]
  cases buildShare env payload with
  | error why => exact iff_of_false List.not_mem_nil nofun
  | ok built =>
    rw [submitted_verdict_iff, Except.ok.injEq]
    exact and_congr_right fun same => same ▸ Iff.rfl

theorem consumeLoop_submitted (queue : List (SharePayload × Option UInt32)) (share : ShareSubmission) :
    .submitted share ∈ consumeLoop env queue ↔
      ∃ item ∈ queue, buildShare env item.1 = .ok share ∧ Passes item.1 (item.2.getD 0) share := by
  simp only [consumeLoop_eq, List.mem_flatMap, submitted_iff]

theorem handed_to_sink_iff (payload : SharePayload) (liveTargetNbits : Option UInt32) (share : ShareSubmission) :
    .submitted share ∈ consume env [] payload liveTargetNbits ↔
      buildShare env payload = .ok share ∧
      leValue share.claimedHash.toList ≤ min (2 ^ 256 - 1) (nbitsToTarget payload.request.claimedDifficultyNbits *
          payload.miningConfig.difficultyAdjustmentFactor.toNat) ∧
      (liveTargetNbits.getD 0 ≠ 0 → leValue share.claimedHash.toList ≤ min (2 ^ 256 - 1)
        (nbitsToTarget (liveTargetNbits.getD 0) *
          payload.miningConfig.difficultyAdjustmentFactor.toNat)) := by
  rw [consume_eq, List.nil_append]
  exact submitted_iff env payload liveTargetNbits share

end finalizer
end ShareFinalizer
end ArcMiner.Prl
