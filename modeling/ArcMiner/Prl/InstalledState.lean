import Mathlib.Data.List.Chain
import ArcMiner.Library.Machine
import ArcMiner.Prl.GpuWorkerSpec

/-! The installed state of a worker and the last context that it consumed.

Host, device and B tree belong to one context as long as a republished sigma comes
with the seed, the key and the audit parameter that it had before.
-/

namespace ArcMiner.Prl.GpuWorker

open Library Library.Machine SigmaState

def Event.context : Event → Option SigmaContext
  | .start ctx => some ctx
  | .rotate ctx _ => some ctx
  | _ => none

def consumed (events : List Event) : List SigmaContext := events.filterMap Event.context

def SameJob (last ctx : SigmaContext) : Prop :=
  ctx.sigma = last.sigma → ctx.jobKey = last.jobKey ∧ ctx.bSeed = last.bSeed ∧ ctx.auditK = last.auditK

structure SigmaState.Of (g : SigmaState) (ctx : SigmaContext) : Prop where
  seenJob : g.seenJob = some ctx
  installedSigma : g.installedSigma = ctx.sigma
  installedJobKey : g.installedJobKey = some ctx.jobKey
  installedBSeed : g.installedBSeed = some ctx.bSeed
  installedAuditK : g.installedAuditK = ctx.auditK
  installedTargetNbits : g.installedTargetNbits = ctx.targetNbits
  deviceKey : g.deviceKey = some ctx.jobKey
  deviceBSeed : g.deviceBSeed = some ctx.bSeed
  powTargetNbits : ∀ half, g.powTargetNbits half = ctx.targetNbits

def TreeState.Of (t : TreeState) (ctx : SigmaContext) : Prop :=
  ∀ i, t.bMerkleTreeBuildTask = some i ∨ t.bMerkleTree = some i →
    i < t.started ∧ (t.builds i).bSeed = ctx.bSeed ∧ (t.builds i).jobKey = ctx.jobKey

section sigma
variable {g : SigmaState} {last ctx : SigmaContext}

theorem SigmaState.Of.sigma_eq (ofLast : g.Of last) (again : g.sameAsInstalled ctx = true) : ctx.sigma = last.sigma := by
  rw [sameAsInstalled, Bool.and_eq_true, decide_eq_true_eq, decide_eq_true_eq, ofLast.installedSigma] at again
  exact again.2.symm

theorem SigmaState.Of.retarget (ofLast : g.Of last) (same : SameJob last ctx) (again : g.sameAsInstalled ctx = true) :
    ({ g with seenJob := some ctx }.install ctx).Of ctx := by
  have sigma := ofLast.sigma_eq again
  obtain ⟨jobKey, bSeed, auditK⟩ := same sigma
  have installed := ofLast.installedTargetNbits
  unfold install
  rw [show sameAsInstalled { g with seenJob := some ctx } ctx = true from again, if_pos rfl]
  split
  next target =>
    exact ⟨rfl, ofLast.installedSigma.trans sigma.symm, jobKey ▸ ofLast.installedJobKey, bSeed ▸ ofLast.installedBSeed,
      auditK ▸ ofLast.installedAuditK, target, jobKey ▸ ofLast.deviceKey, bSeed ▸ ofLast.deviceBSeed,
      fun half => (ofLast.powTargetNbits half).trans (installed.symm.trans target)⟩
  next =>
    exact ⟨rfl, ofLast.installedSigma.trans sigma.symm, jobKey ▸ ofLast.installedJobKey, bSeed ▸ ofLast.installedBSeed,
      auditK ▸ ofLast.installedAuditK, rfl, jobKey ▸ ofLast.deviceKey, bSeed ▸ ofLast.deviceBSeed, fun _ => rfl⟩

theorem SigmaState.of_install (uploaded : g.bUploaded = true → g.deviceBSeed = g.installedBSeed)
    (other : g.sameAsInstalled ctx = false) : ({ g with seenJob := some ctx }.install ctx).Of ctx := by
  unfold install
  rw [show sameAsInstalled { g with seenJob := some ctx } ctx = false from other, if_neg (by decide)]
  by_cases seed : g.installedBSeed = some ctx.bSeed
  · cases resident : g.bUploaded with
    | true =>
      have device := (uploaded resident).trans seed
      simp only [if_pos seed, withResidentB]
      exact ⟨rfl, rfl, rfl, seed, rfl, rfl, rfl, device, fun _ => rfl⟩
    | false =>
      simp only [if_pos seed, withResidentB]
      exact ⟨rfl, rfl, rfl, seed, rfl, rfl, rfl, rfl, fun _ => rfl⟩
  · simp only [if_neg seed, withResidentB]
    exact ⟨rfl, rfl, rfl, rfl, rfl, rfl, rfl, rfl, fun _ => rfl⟩

end sigma

section trees
variable {t : TreeState} {ctx : SigmaContext}

theorem settle_origin (ok : Bool) (build : Build) :
    (build.settle ok).bSeed = build.bSeed ∧ (build.settle ok).jobKey = build.jobKey := by
  unfold Build.settle
  split
  · cases ok with
    | true => cases build.releaseOnCompletion <;> exact ⟨rfl, rfl⟩
    | false => exact ⟨rfl, rfl⟩
  · exact ⟨rfl, rfl⟩

theorem TreeState.Of.settle (ofCtx : t.Of ctx) (build : Nat) (ok : Bool) : (t.update build (Build.settle ok)).Of ctx := by
  intro i here
  obtain ⟨inside, origin⟩ := ofCtx i here
  refine ⟨inside, ?_⟩
  by_cases same : i = build
  · subst same
    simp only [TreeState.update, Function.update_self, settle_origin]
    exact origin
  · simp only [TreeState.update, Function.update_of_ne same]
    exact origin

theorem TreeState.Of.ensures {env : Env} {t' : TreeState} (ofCtx : t.Of ctx) (ensures : Ensures env t t') : t'.Of ctx := by
  rcases ensures with rfl | rfl
  · exact ofCtx
  unfold TreeState.ensured
  split
  next pending ready task =>
    have settled := ofCtx.settle pending (env.succeeds pending)
    simp only
    split
    · intro i here
      obtain here | here := here
      · cases here
      · cases here
        exact settled pending (.inl task)
    · exact settled
  next => exact ofCtx

theorem TreeState.of_start (ofCtx : ∀ i, t.bMerkleTree = some i →
      i < t.started ∧ (t.builds i).bSeed = ctx.bSeed ∧ (t.builds i).jobKey = ctx.jobKey) :
    (t.start ctx.bSeed ctx.jobKey).Of ctx := by
  intro i here
  by_cases new : i = t.started
  · subst new
    simp [TreeState.start]
  · obtain here | here := here
    · cases here
      exact absurd rfl new
    · obtain ⟨inside, origin⟩ := ofCtx i here
      refine ⟨Nat.lt_succ_of_lt inside, ?_⟩
      simp only [TreeState.start, Function.update_of_ne new]
      exact origin

theorem retire_ready (env : Env) (wait : Bool) (t : TreeState) : (retireBMerkleState env wait t).bMerkleTree = none := rfl

end trees

structure Holds (s : WorkerState) : Prop where
  fresh : s.phase = .fresh → s.sigma.installedSigma = [] ∧ s.sigma.bUploaded = false
  mining : s.phase = .mining → ∃ ctx, s.sigma.Of ctx ∧ s.trees.Of ctx

theorem holds_stop (env : Env) (s : WorkerState) : Holds (stop env s) := ⟨nofun, nofun⟩

section steps
variable {env : Env} {s next : WorkerState} {event : Event}

def Republished (s : WorkerState) (event : Event) : Prop :=
  ∀ last ∈ s.sigma.seenJob, ∀ ctx ∈ event.context, s.phase = .mining → SameJob last ctx

theorem step_holds (republished : Republished s event) (holds : Holds s) (stepped : step env s event = some next) :
    Holds next := by
  cases step_cases env stepped with
  | @started ctx n fresh =>
    obtain ⟨none, missing⟩ := holds.fresh fresh
    have other : s.sigma.sameAsInstalled ctx = false := by simp [sameAsInstalled, none]
    refine ⟨by rintro ⟨⟩, fun _ => ⟨ctx, of_install (fun uploaded => ?_) other, TreeState.of_start fun i ready => ?_⟩⟩
    · rw [missing] at uploaded
      cases uploaded
    · rw [TreeState.install, other, if_neg (by decide), retire_ready] at ready
      cases ready
  | @rotated ctx hit t p n mining ensures =>
    obtain ⟨last, sigma, trees⟩ := holds.mining mining
    cases again : s.sigma.sameAsInstalled ctx with
    -- only the target is replaced, so what was installed for the last context has to fit the new one
    | true =>
      have same := republished last sigma.seenJob ctx rfl mining
      obtain ⟨jobKey, bSeed, -⟩ := same (sigma.sigma_eq again)
      refine ⟨by rintro ⟨⟩, fun _ => ⟨ctx, sigma.retarget same again, TreeState.of_start fun i ready => ?_⟩⟩
      rw [TreeState.install, again, if_pos rfl] at ready ⊢
      rw [jobKey, bSeed]
      exact trees.ensures ensures i (.inr ready)
    | false =>
      refine ⟨by rintro ⟨⟩, fun _ => ⟨ctx, of_install (fun _ => ?_) again, TreeState.of_start fun i ready => ?_⟩⟩
      · rw [sigma.deviceBSeed, sigma.installedBSeed]
      · rw [TreeState.install, again, if_neg (by decide), retire_ready] at ready
        cases ready
  | mined mining ensures =>
    obtain ⟨last, sigma, trees⟩ := holds.mining mining
    exact ⟨by rintro ⟨⟩, fun _ => ⟨last, sigma, trees.ensures ensures⟩⟩
  | startFailed | rotateFailed | mineFailed | cancelled => exact holds_stop env _
  | @settled build inside =>
    refine ⟨holds.fresh, fun mining => ?_⟩
    obtain ⟨last, sigma, trees⟩ := holds.mining mining
    exact ⟨last, sigma, trees.settle build _⟩

end steps

theorem install_seenJob (g : SigmaState) (ctx : SigmaContext) :
    ({ g with seenJob := some ctx }.install ctx).seenJob = some ctx := by
  unfold install withResidentB
  split
  · split <;> rfl
  · split <;> split <;> rfl

theorem step_seenJob {env : Env} {s next : WorkerState} {event : Event} (stepped : step env s event = some next)
    (mining : next.phase = .mining) : next.sigma.seenJob = event.context.or s.sigma.seenJob ∧
      (event.context = none → s.phase = .mining) := by
  cases step_cases env stepped with
  | started | rotated => exact ⟨install_seenJob _ _, nofun⟩
  | mined before => exact ⟨rfl, fun _ => before⟩
  | startFailed | rotateFailed | mineFailed | cancelled => cases mining
  | settled => exact ⟨rfl, fun _ => mining⟩

/-- After every run in which a republished sigma keeps its job, what a mining worker has installed on host and device,
and what it builds the B tree from, is the last context that it consumed. -/
theorem installed_of_last (env : Env) (iterBase : UInt64) (events : List Event) {s : WorkerState}
    (republished : (consumed events).IsChain SameJob) (ran : run (step env) (.fresh iterBase) events = some s)
    (mining : s.phase = .mining) :
    ∃ last, (consumed events).getLast? = some last ∧ s.sigma.Of last ∧ s.trees.Of last := by
  have known : Holds s ∧ (s.phase = .mining → s.sigma.seenJob = (consumed events).getLast?) := by
    refine run_history (motive := fun events s => (consumed events).IsChain SameJob →
      Holds s ∧ (s.phase = .mining → s.sigma.seenJob = (consumed events).getLast?)) ?_ ?_ ran republished
    · exact fun _ => ⟨⟨fun _ => ⟨rfl, rfl⟩, nofun⟩, nofun⟩
    · intro before event middle next ih stepped republished
      have split : consumed (before ++ [event]) = consumed before ++ event.context.toList := by
        cases event <;> simp [consumed, Event.context]
      rw [split, List.isChain_append] at republished
      obtain ⟨chain, -, link⟩ := republished
      obtain ⟨holds, seen⟩ := ih chain
      refine ⟨step_holds (fun last here ctx there mining => ?_) holds stepped, fun mining => ?_⟩
      · exact link last (seen mining ▸ here) ctx (by simpa using there)
      · obtain ⟨result, still⟩ := step_seenJob stepped mining
        rw [result, split]
        cases context : event.context with
        | none => simpa using seen (still context)
        | some ctx => simp
  obtain ⟨last, sigma, trees⟩ := known.1.mining mining
  exact ⟨last, (known.2 mining).symm.trans sigma.seenJob, sigma, trees⟩

/-- The pool sends the installed sigma again, with another seed and the same target: the install returns early, and the
next B tree is built from the new seed while host and device stay with the old one. -/
theorem republished_seed_ignored : ∃ s ctx,
    run (step (.smooth 1)) (.fresh 0) [.start zeroJob, .rotate ctx fun _ => false] = some s ∧ s.phase = .mining ∧
    ctx.sigma = zeroJob.sigma ∧ ctx.bSeed ≠ zeroJob.bSeed ∧
    s.sigma.installedBSeed = some zeroJob.bSeed ∧ s.sigma.deviceBSeed = some zeroJob.bSeed ∧
    s.trees.bMerkleTreeBuildTask = some 1 ∧ (s.trees.builds 1).bSeed = ctx.bSeed :=
  ⟨_, { zeroJob with bSeed := Vector.replicate 32 1 }, rfl, rfl, rfl, by decide, rfl, rfl, rfl, rfl⟩

theorem installed_of_last_retarget : ∃ s,
    run (step (.smooth 1)) (.fresh 0) [.start zeroJob, .rotate (zeroJob.withTargetNbits 0x1f7fffff) fun _ => false] =
      some s ∧ s.phase = .mining ∧ s.sigma.Of (zeroJob.withTargetNbits 0x1f7fffff) := by
  obtain ⟨s, ran, mining⟩ : ∃ s, run (step (.smooth 1)) (.fresh 0)
      [.start zeroJob, .rotate (zeroJob.withTargetNbits 0x1f7fffff) fun _ => false] = some s ∧ s.phase = .mining :=
    ⟨_, rfl, rfl⟩
  obtain ⟨last, isLast, sigma, -⟩ := installed_of_last (.smooth 1) 0 _
    (.cons_cons (fun _ => ⟨rfl, rfl, rfl⟩) (.singleton _)) ran mining
  cases isLast
  exact ⟨s, ran, mining, sigma⟩

end ArcMiner.Prl.GpuWorker
