import Mathlib.Tactic.IntervalCases
import ArcMiner.Library.Machine
import ArcMiner.Prl.GpuWorkerSpec

/-! Who releases the trees of B.

A build belongs to the worker while it is pending or its tree is ready. It is retired
by a rotation or at the end, and then released once, at the latest when it completes.
A republished sigma starts another build without retiring anything: a build that is
still pending at that point is lost.
-/

namespace ArcMiner.Prl.GpuWorker

open Library Library.Machine Library.Action Function TreeState Build

namespace Build

/-- The worker holds its reference and nobody else is to release it. -/
structure Held (build : Build) : Prop where
  unreleased : build.releases = 0
  noContinuation : build.releaseOnCompletion = false

/-- The reference is released if the tree exists, and will be if it comes into being. -/
def Retired (build : Build) : Prop :=
  match build.status with
  | .running => build.releases = 0 ∧ build.releaseOnCompletion = true
  | .completed => build.releases = 1
  | .faulted => build.releases = 0

variable {build : Build}

theorem Held.settle (held : build.Held) (ok : Bool) : (build.settle ok).Held := by
  obtain ⟨unreleased, noContinuation⟩ := held
  unfold Build.settle
  split
  · cases ok with
    | true =>
      simp only [noContinuation]
      exact ⟨unreleased, rfl⟩
    | false => exact ⟨unreleased, noContinuation⟩
  · exact ⟨unreleased, noContinuation⟩

theorem Retired.settle (retired : build.Retired) (ok : Bool) : (build.settle ok).Retired := by
  unfold Retired at retired
  unfold Build.settle
  cases status : build.status with
  | running =>
    rw [status] at retired
    obtain ⟨unreleased, continuation⟩ := retired
    cases ok with
    | true => simp [continuation, release, Retired, unreleased]
    | false => simp [Retired, unreleased]
  | completed | faulted =>
    rw [status] at retired
    simpa [Retired, status] using retired

theorem settle_completed (ok : Bool) (completed : build.status = .completed) : build.settle ok = build := by
  simp [settle, completed]

theorem settle_not_running (ok : Bool) (build : Build) : (build.settle ok).status ≠ .running := by
  cases status : build.status with
  | running => cases ok <;> cases continuation : build.releaseOnCompletion <;>
      simp [settle, status, continuation, release]
  | completed | faulted => simp [settle, status]

theorem Held.retired_release (held : build.Held) (completed : build.status = .completed) : build.release.Retired := by
  simp [Retired, release, completed, held.unreleased]

theorem Held.retired_releaseWhenCompleted (held : build.Held) : build.releaseWhenCompleted.Retired := by
  cases status : build.status <;> simp [Retired, releaseWhenCompleted, release, status, held.unreleased]

theorem Held.retired_waitAndRelease (held : build.Held) (ok : Bool) : (build.waitAndRelease ok).Retired := by
  have settled := held.settle ok
  have ended := settle_not_running ok build
  unfold waitAndRelease
  simp only
  split
  next completed => exact settled.retired_release completed
  next open' =>
    cases status : (build.settle ok).status with
    | running => exact absurd status ended
    | completed => exact absurd status open'
    | faulted => simp [Retired, status, settled.unreleased]

end Build

structure TreeState.Holding (t : TreeState) : Prop where
  pending : ∀ i, t.bMerkleTreeBuildTask = some i → i < t.started ∧ (t.builds i).Held
  ready : ∀ i, t.bMerkleTree = some i → i < t.started ∧ (t.builds i).Held ∧ (t.builds i).status = .completed
  apart : ∀ i, t.bMerkleTreeBuildTask = some i → t.bMerkleTree ≠ some i

def TreeState.NoneLost (t : TreeState) : Prop :=
  ∀ i < t.started, t.bMerkleTreeBuildTask ≠ some i → t.bMerkleTree ≠ some i → (t.builds i).Retired

section trees
variable {env : Env} {t t' : TreeState}

theorem TreeState.Holding.settle (holding : t.Holding) (build : Nat) (ok : Bool) :
    (t.update build (settle ok)).Holding := by
  refine ⟨fun i pending => ?_, fun i ready => ?_, holding.apart⟩
  · obtain ⟨inside, held⟩ := holding.pending i pending
    refine ⟨inside, ?_⟩
    by_cases same : i = build
    · subst same
      simp only [update, update_self]
      exact held.settle ok
    · simp only [update, update_of_ne same]
      exact held
  · obtain ⟨inside, held, completed⟩ := holding.ready i ready
    refine ⟨inside, ?_⟩
    by_cases same : i = build
    · subst same
      simp only [update, update_self, settle_completed ok completed]
      exact ⟨held, completed⟩
    · simp only [update, update_of_ne same]
      exact ⟨held, completed⟩

theorem TreeState.NoneLost.settle (noneLost : t.NoneLost) (build : Nat) (ok : Bool) :
    (t.update build (settle ok)).NoneLost := by
  intro i inside notPending notReady
  have retired := noneLost i inside notPending notReady
  by_cases same : i = build
  · subst same
    simp only [update, update_self]
    exact retired.settle ok
  · simp only [update, update_of_ne same]
    exact retired

theorem TreeState.Holding.ensured (holding : t.Holding) : (t.ensured env).Holding := by
  unfold TreeState.ensured
  split
  next pending notReady task =>
    have settled := holding.settle pending (env.succeeds pending)
    obtain ⟨inside, held⟩ := settled.pending pending task
    simp only
    split
    next completed =>
      refine ⟨nofun, ?_, nofun⟩
      rintro _ ⟨⟩
      exact ⟨inside, held, completed⟩
    next => exact settled
  next => exact holding

theorem TreeState.NoneLost.ensured (noneLost : t.NoneLost) : (t.ensured env).NoneLost := by
  unfold TreeState.ensured
  split
  next pending notReady task =>
    have settled := noneLost.settle pending (env.succeeds pending)
    simp only
    split
    · intro i inside _ other
      refine settled i inside (fun same => ?_) (fun same => ?_)
      · exact other (task.symm.trans same)
      · exact absurd (notReady.symm.trans same) (by simp)
    · exact settled
  next => exact noneLost

theorem TreeState.start_holding (holding : t.Holding) (bSeed jobKey : Digest) : (t.start bSeed jobKey).Holding := by
  refine ⟨?_, fun i ready => ?_, ?_⟩
  · rintro _ ⟨⟩
    refine ⟨Nat.lt_succ_self _, ?_⟩
    simp only [start, update_self]
    exact ⟨rfl, rfl⟩
  · obtain ⟨inside, held⟩ := holding.ready i ready
    refine ⟨Nat.lt_succ_of_lt inside, ?_⟩
    simp only [start, update_of_ne inside.ne]
    exact held
  · rintro _ ⟨⟩ ready
    exact absurd (holding.ready _ ready).1 (lt_irrefl _)

theorem TreeState.start_noneLost (noneLost : t.NoneLost) (idle : t.bMerkleTreeBuildTask = none) (bSeed jobKey : Digest) :
    (t.start bSeed jobKey).NoneLost := by
  intro i inside notPending notReady
  have old : i ≠ t.started := fun same => notPending (congrArg some same.symm)
  simp only [start, update_of_ne old]
  exact noneLost i (by have : i < t.started + 1 := inside; omega) (by simp [idle]) notReady

theorem retire_holding (wait : Bool) (t : TreeState) : (retireBMerkleState env wait t).Holding := ⟨nofun, nofun, nofun⟩

theorem retire_ready_tree {i : Nat} (wait : Bool) (notPending : t.bMerkleTreeBuildTask ≠ some i)
    (ready : t.bMerkleTree = some i) : (retireBMerkleState env wait t).builds i = (t.builds i).release := by
  cases task : t.bMerkleTreeBuildTask with
  | none => simp [retireBMerkleState, task, ready, TreeState.update]
  | some pending =>
    have other : i ≠ pending := fun same => notPending (task.trans (congrArg some same.symm))
    simp [retireBMerkleState, task, ready, TreeState.update, update_of_ne other]

theorem retire_other {i : Nat} (wait : Bool) (notPending : t.bMerkleTreeBuildTask ≠ some i)
    (notReady : t.bMerkleTree ≠ some i) : (retireBMerkleState env wait t).builds i = t.builds i := by
  have notTask : ∀ pending, t.bMerkleTreeBuildTask = some pending → i ≠ pending := by
    rintro _ task rfl
    exact notPending task
  have notTree : ∀ tree, t.bMerkleTree = some tree → i ≠ tree := by
    rintro _ ready rfl
    exact notReady ready
  cases task : t.bMerkleTreeBuildTask <;> cases ready : t.bMerkleTree <;>
    simp_all [retireBMerkleState, TreeState.update, update_of_ne]

theorem retire_started (wait : Bool) (t : TreeState) : (retireBMerkleState env wait t).started = t.started := by
  cases task : t.bMerkleTreeBuildTask <;> cases ready : t.bMerkleTree <;>
    simp [retireBMerkleState, TreeState.update, task, ready]

theorem retire_noneLost (holding : t.Holding) (noneLost : t.NoneLost) (wait : Bool) :
    (retireBMerkleState env wait t).NoneLost := by
  intro i inside _ _
  rw [retire_started] at inside
  by_cases pending : t.bMerkleTreeBuildTask = some i
  · have retired : (retireBMerkleState env wait t).builds i =
        (if wait then waitAndRelease (env.succeeds i) else releaseWhenCompleted) (t.builds i) := by
      cases ready : t.bMerkleTree with
      | none => simp [retireBMerkleState, pending, ready, TreeState.update]
      | some tree =>
        have other : i ≠ tree := fun same => holding.apart i pending (ready.trans (congrArg some same.symm))
        simp [retireBMerkleState, pending, ready, TreeState.update, update_of_ne other]
    rw [retired]
    have held := (holding.pending i pending).2
    cases wait with
    | true => exact held.retired_waitAndRelease _
    | false => exact held.retired_releaseWhenCompleted
  · by_cases ready : t.bMerkleTree = some i
    · rw [retire_ready_tree wait pending ready]
      obtain ⟨-, held, completed⟩ := holding.ready i ready
      exact held.retired_release completed
    · rw [retire_other wait pending ready]
      exact noneLost i inside pending ready

theorem Ensures.holding (ensures : Ensures env t t') (holding : t.Holding) : t'.Holding := by
  rcases ensures with rfl | rfl
  · exact holding
  · exact holding.ensured

theorem Ensures.noneLost (ensures : Ensures env t t') (noneLost : t.NoneLost) : t'.NoneLost := by
  rcases ensures with rfl | rfl
  · exact noneLost
  · exact noneLost.ensured

theorem Ensures.idle (ensures : Ensures env t t') (idle : t.bMerkleTreeBuildTask = none) :
    t'.bMerkleTreeBuildTask = none := by
  rcases ensures with rfl | rfl
  · exact idle
  · cases ready : t.bMerkleTree <;> simp [ensured, idle, ready]

theorem TreesLeft.noneLost (left : TreesLeft env t t') (holding : t.Holding) (noneLost : t.NoneLost) :
    t'.Holding ∧ t'.NoneLost := by
  obtain ⟨ready, ensures, rfl | rfl⟩ := left
  · exact ⟨ensures.holding holding, ensures.noneLost noneLost⟩
  · exact ⟨retire_holding false ready, retire_noneLost (ensures.holding holding) (ensures.noneLost noneLost) false⟩

end trees

def NonePending (s : WorkerState) : Event → Prop
  | .rotate ctx _ => s.sigma.sameAsInstalled ctx = true → s.trees.bMerkleTreeBuildTask = none
  | _ => True

instance (s : WorkerState) : ∀ event, Decidable (NonePending s event)
  | .rotate ctx _ =>
    inferInstanceAs (Decidable (s.sigma.sameAsInstalled ctx = true → s.trees.bMerkleTreeBuildTask = none))
  | .start _ | .mine _ | .cancel | .settle _ => inferInstanceAs (Decidable True)

structure Keeps (s : WorkerState) : Prop where
  holding : s.trees.Holding
  fresh : s.phase = .fresh → s.trees.bMerkleTreeBuildTask = none
  stopped : s.phase = .stopped → s.trees.bMerkleTreeBuildTask = none ∧ s.trees.bMerkleTree = none

section steps
variable {env : Env} {s next : WorkerState} {event : Event}

theorem install_holding {t : TreeState} (holding : t.Holding) (g : SigmaState) (ctx : SigmaContext) :
    (t.install env g ctx).Holding := by
  unfold install
  split
  · exact holding
  · exact retire_holding false t

theorem step_keeps (keeps : Keeps s) (stepped : step env s event = some next) : Keeps next := by
  have stops : ∀ left, Keeps (stop env left) := fun left => ⟨retire_holding true _, nofun, fun _ => ⟨rfl, rfl⟩⟩
  cases step_cases env stepped with
  | started => exact ⟨start_holding (install_holding keeps.holding _ _) _ _, nofun, nofun⟩
  | rotated _ ensures =>
    exact ⟨start_holding (install_holding (ensures.holding keeps.holding) _ _) _ _, nofun, nofun⟩
  | mined _ ensures => exact ⟨ensures.holding keeps.holding, nofun, nofun⟩
  | startFailed | rotateFailed | mineFailed | cancelled => exact stops _
  | settled => exact ⟨keeps.holding.settle _ _, keeps.fresh, keeps.stopped⟩

theorem step_noneLost (allowed : NonePending s event) (keeps : Keeps s) (noneLost : s.trees.NoneLost)
    (stepped : step env s event = some next) : next.trees.NoneLost := by
  -- the trees of another sigma are retired before the next build starts
  have starts : ∀ t : TreeState, t.Holding → t.NoneLost → ∀ ctx : SigmaContext,
      (s.sigma.sameAsInstalled ctx = true → t.bMerkleTreeBuildTask = none) →
      ((t.install env s.sigma ctx).start ctx.bSeed ctx.jobKey).NoneLost := by
    intro t holding noneLost ctx idle
    unfold install
    split
    next same => exact start_noneLost noneLost (idle same) _ _
    next => exact start_noneLost (retire_noneLost holding noneLost false) rfl _ _
  have stops : ∀ left, TreesLeft env s.trees left → (retireBMerkleState env true left).NoneLost := by
    intro left trees
    obtain ⟨holding, lost⟩ := trees.noneLost keeps.holding noneLost
    exact retire_noneLost holding lost true
  cases step_cases env stepped with
  | started fresh => exact starts _ keeps.holding noneLost _ fun _ => keeps.fresh fresh
  | rotated _ ensures =>
    exact starts _ (ensures.holding keeps.holding) (ensures.noneLost noneLost) _ fun same => ensures.idle (allowed same)
  | mined _ ensures => exact ensures.noneLost noneLost
  | startFailed _ left | rotateFailed _ left | mineFailed _ left => exact stops _ left
  | cancelled => exact stops _ ⟨_, .inl rfl, .inl rfl⟩
  | settled => exact noneLost.settle _ _

end steps

/-- The tree that `EnsureBMerkleTreeReady` returns is never one that has been released. Once the worker has stopped, the
tree of every build that completes has been released once, if no republished sigma came while a build was pending. -/
theorem b_trees_released (env : Env) (iterBase : UInt64) (events : List Event) {s : WorkerState}
    (ran : run (step env) (.fresh iterBase) events = some s) :
    (∀ tree after, exec (ensureBMerkleTreeReady env) s = (.ok tree, after) → (after.trees.builds tree).releases = 0) ∧
    (Along (step env) NonePending (.fresh iterBase) events → s.phase = .stopped →
      ∀ i < s.trees.started, (s.trees.builds i).status = .completed → (s.trees.builds i).releases = 1) := by
  have start : Keeps (.fresh iterBase) := ⟨⟨nofun, nofun, nofun⟩, fun _ => rfl, nofun⟩
  constructor
  · have keeps : Keeps s := run_history (motive := fun _ s => Keeps s) start (fun keeps => step_keeps keeps) ran
    intro tree after returned
    have spec := ensureBMerkleTreeReady_spec env s
    rw [wp, returned] at spec
    obtain ⟨rfl, ready⟩ := spec
    exact (keeps.holding.ensured.ready tree ready).2.1.unreleased
  · intro along stopped i inside completed
    have known := run_invariant (fun s => Keeps s ∧ s.trees.NoneLost)
        (fun allowed known stepped => ⟨step_keeps known.1 stepped, step_noneLost allowed known.1 known.2 stepped⟩)
        along ⟨start, nofun⟩ ran
    obtain ⟨notPending, notReady⟩ := known.1.stopped stopped
    have retired := known.2 i inside (by simp [notPending]) (by simp [notReady])
    rw [Build.Retired, completed] at retired
    exact retired

/-- The installed job is published once more before its tree has been asked for: the first build is replaced, and its tree
is never released. -/
theorem b_tree_lost : ∃ s,
    run (step (.smooth 1)) (.fresh 0) [.start zeroJob, .rotate zeroJob fun _ => false, .settle 0, .cancel] = some s ∧
    (s.phase, (s.trees.builds 0).status, (s.trees.builds 0).releases) = (.stopped, .completed, 0) :=
  Option.map_eq_some_iff.mp (by decide +kernel)

theorem b_trees_released_two : ∃ s,
    run (step (.smooth 1)) (.fresh 0)
      [.start zeroJob, .mine fun _ => true, .rotate (zeroJob.withTargetNbits 0x1f7fffff) fun _ => false, .cancel] = some s ∧
    ∀ i < 2, (s.trees.builds i).releases = 1 := by
  obtain ⟨s, ran, seen⟩ : ∃ s, run (step (.smooth 1)) (.fresh 0)
      [.start zeroJob, .mine fun _ => true, .rotate (zeroJob.withTargetNbits 0x1f7fffff) fun _ => false, .cancel] = some s ∧
      (s.phase, s.trees.started, (s.trees.builds 0).status, (s.trees.builds 1).status) =
        (.stopped, 2, .completed, .completed) := Option.map_eq_some_iff.mp (by decide +kernel)
  simp only [Prod.mk.injEq] at seen
  obtain ⟨stopped, started, first, second⟩ := seen
  refine ⟨s, ran, fun i inside => ?_⟩
  have completed : (s.trees.builds i).status = .completed := by
    interval_cases i
    · exact first
    · exact second
  exact (b_trees_released (.smooth 1) 0 _ ran).2 (by decide +kernel) stopped i (started ▸ inside) completed

end ArcMiner.Prl.GpuWorker
