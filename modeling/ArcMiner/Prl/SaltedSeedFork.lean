import Mathlib.Data.Fintype.Basic
import ArcMiner.Library.Machine
import ArcMiner.Prl.GpuWorker

/-! `SaltedSeedFork` and the installs that read its flag.

The flag belongs to the process. A worker that installs a sigma calls `Apply` with
its height, latches the flag for the workspaces and the shares, and reads it once more
for the B side. The accesses of all workers interleave in any order.
-/

namespace ArcMiner.Prl.SaltedSeedFork

open Library Library.Machine Option

def mainnetActivationHeight : Int := 99000

/-- The two environment variables; an unset or unreadable height is `none`. -/
structure Settings where
  saltedSeedHeight : Option Int
  forcedActive : Bool

def activationHeight (settings : Settings) : Int :=
  match settings.saltedSeedHeight with
  | some h => if 0 < h then h else mainnetActivationHeight
  | none => mainnetActivationHeight

def isActive (settings : Settings) (height : Int) : Bool :=
  settings.forcedActive || (0 < height && activationHeight settings ≤ height)

structure Flags where
  active : Bool
  native : Bool
deriving DecidableEq

inductive ApplyStage where
  | read
  | setNative
  | write
deriving DecidableEq

/-- One access of `Apply`, and what follows it. An older library has no `SetSaltedSeed`; the call throws then and the flag
of the host stays. -/
def applyStep (settings : Settings) (exported : Bool) (height : Int) (flags : Flags) :
    ApplyStage → Flags × Option ApplyStage
  | .read => (flags, if flags.active = isActive settings height then none else some .setNative)
  | .setNative =>
    if exported then ({ flags with native := isActive settings height }, some .write) else (flags, none)
  | .write => ({ flags with active := isActive settings height }, none)

inductive Stage where
  | mining
  | applying (ctx : SigmaContext) (stage : ApplyStage)
  | latching (ctx : SigmaContext)
  | installingB (ctx : SigmaContext)
  | installingPing (ctx : SigmaContext)
  | installingPong (ctx : SigmaContext)
  | finishing (ctx : SigmaContext)
deriving DecidableEq

structure Worker where
  stage : Stage
  installed : Option SigmaContext
  installedSaltedSeeds : Bool
  deviceB : Bool
  ping : Bool
  pong : Bool
  payloads : List (SigmaContext × Bool)
deriving DecidableEq

def Worker.fresh : Worker := ⟨.mining, none, false, false, false, false, []⟩

def installStep (settings : Settings) (exported : Bool) (flags : Flags) (worker : Worker) : Option (Flags × Worker) :=
  match worker.stage with
  | .mining => none
  | .applying ctx stage =>
    let (flags, next) := applyStep settings exported ctx.blockHeight flags stage
    some (flags, { worker with stage := match next with
      | some stage => .applying ctx stage
      | none => .latching ctx })
  | .latching ctx => some (flags, { worker with installedSaltedSeeds := flags.active, stage := .installingB ctx })
  | .installingB ctx => some (flags, { worker with deviceB := flags.active, stage := .installingPing ctx })
  | .installingPing ctx => some (flags, { worker with ping := worker.installedSaltedSeeds, stage := .installingPong ctx })
  | .installingPong ctx => some (flags, { worker with pong := worker.installedSaltedSeeds, stage := .finishing ctx })
  | .finishing ctx => some (flags, { worker with installed := some ctx, stage := .mining })

inductive Event (ι : Type) where
  | consume (worker : ι) (ctx : SigmaContext)
  | install (worker : ι)
  | trigger (worker : ι)
  /-- The worker ends, at any point, and a new one starts in its place. -/
  | restart (worker : ι)

structure Process (ι : Type) where
  flags : Flags
  workers : ι → Worker

variable {ι : Type} [DecidableEq ι]

def Process.set (process : Process ι) (w : ι) (worker : Worker) : Process ι :=
  { process with workers := Function.update process.workers w worker }

def step (settings : Settings) (exported : Bool) (process : Process ι) : Event ι → Option (Process ι)
  | .consume w ctx =>
    let worker := process.workers w
    if worker.stage = .mining then
      -- A republished sigma returns early, whatever else the context carries.
      if worker.installed.map SigmaContext.sigma = some ctx.sigma then some process
      else some (process.set w { worker with stage := .applying ctx .read })
    else none
  | .install w =>
    (installStep settings exported process.flags (process.workers w)).map fun (flags, worker) =>
      { process.set w worker with flags }
  | .trigger w =>
    let worker := process.workers w
    match worker.stage, worker.installed with
    | .mining, some ctx =>
      some (process.set w { worker with payloads := worker.payloads ++ [(ctx, worker.installedSaltedSeeds)] })
    | _, _ => none
  | .restart w => some (process.set w { Worker.fresh with payloads := (process.workers w).payloads })

def Process.start : Process ι := ⟨⟨false, false⟩, fun _ => .fresh⟩

/-- The context of an install that is between its first access of the flag and its last. -/
def Worker.window (worker : Worker) : Option SigmaContext :=
  match worker.stage with
  | .applying ctx _ => some ctx
  | .latching ctx => some ctx
  | .installingB ctx => some ctx
  | _ => none

/-- No two workers access the flag at the same time for heights on different sides of the fork. -/
def Apart (settings : Settings) (process : Process ι) : Prop :=
  ∀ v w, ∀ a ∈ (process.workers v).window, ∀ b ∈ (process.workers w).window,
    isActive settings a.blockHeight = isActive settings b.blockHeight

instance [Fintype ι] (settings : Settings) (process : Process ι) : Decidable (Apart settings process) :=
  inferInstanceAs (Decidable (∀ v w, ∀ a ∈ (process.workers v).window, ∀ b ∈ (process.workers w).window,
    isActive settings a.blockHeight = isActive settings b.blockHeight))

structure Worker.Flagged (settings : Settings) (worker : Worker) (ctx : SigmaContext) : Prop where
  deviceB : worker.deviceB = isActive settings ctx.blockHeight
  ping : worker.ping = isActive settings ctx.blockHeight
  pong : worker.pong = isActive settings ctx.blockHeight
  installedSaltedSeeds : worker.installedSaltedSeeds = isActive settings ctx.blockHeight

structure Worker.OnFork (settings : Settings) (worker : Worker) : Prop where
  installed : worker.stage = .mining → ∀ ctx ∈ worker.installed, worker.Flagged settings ctx
  payloads : ∀ payload ∈ worker.payloads, payload.2 = isActive settings payload.1.blockHeight

/-- What holds at each point of an install with which no other one interferes. -/
def Worker.Placed (settings : Settings) (active : Bool) (worker : Worker) : Prop :=
  match worker.stage with
  | .mining => ∀ ctx ∈ worker.installed, worker.Flagged settings ctx
  | .applying _ _ => True
  | .latching ctx => active = isActive settings ctx.blockHeight
  | .installingB ctx =>
    active = isActive settings ctx.blockHeight ∧ worker.installedSaltedSeeds = isActive settings ctx.blockHeight
  | .installingPing ctx =>
    worker.deviceB = isActive settings ctx.blockHeight ∧ worker.installedSaltedSeeds = isActive settings ctx.blockHeight
  | .installingPong ctx =>
    worker.deviceB = isActive settings ctx.blockHeight ∧ worker.ping = isActive settings ctx.blockHeight ∧
    worker.installedSaltedSeeds = isActive settings ctx.blockHeight
  | .finishing ctx => worker.Flagged settings ctx

section steps
variable {settings : Settings} {flags flags' : Flags} {worker worker' : Worker}

theorem installStep_spec {exported : Bool} (stepped : installStep settings exported flags worker = some (flags', worker')) :
    worker'.payloads = worker.payloads ∧ (flags'.active = flags.active ∨
      ∃ ctx ∈ worker.window, flags'.active = isActive settings ctx.blockHeight) := by
  unfold installStep at stepped
  unfold Worker.window
  cases here : worker.stage with
  | mining => simp [here] at stepped
  | applying ctx stage =>
    rw [here] at stepped
    obtain ⟨rfl, rfl⟩ := Prod.mk.inj (some.inj stepped)
    refine ⟨rfl, ?_⟩
    cases stage with
    | read => exact .inl rfl
    | setNative => cases exported <;> exact .inl rfl
    | write => exact .inr ⟨ctx, rfl, rfl⟩
  | latching ctx | installingB ctx | installingPing ctx | installingPong ctx | finishing ctx =>
    rw [here] at stepped
    obtain ⟨rfl, rfl⟩ := Prod.mk.inj (some.inj stepped)
    exact ⟨rfl, .inl rfl⟩

theorem installStep_placed (placed : worker.Placed settings flags.active)
    (stepped : installStep settings true flags worker = some (flags', worker')) :
    worker'.Placed settings flags'.active := by
  unfold installStep at stepped
  unfold Worker.Placed at placed
  cases here : worker.stage with
  | mining => simp [here] at stepped
  | applying ctx stage =>
    rw [here] at stepped
    obtain ⟨rfl, rfl⟩ := Prod.mk.inj (some.inj stepped)
    cases stage with
    -- `Apply` returns early when the flag has the value already
    | read =>
      by_cases same : flags.active = isActive settings ctx.blockHeight
      · simp only [if_pos same]
        exact same
      · simp only [if_neg same]
        exact trivial
    | setNative => exact trivial
    | write => exact rfl
  | latching ctx =>
    rw [here] at stepped placed
    obtain ⟨rfl, rfl⟩ := Prod.mk.inj (some.inj stepped)
    exact ⟨placed, placed⟩
  | installingB ctx =>
    rw [here] at stepped placed
    obtain ⟨rfl, rfl⟩ := Prod.mk.inj (some.inj stepped)
    exact placed
  | installingPing ctx =>
    rw [here] at stepped placed
    obtain ⟨rfl, rfl⟩ := Prod.mk.inj (some.inj stepped)
    exact ⟨placed.1, placed.2, placed.2⟩
  | installingPong ctx =>
    rw [here] at stepped placed
    obtain ⟨rfl, rfl⟩ := Prod.mk.inj (some.inj stepped)
    exact ⟨placed.1, placed.2.1, placed.2.2, placed.2.2⟩
  | finishing ctx =>
    rw [here] at stepped placed
    obtain ⟨rfl, rfl⟩ := Prod.mk.inj (some.inj stepped)
    rintro _ ⟨⟩
    exact ⟨placed.deviceB, placed.ping, placed.pong, placed.installedSaltedSeeds⟩

theorem Worker.Placed.of_active {active active' : Bool} (placed : worker.Placed settings active)
    (same : active' = active ∨ ∀ ctx ∈ worker.window, active' = isActive settings ctx.blockHeight) :
    worker.Placed settings active' := by
  rcases same with rfl | same
  · exact placed
  unfold Worker.Placed at placed ⊢
  unfold Worker.window at same
  cases here : worker.stage with
  | latching ctx =>
    rw [here] at same
    exact same ctx rfl
  | installingB ctx =>
    rw [here] at same placed
    exact ⟨same ctx rfl, placed.2⟩
  | mining | applying ctx stage | installingPing ctx | installingPong ctx | finishing ctx =>
    rw [here] at placed
    exact placed

end steps

/-- What every worker satisfies while the installs are apart. -/
def Ordered (settings : Settings) (process : Process ι) : Prop :=
  ∀ w, (process.workers w).Placed settings process.flags.active ∧
    ∀ payload ∈ (process.workers w).payloads, payload.2 = isActive settings payload.1.blockHeight

section runs
variable {settings : Settings} {process next : Process ι}

theorem Ordered.set (ordered : Ordered settings process) {w : ι} {worker : Worker}
    (placed : worker.Placed settings process.flags.active)
    (payloads : ∀ payload ∈ worker.payloads, payload.2 = isActive settings payload.1.blockHeight) :
    Ordered settings (process.set w worker) := by
  intro v
  by_cases here : v = w
  · subst here
    simp only [Process.set, Function.update_self]
    exact ⟨placed, payloads⟩
  · simp only [Process.set, Function.update_of_ne here]
    exact ordered v

theorem step_ordered {event : Event ι} (apart : Apart settings process) (ordered : Ordered settings process)
    (stepped : step settings true process event = some next) : Ordered settings next := by
  cases event with
  | consume w ctx =>
    simp only [step] at stepped
    split at stepped
    · split at stepped
      · cases stepped
        exact ordered
      · cases stepped
        exact ordered.set trivial (ordered w).2
    · cases stepped
  | install w =>
    obtain ⟨⟨flags, worker⟩, moved, rfl⟩ := map_eq_some_iff.mp stepped
    intro v
    by_cases here : v = w
    · subst here
      simp only [Process.set, Function.update_self]
      refine ⟨installStep_placed (ordered v).1 moved, ?_⟩
      rw [(installStep_spec moved).1]
      exact (ordered v).2
    -- the flag is shared: a write of it concerns every worker that is between its own write and its latch
    · simp only [Process.set, Function.update_of_ne here]
      refine ⟨(ordered v).1.of_active ?_, (ordered v).2⟩
      rcases (installStep_spec moved).2 with same | ⟨ctx, mine, written⟩
      · exact .inl same
      · exact .inr fun other theirs => written.trans (apart w v ctx mine other theirs)
  | trigger w =>
    simp only [step] at stepped
    split at stepped
    next ctx mining installed =>
      cases stepped
      have flagged : ∀ ctx ∈ (process.workers w).installed, (process.workers w).Flagged settings ctx := by
        have placed := (ordered w).1
        rw [Worker.Placed, mining] at placed
        exact placed
      refine ordered.set ?_ fun payload member => ?_
      · rw [Worker.Placed]
        simp only [mining]
        intro ctx here
        obtain ⟨deviceB, ping, pong, salted⟩ := flagged ctx here
        exact ⟨deviceB, ping, pong, salted⟩
      · rcases List.mem_append.mp member with earlier | now
        · exact (ordered w).2 payload earlier
        · rw [List.mem_singleton.mp now]
          exact (flagged ctx installed).installedSaltedSeeds
    next => cases stepped
  | restart w =>
    cases stepped
    exact ordered.set (fun ctx none => by cases none) (ordered w).2

end runs

/-- Whatever the number of workers and whatever heights they install: as long as no two installs on different sides of
the fork overlap, device and shares of every worker are on the fork of the sigma that it installed. -/
theorem workers_on_fork (settings : Settings) (events : List (Event ι)) {process : Process ι}
    (apart : Along (step settings true) (fun process _ => Apart settings process) Process.start events)
    (ran : run (step settings true) Process.start events = some process) (w : ι) :
    (process.workers w).OnFork settings := by
  have start : Ordered settings (Process.start : Process ι) :=
    fun w => ⟨fun ctx none => (nomatch none), fun payload none => (nomatch none)⟩
  obtain ⟨placed, payloads⟩ := run_invariant (Ordered settings) step_ordered apart start ran w
  refine ⟨fun mining => ?_, payloads⟩
  rw [Worker.Placed, mining] at placed
  exact placed

section mainnet

def mainnet : Settings := ⟨none, false⟩

def jobAt (height : Nat) : SigmaContext where
  sigma := List.replicate 76 height.toUInt8
  commonDim := 4096
  rank := 128
  jobKey := Blake3.zeroKey
  bSeed := Blake3.zeroKey
  auditK := 0
  targetNbits := 0
  blockHeight := height

/-- The second worker is late with the last job before the fork. Its write of the flag falls between the two reads of the
first worker, which has applied the height of the fork: the B side of that worker is on the old derivation, its
workspaces and shares are on the new one. -/
theorem workers_off_fork : ∃ process : Process (Fin 2),
    run (step mainnet true) Process.start
      ([.consume 0 (jobAt 99000)] ++ List.replicate 4 (.install 0) ++ [.consume 1 (jobAt 98999)] ++
        List.replicate 3 (.install 1) ++ List.replicate 4 (.install 0) ++ [.trigger 0]) = some process ∧
    (process.workers 0).stage = .mining ∧ (process.workers 0).installed = some (jobAt 99000) ∧
    isActive mainnet (jobAt 99000).blockHeight = true ∧ (process.workers 0).deviceB = false ∧
    (process.workers 0).ping = true ∧ (process.workers 0).pong = true ∧
    (process.workers 0).payloads = [(jobAt 99000, true)] :=
  ⟨_, rfl, rfl, rfl, rfl, rfl, rfl, rfl, rfl⟩

/-- The same two jobs, one install after the other. -/
theorem workers_on_fork_two : ∃ process : Process (Fin 2),
    run (step mainnet true) Process.start
      ([.consume 1 (jobAt 98999)] ++ List.replicate 6 (.install 1) ++ [.consume 0 (jobAt 99000)] ++
        List.replicate 8 (.install 0)) = some process ∧
    ∀ w, (process.workers w).OnFork mainnet := by
  obtain ⟨process, ran⟩ : ∃ process : Process (Fin 2), run (step mainnet true) Process.start
      ([.consume 1 (jobAt 98999)] ++ List.replicate 6 (.install 1) ++ [.consume 0 (jobAt 99000)] ++
        List.replicate 8 (.install 0)) = some process := ⟨_, rfl⟩
  exact ⟨process, ran, workers_on_fork mainnet _ (by decide) ran⟩

end mainnet
end ArcMiner.Prl.SaltedSeedFork
