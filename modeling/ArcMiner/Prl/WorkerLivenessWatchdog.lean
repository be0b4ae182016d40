import ArcMiner.Library.Action
import ArcMiner.Library.CSharp
import Mathlib.Data.List.Basic

/-! `WorkerLivenessWatchdog`: the guard against wedged GPUs and impossible targets.

The watchdog looks at its workers again and again. What it reads is given: a history of
polls while it watches, and a history of polls while it waits for the workers to recover
after it has tripped. Clocks and ticks are in milliseconds.
-/

namespace ArcMiner.Prl

open Library Library.CSharp Library.Action List

/-- An exception, as the handlers of `LoopAsync` tell them apart. -/
inductive Thrown where
  | operationCanceled
  | other (why : Exception)

structure OpenRates (ρ : Type) where
  zero : ρ
  add : ρ → ρ → ρ
  /-- `double.IsFinite(opens) && opens > 0.0` -/
  counts : ρ → Bool
  /-- `_noTriggerK > 0.0 && aggregateOpensPerSec > 0.0` -/
  adapts : ρ → Bool
  /-- `(long)Math.Min((double)long.MaxValue, _noTriggerK * (1000.0 / aggregateOpensPerSec))` -/
  adaptiveMs : ρ → Int

/-- What is read of an `ILivenessTarget`. -/
structure LivenessTarget (ρ : Type) where
  gpuIndex : Int32
  lastProgressTicks : Int
  lastTriggerOrSigmaTicks : Int
  expectedOpensPerSec : ρ

structure WorkerLivenessWatchdog (ρ : Type) where
  /-- `_budget > TimeSpan.Zero` -/
  budgetSet : Bool
  /-- `(long)_budget.TotalMilliseconds` -/
  budgetMs : Int
  noTriggerBudgetSet : Bool
  noTriggerBudgetMs : Int
  rates : OpenRates ρ
  hardKillGrace : Int
  /-- Returns if none is set. -/
  tripReasonSink : String → Except Thrown Unit
  exitAction : Int32 → Except Thrown Unit

namespace WorkerLivenessWatchdog

structure Poll (ρ : Type) where
  /-- The loop is cancelled before or during the delay. -/
  stopped : Bool
  now : Int
  workers : List (LivenessTarget ρ)
  /-- `_tripCts.IsCancellationRequested`, as the progress guard and the trigger guard see it. -/
  tripRequested : Bool
  tripRequestedLater : Bool

/-- One iteration of the escalation loop: how long it has lasted, and what is seen of the workers after the delay. -/
structure KillPoll where
  elapsed : Int
  nowK : Int
  lastProgressTicks : List Int

inductive Effect where
  | tripReason (reason : String)
  | tripCancelled
  | exited (code : Int32)
deriving DecidableEq

inductive Verdict where
  | stopped
  | progress (gpuIndex : Int32) (stalled : Int)
  | noTrigger (stalled budget : Int)
  | continues

section watchdog
variable {ρ : Type} (watchdog : WorkerLivenessWatchdog ρ) (primeBy : Int)

def since (now : Int) (worker : LivenessTarget ρ) : Int :=
  now - if worker.lastProgressTicks = 0 then primeBy else worker.lastProgressTicks

def stalest (now : Int) (workers : List (LivenessTarget ρ)) : Int × Int32 :=
  workers.foldl
    (fun found worker => if found.1 < since primeBy now worker then (since primeBy now worker, worker.gpuIndex) else found)
    (-1, -1)

/-- `newestTriggerOrSigma` and `aggregateOpensPerSec`. -/
def newest (workers : List (LivenessTarget ρ)) : Int × ρ :=
  workers.foldl
    (fun found worker =>
      if worker.lastTriggerOrSigmaTicks = 0 then found
      else
        (if found.1 < worker.lastTriggerOrSigmaTicks then worker.lastTriggerOrSigmaTicks else found.1,
          if watchdog.rates.counts worker.expectedOpensPerSec
            then watchdog.rates.add found.2 worker.expectedOpensPerSec else found.2))
    (0, watchdog.rates.zero)

def noTriggerMs (aggregateOpensPerSec : ρ) : Int :=
  if watchdog.rates.adapts aggregateOpensPerSec then
    if watchdog.noTriggerBudgetMs < watchdog.rates.adaptiveMs aggregateOpensPerSec
      then watchdog.rates.adaptiveMs aggregateOpensPerSec else watchdog.noTriggerBudgetMs
  else watchdog.noTriggerBudgetMs

def verdict (poll : Poll ρ) : Verdict :=
  let worst := if watchdog.budgetSet then stalest primeBy poll.now poll.workers else (-1, -1)
  let aggregate := watchdog.newest poll.workers
  if poll.stopped then .stopped
  else if watchdog.budgetSet ∧ watchdog.budgetMs < worst.1 ∧ !poll.tripRequested then .progress worst.2 worst.1
  else if watchdog.noTriggerBudgetSet ∧ !poll.tripRequestedLater ∧ aggregate.1 ≠ 0 ∧
      watchdog.noTriggerMs aggregate.2 < poll.now - aggregate.1 then
    .noTrigger (poll.now - aggregate.1) (watchdog.noTriggerMs aggregate.2)
  else .continues

def anyAlive (poll : KillPoll) : Bool := poll.lastProgressTicks.any fun last => poll.nowK - last < watchdog.budgetMs

def trip (reason : String) : Action (List Effect) Thrown Unit := do
  modify (· ++ [.tripReason reason])
  ofResult (watchdog.tripReasonSink reason)
  modify (· ++ [.tripCancelled])

/-- The escalation loop. At the end of the history it is still waiting. -/
def escalate : List KillPoll → Action (List Effect) Thrown Unit
  | [] => pure ()
  | poll :: rest =>
    if poll.elapsed < watchdog.hardKillGrace then
      if watchdog.anyAlive poll then pure () else escalate rest
    else do
      modify (· ++ [.exited 70])
      ofResult (watchdog.exitAction 70)

def loop (kills : List KillPoll) : List (Poll ρ) → Action (List Effect) Thrown Unit
  | [] => pure ()
  | poll :: rest =>
    match watchdog.verdict primeBy poll with
    | .stopped => pure ()
    | .progress _ _ => do
      watchdog.trip "worker_watchdog_progress"
      watchdog.escalate kills
    | .noTrigger _ _ => watchdog.trip "worker_watchdog_no_trigger"
    | .continues => loop kills rest

/-- An exception trips the watchdog as well, unless it is a cancellation. -/
def handle : Thrown → Action (List Effect) Thrown Unit
  | .operationCanceled => pure ()
  | .other _ => watchdog.trip "worker_watchdog_loop_crashed"

def loopAsync (polls : List (Poll ρ)) (kills : List KillPoll) : Action (List Effect) Thrown Unit :=
  tryCatch (watchdog.loop primeBy kills polls) watchdog.handle

def effects (polls : List (Poll ρ)) (kills : List KillPoll) : List Effect :=
  (exec (watchdog.loopAsync primeBy polls kills) []).2

def graced (kills : List KillPoll) : List KillPoll := kills.takeWhile (·.elapsed < watchdog.hardKillGrace)

def NoneAlive (kill : KillPoll) : Prop := ∀ last ∈ kill.lastProgressTicks, watchdog.budgetMs ≤ kill.nowK - last

instance (kill : KillPoll) : Decidable (watchdog.NoneAlive kill) := inferInstanceAs (Decidable (∀ last ∈ _, _ ≤ _))

end watchdog

section effects
variable {ρ : Type} {watchdog : WorkerLivenessWatchdog ρ} {primeBy : Int} {log : List Effect} {code : Int32}

theorem anyAlive_iff (kill : KillPoll) : watchdog.anyAlive kill = true ↔ ¬ watchdog.NoneAlive kill := by
  simp [anyAlive, NoneAlive]

def Exits (code : Int32) (action : Action (List Effect) Thrown Unit) (log : List Effect) : Prop :=
  ends action (fun _ after => .exited code ∈ after) (fun _ after => .exited code ∈ after) log

theorem exits_handle (why : Thrown) : Exits code (watchdog.handle why) log ↔ .exited code ∈ log := by
  cases why with
  | operationCanceled => rfl
  | other why =>
    simp only [Exits, handle, trip, ends_bind, ends_modify, ends_ofResult]
    cases watchdog.tripReasonSink _ <;> simp

theorem exited_effects_iff (polls : List (Poll ρ)) (kills : List KillPoll) :
    .exited code ∈ watchdog.effects primeBy polls kills ↔ Exits code (watchdog.loop primeBy kills polls) [] := by
  have whole : Exits code (watchdog.loopAsync primeBy polls kills) [] ↔ .exited code ∈ watchdog.effects primeBy polls kills :=
    ends_state_iff
  rw [← whole, Exits, loopAsync, ends_tryCatch]
  show ends _ _ (fun why after => Exits code (watchdog.handle why) after) [] ↔ _
  simp only [exits_handle]
  rfl

theorem exits_escalate (kills : List KillPoll) (fresh : .exited 70 ∉ log) : Exits 70 (watchdog.escalate kills) log ↔
      (∃ kill ∈ kills, watchdog.hardKillGrace ≤ kill.elapsed) ∧ ∀ kill ∈ watchdog.graced kills, watchdog.NoneAlive kill := by
  induction kills with
  | nil => simpa [escalate, Exits] using fresh
  | cons kill rest ih =>
    unfold escalate graced Exits
    by_cases early : kill.elapsed < watchdog.hardKillGrace
    · rw [if_pos early, takeWhile_cons_of_pos (by simpa using early)]
      have later : (∃ other ∈ kill :: rest, watchdog.hardKillGrace ≤ other.elapsed) ↔
          ∃ other ∈ rest, watchdog.hardKillGrace ≤ other.elapsed := by
        simp [Int.not_le.mpr early]
      by_cases alive : watchdog.anyAlive kill = true
      · rw [if_pos alive]
        refine iff_of_false fresh fun ⟨_, stale⟩ => ?_
        exact (anyAlive_iff kill).mp alive (stale kill mem_cons_self)
      · have stale : watchdog.NoneAlive kill := by rwa [anyAlive_iff, not_not] at alive
        rw [if_neg alive, later, forall_mem_cons, and_iff_right stale]
        exact ih
    · rw [if_neg early, takeWhile_cons_of_neg (by simpa using early)]
      have late : ∃ other ∈ kill :: rest, watchdog.hardKillGrace ≤ other.elapsed :=
        ⟨kill, mem_cons_self, Int.not_lt.mp early⟩
      simp only [ends_bind, ends_modify, ends_ofResult, late, not_mem_nil, true_and]
      cases watchdog.exitAction 70 <;> simp

theorem loop_passes {before : List (Poll ρ)} (polls : List (Poll ρ)) (kills : List KillPoll)
    (watches : ∀ poll ∈ before, watchdog.verdict primeBy poll = .continues) :
    watchdog.loop primeBy kills (before ++ polls) = watchdog.loop primeBy kills polls := by
  induction before with
  | nil => rfl
  | cons poll before ih =>
    rw [cons_append, loop, watches poll mem_cons_self]
    exact ih fun earlier inside => watches earlier (mem_cons_of_mem poll inside)

end effects

/-- When the watchdog has tripped on the progress budget and the grace elapses, it ends the process if and only if at no
poll before that any worker, wedged or not, had made progress within the budget. -/
theorem wedged_exit_iff {ρ : Type} (watchdog : WorkerLivenessWatchdog ρ) (primeBy : Int) {before rest : List (Poll ρ)}
    {poll : Poll ρ} {kills : List KillPoll} {gpuIndex : Int32} {stalled : Int}
    (watches : ∀ earlier ∈ before, watchdog.verdict primeBy earlier = .continues)
    (trips : watchdog.verdict primeBy poll = .progress gpuIndex stalled)
    (reported : watchdog.tripReasonSink "worker_watchdog_progress" = .ok ())
    (elapses : ∃ kill ∈ kills, watchdog.hardKillGrace ≤ kill.elapsed) :
    .exited 70 ∈ watchdog.effects primeBy (before ++ poll :: rest) kills ↔
      ∀ kill ∈ watchdog.graced kills, ∀ last ∈ kill.lastProgressTicks, watchdog.budgetMs ≤ kill.nowK - last := by
  rw [exited_effects_iff, loop_passes _ kills watches, loop, trips, Exits]
  simp only [trip, ends_bind, ends_modify, reported, ends_ofResult]
  exact (exits_escalate kills (by simp)).trans (and_iff_right elapses)

def Wedged {ρ : Type} (poll : Poll ρ) (kills : List KillPoll) (i : Nat) : Prop :=
  i < poll.workers.length ∧
    ∀ kill ∈ kills, kill.lastProgressTicks[i]? = poll.workers[i]?.map LivenessTarget.lastProgressTicks

section rig

def rig : WorkerLivenessWatchdog Unit where
  budgetSet := true
  budgetMs := 300000
  noTriggerBudgetSet := false
  noTriggerBudgetMs := 0
  rates := ⟨(), fun _ _ => (), fun _ => false, fun _ => false, fun _ => 0⟩
  hardKillGrace := 30000
  tripReasonSink := fun _ => .ok ()
  exitAction := fun _ => .ok ()

def twoWorkers (second : Int) : Poll Unit := ⟨false, 400000, [⟨0, 1000, 0, ()⟩, ⟨1, second, 0, ()⟩], false, false⟩

def silence (second : Int) : List KillPoll :=
  (range 31).map fun i => ⟨1000 * i, 401000 + 1000 * i, [1000, second]⟩

theorem wedged_exit_both :
    rig.verdict 0 (twoWorkers 1000) = .progress 0 399000 ∧ Wedged (twoWorkers 1000) (silence 1000) 0 ∧
    .exited 70 ∈ rig.effects 0 [twoWorkers 1000] (silence 1000) := by
  have trips : rig.verdict 0 (twoWorkers 1000) = .progress 0 399000 := rfl
  have exits : .exited 70 ∈ rig.effects 0 ([] ++ [twoWorkers 1000]) (silence 1000) ↔ _ :=
    wedged_exit_iff rig 0 (forall_mem_nil _) trips rfl (by decide)
  exact ⟨trips, ⟨by decide, by decide⟩, exits.mpr (by decide)⟩

/-- The second worker made progress just before the trip. It is taken for recovered, and the wedged one stays. -/
theorem wedged_not_exited :
    rig.verdict 0 (twoWorkers 399990) = .progress 0 399000 ∧ Wedged (twoWorkers 399990) (silence 399990) 0 ∧
    (∃ kill ∈ silence 399990, rig.hardKillGrace ≤ kill.elapsed) ∧
    .exited 70 ∉ rig.effects 0 [twoWorkers 399990] (silence 399990) :=
  ⟨rfl, ⟨by decide, by decide⟩, by decide, by decide⟩

end rig
end WorkerLivenessWatchdog
end ArcMiner.Prl
