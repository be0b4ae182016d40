import ArcMiner.Library.Machine
import ArcMiner.Prl.ShareFinalizer

/-! The references to trees of B that `ShareFinalizer` takes over.

Calls of `TryEnqueue`, the consumer and `DisposeAsync` run on threads of their own; an
event is one step of one of them. A payload is in the hands of a call, in the channel or
with the consumer until its reference is released, and it is never in two of these places.
-/

namespace ArcMiner.Prl.ShareFinalizer

open Library Library.CSharp Library.Action Library.Machine List
open ShareBuilder (ShareSubmission)

/-- A call of `TryEnqueue`; the calls are numbered as they start. -/
structure Call where
  index : Nat
  payload : SharePayload
  /-- `TryWrite` has returned false. -/
  rejected : Bool

inductive Consumer where
  /-- At `WaitToReadAsync` of `ReadAllAsync`. -/
  | waiting
  /-- At `TryRead` of `ReadAllAsync`. -/
  | reading
  /-- In `Finalize`, with what is still to be done and how it will end. -/
  | finalizing (call : Call) (rest : List Effect) (result : Except Exception Unit)
  | ended
  | faulted

inductive Disposal where
  | notCalled
  /-- At `WhenAny` of the consumer and the delay. -/
  | draining
  /-- The drain timed out, the consumer is awaited. -/
  | awaiting
  | sweeping
  | returned
  | threw
deriving DecidableEq

structure State where
  offered : Nat
  calls : List Call
  /-- What the calls have returned. -/
  answers : List (Nat × Bool)
  queue : List Call
  /-- `_channel.Writer.TryComplete()` has been called. -/
  completed : Bool
  cancelled : Bool
  consumer : Consumer
  disposal : Disposal
  releases : List Nat

def State.initial : State := ⟨0, [], [], [], false, false, .waiting, .notCalled, []⟩

inductive Event where
  | tryEnqueue (payload : SharePayload)
  | tryWrite (place : Nat)
  | releaseRejected (place : Nat)
  | waitToRead
  | waitCancelled
  | tryRead (liveTargetNbits : Option UInt32) (sink : ShareSubmission → Result Unit)
  | finalizeStep
  | finalizeEnd (logThrows : Bool)
  | disposeAsync
  | consumerWins
  | delayWins
  | consumerAwaited
  | sweep

def capacity : Nat := 4

section machine
variable (env : Env) (s : State)

def tryWrite (place : Nat) : Option State :=
  match s.calls[place]? with
  | none => none
  | some call =>
    if call.rejected then none
    else if s.completed ∨ capacity ≤ s.queue.length then
      some { s with calls := s.calls.set place { call with rejected := true } }
    else
      some { s with
        calls := s.calls.eraseIdx place
        queue := s.queue ++ [call]
        answers := s.answers ++ [(call.index, true)] }

def releaseRejected (place : Nat) : Option State :=
  match s.calls[place]? with
  | none => none
  | some call =>
    if call.rejected then
      some { s with
        calls := s.calls.eraseIdx place
        releases := s.releases ++ [call.index]
        answers := s.answers ++ [(call.index, false)] }
    else none

/-- `WaitToReadAsync` returns whether there is something to read; while the channel is open it waits for it. -/
def waitToRead : Option State :=
  match s.consumer with
  | .waiting =>
    if s.queue ≠ [] then some { s with consumer := .reading }
    else if s.completed then some { s with consumer := .ended }
    else none
  | _ => none

/-- `WaitToReadAsync` throws, and the consumer catches it outside of its loop. -/
def waitCancelled : Option State :=
  match s.consumer with
  | .waiting => if s.cancelled then some { s with consumer := .ended } else none
  | _ => none

def tryRead (liveTargetNbits : Option UInt32) (sink : ShareSubmission → Result Unit) : Option State :=
  match s.consumer, s.queue with
  | .reading, [] => some { s with consumer := .waiting }
  | .reading, call :: queue =>
    let finalized := exec (finalize { env with sink := sink } call.payload liveTargetNbits) []
    some { s with queue := queue, consumer := .finalizing call finalized.2 finalized.1 }
  | _, _ => none

def finalizeStep : Option State :=
  match s.consumer with
  | .finalizing call (effect :: rest) result =>
    some { s with
      consumer := .finalizing call rest result
      releases := if effect = .bMerkleTreeReleased then s.releases ++ [call.index] else s.releases }
  | _ => none

/-- An exception of `Finalize` is logged; one of the logger ends the consumer. -/
def finalizeEnd (logThrows : Bool) : Option State :=
  match s.consumer with
  | .finalizing _ [] (.ok ()) => some { s with consumer := .reading }
  | .finalizing _ [] (.error _) => some { s with consumer := if logThrows then .faulted else .reading }
  | _ => none

/-- `WhenAny` does not look at how the consumer has ended. -/
def consumerWins : Option State :=
  match s.disposal, s.consumer with
  | .draining, .ended | .draining, .faulted => some { s with disposal := .sweeping }
  | _, _ => none

def consumerAwaited : Option State :=
  match s.disposal, s.consumer with
  | .awaiting, .ended => some { s with disposal := .sweeping }
  | .awaiting, .faulted => some { s with disposal := .threw }
  | _, _ => none

def sweep : Option State :=
  match s.disposal, s.queue with
  | .sweeping, [] => some { s with disposal := .returned }
  | .sweeping, orphan :: queue => some { s with queue := queue, releases := s.releases ++ [orphan.index] }
  | _, _ => none

def step : Event → Option State
  | .tryEnqueue payload =>
    some { s with offered := s.offered + 1, calls := s.calls ++ [⟨s.offered, payload, false⟩] }
  | .tryWrite place => tryWrite s place
  | .releaseRejected place => releaseRejected s place
  | .waitToRead => waitToRead s
  | .waitCancelled => waitCancelled s
  | .tryRead liveTargetNbits sink => tryRead env s liveTargetNbits sink
  | .finalizeStep => finalizeStep s
  | .finalizeEnd logThrows => finalizeEnd s logThrows
  | .disposeAsync => if s.disposal = .notCalled then some { s with completed := true, disposal := .draining } else none
  | .consumerWins => consumerWins s
  | .delayWins => if s.disposal = .draining then some { s with cancelled := true, disposal := .awaiting } else none
  | .consumerAwaited => consumerAwaited s
  | .sweep => sweep s

end machine

def among (calls : List Call) (i : Nat) : Nat := (calls.map Call.index).count i

def Consumer.owes : Consumer → Nat → Nat
  | .finalizing call rest _, i => if call.index = i then rest.count .bMerkleTreeReleased else 0
  | _, _ => 0

/-- Every payload offered has been released or is in one place, where it will be, and every call that has started has
returned or is under way. -/
structure Accounts (s : State) : Prop where
  references : ∀ i, s.releases.count i + (among s.calls i + among s.queue i + s.consumer.owes i) =
    if i < s.offered then 1 else 0
  attempts : ∀ i, (s.answers.map Prod.fst).count i + among s.calls i = if i < s.offered then 1 else 0

structure Disposes (s : State) : Prop where
  closed : s.disposal ≠ .notCalled → s.completed = true
  stopped : s.disposal = .sweeping ∨ s.disposal = .returned → s.consumer = .ended ∨ s.consumer = .faulted
  swept : s.disposal = .returned → s.queue = []

section accounts
variable {calls : List Call} {call : Call} {place : Nat} (i : Nat)

@[simp] theorem among_nil : among [] i = 0 := rfl

@[simp] theorem among_cons : among (call :: calls) i = among calls i + if call.index = i then 1 else 0 := by
  simp [among, count_cons]

@[simp] theorem among_append (more : List Call) : among (calls ++ more) i = among calls i + among more i := by
  simp [among, count_append]

theorem among_eraseIdx (found : calls[place]? = some call) :
    among calls i = among (calls.eraseIdx place) i + if call.index = i then 1 else 0 := by
  obtain ⟨inside, rfl⟩ := List.getElem?_eq_some_iff.mp found
  have moved := (getElem_cons_eraseIdx_perm inside).map Call.index
  rw [among, ← moved.count_eq, map_cons, ← map_cons, ← among, among_cons]

theorem among_reject (found : calls[place]? = some call) :
    among (calls.set place { call with rejected := true }) i = among calls i := by
  obtain ⟨inside, rfl⟩ := List.getElem?_eq_some_iff.mp found
  rw [among, map_set]
  show ((calls.map Call.index).set place calls[place].index).count i = _
  rw [← map_set, set_getElem_self, among]

end accounts

theorem finalize_releases (env : Env) (payload : SharePayload) (liveTargetNbits : Option UInt32) :
    (exec (finalize env payload liveTargetNbits) []).2.count .bMerkleTreeReleased = 1 := by
  have log := consume_eq env [] payload liveTargetNbits
  rw [nil_append, consume] at log
  rw [log]
  rcases effects_cases env payload liveTargetNbits with ⟨dropped, effects, rfl | rfl | ⟨share, rfl⟩⟩ | ⟨share, effects⟩ <;>
    simp [effects]

section steps
variable {env : Env} {s next : State} {event : Event}

theorem count_concat (releases : List Nat) (index i : Nat) :
    (releases ++ [index]).count i = releases.count i + if index = i then 1 else 0 := by
  simp [count_append, count_singleton]

theorem Accounts.tryEnqueue (accounts : Accounts s) (payload : SharePayload) :
    Accounts { s with offered := s.offered + 1, calls := s.calls ++ [⟨s.offered, payload, false⟩] } := by
  refine ⟨fun i => ?_, fun i => ?_⟩
  · have before := accounts.references i
    simp only [among_append, among_cons, among_nil]
    split_ifs at before ⊢ <;> omega
  · have before := accounts.attempts i
    simp only [among_append, among_cons, among_nil]
    split_ifs at before ⊢ <;> omega

theorem Accounts.reject (accounts : Accounts s) {place : Nat} {call : Call} (found : s.calls[place]? = some call) :
    Accounts { s with calls := s.calls.set place { call with rejected := true } } := by
  refine ⟨fun i => ?_, fun i => ?_⟩
  · rw [among_reject i found]
    exact accounts.references i
  · rw [among_reject i found]
    exact accounts.attempts i

theorem Accounts.answer (accounts : Accounts s) {place : Nat} {call : Call} (found : s.calls[place]? = some call)
    {queue : List Call} {releases : List Nat} (passed : ∀ i, releases.count i + among queue i =
      s.releases.count i + among s.queue i + if call.index = i then 1 else 0) (answer : Bool) :
    Accounts { s with
      calls := s.calls.eraseIdx place, queue, releases, answers := s.answers ++ [(call.index, answer)] } := by
  refine ⟨fun i => ?_, fun i => ?_⟩
  · have before := accounts.references i
    have after := passed i
    rw [among_eraseIdx i found] at before
    show releases.count i + (among (s.calls.eraseIdx place) i + among queue i + s.consumer.owes i) = if i < s.offered then 1 else 0
    omega
  · have before := accounts.attempts i
    rw [among_eraseIdx i found] at before
    simp only [map_append, map_singleton, count_concat]
    omega

theorem Accounts.move (accounts : Accounts s) {queue : List Call} {consumer : Consumer} {releases : List Nat}
    {disposal : Disposal} {completed cancelled : Bool} (kept : ∀ i, releases.count i + among queue i + consumer.owes i =
      s.releases.count i + among s.queue i + s.consumer.owes i) :
    Accounts { s with queue, consumer, releases, disposal, completed, cancelled } := by
  refine ⟨fun i => ?_, accounts.attempts⟩
  have before := accounts.references i
  have same := kept i
  show releases.count i + (among s.calls i + among queue i + consumer.owes i) = if i < s.offered then 1 else 0
  omega

inductive Turn (s : State) : Event → State → Prop where
  | call {event : Event} {offered : Nat} {calls queue : List Call} {answers : List (Nat × Bool)} {releases : List Nat}
      (calling : s.calls ≠ [] ∨ ∃ payload, event = .tryEnqueue payload) (closed : s.completed = true → queue = s.queue) :
      Turn s event { s with offered, calls, answers, queue, releases }
  | consumer {event : Event} {consumer : Consumer} {queue : List Call} {releases : List Nat}
      (alive : s.consumer ≠ .ended ∧ s.consumer ≠ .faulted) : Turn s event { s with consumer, queue, releases }
  | completes (first : s.disposal = .notCalled) : Turn s .disposeAsync { s with completed := true, disposal := .draining }
  | timesOut (draining : s.disposal = .draining) : Turn s .delayWins { s with cancelled := true, disposal := .awaiting }
  | joins {event : Event} (called : s.disposal ≠ .notCalled) (stopped : s.consumer = .ended ∨ s.consumer = .faulted) :
      Turn s event { s with disposal := .sweeping }
  | throws {event : Event} (called : s.disposal ≠ .notCalled) : Turn s event { s with disposal := .threw }
  | sweeps {queue : List Call} {releases : List Nat} (sweeping : s.disposal = .sweeping) :
      Turn s .sweep { s with queue, releases }
  | returns (sweeping : s.disposal = .sweeping) (swept : s.queue = []) : Turn s .sweep { s with disposal := .returned }

theorem step_turn (stepped : step env s event = some next) : Turn s event next ∧ (Accounts s → Accounts next) := by
  cases event with
  | tryEnqueue payload =>
    cases stepped
    exact ⟨.call (.inr ⟨payload, rfl⟩) fun _ => rfl, (·.tryEnqueue payload)⟩
  | tryWrite place =>
    simp only [step, tryWrite] at stepped
    split at stepped
    next => cases stepped
    next call found =>
      have calling : s.calls ≠ [] := fun none => by simp [none] at found
      split_ifs at stepped with _ full <;> cases stepped
      · exact ⟨.call (.inl calling) fun _ => rfl, (·.reject found)⟩
      · refine ⟨.call (.inl calling) fun closed => absurd (.inl closed) full, (·.answer found (fun i => ?_) true)⟩
        simp [Nat.add_assoc]
  | releaseRejected place =>
    simp only [step, releaseRejected] at stepped
    split at stepped
    next => cases stepped
    next call found =>
      have calling : s.calls ≠ [] := fun none => by simp [none] at found
      split_ifs at stepped
      cases stepped
      refine ⟨.call (.inl calling) fun _ => rfl, (·.answer found (fun i => ?_) false)⟩
      rw [count_concat, Nat.add_right_comm]
  | waitToRead =>
    simp only [step, waitToRead] at stepped
    split at stepped
    next consumer =>
      split_ifs at stepped <;> cases stepped <;>
        exact ⟨.consumer (by simp [consumer]), (·.move fun i => by rw [consumer]; rfl)⟩
    next => cases stepped
  | waitCancelled =>
    simp only [step, waitCancelled] at stepped
    split at stepped
    next consumer =>
      split_ifs at stepped
      cases stepped
      exact ⟨.consumer (by simp [consumer]), (·.move fun i => by rw [consumer]; rfl)⟩
    next => cases stepped
  | tryRead liveTargetNbits sink =>
    simp only [step, tryRead] at stepped
    split at stepped
    next consumer _ =>
      cases stepped
      exact ⟨.consumer (by simp [consumer]), (·.move fun i => by rw [consumer]; rfl)⟩
    next consumer items =>
      obtain rfl := Option.some.inj stepped
      refine ⟨.consumer (by simp [consumer]), (·.move fun i => ?_)⟩
      simp [consumer, items, Consumer.owes, finalize_releases, Nat.add_assoc]
    next => cases stepped
  | finalizeStep =>
    simp only [step, finalizeStep] at stepped
    split at stepped
    next call effect rest result consumer =>
      cases stepped
      refine ⟨.consumer (by simp [consumer]), (·.move fun i => ?_)⟩
      simp only [consumer, Consumer.owes, count_cons, beq_iff_eq]
      split_ifs <;> simp_all [Nat.add_right_comm, Nat.add_assoc]
    next => cases stepped
  | finalizeEnd logThrows =>
    simp only [step, finalizeEnd] at stepped
    split at stepped
    next consumer =>
      cases stepped
      exact ⟨.consumer (by simp [consumer]), (·.move fun i => by simp [consumer, Consumer.owes])⟩
    next consumer =>
      cases stepped
      exact ⟨.consumer (by simp [consumer]), (·.move fun i => by cases logThrows <;> simp [consumer, Consumer.owes])⟩
    next => cases stepped
  | disposeAsync =>
    simp only [step] at stepped
    split_ifs at stepped with first
    cases stepped
    exact ⟨.completes first, (·.move fun _ => rfl)⟩
  | delayWins =>
    simp only [step] at stepped
    split_ifs at stepped with draining
    cases stepped
    exact ⟨.timesOut draining, (·.move fun _ => rfl)⟩
  | consumerWins =>
    simp only [step, consumerWins] at stepped
    split at stepped
    next draining ended =>
      cases stepped
      exact ⟨.joins (draining ▸ nofun) (.inl ended), (·.move fun _ => rfl)⟩
    next draining faulted =>
      cases stepped
      exact ⟨.joins (draining ▸ nofun) (.inr faulted), (·.move fun _ => rfl)⟩
    next => cases stepped
  | consumerAwaited =>
    simp only [step, consumerAwaited] at stepped
    split at stepped
    next awaiting ended =>
      cases stepped
      exact ⟨.joins (awaiting ▸ nofun) (.inl ended), (·.move fun _ => rfl)⟩
    next awaiting _ =>
      cases stepped
      exact ⟨.throws (awaiting ▸ nofun), (·.move fun _ => rfl)⟩
    next => cases stepped
  | sweep =>
    simp only [step, sweep] at stepped
    split at stepped
    next sweeping swept =>
      cases stepped
      exact ⟨.returns sweeping swept, (·.move fun _ => rfl)⟩
    next sweeping items =>
      cases stepped
      refine ⟨.sweeps sweeping, (·.move fun i => ?_)⟩
      rw [items, among_cons, count_concat, Nat.add_right_comm (count i s.releases), Nat.add_assoc (count i s.releases)]
    next => cases stepped

theorem step_disposes (disposes : Disposes s) (stepped : step env s event = some next) : Disposes next := by
  cases (step_turn stepped).1 with
  | call _ closed =>
    refine ⟨disposes.closed, disposes.stopped, fun returned => ?_⟩
    have completed := disposes.closed (returned ▸ nofun)
    exact (closed completed).trans (disposes.swept returned)
  | consumer alive =>
    -- while the consumer runs, the channel is not swept
    have early : ¬ (s.disposal = .sweeping ∨ s.disposal = .returned) := fun late =>
      (disposes.stopped late).elim alive.1 alive.2
    exact ⟨disposes.closed, fun late => absurd late early, fun late => absurd (.inr late) early⟩
  | completes => exact ⟨fun _ => rfl, nofun, nofun⟩
  | timesOut draining => exact ⟨fun _ => disposes.closed (draining ▸ nofun), nofun, nofun⟩
  | joins called stopped => exact ⟨fun _ => disposes.closed called, fun _ => stopped, nofun⟩
  | throws called => exact ⟨fun _ => disposes.closed called, nofun, nofun⟩
  | sweeps sweeping =>
    exact ⟨disposes.closed, disposes.stopped, fun returned => absurd (sweeping.symm.trans returned) nofun⟩
  | returns sweeping swept =>
    exact ⟨fun _ => disposes.closed (sweeping ▸ nofun), fun _ => disposes.stopped (.inl sweeping), fun _ => swept⟩

/-- The enqueue attempts are over when disposal begins, and none starts later. -/
def Sequenced (s : State) : Event → Prop
  | .tryEnqueue _ => s.disposal = .notCalled
  | .disposeAsync => s.calls = []
  | _ => True

instance (s : State) : ∀ event, Decidable (Sequenced s event)
  | .tryEnqueue _ => inferInstanceAs (Decidable (s.disposal = .notCalled))
  | .disposeAsync => decidable_of_iff (s.calls.isEmpty = true) isEmpty_iff
  | .tryWrite _ | .releaseRejected _ | .waitToRead | .waitCancelled | .tryRead _ _ | .finalizeStep | .finalizeEnd _
  | .consumerWins | .delayWins | .consumerAwaited | .sweep => inferInstanceAs (Decidable True)

theorem step_sequenced (allowed : Sequenced s event) (ended : s.disposal ≠ .notCalled → s.calls = [])
    (stepped : step env s event = some next) (called : next.disposal ≠ .notCalled) : next.calls = [] := by
  cases (step_turn stepped).1 with
  | call calling =>
    rcases calling with some | ⟨payload, rfl⟩
    · exact absurd (ended called) some
    · exact absurd allowed called
  | consumer => exact ended called
  | completes => exact allowed
  | timesOut draining => exact ended (draining ▸ nofun)
  | joins before | throws before => exact ended before
  | sweeps sweeping | returns sweeping => exact ended (sweeping ▸ nofun)

end steps

/-- When `DisposeAsync` has returned, the reference of every payload whose `TryEnqueue` has returned has been released
once, and the payload of a call that is still under way is in the hands of that call. If no attempt overlaps disposal or
comes after it, this is every payload. -/
theorem references_released_once (env : Env) (events : List Event) {s : State}
    (ran : run (step env) .initial events = some s) (returned : s.disposal = .returned) :
    (∀ i answer, (i, answer) ∈ s.answers → s.releases.count i = 1) ∧
    (∀ call ∈ s.calls, s.releases.count call.index = 0) ∧
    (Along (step env) Sequenced .initial events → ∀ i < s.offered, s.releases.count i = 1) := by
  have start : Accounts .initial ∧ Disposes .initial := ⟨⟨fun _ => rfl, fun _ => rfl⟩, nofun, nofun, nofun⟩
  obtain ⟨accounts, disposes⟩ : Accounts s ∧ Disposes s :=
    run_history (motive := fun _ s => Accounts s ∧ Disposes s) start
      (fun kept stepped => ⟨(step_turn stepped).2 kept.1, step_disposes kept.2 stepped⟩) ran
  -- only a call that has not returned holds a reference now
  have references : ∀ i, s.releases.count i + among s.calls i = if i < s.offered then 1 else 0 := by
    intro i
    have all := accounts.references i
    rw [disposes.swept returned] at all
    rcases disposes.stopped (.inr returned) with ended | faulted
    · simpa [ended, Consumer.owes] using all
    · simpa [faulted, Consumer.owes] using all
  refine ⟨fun i answer answered => ?_, fun call calling => ?_, fun along i inside => ?_⟩
  · have attempted := accounts.attempts i
    have released := references i
    have some : 0 < (s.answers.map Prod.fst).count i := count_pos_iff.mpr (mem_map_of_mem answered)
    split_ifs at attempted released <;> omega
  · have released := references call.index
    have some : 0 < among s.calls call.index := count_pos_iff.mpr (mem_map_of_mem calling)
    split_ifs at released <;> omega
  · have ended : s.disposal ≠ .notCalled → s.calls = [] :=
      run_invariant (fun s => s.disposal ≠ .notCalled → s.calls = []) step_sequenced along nofun ran
    have released := references i
    rw [ended (returned ▸ nofun), if_pos inside] at released
    exact released

def emptyPayload : SharePayload where
  gpuIndex := 0
  request := ShareBuilder.zeroRequest
  aBytes := none
  aSlice := none
  aLeafCvs := none
  bProof := ⟨Vector.replicate 32 0, [], [], 0, []⟩
  bMerkleTree := ⟨0, fun _ => .ok []⟩
  bSeed := Vector.replicate 32 0
  auditK := 0
  miningConfig := ⟨0, 0, .int7xInt7ToInt32, ⟨⟨1, 1⟩, ⟨1, 1⟩, ⟨1, 1⟩⟩, ⟨⟨1, 1⟩, ⟨1, 1⟩, ⟨1, 1⟩⟩⟩

def offer : List Event := [.tryEnqueue emptyPayload, .tryWrite 0]

/-- One payload is finalized with an exception. Then four fill the channel, one is rejected, and the drain times out with
the four still in the channel. -/
def wedged : List Event :=
  offer ++ [.waitToRead, .tryRead none fun _ => .ok (), .finalizeStep, .finalizeEnd false, .tryRead none fun _ => .ok ()] ++
  offer ++ offer ++ offer ++ offer ++ offer ++ [.releaseRejected 0, .disposeAsync, .delayWins, .waitCancelled,
    .consumerAwaited, .sweep, .sweep, .sweep, .sweep, .sweep]

theorem references_released_wedged : ∃ s,
    run (step ⟨.reference, .reference, fun _ => .ok ()⟩) .initial wedged = some s ∧ s.disposal = .returned ∧
    s.offered = 6 ∧ s.answers.map Prod.snd = [true, true, true, true, true, false] ∧
    ∀ i < 6, s.releases.count i = 1 := by
  obtain ⟨s, ran, seen⟩ : ∃ s, run (step ⟨.reference, .reference, fun _ => .ok ()⟩) .initial wedged = some s ∧
      (s.disposal, s.offered, s.answers.map Prod.snd) = (.returned, 6, [true, true, true, true, true, false]) :=
    Option.map_eq_some_iff.mp (by decide +kernel)
  simp only [Prod.mk.injEq] at seen
  obtain ⟨returned, offered, answers⟩ := seen
  have released := (references_released_once _ wedged ran returned).2.2 (by decide +kernel)
  exact ⟨s, ran, returned, offered, answers, fun i inside => released i (offered ▸ inside)⟩

/-- An attempt that started before disposal comes to the channel after `DisposeAsync` has returned. -/
theorem overlapping_enqueue_holds : ∃ s, run (step ⟨.reference, .reference, fun _ => .ok ()⟩) .initial
      [.tryEnqueue emptyPayload, .disposeAsync, .waitToRead, .consumerWins, .sweep] = some s ∧
    (s.disposal, s.offered, s.releases) = (.returned, 1, []) :=
  Option.map_eq_some_iff.mp (by decide +kernel)

end ArcMiner.Prl.ShareFinalizer
