import ArcMiner.Library.Machine
import ArcMiner.Prl.ShareFinalizer

/-! Which GPU a verdict of the pool is counted for.

Each worker has a finalizer, and all of them note the GPU of a share in one queue before they submit
it. A verdict does not say which share it is about, and takes the GPU at the front of the queue. The
queue belongs to the process: it is not cleared when a connection is lost. The pool answers the shares
of a connection in the order in which they came to it.
-/

namespace ArcMiner.Prl.WorkerOrchestrator

open Library Library.Machine List Option

/-- `OnShareResult`: the GPU that the verdict is counted for, and what is left of `PendingShareGpu`. -/
def onShareResult : List Int32 → Int32 × List Int32
  | [] => (0, [])
  | shareGpu :: pending => (shareGpu, pending)

/-- A verdict on a share, with the GPU that mined it and the one it was counted for. -/
structure Credit where
  mined : Int32
  counted : Int32
  accepted : Bool
deriving DecidableEq

structure Rig (ι : Type) where
  pendingShareGpu : List Int32
  /-- The workers between their note and the wire, in the order of the notes. -/
  submitting : List (ι × Int32)
  /-- The shares that the pool has not answered yet, in the order in which they were sent. -/
  wire : List Int32
  credits : List Credit
deriving DecidableEq

inductive RigEvent (ι : Type) where
  | finalizer (worker : ι) (effect : ShareFinalizer.Effect)
  | send (worker : ι)
  /-- `SubmitAsync` throws, or returns without a session to send on. -/
  | fail (worker : ι)
  | verdict (accepted : Bool)
  /-- The session takes something else for a verdict. -/
  | stray
  /-- What was sent and not answered is lost, and submits in progress end. -/
  | reconnect

section rig
variable {ι : Type} [DecidableEq ι]

def rigStep (state : Rig ι) : RigEvent ι → Option (Rig ι)
  | .finalizer worker (.pendingShareGpu gpuIndex) =>
    if worker ∈ state.submitting.map Prod.fst then none
    else some { state with
      pendingShareGpu := state.pendingShareGpu ++ [gpuIndex]
      submitting := state.submitting ++ [(worker, gpuIndex)] }
  | .finalizer _ _ => some state
  | .send worker => do
    let (_, gpuIndex) ← state.submitting.find? (·.1 = worker)
    some { state with
      submitting := state.submitting.eraseP (·.1 = worker)
      wire := state.wire ++ [gpuIndex] }
  | .fail worker => do
    let _ ← state.submitting.find? (·.1 = worker)
    some { state with submitting := state.submitting.eraseP (·.1 = worker) }
  | .verdict accepted =>
    match state.wire with
    | [] => none
    | mined :: wire =>
      let (counted, pendingShareGpu) := onShareResult state.pendingShareGpu
      some { state with pendingShareGpu, wire, credits := state.credits ++ [⟨mined, counted, accepted⟩] }
  | .stray => some { state with pendingShareGpu := (onShareResult state.pendingShareGpu).2 }
  | .reconnect => some { state with submitting := [], wire := [] }

def started : Rig ι := ⟨[], [], [], []⟩

/-- Shares come to the wire in the order of their notes, none is lost, and nothing else is taken for a verdict. -/
def Orderly (state : Rig ι) : RigEvent ι → Prop
  | .send worker => (state.submitting.head?.map Prod.fst) = some worker
  | .fail _ | .stray => False
  | .reconnect => state.submitting = [] ∧ state.wire = []
  | .finalizer _ _ | .verdict _ => True

def OneGpu (_ : Rig ι) : RigEvent ι → Prop
  | .finalizer _ (.pendingShareGpu gpuIndex) => gpuIndex = 0
  | _ => True

def Credited (state : Rig ι) : Prop := ∀ credit ∈ state.credits, credit.counted = credit.mined

variable {state next : Rig ι}

structure InStep (state : Rig ι) : Prop where
  queue : state.pendingShareGpu = state.wire ++ state.submitting.map Prod.snd
  credited : Credited state

theorem inStep_step {event : RigEvent ι} (orderly : Orderly state event) (known : InStep state)
    (stepped : rigStep state event = some next) : InStep next := by
  cases event with
  | finalizer worker effect =>
    cases effect with
    | pendingShareGpu gpuIndex =>
      obtain ⟨-, ⟨⟩⟩ := ite_none_left_eq_some.mp stepped
      exact ⟨by simp [known.queue], known.credited⟩
    | _ =>
      cases stepped
      exact known
  | send worker =>
    -- the share that is sent is the one noted first, so it moves from one part of the queue to the other
    obtain ⟨⟨other, gpuIndex⟩, first, same⟩ := map_eq_some_iff.mp orderly
    obtain ⟨rest, front⟩ := head?_eq_some_iff.mp first
    cases same
    obtain ⟨⟨_, found⟩, here, ⟨⟩⟩ := bind_eq_some_iff.mp stepped
    rw [front, find?_cons_of_pos (by simp)] at here
    cases here
    refine ⟨?_, known.credited⟩
    simp [known.queue, front]
  | fail worker => exact absurd orderly id
  | verdict accepted =>
    obtain ⟨queue, credited⟩ := known
    cases sent : state.wire with
    | nil =>
      rw [rigStep, sent] at stepped
      nomatch stepped
    | cons mined wire =>
      rw [rigStep, sent] at stepped
      rw [sent, cons_append] at queue
      rw [queue] at stepped
      cases stepped
      exact ⟨rfl, forall_mem_append.mpr ⟨credited, forall_mem_singleton.mpr rfl⟩⟩
  | stray => exact absurd orderly id
  | reconnect =>
    obtain ⟨idle, answered⟩ := orderly
    cases stepped
    refine ⟨?_, known.credited⟩
    simp [known.queue, idle, answered]

structure FirstOnly (state : Rig ι) : Prop where
  noted : ∀ gpuIndex ∈ state.pendingShareGpu, gpuIndex = 0
  submitting : ∀ entry ∈ state.submitting, entry.2 = 0
  sent : ∀ gpuIndex ∈ state.wire, gpuIndex = 0
  credited : Credited state

theorem onShareResult_first {pending : List Int32} (known : ∀ gpuIndex ∈ pending, gpuIndex = 0) :
    (onShareResult pending).1 = 0 ∧ ∀ gpuIndex ∈ (onShareResult pending).2, gpuIndex = 0 := by
  cases pending with
  | nil => exact ⟨rfl, fun _ => nofun⟩
  | cons gpuIndex pending => exact forall_mem_cons.mp known

theorem firstOnly_step {event : RigEvent ι} (oneGpu : OneGpu state event) (known : FirstOnly state)
    (stepped : rigStep state event = some next) : FirstOnly next := by
  cases event with
  | finalizer worker effect =>
    cases effect with
    | pendingShareGpu gpuIndex =>
      obtain ⟨-, ⟨⟩⟩ := ite_none_left_eq_some.mp stepped
      have first : gpuIndex = 0 := oneGpu
      subst first
      refine ⟨forall_mem_append.mpr ⟨known.noted, forall_mem_singleton.mpr rfl⟩, ?_, known.sent, known.credited⟩
      exact forall_mem_append.mpr ⟨known.submitting, forall_mem_singleton.mpr rfl⟩
    | _ =>
      cases stepped
      exact known
  | send worker =>
    obtain ⟨entry, found, ⟨⟩⟩ := bind_eq_some_iff.mp stepped
    have first := known.submitting entry (mem_of_find?_eq_some found)
    refine ⟨known.noted, fun other member => known.submitting other (mem_of_mem_eraseP member), ?_, known.credited⟩
    exact forall_mem_append.mpr ⟨known.sent, forall_mem_singleton.mpr first⟩
  | fail worker =>
    -- the note of a failed submit stays in the queue, but it names the same GPU as all others
    obtain ⟨entry, found, ⟨⟩⟩ := bind_eq_some_iff.mp stepped
    exact ⟨known.noted, fun other member => known.submitting other (mem_of_mem_eraseP member), known.sent, known.credited⟩
  | verdict accepted =>
    obtain ⟨counted, rest⟩ := onShareResult_first known.noted
    cases sent : state.wire with
    | nil =>
      rw [rigStep, sent] at stepped
      nomatch stepped
    | cons mined wire =>
      have mine := sent ▸ known.sent
      rw [rigStep, sent] at stepped
      cases stepped
      obtain ⟨first, later⟩ := forall_mem_cons.mp mine
      refine ⟨rest, known.submitting, later, ?_⟩
      exact forall_mem_append.mpr ⟨known.credited, forall_mem_singleton.mpr (counted.trans first.symm)⟩
  | stray =>
    cases stepped
    exact ⟨(onShareResult_first known.noted).2, known.submitting, known.sent, known.credited⟩
  | reconnect =>
    cases stepped
    exact ⟨known.noted, fun _ => nofun, fun _ => nofun, known.credited⟩

/-- A verdict is counted for the GPU that mined the share, if the queue stays in step with the wire or there is but one GPU. -/
theorem verdicts_credited {events : List (RigEvent ι)} {final : Rig ι}
    (orderly : Along rigStep Orderly started events ∨ Along rigStep OneGpu started events)
    (ran : run rigStep started events = some final) : Credited final := by
  rcases orderly with orderly | oneGpu
  · exact (run_invariant InStep inStep_step orderly ⟨rfl, fun _ => nofun⟩ ran).credited
  · exact (run_invariant FirstOnly firstOnly_step oneGpu ⟨fun _ => nofun, fun _ => nofun, fun _ => nofun, fun _ => nofun⟩ ran).credited

def anyShare : ShareBuilder.ShareSubmission where
  sigma := []
  configBytes := []
  hashA := Vector.replicate 32 0
  hashB := Vector.replicate 32 0
  aSlice := []
  bSlice := []
  aProof := ⟨0, [], [], []⟩
  bProof := ⟨0, [], [], []⟩
  claimedHash := Vector.replicate 32 0
  claimedDifficultyNbits := 0
  tileRow := 0
  tileCol := 0
  m := 0
  n := 0
  k := 0
  noiseRank := 0
  aRowIndices := []
  bColIndices := []
  bSeed := []
  auditProof := none

def handing (worker : Fin 2) (gpuIndex : Int32) : List (RigEvent (Fin 2)) :=
  [.finalizer worker .bMerkleTreeReleased, .finalizer worker (.pendingShareGpu gpuIndex), .finalizer worker (.submitted anyShare)]

instance (state : Rig (Fin 2)) : ∀ event, Decidable (Orderly state event)
  | .send worker => inferInstanceAs (Decidable (state.submitting.head?.map Prod.fst = some worker))
  | .fail _ | .stray => inferInstanceAs (Decidable False)
  | .reconnect => inferInstanceAs (Decidable (state.submitting = [] ∧ state.wire = []))
  | .finalizer _ _ | .verdict _ => inferInstanceAs (Decidable True)

/-- Two GPUs note their shares before either is sent. -/
theorem verdicts_credited_two : ∃ final, run rigStep started
    (handing 1 1 ++ handing 0 0 ++ [.send 1, .send 0, .verdict true, .verdict false, .reconnect]) = some final ∧
      final.credits = [⟨1, 1, true⟩, ⟨0, 0, false⟩] ∧ Credited final := by
  obtain ⟨final, ran, credits⟩ := map_eq_some_iff.mp (show (run rigStep started
    (handing 1 1 ++ handing 0 0 ++ [.send 1, .send 0, .verdict true, .verdict false, .reconnect])).map Rig.credits =
      some [⟨1, 1, true⟩, ⟨0, 0, false⟩] by decide +kernel)
  exact ⟨final, ran, credits, verdicts_credited (.inl (by decide +kernel)) ran⟩

/-- A submit of GPU 1 throws; the next verdict, on a share of GPU 0, is counted for GPU 1. -/
theorem verdict_after_failed_submit : run rigStep started
    (handing 1 1 ++ [.fail 1] ++ handing 0 0 ++ [.send 0, .verdict true]) =
      some { pendingShareGpu := [0], submitting := [], wire := [], credits := [⟨0, 1, true⟩] } := by
  decide +kernel

end rig
end ArcMiner.Prl.WorkerOrchestrator
