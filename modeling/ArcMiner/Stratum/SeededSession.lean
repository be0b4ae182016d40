import ArcMiner.Library.Machine
import ArcMiner.Rx.RxPoolClient

/-! The session loop of the rx and nm clients, beside the solver threads that it starts and stops.

Each VM has the seed it was created under, and all VMs read one memory of the process: the cache and dataset
of RandomX, or the dataset of NeuroMorph. The session loop looks at the published job from time to time and
starts new threads when its seed is another one; a thread looks at it in every turn.
-/

namespace ArcMiner.Stratum.SeededSession

open Library Library.CSharp Library.Machine Option
open Rx.RxPoolClient (takenUp)

/-- What the two clients differ in. `σ` is what a thread keeps in its loop, `η` is a hit. -/
structure Client (σ η : Type) where
  threads : Nat
  start : Nat → σ
  lastGen : σ → Int
  /-- The rest of a turn, once there is a job: by the number of the thread, the seed of its VM and the memory. -/
  turn : Nat → List UInt8 → Option (List UInt8) → CryptoNoteJob → Int → σ → Result (σ × List η)
  /-- The hash of a turn is that of the turn before. -/
  pipelined : Bool
  /-- The session loop builds the memory, before the threads start; else the threads do. -/
  sessionSeeds : Bool
  /-- What the memory is built from. -/
  memoryKey : List UInt8 → List UInt8
  memoryKey_eq : sessionSeeds = true → ∀ seed, memoryKey seed = seed

inductive Stage where
  | starting
  | begun
  /-- There is a context, without a seed. -/
  | created
  | building
  /-- At the top of the loop. -/
  | head
  | checked
  | generation (gen : Int)
  | holding (job : CryptoNoteJob) (gen : Int)
  | ended
deriving DecidableEq

structure Thread (σ : Type) where
  seed : List UInt8
  token : Nat
  stage : Stage
  vm : Option (List UInt8)
  solver : σ
  current : Option CryptoNoteJob
  pending : Option CryptoNoteJob

inductive Phase where
  | loggingIn
  | polling
  /-- The job has another seed than the session. -/
  | changed (job : CryptoNoteJob)
  | stopping (job : CryptoNoteJob)
  | seeding (job : CryptoNoteJob)
  | initialising (job : CryptoNoteJob)
  | closed
deriving DecidableEq

/-- A hit in the queue, with the job it is for and what it was computed by. -/
structure Enqueued (η : Type) where
  hit : η
  job : Option CryptoNoteJob
  vm : List UInt8
  memory : Option (List UInt8)

abbrev Key := Nat × Nat

structure Session (σ η : Type) where
  dialect : CryptoNoteStratumDialect
  publishing : Bool
  phase : Phase
  currentSeed : Option (List UInt8)
  /-- How often threads have been started. -/
  starts : Nat
  canceled : Nat → Bool
  /-- What the memory is built from, unless it is free or being built. -/
  memory : Option (List UInt8)
  /-- Who holds the lock on the memory. -/
  builder : Option Key
  threads : Key → Option (Thread σ)
  hits : List (Enqueued η)

def Session.opened {σ η : Type} (memory : Option (List UInt8)) : Session σ η where
  dialect := .opened
  publishing := false
  phase := .loggingIn
  currentSeed := none
  starts := 0
  canceled _ := false
  memory
  builder := none
  threads _ := none
  hits := []

inductive Turn where
  | begin
  | create
  | fail
  | build
  | attach
  | check
  | readGeneration
  | readJob
  | hash
deriving DecidableEq

inductive Event where
  | publish (job : CryptoNoteJob)
  | bump
  | loggedIn
  | poll
  | cancel
  | join
  | init
  | initialised (ok : Bool)
  | launch
  | finish
  | turn (key : Key) (turn : Turn)

structure Outcome (σ η : Type) where
  thread : Thread σ
  memory : Option (List UInt8)
  builder : Option Key
  found : List (Enqueued η)

section machine
variable {σ η : Type}

/-- The token source is disposed between two starts. -/
def Phase.reseeding : Phase → Bool
  | .seeding _ | .initialising _ => true
  | _ => false

def Session.bound (session : Session σ η) : Option (List UInt8) :=
  match session.phase with
  | .initialising job => some job.seedHash
  | _ => session.memory

def Session.moved (session : Session σ η) (thread : Thread σ) : Outcome σ η :=
  ⟨thread, session.memory, session.builder, []⟩

variable (client : Client σ η)

def hashed (session : Session σ η) (idx : Nat) (vm : List UInt8) (job : CryptoNoteJob) (gen : Int) (thread : Thread σ) :
    Outcome σ η :=
  match client.turn idx vm session.memory job gen thread.solver with
  | .ok (solver, found) =>
    let taken := takenUp (client.lastGen thread.solver) gen job thread.current
    let owner := if client.pipelined then thread.pending else taken
    { session.moved { thread with stage := .head, solver, current := taken, pending := taken } with
      found := found.map fun hit => ⟨hit, owner, vm, session.memory⟩ }
  | .error _ => session.moved { thread with stage := .ended }

/-- `SolverThread`. -/
def act (session : Session σ η) (key : Key) (thread : Thread σ) : Turn → Option (Outcome σ η)
  | .begin =>
    if thread.stage = .starting then
      -- The token is asked for when the thread begins, of the source there is by then.
      some (session.moved (if session.phase.reseeding then { thread with stage := .ended }
        else { thread with stage := .begun, token := session.starts }))
    else none
  | .create =>
    if thread.stage = .begun then
      if client.sessionSeeds then
        session.bound.map fun seed => session.moved { thread with stage := .head, vm := some seed }
      else some (session.moved { thread with stage := .created })
    else none
  | .fail =>
    if thread.stage = .begun ∨ thread.stage = .created then some (session.moved { thread with stage := .ended }) else none
  | .build =>
    if thread.stage = .created ∧ session.builder = none then some
      { thread := { thread with stage := .building }
        builder := some key
        -- The memory is built in place, unless it is that of the seed already.
        memory := if session.memory = some (client.memoryKey thread.seed) then session.memory else none
        found := [] }
    else none
  | .attach =>
    if thread.stage = .building then some
      { thread := { thread with stage := .head, vm := some thread.seed }
        builder := none
        memory := some (client.memoryKey thread.seed)
        found := [] }
    else none
  | .check =>
    if thread.stage = .head then
      some (session.moved { thread with stage := if session.canceled thread.token then .ended else .checked })
    else none
  | .readGeneration =>
    if thread.stage = .checked then some (session.moved { thread with stage := .generation session.dialect.generation })
    else none
  | .readJob =>
    match thread.stage with
    | .generation gen =>
      match session.dialect.job with
      | some job => some (session.moved { thread with stage := .holding job gen })
      | none => some (session.moved { thread with stage := .head })
    | _ => none
  | .hash =>
    match thread.stage, thread.vm with
    | .holding job gen, some vm => some (hashed client session key.2 vm job gen thread)
    | _, _ => none

def Thread.started (seed : List UInt8) (idx : Nat) : Thread σ where
  seed
  token := 0
  stage := .starting
  vm := none
  solver := client.start idx
  current := none
  pending := none

def launch (job : CryptoNoteJob) (session : Session σ η) : Session σ η :=
  { session with
    phase := .polling
    currentSeed := some job.seedHash
    starts := session.starts + 1
    threads := fun key =>
      if key.1 = session.starts + 1 ∧ key.2 < client.threads then some (.started client job.seedHash key.2)
      else session.threads key }

def Session.stopped (session : Session σ η) : Nat → Bool := Function.update session.canceled session.starts true

def Session.abandoned (session : Session σ η) : Session σ η := { session with phase := .closed, canceled := session.stopped }

/-- The log is told the first twelve digits of the seed; a seed with fewer throws. -/
def logsSeed (job : CryptoNoteJob) : Bool := 12 ≤ 2 * job.seedHash.length

/-- `RunSessionAsync`, with the read loop and the threads. -/
def step (session : Session σ η) : Event → Option (Session σ η)
  | .publish job =>
    if session.publishing then none
    else some { session with publishing := true, dialect := session.dialect.publish job }
  | .bump =>
    if session.publishing then some { session with publishing := false, dialect := session.dialect.bump } else none
  | .loggedIn => if session.phase = .loggingIn then some { session with phase := .polling } else none
  | .poll =>
    if session.phase = .polling then
      match session.dialect.job with
      | none => some session
      | some job =>
        if session.currentSeed = some job.seedHash then some session else some { session with phase := .changed job }
    else none
  | .cancel =>
    match session.phase with
    | .changed job =>
      if session.starts = 0 then some { session with phase := .seeding job }
      else some { session with phase := .stopping job, canceled := session.stopped }
    | _ => none
  | .join =>
    -- A `Join` that times out is not noticed.
    match session.phase with
    | .stopping job => some { session with phase := .seeding job }
    | _ => none
  | .init =>
    match session.phase with
    | .seeding job =>
      if client.sessionSeeds then
        if logsSeed job then some { session with phase := .initialising job, memory := none } else some session.abandoned
      else none
    | _ => none
  | .initialised ok =>
    match session.phase with
    | .initialising job =>
      if ok then some (launch client job { session with memory := some (client.memoryKey job.seedHash) })
      else some session.abandoned
    | _ => none
  | .launch =>
    match session.phase with
    | .seeding job =>
      if client.sessionSeeds then none
      else if logsSeed job then some (launch client job session) else some session.abandoned
    | _ => none
  | .finish => if session.phase = .loggingIn ∨ session.phase = .polling then some session.abandoned else none
  | .turn key turn => do
    let thread ← session.threads key
    let outcome ← act client session key thread turn
    some { session with
      threads := Function.update session.threads key (some outcome.thread)
      memory := outcome.memory
      builder := outcome.builder
      hits := session.hits ++ outcome.found }

def readsOwnSeed (session : Session σ η) (thread : Thread σ) : Bool :=
  match thread.stage, session.dialect.job with
  | .generation gen, some job => gen = client.lastGen thread.solver || session.currentSeed = some job.seedHash
  | _, _ => true

def joined (session : Session σ η) : Bool :=
  (List.range client.threads).all fun idx =>
    (session.threads (session.starts, idx)).all fun thread => thread.stage = .ended

/-- The events that may come: no job of another seed is taken up, and no thread outlives its `Join`. -/
def mayCome (session : Session σ η) : Event → Bool
  | .join => joined client session
  | .turn key .readJob => (session.threads key).all (readsOwnSeed client session)
  | _ => true

/-- Seed and memory of a hit are those of its job. `Belongs` says what the hit has to be for the job. -/
structure Enqueued.Seeded (Belongs : List UInt8 → Option (List UInt8) → η → CryptoNoteJob → Prop) (entry : Enqueued η)
    (job : CryptoNoteJob) : Prop where
  owner : entry.job = some job
  vm : entry.vm = job.seedHash
  memory : entry.memory = some (client.memoryKey job.seedHash)
  belongs : Belongs entry.vm entry.memory entry.hit job

/-- In every run whose steps all may come, every hit was computed with the seed of its job. -/
def SeededAlong (Belongs : List UInt8 → Option (List UInt8) → η → CryptoNoteJob → Prop) : Prop :=
  ∀ memory events final, Along (step client) (fun session event => mayCome client session event = true) (.opened memory) events →
    run (step client) (.opened memory) events = some final →
      ∀ entry ∈ final.hits, ∃ job, entry.Seeded client Belongs job

/-- What is asked of a client: a thread keeps track of its jobs, and its hits are theirs. -/
structure Lawful (Tracks : σ → Option CryptoNoteJob → Option CryptoNoteJob → Prop)
    (Belongs : List UInt8 → Option (List UInt8) → η → CryptoNoteJob → Prop) : Prop where
  start : ∀ idx, Tracks (client.start idx) none none
  turn : ∀ {idx vm memory job gen solver next current pending found}, Tracks solver current pending →
    client.turn idx vm memory job gen solver = .ok (next, found) →
      ∃ taken, takenUp (client.lastGen solver) gen job current = some taken ∧ Tracks next (some taken) (some taken) ∧
        ∀ hit ∈ found, ∃ owner, (if client.pipelined then pending else some taken) = some owner ∧
          Belongs vm memory hit owner

structure Thread.Sound (Tracks : σ → Option CryptoNoteJob → Option CryptoNoteJob → Prop) (memory : Option (List UInt8))
    (seed : List UInt8) (thread : Thread σ) : Prop where
  given : thread.seed = seed
  vm : ∀ bound ∈ thread.vm, bound = seed
  memory : client.sessionSeeds = true ∨ thread.vm.isSome = true → memory = some (client.memoryKey seed)
  tracks : Tracks thread.solver thread.current thread.pending
  current : ∀ job ∈ thread.current, job.seedHash = seed
  pending : ∀ job ∈ thread.pending, job.seedHash = seed
  held : ∀ {job gen}, thread.stage = .holding job gen → gen ≠ client.lastGen thread.solver → job.seedHash = seed

/-- A thread that has not ended is one of the last start, and works with the seed of the session. -/
structure Runs (Tracks : σ → Option CryptoNoteJob → Option CryptoNoteJob → Prop) (session : Session σ η) (key : Key)
    (thread : Thread σ) : Prop where
  started : 0 < session.starts
  last : key.1 = session.starts
  inside : key.2 < client.threads
  quiet : session.phase.reseeding = false
  sound : ∃ seed, session.currentSeed = some seed ∧ thread.Sound client Tracks session.memory seed

structure Kept (Tracks : σ → Option CryptoNoteJob → Option CryptoNoteJob → Prop)
    (Belongs : List UInt8 → Option (List UInt8) → η → CryptoNoteJob → Prop) (session : Session σ η) : Prop where
  runs : ∀ key thread, session.threads key = some thread → thread.stage ≠ .ended → Runs client Tracks session key thread
  hits : ∀ entry ∈ session.hits, ∃ job, entry.Seeded client Belongs job

/-- What a turn of a thread may do to the others, to itself and to the queue. -/
structure Outcome.Fine (Tracks : σ → Option CryptoNoteJob → Option CryptoNoteJob → Prop)
    (Belongs : List UInt8 → Option (List UInt8) → η → CryptoNoteJob → Prop) (memory : Option (List UInt8)) (seed : List UInt8)
    (outcome : Outcome σ η) : Prop where
  memory : memory = some (client.memoryKey seed) → outcome.memory = some (client.memoryKey seed)
  sound : outcome.thread.stage ≠ .ended → outcome.thread.Sound client Tracks outcome.memory seed
  hits : ∀ entry ∈ outcome.found, ∃ job, entry.Seeded client Belongs job

variable {client} {Tracks : σ → Option CryptoNoteJob → Option CryptoNoteJob → Prop}
  {Belongs : List UInt8 → Option (List UInt8) → η → CryptoNoteJob → Prop} {session next : Session σ η}
  {memory : Option (List UInt8)} {seed : List UInt8} {thread : Thread σ}

theorem Thread.Sound.remember {later : Option (List UInt8)} (sound : thread.Sound client Tracks memory seed)
    (remembers : memory = some (client.memoryKey seed) → later = some (client.memoryKey seed)) :
    thread.Sound client Tracks later seed := { sound with memory := fun needed => remembers (sound.memory needed) }

theorem Thread.Sound.move {stage : Stage} (token : Nat) (sound : thread.Sound client Tracks memory seed)
    (free : ∀ job gen, stage ≠ .holding job gen) :
    Thread.Sound client Tracks memory seed { thread with stage, token } :=
  { sound with held := fun holding => absurd holding (free _ _) }

theorem Thread.Sound.bind (sound : thread.Sound client Tracks memory seed) :
    Thread.Sound client Tracks (some (client.memoryKey seed)) seed { thread with stage := .head, vm := some seed } where
  given := sound.given
  vm := by
    rintro bound ⟨⟩
    rfl
  memory _ := rfl
  tracks := sound.tracks
  current := sound.current
  pending := sound.pending
  held := nofun

theorem fine_moved {thread : Thread σ} (sound : thread.stage ≠ .ended → thread.Sound client Tracks session.memory seed) :
    (session.moved thread).Fine client Tracks Belongs session.memory seed := ⟨id, sound, nofun⟩

theorem fine_ended {thread : Thread σ} (ended : thread.stage = .ended) :
    (session.moved thread).Fine client Tracks Belongs session.memory seed := fine_moved fun running => absurd ended running

theorem hashed_fine (lawful : Lawful client Tracks Belongs) (sound : thread.Sound client Tracks session.memory seed)
    {job : CryptoNoteJob} {gen : Int} {vm : List UInt8} (holding : thread.stage = .holding job gen)
    (bound : thread.vm = some vm) (idx : Nat) :
    (hashed client session idx vm job gen thread).Fine client Tracks Belongs session.memory seed := by
  unfold hashed
  split
  next solver found turned =>
    obtain ⟨taken, now, tracks, owned⟩ := lawful.turn sound.tracks turned
    have takenSeed : taken.seedHash = seed := by
      unfold takenUp at now
      split at now
      next changed =>
        cases now
        exact sound.held holding changed
      next => exact sound.current taken now
    have ready := sound.memory (.inr (by rw [bound]; rfl))
    obtain rfl : vm = seed := sound.vm vm bound
    dsimp only
    rw [now]
    refine ⟨id, fun _ => ⟨sound.given, sound.vm, fun _ => ready, tracks, ?_, ?_, nofun⟩, ?_⟩
    · rintro same ⟨⟩
      exact takenSeed
    · rintro same ⟨⟩
      exact takenSeed
    · intro entry listed
      obtain ⟨hit, isFound, rfl⟩ := List.mem_map.mp listed
      obtain ⟨owner, isOwner, belongs⟩ := owned hit isFound
      have ownerSeed : owner.seedHash = vm := by
        cases pipelined : client.pipelined with
        | true =>
          rw [pipelined] at isOwner
          exact sound.pending owner isOwner
        | false =>
          rw [pipelined] at isOwner
          cases isOwner
          exact takenSeed
      exact ⟨owner, isOwner, ownerSeed.symm, by rw [ownerSeed, ready], belongs⟩
  next => exact fine_ended rfl

theorem bound_eq (quiet : session.phase.reseeding = false) (seeds : client.sessionSeeds = true)
    (ready : session.memory = some (client.memoryKey seed)) : session.bound = some seed := by
  unfold Session.bound
  split
  next job initialising =>
    rw [initialising] at quiet
    cases quiet
  next => rw [ready, client.memoryKey_eq seeds]

theorem act_fine (lawful : Lawful client Tracks Belongs) {key : Key} {turn : Turn} {outcome : Outcome σ η}
    (current : session.currentSeed = some seed) (quiet : session.phase.reseeding = false)
    (sound : thread.Sound client Tracks session.memory seed)
    (own : turn = .readJob → readsOwnSeed client session thread = true)
    (acted : act client session key thread turn = some outcome) :
    outcome.Fine client Tracks Belongs session.memory seed := by
  cases turn with
  | begin =>
    obtain ⟨-, ⟨⟩⟩ := ite_none_right_eq_some.mp acted
    rw [if_neg (by simp [quiet])]
    exact fine_moved fun _ => sound.move _ nofun
  | create =>
    obtain ⟨-, created⟩ := ite_none_right_eq_some.mp acted
    split at created
    next seeds =>
      have ready := sound.memory (.inl seeds)
      rw [bound_eq quiet seeds ready] at created
      cases created
      exact fine_moved fun _ => ready ▸ sound.bind
    next =>
      cases created
      exact fine_moved fun _ => sound.move _ nofun
  | fail =>
    obtain ⟨-, ⟨⟩⟩ := ite_none_right_eq_some.mp acted
    exact fine_ended rfl
  | build =>
    obtain ⟨-, ⟨⟩⟩ := ite_none_right_eq_some.mp acted
    have remembers : session.memory = some (client.memoryKey seed) →
        (if session.memory = some (client.memoryKey thread.seed) then session.memory else none) =
          some (client.memoryKey seed) := by
      intro ready
      rw [sound.given, if_pos ready, ready]
    exact ⟨remembers, fun _ => (sound.remember remembers).move _ nofun, nofun⟩
  | attach =>
    obtain ⟨-, ⟨⟩⟩ := ite_none_right_eq_some.mp acted
    obtain rfl := sound.given
    exact ⟨fun _ => rfl, fun _ => sound.bind, nofun⟩
  | check =>
    obtain ⟨-, ⟨⟩⟩ := ite_none_right_eq_some.mp acted
    refine fine_moved fun _ => sound.move _ fun job gen => ?_
    split <;> exact nofun
  | readGeneration =>
    obtain ⟨-, ⟨⟩⟩ := ite_none_right_eq_some.mp acted
    exact fine_moved fun _ => sound.move _ nofun
  | readJob =>
    simp only [act] at acted
    split at acted
    next gen atGeneration =>
      split at acted <;> cases acted
      next job published =>
        refine fine_moved fun _ => { sound with held := ?_ }
        rintro held gen ⟨⟩ changed
        have own := own rfl
        rw [readsOwnSeed, atGeneration, published] at own
        simp only [Bool.or_eq_true, decide_eq_true_eq] at own
        exact (Option.some.inj (current.symm.trans (own.resolve_left changed))).symm
      next => exact fine_moved fun _ => sound.move _ nofun
    next => cases acted
  | hash =>
    simp only [act] at acted
    split at acted
    next job gen vm holding bound =>
      cases acted
      exact hashed_fine lawful sound holding bound key.2
    next => cases acted

theorem running_of_act {key : Key} {turn : Turn} {outcome : Outcome σ η}
    (acted : act client session key thread turn = some outcome) : thread.stage ≠ .ended := by
  intro ended
  cases turn <;> simp [act, ended] at acted

theorem Runs.congr {key : Key} (runs : Runs client Tracks session key thread) (starts : next.starts = session.starts)
    (currentSeed : next.currentSeed = session.currentSeed) (memory : next.memory = session.memory)
    (phase : session.phase.reseeding = false → next.phase.reseeding = false) : Runs client Tracks next key thread where
  started := by
    rw [starts]
    exact runs.started
  last := by rw [starts, runs.last]
  inside := runs.inside
  quiet := phase runs.quiet
  sound := by
    rw [currentSeed, memory]
    exact runs.sound

theorem Kept.congr (kept : Kept client Tracks Belongs session) (threads : next.threads = session.threads)
    (hits : next.hits = session.hits) (starts : next.starts = session.starts)
    (currentSeed : next.currentSeed = session.currentSeed) (memory : next.memory = session.memory)
    (phase : session.phase.reseeding = false → next.phase.reseeding = false) : Kept client Tracks Belongs next where
  runs := by
    intro key thread found running
    rw [threads] at found
    exact (kept.runs key thread found running).congr starts currentSeed memory phase
  hits := by
    rw [hits]
    exact kept.hits

def Idle (session : Session σ η) : Prop := ∀ key thread, session.threads key = some thread → thread.stage = .ended

theorem Kept.of_idle (idle : Idle next) (hits : ∀ entry ∈ next.hits, ∃ job, entry.Seeded client Belongs job) :
    Kept client Tracks Belongs next := ⟨fun key thread found running => absurd (idle key thread found) running, hits⟩

theorem Kept.idle (kept : Kept client Tracks Belongs session)
    (stuck : ∀ key thread, session.threads key = some thread → Runs client Tracks session key thread → thread.stage = .ended) :
    Idle session := by
  intro key thread found
  by_cases ended : thread.stage = .ended
  · exact ended
  · exact stuck key thread found (kept.runs key thread found ended)

theorem Kept.idle_of_unstarted (kept : Kept client Tracks Belongs session) (never : session.starts = 0) : Idle session := by
  apply kept.idle
  intro key thread _ runs
  exact absurd never (Nat.ne_of_gt runs.started)

theorem Kept.idle_of_joined (kept : Kept client Tracks Belongs session) (ended : joined client session = true) :
    Idle session := by
  apply kept.idle
  intro key thread found runs
  have last := List.all_eq_true.mp ended key.2 (List.mem_range.mpr runs.inside)
  rw [← runs.last, found] at last
  exact of_decide_eq_true last

theorem Kept.idle_of_reseeding (kept : Kept client Tracks Belongs session) (reseeding : session.phase.reseeding = true) :
    Idle session := by
  apply kept.idle
  intro key thread _ runs
  exact absurd (runs.quiet.symm.trans reseeding) nofun

theorem kept_launch (lawful : Lawful client Tracks Belongs) {job : CryptoNoteJob} (idle : Idle session)
    (hits : ∀ entry ∈ session.hits, ∃ job, entry.Seeded client Belongs job)
    (ready : client.sessionSeeds = true → session.memory = some (client.memoryKey job.seedHash)) :
    Kept client Tracks Belongs (launch client job session) := by
  refine ⟨fun key thread found running => ?_, hits⟩
  dsimp only [launch] at found
  split at found
  next isNew =>
    cases found
    refine ⟨Nat.succ_pos _, isNew.1, isNew.2, rfl, job.seedHash, rfl, rfl, nofun, ?_, lawful.start key.2, nofun, nofun, nofun⟩
    rintro (seeds | bound)
    · exact ready seeds
    · cases bound
  next => exact absurd (idle key thread found) running

theorem kept_turn (lawful : Lawful client Tracks Belongs) {key : Key} {turn : Turn}
    (comes : mayCome client session (.turn key turn) = true) (kept : Kept client Tracks Belongs session)
    (stepped : step client session (.turn key turn) = some next) : Kept client Tracks Belongs next := by
  obtain ⟨thread, found, stepped⟩ := bind_eq_some_iff.mp stepped
  obtain ⟨outcome, acted, ⟨⟩⟩ := bind_eq_some_iff.mp stepped
  obtain ⟨started, last, inside, quiet, seed, current, sound⟩ := kept.runs key thread found (running_of_act acted)
  have own : turn = .readJob → readsOwnSeed client session thread = true := by
    rintro rfl
    simpa only [mayCome, found, all_some] using comes
  have fine := act_fine lawful current quiet sound own acted
  refine ⟨fun other moved now running => ?_, fun entry listed => ?_⟩
  · rcases update_eq_some now with ⟨rfl, same⟩ | ⟨-, before⟩
    · cases same
      exact ⟨started, last, inside, quiet, seed, current, fine.sound running⟩
    · obtain ⟨started, last, inside, quiet, _, same, sound⟩ := kept.runs other moved before running
      obtain rfl := Option.some.inj (current.symm.trans same)
      exact ⟨started, last, inside, quiet, seed, current, sound.remember fine.memory⟩
  · rcases List.mem_append.mp listed with earlier | new
    · exact kept.hits entry earlier
    · exact fine.hits entry new

theorem kept_step (lawful : Lawful client Tracks Belongs) {event : Event} (comes : mayCome client session event = true)
    (kept : Kept client Tracks Belongs session) (stepped : step client session event = some next) :
    Kept client Tracks Belongs next := by
  cases event with
  | publish job =>
    obtain ⟨-, ⟨⟩⟩ := ite_none_left_eq_some.mp stepped
    exact kept.congr rfl rfl rfl rfl rfl id
  | bump =>
    obtain ⟨-, ⟨⟩⟩ := ite_none_right_eq_some.mp stepped
    exact kept.congr rfl rfl rfl rfl rfl id
  | loggedIn =>
    obtain ⟨-, ⟨⟩⟩ := ite_none_right_eq_some.mp stepped
    exact kept.congr rfl rfl rfl rfl rfl fun _ => rfl
  | poll =>
    obtain ⟨-, polled⟩ := ite_none_right_eq_some.mp stepped
    split at polled
    · cases polled
      exact kept
    · split at polled <;> cases polled
      · exact kept
      · exact kept.congr rfl rfl rfl rfl rfl fun _ => rfl
  | cancel =>
    simp only [step] at stepped
    split at stepped
    next job changed =>
      split at stepped <;> cases stepped
      next never => exact .of_idle (kept.idle_of_unstarted never) kept.hits
      next => exact kept.congr rfl rfl rfl rfl rfl fun _ => rfl
    next => cases stepped
  | join =>
    simp only [step] at stepped
    split at stepped
    next job stopping =>
      cases stepped
      exact .of_idle (kept.idle_of_joined comes) kept.hits
    next => cases stepped
  | init =>
    simp only [step] at stepped
    split at stepped
    next job seeding =>
      obtain ⟨-, begun⟩ := ite_none_right_eq_some.mp stepped
      have idle := kept.idle_of_reseeding (by rw [seeding]; rfl)
      split at begun <;> cases begun
      · exact .of_idle idle kept.hits
      · exact .of_idle idle kept.hits
    next => cases stepped
  | initialised ok =>
    simp only [step] at stepped
    split at stepped
    next job initialising =>
      have idle := kept.idle_of_reseeding (by rw [initialising]; rfl)
      split at stepped <;> cases stepped
      · exact kept_launch lawful idle kept.hits fun _ => rfl
      · exact .of_idle idle kept.hits
    next => cases stepped
  | launch =>
    simp only [step] at stepped
    split at stepped
    next job seeding =>
      obtain ⟨threadsSeed, launched⟩ := ite_none_left_eq_some.mp stepped
      have idle := kept.idle_of_reseeding (by rw [seeding]; rfl)
      split at launched <;> cases launched
      · exact kept_launch lawful idle kept.hits fun seeds => absurd seeds threadsSeed
      · exact .of_idle idle kept.hits
    next => cases stepped
  | finish =>
    obtain ⟨-, ⟨⟩⟩ := ite_none_right_eq_some.mp stepped
    exact kept.congr rfl rfl rfl rfl rfl fun _ => rfl
  | turn key turn => exact kept_turn lawful comes kept stepped

theorem seededAlong_of_lawful (lawful : Lawful client Tracks Belongs) : SeededAlong client Belongs := by
  intro memory events final along ran
  have opened : Kept client Tracks Belongs (.opened memory) := by
    apply Kept.of_idle
    · intro key thread found
      cases found
    · intro entry listed
      cases listed
  exact (run_invariant (Kept client Tracks Belongs) (kept_step lawful) along opened ran).hits

end machine
end ArcMiner.Stratum.SeededSession
