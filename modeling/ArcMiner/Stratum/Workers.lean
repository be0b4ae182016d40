import ArcMiner.Library.Machine
import ArcMiner.Stratum.BitcoinStratumDialect
import ArcMiner.Stratum.SearchCalls
import ArcMiner.Stratum.ShareTargets

/-! The worker threads of the gr, csd and sha3t clients, beside the read loop that they share a dialect with.

A worker takes a snapshot of the published work and searches with the target of its difficulty. How a
header is built and hashed and how a difficulty becomes a target are parameters.
-/

namespace ArcMiner.Stratum.Workers

open Library Library.CSharp Library.Machine Option UInt32 BitcoinStratumDialect

structure Share (δ : Type) where
  jobId : String
  en2Hex : String
  ntimeHex : String
  nonce : UInt32
  hash : δ
  since : Nat

structure Rig (ι ω δ : Type) where
  work : BitcoinStratumWork
  reading : Bool
  /-- The difficulty in force after each message; the number of the last one is the time. -/
  history : List Pool.Double
  workers : ι → ω
  shares : List (Share δ)

def Rig.now {ι ω δ : Type} (rig : Rig ι ω δ) : Nat := rig.history.length - 1

def Rig.started {ι ω δ : Type} (workers : ι → ω) : Rig ι ω δ where
  work := initial
  reading := true
  history := [initial.difficulty]
  workers
  shares := []

inductive RigEvent (ι θ : Type) where
  | notification (method : String) (root : Json)
  | subscribed (result : Option Json)
  | turn (i : ι) (turn : θ)

def InForce {δ : Type} (meets : δ → Pool.Double → Prop) (history : List Pool.Double) (share : Share δ) : Prop :=
  ∃ i difficulty, share.since ≤ i ∧ history[i]? = some difficulty ∧ meets share.hash difficulty

section rig
variable {ι ω θ δ : Type} [DecidableEq ι] (lookup : JsonElement.Lookup) (tryGetDouble : List Char → Option Pool.Double)
  (act : BitcoinStratumWork → Nat → ω → θ → Option (ω × List (Share δ)))

def Rig.publish (work : BitcoinStratumWork) (rig : Rig ι ω δ) : Rig ι ω δ :=
  { rig with work, history := rig.history ++ [work.difficulty] }

def rigStep (rig : Rig ι ω δ) : RigEvent ι θ → Option (Rig ι ω δ)
  | .notification method root =>
    if rig.reading then
      match onNotification lookup tryGetDouble method root rig.work with
      | .ok work => some (rig.publish work)
      -- What the handler throws ends the read loop.
      | .error _ => some { rig with reading := false }
    else none
  | .subscribed result =>
    match applySubscribeResult result rig.work with
    | .ok work => some (rig.publish work)
    | .error _ => some rig
  | .turn i turn => do
    let (worker, found) ← act rig.work rig.now (rig.workers i) turn
    some { rig with workers := Function.update rig.workers i worker, shares := rig.shares ++ found }

def mayCome (may : BitcoinStratumWork → ω → θ → Bool) (rig : Rig ι ω δ) : RigEvent ι θ → Bool
  | .turn i turn => may rig.work (rig.workers i) turn
  | _ => true

/-- In every run whose steps all may come, every share meets a difficulty of its time. -/
def HonoursAlong (may : BitcoinStratumWork → ω → θ → Bool) (workers : ι → ω) (meets : δ → Pool.Double → Prop) : Prop :=
  ∀ events final, Along (rigStep lookup tryGetDouble act) (fun rig event => mayCome may rig event = true) (.started workers) events →
    run (rigStep lookup tryGetDouble act) (.started workers) events = some final →
      ∀ share ∈ final.shares, InForce meets final.history share

/-- What is kept: the time, what holds of the workers, and every share. -/
structure Kept (fits : List Pool.Double → ω → Prop) (meets : δ → Pool.Double → Prop) (rig : Rig ι ω δ) : Prop where
  current : rig.history[rig.now]? = some rig.work.difficulty
  fits : ∀ i, fits rig.history (rig.workers i)
  shares : ∀ share ∈ rig.shares, InForce meets rig.history share

variable {lookup tryGetDouble act} {fits : List Pool.Double → ω → Prop} {meets : δ → Pool.Double → Prop}
  {may : BitcoinStratumWork → ω → θ → Bool} {rig next : Rig ι ω δ} {history : List Pool.Double}

theorem getElem?_append_of_some {i : Nat} {difficulty : Pool.Double} (found : history[i]? = some difficulty) (later : List Pool.Double) : (history ++ later)[i]? = some difficulty := by
  obtain ⟨inside, -⟩ := List.getElem?_eq_some_iff.mp found
  rw [List.getElem?_append_left inside, found]

theorem InForce.append {share : Share δ} (inForce : InForce meets history share)
    (later : List Pool.Double) : InForce meets (history ++ later) share := by
  obtain ⟨i, difficulty, since, found, met⟩ := inForce
  exact ⟨i, difficulty, since, getElem?_append_of_some found later, met⟩

variable (grows : ∀ {history worker}, fits history worker → ∀ later, fits (history ++ later) worker)
include grows

omit [DecidableEq ι] in
theorem kept_publish (holds : Kept fits meets rig) (work : BitcoinStratumWork) : Kept fits meets (rig.publish work) where
  current := by simp [Rig.publish, Rig.now]
  fits i := grows (holds.fits i) _
  shares share found := (holds.shares share found).append _

variable (acts : ∀ {work history worker turn after found}, history[history.length - 1]? = some work.difficulty →
  may work worker turn = true → fits history worker → act work (history.length - 1) worker turn = some (after, found) →
    fits history after ∧ ∀ share ∈ found, InForce meets history share)
include acts

theorem kept_step {event : RigEvent ι θ} (comes : mayCome may rig event = true) (holds : Kept fits meets rig)
    (stepped : rigStep lookup tryGetDouble act rig event = some next) : Kept fits meets next := by
  cases event with
  | notification method root =>
    simp only [rigStep, ite_none_right_eq_some] at stepped
    obtain ⟨-, handled⟩ := stepped
    split at handled
    · cases handled
      exact kept_publish grows holds _
    · cases handled
      exact ⟨holds.current, holds.fits, holds.shares⟩
  | subscribed result =>
    simp only [rigStep] at stepped
    split at stepped
    · cases stepped
      exact kept_publish grows holds _
    · cases stepped
      exact holds
  | turn i turn =>
    obtain ⟨⟨after, found⟩, acted, ⟨⟩⟩ := bind_eq_some_iff.mp stepped
    obtain ⟨fitsAfter, inForce⟩ := acts holds.current comes (holds.fits i) acted
    refine ⟨holds.current, ?_, fun share isShare => ?_⟩
    · apply (Function.forall_update_iff rig.workers fun _ worker => fits rig.history worker).mpr
      exact ⟨fitsAfter, fun other _ => holds.fits other⟩
    · rcases List.mem_append.mp isShare with earlier | new
      · exact holds.shares share earlier
      · exact inForce share new

theorem honoursAlong_of_acts {workers : ι → ω} (starts : ∀ history i, fits history (workers i)) :
    HonoursAlong lookup tryGetDouble act may workers meets := by
  intro events final along ran
  have started : Kept fits meets (.started workers : Rig ι ω δ) := ⟨rfl, fun i => starts _ i, nofun⟩
  exact (run_invariant (Kept fits meets) (kept_step grows acts) along started ran).shares

end rig

/-- A thread that waits for a native call knows when it began. -/
inductive Phase where
  | top
  | ready
  | calling (since : Nat)
  /-- After a call, before the generation is read again. -/
  | checking
  | ended
deriving DecidableEq

/-- A call in progress began while this difficulty was in force. -/
def Timed (history : List Pool.Double) (phase : Phase) (difficulty : Pool.Double) : Prop :=
  ∀ since, phase = .calling since → history[since]? = some difficulty

variable {history : List Pool.Double} {phase : Phase} {difficulty : Pool.Double}

theorem Timed.append (timed : Timed history phase difficulty) (later : List Pool.Double) : Timed (history ++ later) phase difficulty :=
  fun since calling => getElem?_append_of_some (timed since calling) later

theorem Timed.of_not_calling (idle : ∀ since, phase ≠ .calling since) : Timed history phase difficulty :=
  fun since calling => absurd calling (idle since)

theorem timed_now (current : history[history.length - 1]? = some difficulty) : Timed history (.calling (history.length - 1)) difficulty := by
  rintro since ⟨⟩
  exact current

section gr

structure GrClient where
  buildHeader : BitcoinStratumJob → String → Int → Result (List UInt8 × String)
  diff256Target : Pool.Double → Words
  hashOcta : List UInt8 → Digest
  totalThreads : UInt32

namespace GrClient

def lanes : Nat := 8

structure Worker where
  idx : UInt32
  phase : Phase
  lastJobGen : Int
  jobId : String
  ntimeHex : String
  en2Hex : String
  header : List UInt8
  /-- The difficulty of the snapshot that the target was made from. -/
  difficulty : Pool.Double
  nonce : UInt32

def Worker.started (idx : UInt32) : Worker where
  idx
  phase := .top
  lastJobGen := -1
  jobId := ""
  ntimeHex := ""
  en2Hex := "00000000"
  header := List.replicate 80 0
  difficulty := .finite 1
  nonce := 0

inductive Turn where
  | snapshot
  | hashOcta
  | harvest
  | recheck
  | stop
deriving DecidableEq

variable (client : GrClient)

/-- A new generation replaces the header; the nonces start again in any case. -/
def take (work : BitcoinStratumWork) (job : BitcoinStratumJob) (worker : Worker) : Worker :=
  let ready := { worker with
    phase := .ready
    difficulty := work.difficulty
    nonce := worker.idx * ofNat lanes }
  if work.generation ≠ worker.lastJobGen then
    match client.buildHeader job work.extranonce1 work.extranonce2Size with
    | .ok (header, en2Hex) => { ready with
        lastJobGen := work.generation
        jobId := job.jobId
        ntimeHex := job.ntimeHex
        en2Hex
        header }
    | .error _ => { worker with phase := .ended }
  else ready

def lane (worker : Worker) (nonce : UInt32) : List UInt8 := worker.header.take 76 ++ wordBytes nonce

def harvest (since : Nat) (worker : Worker) : List (Share Digest) :=
  ((List.range lanes).map fun l => worker.nonce + ofNat l).filterMap fun nonce =>
    let hash := client.hashOcta (lane worker nonce)
    if GrHash.meetsTarget hash (client.diff256Target worker.difficulty) then
      some ⟨worker.jobId, worker.en2Hex, worker.ntimeHex, nonce, hash, since⟩
    else none

def act (work : BitcoinStratumWork) (now : Nat) (worker : Worker) : Turn → Option (Worker × List (Share Digest))
  | .snapshot =>
    if worker.phase = .top then
      match work.job with
      | none => some (worker, [])
      | some job => if work.extranonce1.length = 0 then some (worker, []) else some (client.take work job worker, [])
    else none
  | .hashOcta => if worker.phase = .ready then some ({ worker with phase := .calling now }, []) else none
  | .harvest =>
    match worker.phase with
    | .calling since => some ({ worker with
        phase := .checking
        nonce := worker.nonce + client.totalThreads * ofNat lanes }, client.harvest since worker)
    | _ => none
  | .recheck =>
    if worker.phase = .checking then
      some ({ worker with phase := if work.generation ≠ worker.lastJobGen then .top else .ready }, [])
    else none
  | .stop => if worker.phase = .top ∨ worker.phase = .ready then some ({ worker with phase := .ended }, []) else none

/-- When a native call begins, the difficulty of the snapshot is the one in force. -/
def fresh (work : BitcoinStratumWork) (worker : Worker) : Turn → Bool
  | .hashOcta => worker.difficulty = work.difficulty
  | _ => true

def Fits (history : List Pool.Double) (worker : Worker) : Prop := Timed history worker.phase worker.difficulty

def Meets (hash : Digest) (difficulty : Pool.Double) : Prop :=
  GrHash.hashValue hash ≤ GrHash.targetValue (client.diff256Target difficulty)

variable {client}

theorem take_phase (work : BitcoinStratumWork) (job : BitcoinStratumJob) (worker : Worker) (since : Nat) :
    (client.take work job worker).phase ≠ .calling since := by
  unfold take
  split
  · split <;> simp
  · simp

theorem act_fits {work : BitcoinStratumWork} {worker after : Worker} {turn : Turn}
    {found : List (Share Digest)} (current : history[history.length - 1]? = some work.difficulty)
    (isFresh : fresh work worker turn = true) (fits : Fits history worker)
    (acted : client.act work (history.length - 1) worker turn = some (after, found)) :
    Fits history after ∧ ∀ share ∈ found, InForce client.Meets history share := by
  cases turn with
  | snapshot =>
    simp only [act, ite_none_right_eq_some] at acted
    obtain ⟨top, taken⟩ := acted
    split at taken
    · cases taken
      exact ⟨fits, nofun⟩
    · split at taken <;> cases taken
      · exact ⟨fits, nofun⟩
      · exact ⟨.of_not_calling (take_phase _ _ _), nofun⟩
  | hashOcta =>
    simp only [act, ite_none_right_eq_some, Option.some.injEq, Prod.mk.injEq] at acted
    obtain ⟨-, rfl, rfl⟩ := acted
    have same := of_decide_eq_true isFresh
    exact ⟨timed_now (current.trans (congrArg some same.symm)), nofun⟩
  | harvest =>
    simp only [act] at acted
    split at acted
    next since calling =>
      cases acted
      refine ⟨nofun, fun share found => ?_⟩
      obtain ⟨nonce, -, taken⟩ := List.mem_filterMap.mp found
      obtain ⟨met, ⟨⟩⟩ := ite_none_right_eq_some.mp taken
      exact ⟨since, _, Nat.le_refl _, fits since calling, (GrHash.meetsTarget_iff _ _).mp met⟩
    next => cases acted
  | recheck =>
    simp only [act, ite_none_right_eq_some, Option.some.injEq, Prod.mk.injEq] at acted
    obtain ⟨-, rfl, rfl⟩ := acted
    refine ⟨fun since calling => ?_, nofun⟩
    split at calling <;> cases calling
  | stop =>
    simp only [act, ite_none_right_eq_some, Option.some.injEq, Prod.mk.injEq] at acted
    obtain ⟨-, rfl, rfl⟩ := acted
    exact ⟨nofun, nofun⟩

end GrClient
end gr

section slices

/-- What a client that searches in slices is made of. `υ` is what a slice is searched in. -/
structure SliceClient (υ τ δ : Type) where
  /-- Before the first job. -/
  nothing : υ
  rebuild : BitcoinStratumJob → String → Int → UInt32 → Result (υ × String)
  pdiffTarget : Pool.Double → τ
  hash : υ → UInt32 → δ
  leTarget : δ → τ → Bool
  verifyOnHost : υ → UInt32 → τ → Bool
  sliceNonces : UInt32
  noncesPerThread : UInt32
  deviceCount : UInt32

namespace SliceClient
variable {υ τ δ : Type}

structure Worker (υ : Type) where
  ord : UInt32
  phase : Phase
  miningJob : String
  en2 : UInt32
  baseNonce : UInt64
  unit : υ
  en2Hex : String
  ntimeHex : String
  jobId : String
  /-- The snapshot of this slice. -/
  work : BitcoinStratumWork

inductive Turn where
  | snapshot
  | search
  | failed
  /-- The winning nonces, in the order in which they took their slots. -/
  | found (slots : List UInt32)
  | stop

variable (client : SliceClient υ τ δ)

def Worker.started (ord : UInt32) : Worker υ where
  ord
  phase := .top
  miningJob := ""
  en2 := ord
  baseNonce := 0
  unit := client.nothing
  en2Hex := ""
  ntimeHex := ""
  jobId := ""
  work := initial

/-- A job of another name is searched from the start. -/
def take (work : BitcoinStratumWork) (job : BitcoinStratumJob) (worker : Worker υ) : Worker υ :=
  if job.jobId ≠ worker.miningJob then
    match client.rebuild job work.extranonce1 work.extranonce2Size worker.ord with
    | .ok (unit, en2Hex) => { worker with
        phase := .ready
        miningJob := job.jobId
        en2 := worker.ord
        baseNonce := 0
        unit
        en2Hex
        ntimeHex := job.ntimeHex
        jobId := job.jobId
        work }
    | .error _ => { worker with phase := .ended }
  else { worker with phase := .ready, work }

def target (worker : Worker υ) : τ := client.pdiffTarget worker.work.difficulty

def wins (worker : Worker υ) (nonce : UInt32) : Bool := client.leTarget (client.hash worker.unit nonce) (client.target worker)

def winners (worker : Worker υ) : List UInt32 :=
  NonceSearch.winners (client.wins worker) worker.baseNonce.toUInt32 client.sliceNonces client.noncesPerThread

def report (since : Nat) (slots : List UInt32) (worker : Worker υ) : List (Share δ) :=
  ((NonceSearch.found slots).filter fun nonce => client.verifyOnHost worker.unit nonce (client.target worker)).map
    fun nonce => ⟨worker.jobId, worker.en2Hex, worker.ntimeHex, nonce, client.hash worker.unit nonce, since⟩

/-- After the last slice of a coinbase the next one of this device is built. -/
def advance (worker : Worker υ) : Worker υ :=
  let baseNonce := worker.baseNonce + client.sliceNonces.toUInt64
  if baseNonce ≥ 0x100000000 then
    let en2 := worker.en2 + client.deviceCount
    match worker.work.job with
    | some job =>
      match client.rebuild job worker.work.extranonce1 worker.work.extranonce2Size en2 with
      | .ok (unit, en2Hex) => { worker with phase := .top, baseNonce := 0, en2, unit, en2Hex }
      | .error _ => { worker with phase := .ended }
    | none => { worker with phase := .ended }
  else { worker with phase := .top, baseNonce }

/-- `SolverLoop`. -/
def act (work : BitcoinStratumWork) (now : Nat) (worker : Worker υ) : Turn → Option (Worker υ × List (Share δ))
  | .snapshot =>
    if worker.phase = .top then
      match work.job with
      | none => some (worker, [])
      | some job => if work.extranonce1.length = 0 then some (worker, []) else some (client.take work job worker, [])
    else none
  | .search => if worker.phase = .ready then some ({ worker with phase := .calling now }, []) else none
  | .failed =>
    match worker.phase with
    | .calling _ => some ({ worker with phase := .top }, [])
    | _ => none
  | .found slots =>
    match worker.phase with
    | .calling since =>
      if slots.isPerm (client.winners worker) then some (client.advance worker, client.report since slots worker) else none
    | _ => none
  | .stop => if worker.phase = .top then some ({ worker with phase := .ended }, []) else none

def fresh (work : BitcoinStratumWork) (worker : Worker υ) : Turn → Bool
  | .search => worker.work.difficulty = work.difficulty
  | _ => true

def Fits (history : List Pool.Double) (worker : Worker υ) : Prop := Timed history worker.phase worker.work.difficulty

variable {client} {value : δ → Nat} {targetValue : τ → Nat}

theorem take_phase (work : BitcoinStratumWork) (job : BitcoinStratumJob) (worker : Worker υ) (since : Nat) :
    (client.take work job worker).phase ≠ .calling since := by
  unfold take
  split
  · split <;> simp
  · simp

theorem advance_phase (worker : Worker υ) (since : Nat) : (client.advance worker).phase ≠ .calling since := by
  unfold advance
  dsimp only
  split
  · split
    · split <;> simp
    · simp
  · simp

theorem act_fits (meaning : ∀ hash target, client.leTarget hash target = true ↔ value hash ≤ targetValue target)
    {work : BitcoinStratumWork} {worker after : Worker υ} {turn : Turn}
    {found : List (Share δ)} (current : history[history.length - 1]? = some work.difficulty)
    (isFresh : fresh work worker turn = true) (fits : Fits history worker)
    (acted : client.act work (history.length - 1) worker turn = some (after, found)) :
    Fits history after ∧ ∀ share ∈ found,
      InForce (fun hash difficulty => value hash ≤ targetValue (client.pdiffTarget difficulty)) history share := by
  cases turn with
  | snapshot =>
    simp only [act, ite_none_right_eq_some] at acted
    obtain ⟨top, taken⟩ := acted
    split at taken
    · cases taken
      exact ⟨fits, nofun⟩
    · split at taken <;> cases taken
      · exact ⟨fits, nofun⟩
      · exact ⟨.of_not_calling (take_phase _ _ _), nofun⟩
  | search =>
    simp only [act, ite_none_right_eq_some, Option.some.injEq, Prod.mk.injEq] at acted
    obtain ⟨-, rfl, rfl⟩ := acted
    have same := of_decide_eq_true isFresh
    exact ⟨timed_now (current.trans (congrArg some same.symm)), nofun⟩
  | failed =>
    simp only [act] at acted
    split at acted <;> cases acted
    exact ⟨nofun, nofun⟩
  | found slots =>
    simp only [act] at acted
    split at acted
    next since calling =>
      obtain ⟨ordered, ⟨⟩⟩ := ite_none_right_eq_some.mp acted
      refine ⟨.of_not_calling (advance_phase _), fun share reported => ?_⟩
      obtain ⟨nonce, kept, rfl⟩ := List.mem_map.mp reported
      have won := NonceSearch.win_of_found ordered (List.mem_filter.mp kept).1
      exact ⟨since, _, Nat.le_refl _, fits since calling, (meaning _ _).mp won⟩
    next => cases acted
  | stop =>
    simp only [act, ite_none_right_eq_some, Option.some.injEq, Prod.mk.injEq] at acted
    obtain ⟨-, rfl, rfl⟩ := acted
    exact ⟨nofun, nofun⟩

end SliceClient

/-- The csd client: the midstate and the tail of a header, searched by the kernel alone. -/
def csdClient (rebuild : BitcoinStratumJob → String → Int → UInt32 → Result ((List UInt32 × List UInt32) × String))
    (pdiffTarget : Pool.Double → Words) (sha256dTail : List UInt32 → List UInt32 → UInt32 → Words) (deviceCount : UInt32) :
    SliceClient (List UInt32 × List UInt32) Words Words where
  nothing := ([], [])
  rebuild
  pdiffTarget
  hash unit nonce := sha256dTail unit.1 unit.2 nonce
  leTarget := CsdSha256d.leTarget
  verifyOnHost _ _ _ := true
  sliceNonces := 0x10000000
  noncesPerThread := 8
  deviceCount

/-- The sha3t client: a header and its lanes. Where the platform has SHA-3, the host hashes a found nonce again. -/
def sha3tClient (rebuild : BitcoinStratumJob → String → Int → UInt32 → Result ((List UInt8 × List UInt64) × String))
    (pdiffTarget : Pool.Double → Lanes) (sha3tHash : List UInt64 → UInt32 → Lanes) (sha3t : List UInt8 → Lanes)
    (isSupported : Bool) (noncesPerThread deviceCount : UInt32) : SliceClient (List UInt8 × List UInt64) Lanes Lanes where
  nothing := ([], [])
  rebuild
  pdiffTarget
  hash unit nonce := sha3tHash unit.2 nonce
  leTarget := Sha3tKeccak.leTarget
  verifyOnHost unit nonce target := !isSupported || Sha3tHash.meetsTarget (sha3t (unit.1.take 76 ++ wordBytes nonce)) target
  sliceNonces := 0x1000000
  noncesPerThread
  deviceCount

end slices

/-- If every native call begins while the difficulty of its snapshot is in force, every share meets a difficulty
that was in force when its call began, or later. -/
theorem shares_in_force_along {ι : Type} [DecidableEq ι] (lookup : JsonElement.Lookup)
    (tryGetDouble : List Char → Option Pool.Double) (number : ι → UInt32) : (∀ client : GrClient,
      HonoursAlong lookup tryGetDouble client.act GrClient.fresh (fun i => .started (number i)) client.Meets) ∧
    (∀ rebuild pdiffTarget sha256dTail deviceCount,
      HonoursAlong lookup tryGetDouble (csdClient rebuild pdiffTarget sha256dTail deviceCount).act SliceClient.fresh
        (fun i => .started (csdClient rebuild pdiffTarget sha256dTail deviceCount) (number i))
        fun hash difficulty => CsdSha256d.value hash ≤ CsdSha256d.value (pdiffTarget difficulty)) ∧
    (∀ rebuild pdiffTarget sha3tHash sha3t isSupported noncesPerThread deviceCount,
      HonoursAlong lookup tryGetDouble
        (sha3tClient rebuild pdiffTarget sha3tHash sha3t isSupported noncesPerThread deviceCount).act SliceClient.fresh
        (fun i => .started (sha3tClient rebuild pdiffTarget sha3tHash sha3t isSupported noncesPerThread deviceCount) (number i))
        fun hash difficulty => Sha3tHash.value hash ≤ Sha3tHash.value (pdiffTarget difficulty)) := by
  refine ⟨fun client => ?_, fun _ _ _ _ => ?_, fun _ _ _ _ _ _ _ => ?_⟩
  · exact honoursAlong_of_acts Timed.append GrClient.act_fits fun _ _ => nofun
  · exact honoursAlong_of_acts Timed.append (SliceClient.act_fits CsdSha256d.leTarget_iff) fun _ _ => nofun
  · exact honoursAlong_of_acts Timed.append (SliceClient.act_fits Sha3tHash.meetsTarget_iff) fun _ _ => nofun

def text (value : String) : Json := .string (Utf16.encode value.toList)

def pushed (method : String) (params : List Json) : RigEvent Unit GrClient.Turn :=
  .notification method (.object [(Utf16.encode "params".toList, .array params)])

def subscription : RigEvent Unit GrClient.Turn := .subscribed (some (.array [.null, text "00"]))

def notify : RigEvent Unit GrClient.Turn :=
  pushed "mining.notify" [text "j", text "", text "", text "", .array [], text "1", text "1", text "1"]

def easyClient : GrClient where
  buildHeader _ _ _ := .ok ([], "")
  diff256Target difficulty := if difficulty = .finite 1 then Vector.replicate 8 1 else Vector.replicate 8 0
  hashOcta _ := Vector.replicate 32 0 |>.set 0 1
  totalThreads := 1

def two (_ : List Char) : Option Pool.Double := some (.finite 2)

def firstCall : List (RigEvent Unit GrClient.Turn) :=
  [subscription, notify, .turn () .snapshot, .turn () .hashOcta, .turn () .harvest]

theorem shares_in_force_along_firstCall :
    Along (rigStep .smooth two easyClient.act) (fun rig event => mayCome GrClient.fresh rig event = true)
        (.started fun _ => .started 0) firstCall ∧
      ∃ final, run (rigStep .smooth two easyClient.act) (.started fun _ => .started 0) firstCall = some final ∧
        final.shares.length = 8 ∧ ∀ share ∈ final.shares, InForce easyClient.Meets final.history share := by
  have along : Along (rigStep .smooth two easyClient.act) (fun rig event => mayCome GrClient.fresh rig event = true)
      (.started fun _ => .started 0) firstCall := by decide +kernel
  have reached : ∃ final, run (rigStep .smooth two easyClient.act) (.started fun _ => .started 0) firstCall = some final ∧
      final.shares.length = 8 := ⟨_, rfl, rfl⟩
  obtain ⟨final, ran, eight⟩ := reached
  exact ⟨along, final, ran, eight, (shares_in_force_along .smooth two fun _ => 0).1 easyClient firstCall final along ran⟩

def raisedInLoop : List (RigEvent Unit GrClient.Turn) :=
  firstCall ++ [.turn () .recheck, pushed "mining.set_difficulty" [.number ['2']], .turn () .hashOcta, .turn () .harvest]

/-- The inner loop of gr looks at the generation only, which a new difficulty does not change. -/
theorem share_of_old_difficulty :
    ∃ final, run (rigStep .smooth two easyClient.act) (.started fun _ => .started 0) raisedInLoop = some final ∧
      ∃ share ∈ final.shares, ¬InForce easyClient.Meets final.history share := by
  have reached : ∃ final, run (rigStep .smooth two easyClient.act) (.started fun _ => .started 0) raisedInLoop = some final ∧
      final.history = [.finite 1, .finite 1, .finite 1, .finite 2] ∧
      ∃ share, final.shares[8]? = some share ∧ share.since = 3 ∧ share.hash = easyClient.hashOcta [] :=
    ⟨_, rfl, rfl, _, rfl, rfl, rfl⟩
  obtain ⟨final, ran, history, share, listed, since, hash⟩ := reached
  refine ⟨final, ran, share, List.mem_of_getElem? listed, ?_⟩
  rintro ⟨i, difficulty, notBefore, found, met⟩
  rw [history] at found
  rw [since] at notBefore
  obtain ⟨inside, isTwo⟩ := List.getElem?_eq_some_iff.mp found
  -- Only the last difficulty is not before the call.
  obtain rfl : i = 3 := Nat.le_antisymm (Nat.le_of_lt_succ inside) notBefore
  obtain rfl : .finite 2 = difficulty := isTwo
  rw [hash] at met
  exact absurd met (by unfold GrClient.Meets; decide +kernel)

end ArcMiner.Stratum.Workers
