import ArcMiner.AkoyaCrypto.Hex
import ArcMiner.Library.Action
import ArcMiner.Library.Machine
import ArcMiner.Library.Utf16

/-! The identity key of a miner, over connects and restarts.

The session file holds at most one record. File operations succeed, and a record is read back as it
was written, so the file is an optional record. A session object lives from one reconnect to the next.
What the pool answers is part of the event.
-/

namespace ArcMiner.Pool

open Library Library.CSharp Library.Action Library.Machine AkoyaCrypto

structure SessionRecord where
  minerIdHex : String
  sessionToken : String
  identityKey : String
  poolEndpoint : String
  lastSeenUtc : String
deriving DecidableEq

namespace SessionStore

def lengthOf (text : String) : Nat := (Utf16.encode text.toList).length

def isHexChar (c : Char) : Bool := '0' ≤ c && c ≤ '9' || 'a' ≤ c && c ≤ 'f' || 'A' ≤ c && c ≤ 'F'

def validate (record : SessionRecord) : Option String :=
  if lengthOf record.minerIdHex ≠ 32 then
    some ("MinerIdHex must be 32 hex chars (got " ++ toString (lengthOf record.minerIdHex) ++ ")")
  else if !record.minerIdHex.toList.all isHexChar then some "MinerIdHex contains non-hex chars"
  else if lengthOf record.sessionToken > 4096 then some "SessionToken exceeds max length"
  else if record.identityKey = "" then some "IdentityKey is empty"
  else if lengthOf record.identityKey > 4096 then some "IdentityKey exceeds max length"
  else if record.poolEndpoint = "" then some "PoolEndpoint is empty"
  else if record.lastSeenUtc = "" then some "LastSeenUtc is empty"
  else none

def save (record : SessionRecord) : Result SessionRecord :=
  match validate record with
  | some err => .error (.invalidData ("session record invalid: " ++ err))
  | none => .ok record

def trySave (file : Option SessionRecord) (record : SessionRecord) : Option SessionRecord :=
  match save record with
  | .ok saved => some saved
  | .error _ => file

def clearSessionToken (file : Option SessionRecord) : Option SessionRecord :=
  match file with
  | none => none
  | some existing => trySave file { existing with sessionToken := "" }

end SessionStore

namespace SessionIdentity

open SessionStore

/-- The pool of a session. Strings are compared as `StringComparison.OrdinalIgnoreCase` does. -/
structure Endpoint where
  endpoint : String
  equalsIgnoreCase : String → String → Bool
  reflexive : ∀ text, equalsIgnoreCase text text = true

def Endpoint.tryLoad (pool : Endpoint) (file : Option SessionRecord) : Option SessionRecord :=
  match file with
  | none => none
  | some record =>
    if !pool.equalsIgnoreCase record.poolEndpoint pool.endpoint then none
    else if (validate record).isSome then none
    else some record

/-- How `TryResumeAsync` ends. -/
inductive Resume where
  /-- Cancelled, or an exception that is not caught. -/
  | threw (why : Exception)
  /-- The call failed or timed out. -/
  | noResponse
  | response (success : Bool) (sessionTokenRefreshed : String)

inductive Register where
  | threw (why : Exception)
  | rejected (errorMessage : String)
  | accepted (minerId : List UInt8) (sessionToken identityKey : String)

structure Session where
  minerId : Option (List UInt8)
  sessionToken : Option String
  identityKey : Option String

/-- A `Register` request, with the keys the pool had issued before it. -/
structure Request where
  identityKey : Option String
  issued : List String

structure World where
  file : Option SessionRecord
  session : Session
  issued : List String
  requests : List Request

def persist (pool : Endpoint) (now minerIdHex : String) : Action World Exception Unit :=
  modify fun world => { world with
    file := trySave world.file {
      minerIdHex
      sessionToken := world.session.sessionToken.getD ""
      identityKey := world.session.identityKey.getD ""
      poolEndpoint := pool.endpoint
      lastSeenUtc := now } }

def tryResume (stored : SessionRecord) (resume : Resume) : Action World Exception (Option (Bool × String)) := do
  let _ ← ofResult (Hex.decode stored.minerIdHex)
  match resume with
  | .threw why => throw why
  | .noResponse => return none
  | .response success refreshed => return some (success, refreshed)

def bytesToHex (bytes : List UInt8) : String := toLowerInvariant (Convert.toHexString bytes)

def register (pool : Endpoint) (now : String) (reclaimIdentityKey : Option String) (answer : Register) :
    Action World Exception Unit := do
  let requested := if reclaimIdentityKey.getD "" = "" then none else reclaimIdentityKey
  modify fun world => { world with requests := world.requests ++ [⟨requested, world.issued⟩] }
  match answer with
  | .threw why => throw why
  | .rejected errorMessage => throw (.invalidOperation ("Register rejected by pool: " ++ errorMessage))
  | .accepted minerId sessionToken identityKey =>
    modify fun world => { world with
      session := ⟨some minerId, some sessionToken, some identityKey⟩
      issued := world.issued ++ [identityKey] }
    persist pool now (bytesToHex minerId)

def connect (pool : Endpoint) (now : String) (resume : Resume) (answer : Register) : Action World Exception Unit := do
  let stored := pool.tryLoad (← get).file
  match stored with
  | some record =>
    match ← tryResume record resume with
    | some (true, refreshed) =>
      let minerId ← ofResult (Hex.decode record.minerIdHex)
      modify fun world => { world with session := ⟨some minerId, some refreshed, some record.identityKey⟩ }
      persist pool now record.minerIdHex
    | _ => modify fun world => { world with file := none }
  | none => pure ()
  if (← get).session.sessionToken = none then
    register pool now (stored.map SessionRecord.identityKey) answer

inductive Event where
  | connect (now : String) (resume : Resume) (answer : Register)
  | poolError (code : String) (fatal : Bool)
  /-- The stream ends or the process restarts, and the next session object starts anew. -/
  | restart

def worldStep (pool : Endpoint) (world : World) : Event → Option World
  | .connect now resume answer => some (exec (connect pool now resume answer) world).2
  | .poolError code fatal =>
    if fatal && "unauthenticated_".toList.isPrefixOf code.toList then
      some { world with file := clearSessionToken world.file }
    else some world
  | .restart => some { world with session := ⟨none, none, none⟩ }

/-- Every `Register` carries a key that the pool had issued. -/
def Continuous (world : World) : Prop :=
  ∀ request ∈ world.requests, ∃ key ∈ request.issued, request.identityKey = some key

def Resume.unsuccessful : Resume → Bool
  | .threw _ => false
  | .noResponse => true
  | .response success _ => !success

def Register.Persistable (pool : Endpoint) (now : String) : Register → Prop
  | .accepted minerId sessionToken identityKey =>
    validate ⟨bytesToHex minerId, sessionToken, identityKey, pool.endpoint, now⟩ = none
  | _ => False

instance (pool : Endpoint) (now : String) (answer : Register) : Decidable (answer.Persistable pool now) := by
  cases answer <;> unfold Register.Persistable <;> infer_instance

/-- A connect that loses the stored session replaces it at once. -/
def KeepsKey (pool : Endpoint) (world : World) : Event → Prop
  | .connect now resume answer =>
    (pool.tryLoad world.file).isSome → resume.unsuccessful →
      world.session.sessionToken = none ∧ answer.Persistable pool now
  | _ => True

instance (pool : Endpoint) (world : World) (event : Event) : Decidable (KeepsKey pool world event) := by
  cases event <;> unfold KeepsKey <;> infer_instance

structure Persisted (pool : Endpoint) (world : World) : Prop where
  stored : ∃ record, pool.tryLoad world.file = some record ∧ record.identityKey ∈ world.issued
  continuous : Continuous world

variable {pool : Endpoint}

theorem tryLoad_eq_some {file : Option SessionRecord} {record : SessionRecord} : pool.tryLoad file = some record ↔
      file = some record ∧ pool.equalsIgnoreCase record.poolEndpoint pool.endpoint = true ∧ validate record = none := by
  cases file with
  | none => simp [Endpoint.tryLoad]
  | some other =>
    rw [Endpoint.tryLoad]
    constructor
    · intro loaded
      split at loaded
      · cases loaded
      · split at loaded
        · cases loaded
        next same valid =>
          cases loaded
          exact ⟨rfl, by simpa using same, by simpa using valid⟩
    · rintro ⟨⟨⟩, same, valid⟩
      simp [same, valid]

theorem trySave_cases (file : Option SessionRecord) (record : SessionRecord) :
    trySave file record = file ∨ trySave file record = some record ∧ validate record = none := by
  unfold trySave save
  cases valid : validate record with
  | some err => exact .inl rfl
  | none => exact .inr ⟨rfl, rfl⟩

theorem tryLoad_trySave {file : Option SessionRecord} {record next : SessionRecord}
    (loaded : pool.tryLoad file = some record) (key : next.identityKey = record.identityKey)
    (same : pool.equalsIgnoreCase next.poolEndpoint pool.endpoint = true) :
    ∃ kept, pool.tryLoad (trySave file next) = some kept ∧ kept.identityKey = record.identityKey := by
  rcases trySave_cases file next with unchanged | ⟨saved, valid⟩
  · exact ⟨record, by rw [unchanged, loaded], rfl⟩
  · exact ⟨next, tryLoad_eq_some.mpr ⟨saved, same, valid⟩, key⟩

theorem identityKey_ne_empty {record : SessionRecord} (valid : validate record = none) : record.identityKey ≠ "" := by
  intro empty
  unfold validate at valid
  rw [if_pos empty] at valid
  split at valid
  · cases valid
  · split at valid
    · cases valid
    · split at valid <;> cases valid

theorem persisted_register {world : World} {record : SessionRecord} {now sessionToken identityKey : String}
    {minerId : List UInt8} (holds : Persisted pool world) (issued : record.identityKey ∈ world.issued)
    (persistable : validate ⟨bytesToHex minerId, sessionToken, identityKey, pool.endpoint, now⟩ = none) :
    Persisted pool {
      file := trySave none ⟨bytesToHex minerId, sessionToken, identityKey, pool.endpoint, now⟩
      session := ⟨some minerId, some sessionToken, some identityKey⟩
      issued := world.issued ++ [identityKey]
      requests := world.requests ++ [⟨some record.identityKey, world.issued⟩] } := by
  refine ⟨⟨⟨bytesToHex minerId, sessionToken, identityKey, pool.endpoint, now⟩, ?_, ?_⟩, fun request sent => ?_⟩
  · exact tryLoad_eq_some.mpr ⟨by rw [trySave, save, persistable], pool.reflexive _, persistable⟩
  · exact List.mem_append_right _ (List.mem_singleton_self _)
  · rcases List.mem_append.mp sent with earlier | last
    · exact holds.continuous request earlier
    · obtain rfl := List.mem_singleton.mp last
      exact ⟨record.identityKey, issued, rfl⟩

theorem wp_register {world : World} {record : SessionRecord} {now : String} {answer : Register}
    (holds : Persisted pool world) (loaded : pool.tryLoad world.file = some record)
    (issued : record.identityKey ∈ world.issued) (persistable : answer.Persistable pool now) :
    wp (register pool now (some record.identityKey) answer) (fun _ => Persisted pool) (Persisted pool)
      { world with file := none } := by
  have key := identityKey_ne_empty (tryLoad_eq_some.mp loaded).2.2
  cases answer with
  | threw why => exact persistable.elim
  | rejected errorMessage => exact persistable.elim
  | accepted minerId sessionToken identityKey =>
    simp only [register, persist, wp_bind, wp_modify, Option.getD_some, if_neg key]
    exact persisted_register holds issued persistable

theorem persisted_connect {world : World} {now : String} {resume : Resume} {answer : Register}
    (keeps : KeepsKey pool world (.connect now resume answer)) (holds : Persisted pool world) :
    Persisted pool (exec (connect pool now resume answer) world).2 := by
  obtain ⟨record, loaded, issued⟩ := holds.stored
  have replaced := keeps (by simp [loaded])
  apply exec_state
  simp only [connect, tryResume, persist, wp_bind, wp_get, loaded, wp_ofResult]
  cases Hex.decode record.minerIdHex with
  | error why => exact holds
  | ok minerId =>
    cases resume with
    | threw why => exact holds
    | noResponse =>
      obtain ⟨fresh, persistable⟩ := replaced rfl
      simp only [wp_pure, wp_bind, wp_modify, wp_get, fresh, if_true]
      exact wp_register holds loaded issued persistable
    | response success refreshed =>
      cases success with
      | true =>
        simp only [wp_pure, wp_bind, wp_modify, wp_get, wp_ofResult, reduceCtorEq, if_false]
        let refreshedRecord : SessionRecord := ⟨record.minerIdHex, refreshed, record.identityKey, pool.endpoint, now⟩
        have sameKey : refreshedRecord.identityKey = record.identityKey := rfl
        obtain ⟨kept, loadable, key⟩ := tryLoad_trySave loaded sameKey (pool.reflexive _)
        exact ⟨⟨kept, loadable, key ▸ issued⟩, holds.continuous⟩
      | false =>
        obtain ⟨fresh, persistable⟩ := replaced rfl
        simp only [wp_pure, wp_bind, wp_modify, wp_get, fresh, if_true]
        exact wp_register holds loaded issued persistable

theorem persisted_step {world next : World} {event : Event} (keeps : KeepsKey pool world event)
    (holds : Persisted pool world) (stepped : worldStep pool world event = some next) : Persisted pool next := by
  cases event with
  | connect now resume answer =>
    cases stepped
    exact persisted_connect keeps holds
  | poolError code fatal =>
    simp only [worldStep] at stepped
    split at stepped
    · cases stepped
      obtain ⟨record, loaded, issued⟩ := holds.stored
      obtain ⟨inFile, same, -⟩ := tryLoad_eq_some.mp loaded
      let cleared : SessionRecord := { record with sessionToken := "" }
      have sameKey : cleared.identityKey = record.identityKey := rfl
      obtain ⟨kept, loadable, key⟩ := tryLoad_trySave loaded sameKey same
      refine ⟨⟨kept, ?_, key ▸ issued⟩, holds.continuous⟩
      simpa [clearSessionToken, inFile] using loadable
    · cases stepped
      exact holds
  | restart =>
    cases stepped
    exact ⟨holds.stored, holds.continuous⟩

def World.persisted (session : Session) (record : SessionRecord) : World := ⟨some record, session, [record.identityKey], []⟩

/-- From a persisted key on, in every run in which no connect loses the key, every `Register` carries
this key or one that was issued after it. -/
theorem identity_continuous_along {pool : Endpoint} {session : Session} {record : SessionRecord} {events : List Event}
    {final : World} (valid : validate record = none)
    (same : pool.equalsIgnoreCase record.poolEndpoint pool.endpoint = true)
    (keeps : Along (worldStep pool) (KeepsKey pool) (World.persisted session record) events)
    (ran : run (worldStep pool) (World.persisted session record) events = some final) : Continuous final := by
  have start : Persisted pool (World.persisted session record) :=
    ⟨⟨record, tryLoad_eq_some.mpr ⟨rfl, same, valid⟩, List.mem_singleton_self _⟩, nofun⟩
  exact (run_invariant (Persisted pool) persisted_step keeps start ran).continuous

def samplePool : Endpoint := ⟨"pool:443", fun left right => left == right, fun text => beq_self_eq_true text⟩

def sampleRecord : SessionRecord :=
  ⟨"000102030405060708090a0b0c0d0e0f", "token", "key", "pool:443", "2026-01-01T00:00:00.0000000Z"⟩

def resumeRefused : List Event :=
  [.poolError "unauthenticated_expired" true, .restart,
    .connect "now" (.response false "") (.accepted (List.replicate 16 7) "next" "key")]

theorem identity_continuous_along_refused :
    Along (worldStep samplePool) (KeepsKey samplePool) (World.persisted ⟨none, none, none⟩ sampleRecord) resumeRefused ∧
      ∃ final, run (worldStep samplePool) (World.persisted ⟨none, none, none⟩ sampleRecord) resumeRefused = some final ∧
        Continuous final := by
  have keeps : Along (worldStep samplePool) (KeepsKey samplePool) (World.persisted ⟨none, none, none⟩ sampleRecord)
      resumeRefused := by
    decide +kernel
  have reached : (run (worldStep samplePool) (World.persisted ⟨none, none, none⟩ sampleRecord) resumeRefused).isSome = true := by
    decide +kernel
  obtain ⟨final, ran⟩ := Option.isSome_iff_exists.mp reached
  exact ⟨keeps, final, ran, identity_continuous_along (by decide +kernel) rfl keeps ran⟩

theorem not_continuous_of_none {world : World} (sent : none ∈ world.requests.map Request.identityKey) :
    ¬Continuous world := by
  intro continuous
  obtain ⟨request, member, nothing⟩ := List.mem_map.mp sent
  obtain ⟨key, -, carried⟩ := continuous request member
  exact absurd (nothing.symm.trans carried) (by simp)

/-- `Resume` gets no answer and `Register` neither: the next one has no key to carry. -/
theorem identity_lost :
    validate sampleRecord = none ∧ samplePool.equalsIgnoreCase sampleRecord.poolEndpoint samplePool.endpoint = true ∧
    ∃ final, run (worldStep samplePool) (World.persisted ⟨none, none, none⟩ sampleRecord)
        [.connect "now" .noResponse (.threw (.application "PoolUnreachableException" 0 "pool unreachable")), .restart,
          .connect "later" .noResponse (.accepted (List.replicate 16 7) "next" "other")] = some final ∧
      final.requests.map Request.identityKey = [some "key", none] ∧ ¬Continuous final := by
  have requests : (exec (connect samplePool "later" .noResponse (.accepted (List.replicate 16 7) "next" "other"))
      { (exec (connect samplePool "now" .noResponse
          (.threw (.application "PoolUnreachableException" 0 "pool unreachable")))
          (World.persisted ⟨none, none, none⟩ sampleRecord)).2 with session := ⟨none, none, none⟩ }).2.requests.map
        Request.identityKey = [some "key", none] := by
    decide +kernel
  exact ⟨by decide +kernel, rfl, _, rfl, requests, not_continuous_of_none (requests ▸ by decide)⟩

end SessionIdentity
end ArcMiner.Pool
