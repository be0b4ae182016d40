import ArcMiner.Library.JsonLookup

/-! The state that a CryptoNote connection publishes: a job and its generation.

How a job is read is left to the algorithm. The events that are raised for a job, and the log, are left
out.
-/

namespace ArcMiner.Stratum

open Library Library.CSharp JsonElement

structure CryptoNoteJob where
  jobId : String
  blob : List UInt8
  target : List UInt8
  seedHash : List UInt8
  height : Int
  nonceOffset : Nat
  fullWidthNonce : Bool
deriving DecidableEq

structure CryptoNoteStratumDialect where
  job : Option CryptoNoteJob
  generation : Int
  sessionId : String

namespace CryptoNoteStratumDialect

def opened : CryptoNoteStratumDialect := ⟨none, 0, ""⟩

def snapshot (dialect : CryptoNoteStratumDialect) : Option CryptoNoteJob × Int := (dialect.job, dialect.generation)

/-- Done under the lock. -/
def install (job : CryptoNoteJob) (dialect : CryptoNoteStratumDialect) : CryptoNoteStratumDialect :=
  { dialect with job := some job, generation := (dialect.generation + 1).bmod (2 ^ 64) }

/-- Readers take no lock: they can see the job of an `install` before its generation. -/
def publish (job : CryptoNoteJob) (dialect : CryptoNoteStratumDialect) : CryptoNoteStratumDialect :=
  { dialect with job := some job }

def bump (dialect : CryptoNoteStratumDialect) : CryptoNoteStratumDialect :=
  { dialect with generation := (dialect.generation + 1).bmod (2 ^ 64) }

variable (lookup : JsonElement.Lookup) (parseJob : Json → Result CryptoNoteJob)

/-- A response without a result is the undefined element, which has no members. -/
def ofResult {α : Type} (read : Json → Result α) : Option Json → Result α
  | none => otherKind
  | some resp => read resp

def loginId : Option Json → Result String := ofResult (requiredText lookup "id")

def loginJob : Option Json → Result CryptoNoteJob := ofResult fun resp => getProperty lookup "job" resp >>= parseJob

def login (resp : Option Json) (dialect : CryptoNoteStratumDialect) : Result CryptoNoteStratumDialect := do
  let id ← loginId lookup resp
  let job ← loginJob lookup parseJob resp
  return { dialect.install job with sessionId := id }

/-- A push that cannot be read is logged and dropped. -/
def takePush (p : Json) (dialect : CryptoNoteStratumDialect) : CryptoNoteStratumDialect :=
  match parseJob p with
  | .ok job => dialect.install job
  | .error _ => dialect

def onNotification (method : String) (root : Json) (dialect : CryptoNoteStratumDialect) :
    Result CryptoNoteStratumDialect :=
  if method ≠ "job" then .ok dialect
  else do
    let params ← tryGetProperty lookup "params" root
    return params.elim dialect fun p => takePush parseJob p dialect

def Handles (method : String) (root : Json) : Prop := method = "job" → JsonElement.Searchable lookup "params" root

def pushedJob (method : String) (root : Json) : Option CryptoNoteJob :=
  if method = "job" then
    (tryGetProperty lookup "params" root).toOption.join.bind fun p => (parseJob p).toOption
  else none

variable {lookup parseJob}

theorem onNotification_isOk_iff (method : String) (root : Json) (dialect : CryptoNoteStratumDialect) :
    (∃ next, onNotification lookup parseJob method root dialect = .ok next) ↔ Handles lookup method root := by
  unfold onNotification Handles
  by_cases isJob : method = "job"
  · rw [if_neg (not_not.mpr isJob), forall_prop_of_true isJob, ← tryGetProperty_isOk_iff]
    exact exists_bind_ok_iff fun _ => ⟨_, rfl⟩
  · rw [if_pos isJob]
    exact iff_of_true ⟨dialect, rfl⟩ fun same => absurd same isJob

theorem onNotification_job {method : String} {root : Json} {dialect next : CryptoNoteStratumDialect}
    (handled : onNotification lookup parseJob method root dialect = .ok next) :
    next.job = (pushedJob lookup parseJob method root).or dialect.job := by
  unfold onNotification at handled
  unfold pushedJob
  split at handled
  next other =>
    cases handled
    rw [if_neg other, Option.none_or]
  next isJob =>
    obtain ⟨params, found, done⟩ := bind_eq_ok.mp handled
    cases done
    rw [if_pos (not_not.mp isJob), found]
    cases params with
    | none => rfl
    | some p =>
      show (takePush parseJob p dialect).job = (parseJob p).toOption.or dialect.job
      unfold takePush
      cases parseJob p <;> rfl

theorem login_error {resp : Option Json} {thrown : Exception} (refused : loginJob lookup parseJob resp = .error thrown)
    (dialect : CryptoNoteStratumDialect) : ∃ why, login lookup parseJob resp dialect = .error why := by
  rw [login, refused]
  cases loginId lookup resp with
  | ok => exact ⟨thrown, rfl⟩
  | error why => exact ⟨why, rfl⟩

end CryptoNoteStratumDialect
end ArcMiner.Stratum
