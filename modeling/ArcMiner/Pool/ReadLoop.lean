import ArcMiner.Library.Action
import ArcMiner.Library.FifoStore
import ArcMiner.Pool.Difficulty
import ArcMiner.Pool.StratumJobParser

/-! The read loop of the Pearl stratum session.

A line is read as a message and handed to the part of the session that its method names. A
`JsonException` is caught and the loop goes on; any other exception ends it. The callbacks are set and
do not throw, and the task that answers a challenge runs elsewhere.
-/

namespace ArcMiner.Pool.StratumSession

open Library Library.CSharp Library.Action AkoyaCrypto StratumJobParser JsonElement

/-- What the session takes from .NET, with the environment variable that replaces every target. -/
structure Host extends Primitives where
  parse : List Char → Option Json
  rawText : Json → String
  toDouble : List Char → Double
  parseDouble : String → Option Double
  fakeTarget : Bool

def Host.plain : Host where
  sha256 bytes := bytes
  utf8 text := text.toList.map fun c => UInt8.ofNat c.toNat
  tryParseGuid _ := none
  parse := Json.parse
  rawText _ := ""
  toDouble _ := .finite 1
  parseDouble _ := none
  fakeTarget := false

inductive Callback where
  | onJob (job : JobAssignment)
  | onVardiff (newTargetNbits : UInt32)
  | onPoolInfo (params : Json)
  | onShareResult (reply : Int) (accepted : Bool) (message : String)
  | solveChallenge (params : Json)

structure Session where
  extranonce1 : List UInt8
  jobs : FifoStore String (Option String)
  lastDifficulty : Double
  challengeRespIds : List Int
  calls : List Callback

/-- A session before its first line; `--diff` may ask for a difficulty. -/
def Session.opened (extranonce1 : List UInt8) (requested : Double) : Session where
  extranonce1
  jobs := .empty
  lastDifficulty := requested
  challengeRespIds := []
  calls := []

abbrev SessionM := Action Session Exception

def call (callback : Callback) : SessionM Unit :=
  modify fun session => { session with calls := session.calls ++ [callback] }

/-- The job ids are kept under the header in lower case, for a hundred headers. -/
def storeJob (headerHex : String) (jobId : Option String) : SessionM Unit :=
  modify fun session => { session with jobs := session.jobs.record 100 headerHex jobId }

def atMostZero : Double → Bool
  | .nan => false
  | .infinite negative => negative
  | .finite value => value ≤ 0

def jobDifficulty (lastDifficulty : Double) : Double := if atMostZero lastDifficulty then .finite 32 else lastDifficulty

def positionalHeight : Json → Result Int
  | .number literal => getInt64 (.number literal)
  | _ => .ok 0

section parse
variable (host : Host) (toNbits : Double → Result UInt32)

def parseArrayNotify (arr : List Json) : SessionM (Option StratumNotifyParams) := do
  if arr.length < 4 then return none
  else if 9 ≤ arr.length then
    -- whatever goes wrong in the long form is logged, and the notify dropped
    tryCatch (do
      let session ← get
      let job ← ofResult (parseNotification host.toPrimitives arr session.extranonce1 [0, 0, 0, 0])
      let headerHex := toLowerInvariant (Convert.toHexString job.sigma)
      let jobIdStr := (← ofResult (getString (optional arr 0))).getD ""
      storeJob headerHex (some jobIdStr)
      let nbits ← ofResult (toNbits (jobDifficulty session.lastDifficulty))
      return some {
        jobId := some jobIdStr
        header := some headerHex
        height := job.blockHeight
        target := some (nbitsToTargetHex nbits)
        bSeed := some (Convert.toHexString job.bSeed)
        auditK := some job.auditK }) fun _ => pure none
  else
    let session ← get
    let jobId := (← ofResult (getString (optional arr 0))).getD ""
    let header := (← ofResult (getString (optional arr 2))).getD ""
    let height ← ofResult (positionalHeight (optional arr 3))
    let nbits ← ofResult (toNbits (jobDifficulty session.lastDifficulty))
    return some {
      jobId := some jobId
      header := some header
      height
      target := some (nbitsToTargetHex nbits)
      bSeed := none
      auditK := none }

def parsePearlNotification (p : StratumNotifyParams) : SessionM JobAssignment := do
  let sigma ← ofResult (Hex.decode (p.header.getD ""))
  -- no header decodes as an empty one, but has no lower case
  let header ← match p.header with
    | some header => pure header
    | none => throw .nullReference
  storeJob (toLowerInvariant header) p.jobId
  -- the store takes a missing job id, `Encoding.GetBytes` does not
  let jobId ← match p.jobId with
    | some jobId => pure jobId
    | none => throw (.argumentNull "s")
  let targetBytes ← ofResult (Hex.decode (p.target.getD ""))
  let targetNbits := if host.fakeTarget then 0x207fffff else targetToNbits targetBytes
  let bSeed ← if (p.bSeed.getD "").isEmpty then pure (List.replicate 32 0) else ofResult (Hex.decode (p.bSeed.getD ""))
  return {
    jobId := host.jobIdBytes jobId
    sigma, targetNbits
    networkTargetNbits := targetNbits
    blockHeight := p.height
    protocolVersion := 2
    bSeed
    auditK := p.auditK.getD 0 }

def notifyParams (params : Json) : SessionM (Option StratumNotifyParams) :=
  match params with
  | .array arr => parseArrayNotify host toNbits arr
  | json => do return some (← ofResult (StratumNotifyParams.deserialize json))

def handleNotify (params : Json) : SessionM Unit := do
  match ← notifyParams host toNbits params with
  | none => pure ()
  | some p =>
    let job ← parsePearlNotification host p
    call (.onJob job)

def handleSetDifficulty (params : Json) : SessionM Unit := do
  match ← ofResult (tryReadDifficulty host.toDouble host.parseDouble params) with
  | none => pure ()
  | some diff =>
    if diff.isPositive then
      modify fun session => { session with lastDifficulty := diff }
      let nbits ← ofResult (toNbits diff)
      call (.onVardiff nbits)
    else pure ()

/-- A reply without a method: the answer to a challenge response, or else the verdict on a share. -/
def handleReply (id : Int) (result error : Option Json) : SessionM Unit := do
  let session ← get
  if id ∈ session.challengeRespIds then
    modify fun session => { session with challengeRespIds := session.challengeRespIds.erase id }
  else
    match error with
    | some error =>
      let message ← ofResult (toString host.rawText error)
      call (.onShareResult id false message)
    | none =>
      match result with
      | some (.bool false) => call (.onShareResult id false "")
      | _ => call (.onShareResult id true "")

def handle (msg : StratumMessage) : SessionM Unit :=
  match msg.method, msg.params, msg.id with
  | some "mining.notify", some params, _ => handleNotify host toNbits params
  | some "mining.set_difficulty", some params, _ => handleSetDifficulty host toNbits params
  | some "pool.info", some params, _ => call (.onPoolInfo params)
  | some "pearl.challenge", some params, _ => call (.solveChallenge params)
  | none, _, some id => handleReply host id msg.result msg.error
  | _, _, _ => pure ()

def handleLine (line : List Char) : SessionM Unit := do
  match host.parse line with
  | none => throw .json
  | some json =>
    match ← ofResult (StratumMessage.deserialize json) with
    | none => pure ()
    | some msg => handle host toNbits msg

/-- The loop goes on after a `JsonException` and after nothing else. -/
def readLoop : List (List Char) → SessionM Unit
  | [] => pure ()
  | line :: lines => do
    tryCatch (handleLine host toNbits line) fun why => if why = .json then pure () else throw why
    readLoop lines

end parse
end ArcMiner.Pool.StratumSession
