import ArcMiner.Library.JsonElement

/-! The messages of the Pearl stratum, as they are read from JSON. -/

namespace ArcMiner.Pool

open Library Library.CSharp

structure StratumMessage where
  id : Option Int
  method : Option String
  params : Option Json
  result : Option Json
  error : Option Json

open JsonSerializer in
/-- `JsonSerializer.Deserialize` of a message; the field `type` is checked as well. -/
def StratumMessage.deserialize : Json → Result (Option StratumMessage)
  | .null => .ok none
  | json => do
    let members ← membersOf json
    let id ← fill "id" none (nullableInteger (-2 ^ 31) (2 ^ 31 - 1)) members
    let method ← fill "method" none string members
    let params ← fill "params" none element members
    let result ← fill "result" none element members
    let error ← fill "error" none element members
    let _ ← fill "type" none string members
    return some { id, method, params, result, error }

/-- The parameters of `mining.notify`; a string may be null although its field is not declared so. -/
structure StratumNotifyParams where
  jobId : Option String
  header : Option String
  target : Option String
  height : Int
  bSeed : Option String
  auditK : Option Int
deriving DecidableEq

open JsonSerializer in
def StratumNotifyParams.deserialize (json : Json) : Result StratumNotifyParams := do
  let members ← membersOf json
  return {
    jobId := ← fill "job_id" (some "") string members
    header := ← fill "header" (some "") string members
    target := ← fill "target" (some "") string members
    height := ← fill "height" 0 (integer (-2 ^ 63) (2 ^ 63 - 1)) members
    bSeed := ← fill "b_seed" none string members
    auditK := ← fill "audit_k" none (nullableInteger 0 (2 ^ 32 - 1)) members }

section onlyJson
open JsonSerializer

theorem onlyJson_text (name : String) (missing : Option String) (members : List (List UInt16 × Json)) :
    OnlyJson (fill name missing string members) := onlyJson_fill name missing onlyJson_string members

theorem onlyJson_value (name : String) (members : List (List UInt16 × Json)) : OnlyJson (fill name none element members) :=
  onlyJson_fill name none onlyJson_element members

theorem StratumMessage.deserialize_onlyJson (json : Json) : OnlyJson (StratumMessage.deserialize json) := by
  unfold StratumMessage.deserialize
  split
  · exact .ok none
  · refine (onlyJson_membersOf json).bind fun members => ?_
    refine (onlyJson_fill _ _ (onlyJson_nullableInteger _ _) _).bind fun id => (onlyJson_text _ _ _).bind fun method => ?_
    refine (onlyJson_value _ _).bind fun params => (onlyJson_value _ _).bind fun result => ?_
    exact (onlyJson_value _ _).bind fun error => (onlyJson_text _ _ _).bind fun _ => .ok _

theorem StratumNotifyParams.deserialize_onlyJson (json : Json) : OnlyJson (StratumNotifyParams.deserialize json) := by
  refine (onlyJson_membersOf json).bind fun members => (onlyJson_text _ _ _).bind fun jobId => ?_
  refine (onlyJson_text _ _ _).bind fun header => (onlyJson_text _ _ _).bind fun target => ?_
  refine (onlyJson_fill _ _ (onlyJson_integer _ _) _).bind fun height => (onlyJson_text _ _ _).bind fun bSeed => ?_
  exact (onlyJson_fill _ _ (onlyJson_nullableInteger _ _) _).bind fun auditK => .ok _

end onlyJson

structure JobAssignment where
  jobId : List UInt8
  sigma : List UInt8
  targetNbits : UInt32
  networkTargetNbits : UInt32
  blockHeight : Int
  protocolVersion : Nat
  bSeed : List UInt8
  auditK : Int
deriving DecidableEq

structure Primitives where
  sha256 : List UInt8 → List UInt8
  utf8 : String → List UInt8
  tryParseGuid : String → Option (List UInt8)

def Primitives.jobIdBytes (primitives : Primitives) (jobId : String) : List UInt8 :=
  match primitives.tryParseGuid jobId with
  | some guid => guid
  | none => (primitives.sha256 (primitives.utf8 jobId)).take 16

def Primitives.sha256d (primitives : Primitives) (bytes : List UInt8) : List UInt8 :=
  primitives.sha256 (primitives.sha256 bytes)

end ArcMiner.Pool
