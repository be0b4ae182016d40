import ArcMiner.Library.JsonLookup
import ArcMiner.Pool.Difficulty

/-! The work that a Bitcoin stratum connection publishes.

Everything a solver needs is one immutable value that is swapped as a whole, under a lock.
-/

namespace ArcMiner.Stratum

open Library Library.CSharp AkoyaCrypto JsonElement

structure BitcoinStratumJob where
  jobId : String
  prevHashRaw : List UInt8
  coinb1 : String
  coinb2 : String
  branch : List String
  version : Nat
  bits : Nat
  time : Nat
  nbitsHex : String
  ntimeHex : String
  clean : Bool
deriving DecidableEq

structure BitcoinStratumWork where
  job : Option BitcoinStratumJob
  extranonce1 : String
  extranonce2Size : Int
  difficulty : Pool.Double
  generation : Int
deriving DecidableEq

namespace BitcoinStratumDialect

def initial : BitcoinStratumWork := ⟨none, "", 4, .finite 1, 0⟩

def textAt (p : List Json) (i : Int) : Result String := do
  let el ← index p i
  return (← getString el).getD ""

/-- `p[i].GetString()`, as a number in base 16. -/
def hexAt (width : Nat) (p : List Json) (i : Int) : Result Nat := do
  let el ← index p i
  Convert.toUnsigned width (← getString el)

def branchAt (p : List Json) (i : Int) : Result (List String) := do
  let el ← index p i
  let nodes ← enumerateArray el
  nodes.mapM fun node => do return (← getString node).getD ""

def isTrue : Json → Bool
  | .bool value => value
  | _ => false

def parseNotify (p : List Json) : Result BitcoinStratumJob := do
  let branch ← branchAt p 4
  let jobId ← textAt p 0
  let prevHash ← textAt p 1
  let prevHashRaw ← Hex.decode prevHash
  let coinb1 ← textAt p 2
  let coinb2 ← textAt p 3
  let version ← hexAt 32 p 5
  let bits ← hexAt 32 p 6
  let time ← hexAt 64 p 7
  let nbitsHex ← textAt p 6
  let ntimeHex ← textAt p 7
  return { jobId, prevHashRaw, coinb1, coinb2, branch, version, bits, time, nbitsHex, ntimeHex,
           clean := p[8]?.any isTrue }

/-- A notify that cannot be read is logged and dropped. -/
def onNotify (p : List Json) (work : BitcoinStratumWork) : BitcoinStratumWork :=
  match parseNotify p with
  | .ok job => { work with job := some job, generation := (work.generation + 1).bmod (2 ^ 64) }
  | .error _ => work

/-- The third item of a subscription, if it is a number. -/
def extranonce2Size : Option Json → Result Int
  | some (.number literal) => getInteger (-2 ^ 31) (2 ^ 31 - 1) (.number literal)
  | _ => .ok 4

def applySubscribeResult (result : Option Json) (work : BitcoinStratumWork) : Result BitcoinStratumWork :=
  match result with
  | some (.array arr) =>
    match arr[1]? with
    | some (Json.string units) => do
      let e1 ← getString (.string units)
      let size ← extranonce2Size arr[2]?
      return { work with extranonce1 := e1.getD "", extranonce2Size := size }
    | _ => .ok work
  | _ => .ok work

section
variable (lookup : JsonElement.Lookup) (tryGetDouble : List Char → Option Pool.Double)

/-- `TryGetDouble` is for numbers only. -/
def setDifficulty (p : List Json) (work : BitcoinStratumWork) : Result BitcoinStratumWork :=
  match p with
  | [] => .ok work
  | .number literal :: _ =>
    match tryGetDouble literal with
    | some diff => .ok { work with difficulty := diff }
    | none => .ok work
  | _ => otherKind

def onNotification (method : String) (root : Json) (work : BitcoinStratumWork) : Result BitcoinStratumWork := do
  match ← tryGetProperty lookup "params" root with
  | some (.array p) =>
    if method = "mining.notify" then return onNotify p work
    else if method = "mining.set_difficulty" then setDifficulty tryGetDouble p work
    else return work
  | _ => return work

/-- The parameters of a call can be looked up, and a difficulty is a number. -/
def Handles (method : String) (root : Json) : Prop :=
  JsonElement.Searchable lookup "params" root ∧
    (method = "mining.set_difficulty" → ∀ first rest,
      memberOf lookup "params" root = some (.array (first :: rest)) → ∃ literal, first = .number literal)

variable {lookup tryGetDouble}

theorem setDifficulty_isOk_iff (p : List Json) (work : BitcoinStratumWork) :
    (∃ next, setDifficulty tryGetDouble p work = .ok next) ↔
      ∀ first rest, p = first :: rest → ∃ literal, first = .number literal := by
  cases p with
  | nil => exact iff_of_true ⟨work, rfl⟩ nofun
  | cons first rest =>
    cases first with
    | number literal =>
      refine iff_of_true ?_ ?_
      · cases read : tryGetDouble literal with
        | some diff => exact ⟨{ work with difficulty := diff }, by rw [setDifficulty, read]⟩
        | none => exact ⟨work, by rw [setDifficulty, read]⟩
      · rintro _ _ ⟨⟩
        exact ⟨literal, rfl⟩
    | null | bool | string | array | object =>
      refine iff_of_false (by rintro ⟨_, ⟨⟩⟩) fun numbers => ?_
      obtain ⟨_, ⟨⟩⟩ := numbers _ rest rfl

theorem onNotification_isOk_iff (method : String) (root : Json) (work : BitcoinStratumWork) :
    (∃ next, onNotification lookup tryGetDouble method root work = .ok next) ↔ Handles lookup method root := by
  unfold onNotification
  refine bind_isOk_iff.trans (and_congr_right fun _ => ?_)
  match memberOf lookup "params" root with
  | some (.array p) =>
    simp only [Option.some.injEq, Json.array.injEq]
    by_cases notify : method = "mining.notify"
    · subst notify
      exact iff_of_true ⟨_, rfl⟩ nofun
    · rw [if_neg notify]
      by_cases difficulty : method = "mining.set_difficulty"
      · rw [if_pos difficulty, setDifficulty_isOk_iff]
        exact ⟨fun numbers _ => numbers, fun numbers => numbers difficulty⟩
      · rw [if_neg difficulty]
        exact iff_of_true ⟨_, rfl⟩ fun same => absurd same difficulty
  | none | some .null | some (.bool _) | some (.number _) | some (.string _) | some (.object _) =>
    exact iff_of_true ⟨_, rfl⟩ nofun

end
end BitcoinStratumDialect
end ArcMiner.Stratum
