import ArcMiner.AkoyaCrypto.Hex
import ArcMiner.Config.ControlConfig
import ArcMiner.Library.CSharp
import Mathlib.Data.List.Induction

/-! `Metrics.HandleControlConfig`: the request that changes the saved settings.

One thread serves the requests, so a run is a list of them. The process that is started
after a change loads the same file.
-/

namespace ArcMiner.Observability.Metrics

open Library Library.CSharp Config Option ControlConfig List

structure Reply where
  status : Nat
  body : String
deriving DecidableEq

def refusal (status : Nat) (error : String) : Reply :=
  ⟨status, "\x7b\"ok\":false,\"error\":\"" ++ error ++ "\"\x7d"⟩

def restarting : Reply := ⟨200, "\x7b\"ok\":true,\"restarting\":true\x7d"⟩

structure Request where
  httpMethod : String
  isLocal : Bool
  auth : Option String
  contentLength : Int
  body : Option (List Char)

/-- A request, and whether the file system takes the file that it makes. -/
structure Arrival where
  request : Request
  saves : Bool

section handler
variable (lookup : JsonElement.Lookup)

open JsonElement

def caught {α : Type} (result : Result α) : Except Reply α := result.mapError fun _ => refusal 400 "invalid JSON"

def stringMember (name : String) (root : Json) : Except Reply (Option String) := do
  match ← caught (tryGetProperty lookup name root) with
  | some (.string units) => return some ((← caught (getString (.string units))).getD "")
  | _ => return none

/-- `pool_host`, `wallet` and `worker`. -/
def trimmedMember (name : String) (root : Json) : Except Reply (Option String) := do
  match ← stringMember lookup name root with
  | some text => if trim text = "" then throw (refusal 400 (name ++ " is empty")) else return some (trim text)
  | none => return none

/-- Only letters of ASCII have a letter of the three names as their lower case. -/
def algoMember (root : Json) : Except Reply (Option String) := do
  match ← stringMember lookup "algo" root with
  | some text =>
    let raw := AkoyaCrypto.toLowerInvariant (trim text)
    let norm := if raw = "pearl" then "prl" else raw
    if norm = "prl" ∨ norm = "csd" then return some norm else throw (refusal 400 "algo must be prl or csd")
  | none => return none

def portMember (root : Json) : Except Reply (Option Int) := do
  match ← caught (tryGetProperty lookup "pool_port" root) with
  | some (.number literal) =>
    match integerIn (-2 ^ 31) (2 ^ 31 - 1) literal with
    | some port => if port < 1 ∨ port > 65535 then throw (refusal 400 "pool_port out of range") else return some port
    | none => return none
  | _ => return none

def tlsMember (root : Json) : Except Reply (Option Bool) := do
  match ← caught (tryGetProperty lookup "use_tls" root) with
  | some (.bool value) => return some value
  | _ => return none

def readFields (root : Json) : Except Reply ControlConfig := do
  let algo ← algoMember lookup root
  let poolHost ← trimmedMember lookup "pool_host" root
  let poolPort ← portMember lookup root
  let useTls ← tlsMember lookup root
  let wallet ← trimmedMember lookup "wallet" root
  let worker ← trimmedMember lookup "worker" root
  return { poolHost, poolPort, useTls, wallet, worker, algo }

def readUpdates (bodyText : List Char) : Except Reply ControlConfig :=
  match JsonDocument.parse bodyText with
  | none => .error (refusal 400 "invalid JSON")
  | some (.object members) => readFields lookup (.object members)
  | some _ => .error (refusal 400 "expected a JSON object")

def readBody (request : Request) : Except Reply (List Char) :=
  if request.contentLength > 8192 then .error (refusal 413 "body too large")
  else match request.body with
    | some bodyText => .ok bodyText
    | none => .error (refusal 400 "unreadable body")

def passwordMatches (apiPassword supplied : Option String) : Bool :=
  match apiPassword, supplied with
  | some expected, some supplied => supplied = expected
  | _, _ => false

def updatesOf (apiPassword : Option String) (request : Request) : Except Reply ControlConfig :=
  if !equalsIgnoreCase "post" request.httpMethod then .error (refusal 405 "POST required")
  else if !request.isLocal then .error (refusal 403 "control is localhost-only")
  else if apiPassword = none then .error (refusal 403 "control disabled — launch with --api-password to enable")
  else if !passwordMatches apiPassword request.auth then .error (refusal 401 "invalid password")
  else do
    let bodyText ← readBody request
    let updates ← readUpdates lookup bodyText
    if updates = {} then throw (refusal 400 "no recognized fields to change") else return updates

def handleControlConfig (apiPassword : Option String) (file : Option (List Char)) (arrival : Arrival) :
    Reply × Option (List Char) :=
  match updatesOf lookup apiPassword arrival.request with
  | .error reply => (reply, file)
  | .ok updates =>
    if arrival.saves then (restarting, some (merge lookup updates file))
    else (refusal 500 "failed to save config", file)

def fileAfter (apiPassword : Option String) (arrivals : List Arrival) : Option (List Char) :=
  arrivals.foldl (fun file arrival => (handleControlConfig lookup apiPassword file arrival).2) none

def accepted (apiPassword : Option String) (arrival : Arrival) : Option ControlConfig :=
  if (handleControlConfig lookup apiPassword none arrival).1.status = 200 then
    (updatesOf lookup apiPassword arrival.request).toOption
  else none

end handler

def lastSet (updates : List ControlConfig) : ControlConfig where
  poolHost := updates.reverse.findSome? poolHost
  poolPort := updates.reverse.findSome? poolPort
  useTls := updates.reverse.findSome? useTls
  wallet := updates.reverse.findSome? wallet
  worker := updates.reverse.findSome? worker
  algo := updates.reverse.findSome? algo

section refused

def Refuses {α : Type} (result : Except Reply α) : Prop := ∀ reply, result = .error reply → reply.status ≠ 200

variable {α β : Type}

theorem Refuses.ok (a : α) : Refuses (.ok a : Except Reply α) := nofun

theorem Refuses.error {status : Nat} (other : status ≠ 200) (error : String) :
    Refuses (.error (refusal status error) : Except Reply α) := by
  rintro _ ⟨⟩
  exact other

theorem Refuses.bind {result : Except Reply α} {next : α → Except Reply β} (first : Refuses result)
    (second : ∀ a, Refuses (next a)) : Refuses (result >>= next) := by
  cases result with
  | ok a => exact second a
  | error reply =>
    rintro _ ⟨⟩
    exact first reply rfl

theorem Refuses.ite {condition : Prop} [Decidable condition] {first second : Except Reply α} (yes : Refuses first)
    (no : Refuses second) : Refuses (if condition then first else second) := by
  split
  · exact yes
  · exact no

theorem refuses_caught (result : Result α) : Refuses (caught result) := by
  cases result with
  | ok a => exact .ok a
  | error why => exact .error (by decide) _

variable (lookup : JsonElement.Lookup)

theorem refuses_stringMember (name : String) (root : Json) : Refuses (stringMember lookup name root) := by
  apply (refuses_caught _).bind
  intro found
  split
  · apply (refuses_caught _).bind
    intro text
    exact .ok _
  · exact .ok _

theorem refuses_trimmedMember (name : String) (root : Json) : Refuses (trimmedMember lookup name root) := by
  apply (refuses_stringMember lookup name root).bind
  intro text
  cases text with
  | none => exact .ok _
  | some text => exact .ite (.error (by decide) _) (.ok _)

theorem refuses_algoMember (root : Json) : Refuses (algoMember lookup root) := by
  apply (refuses_stringMember lookup "algo" root).bind
  intro text
  cases text with
  | none => exact .ok _
  | some text => exact .ite (.ok _) (.error (by decide) _)

theorem refuses_portMember (root : Json) : Refuses (portMember lookup root) := by
  apply (refuses_caught _).bind
  intro found
  split
  · split
    · exact .ite (.error (by decide) _) (.ok _)
    · exact .ok _
  · exact .ok _

theorem refuses_tlsMember (root : Json) : Refuses (tlsMember lookup root) := by
  apply (refuses_caught _).bind
  intro found
  split
  · exact .ok _
  · exact .ok _

theorem refuses_readFields (root : Json) : Refuses (readFields lookup root) := by
  apply (refuses_algoMember lookup root).bind
  intro algo
  apply (refuses_trimmedMember lookup "pool_host" root).bind
  intro poolHost
  apply (refuses_portMember lookup root).bind
  intro poolPort
  apply (refuses_tlsMember lookup root).bind
  intro useTls
  apply (refuses_trimmedMember lookup "wallet" root).bind
  intro wallet
  apply (refuses_trimmedMember lookup "worker" root).bind
  intro worker
  exact .ok _

theorem refuses_readUpdates (bodyText : List Char) : Refuses (readUpdates lookup bodyText) := by
  unfold readUpdates
  split
  · exact .error (by decide) _
  · exact refuses_readFields lookup _
  · exact .error (by decide) _

theorem refuses_readBody (request : Request) : Refuses (readBody request) := by
  apply Refuses.ite (.error (by decide) _)
  split
  · exact .ok _
  · exact .error (by decide) _

theorem refuses_updatesOf (apiPassword : Option String) (request : Request) :
    Refuses (updatesOf lookup apiPassword request) := by
  apply Refuses.ite (.error (by decide) _)
  apply Refuses.ite (.error (by decide) _)
  apply Refuses.ite (.error (by decide) _)
  apply Refuses.ite (.error (by decide) _)
  apply (refuses_readBody request).bind
  intro bodyText
  apply (refuses_readUpdates lookup bodyText).bind
  intro updates
  exact .ite (.error (by decide) _) (.ok _)

end refused

section accepted
variable {lookup : JsonElement.Lookup} {apiPassword : Option String}

theorem portMember_range {root : Json} {port : Option Int} (read : portMember lookup root = .ok port) :
    ∀ n ∈ port, 1 ≤ n ∧ n ≤ 65535 := by
  obtain ⟨found, -, read⟩ := bind_eq_ok.mp read
  split at read
  · split at read
    · next n inside =>
      split at read
      · cases read
      · next taken =>
        obtain rfl := Except.ok.inj read
        rintro _ ⟨⟩
        omega
    · obtain rfl := Except.ok.inj read
      exact nofun
  · obtain rfl := Except.ok.inj read
    exact nofun

theorem readFields_portFits {root : Json} {updates : ControlConfig} (read : readFields lookup root = .ok updates) :
    updates.PortFits := by
  obtain ⟨algo, -, read⟩ := bind_eq_ok.mp read
  obtain ⟨poolHost, -, read⟩ := bind_eq_ok.mp read
  obtain ⟨poolPort, taken, read⟩ := bind_eq_ok.mp read
  obtain ⟨useTls, -, read⟩ := bind_eq_ok.mp read
  obtain ⟨wallet, -, read⟩ := bind_eq_ok.mp read
  obtain ⟨worker, -, read⟩ := bind_eq_ok.mp read
  obtain rfl := Except.ok.inj read
  intro port given
  obtain ⟨positive, small⟩ := portMember_range taken port given
  exact ⟨by omega, by omega⟩

theorem updatesOf_ok {request : Request} {updates : ControlConfig} (read : updatesOf lookup apiPassword request = .ok updates) :
    updates ≠ {} ∧ updates.PortFits := by
  unfold updatesOf at read
  split at read
  · cases read
  split at read
  · cases read
  split at read
  · cases read
  split at read
  · cases read
  obtain ⟨bodyText, -, read⟩ := bind_eq_ok.mp read
  obtain ⟨fields, given, read⟩ := bind_eq_ok.mp read
  split at read
  · cases read
  · next some =>
    obtain rfl := Except.ok.inj read
    refine ⟨some, ?_⟩
    unfold readUpdates at given
    split at given
    · cases given
    · exact readFields_portFits given
    · cases given

/-- A request is accepted and its update merged into the file, or it is refused and the file is as it was. -/
theorem handle_cases (file : Option (List Char)) (arrival : Arrival) :
    (∃ updates, accepted lookup apiPassword arrival = some updates ∧ updates ≠ {} ∧ updates.PortFits ∧
      handleControlConfig lookup apiPassword file arrival =
        (restarting, some (merge lookup updates file))) ∨
    (accepted lookup apiPassword arrival = none ∧ (handleControlConfig lookup apiPassword file arrival).1.status ≠ 200 ∧
      (handleControlConfig lookup apiPassword file arrival).2 = file) := by
  unfold accepted handleControlConfig
  cases read : updatesOf lookup apiPassword arrival.request with
  | error reply =>
    have other := refuses_updatesOf lookup apiPassword arrival.request reply read
    exact .inr ⟨if_neg other, other, rfl⟩
  | ok updates =>
    obtain ⟨some, fits⟩ := updatesOf_ok read
    cases arrival.saves with
    | true => exact .inl ⟨updates, rfl, some, fits, rfl⟩
    | false => exact .inr ⟨rfl, show (500 : Nat) ≠ 200 by decide, rfl⟩

end accepted

section runs
variable {lookup : JsonElement.Lookup} {apiPassword : Option String}

theorem fileAfter_concat (arrivals : List Arrival) (arrival : Arrival) :
    fileAfter lookup apiPassword (arrivals ++ [arrival]) =
      (handleControlConfig lookup apiPassword (fileAfter lookup apiPassword arrivals) arrival).2 := by
  rw [fileAfter, foldl_append]
  rfl

theorem lastSet_concat (updates : List ControlConfig) (last : ControlConfig) :
    lastSet (updates ++ [last]) = (lastSet updates).overlay last := by
  have latest {α : Type} (field : ControlConfig → Option α) :
      (updates ++ [last]).reverse.findSome? field = (field last).or (updates.reverse.findSome? field) := by
    rw [reverse_concat, findSome?_cons]
    cases field last <;> rfl
  simp only [lastSet, overlay, latest]

def history (lookup : JsonElement.Lookup) (apiPassword : Option String) (arrivals : List Arrival) : List ControlConfig :=
  arrivals.filterMap (accepted lookup apiPassword)

def Kept (lookup : JsonElement.Lookup) (apiPassword : Option String) (arrivals : List Arrival) : Prop :=
  load lookup (fileAfter lookup apiPassword arrivals) = lastSet (history lookup apiPassword arrivals)

theorem history_concat (arrivals : List Arrival) (arrival : Arrival) :
    history lookup apiPassword (arrivals ++ [arrival]) =
      history lookup apiPassword arrivals ++ (accepted lookup apiPassword arrival).toList := by
  rw [history, filterMap_append, filterMap_cons, filterMap_nil]
  cases accepted lookup apiPassword arrival <;> rfl

theorem kept_step {arrivals : List Arrival} {arrival : Arrival} (kept : Kept lookup apiPassword arrivals)
    (valid : (lastSet (history lookup apiPassword arrivals)).Valid)
    (shown : ∀ updates ∈ accepted lookup apiPassword arrival, updates.Printable) :
    Kept lookup apiPassword (arrivals ++ [arrival]) ∧
      (lastSet (history lookup apiPassword (arrivals ++ [arrival]))).Valid := by
  rw [Kept, fileAfter_concat, history_concat]
  rcases handle_cases (fileAfter lookup apiPassword arrivals) arrival with
    ⟨updates, taken, -, fits, handled⟩ | ⟨refused, -, same⟩
  · have merged := valid.overlay ⟨shown updates taken, fits⟩
    rw [taken, handled, toList_some, lastSet_concat]
    refine ⟨?_, merged⟩
    change load lookup (some (merge lookup updates _)) = _
    rw [ControlConfig.merge, kept, ControlConfig.load_save merged.shown merged.fits]
  · rw [refused, same, toList_none, append_nil]
    exact ⟨kept, valid⟩

theorem kept_run {arrivals : List Arrival} (shown : ∀ updates ∈ history lookup apiPassword arrivals, updates.Printable) :
    Kept lookup apiPassword arrivals ∧ (lastSet (history lookup apiPassword arrivals)).Valid := by
  induction arrivals using reverseRecOn with
  | nil => exact ⟨rfl, valid_empty⟩
  | append_singleton arrivals arrival ih =>
    rw [history_concat] at shown
    obtain ⟨earlier, last⟩ := forall_mem_append.mp shown
    obtain ⟨kept, valid⟩ := ih earlier
    exact kept_step kept valid fun updates taken => last updates (mem_toList.mpr taken)

theorem not_kept_of_not_printable {arrivals : List Arrival} {arrival : Arrival} {updates : ControlConfig}
    (taken : accepted lookup apiPassword arrival = some updates) (broken : ¬updates.Printable) :
    ¬Kept lookup apiPassword (arrivals ++ [arrival]) := by
  intro kept
  rw [Kept, fileAfter_concat, history_concat, taken, toList_some, lastSet_concat] at kept
  rcases handle_cases (fileAfter lookup apiPassword arrivals) arrival with
    ⟨merged, same, -, -, handled⟩ | ⟨refused, -⟩
  · obtain rfl : merged = updates := Option.some.inj (same.symm.trans taken)
    have lost (file : Option (List Char)) :
        load lookup (some (merge lookup merged file)) = {} :=
      load_save_of_not_printable fun shown => broken (printable_of_overlay shown)
    rw [handled, lost] at kept
    exact broken (printable_of_overlay (kept ▸ valid_empty.shown))
  · exact absurd (refused.symm.trans taken) (by simp)

/-- The settings are kept all along a run exactly when no update that is accepted has a control character. -/
theorem settings_kept_iff (lookup : JsonElement.Lookup) (apiPassword : Option String) (arrivals : List Arrival) :
    (∀ before, before <+: arrivals → Kept lookup apiPassword before) ↔
      ∀ updates ∈ history lookup apiPassword arrivals, updates.Printable := by
  constructor
  · intro kept updates member
    obtain ⟨arrival, inside, taken⟩ := mem_filterMap.mp member
    obtain ⟨front, back, rfl⟩ := append_of_mem inside
    by_contra broken
    exact not_kept_of_not_printable taken broken (kept (front ++ [arrival]) ⟨back, by simp⟩)
  · rintro shown before ⟨rest, rfl⟩
    rw [history, filterMap_append] at shown
    exact (kept_run (forall_mem_append.mp shown).1).1

def posted (body : String) : Arrival :=
  { request := { httpMethod := "POST", isLocal := true, auth := some "key", contentLength := body.length,
                 body := some body.toList }
    saves := true }

theorem settings_kept_printable : let arrivals := [posted "\x7b\"wallet\":\"w1\"\x7d", posted "\x7b\"worker\":\" rig \\\" 1\"\x7d"]
    (∀ before, before <+: arrivals → Kept .smooth (some "key") before) ∧
      lastSet (history .smooth (some "key") arrivals) = { wallet := some "w1", worker := some "rig \" 1" } :=
  ⟨(settings_kept_iff _ _ _).mpr (by decide +kernel), by decide +kernel⟩

/-- A worker name with a control character is accepted, and the wallet that was set before it is lost with it. -/
theorem wallet_lost : let arrivals := [posted "\x7b\"wallet\":\"w1\"\x7d", posted "\x7b\"worker\":\"a\\u0001b\"\x7d"]
    history .smooth (some "key") arrivals = [{ wallet := some "w1" }, { worker := some "a\x01b" }] ∧
      lastSet (history .smooth (some "key") arrivals) = { wallet := some "w1", worker := some "a\x01b" } ∧
      load .smooth (fileAfter .smooth (some "key") arrivals) = {} := by
  decide +kernel

end runs
end ArcMiner.Observability.Metrics
