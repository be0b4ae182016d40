import ArcMiner.Pool.ReadLoopSafety

/-! Requests and replies on one connection.

Shares, keepalives and answers to challenges go out from tasks of their own, which draw their ids
from one counter. `_requestId++` is a read and a write, between which other tasks may run. The id of
an answer to a challenge is noted before it is sent. The lines that come are handled by the read
loop, first those that were put aside during the handshake.
-/

namespace ArcMiner.Pool.StratumSession

open Library Library.CSharp Library.Action Library.Machine List Option

inductive Request where
  | handshake
  | submit
  | keepalive
  | challengeResponse
deriving DecidableEq

inductive Stage where
  | taken
  | counted
  | noted
deriving DecidableEq

structure Task where
  request : Request
  stage : Stage
  id : Int
deriving DecidableEq

structure Connection (ι : Type) where
  session : Session
  requestId : Int
  tasks : ι → Option Task
  sent : List (Request × Int)
  replies : List Int
  reading : Bool

inductive Event (ι : Type) where
  | take (task : ι) (request : Request)
  | count (task : ι)
  | note (task : ι)
  | send (task : ι)
  | fail (task : ι)
  | receive (line : List Char)

inductive Handshake where
  | legacy
  /-- The pool asks first; its reply to the answer comes within the handshake or not. -/
  | pearlV1 (answered : Bool)

def replyOf (msg : StratumMessage) : Option Int :=
  match msg.method with
  | none => msg.id
  | some _ => none

def replyId (host : Host) (line : List Char) : Option Int :=
  match (host.parse line).map StratumMessage.deserialize with
  | some (.ok (some msg)) => replyOf msg
  | _ => none

def shareResults (calls : List Callback) : List Int :=
  calls.filterMap fun
    | .onShareResult reply _ _ => some reply
    | _ => none

section connection
variable {ι : Type}

def connected (extranonce1 : List UInt8) (requested : Double) : Handshake → Connection ι
  | .legacy => {
      session := .opened extranonce1 requested
      requestId := 2
      tasks := fun _ => none
      sent := [(.handshake, 1)]
      replies := []
      reading := true }
  | .pearlV1 answered => {
      session := { Session.opened extranonce1 requested with challengeRespIds := if answered then [] else [1] }
      requestId := 5
      tasks := fun _ => none
      sent := [(.challengeResponse, 1), (.handshake, 2), (.handshake, 3), (.handshake, 4)]
      replies := if answered then [1] else []
      reading := true }

/-- A request goes out once its id is counted and, for a challenge, noted. -/
def Task.ready (task : Task) : Bool :=
  match task.request with
  | .challengeResponse => task.stage = .noted
  | _ => task.stage = .counted

variable [DecidableEq ι] (host : Host) (toNbits : Double → Result UInt32)

def connectionStep (state : Connection ι) : Event ι → Option (Connection ι)
  | .take task request =>
    if state.tasks task = none ∧ request ≠ .handshake then
      some { state with tasks := Function.update state.tasks task (some ⟨request, .taken, state.requestId⟩) }
    else none
  | .count task => do
    let current ← state.tasks task
    if current.stage = .taken then
      some { state with
        requestId := Int.bmod (current.id + 1) (2 ^ 32)
        tasks := Function.update state.tasks task (some { current with stage := .counted }) }
    else none
  | .note task => do
    let current ← state.tasks task
    if current.request = .challengeResponse ∧ current.stage = .counted then
      some { state with
        session := { state.session with challengeRespIds := state.session.challengeRespIds.insert current.id }
        tasks := Function.update state.tasks task (some { current with stage := .noted }) }
    else none
  | .send task => do
    let current ← state.tasks task
    if current.ready then
      some { state with
        tasks := Function.update state.tasks task none
        sent := state.sent ++ [(current.request, current.id)] }
    else none
  | .fail task => do
    let _ ← state.tasks task
    some { state with tasks := Function.update state.tasks task none }
  | .receive line =>
    if state.reading then
      let (outcome, session) := exec (turn host toNbits line) state.session
      some { state with
        session
        replies := state.replies ++ (replyId host line).toList
        reading := outcome.isOk }
    else none

def Answers (state : Connection ι) : Event ι → Prop
  | .receive line => ∀ id ∈ replyId host line, id ∉ state.replies ∧
      ((Request.submit, id) ∈ state.sent ∨ (Request.challengeResponse, id) ∈ state.sent)
  | _ => True

instance (state : Connection ι) : ∀ event, Decidable (Answers host state event)
  | .receive line => inferInstanceAs (Decidable (∀ id ∈ replyId host line, _ ∧ _))
  | .take _ _ | .count _ | .note _ | .send _ | .fail _ => inferInstanceAs (Decidable True)

end connection

section replies
variable {host : Host} {toNbits : Double → Result UInt32}

def awaited (session : Session) : List Int × List Int := (session.challengeRespIds, shareResults session.calls)

/-- What a line does to them: a reply takes its id from those that are awaited; one that is not awaited is a
verdict, if its error can be told. -/
def Took (session after : Session) : Option Int → Prop
  | none => awaited after = awaited session
  | some id =>
    (id ∈ session.challengeRespIds ∧ awaited after = (session.challengeRespIds.erase id, shareResults session.calls)) ∨
      id ∉ session.challengeRespIds ∧
        (awaited after = awaited session ∨ awaited after = (session.challengeRespIds, shareResults session.calls ++ [id]))

theorem call_keeps {callback : Callback} (other : shareResults [callback] = []) : Keeps awaited (call callback) := by
  refine keeps_modify fun session => congrArg (session.challengeRespIds, ·) ?_
  rw [shareResults, filterMap_append]
  exact (congrArg (shareResults session.calls ++ ·) other).trans (append_nil _)

theorem storeJob_keeps (headerHex : String) (jobId : Option String) : Keeps awaited (storeJob headerHex jobId) :=
  keeps_modify fun _ => rfl

theorem parsePearlNotification_keeps (p : StratumNotifyParams) : Keeps awaited (parsePearlNotification host p) := by
  refine keeps_bind (keeps_ofResult _) fun sigma => ?_
  dsimp only
  cases p.header with
  | none => exact fun _ => rfl
  | some header =>
    refine keeps_bind (keeps_pure _) fun header => keeps_bind (storeJob_keeps _ _) fun _ => ?_
    cases p.jobId with
    | none => exact fun _ => rfl
    | some jobId =>
      refine keeps_bind (keeps_pure _) fun jobId => keeps_bind (keeps_ofResult _) fun targetBytes => keeps_ite ?_ ?_
      · exact keeps_bind (keeps_pure _) fun bSeed => keeps_pure _
      · exact keeps_bind (keeps_ofResult _) fun bSeed => keeps_pure _

theorem parseArrayNotify_keeps (arr : List Json) : Keeps awaited (parseArrayNotify host toNbits arr) := by
  unfold parseArrayNotify
  refine keeps_ite (keeps_pure _) (keeps_ite (keeps_tryCatch ?_ fun _ => keeps_pure _) ?_)
  · refine keeps_bind keeps_get fun session => keeps_bind (keeps_ofResult _) fun job => ?_
    refine keeps_bind (keeps_ofResult _) fun jobId => keeps_bind (storeJob_keeps _ _) fun _ => ?_
    exact keeps_bind (keeps_ofResult _) fun nbits => keeps_pure _
  · refine keeps_bind keeps_get fun session => keeps_bind (keeps_ofResult _) fun jobId => ?_
    refine keeps_bind (keeps_ofResult _) fun header => keeps_bind (keeps_ofResult _) fun height => ?_
    exact keeps_bind (keeps_ofResult _) fun nbits => keeps_pure _

theorem handleNotify_keeps (params : Json) : Keeps awaited (handleNotify host toNbits params) := by
  refine keeps_bind ?_ fun read => ?_
  · cases params with
    | array arr => exact parseArrayNotify_keeps arr
    | _ => exact keeps_bind (keeps_ofResult _) fun p => keeps_pure _
  · cases read with
    | none => exact keeps_pure _
    | some p => exact keeps_bind (parsePearlNotification_keeps p) fun job => call_keeps rfl

theorem handleReply_took (id : Int) (result error : Option Json) (session : Session) :
    Took session (exec (handleReply host id result error) session).2 (some id) := by
  unfold handleReply
  rw [exec_bind, exec_get]
  dsimp only
  by_cases challenge : id ∈ session.challengeRespIds
  · rw [if_pos challenge]
    exact .inl ⟨challenge, rfl⟩
  · rw [if_neg challenge]
    refine .inr ⟨challenge, ?_⟩
    have told : ∀ accepted message, awaited (exec (call (.onShareResult id accepted message)) session).2 =
        (session.challengeRespIds, shareResults session.calls ++ [id]) :=
      fun accepted message => congrArg (session.challengeRespIds, ·) filterMap_append
    cases error with
    | none =>
      refine .inr ?_
      dsimp only
      split <;> exact told _ _
    | some error =>
      dsimp only
      rw [exec_bind, exec_ofResult]
      cases JsonElement.toString host.rawText error with
      | error why => exact .inl rfl
      | ok message => exact .inr (told false message)

theorem handle_took (msg : StratumMessage) (session : Session) :
    Took session (exec (handle host toNbits msg) session).2 (replyOf msg) := by
  obtain ⟨id, method, params, result, error⟩ := msg
  unfold handle
  dsimp only
  split
  · exact handleNotify_keeps _ session
  · exact handleSetDifficulty_keeps host toNbits (fun _ _ => rfl) (fun _ => call_keeps rfl) _ session
  · exact call_keeps rfl session
  · exact call_keeps rfl session
  · exact handleReply_took _ _ _ session
  · next notReply =>
    have nothing : replyOf ⟨id, method, params, result, error⟩ = none := by
      cases method with
      | some name => rfl
      | none =>
        cases id with
        | none => rfl
        | some id => exact absurd rfl (notReply id rfl)
    rw [nothing]
    rfl

theorem turn_took (line : List Char) (session : Session) :
    Took session (exec (turn host toNbits line) session).2 (replyId host line) := by
  rw [turn_session, replyId]
  match (host.parse line).map StratumMessage.deserialize with
  | some (.ok (some msg)) => exact handle_took msg session
  | none | some (.error _) | some (.ok none) => rfl

end replies

section runs
variable {ι : Type} {host : Host} {toNbits : Double → Result UInt32} {state next : Connection ι}

/-- The reply to this id will not be taken for a verdict, or has come. -/
def Expected (state : Connection ι) (id : Int) : Prop := id ∈ state.session.challengeRespIds ∨ id ∈ state.replies

/-- Answers to challenges are expected from before they are sent; verdicts are about shares, each about another one. -/
structure Attended (state : Connection ι) : Prop where
  noted : ∀ task current, state.tasks task = some current → current.stage = .noted → Expected state current.id
  sent : ∀ id, (Request.challengeResponse, id) ∈ state.sent → Expected state id
  verdicts : ∀ id ∈ shareResults state.session.calls, id ∈ state.replies ∧ (Request.submit, id) ∈ state.sent
  once : (shareResults state.session.calls).Nodup

theorem attended_connected (extranonce1 : List UInt8) (requested : Double) (handshake : Handshake) :
    Attended (connected extranonce1 requested handshake : Connection ι) := by
  cases handshake with
  | legacy => exact ⟨fun _ _ => nofun, fun _ => nofun, fun _ => nofun, nodup_nil⟩
  | pearlV1 answered =>
    refine ⟨fun _ _ => nofun, fun id sent => ?_, fun _ => nofun, nodup_nil⟩
    have first : id = 1 := by simpa [connected] using sent
    subst first
    cases answered with
    | true => exact .inr (by simp [connected])
    | false => exact .inl (by simp [connected])

theorem attended_receive (known : Attended state) (line : List Char) (answers : Answers host state (.receive line))
    (reading : Bool) : Attended { state with
      session := (exec (turn host toNbits line) state.session).2
      replies := state.replies ++ (replyId host line).toList
      reading } := by
  have took := @turn_took host toNbits line state.session
  have earlier : ∀ id ∈ shareResults state.session.calls,
      id ∈ state.replies ++ (replyId host line).toList ∧ (Request.submit, id) ∈ state.sent :=
    fun id told => (known.verdicts id told).imp_left (mem_append_left _)
  -- the ids that are awaited, the verdicts and what the replies make of both
  generalize (exec (turn host toNbits line) state.session).2 = after at took ⊢
  suffices now : (∀ id, Expected state id → id ∈ after.challengeRespIds ∨ id ∈ state.replies ++ (replyId host line).toList) ∧
      (∀ id ∈ shareResults after.calls, id ∈ state.replies ++ (replyId host line).toList ∧ (Request.submit, id) ∈ state.sent) ∧
      (shareResults after.calls).Nodup from
    ⟨fun task current found stage => now.1 _ (known.noted task current found stage),
      fun id sent => now.1 id (known.sent id sent), now.2.1, now.2.2⟩
  have still : ∀ id, Expected state id → id ∈ state.session.challengeRespIds ∨ id ∈ state.replies ++ (replyId host line).toList :=
    fun id expected => expected.imp_right (mem_append_left _)
  cases reply : replyId host line with
  | none =>
    rw [reply] at took earlier still
    obtain ⟨ids, results⟩ := Prod.mk.inj took
    rw [ids, results]
    exact ⟨still, earlier, known.once⟩
  | some id =>
    rw [reply] at took earlier still
    obtain ⟨fresh, asked⟩ := answers id reply
    rcases took with ⟨challenge, same⟩ | ⟨verdict, same | same⟩
    · obtain ⟨ids, results⟩ := Prod.mk.inj same
      rw [ids, results]
      refine ⟨fun other expected => ?_, earlier, known.once⟩
      by_cases self : other = id
      · exact .inr (by simp [self])
      · exact (still other expected).imp_left (mem_erase_of_ne self).mpr
    · obtain ⟨ids, results⟩ := Prod.mk.inj same
      rw [ids, results]
      exact ⟨still, earlier, known.once⟩
    · obtain ⟨ids, results⟩ := Prod.mk.inj same
      rw [ids, results]
      -- an answer to a challenge would have been expected
      have submitted := asked.resolve_right fun sent => (known.sent id sent).elim verdict fresh
      refine ⟨still, fun other told => ?_, ?_⟩
      · rcases mem_append.mp told with before | last
        · exact earlier other before
        · cases mem_singleton.mp last
          exact ⟨by simp, submitted⟩
      · refine nodup_append.mpr ⟨known.once, nodup_singleton id, ?_⟩
        rintro other told last here rfl
        rw [mem_singleton.mp here] at told
        exact fresh (known.verdicts id told).1

variable [DecidableEq ι]

theorem attended_update (known : Attended state) (task : ι) {entry : Option Task}
    (silent : ∀ current ∈ entry, current.stage ≠ .noted) (requestId : Int) :
    Attended { state with requestId, tasks := Function.update state.tasks task entry } where
  noted := by
    intro t current now stage
    rcases update_eq_some now with ⟨-, given⟩ | ⟨-, before⟩
    · exact absurd stage (silent current given)
    · exact known.noted t current before stage
  sent := known.sent
  verdicts := known.verdicts
  once := known.once

theorem attended_note (known : Attended state) (task : ι) {current : Task} : Attended { state with
      session := { state.session with challengeRespIds := state.session.challengeRespIds.insert current.id }
      tasks := Function.update state.tasks task (some { current with stage := .noted }) } := by
  have more : ∀ {id}, Expected state id → id ∈ state.session.challengeRespIds.insert current.id ∨ id ∈ state.replies :=
    fun expected => expected.imp_left mem_insert_of_mem
  refine ⟨fun t other now stage => ?_, fun id sent => more (known.sent id sent), known.verdicts, known.once⟩
  rcases update_eq_some now with ⟨-, ⟨⟩⟩ | ⟨-, before⟩
  · exact .inl mem_insert_self
  · exact more (known.noted t other before stage)

theorem attended_send (known : Attended state) {task : ι} {current : Task} (found : state.tasks task = some current)
    (ready : current.ready) : Attended { state with
      tasks := Function.update state.tasks task none
      sent := state.sent ++ [(current.request, current.id)] } where
  noted := (@attended_update ι state _ known task none nofun state.requestId).noted
  sent := by
    intro id sent
    rcases mem_append.mp sent with before | last
    · exact known.sent id before
    · obtain ⟨request, rfl⟩ := Prod.mk.inj (mem_singleton.mp last)
      rw [Task.ready, ← request] at ready
      exact known.noted task current found (of_decide_eq_true ready)
  verdicts := fun id told => ⟨(known.verdicts id told).1, mem_append_left _ (known.verdicts id told).2⟩
  once := known.once

theorem attended_step {event : Event ι} (answers : Answers host state event) (known : Attended state)
    (stepped : connectionStep host toNbits state event = some next) : Attended next := by
  cases event with
  | take task request =>
    obtain ⟨-, ⟨⟩⟩ := ite_none_right_eq_some.mp stepped
    exact attended_update known task (by rintro _ ⟨⟩; nofun) _
  | count task =>
    obtain ⟨current, found, rest⟩ := bind_eq_some_iff.mp stepped
    obtain ⟨-, ⟨⟩⟩ := ite_none_right_eq_some.mp rest
    exact attended_update known task (by rintro _ ⟨⟩; nofun) _
  | note task =>
    obtain ⟨current, found, rest⟩ := bind_eq_some_iff.mp stepped
    obtain ⟨-, ⟨⟩⟩ := ite_none_right_eq_some.mp rest
    exact attended_note known task
  | send task =>
    obtain ⟨current, found, rest⟩ := bind_eq_some_iff.mp stepped
    obtain ⟨ready, ⟨⟩⟩ := ite_none_right_eq_some.mp rest
    exact attended_send known found ready
  | fail task =>
    obtain ⟨current, found, ⟨⟩⟩ := bind_eq_some_iff.mp stepped
    exact attended_update known task (by rintro _ ⟨⟩) _
  | receive line =>
    obtain ⟨-, ⟨⟩⟩ := ite_none_right_eq_some.mp stepped
    exact attended_receive known line answers _

/-- If every reply answers a share or an answer to a challenge and nothing is answered twice, verdicts are given for
replies to shares, once for each. -/
theorem share_results_for_shares (host : Host) (toNbits : Double → Result UInt32) (extranonce1 : List UInt8)
    (requested : Double) (handshake : Handshake) {events : List (Event ι)} {final : Connection ι}
    (answers : Along (connectionStep host toNbits) (Answers host) (connected extranonce1 requested handshake) events)
    (ran : run (connectionStep host toNbits) (connected extranonce1 requested handshake) events = some final) :
    (∀ id ∈ shareResults final.session.calls, (Request.submit, id) ∈ final.sent) ∧
      (shareResults final.session.calls).Nodup := by
  have known : Attended final :=
    run_invariant Attended attended_step answers (attended_connected extranonce1 requested handshake) ran
  exact ⟨fun id told => (known.verdicts id told).2, known.once⟩

def replyLine (id : String) : List Char := "\x7b\"id\":".toList ++ id.toList ++ ",\"result\":true\x7d".toList

/-- A share and an answer to a challenge, with their counts of the ids interleaved, are both replied to. -/
theorem share_results_interleaved :
    ∃ final, run (connectionStep .plain (difficultyToNbits id)) (connected [] (.finite 0) .legacy)
        [.take (0 : Fin 2) .submit, .count 0, .take 1 .challengeResponse, .send 0, .count 1, .note 1, .send 1,
          .receive (replyLine "3"), .receive (replyLine "2")] = some final ∧
      shareResults final.session.calls = [2] ∧
      (∀ id ∈ shareResults final.session.calls, (Request.submit, id) ∈ final.sent) ∧
      (shareResults final.session.calls).Nodup := by
  obtain ⟨final, ran, told⟩ := map_eq_some_iff.mp (show
    (run (connectionStep .plain (difficultyToNbits id)) (connected [] (.finite 0) .legacy)
        [.take (0 : Fin 2) .submit, .count 0, .take 1 .challengeResponse, .send 0, .count 1, .note 1, .send 1,
          .receive (replyLine "3"), .receive (replyLine "2")]).map (fun final => shareResults final.session.calls) =
      some [2] by decide +kernel)
  exact ⟨final, ran, told, share_results_for_shares .plain (difficultyToNbits id) [] (.finite 0) .legacy (by decide +kernel) ran⟩

theorem keepalive_reply_is_verdict :
    ∃ final, run (connectionStep .plain (difficultyToNbits id)) (connected [] (.finite 0) .legacy)
        [.take (0 : Fin 1) .keepalive, .count 0, .send 0, .receive (replyLine "2")] = some final ∧
      shareResults final.session.calls = [2] ∧ (Request.submit, 2) ∉ final.sent := by
  obtain ⟨final, ran, told⟩ := map_eq_some_iff.mp (show
    (run (connectionStep .plain (difficultyToNbits id)) (connected [] (.finite 0) .legacy)
        [.take (0 : Fin 1) .keepalive, .count 0, .send 0, .receive (replyLine "2")]).map
        (fun final => (shareResults final.session.calls, final.sent)) =
      some ([2], [(.handshake, 1), (.keepalive, 2)]) by decide +kernel)
  obtain ⟨results, sent⟩ := Prod.mk.inj told
  exact ⟨final, ran, results, by rw [sent]; decide⟩

end runs
end ArcMiner.Pool.StratumSession
