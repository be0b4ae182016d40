import ArcMiner.Rx.RxPoolClient
import ArcMiner.Stratum.StratumSession

/-! Which job a CryptoNote connection publishes.

The read loop installs a pushed job while it handles the frame. The job of the login is installed by the
continuation of the call, which runs some time after the read loop has settled the task of the call.
-/

namespace ArcMiner.Stratum

open Library Library.CSharp Library.Machine Option CryptoNoteJob

namespace StratumSession

section
variable {ι : Type} [DecidableEq ι]

def Session.handed (state : Session ι) (caller : ι) : Option Outcome :=
  state.delivering.bind fun handed => if handed.1 = caller then some handed.2 else none

def Session.settling (state : Session ι) (caller : ι) : Option Outcome :=
  (state.calls caller).bind fun call => call.settled.or (state.handed caller)

structure Settled (state : Session ι) : Prop where
  leaving : ∀ {caller call frame}, state.calls caller = some call → call.stage.outcome = some (.result frame) →
    call.settled = some (.result frame)
  handed : ∀ {caller outcome call}, state.delivering = some (caller, outcome) → state.calls caller = some call →
    call.stage ≠ .drawn ∧ ∀ entry ∈ state.pending, entry.2 ≠ caller

def Answered (state : Session ι) (caller : ι) (frame : Frame) : Prop :=
  ∃ call, state.calls caller = some call ∧ call.settled.or (state.handed caller) = some (.result frame) ∧
    (call.stage.outcome = none ∨ call.stage.outcome = some (.result frame))

variable {state next : Session ι} {caller : ι} {event : Event ι} {frame : Frame}

theorem settling_eq {call : Call} (called : state.calls caller = some call) :
    state.settling caller = call.settled.or (state.handed caller) := by
  rw [Session.settling, called, bind_some]

theorem handed_eq_none (idle : state.delivering = none) : state.handed caller = none := by
  rw [Session.handed, idle, bind_none]

theorem handed_eq_some {outcome : Outcome} :
    state.handed caller = some outcome ↔ state.delivering = some (caller, outcome) := by
  unfold Session.handed
  cases state.delivering with
  | none => simp
  | some handed => simp [Prod.ext_iff]

theorem Answered.settling (answered : Answered state caller frame) : state.settling caller = some (.result frame) := by
  obtain ⟨call, called, settled, -⟩ := answered
  exact (settling_eq called).trans settled

omit [DecidableEq ι] in
theorem ne_of_fresh {other : ι} {call : Call} (called : state.calls caller = some call)
    (fresh : state.calls other = none) : caller ≠ other := by
  rintro rfl
  exact absurd (fresh.symm.trans called) (by simp)

theorem Call.not_drawn_of_move {call now : Call} {move : Move} (moved : call.move move = some now) :
    now.stage ≠ .drawn := by
  obtain ⟨-, -, rfl⟩ | ⟨-, -, rfl⟩ | ⟨-, -, rfl⟩ | ⟨-, stage, -, rfl⟩ | ⟨_, -, -, -, rfl⟩ | ⟨_, -, -, rfl⟩ :=
    move_cases moved
  all_goals simp_all

omit [DecidableEq ι] in
theorem settled_settleWhere (chosen : ι → Prop) [DecidablePred chosen] (outcome : Outcome) {now : Call}
    (holds : Settled state) (found : settleWhere chosen outcome state.calls caller = some now)
    (leaves : now.stage.outcome = some (.result frame)) : now.settled = some (.result frame) := by
  obtain ⟨call, called, rfl | ⟨-, rfl⟩⟩ := settleWhere_cases found
  · exact holds.leaving called leaves
  · have was := holds.leaving called leaves
    rw [Call.settle, was, some_or]

theorem settled_move {call now : Call} {move : Move} (holds : Settled state) (called : state.calls caller = some call)
    (moved : call.move move = some now) :
    Settled { state with
      calls := Function.update state.calls caller (some now)
      pending := tableAfter caller call state.pending move
      completions := state.completions ++ completionOf caller now } where
  leaving found leaves := by
    rcases update_eq_some found with ⟨rfl, ⟨⟩⟩ | ⟨-, before⟩
    · obtain ⟨-, -, rfl⟩ | ⟨-, -, rfl⟩ | ⟨-, -, rfl⟩ | ⟨-, stage, -, rfl⟩ | ⟨_, -, -, was, rfl⟩ | ⟨_, -, stage, rfl⟩ :=
        Call.move_cases moved
      · cases leaves
      · cases leaves
      · cases leaves
      · cases stage ▸ leaves
      · exact was.trans leaves
      · have before := (congrArg Stage.outcome stage).trans leaves
        have was := holds.leaving called before
        exact was
    · exact holds.leaving before leaves
  handed {other outcome found} delivering isCalled := by
    -- Whoever waits for the read loop has registered already, so no entry is added for it.
    have unlisted (before : Call) (wasCalled : state.calls other = some before) :
        ∀ entry ∈ tableAfter caller call state.pending move, entry.2 ≠ other := by
      intro entry listed
      obtain ⟨notDrawn, none⟩ := holds.handed delivering wasCalled
      cases move with
      | register =>
        rcases List.mem_cons.mp listed with rfl | before
        · rintro rfl
          obtain rfl := some.inj (called.symm.trans wasCalled)
          obtain ⟨-, drawn, -⟩ | ⟨⟨⟩, -⟩ | ⟨⟨⟩, -⟩ | ⟨⟨⟩, -⟩ | ⟨_, ⟨⟩, -⟩ | ⟨_, ⟨⟩, -⟩ := Call.move_cases moved
          exact notDrawn drawn
        · exact none entry (mem_without before).1
      | finish => exact none entry (mem_without listed).1
      | sendSucceeds | sendFails | timeOut | resume => exact none entry listed
    rcases update_eq_some isCalled with ⟨rfl, ⟨⟩⟩ | ⟨-, before⟩
    · exact ⟨Call.not_drawn_of_move moved, unlisted call called⟩
    · exact ⟨(holds.handed delivering before).1, unlisted found before⟩

omit [DecidableEq ι] in
theorem settled_receive {id : Int} (correlated : Correlated state) (holds : Settled state)
    (entry : state.pending.find? (fun entry => entry.1 = frame.id) = some (id, caller)) :
    Settled { state with
      received := state.received ++ [frame]
      pending := without id state.pending
      delivering := some (caller, frame.outcome) } where
  leaving := holds.leaving
  handed := by
    rintro _ _ call ⟨⟩ called
    obtain ⟨same, again, itsId, listed⟩ := correlated.entries _ (List.mem_of_find?_eq_some entry)
    obtain rfl := some.inj (called.symm.trans again)
    refine ⟨fun drawn => ?_, fun other left mine => ?_⟩
    · rw [drawn] at listed
      cases listed
    · obtain ⟨wasThere, otherId⟩ := mem_without left
      obtain ⟨same, again, sameId, -⟩ := correlated.entries other wasThere
      rw [mine] at again
      obtain rfl := some.inj (called.symm.trans again)
      exact otherId (sameId.symm.trans itsId)

theorem settled_step (correlated : Correlated state) (holds : Settled state)
    (stepped : sessionStep state event = some next) : Settled next := by
  cases stepped_of_step stepped with
  | called fresh =>
    refine ⟨fun found leaves => ?_, fun delivering found => ?_⟩
    · rcases update_eq_some found with ⟨-, ⟨⟩⟩ | ⟨-, before⟩
      · cases leaves
      · exact holds.leaving before leaves
    · rcases update_eq_some found with ⟨rfl, -⟩ | ⟨-, before⟩
      · obtain ⟨call, called, -⟩ := correlated.handing delivering
        exact absurd rfl (ne_of_fresh called fresh)
      · exact holds.handed delivering before
  | moved called moved => exact settled_move holds called moved
  | ignored => exact ⟨holds.leaving, holds.handed⟩
  | taken _ _ entry => exact settled_receive correlated holds entry
  | @delivered handedTo outcome _ => exact ⟨settled_settleWhere (· = handedTo) outcome holds, nofun⟩
  | canceled =>
    refine ⟨settled_settleWhere (· ∈ state.pending.map Prod.snd) .canceled holds, fun delivering found => ⟨?_, nofun⟩⟩
    have found : settleWhere (· ∈ state.pending.map Prod.snd) .canceled state.calls _ = some _ := found
    obtain ⟨call, called, rfl | ⟨-, rfl⟩⟩ := settleWhere_cases found
    · exact (holds.handed delivering called).1
    · exact (holds.handed delivering called).1
  | lost => exact ⟨holds.leaving, holds.handed⟩

theorem answered_move {call now : Call} {move : Move} (moved : call.move move = some now)
    (succeeds : move ≠ .sendFails ∧ move ≠ .timeOut) {handed : Option Outcome}
    (settled : call.settled.or handed = some (.result frame))
    (stage : call.stage.outcome = none ∨ call.stage.outcome = some (.result frame)) :
    now.settled.or handed = some (.result frame) ∧
      (now.stage.outcome = none ∨ now.stage.outcome = some (.result frame)) := by
  obtain ⟨-, -, rfl⟩ | ⟨-, -, rfl⟩ | ⟨fails, -, -⟩ | ⟨fails, -, -, -⟩ | ⟨outcome, -, -, was, rfl⟩ |
    ⟨outcome, -, finishing, rfl⟩ := Call.move_cases moved
  · exact ⟨settled, .inl rfl⟩
  · exact ⟨settled, .inl rfl⟩
  · exact absurd fails succeeds.1
  · exact absurd fails succeeds.2
  · rw [was, some_or] at settled
    exact ⟨by rw [was, some_or, settled], .inr settled⟩
  · rw [finishing] at stage
    exact ⟨settled, stage⟩

omit [DecidableEq ι] in
theorem settling_settleWhere (chosen : ι → Prop) [DecidablePred chosen] (outcome : Outcome) {call : Call}
    (called : state.calls caller = some call) (settled : chosen caller → call.settled.isSome = true) :
    ∃ now, settleWhere chosen outcome state.calls caller = some now ∧ now.stage = call.stage ∧
      now.settled = call.settled := by
  by_cases picked : chosen caller
  · obtain ⟨first, was⟩ := isSome_iff_exists.mp (settled picked)
    exact ⟨call.settle outcome, by simp [settleWhere, picked, called], rfl, by rw [Call.settle, was, some_or]⟩
  · exact ⟨call, by simp [settleWhere, picked, called], rfl, rfl⟩

theorem answered_step (holds : Settled state) (answered : Answered state caller frame)
    (succeeds : event ≠ .move caller .sendFails ∧ event ≠ .move caller .timeOut)
    (stepped : sessionStep state event = some next) : Answered next caller frame := by
  obtain ⟨call, called, settled, stage⟩ := answered
  cases stepped_of_step stepped with
  | called fresh =>
    exact ⟨call, (Function.update_of_ne (ne_of_fresh called fresh) ..).trans called, settled, stage⟩
  | @moved other moving now move movingCalled moved =>
    by_cases same : caller = other
    · subst same
      obtain rfl := some.inj (called.symm.trans movingCalled)
      have noFailure : move ≠ .sendFails ∧ move ≠ .timeOut := by
        constructor <;> rintro rfl
        · exact succeeds.1 rfl
        · exact succeeds.2 rfl
      exact ⟨now, Function.update_self .., answered_move moved noFailure settled stage⟩
    · exact ⟨call, (Function.update_of_ne same ..).trans called, settled, stage⟩
  | ignored => exact ⟨call, called, settled, stage⟩
  | taken _ idle =>
    rw [handed_eq_none idle, or_none] at settled
    exact ⟨call, called, by rw [settled, some_or], stage⟩
  | @delivered handedTo outcome delivering =>
    by_cases same : caller = handedTo
    · subst same
      rw [handed_eq_some.mpr delivering] at settled
      refine ⟨call.settle outcome, by simp [settleWhere, called], ?_, stage⟩
      rw [handed_eq_none rfl, or_none]
      exact settled
    · have nothing : state.handed caller = none := by
        simp [Session.handed, delivering, Ne.symm same]
      rw [nothing] at settled
      refine ⟨call, by simp [settleWhere, same, called], ?_, stage⟩
      rw [handed_eq_none rfl, settled]
  | canceled =>
    -- Only a call that the table still lists is canceled, so the read loop has taken no response for it.
    have ready : caller ∈ state.pending.map Prod.snd → call.settled.isSome = true := by
      intro listed
      obtain ⟨entry, isEntry, itsCaller⟩ := List.mem_map.mp listed
      cases waiting : state.handed caller with
      | none =>
        rw [waiting, or_none] at settled
        rw [settled]
        rfl
      | some outcome => exact absurd itsCaller ((holds.handed (handed_eq_some.mp waiting) called).2 entry isEntry)
    obtain ⟨now, nowCalled, sameStage, same⟩ := settling_settleWhere _ .canceled called ready
    exact ⟨now, nowCalled, by rw [same]; exact settled, by rw [sameStage]; exact stage⟩
  | lost => exact ⟨call, called, settled, stage⟩

theorem eq_of_outcome {other : Frame} (result : frame.outcome = .result other) : other = frame := by
  unfold Frame.outcome at result
  split at result <;> cases result <;> rfl

theorem outcome_of_succeeds (succeeds : frame.outcome.failed = false) : frame.outcome = .result frame := by
  unfold Frame.outcome at succeeds ⊢
  split at succeeds
  next => rfl
  next => rfl
  next => cases succeeds

/-- A call gets a result only from the read loop. -/
theorem result_of_step (correlated : Correlated state) (stepped : sessionStep state event = some next)
    (result : next.settling caller = some (.result frame)) :
    state.settling caller = some (.result frame) ∨
      event = .receive frame ∧ ∃ id, state.pending.find? (fun entry => entry.1 = frame.id) = some (id, caller) := by
  obtain ⟨now, nowCalled, settled⟩ := bind_eq_some_iff.mp result
  cases stepped_of_step stepped with
  | called fresh =>
    rcases update_eq_some nowCalled with ⟨rfl, ⟨⟩⟩ | ⟨-, before⟩
    · obtain ⟨call, called, -⟩ := correlated.handing (handed_eq_some.mp settled)
      exact absurd rfl (ne_of_fresh called fresh)
    · exact .inl ((settling_eq before).trans settled)
  | moved called moved =>
    rcases update_eq_some nowCalled with ⟨rfl, ⟨⟩⟩ | ⟨-, before⟩
    · apply Or.inl
      apply (settling_eq called).trans
      obtain ⟨-, -, rfl⟩ | ⟨-, -, rfl⟩ | ⟨-, -, rfl⟩ | ⟨-, -, -, rfl⟩ | ⟨_, -, -, -, rfl⟩ | ⟨_, -, -, rfl⟩ :=
        Call.move_cases moved
      case inr.inr.inr.inl => cases settled
      all_goals exact settled
    · exact .inl ((settling_eq before).trans settled)
  | ignored => exact .inl result
  | @taken received id handedTo _ idle entry =>
    have called : state.calls caller = some now := nowCalled
    cases was : now.settled with
    | some outcome =>
      rw [was, some_or] at settled
      exact .inl (by rw [settling_eq called, was, settled, some_or])
    | none =>
      rw [was, none_or] at settled
      obtain ⟨rfl, isResult⟩ : handedTo = caller ∧ received.outcome = .result frame := by
        simpa using handed_eq_some.mp settled
      obtain rfl := eq_of_outcome isResult
      exact .inr ⟨rfl, id, entry⟩
  | @delivered handedTo outcome delivering =>
    have found : settleWhere (· = handedTo) outcome state.calls caller = some now := nowCalled
    rw [handed_eq_none rfl, or_none] at settled
    apply Or.inl
    obtain ⟨call, called, rfl | ⟨rfl, rfl⟩⟩ := settleWhere_cases found
    · rw [settling_eq called, settled, some_or]
    · rw [settling_eq called, handed_eq_some.mpr delivering]
      exact settled
  | canceled =>
    have found : settleWhere (· ∈ state.pending.map Prod.snd) .canceled state.calls caller = some now := nowCalled
    apply Or.inl
    obtain ⟨call, called, rfl | ⟨-, rfl⟩⟩ := settleWhere_cases found
    · exact (settling_eq called).trans settled
    · cases was : call.settled with
      | none =>
        rw [Call.settle, was] at settled
        cases settled
      | some outcome =>
        rw [Call.settle, was] at settled
        rw [settling_eq called, was]
        exact settled
  | lost => exact .inl result

end
end StratumSession

namespace CryptoNoteConnection

open StratumSession CryptoNoteStratumDialect

/-- One connection. `none` is the call of the login, the others are keepalives and shares. -/
structure Connection (κ : Type) where
  session : Session (Option κ)
  dialect : CryptoNoteStratumDialect
  loginEnded : Bool
  /-- The jobs of the frames that were received, in their order. -/
  carried : List CryptoNoteJob

def Connection.opened {κ : Type} : Connection κ := ⟨.opened, .opened, false, []⟩

inductive Event (κ : Type) where
  | session (event : StratumSession.Event (Option κ))
  | notify (method : String) (root : Json)
  | continueLogin

section
variable {κ : Type} [DecidableEq κ] (lookup : JsonElement.Lookup) (parseJob : Json → Result CryptoNoteJob)

def carriedBy (c : Connection κ) : StratumSession.Event (Option κ) → Option CryptoNoteJob
  | .receive frame =>
    if (c.session.calls none).any fun call => call.id = frame.id then (loginJob lookup parseJob frame.result).toOption
    else none
  | _ => none

def afterCall (outcome : Outcome) (dialect : CryptoNoteStratumDialect) : CryptoNoteStratumDialect :=
  match outcome with
  | .result frame => (login lookup parseJob frame.result dialect).toOption.getD dialect
  | _ => dialect

def step (c : Connection κ) : Event κ → Option (Connection κ)
  | .session event => do
    let session ← sessionStep c.session event
    some { c with session, carried := c.carried ++ (carriedBy lookup parseJob c event).toList }
  | .notify method root =>
    if c.session.reading ∧ c.session.delivering = none then
      match onNotification lookup parseJob method root c.dialect with
      | .ok dialect => some { c with dialect, carried := c.carried ++ (pushedJob lookup parseJob method root).toList }
      -- What the handler throws ends the read loop.
      | .error _ => some { c with session := { c.session with reading := false } }
    else none
  | .continueLogin => do
    let call ← c.session.calls none
    match call.stage with
    | .done outcome =>
      if c.loginEnded then none
      else some { c with loginEnded := true, dialect := afterCall lookup parseJob outcome c.dialect }
    | _ => none

/-- Every frame is handled: the read loop is at none, and no response waits for the login to go on. -/
def Handled (c : Connection κ) : Prop :=
  c.session.delivering = none ∧ ∀ call, c.session.calls none = some call → call.settled.isSome → c.loginEnded = true

def jobOf : Outcome → Option CryptoNoteJob
  | .result frame => (loginJob lookup parseJob frame.result).toOption
  | _ => none

def arriving (c : Connection κ) : Option CryptoNoteJob :=
  if c.loginEnded then none else (c.session.settling none).bind (jobOf lookup parseJob)

/-- The login waits for this response, and the response is one it can read. -/
def awaits (c : Connection κ) (frame : Frame) : Bool :=
  !c.loginEnded &&
    (c.session.calls none).any (fun call => call.settled.isNone && call.stage.outcome.isNone) &&
    (c.session.pending.find? fun entry => entry.1 = frame.id).any (fun entry => entry.2.isNone) &&
    !frame.outcome.failed && (loginId lookup frame.result).toOption.isSome

/-- A job comes when no other one is still to be installed, and the login does not fail once it has one. -/
def inOrder (c : Connection κ) : Event κ → Bool
  | .session (.receive frame) => (carriedBy lookup parseJob c (.receive frame)).isNone || awaits lookup c frame
  | .session (.move none .sendFails) | .session (.move none .timeOut) => (arriving lookup parseJob c).isNone
  | .notify method root => (pushedJob lookup parseJob method root).isNone || (arriving lookup parseJob c).isNone
  | _ => true

structure Latest (c : Connection κ) : Prop where
  correlated : Correlated c.session
  settled : Settled c.session
  latest : (arriving lookup parseJob c).or c.dialect.job = c.carried.getLast?
  answered : ∀ job, arriving lookup parseJob c = some job →
    ∃ frame id, Answered c.session none frame ∧ loginId lookup frame.result = .ok id

variable {lookup parseJob} {c next : Connection κ}

theorem arriving_eq_some {job : CryptoNoteJob} :
    arriving lookup parseJob c = some job ↔ c.loginEnded = false ∧
      ∃ frame, c.session.settling none = some (.result frame) ∧
        (loginJob lookup parseJob frame.result).toOption = some job := by
  unfold arriving
  cases c.loginEnded with
  | true => simp
  | false =>
    simp only [Bool.false_eq_true, if_false, true_and]
    constructor
    · intro arrives
      obtain ⟨outcome, settling, found⟩ := bind_eq_some_iff.mp arrives
      cases outcome with
      | result frame => exact ⟨frame, settling, found⟩
      | rpcError | timedOut | canceled | sendFailed => cases found
    · rintro ⟨frame, settling, found⟩
      rw [settling]
      exact found

theorem arriving_of_answered {session : Session (Option κ)} {frame : Frame} (waiting : c.loginEnded = false)
    (answered : Answered session none frame) :
    arriving lookup parseJob { c with session } = (loginJob lookup parseJob frame.result).toOption := by
  rw [arriving, waiting, answered.settling]
  rfl

omit [DecidableEq κ] in
theorem of_awaits {frame : Frame} (waits : awaits lookup c frame = true) :
    c.loginEnded = false ∧ frame.outcome = .result frame ∧ (∃ text, loginId lookup frame.result = .ok text) ∧
      (∃ id, c.session.pending.find? (fun entry => entry.1 = frame.id) = some (id, none)) ∧
      ∃ call, c.session.calls none = some call ∧ call.settled = none ∧ call.stage.outcome = none := by
  simp only [awaits, Bool.and_eq_true, Bool.not_eq_true', any_eq_true, isNone_iff_eq_none,
    isSome_iff_exists] at waits
  obtain ⟨⟨⟨⟨waiting, unsettled⟩, ⟨id, _⟩, listed, rfl⟩, succeeds⟩, text, readable⟩ := waits
  refine ⟨waiting, outcome_of_succeeds succeeds, ⟨text, ?_⟩, ⟨id, listed⟩, unsettled⟩
  cases read : loginId lookup frame.result with
  | ok found =>
    rw [read] at readable
    exact congrArg _ (some.inj readable)
  | error =>
    rw [read] at readable
    cases readable

theorem answered_of_awaits {frame : Frame} {session : Session (Option κ)} (waits : awaits lookup c frame = true)
    (stepped : sessionStep c.session (.receive frame) = some session) : Answered session none frame := by
  obtain ⟨-, isResult, -, ⟨id, listed⟩, call, called, unsettled, staying⟩ := of_awaits waits
  cases stepped_of_step stepped with
  | ignored _ _ unknown => exact absurd (unknown.symm.trans listed) (by simp)
  | taken _ _ entry =>
    cases entry.symm.trans listed
    refine ⟨call, called, ?_, .inl staying⟩
    rw [unsettled, none_or]
    exact handed_eq_some.mpr (by rw [isResult])

theorem not_awaits_of_arriving {frame : Frame} {session : Session (Option κ)} {job : CryptoNoteJob}
    (arrives : arriving lookup parseJob c = some job)
    (stepped : sessionStep c.session (.receive frame) = some session) : awaits lookup c frame = false := by
  by_contra waits
  obtain ⟨-, -, -, -, call, called, unsettled, -⟩ := of_awaits (Bool.not_eq_false _ ▸ waits)
  obtain ⟨-, earlier, settling, -⟩ := arriving_eq_some.mp arrives
  have idle : c.session.delivering = none := by
    cases stepped_of_step stepped with
    | ignored _ idle => exact idle
    | taken _ idle => exact idle
  rw [settling_eq called, unsettled, handed_eq_none idle] at settling
  cases settling

variable {event : StratumSession.Event (Option κ)} {session : Session (Option κ)}

theorem arriving_step
    {job : CryptoNoteJob} (holds : Latest lookup parseJob c)
    (ordered : inOrder lookup parseJob c (.session event) = true)
    (stepped : sessionStep c.session event = some session) (arrives : arriving lookup parseJob c = some job) :
    carriedBy lookup parseJob c event = none ∧
      ∃ frame id, Answered session none frame ∧ loginId lookup frame.result = .ok id ∧
        (loginJob lookup parseJob frame.result).toOption = some job := by
  obtain ⟨frame, id, answered, readable⟩ := holds.answered job arrives
  have waiting := (arriving_eq_some.mp arrives).1
  have itsJob := (arriving_of_answered waiting answered).symm.trans arrives
  have succeeds : event ≠ .move none .sendFails ∧ event ≠ .move none .timeOut := by
    constructor <;> rintro rfl <;> simp [inOrder, arrives] at ordered
  refine ⟨?_, frame, id, answered_step holds.settled answered succeeds stepped, readable, itsJob⟩
  cases event with
  | receive received =>
    have ordered : (carriedBy lookup parseJob c (.receive received)).isNone = true := by
      simpa [inOrder, not_awaits_of_arriving arrives stepped] using ordered
    exact isNone_iff_eq_none.mp ordered
  | call | move | deliver | cancelPending | lose => rfl

theorem arriving_eq_none_of_step
    (correlated : Correlated c.session) (stepped : sessionStep c.session event = some session)
    (nothing : arriving lookup parseJob c = none) (carries : carriedBy lookup parseJob c event = none) :
    arriving lookup parseJob { c with session } = none := by
  by_contra something
  obtain ⟨job, arrives⟩ := ne_none_iff_exists'.mp something
  obtain ⟨waiting, frame, settling, found⟩ := arriving_eq_some.mp arrives
  rcases result_of_step correlated stepped settling with before | ⟨rfl, id, listed⟩
  · exact absurd (nothing.symm.trans (arriving_eq_some.mpr ⟨waiting, frame, before, found⟩)) (by simp)
  · obtain ⟨call, called, itsId, -⟩ := correlated.entries _ (List.mem_of_find?_eq_some listed)
    have same : id = frame.id := by simpa using List.find?_some listed
    have bears : call.id = frame.id := itsId.trans same
    simp [carriedBy, called, bears, found] at carries

theorem latest_session
    (holds : Latest lookup parseJob c) (ordered : inOrder lookup parseJob c (.session event) = true)
    (stepped : sessionStep c.session event = some session) :
    Latest lookup parseJob
      { c with session, carried := c.carried ++ (carriedBy lookup parseJob c event).toList } := by
  have correlated := correlated_step holds.correlated stepped
  have settled := settled_step holds.correlated holds.settled stepped
  have latest := holds.latest
  cases arrives : arriving lookup parseJob c with
  | some job =>
    obtain ⟨carries, frame, id, answered, readable, itsJob⟩ := arriving_step holds ordered stepped arrives
    have waiting := (arriving_eq_some.mp arrives).1
    have still := (arriving_of_answered waiting answered).trans itsJob
    refine ⟨correlated, settled, ?_, fun _ _ => ⟨frame, id, answered, readable⟩⟩
    rw [arrives] at latest
    show (arriving lookup parseJob { c with session }).or c.dialect.job = (c.carried ++ (carriedBy ..).toList).getLast?
    rw [still, carries, latest, toList_none, List.append_nil]
  | none =>
    cases carries : carriedBy lookup parseJob c event with
    | none =>
      have still := arriving_eq_none_of_step holds.correlated stepped arrives carries
      refine ⟨correlated, settled, ?_, fun _ now => absurd (still.symm.trans now) (by simp)⟩
      rw [arrives] at latest
      show (arriving lookup parseJob { c with session }).or c.dialect.job = (c.carried ++ []).getLast?
      rw [still, latest, List.append_nil]
    | some job =>
      cases event with
      | receive frame =>
        have waits : awaits lookup c frame = true := by simpa [inOrder, carries] using ordered
        obtain ⟨waiting, -, ⟨id, readable⟩, -⟩ := of_awaits waits
        have answered := answered_of_awaits waits stepped
        have itsJob := (ite_none_right_eq_some.mp carries).2
        have now := (arriving_of_answered waiting answered).trans itsJob
        refine ⟨correlated, settled, ?_, fun _ _ => ⟨frame, id, answered, readable⟩⟩
        show (arriving lookup parseJob { c with session }).or c.dialect.job = (c.carried ++ [job]).getLast?
        rw [now, some_or, List.getLast?_concat]
      | call | move | deliver | cancelPending | lose => cases carries

theorem latest_notify {method : String} {root : Json} {dialect : CryptoNoteStratumDialect}
    (holds : Latest lookup parseJob c) (ordered : inOrder lookup parseJob c (.notify method root) = true)
    (handled : onNotification lookup parseJob method root c.dialect = .ok dialect) :
    Latest lookup parseJob
      { c with dialect, carried := c.carried ++ (pushedJob lookup parseJob method root).toList } := by
  refine ⟨holds.correlated, holds.settled, ?_, holds.answered⟩
  have latest := holds.latest
  have installed := onNotification_job handled
  cases pushed : pushedJob lookup parseJob method root with
  | none =>
    rw [pushed, none_or] at installed
    show (arriving lookup parseJob c).or dialect.job = (c.carried ++ []).getLast?
    rw [installed, latest, List.append_nil]
  | some job =>
    have nothing : arriving lookup parseJob c = none := by
      simpa [inOrder, pushed] using ordered
    show (arriving lookup parseJob c).or dialect.job = (c.carried ++ [job]).getLast?
    rw [nothing, installed, pushed, none_or, some_or, List.getLast?_concat]

theorem arriving_eq_none_of_failed {call : Call} {outcome : Outcome} (holds : Latest lookup parseJob c)
    (called : c.session.calls none = some call) (done : call.stage = .done outcome)
    (failed : outcome.failed = true) : arriving lookup parseJob c = none := by
  by_contra something
  obtain ⟨job, arrives⟩ := ne_none_iff_exists'.mp something
  obtain ⟨frame, -, ⟨same, again, -, stage⟩, -⟩ := holds.answered job arrives
  obtain rfl := some.inj (called.symm.trans again)
  rw [done] at stage
  rcases stage with ⟨⟨⟩⟩ | result
  cases result
  cases failed

theorem latest_continueLogin {call : Call} {outcome : Outcome} (holds : Latest lookup parseJob c)
    (called : c.session.calls none = some call) (done : call.stage = .done outcome) (waiting : c.loginEnded = false) :
    Latest lookup parseJob
      { c with loginEnded := true, dialect := afterCall lookup parseJob outcome c.dialect } := by
  refine ⟨holds.correlated, holds.settled, ?_, nofun⟩
  show (afterCall lookup parseJob outcome c.dialect).job = c.carried.getLast?
  have latest := holds.latest
  cases outcome with
  | result frame =>
    have settled := holds.settled.leaving called (by rw [done]; rfl)
    have answered : Answered c.session none frame :=
      ⟨call, called, by rw [settled, some_or], .inr (by rw [done]; rfl)⟩
    have arrives : arriving lookup parseJob c = (loginJob lookup parseJob frame.result).toOption :=
      arriving_of_answered waiting answered
    cases found : loginJob lookup parseJob frame.result with
    | ok job =>
      rw [found] at arrives
      obtain ⟨same, id, sameAnswered, readable⟩ := holds.answered job arrives
      cases answered.settling.symm.trans sameAnswered.settling
      rw [arrives] at latest
      rw [afterCall, login, readable, found]
      exact latest
    | error thrown =>
      rw [found] at arrives
      rw [arrives] at latest
      obtain ⟨why, fails⟩ := login_error found c.dialect
      rw [afterCall, fails]
      exact latest
  | rpcError | timedOut | canceled | sendFailed =>
    rw [arriving_eq_none_of_failed holds called done rfl] at latest
    exact latest

theorem latest_step {event : Event κ} (ordered : inOrder lookup parseJob c event = true)
    (holds : Latest lookup parseJob c) (stepped : step lookup parseJob c event = some next) :
    Latest lookup parseJob next := by
  cases event with
  | session event =>
    obtain ⟨session, moves, ⟨⟩⟩ := bind_eq_some_iff.mp stepped
    exact latest_session holds ordered moves
  | notify method root =>
    simp only [step, ite_none_right_eq_some] at stepped
    obtain ⟨-, handled⟩ := stepped
    split at handled
    next dialect isOk =>
      cases handled
      exact latest_notify holds ordered isOk
    next =>
      cases handled
      obtain ⟨⟨sound, entries, handing, completed, once⟩, ⟨leaving, handed⟩, latest, answered⟩ := holds
      exact ⟨⟨sound, entries, handing, completed, once⟩, ⟨leaving, handed⟩, latest, answered⟩
  | continueLogin =>
    obtain ⟨call, called, stepped⟩ := bind_eq_some_iff.mp stepped
    split at stepped
    next outcome done =>
      simp only [ite_none_left_eq_some, some.injEq, Bool.not_eq_true] at stepped
      obtain ⟨waiting, rfl⟩ := stepped
      exact latest_continueLogin holds called done waiting
    next => cases stepped

theorem latest_job_along {events : List (Event κ)} {final : Connection κ}
    (along : Along (step lookup parseJob) (fun c event => inOrder lookup parseJob c event = true) .opened events)
    (ran : run (step lookup parseJob) .opened events = some final) (handled : Handled final) :
    final.dialect.snapshot.1 = final.carried.getLast? := by
  have opened : Latest lookup parseJob (.opened : Connection κ) :=
    ⟨⟨nofun, nofun, nofun, nofun, List.nodup_nil⟩, ⟨nofun, nofun⟩, rfl, nofun⟩
  have holds := run_invariant (Latest lookup parseJob) latest_step along opened ran
  have nothing : arriving lookup parseJob final = none := by
    by_contra something
    obtain ⟨job, arrives⟩ := ne_none_iff_exists'.mp something
    obtain ⟨waiting, frame, settling, -⟩ := arriving_eq_some.mp arrives
    obtain ⟨call, called, settled⟩ := bind_eq_some_iff.mp settling
    rw [handed_eq_none handled.1, or_none] at settled
    exact absurd (handled.2 call called (by rw [settled]; rfl)) (by simp [waiting])
  have latest := holds.latest
  rw [nothing] at latest
  exact latest

end

def member (name : String) (value : Json) : List UInt16 × Json := (Utf16.encode name.toList, value)

def text (value : String) : Json := .string (Utf16.encode value.toList)

def parseJob : Json → Result CryptoNoteJob := Rx.RxPoolClient.parsePoolJob .smooth none

def namedJobJson (jobId : String) : Json := .object
  [member "job_id" (text jobId), member "blob" (.string (List.replicate 160 48)), member "target" (text "ffff0000"),
    member "seed_hash" (text "00"), member "height" (.number ['7'])]

def loginFrame (jobId : String) : Frame := ⟨1, none, some (.object [member "id" (text "s"), member "job" (namedJobJson jobId)])⟩

def jobPush (jobId : String) : Event Empty := .notify "job" (.object [member "params" (namedJobJson jobId)])

def loginAnswered : List (Event Empty) :=
  [.session (.call none), .session (.move none .register), .session (.move none .sendSucceeds),
    .session (.receive (loginFrame "1")), .session .deliver]

def loginContinues : List (Event Empty) :=
  [.session (.move none .resume), .session (.move none .finish), .continueLogin]

set_option maxRecDepth 4000

theorem latest_job_along_pushed_after :
    Along (step .smooth parseJob) (fun c event => inOrder .smooth parseJob c event = true) .opened
        (loginAnswered ++ loginContinues ++ [jobPush "2"]) ∧
      ∃ final, run (step .smooth parseJob) .opened (loginAnswered ++ loginContinues ++ [jobPush "2"]) = some final ∧
        Handled final ∧ final.dialect.snapshot.1 = final.carried.getLast? := by
  have along : Along (step .smooth parseJob) (fun c event => inOrder .smooth parseJob c event = true) .opened
      (loginAnswered ++ loginContinues ++ [jobPush "2"]) := by decide +kernel
  have reached : ∃ final, run (step .smooth parseJob) .opened (loginAnswered ++ loginContinues ++ [jobPush "2"]) =
      some final ∧ Handled final := ⟨_, rfl, rfl, fun _ _ _ => rfl⟩
  obtain ⟨final, ran, handled⟩ := reached
  exact ⟨along, final, ran, handled, latest_job_along along ran handled⟩

/-- A push that comes between the response of the login and its continuation is undone by it. -/
theorem push_lost_to_login :
    ∃ final, run (step .smooth parseJob) .opened (loginAnswered ++ [jobPush "2"] ++ loginContinues) = some final ∧
      Handled final ∧ final.carried.map jobId = ["1", "2"] ∧
      final.dialect.snapshot.1.map jobId = some "1" ∧
      final.dialect.snapshot.1 ≠ final.carried.getLast? := by
  have jobs : ∃ final, run (step .smooth parseJob) .opened (loginAnswered ++ [jobPush "2"] ++ loginContinues) =
      some final ∧ Handled final ∧ final.carried.map jobId = ["1", "2"] ∧
      final.dialect.snapshot.1.map jobId = some "1" := ⟨_, rfl, ⟨rfl, fun _ _ _ => rfl⟩, rfl, rfl⟩
  obtain ⟨final, ran, handled, carried, published⟩ := jobs
  refine ⟨final, ran, handled, carried, published, fun same => ?_⟩
  rw [same, ← List.getLast?_map, carried] at published
  exact absurd published (by decide)

end CryptoNoteConnection
end ArcMiner.Stratum
