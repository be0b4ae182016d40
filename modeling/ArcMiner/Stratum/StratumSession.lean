import ArcMiner.Library.Json
import ArcMiner.Library.Machine

/-! Requests and responses of the shared stratum session.

Calls run concurrently, the read loop and the end of the session beside them. The lock on the table of
pending requests is held for one step. `SendAsync`, without its write lock, is a step that succeeds or throws. The timer, or a
cancellation, acts on a call once its request is sent.
-/

namespace ArcMiner.Stratum.StratumSession

open Library Library.Machine List Function Option

structure Frame where
  id : Int
  error : Option Json
  result : Option Json

inductive Outcome where
  | result (frame : Frame)
  /-- `PoolRpcException`. -/
  | rpcError (frame : Frame)
  | timedOut
  | canceled
  | sendFailed

def Outcome.failed : Outcome → Bool
  | .result _ => false
  | _ => true

def Frame.outcome (frame : Frame) : Outcome :=
  match frame.error with
  | none | some .null => .result frame
  | some _ => .rpcError frame

inductive Stage where
  | drawn
  /-- In the table, while the request is sent. -/
  | registered
  | awaiting
  /-- On the way out, before the entry is dropped. -/
  | finishing (outcome : Outcome)
  | done (outcome : Outcome)

structure Call where
  id : Int
  stage : Stage
  /-- The state of its `TaskCompletionSource`. -/
  settled : Option Outcome

inductive Move where
  | register
  | sendSucceeds
  | sendFails
  | timeOut
  | resume
  | finish
deriving DecidableEq

def Call.move (call : Call) : Move → Option Call
  | .register => match call.stage with
    | .drawn => some { call with stage := .registered }
    | _ => none
  | .sendSucceeds => match call.stage with
    | .registered => some { call with stage := .awaiting }
    | _ => none
  | .sendFails => match call.stage with
    | .registered => some { call with stage := .finishing .sendFailed }
    | _ => none
  | .timeOut => match call.stage, call.settled with
    | .awaiting, none => some { call with settled := some .timedOut }
    | _, _ => none
  | .resume => match call.stage, call.settled with
    | .awaiting, some outcome => some { call with stage := .finishing outcome }
    | _, _ => none
  | .finish => match call.stage with
    | .finishing outcome => some { call with stage := .done outcome }
    | _ => none

/-- `TrySetResult` and the like. -/
def Call.settle (outcome : Outcome) (call : Call) : Call := { call with settled := call.settled.or (some outcome) }

def Stage.outcome : Stage → Option Outcome
  | .finishing outcome | .done outcome => some outcome
  | _ => none

def Stage.isDone : Stage → Bool
  | .done _ => true
  | _ => false

def Stage.listed : Stage → Bool
  | .registered | .awaiting | .finishing _ => true
  | .drawn | .done _ => false

structure Call.All (holds : Outcome → Prop) (call : Call) : Prop where
  settled : ∀ outcome ∈ call.settled, holds outcome
  leaving : ∀ outcome ∈ call.stage.outcome, holds outcome

def Call.rank (call : Call) : Nat :=
  (match call.stage with
    | .drawn => 4
    | .registered => 3
    | .awaiting => 2
    | .finishing _ => 1
    | .done _ => 0) + if call.settled.isNone then 1 else 0

/-- A response that completes a call bears its id and was received. -/
def Outcome.For (id : Int) (received : List Frame) : Outcome → Prop
  | .result frame | .rpcError frame => frame.id = id ∧ frame ∈ received
  | _ => True

theorem Outcome.For.append {id : Int} {received : List Frame} {outcome : Outcome} (isFor : outcome.For id received)
    (later : List Frame) : outcome.For id (received ++ later) := by
  cases outcome with
  | result frame => exact ⟨isFor.1, mem_append_left later isFor.2⟩
  | rpcError frame => exact ⟨isFor.1, mem_append_left later isFor.2⟩
  | timedOut => trivial
  | canceled => trivial
  | sendFailed => trivial

section call
variable {call next : Call} {move : Move} {outcome : Outcome} {holds : Outcome → Prop}

theorem Call.move_cases (moved : call.move move = some next) :
    (move = .register ∧ call.stage = .drawn ∧ next = { call with stage := .registered }) ∨
    (move = .sendSucceeds ∧ call.stage = .registered ∧ next = { call with stage := .awaiting }) ∨
    (move = .sendFails ∧ call.stage = .registered ∧ next = { call with stage := .finishing .sendFailed }) ∨
    (move = .timeOut ∧ call.stage = .awaiting ∧ call.settled = none ∧ next = { call with settled := some .timedOut }) ∨
    (∃ outcome, move = .resume ∧ call.stage = .awaiting ∧ call.settled = some outcome ∧
      next = { call with stage := .finishing outcome }) ∨
    (∃ outcome, move = .finish ∧ call.stage = .finishing outcome ∧ next = { call with stage := .done outcome }) := by
  cases move <;> simp only [Call.move] at moved <;> split at moved <;> cases moved <;> simp_all

theorem Call.not_done_of_move (moved : call.move move = some next) : call.stage ≠ .done outcome := by
  intro done
  obtain ⟨-, stage, -⟩ | ⟨-, stage, -⟩ | ⟨-, stage, -⟩ | ⟨-, stage, -⟩ | ⟨_, -, stage, -⟩ | ⟨_, -, stage, -⟩ :=
    move_cases moved
  all_goals exact absurd (done.symm.trans stage) (by simp)

theorem Call.move_id (moved : call.move move = some next) : next.id = call.id := by
  obtain ⟨-, -, rfl⟩ | ⟨-, -, rfl⟩ | ⟨-, -, rfl⟩ | ⟨-, -, -, rfl⟩ | ⟨_, -, -, -, rfl⟩ | ⟨_, -, -, rfl⟩ := move_cases moved
  all_goals rfl

theorem Call.move_all (sendFailed : holds .sendFailed) (timedOut : holds .timedOut) (all : call.All holds)
    (moved : call.move move = some next) : next.All holds := by
  obtain ⟨settled, leaving⟩ := all
  obtain ⟨-, -, rfl⟩ | ⟨-, -, rfl⟩ | ⟨-, -, rfl⟩ | ⟨-, stage, -, rfl⟩ | ⟨outcome, -, -, was, rfl⟩ |
    ⟨outcome, -, stage, rfl⟩ := move_cases moved
  · exact ⟨settled, nofun⟩
  · exact ⟨settled, nofun⟩
  · exact ⟨settled, by rintro _ ⟨⟩; exact sendFailed⟩
  · exact ⟨by rintro _ ⟨⟩; exact timedOut, leaving⟩
  · exact ⟨settled, by rintro _ ⟨⟩; exact settled outcome was⟩
  · exact ⟨settled, by rintro _ ⟨⟩; exact leaving outcome (by rw [stage]; rfl)⟩

theorem Call.settle_all (holdsIt : holds outcome) (all : call.All holds) : (call.settle outcome).All holds := by
  refine ⟨fun seen found => ?_, all.leaving⟩
  cases was : call.settled with
  | none =>
    rw [settle, was] at found
    cases found
    exact holdsIt
  | some first =>
    rw [settle, was] at found
    cases found
    exact all.settled _ was

theorem Call.rank_move (moved : call.move move = some next) : next.rank < call.rank := by
  obtain ⟨-, stage, rfl⟩ | ⟨-, stage, rfl⟩ | ⟨-, stage, rfl⟩ | ⟨-, stage, was, rfl⟩ | ⟨_, -, stage, was, rfl⟩ |
    ⟨_, -, stage, rfl⟩ := move_cases moved <;> simp [rank, *]

theorem Call.rank_settle (outcome : Outcome) (call : Call) : (call.settle outcome).rank ≤ call.rank := by
  cases was : call.settled <;> simp [rank, settle, was]

theorem Call.rank_le (call : Call) : call.rank ≤ 5 := by
  unfold rank
  split <;> split <;> omega

theorem Call.exists_move (unfinished : call.stage.isDone = false) : ∃ move next, call.move move = some next := by
  cases stage : call.stage with
  | drawn => exact ⟨.register, _, by rw [move, stage]⟩
  | registered => exact ⟨.sendSucceeds, _, by rw [move, stage]⟩
  | awaiting =>
    cases settled : call.settled with
    | none => exact ⟨.timeOut, _, by rw [move, stage, settled]⟩
    | some outcome => exact ⟨.resume, _, by rw [move, stage, settled]⟩
  | finishing outcome => exact ⟨.finish, _, by rw [move, stage]⟩
  | done outcome =>
    rw [stage] at unfinished
    cases unfinished

end call

structure Session (ι : Type) where
  msgId : Int
  pending : List (Int × ι)
  calls : ι → Option Call
  /-- The entry the read loop has taken out of the table. -/
  delivering : Option (ι × Outcome)
  received : List Frame
  completions : List (ι × Outcome)
  reading : Bool

def Session.opened {ι : Type} : Session ι := ⟨0, [], fun _ => none, none, [], [], true⟩

inductive Event (ι : Type) where
  | call (caller : ι)
  | move (caller : ι) (move : Move)
  | receive (frame : Frame)
  | deliver
  | cancelPending
  /-- The read loop has ended. It settles the entry it took itself, so it never ends in between. -/
  | lose

section session
variable {ι : Type} [DecidableEq ι]

def without (id : Int) (pending : List (Int × ι)) : List (Int × ι) := pending.filter fun entry => entry.1 ≠ id

def tableAfter (caller : ι) (call : Call) (pending : List (Int × ι)) : Move → List (Int × ι)
  | .register => (call.id, caller) :: without call.id pending
  | .finish => without call.id pending
  | _ => pending

def completionOf (caller : ι) (call : Call) : List (ι × Outcome) :=
  match call.stage with
  | .done outcome => [(caller, outcome)]
  | _ => []

def settleWhere (chosen : ι → Prop) [DecidablePred chosen] (outcome : Outcome) (calls : ι → Option Call) :
    ι → Option Call :=
  fun caller => if chosen caller then (calls caller).map (Call.settle outcome) else calls caller

def sessionStep (state : Session ι) : Event ι → Option (Session ι)
  | .call caller =>
    if state.calls caller = none then
      let id := (state.msgId + 1).bmod (2 ^ 64)
      some { state with msgId := id, calls := update state.calls caller (some ⟨id, .drawn, none⟩) }
    else none
  | .move caller move => do
    let call ← state.calls caller
    let next ← call.move move
    some { state with
      calls := update state.calls caller (some next)
      pending := tableAfter caller call state.pending move
      completions := state.completions ++ completionOf caller next }
  | .receive frame =>
    if state.reading ∧ state.delivering.isNone then
      match state.pending.find? fun entry => entry.1 = frame.id with
      | none => some { state with received := state.received ++ [frame] }
      | some (id, caller) => some { state with
          received := state.received ++ [frame]
          pending := without id state.pending
          delivering := some (caller, frame.outcome) }
    else none
  | .deliver => do
    let (caller, outcome) ← state.delivering
    some { state with
      delivering := none
      calls := settleWhere (· = caller) outcome state.calls }
  | .cancelPending => some { state with
      pending := []
      calls := settleWhere (· ∈ state.pending.map Prod.snd) .canceled state.calls }
  | .lose =>
    if state.reading ∧ state.delivering.isNone then some { state with reading := false } else none

inductive Stepped (state : Session ι) : Event ι → Session ι → Prop where
  | called {caller : ι} (fresh : state.calls caller = none) :
      Stepped state (.call caller) { state with
        msgId := (state.msgId + 1).bmod (2 ^ 64)
        calls := update state.calls caller (some ⟨(state.msgId + 1).bmod (2 ^ 64), .drawn, none⟩) }
  | moved {caller : ι} {call now : Call} {move : Move} (called : state.calls caller = some call)
      (moved : call.move move = some now) :
      Stepped state (.move caller move) { state with
        calls := update state.calls caller (some now)
        pending := tableAfter caller call state.pending move
        completions := state.completions ++ completionOf caller now }
  | ignored {frame : Frame} (reads : state.reading = true) (idle : state.delivering = none)
      (unknown : state.pending.find? (fun entry => entry.1 = frame.id) = none) :
      Stepped state (.receive frame) { state with received := state.received ++ [frame] }
  | taken {frame : Frame} {id : Int} {caller : ι} (reads : state.reading = true) (idle : state.delivering = none)
      (entry : state.pending.find? (fun entry => entry.1 = frame.id) = some (id, caller)) :
      Stepped state (.receive frame) { state with
        received := state.received ++ [frame]
        pending := without id state.pending
        delivering := some (caller, frame.outcome) }
  | delivered {caller : ι} {outcome : Outcome} (handed : state.delivering = some (caller, outcome)) :
      Stepped state .deliver { state with
        delivering := none
        calls := settleWhere (· = caller) outcome state.calls }
  | canceled : Stepped state .cancelPending { state with
      pending := []
      calls := settleWhere (· ∈ state.pending.map Prod.snd) .canceled state.calls }
  | lost (reads : state.reading = true) (idle : state.delivering = none) :
      Stepped state .lose { state with reading := false }

theorem stepped_of_step {state next : Session ι} {event : Event ι} (stepped : sessionStep state event = some next) :
    Stepped state event next := by
  cases event with
  | call caller =>
    simp only [sessionStep, ite_none_right_eq_some, Option.some.injEq] at stepped
    obtain ⟨fresh, rfl⟩ := stepped
    exact .called fresh
  | move caller move =>
    obtain ⟨call, called, stepped⟩ := bind_eq_some_iff.mp stepped
    obtain ⟨now, moved, ⟨⟩⟩ := bind_eq_some_iff.mp stepped
    exact .moved called moved
  | receive frame =>
    simp only [sessionStep, ite_none_right_eq_some, isNone_iff_eq_none] at stepped
    obtain ⟨⟨reads, idle⟩, taken⟩ := stepped
    split at taken
    next unknown =>
      cases taken
      exact .ignored reads idle unknown
    next entry =>
      cases taken
      exact .taken reads idle entry
  | deliver =>
    obtain ⟨⟨caller, outcome⟩, handed, ⟨⟩⟩ := bind_eq_some_iff.mp stepped
    exact .delivered handed
  | cancelPending =>
    cases stepped
    exact .canceled
  | lose =>
    simp only [sessionStep, ite_none_right_eq_some, isNone_iff_eq_none, Option.some.injEq] at stepped
    obtain ⟨⟨reads, idle⟩, rfl⟩ := stepped
    exact .lost reads idle

structure Correlated (state : Session ι) : Prop where
  sound : ∀ {caller call}, state.calls caller = some call → call.All (Outcome.For call.id state.received)
  entries : ∀ entry ∈ state.pending, ∃ call,
    state.calls entry.2 = some call ∧ call.id = entry.1 ∧ call.stage.listed = true
  handing : ∀ {caller outcome}, state.delivering = some (caller, outcome) →
    ∃ call, state.calls caller = some call ∧ outcome.For call.id state.received
  completed : ∀ {caller outcome}, (caller, outcome) ∈ state.completions →
    ∃ call, state.calls caller = some call ∧ call.stage = .done outcome
  once : (state.completions.map Prod.fst).Nodup

def SameStages (before after : ι → Option Call) : Prop :=
  ∀ caller call, before caller = some call →
    ∃ now, after caller = some now ∧ now.id = call.id ∧ now.stage = call.stage

variable {state next : Session ι}
variable {caller : ι} {outcome : Outcome} {id : Int} {call now : Call}

omit [DecidableEq ι] in
theorem Correlated.of_sameStages (holds : Correlated state) (same : SameStages state.calls next.calls)
    (sound : ∀ {caller call}, next.calls caller = some call → call.All (Outcome.For call.id next.received))
    (pending : ∀ entry ∈ next.pending, entry ∈ state.pending)
    (handing : ∀ {caller outcome}, next.delivering = some (caller, outcome) →
      ∃ call, state.calls caller = some call ∧ outcome.For call.id next.received)
    (completions : next.completions = state.completions) : Correlated next where
  sound := sound
  entries entry found := by
    obtain ⟨call, called, id, listed⟩ := holds.entries entry (pending entry found)
    obtain ⟨now, calls, sameId, stage⟩ := same _ _ called
    exact ⟨now, calls, sameId.trans id, stage ▸ listed⟩
  handing handed := by
    obtain ⟨call, called, isFor⟩ := handing handed
    obtain ⟨now, calls, sameId, -⟩ := same _ _ called
    exact ⟨now, calls, sameId ▸ isFor⟩
  completed found := by
    obtain ⟨call, called, done⟩ := holds.completed (completions ▸ found)
    obtain ⟨now, calls, -, stage⟩ := same _ _ called
    exact ⟨now, calls, stage.trans done⟩
  once := completions ▸ holds.once

theorem sameStages_update {calls : ι → Option Call} {new : Call} (fresh : calls caller = none) :
    SameStages calls (update calls caller (some new)) := by
  intro other call called
  have another : other ≠ caller := by
    rintro rfl
    exact absurd (fresh.symm.trans called) (by simp)
  exact ⟨call, by rw [update_of_ne another, called], rfl, rfl⟩

omit [DecidableEq ι] in
theorem settleWhere_cases {calls : ι → Option Call} {chosen : ι → Prop} [DecidablePred chosen] (found : settleWhere chosen outcome calls caller = some now) :
    ∃ call, calls caller = some call ∧ (now = call ∨ chosen caller ∧ now = call.settle outcome) := by
  unfold settleWhere at found
  split at found
  next picked =>
    obtain ⟨call, called, rfl⟩ := map_eq_some_iff.mp found
    exact ⟨call, called, .inr ⟨picked, rfl⟩⟩
  next => exact ⟨now, found, .inl rfl⟩

omit [DecidableEq ι] in
theorem sameStages_settleWhere (calls : ι → Option Call) (chosen : ι → Prop) [DecidablePred chosen] (outcome : Outcome) :
    SameStages calls (settleWhere chosen outcome calls) := by
  intro caller call called
  by_cases picked : chosen caller
  · exact ⟨call.settle outcome, by simp [settleWhere, picked, called], rfl, rfl⟩
  · exact ⟨call, by simp [settleWhere, picked, called], rfl, rfl⟩

omit [DecidableEq ι] in
theorem sound_settleWhere {chosen : ι → Prop} [DecidablePred chosen] (holds : Correlated state)
    (meant : ∀ {caller call}, chosen caller → state.calls caller = some call → outcome.For call.id state.received)
    {caller : ι} {now : Call} (found : settleWhere chosen outcome state.calls caller = some now) :
    now.All (Outcome.For now.id state.received) := by
  obtain ⟨call, called, rfl | ⟨picked, rfl⟩⟩ := settleWhere_cases found
  · exact holds.sound called
  · have isFor := meant picked called
    exact Call.settle_all isFor (holds.sound called)

theorem correlated_call (fresh : state.calls caller = none) (holds : Correlated state) : Correlated { state with
      msgId := id
      calls := update state.calls caller (some ⟨id, .drawn, none⟩) } := by
  refine holds.of_sameStages (sameStages_update fresh) (fun now => ?_) (fun _ kept => kept) holds.handing rfl
  rcases update_eq_some now with ⟨-, ⟨⟩⟩ | ⟨-, before⟩
  · exact ⟨nofun, nofun⟩
  · exact holds.sound before

omit [DecidableEq ι] in
theorem mem_without {entry : Int × ι} {pending : List (Int × ι)} (found : entry ∈ without id pending) :
    entry ∈ pending ∧ entry.1 ≠ id := by
  simpa [without] using mem_filter.mp found

omit [DecidableEq ι] in
theorem correlated_receive {frame : Frame}
    (entry : state.pending.find? (fun entry => entry.1 = frame.id) = some (id, caller)) (holds : Correlated state) :
    Correlated { state with
      received := state.received ++ [frame]
      pending := without id state.pending
      delivering := some (caller, frame.outcome) } := by
  have same : id = frame.id := by simpa using find?_some entry
  obtain ⟨call, called, itsId, -⟩ := holds.entries _ (mem_of_find?_eq_some entry)
  have answers : frame.outcome.For call.id (state.received ++ [frame]) := by
    have bears : frame.id = call.id := same ▸ itsId.symm
    have there : frame ∈ state.received ++ [frame] := mem_append_right _ (mem_singleton_self _)
    unfold Frame.outcome
    split <;> exact ⟨bears, there⟩
  refine holds.of_sameStages (fun _ _ called => ⟨_, called, rfl, rfl⟩) (fun called => ?_) (fun _ found => (mem_without found).1)
    ?_ rfl
  · obtain ⟨settled, leaving⟩ := holds.sound called
    exact ⟨fun outcome found => (settled outcome found).append _, fun outcome found => (leaving outcome found).append _⟩
  · rintro caller outcome ⟨⟩
    exact ⟨call, called, answers⟩

omit [DecidableEq ι] in
theorem correlated_ignore {frame : Frame} (holds : Correlated state) :
    Correlated { state with received := state.received ++ [frame] } := by
  refine holds.of_sameStages (fun _ _ called => ⟨_, called, rfl, rfl⟩) (fun called => ?_) (fun _ kept => kept)
    (fun handed => ?_) rfl
  · obtain ⟨settled, leaving⟩ := holds.sound called
    exact ⟨fun outcome found => (settled outcome found).append _, fun outcome found => (leaving outcome found).append _⟩
  · obtain ⟨call, called, isFor⟩ := holds.handing handed
    exact ⟨call, called, isFor.append _⟩

theorem correlated_deliver (handed : state.delivering = some (caller, outcome)) (holds : Correlated state) :
    Correlated { state with delivering := none, calls := settleWhere (· = caller) outcome state.calls } := by
  have meant : ∀ {other call}, other = caller → state.calls other = some call → outcome.For call.id state.received := by
    rintro other call rfl called
    obtain ⟨same, again, isFor⟩ := holds.handing handed
    obtain rfl := Option.some.inj (called.symm.trans again)
    exact isFor
  exact holds.of_sameStages (sameStages_settleWhere _ _ _) (fun found => sound_settleWhere holds meant found)
    (fun _ kept => kept) nofun rfl

theorem correlated_cancelPending (holds : Correlated state) : Correlated { state with
      pending := []
      calls := settleWhere (· ∈ state.pending.map Prod.snd) .canceled state.calls } := by
  have meant : ∀ {other call}, other ∈ state.pending.map Prod.snd → state.calls other = some call →
      Outcome.canceled.For call.id state.received := fun _ _ => trivial
  exact holds.of_sameStages (sameStages_settleWhere _ _ _) (fun found => sound_settleWhere holds meant found) nofun
    holds.handing rfl

theorem listed_of_move {move : Move} (moved : call.move move = some now) (notLast : move ≠ .finish) :
    now.stage.listed = true := by
  obtain ⟨-, -, rfl⟩ | ⟨-, -, rfl⟩ | ⟨-, -, rfl⟩ | ⟨-, stage, -, rfl⟩ | ⟨_, -, -, -, rfl⟩ | ⟨_, last, -, -⟩ :=
    Call.move_cases moved
  · rfl
  · rfl
  · rfl
  · exact stage ▸ rfl
  · rfl
  · exact absurd last notLast

theorem entries_move {move : Move} (holds : Correlated state)
    (called : state.calls caller = some call) (moved : call.move move = some now) {entry : Int × ι}
    (found : entry ∈ tableAfter caller call state.pending move) :
    ∃ listed, update state.calls caller (some now) entry.2 = some listed ∧ listed.id = entry.1 ∧
      listed.stage.listed = true := by
  have id := Call.move_id moved
  -- An entry that was there before: its call is another one, or the one that moves.
  have kept (before : entry ∈ state.pending) (notLast : move = .finish → entry.1 ≠ call.id) :
      ∃ listed, update state.calls caller (some now) entry.2 = some listed ∧ listed.id = entry.1 ∧
        listed.stage.listed = true := by
    obtain ⟨other, otherCalled, otherId, listed⟩ := holds.entries entry before
    by_cases same : entry.2 = caller
    · rw [same] at otherCalled ⊢
      obtain rfl := Option.some.inj (called.symm.trans otherCalled)
      refine ⟨now, update_self .., id.trans otherId, listed_of_move moved fun last => ?_⟩
      exact notLast last otherId.symm
    · exact ⟨other, by rw [update_of_ne same, otherCalled], otherId, listed⟩
  cases move with
  | register =>
    rcases mem_cons.mp found with rfl | before
    · exact ⟨now, update_self .., id, listed_of_move moved nofun⟩
    · exact kept (mem_without before).1 nofun
  | sendSucceeds => exact kept found nofun
  | sendFails => exact kept found nofun
  | timeOut => exact kept found nofun
  | resume => exact kept found nofun
  | finish => exact kept (mem_without found).1 fun _ => (mem_without found).2

theorem correlated_move {move : Move} (called : state.calls caller = some call)
    (moved : call.move move = some now) (holds : Correlated state) : Correlated { state with
      calls := update state.calls caller (some now)
      pending := tableAfter caller call state.pending move
      completions := state.completions ++ completionOf caller now } := by
  have id := Call.move_id moved
  -- A call that moves has not completed.
  have moving {other : ι} {outcome : Outcome} (earlier : (other, outcome) ∈ state.completions) : other ≠ caller := by
    rintro rfl
    obtain ⟨same, again, done⟩ := holds.completed earlier
    obtain rfl := Option.some.inj (called.symm.trans again)
    exact Call.not_done_of_move moved done
  refine ⟨fun found => ?_, fun entry found => entries_move holds called moved found, @fun handedTo outcome handed => ?_,
    fun found => ?_, ?_⟩
  · rcases update_eq_some found with ⟨-, ⟨⟩⟩ | ⟨-, before⟩
    · rw [id]
      exact Call.move_all trivial trivial (holds.sound called) moved
    · exact holds.sound before
  · obtain ⟨other, otherCalled, isFor⟩ := holds.handing handed
    by_cases same : handedTo = caller
    · subst same
      obtain rfl := Option.some.inj (called.symm.trans otherCalled)
      exact ⟨now, update_self .., id ▸ isFor⟩
    · exact ⟨other, (update_of_ne same ..).trans otherCalled, isFor⟩
  · rcases mem_append.mp found with earlier | last
    · obtain ⟨other, otherCalled, done⟩ := holds.completed earlier
      have another := moving earlier
      exact ⟨other, (update_of_ne another ..).trans otherCalled, done⟩
    · unfold completionOf at last
      split at last
      next outcome done =>
        cases mem_singleton.mp last
        exact ⟨now, update_self .., done⟩
      next => cases last
  · rw [map_append, nodup_append]
    refine ⟨holds.once, ?_, ?_⟩
    · unfold completionOf
      split <;> simp
    · intro other found last isLast
      obtain ⟨⟨same, outcome⟩, earlier, rfl⟩ := mem_map.mp found
      have here : last = caller := by
        unfold completionOf at isLast
        split at isLast
        · exact mem_singleton.mp isLast
        · cases isLast
      exact here ▸ moving earlier

theorem correlated_step {event : Event ι} (holds : Correlated state) (stepped : sessionStep state event = some next) :
    Correlated next := by
  cases stepped_of_step stepped with
  | called fresh => exact correlated_call fresh holds
  | moved called moved => exact correlated_move called moved holds
  | ignored => exact correlated_ignore holds
  | taken _ _ entry => exact correlated_receive entry holds
  | delivered handed => exact correlated_deliver handed holds
  | canceled => exact correlated_cancelPending holds
  | lost => exact ⟨holds.sound, holds.entries, holds.handing, holds.completed, holds.once⟩

theorem correlated_run {final : Session ι} {events : List (Event ι)}
    (ran : run sessionStep Session.opened events = some final) : Correlated final := by
  have opened : Correlated (Session.opened : Session ι) := ⟨nofun, nofun, nofun, nofun, nodup_nil⟩
  exact run_history (motive := fun _ state => Correlated state) opened (fun holds => correlated_step holds) ran

structure Lost (caller : ι) (state : Session ι) : Prop where
  lost : state.reading = false
  handed : state.delivering = none
  failing : ∃ call, state.calls caller = some call ∧ call.All (Outcome.failed · = true)

def Session.rank (state : Session ι) (caller : ι) : Nat := ((state.calls caller).map Call.rank).getD 0

def Event.moves (caller : ι) : Event ι → Bool
  | .move moving _ => moving = caller
  | _ => false

omit [DecidableEq ι] in
theorem rank_eq (called : state.calls caller = some call) : state.rank caller = call.rank := by
  rw [Session.rank, called]
  rfl

omit [DecidableEq ι] in
theorem lost_next {moves : Nat} (called : state.calls caller = some call)
    (lost : next.reading = false) (handed : next.delivering = none) (nowCalled : next.calls caller = some now)
    (failing : now.All (Outcome.failed · = true)) (fewer : now.rank + moves ≤ call.rank) :
    Lost caller next ∧ next.rank caller + moves ≤ state.rank caller := by
  refine ⟨⟨lost, handed, now, nowCalled, failing⟩, ?_⟩
  rw [rank_eq nowCalled, rank_eq called]
  exact fewer

/-- After the loss a call only gets failures, and every move brings it nearer to its end. -/
theorem lost_step {event : Event ι} (holds : Lost caller state)
    (stepped : sessionStep state event = some next) :
    Lost caller next ∧ next.rank caller + (if event.moves caller then 1 else 0) ≤ state.rank caller := by
  obtain ⟨lost, handed, call, called, failing⟩ := holds
  cases stepped_of_step stepped with
  | @called other fresh =>
    have another : caller ≠ other := by
      rintro rfl
      exact absurd (fresh.symm.trans called) (by simp)
    exact lost_next called lost handed ((update_of_ne another ..).trans called) failing (Nat.le_refl _)
  | @moved other moving now move movingCalled moved =>
    by_cases same : caller = other
    · subst same
      obtain rfl := Option.some.inj (called.symm.trans movingCalled)
      refine lost_next called lost handed (update_self ..) (Call.move_all rfl rfl failing moved) ?_
      rw [Event.moves, decide_eq_true rfl]
      exact Call.rank_move moved
    · refine lost_next called lost handed ((update_of_ne same ..).trans called) failing ?_
      rw [Event.moves, decide_eq_false (Ne.symm same)]
      exact Nat.le_refl _
  | ignored reads => exact absurd (lost.symm.trans reads) (by simp)
  | taken reads => exact absurd (lost.symm.trans reads) (by simp)
  | delivered outstanding => exact absurd (handed.symm.trans outstanding) (by simp)
  | lost reads => exact absurd (lost.symm.trans reads) (by simp)
  | canceled =>
    obtain ⟨now, nowCalled, -, -⟩ :=
      sameStages_settleWhere state.calls (· ∈ state.pending.map Prod.snd) .canceled caller call called
    obtain ⟨before, again, settled⟩ := settleWhere_cases nowCalled
    obtain rfl := Option.some.inj (called.symm.trans again)
    rcases settled with rfl | ⟨-, rfl⟩
    · exact lost_next called lost handed nowCalled failing (Nat.le_refl _)
    · exact lost_next called lost handed nowCalled (Call.settle_all rfl failing) (Call.rank_settle _ _)

theorem lost_run {start final : Session ι} {events : List (Event ι)} (holds : Lost caller start)
    (ran : run sessionStep start events = some final) :
    Lost caller final ∧ final.rank caller + events.countP (Event.moves caller) ≤ start.rank caller := by
  induction events generalizing start with
  | nil =>
    cases ran
    exact ⟨holds, Nat.le_refl _⟩
  | cons event rest ih =>
    obtain ⟨next, stepped, ran⟩ := run_cons.mp ran
    obtain ⟨nextHolds, fewer⟩ := lost_step holds stepped
    obtain ⟨finalHolds, fewest⟩ := ih nextHolds ran
    refine ⟨finalHolds, ?_⟩
    rw [countP_cons]
    omega

/-- A call that has not left and that no result has reached. -/
def Session.Outstanding (state : Session ι) (caller : ι) : Prop :=
  ∃ call, state.calls caller = some call ∧ call.stage.isDone = false ∧ call.All (Outcome.failed · = true)

def Session.InFlight (state : Session ι) (caller : ι) : Prop :=
  ∃ call, state.calls caller = some call ∧ call.stage.isDone = false

/-- Nothing that the call could do by itself is left. -/
def Session.AtRest (state : Session ι) (caller : ι) : Prop := ∀ move, sessionStep state (.move caller move) = none

omit [DecidableEq ι] in
theorem rank_le_five (state : Session ι) (caller : ι) : state.rank caller ≤ 5 := by
  unfold Session.rank
  cases state.calls caller with
  | none => exact Nat.zero_le 5
  | some call => exact call.rank_le

theorem not_atRest (inFlight : state.InFlight caller) : ¬state.AtRest caller := by
  obtain ⟨call, called, unfinished⟩ := inFlight
  obtain ⟨move, now, moved⟩ := Call.exists_move unfinished
  intro atRest
  simpa [sessionStep, called, moved] using atRest move

def Recorded (state : Session ι) : Prop :=
  ∀ caller call outcome, state.calls caller = some call → call.stage = .done outcome →
    (caller, outcome) ∈ state.completions

omit [DecidableEq ι] in
theorem recorded_settleWhere (holds : Recorded state) (chosen : ι → Prop) [DecidablePred chosen] (why : Outcome)
    {caller : ι} {call : Call} {outcome : Outcome} (now : settleWhere chosen why state.calls caller = some call)
    (done : call.stage = .done outcome) : (caller, outcome) ∈ state.completions := by
  obtain ⟨before, called, rfl | ⟨-, rfl⟩⟩ := settleWhere_cases now
  · exact holds _ _ _ called done
  · exact holds _ _ _ called done

theorem recorded_step {event : Event ι} (holds : Recorded state) (stepped : sessionStep state event = some next) :
    Recorded next := by
  intro caller call outcome now done
  cases stepped_of_step stepped with
  | called =>
    rcases update_eq_some now with ⟨-, ⟨⟩⟩ | ⟨-, before⟩
    · cases done
    · exact holds _ _ _ before done
  | moved =>
    rcases update_eq_some now with ⟨rfl, ⟨⟩⟩ | ⟨-, before⟩
    · apply mem_append_right
      simp [completionOf, done]
    · exact mem_append_left _ (holds _ _ _ before done)
  | @delivered handedTo why _ => exact recorded_settleWhere holds (· = handedTo) why now done
  | canceled => exact recorded_settleWhere holds (· ∈ state.pending.map Prod.snd) .canceled now done
  | ignored | taken | lost => exact holds _ _ _ now done

theorem recorded_run {final : Session ι} {events : List (Event ι)}
    (ran : run sessionStep Session.opened events = some final) : Recorded final := by
  have opened : Recorded (Session.opened : Session ι) := by
    rintro caller call outcome ⟨⟩
  exact run_history (motive := fun _ state => Recorded state) opened (fun holds => recorded_step holds) ran

theorem outstanding_fails {atLoss lost final : Session ι} {after : List (Event ι)}
    (outstanding : atLoss.Outstanding caller) (loses : sessionStep atLoss .lose = some lost)
    (ran : run sessionStep lost after = some final) (correlated : Correlated final) (recorded : Recorded final) :
    (∀ outcome, (caller, outcome) ∈ final.completions → outcome.failed = true) ∧
      after.countP (Event.moves caller) ≤ 5 ∧
      (final.AtRest caller → ∃ outcome, (caller, outcome) ∈ final.completions) := by
  simp only [sessionStep, ite_none_right_eq_some, Option.some.injEq] at loses
  obtain ⟨⟨-, handed⟩, rfl⟩ := loses
  obtain ⟨call, called, -, failing⟩ := outstanding
  have isLost : Lost caller { atLoss with reading := false } :=
    ⟨rfl, isNone_iff_eq_none.mp handed, call, called, failing⟩
  obtain ⟨⟨-, -, last, lastCalled, lastFailing⟩, fewer⟩ := lost_run isLost ran
  have most := rank_le_five { atLoss with reading := false } caller
  refine ⟨fun outcome found => ?_, by omega, fun atRest => ?_⟩
  · obtain ⟨same, sameCalled, done⟩ := correlated.completed found
    obtain rfl := Option.some.inj (lastCalled.symm.trans sameCalled)
    exact lastFailing.leaving outcome (by rw [done]; rfl)
  · cases unfinished : last.stage.isDone with
    | false => exact absurd atRest (not_atRest ⟨last, lastCalled, unfinished⟩)
    | true =>
      cases stage : last.stage with
      | done outcome => exact ⟨outcome, recorded _ _ _ lastCalled stage⟩
      | _ => simp [stage, Stage.isDone] at unfinished

omit [DecidableEq ι] in
theorem inFlight_of_mem {entry : Int × ι} (correlated : Correlated state) (listed : entry ∈ state.pending) :
    state.InFlight entry.2 := by
  obtain ⟨call, called, -, inTable⟩ := correlated.entries entry listed
  refine ⟨call, called, ?_⟩
  cases stage : call.stage with
  | done outcome => simp [stage, Stage.listed] at inTable
  | _ => rfl

/-- Every call completes at most once, a result is the frame with the call's own id, a call that is
outstanding when the connection is lost fails after at most five moves of its own, and the table is
empty when no call is in flight. -/
theorem calls_correlated {events : List (Event ι)} {final : Session ι}
    (ran : run sessionStep Session.opened events = some final) : (final.completions.map Prod.fst).Nodup ∧
    (∀ caller frame, (caller, .result frame) ∈ final.completions →
      ∃ call, final.calls caller = some call ∧ frame.id = call.id ∧ frame ∈ final.received) ∧
    (∀ before after atLoss caller, events = before ++ .lose :: after →
      run sessionStep Session.opened before = some atLoss → atLoss.Outstanding caller →
        (∀ outcome, (caller, outcome) ∈ final.completions → outcome.failed = true) ∧
        after.countP (Event.moves caller) ≤ 5 ∧
        (final.AtRest caller → ∃ outcome, (caller, outcome) ∈ final.completions)) ∧
    ((∀ caller, ¬final.InFlight caller) → final.pending = []) := by
  have correlated := correlated_run ran
  refine ⟨correlated.once, fun caller frame found => ?_, ?_, fun nobody => ?_⟩
  · obtain ⟨call, called, done⟩ := correlated.completed found
    exact ⟨call, called, (correlated.sound called).leaving (.result frame) (by rw [done]; rfl)⟩
  · rintro before after atLoss caller rfl ranBefore outstanding
    obtain ⟨middle, ranMiddle, ranAfter⟩ := run_append.mp ran
    obtain rfl := Option.some.inj (ranBefore.symm.trans ranMiddle)
    obtain ⟨lost, loses, ranAfter⟩ := run_cons.mp ranAfter
    exact outstanding_fails outstanding loses ranAfter correlated (recorded_run ran)
  · by_contra some
    obtain ⟨entry, listed⟩ := exists_mem_of_ne_nil _ some
    exact nobody entry.2 (inFlight_of_mem correlated listed)

end session

def answeredThenLost : List (Event Bool) :=
  [.call true, .move true .register, .call false, .move true .sendSucceeds, .move false .register,
    .move false .sendSucceeds, .receive ⟨1, none, some .null⟩, .deliver, .lose, .cancelPending,
    .move true .resume, .move true .finish, .move false .resume, .move false .finish]

theorem calls_correlated_answeredThenLost : ∃ final, run sessionStep Session.opened answeredThenLost = some final ∧
      final.completions = [(true, .result ⟨1, none, some .null⟩), (false, .canceled)] ∧
      (final.completions.map Prod.fst).Nodup ∧ ((∀ caller, ¬final.InFlight caller) → final.pending = []) := by
  have reached : ∃ final, run sessionStep Session.opened answeredThenLost = some final ∧
      final.completions = [(true, .result ⟨1, none, some .null⟩), (false, .canceled)] := ⟨_, rfl, rfl⟩
  obtain ⟨final, ran, completed⟩ := reached
  exact ⟨final, ran, completed, (calls_correlated ran).1, (calls_correlated ran).2.2.2⟩

end ArcMiner.Stratum.StratumSession
