import Mathlib.Data.Fintype.Option
import Mathlib.Data.Fintype.Prod
import ArcMiner.Library.Channel
import ArcMiner.Library.Machine

/-! The messages of one mining stream and their numbers.

Producers draw a number first and enter the outbound channel afterwards. The auth message draws its
number from the same counter and goes to the stream directly, before the writer task starts. Shares,
pings and heartbeats differ only in what they carry, which no step looks at.
-/

namespace ArcMiner.Pool.MiningSession

open Library Library.Machine Function Option Channel

def SequenceCounter.next (value : UInt64) : UInt64 := value + 1

inductive EventCase where
  | auth
  | share
  | heartbeat
  | ping
deriving DecidableEq

structure MinerEvent where
  seq : UInt64
  eventCase : EventCase
deriving DecidableEq

/-- How far `RunStreamAsync` has come. -/
inductive Stage where
  | closed
  | opened
  | authDrawn (seq : UInt64)
  /-- The writer task is scheduled. -/
  | authSent
  | writing (current : Option MinerEvent)

/-- `ι` tells the producers apart. -/
structure Session (ι : Type) where
  value : UInt64
  /-- A producer between its draw and its write. -/
  drawn : ι → Option MinerEvent
  outbound : Channel MinerEvent 1024
  stage : Stage
  /-- What was written on the stream that was opened last. -/
  wire : List MinerEvent

def Session.new {ι : Type} : Session ι := ⟨0, fun _ => none, .empty, .closed, []⟩

inductive Event (ι : Type) where
  | draw (producer : ι) (eventCase : EventCase)
  | write (producer : ι)
  | abandon (producer : ι)
  | withdraw (place : Nat)
  | openStream
  | drawAuth
  | writeAuth
  | authFails
  | startWriter
  | cancelWriter
  | read
  | send
  /-- The writer loop ends and throws away what is left. -/
  | stopWriter
  | complete

section stream
variable {ι : Type} [DecidableEq ι]

def streamStep (state : Session ι) : Event ι → Option (Session ι)
  | .draw producer eventCase =>
    if state.drawn producer = none ∧ eventCase ≠ .auth then
      let seq := SequenceCounter.next state.value
      some { state with value := seq, drawn := update state.drawn producer (some ⟨seq, eventCase⟩) }
    else none
  | .write producer => do
    let ev ← state.drawn producer
    some { state with
      drawn := update state.drawn producer none
      outbound := state.outbound.write ev }
  | .abandon producer => do
    let _ ← state.drawn producer
    some { state with drawn := update state.drawn producer none }
  | .withdraw place => some { state with outbound := state.outbound.withdraw place }
  | .openStream =>
    match state.stage with
    | .closed => some { state with stage := .opened, wire := [] }
    | _ => none
  | .drawAuth =>
    match state.stage with
    | .opened =>
      let seq := SequenceCounter.next state.value
      some { state with value := seq, stage := .authDrawn seq }
    | _ => none
  | .writeAuth =>
    match state.stage with
    | .authDrawn seq => some { state with stage := .authSent, wire := state.wire ++ [⟨seq, .auth⟩] }
    | _ => none
  | .authFails =>
    match state.stage with
    | .authDrawn _ => some { state with stage := .closed }
    | _ => none
  | .startWriter =>
    match state.stage with
    | .authSent => some { state with stage := .writing none }
    | _ => none
  | .cancelWriter =>
    match state.stage with
    | .authSent => some { state with stage := .closed, outbound := state.outbound.complete }
    | _ => none
  | .read =>
    match state.stage, state.outbound.read with
    | .writing none, some (ev, outbound) => some { state with stage := .writing (some ev), outbound }
    | _, _ => none
  | .send =>
    match state.stage with
    | .writing (some ev) => some { state with stage := .writing none, wire := state.wire ++ [ev] }
    | _ => none
  | .stopWriter =>
    match state.stage with
    | .writing _ => some { state with stage := .closed, outbound := state.outbound.complete.drain }
    | _ => none
  | .complete => some { state with outbound := state.outbound.complete }

/-- Auth comes first and the numbers grow. -/
def WireOrdered (state : Session ι) : Prop :=
  (state.wire.map MinerEvent.seq).Pairwise (· < ·) ∧ ∀ first ∈ state.wire.head?, first.eventCase = .auth

instance (state : Session ι) : Decidable (WireOrdered state) :=
  inferInstanceAs (Decidable ((state.wire.map MinerEvent.seq).Pairwise (· < ·) ∧
    ∀ first ∈ state.wire.head?, first.eventCase = .auth))

def Stage.held : Stage → List MinerEvent
  | .authDrawn seq => [⟨seq, .auth⟩]
  | .writing current => current.toList
  | _ => []

/-- The numbers on the wire and those on their way to it, in the order they get there. -/
def Session.line (state : Session ι) : List UInt64 :=
  (state.wire ++ state.stage.held ++ state.outbound.waiting).map MinerEvent.seq

/-- Producers enter the channel in the order of their numbers, and auth is drawn while nothing that
can still reach the wire has a number. The counter does not wrap. -/
def InOrder (state : Session ι) : Event ι → Prop
  | .draw _ _ => state.value ≠ 0xFFFFFFFFFFFFFFFF
  | .drawAuth =>
    state.value ≠ 0xFFFFFFFFFFFFFFFF ∧ state.outbound.waiting = [] ∧
      (state.outbound.completed = true ∨ ∀ producer, state.drawn producer = none)
  | .write producer =>
    state.outbound.completed = true ∨
      ∀ other, other ≠ producer → ∀ later ∈ state.drawn other, ∀ own ∈ state.drawn producer, own.seq < later.seq
  | _ => True

instance [Fintype ι] (state : Session ι) (event : Event ι) : Decidable (InOrder state event) := by
  cases event <;> unfold InOrder <;> infer_instance

def AuthFirst (state : Session ι) : Prop :=
  (∀ first ∈ state.wire.head?, first.eventCase = .auth) ∧
  match state.stage with
  | .closed => True
  | .opened | .authDrawn _ => state.wire = []
  | .authSent | .writing _ => state.wire ≠ []

inductive Stepped (state : Session ι) : Event ι → Session ι → Prop where
  | drew (producer : ι) (eventCase : EventCase) : Stepped state (.draw producer eventCase)
      { state with
        value := SequenceCounter.next state.value
        drawn := update state.drawn producer (some ⟨SequenceCounter.next state.value, eventCase⟩) }
  | wrote {producer : ι} {ev : MinerEvent} (drawn : state.drawn producer = some ev) : Stepped state (.write producer)
      { state with drawn := update state.drawn producer none, outbound := state.outbound.write ev }
  | abandoned (producer : ι) : Stepped state (.abandon producer)
      { state with drawn := update state.drawn producer none }
  | withdrew (place : Nat) : Stepped state (.withdraw place) { state with outbound := state.outbound.withdraw place }
  | opened (stage : state.stage = .closed) : Stepped state .openStream { state with stage := .opened, wire := [] }
  | drewAuth (stage : state.stage = .opened) : Stepped state .drawAuth
      { state with
        value := SequenceCounter.next state.value
        stage := .authDrawn (SequenceCounter.next state.value) }
  | wroteAuth {seq : UInt64} (stage : state.stage = .authDrawn seq) : Stepped state .writeAuth
      { state with stage := .authSent, wire := state.wire ++ [⟨seq, .auth⟩] }
  | authFailed {seq : UInt64} (stage : state.stage = .authDrawn seq) : Stepped state .authFails { state with stage := .closed }
  | started (stage : state.stage = .authSent) : Stepped state .startWriter { state with stage := .writing none }
  | canceled (stage : state.stage = .authSent) : Stepped state .cancelWriter
      { state with stage := .closed, outbound := state.outbound.complete }
  | took {ev : MinerEvent} {outbound : Channel MinerEvent 1024} (stage : state.stage = .writing none)
      (taken : state.outbound.read = some (ev, outbound)) : Stepped state .read
        { state with stage := .writing (some ev), outbound }
  | sent {ev : MinerEvent} (stage : state.stage = .writing (some ev)) : Stepped state .send
      { state with stage := .writing none, wire := state.wire ++ [ev] }
  | stopped {current : Option MinerEvent} (stage : state.stage = .writing current) : Stepped state .stopWriter
      { state with stage := .closed, outbound := state.outbound.complete.drain }
  | completed : Stepped state .complete { state with outbound := state.outbound.complete }

theorem stepped_of_step {state next : Session ι} {event : Event ι} (stepped : streamStep state event = some next) :
    Stepped state event next := by
  cases event with
  | draw producer eventCase =>
    obtain ⟨-, ⟨⟩⟩ := ite_none_right_eq_some.mp stepped
    exact .drew producer eventCase
  | write producer =>
    obtain ⟨ev, drawn, ⟨⟩⟩ := bind_eq_some_iff.mp stepped
    exact .wrote drawn
  | abandon producer =>
    obtain ⟨ev, -, ⟨⟩⟩ := bind_eq_some_iff.mp stepped
    exact .abandoned producer
  | withdraw place =>
    cases stepped
    exact .withdrew place
  | openStream =>
    simp only [streamStep] at stepped
    split at stepped <;> cases stepped
    next stage => exact .opened stage
  | drawAuth =>
    simp only [streamStep] at stepped
    split at stepped <;> cases stepped
    next stage => exact .drewAuth stage
  | writeAuth =>
    simp only [streamStep] at stepped
    split at stepped <;> cases stepped
    next stage => exact .wroteAuth stage
  | authFails =>
    simp only [streamStep] at stepped
    split at stepped <;> cases stepped
    next stage => exact .authFailed stage
  | startWriter =>
    simp only [streamStep] at stepped
    split at stepped <;> cases stepped
    next stage => exact .started stage
  | cancelWriter =>
    simp only [streamStep] at stepped
    split at stepped <;> cases stepped
    next stage => exact .canceled stage
  | read =>
    simp only [streamStep] at stepped
    split at stepped <;> cases stepped
    next stage taken => exact .took stage taken
  | send =>
    simp only [streamStep] at stepped
    split at stepped <;> cases stepped
    next stage => exact .sent stage
  | stopWriter =>
    simp only [streamStep] at stepped
    split at stepped <;> cases stepped
    next stage => exact .stopped stage
  | complete =>
    cases stepped
    exact .completed

theorem authFirst_step {state next : Session ι} {event : Event ι} (holds : AuthFirst state)
    (stepped : streamStep state event = some next) : AuthFirst next := by
  obtain ⟨first, shape⟩ := holds
  cases stepped_of_step stepped with
  | drew | wrote | abandoned | withdrew | completed => exact ⟨first, shape⟩
  | opened => exact ⟨by simp, rfl⟩
  | authFailed | canceled | stopped => exact ⟨first, trivial⟩
  | drewAuth stage | started stage | took stage =>
    rw [stage] at shape
    exact ⟨first, shape⟩
  | wroteAuth stage =>
    rw [stage] at shape
    have nothing : state.wire = [] := shape
    exact ⟨by simp [nothing], by simp⟩
  | sent stage =>
    rw [stage] at shape
    have some : state.wire ≠ [] := shape
    exact ⟨by rwa [List.head?_append_of_ne_nil _ some], by simp⟩

/-- The numbers grow along the line, and those of producers that have not written yet come after it. -/
structure Numbered (state : Session ι) : Prop where
  ordered : state.line.Pairwise (· < ·)
  counted : ∀ seq ∈ state.line, seq ≤ state.value
  drawnCounted : ∀ {producer ev}, state.drawn producer = some ev → ev.seq ≤ state.value
  behind : state.outbound.completed = false →
    ∀ {producer ev}, state.drawn producer = some ev → ∀ seq ∈ state.line, seq < ev.seq

omit [DecidableEq ι] in
theorem Numbered.of_sublist {state next : Session ι} (holds : Numbered state) (value : next.value = state.value)
    (line : next.line.Sublist state.line)
    (drawn : ∀ {producer ev}, next.drawn producer = some ev → state.drawn producer = some ev)
    (completed : next.outbound.completed = false → state.outbound.completed = false) : Numbered next where
  ordered := holds.ordered.sublist line
  counted seq member := value ▸ holds.counted seq (line.subset member)
  drawnCounted held := value ▸ holds.drawnCounted (drawn held)
  behind isOpen _ _ held seq member := holds.behind (completed isOpen) (drawn held) seq (line.subset member)

theorem pairwise_concat {line : List UInt64} {seq : UInt64} (ordered : line.Pairwise (· < ·))
    (last : ∀ earlier ∈ line, earlier < seq) : (line ++ [seq]).Pairwise (· < ·) :=
  List.pairwise_append.mpr ⟨ordered, List.pairwise_singleton _ _, fun earlier member _ same =>
    List.mem_singleton.mp same ▸ last earlier member⟩

theorem lt_next {value : UInt64} (more : value ≠ 0xFFFFFFFFFFFFFFFF) : value < SequenceCounter.next value := by
  have bound := value.toNat_lt
  have notLast : value.toNat ≠ 2 ^ 64 - 1 := fun same => more (UInt64.toNat_inj.mp same)
  rw [SequenceCounter.next, UInt64.lt_iff_toNat_lt, UInt64.toNat_add, UInt64.toNat_one]
  omega

theorem drawn_of_update {drawn : ι → Option MinerEvent} {producer other : ι} {ev : MinerEvent}
    (held : update drawn producer none other = some ev) : other ≠ producer ∧ drawn other = some ev := by
  rcases update_eq_some held with ⟨-, ⟨⟩⟩ | kept
  exact kept

theorem numbered_draw {state : Session ι} (producer : ι) (eventCase : EventCase)
    (more : state.value ≠ 0xFFFFFFFFFFFFFFFF) (holds : Numbered state) : Numbered { state with
      value := SequenceCounter.next state.value
      drawn := update state.drawn producer (some ⟨SequenceCounter.next state.value, eventCase⟩) } := by
  have grows := lt_next more
  refine ⟨holds.ordered, fun seq member => ?_, fun held => ?_, fun isOpen _ _ held seq member => ?_⟩
  · exact UInt64.le_trans (holds.counted seq member) (UInt64.le_of_lt grows)
  · rcases update_eq_some held with ⟨-, ⟨⟩⟩ | ⟨-, earlier⟩
    · exact UInt64.le_refl _
    · exact UInt64.le_trans (holds.drawnCounted earlier) (UInt64.le_of_lt grows)
  · rcases update_eq_some held with ⟨-, ⟨⟩⟩ | ⟨-, earlier⟩
    · exact UInt64.lt_of_le_of_lt (holds.counted seq member) grows
    · exact holds.behind isOpen earlier seq member

omit [DecidableEq ι] in
theorem numbered_drawAuth {state : Session ι} (stage : state.stage = .opened) (more : state.value ≠ 0xFFFFFFFFFFFFFFFF)
    (nothing : state.outbound.waiting = [])
    (nobody : state.outbound.completed = true ∨ ∀ producer, state.drawn producer = none) (holds : Numbered state) :
    Numbered { state with
      value := SequenceCounter.next state.value
      stage := .authDrawn (SequenceCounter.next state.value) } := by
  have grows := lt_next more
  have line : Session.line { state with
      value := SequenceCounter.next state.value
      stage := .authDrawn (SequenceCounter.next state.value) } = state.line ++ [SequenceCounter.next state.value] := by
    simp [Session.line, Stage.held, stage, nothing]
  refine ⟨?_, ?_, fun held => ?_, fun isOpen _ _ held => ?_⟩
  · rw [line]
    exact pairwise_concat holds.ordered fun seq member =>
      UInt64.lt_of_le_of_lt (holds.counted seq member) grows
  · rw [line]
    intro seq member
    rcases List.mem_append.mp member with earlier | last
    · exact UInt64.le_trans (holds.counted seq earlier) (UInt64.le_of_lt grows)
    · exact UInt64.le_of_eq (List.mem_singleton.mp last)
  · exact UInt64.le_trans (holds.drawnCounted held) (UInt64.le_of_lt grows)
  · rcases nobody with closed | nobody
    · exact absurd (closed.symm.trans isOpen) (by decide)
    · exact absurd ((nobody _).symm.trans held) (by simp)

theorem numbered_write {state : Session ι} {producer : ι} {ev : MinerEvent} (drawn : state.drawn producer = some ev)
    (first : state.outbound.completed = true ∨
      ∀ other, other ≠ producer → ∀ later ∈ state.drawn other, ∀ own ∈ state.drawn producer, own.seq < later.seq)
    (holds : Numbered state) : Numbered { state with
      drawn := update state.drawn producer none
      outbound := state.outbound.write ev } := by
  cases isOpen : state.outbound.completed with
  | true =>
    refine holds.of_sublist rfl ?_ (fun held => (drawn_of_update held).2) fun stillOpen => ?_
    · rw [write_of_completed isOpen]
      exact List.Sublist.refl _
    · rwa [completed_write] at stillOpen
  | false =>
    have earliest := first.resolve_left (by simp [isOpen])
    have line : Session.line { state with
        drawn := update state.drawn producer none
        outbound := state.outbound.write ev } = state.line ++ [ev.seq] := by
      simp [Session.line, waiting_write isOpen]
    refine ⟨?_, ?_, fun held => holds.drawnCounted (drawn_of_update held).2, fun _ other later held => ?_⟩
    · rw [line]
      exact pairwise_concat holds.ordered (holds.behind isOpen drawn)
    · rw [line]
      intro seq member
      rcases List.mem_append.mp member with earlier | last
      · exact holds.counted seq earlier
      · exact List.mem_singleton.mp last ▸ holds.drawnCounted drawn
    · rw [line]
      obtain ⟨another, kept⟩ := drawn_of_update held
      intro seq member
      rcases List.mem_append.mp member with before | last
      · exact holds.behind isOpen kept seq before
      · exact List.mem_singleton.mp last ▸ earliest other another later kept ev drawn

theorem numbered_step {state next : Session ι} {event : Event ι} (inOrder : InOrder state event)
    (holds : Numbered state) (stepped : streamStep state event = some next) : Numbered next := by
  cases stepped_of_step stepped with
  | drew producer eventCase => exact numbered_draw producer eventCase inOrder holds
  | wrote drawn => exact numbered_write drawn inOrder holds
  | drewAuth stage => exact numbered_drawAuth stage inOrder.1 inOrder.2.1 inOrder.2.2 holds
  -- No number joins the line from here on.
  | abandoned producer => exact holds.of_sublist rfl (List.Sublist.refl _) (fun held => (drawn_of_update held).2) id
  | withdrew place => exact holds.of_sublist rfl (((waiting_withdraw _ _).append_left _).map _) id id
  | completed => exact holds.of_sublist rfl (((waiting_complete _).append_left _).map _) id nofun
  | opened stage | wroteAuth stage | authFailed stage | started stage | sent stage =>
    refine holds.of_sublist rfl ?_ id id
    simp [Session.line, Stage.held, stage]
  | canceled stage =>
    refine holds.of_sublist rfl ?_ id nofun
    simpa [Session.line, Stage.held, stage] using ((waiting_complete _).map MinerEvent.seq)
  | took stage taken =>
    obtain ⟨waiting, completed⟩ := read_spec taken
    refine holds.of_sublist rfl ?_ id (fun isOpen => completed.symm.trans isOpen)
    simp [Session.line, Stage.held, stage, waiting]
  | stopped stage =>
    refine holds.of_sublist rfl ?_ id nofun
    simp [Session.line, Stage.held]

/-- In every run that stays in order, auth comes first and the numbers grow in every state reached. -/
theorem wire_ordered_along {events : List (Event ι)} {final : Session ι}
    (inOrder : Along streamStep InOrder Session.new events) (ran : run streamStep Session.new events = some final) :
    WireOrdered final := by
  have fresh : Numbered (Session.new : Session ι) :=
    ⟨List.Pairwise.nil, nofun, nofun, nofun⟩
  have opened : AuthFirst (Session.new : Session ι) := ⟨nofun, trivial⟩
  have numbered := run_invariant Numbered numbered_step inOrder fresh ran
  have authFirst := run_invariant AuthFirst (fun _ => authFirst_step) inOrder opened ran
  refine ⟨numbered.ordered.sublist ?_, authFirst.1⟩
  simp [Session.line]

end stream

def twoPings : List (Event Bool) :=
  [.openStream, .drawAuth, .writeAuth, .startWriter, .draw true .ping, .write true, .draw false .share, .write false,
    .read, .send, .read, .send]

theorem wire_ordered_along_two_pings : Along streamStep InOrder Session.new twoPings ∧
      ∃ final, run streamStep Session.new twoPings = some final ∧ WireOrdered final := by
  have inOrder : Along streamStep InOrder Session.new twoPings := by decide
  have reached : (run streamStep Session.new twoPings).isSome = true := by rfl
  obtain ⟨final, ran⟩ := isSome_iff_exists.mp reached
  exact ⟨inOrder, final, ran, wire_ordered_along inOrder ran⟩

/-- A ping that draws before auth goes out after it with the smaller number; and of two producers the
one that drew second can be the first to write. -/
theorem wire_out_of_order : (∃ final, run streamStep (Session.new : Session Bool)
        [.draw true .ping, .write true, .openStream, .drawAuth, .writeAuth, .startWriter, .read, .send] = some final ∧
      final.wire = [⟨2, .auth⟩, ⟨1, .ping⟩] ∧ ¬WireOrdered final) ∧
    ∃ final, run streamStep (Session.new : Session Bool)
        [.openStream, .drawAuth, .writeAuth, .startWriter, .draw true .ping, .draw false .share, .write false,
          .write true, .read, .send, .read, .send] = some final ∧
      final.wire = [⟨1, .auth⟩, ⟨3, .share⟩, ⟨2, .ping⟩] ∧ ¬WireOrdered final :=
  ⟨⟨_, rfl, rfl, by decide⟩, _, rfl, rfl, by decide⟩

end ArcMiner.Pool.MiningSession
