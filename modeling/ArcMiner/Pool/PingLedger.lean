import ArcMiner.Library.MachineInt
import ArcMiner.Pool.MiningStream

/-! The ledger of pings and pongs of one mining stream.

The writer task counts a ping after `WriteAsync` has returned, and the reader task counts a
pong when it reads it. The two counts meet in one interlocked counter, and every interlocked
operation is a step of its own. The watchdog only reads the counter; when it trips, the
stream is cancelled, which can also happen for other reasons and at any time.
-/

namespace ArcMiner.Pool.PingLedger

open Library Library.Machine MiningSession

inductive Writer where
  | idle
  | writing (ev : MinerEvent)
  /-- The event is on the wire, and `WriteAsync` has not returned to the loop. -/
  | written (ev : MinerEvent)
  /-- In `MarkPingSent`, after the increment. -/
  | marking
  | ended

/-- How far `InboundReaderLoop` has come with a pong. -/
inductive Reader where
  | idle
  | decremented (remaining : Int)
  /-- In `MarkPongReceived`, after the count has been set to zero. -/
  | reset
  /-- `OnPong` is to be called. -/
  | marked
  | ended

structure State where
  outbound : Channel MinerEvent 1024
  writer : Writer
  reader : Reader
  pendingPingCount : Int
  oldestPendingPingTicks : Int
  pingSentTicks : Int
  /-- What the pump has recorded as round trips, in milliseconds. -/
  rtts : List Int
  written : Nat
  /-- Pings counted as sent. -/
  recorded : Nat
  /-- Pongs that `MarkPongReceived` is through with. -/
  answered : Nat

def State.initial : State := ⟨.empty, .idle, .idle, 0, 0, 0, [], 0, 0, 0⟩

inductive WriterEvent where
  | take
  | wireWrite
  | writeReturns
  /-- `WriteAsync` throws, with the event on the wire or not. -/
  | writeThrows
  | increment
  | compareExchange (now : Int)
  | stop

inductive ReaderEvent where
  | pong
  | resetCount
  | clearOldest
  | refreshOldest (now : Int)
  | handlePong (now : Int)
  | stop

inductive Event where
  /-- The loop of the pump. -/
  | ping (now : Int) (seq : UInt64)
  | enqueue (ev : MinerEvent)
  | withdraw (place : Nat)
  | complete
  | writer (event : WriterEvent)
  | reader (event : ReaderEvent)

section machine
variable (s : State)

def stopWriter : State := { s with writer := .ended, outbound := s.outbound.complete.drain }

def writerStep : WriterEvent → Option State
  | .take =>
    match s.writer, s.outbound.read with
    | .idle, some (ev, outbound) => some { s with writer := .writing ev, outbound }
    | _, _ => none
  | .wireWrite =>
    match s.writer with
    | .writing ev =>
      some { s with writer := .written ev, written := if ev.eventCase = .ping then s.written + 1 else s.written }
    | _ => none
  | .writeReturns =>
    match s.writer with
    | .written ev => if ev.eventCase = .ping then none else some { s with writer := .idle }
    | _ => none
  | .writeThrows =>
    match s.writer with
    | .writing _ | .written _ => some (stopWriter s)
    | _ => none
  | .increment =>
    match s.writer with
    | .written ev =>
      if ev.eventCase = .ping then
        some { s with
          writer := .marking
          pendingPingCount := int32 (s.pendingPingCount + 1)
          recorded := s.recorded + 1 }
      else none
    | _ => none
  | .compareExchange now =>
    match s.writer with
    | .marking =>
      some { s with
        writer := .idle
        oldestPendingPingTicks := if s.oldestPendingPingTicks = 0 then now else s.oldestPendingPingTicks }
    | _ => none
  | .stop =>
    match s.writer with
    | .idle => some (stopWriter s)
    | _ => none

def handlePong (now : Int) : List Int :=
  if s.pingSentTicks ≠ 0 ∧ 0 ≤ now - s.pingSentTicks ∧ now - s.pingSentTicks < 60000 then [now - s.pingSentTicks] else []

/-- Steps of the reader task. The pool answers the pings that have reached it. -/
def readerStep : ReaderEvent → Option State
  | .pong =>
    match s.reader with
    | .idle =>
      if s.answered < s.written then
        let remaining := int32 (s.pendingPingCount - 1)
        some { s with reader := .decremented remaining, pendingPingCount := remaining }
      else none
    | _ => none
  | .resetCount =>
    match s.reader with
    | .decremented remaining => if remaining ≤ 0 then some { s with reader := .reset, pendingPingCount := 0 } else none
    | _ => none
  | .clearOldest =>
    match s.reader with
    | .reset => some { s with reader := .marked, oldestPendingPingTicks := 0, answered := s.answered + 1 }
    | _ => none
  | .refreshOldest now =>
    match s.reader with
    | .decremented remaining =>
      if remaining ≤ 0 then none
      else some { s with reader := .marked, oldestPendingPingTicks := now, answered := s.answered + 1 }
    | _ => none
  | .handlePong now =>
    match s.reader with
    | .marked => some { s with reader := .idle, rtts := s.rtts ++ handlePong s now }
    | _ => none
  | .stop =>
    match s.reader with
    | .idle => some { s with reader := .ended }
    | _ => none

def step : Event → Option State
  | .ping now seq => some { s with pingSentTicks := now, outbound := s.outbound.write ⟨seq, .ping⟩ }
  | .enqueue ev => some { s with outbound := s.outbound.write ev }
  | .withdraw place => some { s with outbound := s.outbound.withdraw place }
  | .complete => some { s with outbound := s.outbound.complete }
  | .writer event => writerStep s event
  | .reader event => readerStep s event

end machine

def Reader.busy : Reader → Nat
  | .decremented _ | .reset => 1
  | .idle | .marked | .ended => 0

def Reader.Resets : Reader → Prop
  | .decremented remaining => remaining ≤ 0
  | .idle | .reset | .marked | .ended => False

/-- A pong is counted only when its ping has been, and the counter does not wrap. -/
def InOrder (s : State) : Event → Prop
  | .reader .pong => s.answered < s.recorded
  | .writer .increment => s.pendingPingCount < 2 ^ 31 - 1
  | _ => True

instance (s : State) : ∀ event, Decidable (InOrder s event)
  | .reader .pong => inferInstanceAs (Decidable (s.answered < s.recorded))
  | .writer .increment => inferInstanceAs (Decidable (s.pendingPingCount < 2 ^ 31 - 1))
  | .ping _ _ | .enqueue _ | .withdraw _ | .complete
  | .writer .take | .writer .wireWrite | .writer .writeReturns | .writer .writeThrows | .writer (.compareExchange _)
  | .writer .stop | .reader .resetCount | .reader .clearOldest | .reader (.refreshOldest _) | .reader (.handlePong _)
  | .reader .stop => inferInstanceAs (Decidable True)

/-- The count is at most that of the pings still unanswered, and below zero only on its way to it. -/
structure Balanced (s : State) : Prop where
  answers : s.answered + s.reader.busy ≤ s.recorded
  reached : s.answered + s.reader.busy ≤ s.written
  atMost : s.pendingPingCount + (s.answered + s.reader.busy) ≤ s.recorded
  atLeast : -1 ≤ s.pendingPingCount
  credit : ¬ s.reader.Resets → 0 ≤ s.pendingPingCount
  fits : s.pendingPingCount < 2 ^ 31

section steps
variable {s next : State} {event : Event}

theorem Balanced.frame (balanced : Balanced s) (outbound : Channel MinerEvent 1024) (writer : Writer)
    (oldestPendingPingTicks pingSentTicks : Int) {written : Nat} (grows : s.written ≤ written) :
    Balanced { s with outbound, writer, oldestPendingPingTicks, pingSentTicks, written } :=
  ⟨balanced.answers, balanced.reached.trans grows, balanced.atMost, balanced.atLeast, balanced.credit, balanced.fits⟩

theorem Balanced.increment (balanced : Balanced s) (writer : Writer) (room : s.pendingPingCount < 2 ^ 31 - 1) :
    Balanced { s with
      writer
      pendingPingCount := int32 (s.pendingPingCount + 1)
      recorded := s.recorded + 1 } := by
  obtain ⟨answers, reached, atMost, atLeast, credit, fits⟩ := balanced
  have value : int32 (s.pendingPingCount + 1) = s.pendingPingCount + 1 := int32_of_fits (by omega) (by omega)
  refine ⟨Nat.le_succ_of_le answers, reached, ?_, ?_, fun idle => ?_, ?_⟩
  · simp only [value]
    omega
  · simp only [value]
    omega
  · simp only [value]
    have := credit idle
    omega
  · simp only [value]
    omega

theorem Balanced.writer (balanced : Balanced s) {event : WriterEvent} (inOrder : InOrder s (.writer event))
    (stepped : writerStep s event = some next) : Balanced next := by
  cases event with
  | take =>
    simp only [writerStep] at stepped
    split at stepped <;> cases stepped
    exact balanced.frame _ _ _ _ le_rfl
  | wireWrite =>
    simp only [writerStep] at stepped
    split at stepped <;> cases stepped
    refine balanced.frame _ _ _ _ ?_
    split <;> omega
  | writeReturns =>
    simp only [writerStep] at stepped
    split at stepped
    · split at stepped <;> cases stepped
      exact balanced.frame _ _ _ _ le_rfl
    · cases stepped
  | writeThrows | stop =>
    simp only [writerStep] at stepped
    split at stepped <;> cases stepped <;> exact balanced.frame _ _ _ _ le_rfl
  | increment =>
    simp only [writerStep] at stepped
    split at stepped
    · split at stepped <;> cases stepped
      exact balanced.increment _ inOrder
    · cases stepped
  | compareExchange now =>
    simp only [writerStep] at stepped
    split at stepped <;> cases stepped
    exact balanced.frame _ _ _ _ le_rfl

theorem Balanced.pong (balanced : Balanced s) (idle : s.reader = .idle) (inOrder : s.answered < s.recorded)
    (reached : s.answered < s.written) : Balanced { s with
      reader := .decremented (int32 (s.pendingPingCount - 1))
      pendingPingCount := int32 (s.pendingPingCount - 1) } := by
  obtain ⟨-, -, atMost, -, credit, fits⟩ := balanced
  rw [idle] at atMost credit
  have credit := credit not_false
  have value : int32 (s.pendingPingCount - 1) = s.pendingPingCount - 1 := int32_of_fits (by omega) (by omega)
  rw [value]
  simp only [Reader.busy] at atMost
  refine ⟨inOrder, reached, ?_, ?_, fun positive => ?_, ?_⟩
  · simp only [Reader.busy]
    omega
  · show -1 ≤ s.pendingPingCount - 1
    omega
  · have : ¬ s.pendingPingCount - 1 ≤ 0 := positive
    show 0 ≤ s.pendingPingCount - 1
    omega
  · show s.pendingPingCount - 1 < 2 ^ 31
    omega

theorem Balanced.reader (balanced : Balanced s) {event : ReaderEvent} (inOrder : InOrder s (.reader event))
    (stepped : readerStep s event = some next) : Balanced next := by
  obtain ⟨answers, reached, atMost, atLeast, credit, fits⟩ := id balanced
  cases event with
  | pong =>
    simp only [readerStep] at stepped
    split at stepped
    next idle =>
      split at stepped
      next reached =>
        obtain rfl := Option.some.inj stepped
        exact balanced.pong idle inOrder reached
      next => cases stepped
    next => cases stepped
  | resetCount =>
    simp only [readerStep] at stepped
    split at stepped
    next remaining reader =>
      split at stepped <;> cases stepped
      rw [reader] at answers reached
      refine ⟨answers, reached, ?_, by simp, fun _ => le_rfl, by simp⟩
      simp only [Reader.busy] at answers ⊢
      omega
    next => cases stepped
  | clearOldest =>
    simp only [readerStep] at stepped
    split at stepped
    next reader =>
      cases stepped
      rw [reader] at answers reached atMost credit
      refine ⟨answers, reached, ?_, atLeast, credit, fits⟩
      simp only [Reader.busy] at atMost ⊢
      omega
    next => cases stepped
  | refreshOldest now =>
    simp only [readerStep] at stepped
    split at stepped
    next remaining reader =>
      split at stepped <;> cases stepped
      next positive =>
        rw [reader] at answers reached atMost credit
        refine ⟨answers, reached, ?_, atLeast, fun _ => credit positive, fits⟩
        simp only [Reader.busy] at atMost ⊢
        omega
    next => cases stepped
  | handlePong now =>
    simp only [readerStep] at stepped
    split at stepped
    next reader =>
      cases stepped
      rw [reader] at answers reached atMost credit
      exact ⟨answers, reached, atMost, atLeast, credit, fits⟩
    next => cases stepped
  | stop =>
    simp only [readerStep] at stepped
    split at stepped
    next reader =>
      cases stepped
      rw [reader] at answers reached atMost credit
      exact ⟨answers, reached, atMost, atLeast, credit, fits⟩
    next => cases stepped

theorem balanced_step (inOrder : InOrder s event) (balanced : Balanced s) (stepped : step s event = some next) :
    Balanced next := by
  cases event with
  | ping | enqueue | withdraw | complete =>
    cases stepped
    exact balanced.frame _ _ _ _ le_rfl
  | writer event => exact balanced.writer inOrder stepped
  | reader event => exact balanced.reader inOrder stepped

end steps

def Settled (s : State) : Prop := s.recorded = s.written ∧ s.answered = s.written

/-- In every run where no pong is counted before its ping, the ledger is balanced whenever every ping on the wire has been
counted and answered. -/
theorem ping_ledger_balanced {events : List Event} {s : State} (inOrder : Along step InOrder .initial events)
    (ran : run step .initial events = some s) (settled : Settled s) : s.pendingPingCount = 0 := by
  have start : Balanced .initial := ⟨le_refl _, le_refl _, le_refl _, by decide, fun _ => le_refl _, by decide⟩
  have balanced := run_invariant Balanced balanced_step inOrder start ran
  have reached := balanced.reached
  have atMost := balanced.atMost
  have idle : ¬ s.reader.Resets := by
    intro resets
    cases reader : s.reader with
    | decremented remaining =>
      rw [reader, Reader.busy, settled.2] at reached
      omega
    | idle | reset | marked | ended => simp [reader, Reader.Resets] at resets
  have credit := balanced.credit idle
  have counted := settled.1
  have answered := settled.2
  omega

def pinged (now : Int) (seq : UInt64) : List Event := [.ping now seq, .writer .take, .writer .wireWrite]

def markPingSent (now : Int) : List Event := [.writer .increment, .writer (.compareExchange now)]

def markPongReceived (now : Int) : List Event :=
  [.reader .pong, .reader .resetCount, .reader .clearOldest, .reader (.handlePong now)]

def overlapping : List Event :=
  pinged 1000 1 ++ markPingSent 1001 ++ pinged 16000 2 ++ [.reader .pong] ++ markPingSent 16001 ++
    [.reader .resetCount, .reader .clearOldest, .reader (.handlePong 16010)] ++ markPongReceived 16020

theorem ping_ledger_balanced_overlapping :
    Along step InOrder .initial overlapping ∧ ∃ s, run step .initial overlapping = some s ∧ s.written = 2 ∧ Settled s ∧
      s.pendingPingCount = 0 := by
  have inOrder : Along step InOrder .initial overlapping := by decide
  obtain ⟨s, ran, seen⟩ : ∃ s, run step .initial overlapping = some s ∧
      (s.written, s.recorded, s.answered) = (2, 2, 2) := Option.map_eq_some_iff.mp (by decide)
  simp only [Prod.mk.injEq] at seen
  obtain ⟨written, recorded, answered⟩ := seen
  have settled : Settled s := ⟨recorded.trans written.symm, answered.trans written.symm⟩
  exact ⟨inOrder, s, ran, written, settled, ping_ledger_balanced inOrder ran settled⟩

/-- The pong comes before the writer has counted the ping. The count of minus one is set to zero, and the ping that is
counted then stays pending. -/
theorem ping_ledger_unbalanced : ∃ s,
    run step .initial (pinged 1000 1 ++ markPongReceived 1001 ++ markPingSent 1002) = some s ∧
    Settled s ∧ s.written = 1 ∧ s.pendingPingCount = 1 := ⟨_, rfl, ⟨rfl, rfl⟩, rfl, by decide⟩

end ArcMiner.Pool.PingLedger
