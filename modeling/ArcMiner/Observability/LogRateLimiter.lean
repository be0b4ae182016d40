import Mathlib.Algebra.GroupWithZero.Nat
import Mathlib.Algebra.BigOperators.Group.List.Basic
import ArcMiner.Library.Machine

/-! The rate limiter of the log, under every interleaving of its calls.

A call reads the clock and the end of the window, and then counts itself as suppressed or tries to claim the next
window. The end of the window only rises, so that a claim never takes an old end for the current one. -/

namespace ArcMiner.Observability.LogRateLimiter

open Library.Machine List

/-- How far a call of `TryLog` has come. -/
inductive Call where
  | called (now : Int)
  | read (now next : Int)
  /-- Another call has claimed the window first. -/
  | late
  | claimed (now : Int)
  | refused
  | logged (now : Int) (suppressedSinceLast : Nat)
deriving DecidableEq

structure Limiter where
  clock : Int
  nextAllowedTicks : Int
  suppressedSinceLast : Nat
  calls : List Call
deriving DecidableEq

inductive Event where
  | call (now : Int)
  | step (index : Nat)

def start (clock : Int) : Limiter := ⟨clock, 0, 0, []⟩

section
variable (intervalMs : Int)

/-- The next access of a call to the shared fields, up to the one after it. -/
def advance (next : Int) (suppressed : Nat) : Call → Option (Int × Nat × Call)
  | .called now => some (next, suppressed, .read now next)
  | .read now seen =>
    if now < seen then some (next, suppressed + 1, .refused)
    else if next = seen then some ((now + intervalMs).bmod (2 ^ 64), suppressed, .claimed now)
    else some (next, suppressed, .late)
  | .late => some (next, suppressed + 1, .refused)
  | .claimed now => some (next, 0, .logged now (min (2 ^ 31 - 1) suppressed))
  | .refused => none
  | .logged _ _ => none

def step (state : Limiter) : Event → Option Limiter
  | .call now =>
    if state.clock ≤ now then some { state with clock := now, calls := state.calls ++ [.called now] } else none
  | .step index => do
    let call ← state.calls[index]?
    let (next, suppressed, after) ← advance intervalMs state.nextAllowedTicks state.suppressedSinceLast call
    return { state with
      nextAllowedTicks := next, suppressedSinceLast := suppressed, calls := state.calls.set index after }

/-- The clock of a call that has claimed a window. -/
def Call.window : Call → Option Int
  | .claimed now => some now
  | .logged now _ => some now
  | _ => none

def Call.reading : Call → Option Int
  | .called now => some now
  | .read now _ => some now
  | _ => none

def Call.reported : Call → Nat
  | .logged _ suppressed => suppressed
  | _ => 0

def Apart (a b : Call) : Prop := ∀ x ∈ a.window, ∀ y ∈ b.window, x + intervalMs ≤ y ∨ y + intervalMs ≤ x

/-- The end of a window that starts now is a `long`. -/
def Timely (_ : Limiter) : Event → Prop
  | .call now => now + intervalMs < 2 ^ 63
  | .step _ => True

instance (state : Limiter) (event : Event) : Decidable (Timely intervalMs state event) :=
  match event with
  | .call now => inferInstanceAs (Decidable (now + intervalMs < 2 ^ 63))
  | .step _ => inferInstanceAs (Decidable True)

structure Spaced (state : Limiter) : Prop where
  nonneg : 0 ≤ state.nextAllowedTicks
  timely : ∀ call ∈ state.calls, ∀ now ∈ call.reading, now + intervalMs < 2 ^ 63
  passed : ∀ call ∈ state.calls, ∀ now ∈ call.window, now + intervalMs ≤ state.nextAllowedTicks
  apart : state.calls.Pairwise (Apart intervalMs)
  counted : state.calls.length < 2 ^ 31 →
    (state.calls.map Call.reported).sum + state.suppressedSinceLast = state.calls.countP (· = .refused)

end

theorem set_split {α : Type} {xs : List α} {index : Nat} {x : α} (found : xs[index]? = some x) :
    ∃ before after, xs = before ++ x :: after ∧ ∀ y, xs.set index y = before ++ y :: after := by
  obtain ⟨inside, rfl⟩ := List.getElem?_eq_some_iff.mp found
  refine ⟨xs.take index, xs.drop (index + 1), by simp, fun y => ?_⟩
  rw [set_eq_take_append_cons_drop, if_pos inside]

variable {intervalMs : Int}

/-- What an access does: the end of the window does not fall, a claim is made no earlier than it, and what the
counter loses is reported. -/
structure Advanced (intervalMs next : Int) (suppressed : Nat) (call : Call) (next' : Int) (suppressed' : Nat) (after : Call) :
    Prop where
  rises : next ≤ next'
  reading : ∀ now ∈ after.reading, now ∈ call.reading
  window : ∀ now ∈ after.window, now ∈ call.window ∨ next ≤ now ∧ now + intervalMs ≤ next'
  unfinished : call.reported = 0 ∧ call ≠ .refused
  counted : suppressed < 2 ^ 31 → after.reported + suppressed' = suppressed + if after = .refused then 1 else 0

theorem advance_spec (positive : 0 < intervalMs) {next next' : Int} (nonneg : 0 ≤ next) {suppressed suppressed' : Nat}
    {call after : Call} (fits : ∀ now ∈ call.reading, now + intervalMs < 2 ^ 63)
    (advanced : advance intervalMs next suppressed call = some (next', suppressed', after)) :
    Advanced intervalMs next suppressed call next' suppressed' after := by
  cases call with
  | called now =>
    cases advanced
    exact ⟨Int.le_refl _, fun _ => id, nofun, ⟨rfl, nofun⟩, fun _ => by simp [Call.reported]⟩
  | read now seen =>
    simp only [advance] at advanced
    split_ifs at advanced with early same
    · cases advanced
      exact ⟨Int.le_refl _, nofun, nofun, ⟨rfl, nofun⟩, fun _ => by simp [Call.reported]⟩
    · cases advanced
      have below := fits now rfl
      have exactly : (now + intervalMs).bmod (2 ^ 64) = now + intervalMs := Int.bmod_eq_of_le (by omega) (by omega)
      refine ⟨by omega, nofun, ?_, ⟨rfl, nofun⟩, fun _ => by simp [Call.reported]⟩
      rintro _ ⟨⟩
      exact .inr ⟨by omega, Int.le_of_eq exactly.symm⟩
    · cases advanced
      exact ⟨Int.le_refl _, nofun, nofun, ⟨rfl, nofun⟩, fun _ => by simp [Call.reported]⟩
  | late =>
    cases advanced
    exact ⟨Int.le_refl _, nofun, nofun, ⟨rfl, nofun⟩, fun _ => by simp [Call.reported]⟩
  | claimed now =>
    cases advanced
    refine ⟨Int.le_refl _, nofun, fun _ => .inl, ⟨rfl, nofun⟩, fun few => ?_⟩
    simp only [Call.reported, reduceCtorEq, if_false]
    omega
  | refused => cases advanced
  | logged now suppressed => cases advanced

theorem spaced_step (positive : 0 < intervalMs) {state next : Limiter} {event : Event} (timely : Timely intervalMs state event)
    (spaced : Spaced intervalMs state) (stepped : step intervalMs state event = some next) : Spaced intervalMs next := by
  obtain ⟨clock, finish, pending, calls⟩ := state
  obtain ⟨nonneg, fits, passed, apart, counted⟩ := spaced
  dsimp only at nonneg fits passed apart counted
  cases event with
  | call now =>
    simp only [step, Option.ite_none_right_eq_some] at stepped
    obtain ⟨-, ⟨⟩⟩ := stepped
    refine ⟨nonneg, ?_, ?_, ?_, fun few => ?_⟩
    · rw [forall_mem_append, forall_mem_singleton]
      exact ⟨fits, by rintro _ ⟨⟩; exact timely⟩
    · rw [forall_mem_append, forall_mem_singleton]
      exact ⟨passed, nofun⟩
    · refine pairwise_append.mpr ⟨apart, pairwise_singleton _ _, fun a _ b called => ?_⟩
      rw [eq_of_mem_singleton called]
      nofun
    · simpa [Call.reported] using counted (by rw [length_append] at few; omega)
  | step index =>
    simp only [step, Option.bind_eq_bind, Option.bind_eq_some_iff] at stepped
    obtain ⟨call, found, ⟨finish', pending', after⟩, advanced, ⟨⟩⟩ := stepped
    obtain ⟨before, rest, rfl, replaced⟩ := set_split found
    simp only [forall_mem_append, forall_mem_cons] at fits passed
    simp only [pairwise_append, pairwise_cons, forall_mem_cons] at apart
    obtain ⟨fitsBefore, fitsCall, fitsRest⟩ := fits
    obtain ⟨passedBefore, passedCall, passedRest⟩ := passed
    obtain ⟨apartBefore, ⟨apartCall, apartRest⟩, across⟩ := apart
    obtain ⟨rises, reading, window, ⟨none, unrefused⟩, balance⟩ := advance_spec positive nonneg fitsCall advanced
    simp only [replaced]
    refine ⟨Int.le_trans nonneg rises, ?_, ?_, ?_, fun few => ?_⟩
    · simp only [forall_mem_append, forall_mem_cons]
      exact ⟨fitsBefore, fun now read => fitsCall now (reading now read), fitsRest⟩
    · simp only [forall_mem_append, forall_mem_cons]
      refine ⟨fun other member now claimed => ?_, fun now claimed => ?_, fun other member now claimed => ?_⟩
      · exact Int.le_trans (passedBefore other member now claimed) rises
      · obtain same | ⟨-, below⟩ := window now claimed
        · exact Int.le_trans (passedCall now same) rises
        · exact below
      · exact Int.le_trans (passedRest other member now claimed) rises
    · -- the end of the window is an interval after every claim there is
      simp only [pairwise_append, pairwise_cons, forall_mem_cons]
      refine ⟨apartBefore, ⟨fun other member x left y right => ?_, apartRest⟩, fun other member => ⟨?_, (across other member).2⟩⟩
      · obtain same | ⟨later, -⟩ := window x left
        · exact apartCall other member x same y right
        · exact .inr (Int.le_trans (passedRest other member y right) later)
      · intro x left y right
        obtain same | ⟨later, -⟩ := window y right
        · exact (across other member).1 x left y same
        · exact .inl (Int.le_trans (passedBefore other member x left) later)
    · have total := counted (by simpa using few)
      have most := countP_le_length (p := fun call => decide (call = Call.refused)) (l := before ++ call :: rest)
      simp only [length_append, length_cons] at few most
      have change := balance (by omega)
      simp only [map_append, map_cons, sum_append, sum_cons, countP_append, countP_cons, none, unrefused, decide_eq_true_eq,
        if_false] at total ⊢
      split_ifs at change ⊢ <;> omega

/-- Two claims are an interval apart, and what was suppressed is reported or still to be. -/
theorem log_lines_spaced (positive : 0 < intervalMs) {clock : Int} {events : List Event} {final : Limiter}
    (timely : Along (step intervalMs) (Timely intervalMs) (start clock) events)
    (ran : run (step intervalMs) (start clock) events = some final) (few : final.calls.length < 2 ^ 31) :
    final.calls.Pairwise (Apart intervalMs) ∧
      (final.calls.map Call.reported).sum + final.suppressedSinceLast = final.calls.countP (· = .refused) := by
  have spaced := run_invariant (Spaced intervalMs) (spaced_step positive) timely
    ⟨Int.le_refl 0, nofun, nofun, .nil, fun _ => rfl⟩ ran
  exact ⟨spaced.apart, spaced.counted few⟩

def oneCall (now : Int) (index : Nat) : List Event := [.call now, .step index, .step index, .step index]

def twoLines : List Event := [.call 0] ++ oneCall 3 1 ++ [.step 0, .step 0] ++ oneCall 8 2

theorem log_lines_spaced_two : ∃ final, run (step 5) (start 0) twoLines = some final ∧
    final.calls = [.refused, .logged 3 0, .logged 8 1] ∧ final.calls.Pairwise (Apart 5) := by
  have ran : run (step 5) (start 0) twoLines = some ⟨8, 13, 0, [.refused, .logged 3 0, .logged 8 1]⟩ := by decide +kernel
  have timely : Along (step 5) (Timely 5) (start 0) twoLines := by decide +kernel
  exact ⟨_, ran, rfl, (log_lines_spaced (by decide) timely ran (by decide)).1⟩

/-- At the last values of the clock the end of the window is negative. -/
theorem window_wraps : (run (step 1) (start 0) (oneCall (2 ^ 63 - 1) 0 ++ oneCall (2 ^ 63 - 1) 1)).map Limiter.calls =
    some [.logged (2 ^ 63 - 1) 0, .logged (2 ^ 63 - 1) 0] := by
  decide +kernel

end ArcMiner.Observability.LogRateLimiter
