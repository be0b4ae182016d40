import Mathlib.Data.Fintype.Basic
import ArcMiner.Library.Machine
import ArcMiner.Library.MachineInt

/-! The reference count of a tree handle.

`MerkleTreeHandle` and `NativeBSeedMerkleTreeHandle` free a native tree with the last reference;
`BSeedMerkleTreeHandle` has nothing to free. Each interlocked operation is one step, and so are the
test of the native handle, the call that frees it and the write that clears it. The reference of the
builder is released like those of the successful calls of `Acquire`. A handle whose count has reached
zero may be disposed of again. Finalizers only see handles that were not released.
-/

namespace ArcMiner.Prl.MerkleTreeHandle

open Library Library.Machine Function Option

inductive Kind where
  | native
  | managed
deriving DecidableEq

inductive Pending where
  /-- `Acquire` takes its increment back and throws. -/
  | rollback
  /-- `Release` has seen a negative count and restores zero. -/
  | restore
  | checkHandle
  | free
  | clearHandle
deriving DecidableEq

/-- The steps of `FreeNative`. -/
def Pending.freeing : Pending → Bool
  | .checkHandle | .free | .clearHandle => true
  | .rollback | .restore => false

structure Handle (ι : Type) where
  refCount : Int
  nonNull : Bool
  calls : ι → Option Pending
  /-- References that were acquired and not released. -/
  held : Nat
  /-- The count has been zero. -/
  reachedZero : Bool
  frees : Nat
  /-- Calls of `Acquire` that succeeded after the count had been zero. -/
  resurrections : Nat

def Handle.built {ι : Type} : Handle ι := ⟨1, true, fun _ => none, 1, false, 0, 0⟩

inductive Event (ι : Type) where
  | acquire (thread : ι)
  | release (thread : ι)
  | disposeAgain (thread : ι)
  | advance (thread : ι)

section handle
variable {ι : Type} [DecidableEq ι] (kind : Kind)

def Handle.setCount (handle : Handle ι) (count : Int) : Handle ι :=
  { handle with refCount := count, reachedZero := handle.reachedZero || decide (count = 0) }

def Handle.pend (handle : Handle ι) (thread : ι) (pending : Option Pending) : Handle ι :=
  { handle with calls := update handle.calls thread pending }

def acquire (handle : Handle ι) (thread : ι) : Handle ι :=
  let count := int32 (handle.refCount + 1)
  if count ≤ 1 then (handle.setCount count).pend thread (some .rollback)
  else { handle.setCount count with
    held := handle.held + 1
    resurrections := handle.resurrections + if handle.reachedZero then 1 else 0 }

def afterRelease (after : Int) : Option Pending :=
  match kind with
  | .native => if after > 0 then none else if after < 0 then some .restore else some .checkHandle
  | .managed => if after ≥ 0 then none else some .restore

def release (handle : Handle ι) (thread : ι) : Handle ι :=
  let after := int32 (handle.refCount - 1)
  (handle.setCount after).pend thread (afterRelease kind after)

def advance (handle : Handle ι) (thread : ι) : Pending → Handle ι
  | .rollback => (handle.setCount (int32 (handle.refCount - 1))).pend thread none
  | .restore => (handle.setCount 0).pend thread none
  | .checkHandle => handle.pend thread (if handle.nonNull then some .free else none)
  | .free => { handle.pend thread (some .clearHandle) with frees := handle.frees + 1 }
  | .clearHandle => { handle.pend thread none with nonNull := false }

def handleStep (handle : Handle ι) : Event ι → Option (Handle ι)
  | .acquire thread => if handle.calls thread = none then some (acquire handle thread) else none
  | .release thread =>
    if handle.calls thread = none ∧ 0 < handle.held then
      some { release kind handle thread with held := handle.held - 1 }
    else none
  | .disposeAgain thread =>
    if handle.calls thread = none ∧ handle.reachedZero then some (release kind handle thread) else none
  | .advance thread => (handle.calls thread).map (advance handle thread)

/-- The tree is freed once, after the count was zero and nobody held it, and no reference came after that. -/
def Sound (handle : Handle ι) : Prop :=
  handle.frees ≤ 1 ∧ (0 < handle.frees → handle.reachedZero = true ∧ handle.held = 0) ∧ handle.resurrections = 0 ∧
    (kind = .native → handle.held = 0 → (∀ thread, handle.calls thread = none) → handle.frees = 1)

/-- No call of `Acquire` stands between its increment and the decrement that takes it back, and the
counter does not wrap. -/
def Undisturbed (handle : Handle ι) : Event ι → Prop
  | .acquire _ => (∀ thread, handle.calls thread ≠ some .rollback) ∧ handle.refCount ≠ 2 ^ 31 - 1
  | .release _ => True
  | .disposeAgain _ => (∀ thread, handle.calls thread ≠ some .rollback) ∧ handle.refCount ≠ -2 ^ 31
  | .advance thread => handle.calls thread = some .rollback → handle.refCount ≠ -2 ^ 31

instance [Fintype ι] (handle : Handle ι) (event : Event ι) : Decidable (Undisturbed handle event) := by
  cases event <;> unfold Undisturbed <;> infer_instance

def Quiet (calls : ι → Option Pending) (thread : ι) : Prop := ∀ call ∈ calls thread, call.freeing = false

/-- Where the one call of `FreeNative` is. -/
inductive Freeing (handle : Handle ι) : Prop where
  | pending (thread : ι) (before : handle.calls thread = some .checkHandle ∨ handle.calls thread = some .free)
      (alone : ∀ other, other ≠ thread → Quiet handle.calls other) (nonNull : handle.nonNull = true)
      (unfreed : handle.frees = 0)
  | clearing (thread : ι) (last : handle.calls thread = some .clearHandle)
      (alone : ∀ other, other ≠ thread → Quiet handle.calls other) (freed : handle.frees = 1)
  | finished (alone : ∀ other, Quiet handle.calls other) (freed : handle.frees = 1)

structure Alive (handle : Handle ι) : Prop where
  counted : handle.refCount = handle.held
  positive : 0 < handle.held
  idle : ∀ thread, handle.calls thread = none
  nonNull : handle.nonNull = true
  unfreed : handle.frees = 0

/-- Afterwards only an increment that is to be taken back raises it. -/
structure Dead (handle : Handle ι) : Prop where
  released : handle.held = 0
  atMostOne : handle.refCount ≤ 1
  raised : handle.refCount = 1 → ∃ thread, handle.calls thread = some .rollback
  freeing : kind = .native → Freeing handle
  nothing : kind = .managed → handle.frees = 0 ∧ ∀ thread, Quiet handle.calls thread

structure Counted (handle : Handle ι) : Prop where
  low : -2 ^ 31 ≤ handle.refCount
  high : handle.refCount < 2 ^ 31
  noResurrection : handle.resurrections = 0
  alive : handle.reachedZero = false → Alive handle
  dead : handle.reachedZero = true → Dead kind handle

variable {kind}
variable {handle : Handle ι} {thread : ι} {call : Pending}


theorem quiet_update {calls : ι → Option Pending} {other : ι} {pending : Option Pending}
    (new : ∀ call ∈ pending, call.freeing = false) (old : other ≠ thread → Quiet calls other) :
    Quiet (update calls thread pending) other := by
  intro call now
  rcases update_eq_some now with ⟨-, given⟩ | ⟨another, kept⟩
  · exact new call given
  · exact old another call kept

theorem Freeing.pend (holds : Freeing handle) {pending : Option Pending} (count : Int)
    (old : Quiet handle.calls thread) (new : ∀ call ∈ pending, call.freeing = false) :
    Freeing ((handle.setCount count).pend thread pending) := by
  have elsewhere {inside : ι} {call : Pending} (called : handle.calls inside = some call) (busy : call.freeing = true) :
      update handle.calls thread pending inside = some call := by
    have another : inside ≠ thread := by
      rintro rfl
      exact absurd (old call called) (by simp [busy])
    rwa [update_of_ne another]
  cases holds with
  | pending inside before alone nonNull unfreed =>
    refine .pending inside ?_ (fun other another => quiet_update new fun _ => alone other another) nonNull unfreed
    exact before.imp (fun called => elsewhere called rfl) (fun called => elsewhere called rfl)
  | clearing inside last alone freed =>
    exact .clearing inside (elsewhere last rfl) (fun other another => quiet_update new fun _ => alone other another) freed
  | finished alone freed => exact .finished (fun other => quiet_update new fun _ => alone other) freed

theorem Dead.pend (holds : Dead kind handle) {pending : Option Pending} {count : Int}
    (old : Quiet handle.calls thread) (new : ∀ call ∈ pending, call.freeing = false) (atMostOne : count ≤ 1)
    (raised : count = 1 → ∃ raising, update handle.calls thread pending raising = some .rollback) :
    Dead kind ((handle.setCount count).pend thread pending) where
  released := holds.released
  atMostOne := atMostOne
  raised := raised
  freeing native := (holds.freeing native).pend count old new
  nothing managed := ⟨(holds.nothing managed).1, fun other => quiet_update new fun _ => (holds.nothing managed).2 other⟩

omit [DecidableEq ι] in
theorem quiet_of_idle {calls : ι → Option Pending} (idle : calls thread = none) : Quiet calls thread := by
  intro call called
  rw [idle] at called
  cases called

omit [DecidableEq ι] in
theorem Dead.count_le (holds : Dead kind handle)
    (undisturbed : ∀ thread, handle.calls thread ≠ some .rollback) : handle.refCount ≤ 0 := by
  have most := holds.atMostOne
  by_contra positive
  obtain ⟨thread, called⟩ := holds.raised (by omega)
  exact undisturbed thread called

theorem counted_acquire (idle : handle.calls thread = none)
    (undisturbed : ∀ other, handle.calls other ≠ some .rollback) (room : handle.refCount ≠ 2 ^ 31 - 1)
    (holds : Counted kind handle) : Counted kind (acquire handle thread) := by
  have lowest := holds.low
  have highest := holds.high
  have low : -2 ^ 31 ≤ handle.refCount + 1 := by omega
  have high : handle.refCount + 1 < 2 ^ 31 := by omega
  unfold acquire
  simp only [int32_of_fits low high]
  cases zero : handle.reachedZero with
  | false =>
    obtain ⟨counted, positive, calls, nonNull, unfreed⟩ := holds.alive zero
    rw [if_neg (by omega)]
    refine ⟨low, high, holds.noResurrection, fun _ => ⟨?_, Nat.succ_pos _, calls, nonNull, unfreed⟩, fun reached => ?_⟩
    · exact congrArg (· + 1) counted
    · simp only [Handle.setCount, zero, Bool.false_or, decide_eq_true_eq] at reached
      omega
  | true =>
    have dead := holds.dead zero
    have count := dead.count_le undisturbed
    rw [if_pos (by omega)]
    refine ⟨low, high, holds.noResurrection, fun alive => ?_, fun _ => ?_⟩
    · simp [Handle.pend, Handle.setCount, zero] at alive
    · refine dead.pend (quiet_of_idle idle) ?_ (by omega) fun _ => ⟨thread, update_self ..⟩
      rintro call ⟨⟩
      rfl

theorem dead_release (alive : Alive handle) (thread : ι) (last : handle.held = 1) :
    Dead kind { (handle.setCount 0).pend thread (afterRelease kind 0) with held := handle.held - 1 } := by
  have others (pending : Option Pending) (other : ι) (another : other ≠ thread) :
      Quiet (update handle.calls thread pending) other := by
    apply quiet_of_idle
    rw [update_of_ne another, alive.idle]
  refine ⟨Nat.sub_eq_zero_of_le last.le, Int.zero_le_ofNat 1, fun one => absurd one Int.zero_ne_one, ?_, ?_⟩
  · rintro rfl
    exact .pending thread (.inl (update_self ..)) (others _) alive.nonNull alive.unfreed
  · rintro rfl
    refine ⟨alive.unfreed, fun other => quiet_update nofun fun another => ?_⟩
    exact quiet_of_idle (alive.idle other)

theorem counted_release (held : 0 < handle.held) (holds : Counted kind handle) :
    Counted kind { release kind handle thread with held := handle.held - 1 } := by
  -- A handle with references has not been at zero.
  have zero : handle.reachedZero = false := by
    by_contra reached
    have := (holds.dead (by simpa using reached)).released
    omega
  have alive := holds.alive zero
  have counted := alive.counted
  have highest := holds.high
  have low : -2 ^ 31 ≤ handle.refCount - 1 := by omega
  have high : handle.refCount - 1 < 2 ^ 31 := by omega
  unfold release
  simp only [int32_of_fits low high]
  by_cases last : handle.held = 1
  · have none : handle.refCount - 1 = 0 := by omega
    rw [none] at low high ⊢
    refine ⟨low, high, holds.noResurrection, fun stillAlive => ?_, fun _ => dead_release alive thread last⟩
    simp [Handle.pend, Handle.setCount] at stillAlive
  · have returns : afterRelease kind (handle.refCount - 1) = none := by
      cases kind
      · exact if_pos (by omega)
      · exact if_pos (by omega)
    rw [returns]
    have remaining : handle.refCount - 1 = (handle.held - 1 : Nat) := by omega
    refine ⟨low, high, holds.noResurrection, fun _ => ⟨remaining, ?_, fun other => ?_, alive.nonNull, alive.unfreed⟩,
      fun reached => ?_⟩
    · exact Nat.sub_pos_of_lt (by omega)
    · simp [Handle.pend, Handle.setCount, update_apply, alive.idle]
    · simp only [Handle.pend, Handle.setCount, zero, Bool.false_or, decide_eq_true_eq] at reached
      omega

theorem counted_disposeAgain (idle : handle.calls thread = none)
    (zero : handle.reachedZero = true) (undisturbed : ∀ other, handle.calls other ≠ some .rollback)
    (room : handle.refCount ≠ -2 ^ 31) (holds : Counted kind handle) : Counted kind (release kind handle thread) := by
  have dead := holds.dead zero
  have count := dead.count_le undisturbed
  have lowest := holds.low
  have low : -2 ^ 31 ≤ handle.refCount - 1 := by omega
  have high : handle.refCount - 1 < 2 ^ 31 := by omega
  have restores : afterRelease kind (handle.refCount - 1) = some .restore := by
    cases kind
    · exact (if_neg (by omega)).trans (if_pos (by omega))
    · exact if_neg (by omega)
  unfold release
  simp only [int32_of_fits low high, restores]
  refine ⟨low, high, holds.noResurrection, fun alive => ?_, fun _ => ?_⟩
  · simp [Handle.pend, Handle.setCount, zero] at alive
  · refine dead.pend (quiet_of_idle idle) ?_ (by omega) fun one => absurd one (by omega)
    rintro call ⟨⟩
    rfl

theorem freeing_advance (called : handle.calls thread = some call)
    (busy : call.freeing = true) (holds : Freeing handle) : Freeing (advance handle thread call) := by
  have here {inside : ι} (alone : ∀ other, other ≠ inside → Quiet handle.calls other) : inside = thread := by
    by_contra another
    exact absurd (alone thread (Ne.symm another) call called) (by simp [busy])
  have others {pending : Option Pending} (alone : ∀ other, other ≠ thread → Quiet handle.calls other) (other : ι)
      (another : other ≠ thread) : Quiet (update handle.calls thread pending) other := by
    intro entry now
    rw [update_of_ne another] at now
    exact alone other another entry now
  cases holds with
  | pending inside before alone nonNull unfreed =>
    obtain rfl := here alone
    rcases before with before | before
    · obtain rfl : call = .checkHandle := Option.some.inj (called.symm.trans before)
      refine .pending inside (.inr ?_) (others alone) nonNull unfreed
      simp [advance, Handle.pend, nonNull]
    · obtain rfl : call = .free := Option.some.inj (called.symm.trans before)
      exact .clearing inside (update_self ..) (others alone) (congrArg (· + 1) unfreed)
  | clearing inside last alone freed =>
    obtain rfl := here alone
    obtain rfl : call = .clearHandle := Option.some.inj (called.symm.trans last)
    exact .finished (fun other => quiet_update nofun (alone other)) freed
  | finished alone freed => exact absurd (alone thread call called) (by simp [busy])

theorem advance_freeing_fields (handle : Handle ι) (thread : ι) (busy : call.freeing = true) :
    (advance handle thread call).refCount = handle.refCount ∧ (advance handle thread call).held = handle.held ∧
      (advance handle thread call).reachedZero = handle.reachedZero ∧
      (advance handle thread call).resurrections = handle.resurrections ∧
      ∃ pending, (advance handle thread call).calls = update handle.calls thread pending := by
  cases call with
  | rollback => cases busy
  | restore => cases busy
  | checkHandle => exact ⟨rfl, rfl, rfl, rfl, _, rfl⟩
  | free => exact ⟨rfl, rfl, rfl, rfl, _, rfl⟩
  | clearHandle => exact ⟨rfl, rfl, rfl, rfl, _, rfl⟩

theorem counted_freeing (called : handle.calls thread = some call)
    (busy : call.freeing = true) (zero : handle.reachedZero = true) (holds : Counted kind handle) :
    Counted kind (advance handle thread call) := by
  obtain ⟨count, held, reached, resurrections, pending, calls⟩ := advance_freeing_fields handle thread busy
  have dead := holds.dead zero
  refine ⟨count ▸ holds.low, count ▸ holds.high, resurrections ▸ holds.noResurrection, fun alive => ?_, fun _ => ?_⟩
  · exact absurd (zero.symm.trans (reached.symm.trans alive)) (by decide)
  · refine ⟨held ▸ dead.released, count ▸ dead.atMostOne, fun one => ?_, fun native => ?_, fun managed => ?_⟩
    · obtain ⟨raising, raised⟩ := dead.raised (count ▸ one)
      have another : raising ≠ thread := by
        rintro rfl
        obtain rfl := Option.some.inj (called.symm.trans raised)
        cases busy
      exact ⟨raising, by rw [calls, update_of_ne another, raised]⟩
    · exact freeing_advance called busy (dead.freeing native)
    · exact absurd ((dead.nothing managed).2 thread call called) (by simp [busy])

theorem counted_advance (called : handle.calls thread = some call)
    (room : call = .rollback → handle.refCount ≠ -2 ^ 31) (holds : Counted kind handle) :
    Counted kind (advance handle thread call) := by
  -- A call is only ever unfinished after the count has been zero.
  have zero : handle.reachedZero = true := by
    by_contra alive
    exact absurd ((holds.alive (by simpa using alive)).idle thread) (by simp [called])
  have dead := holds.dead zero
  have lowest := holds.low
  have most := dead.atMostOne
  have outside (quiet : call.freeing = false) : Quiet handle.calls thread := by
    intro entry found
    rwa [← Option.some.inj (called.symm.trans found)]
  cases call with
  | rollback =>
    have low : -2 ^ 31 ≤ handle.refCount - 1 := by
      have := room rfl
      omega
    have high : handle.refCount - 1 < 2 ^ 31 := by omega
    simp only [advance, int32_of_fits low high]
    refine ⟨low, high, holds.noResurrection, fun alive => ?_, fun _ => ?_⟩
    · simp [Handle.pend, Handle.setCount, zero] at alive
    · exact dead.pend (outside rfl) nofun (by omega) fun one => absurd one (by omega)
  | restore =>
    have low : (-2 : Int) ^ 31 ≤ 0 := by decide
    have high : (0 : Int) < 2 ^ 31 := by decide
    refine ⟨low, high, holds.noResurrection, fun alive => ?_, fun _ => ?_⟩
    · simp [advance, Handle.pend, Handle.setCount] at alive
    · exact dead.pend (outside rfl) nofun (by decide) nofun
  | checkHandle => exact counted_freeing called rfl zero holds
  | free => exact counted_freeing called rfl zero holds
  | clearHandle => exact counted_freeing called rfl zero holds

theorem counted_step {next : Handle ι} {event : Event ι} (undisturbed : Undisturbed handle event)
    (holds : Counted kind handle) (stepped : handleStep kind handle event = some next) : Counted kind next := by
  cases event with
  | acquire thread =>
    simp only [handleStep, ite_none_right_eq_some, Option.some.injEq] at stepped
    obtain ⟨idle, rfl⟩ := stepped
    exact counted_acquire idle undisturbed.1 undisturbed.2 holds
  | release thread =>
    simp only [handleStep, ite_none_right_eq_some, Option.some.injEq] at stepped
    obtain ⟨⟨-, held⟩, rfl⟩ := stepped
    exact counted_release held holds
  | disposeAgain thread =>
    simp only [handleStep, ite_none_right_eq_some, Option.some.injEq] at stepped
    obtain ⟨⟨idle, zero⟩, rfl⟩ := stepped
    exact counted_disposeAgain idle zero undisturbed.1 undisturbed.2 holds
  | advance thread =>
    obtain ⟨call, called, rfl⟩ := map_eq_some_iff.mp stepped
    exact counted_advance called (fun same => undisturbed (same ▸ called)) holds

omit [DecidableEq ι] in
theorem Freeing.frees_le (holds : Freeing handle) : handle.frees ≤ 1 := by
  cases holds with
  | pending thread before alone nonNull unfreed => exact unfreed ▸ Nat.zero_le 1
  | clearing thread last alone freed => exact freed.le
  | finished alone freed => exact freed.le

omit [DecidableEq ι] in
theorem Freeing.frees_eq (holds : Freeing handle) (idle : ∀ thread, handle.calls thread = none) :
    handle.frees = 1 := by
  cases holds with
  | pending thread before alone nonNull unfreed => simp [idle] at before
  | clearing thread last alone freed => exact freed
  | finished alone freed => exact freed

omit [DecidableEq ι] in
theorem Counted.sound (holds : Counted kind handle) : Sound kind handle := by
  cases zero : handle.reachedZero with
  | false =>
    have alive := holds.alive zero
    have positive := alive.positive
    refine ⟨by simp [alive.unfreed], fun freed => ?_, holds.noResurrection, fun _ none => by omega⟩
    simp [alive.unfreed] at freed
  | true =>
    have dead := holds.dead zero
    refine ⟨?_, fun _ => ⟨zero, dead.released⟩, holds.noResurrection, fun native _ idle => ?_⟩
    · cases kind with
      | native => exact (dead.freeing rfl).frees_le
      | managed => exact (dead.nothing rfl).1 ▸ Nat.zero_le 1
    · exact (dead.freeing native).frees_eq idle

/-- In every run in which nothing happens to the count during a rollback, the tree is freed once and
stays released, in every state reached. -/
theorem handle_sound_along {events : List (Event ι)} {final : Handle ι}
    (undisturbed : Along (handleStep kind) Undisturbed Handle.built events)
    (ran : run (handleStep kind) Handle.built events = some final) : Sound kind final := by
  have low : (-2 : Int) ^ 31 ≤ 1 := by decide
  have high : (1 : Int) < 2 ^ 31 := by decide
  have built : Counted kind (Handle.built : Handle ι) :=
    ⟨low, high, rfl, fun _ => ⟨rfl, Nat.one_pos, fun _ => rfl, rfl, rfl⟩, nofun⟩
  exact (run_invariant (Counted kind) counted_step undisturbed built ran).sound

end handle

def lateAcquire : List (Event Bool) :=
  [.acquire true, .release true, .release false, .advance false, .advance false, .acquire true, .advance true,
    .advance false, .disposeAgain true, .advance true]

theorem handle_sound_along_late : Along (handleStep .native) Undisturbed Handle.built lateAcquire ∧
      ∃ final, run (handleStep .native) Handle.built lateAcquire = some final ∧ Sound .native final := by
  have undisturbed : Along (handleStep .native) Undisturbed Handle.built lateAcquire := by decide
  have reached : (run (handleStep .native) Handle.built lateAcquire).isSome = true := by rfl
  obtain ⟨final, ran⟩ := isSome_iff_exists.mp reached
  exact ⟨undisturbed, final, ran, handle_sound_along undisturbed ran⟩

/-- While one `Acquire` rolls back, a second one finds the count at one and succeeds; its `Release`
frees the tree again. -/
theorem acquire_during_rollback : ∃ final, run (handleStep .native) (Handle.built : Handle (Fin 3))
        [.release 0, .advance 0, .advance 0, .acquire 1, .acquire 2, .advance 1, .release 2, .advance 2, .advance 2] =
          some final ∧
      final.frees = 2 ∧ final.resurrections = 1 ∧ ¬Sound .native final :=
  ⟨_, rfl, rfl, rfl, fun sound => absurd sound.1 (by decide)⟩

end ArcMiner.Prl.MerkleTreeHandle
