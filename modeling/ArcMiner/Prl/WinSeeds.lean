import ArcMiner.Library.Machine
import ArcMiner.Prl.GpuWorkerSpec
import Mathlib.Data.List.Nodup

/-! The win seeds of all sessions and the header slots of their batches.

Each session walks its own range of seeds, one after the other. A slot is queued with
a seed and has to be scanned, with that seed, before it is queued again.
-/

namespace ArcMiner.Prl.GpuWorker

open Library Library.Machine Library.Action List Function BatchState

structure Session where
  gpuIndex : Nat
  env : Env
  events : List Event

def queuedSeeds (slots : List SlotEvent) : List UInt64 :=
  slots.filterMap fun
    | .queued _ _ winSeed => some winSeed
    | .scanned _ _ _ => none

abbrev Waiting := Half → Nat → Option UInt64

def noneWaiting : Waiting := fun _ _ => none

def Waiting.fill (waiting : Waiting) (half : Half) (batchStart : UInt64) (batch : Nat) : Waiting :=
  update waiting half fun k => if k < batch then some (batchStart + k.toUInt64) else waiting half k

section slots
variable {b : BatchState} {waiting : Waiting}

end slots

def Waiting.OneBatch (waiting : Waiting) : Prop :=
  ∃ half batchStart batch, waiting = noneWaiting.fill half batchStart batch

def Waiting.TwoBatches (waiting : Waiting) : Prop :=
  ∃ half first batch second batch',
    waiting = (noneWaiting.fill half first batch).fill half.other second batch'

theorem fill_zero (waiting : Waiting) (half : Half) (batchStart : UInt64) : waiting.fill half batchStart 0 = waiting := by
  simp [Waiting.fill]

theorem Waiting.OneBatch.two {waiting : Waiting} (one : waiting.OneBatch) : waiting.TwoBatches := by
  obtain ⟨half, first, batch, rfl⟩ := one
  exact ⟨half, first, batch, 0, 0, (fill_zero _ _ _).symm⟩

section seeds

theorem queuedSeeds_append (first second : List SlotEvent) :
    queuedSeeds (first ++ second) = queuedSeeds first ++ queuedSeeds second := filterMap_append

theorem queuedSeeds_queued (half : Half) (batchStart : UInt64) (batch : Nat) :
    queuedSeeds (queuedSlots half batchStart batch) = tabulate (fun k => batchStart + k.toUInt64) batch := by
  simp [queuedSeeds, queuedSlots, tabulate, filterMap_map]

theorem queuedSeeds_scanned (half : Half) (batchStart : UInt64) (k count : Nat) :
    queuedSeeds (scannedSlots half batchStart k count) = [] := by
  simp [queuedSeeds, scannedSlots, filterMap_map]

def seedsFrom (iterBase : UInt64) (count : Nat) : List UInt64 := tabulate (fun k => iterBase + k.toUInt64) count

theorem seed_add (iterBase : UInt64) (m n : Nat) : iterBase + m.toUInt64 + n.toUInt64 = iterBase + (m + n).toUInt64 := by
  rw [UInt64.add_assoc, show (m + n).toUInt64 = m.toUInt64 + n.toUInt64 from UInt64.ofNat_add m n]

theorem seedsFrom_add (iterBase : UInt64) (count more : Nat) :
    seedsFrom iterBase count ++ seedsFrom (iterBase + count.toUInt64) more = seedsFrom iterBase (count + more) := by
  unfold seedsFrom
  rw [tabulate_add]
  exact congrArg (_ ++ ·) (tabulate_congr fun k _ => seed_add iterBase count k)

variable {iterBase : UInt64} {b : BatchState} {count : Nat}

structure BatchState.Walked (b : BatchState) (iterBase : UInt64) (count : Nat) : Prop where
  seeds : queuedSeeds b.slots = seedsFrom iterBase count
  next : b.globalIterIdx + b.inflight.toUInt64 = iterBase + count.toUInt64

theorem drained_seeds (b : BatchState) : queuedSeeds b.drained.slots = queuedSeeds b.slots := by
  unfold drained log
  rw [queuedSeeds_append, queuedSeeds_scanned, append_nil]

theorem requeued_seeds (seeds : queuedSeeds b.slots = seedsFrom iterBase count)
    (start : b.globalIterIdx = iterBase + count.toUInt64) (size : Nat) :
    (b.requeued size).Walked iterBase (count + size) := by
  constructor
  · unfold requeued log
    rw [queuedSeeds_append, queuedSeeds_queued, ← seedsFrom_add, ← seeds, start]
    rfl
  · show b.globalIterIdx + size.toUInt64 = _
    rw [start, seed_add]

end seeds

structure Walks (iterBase : UInt64) (s : WorkerState) : Prop where
  seeds : ∃ count, queuedSeeds s.batches.slots = seedsFrom iterBase count
  fresh : s.phase = .fresh → s.batches.slots = [] ∧ s.batches.globalIterIdx = iterBase
  mining : s.phase = .mining → ∃ count, s.batches.Walked iterBase count

theorem Walks.requeued {iterBase : UInt64} {s : WorkerState} (walks : Walks iterBase s) (fresh : s.phase = .fresh)
    (size : Nat) : (s.batches.requeued size).Walked iterBase (0 + size) := by
  obtain ⟨none, base⟩ := walks.fresh fresh
  refine requeued_seeds ?_ ?_ size
  · rw [none]
    rfl
  · rw [base]
    exact (UInt64.add_zero _).symm

theorem BatchState.Walked.rotated {b : BatchState} {iterBase : UInt64} {count : Nat} (walked : b.Walked iterBase count)
    (size : Nat) : (b.drained.requeued size).Walked iterBase (count + size) :=
  requeued_seeds ((drained_seeds _).trans walked.seeds) walked.next size

section attribution
variable (env : Env)

def WorkerState.Attributed (s : WorkerState) : Prop :=
  ∀ payload ∈ s.payloads, ∃ half slot, .scanned half slot payload.winSeed ∈ s.batches.slots

variable {s after : WorkerState}

theorem WorkerState.Attributed.mono (attributed : s.Attributed) (payloads : after.payloads = s.payloads)
    (slots : s.batches.slots ⊆ after.batches.slots) : after.Attributed := by
  intro payload member
  obtain ⟨half, slot, scanned⟩ := attributed payload (payloads ▸ member)
  exact ⟨half, slot, slots scanned⟩

theorem WorkerState.Attributed.log (attributed : s.Attributed) (events : List SlotEvent) :
    { s with batches := s.batches.log events }.Attributed := attributed.mono rfl (subset_append_left _ _)

variable {env}

end attribution

section conservation
variable {slots : List SlotEvent} {waiting : Waiting}

end conservation

section bases

variable {gpuIndex count : Nat}

end bases

end ArcMiner.Prl.GpuWorker
