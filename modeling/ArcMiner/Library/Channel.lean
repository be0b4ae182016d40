import Mathlib.Data.List.Sublists

/-! A bounded channel whose writers wait for a place when it is full. -/

namespace ArcMiner.Library

structure Channel (α : Type) (capacity : Nat) where
  items : List α
  /-- What the waiting writers bring, in the order they came. -/
  blocked : List α
  completed : Bool
  full : blocked ≠ [] → capacity ≤ items.length

namespace Channel

variable {α : Type} {capacity : Nat}

def empty : Channel α capacity := ⟨[], [], false, fun some => absurd rfl some⟩

/-- Everything that will be read if nothing else happens, in the order of reading. -/
def waiting (channel : Channel α capacity) : List α := channel.items ++ channel.blocked

def write (channel : Channel α capacity) (item : α) : Channel α capacity :=
  if channel.completed then channel
  else if room : channel.items.length < capacity then
    { channel with
      items := channel.items ++ [item]
      full := fun some => absurd (channel.full some) (Nat.not_le.mpr room) }
  else
    { channel with
      blocked := channel.blocked ++ [item]
      full := fun _ => Nat.not_lt.mp room }

/-- The place that gets free goes to the first waiting writer. -/
def read (channel : Channel α capacity) : Option (α × Channel α capacity) :=
  match items : channel.items, blocked : channel.blocked with
  | [], _ => none
  | item :: rest, [] => some (item, ⟨rest, [], channel.completed, fun some => absurd rfl some⟩)
  | item :: rest, next :: later =>
    have enough : capacity ≤ (rest ++ [next]).length := by
      simpa [items] using channel.full (blocked ▸ List.cons_ne_nil next later)
    some (item, ⟨rest ++ [next], later, channel.completed, fun _ => enough⟩)

def withdraw (channel : Channel α capacity) (place : Nat) : Channel α capacity :=
  { channel with
    blocked := channel.blocked.eraseIdx place
    full := fun some => channel.full fun none => some (none ▸ List.eraseIdx_nil) }

/-- Waiting writers fail, what is in the channel can still be read. -/
def complete (channel : Channel α capacity) : Channel α capacity :=
  ⟨channel.items, [], true, fun some => absurd rfl some⟩

def drain (channel : Channel α capacity) : Channel α capacity :=
  ⟨[], [], channel.completed, fun some => absurd rfl some⟩

@[simp] theorem completed_write (channel : Channel α capacity) (item : α) :
    (channel.write item).completed = channel.completed := by
  unfold write
  split
  · rfl
  · split <;> rfl

theorem write_of_completed {channel : Channel α capacity} (closed : channel.completed = true) (item : α) :
    channel.write item = channel := if_pos closed

/-- First in, first out: no writer overtakes one that waits. -/
theorem waiting_write {channel : Channel α capacity} (isOpen : channel.completed = false) (item : α) :
    (channel.write item).waiting = channel.waiting ++ [item] := by
  unfold write
  rw [if_neg (by simp [isOpen])]
  split
  next room =>
    have nobody : channel.blocked = [] := by
      by_contra some
      exact absurd (channel.full some) (Nat.not_le.mpr room)
    simp [waiting, nobody]
  next => simp [waiting]

theorem read_spec {channel next : Channel α capacity} {item : α} (taken : channel.read = some (item, next)) :
    channel.waiting = item :: next.waiting ∧ next.completed = channel.completed := by
  unfold read at taken
  split at taken
  · cases taken
  next items blocked =>
    obtain ⟨rfl, rfl⟩ := Prod.mk.inj (Option.some.inj taken)
    simp [waiting, items, blocked]
  next items blocked =>
    obtain ⟨rfl, rfl⟩ := Prod.mk.inj (Option.some.inj taken)
    simp [waiting, items, blocked]

theorem waiting_withdraw (channel : Channel α capacity) (place : Nat) :
    (channel.withdraw place).waiting.Sublist channel.waiting :=
  (List.eraseIdx_sublist channel.blocked place).append_left channel.items

theorem waiting_complete (channel : Channel α capacity) : channel.complete.waiting.Sublist channel.waiting := by
  simp [complete, waiting]

@[simp] theorem waiting_drain (channel : Channel α capacity) : channel.drain.waiting = [] := rfl

end Channel
end ArcMiner.Library
