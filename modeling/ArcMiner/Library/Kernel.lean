import Mathlib.Data.List.Nodup

/-! Data-parallel kernels.

A launch runs one work item per index, in an order the device chooses. When every
place of the memory is written by at most one item, and no item reads what another
writes, the order does not matter.
-/

namespace ArcMiner.Library

open List Function

structure Schedule where
  order : Nat → List Nat
  complete : ∀ size, (order size).Perm (range size)

namespace Schedule

def ascending : Schedule := ⟨range, fun _ => .refl _⟩

theorem mem_order (schedule : Schedule) {size i : Nat} : i ∈ schedule.order size ↔ i < size := by
  rw [(schedule.complete size).mem_iff, mem_range]

theorem nodup_order (schedule : Schedule) (size : Nat) : (schedule.order size).Nodup :=
  (schedule.complete size).nodup_iff.mpr nodup_range

end Schedule

variable {S : Type}

def parallelFor (schedule : Schedule) (size : Nat) (item : Nat → S → S) (state : S) : S :=
  (schedule.order size).foldl (fun state i => item i state) state

section independent
variable {ι A : Type} {V : A → Type} (get : S → (place : A) → V place)

/-- Item `i` writes the places that `owner` assigns to it, and reads none that belong to other items. -/
structure Independent (owner : A → Option ι) (item : ι → S → S) : Prop where
  frame : ∀ i state place, owner place ≠ some i → get (item i state) place = get state place
  reads : ∀ i state other, (∀ place, owner place = none ∨ owner place = some i → get state place = get other place) →
    ∀ place, owner place = some i → get (item i state) place = get (item i other) place

variable {get} {owner : A → Option ι} {item : ι → S → S} (independent : Independent get owner item)
include independent

theorem get_foldl_of_free {place : A} (free : owner place = none) (order : List ι) (state : S) :
    get (order.foldl (fun state i => item i state) state) place = get state place := by
  induction order generalizing state with
  | nil => rfl
  | cons i rest ih => rw [foldl_cons, ih, independent.frame i state place (by simp [free])]

theorem get_foldl_of_absent {place : A} {i : ι} (owned : owner place = some i) {order : List ι}
    (absent : i ∉ order) (state : S) :
    get (order.foldl (fun state i => item i state) state) place = get state place := by
  induction order generalizing state with
  | nil => rfl
  | cons j rest ih =>
    obtain ⟨apart, later⟩ : i ≠ j ∧ i ∉ rest := by simpa using absent
    rw [foldl_cons, ih later, independent.frame j state place (by simp [owned, apart])]

theorem get_foldl_of_mem {place : A} {i : ι} (owned : owner place = some i) {order : List ι}
    (nodup : order.Nodup) (member : i ∈ order) (state : S) :
    get (order.foldl (fun state i => item i state) state) place = get (item i state) place := by
  induction order generalizing state with
  | nil => cases member
  | cons j rest ih =>
    obtain ⟨fresh, nodup⟩ := nodup_cons.mp nodup
    rw [foldl_cons]
    by_cases same : i = j
    · subst same
      exact get_foldl_of_absent independent owned fresh _
    · have later : i ∈ rest := by simpa [same] using member
      rw [ih nodup later]
      -- item `j` left untouched everything that item `i` reads
      refine independent.reads i _ _ (fun read source => independent.frame j state read ?_) place owned
      rcases source with free | own
      · simp [free]
      · simp [own, same]

end independent

section launch
variable {A : Type} {V : A → Type} {get : S → (place : A) → V place} {owner : A → Option Nat} {item : Nat → S → S}
  (independent : Independent get owner item)
include independent

theorem get_parallelFor_of_free {place : A} (free : owner place = none) (schedule : Schedule) (size : Nat)
    (state : S) : get (parallelFor schedule size item state) place = get state place :=
  get_foldl_of_free independent free _ state

theorem get_parallelFor_of_owned {place : A} {i size : Nat} (owned : owner place = some i) (inside : i < size)
    (schedule : Schedule) (state : S) : get (parallelFor schedule size item state) place = get (item i state) place :=
  get_foldl_of_mem independent owned (schedule.nodup_order size) (schedule.mem_order.mpr inside) state

end launch

section buffer
variable {α : Type}

theorem foldl_update_of_free {ι : Type} (place : ι → Nat) (value : ι → α → α) {order : List ι} {p : Nat}
    (free : ∀ i ∈ order, place i ≠ p) (memory : Nat → α) :
    order.foldl (fun memory i => update memory (place i) (value i (memory (place i)))) memory p = memory p := by
  induction order generalizing memory with
  | nil => rfl
  | cons i rest ih =>
    rw [foldl_cons, ih fun j member => free j (mem_cons_of_mem _ member)]
    exact update_of_ne (free i mem_cons_self).symm _ _

theorem foldl_update_of_mem {ι : Type} (place : ι → Nat) (value : ι → α → α) {order : List ι}
    (apart : (order.map place).Nodup) {i : ι} (member : i ∈ order) (memory : Nat → α) :
    order.foldl (fun memory i => update memory (place i) (value i (memory (place i)))) memory (place i) =
      value i (memory (place i)) := by
  induction order generalizing memory with
  | nil => cases member
  | cons j rest ih =>
    rw [map_cons, nodup_cons] at apart
    rw [foldl_cons]
    rcases mem_cons.mp member with rfl | later
    · have free : ∀ k ∈ rest, place k ≠ place i := fun k other same => apart.1 (same ▸ mem_map_of_mem other)
      rw [foldl_update_of_free place value free, update_self]
    · have other : place i ≠ place j := fun same => apart.1 (same ▸ mem_map_of_mem later)
      rw [ih apart.2 later, update_of_ne other]

def storeItem (base count : Nat) (value : Nat → (Nat → α) → α) (i : Nat) (memory : Nat → α) : Nat → α :=
  if count ≤ i then memory else update memory (base + i) (value i memory)

theorem storeItem_independent (base count : Nat) {value : Nat → (Nat → α) → α}
    (outside : ∀ i < count, ∀ memory other : Nat → α,
      (∀ place, place < base ∨ base + count ≤ place → memory place = other place) → value i memory = value i other) :
    Independent (fun (memory : Nat → α) => memory)
      (fun place => if base ≤ place ∧ place < base + count then some (place - base) else none)
      (storeItem base count value) := by
  constructor
  · intro i memory place other
    unfold storeItem
    split
    next => rfl
    next inside =>
      refine update_of_ne ?_ _ _
      rintro rfl
      exact other (by rw [if_pos (by omega)]; simp)
  · intro i memory other same place owned
    have inside : base ≤ place ∧ place < base + count := by
      by_contra outside
      rw [if_neg outside] at owned
      cases owned
    rw [if_pos inside, Option.some.injEq] at owned
    unfold storeItem
    rw [if_neg (by omega), if_neg (by omega), show base + i = place by omega, update_self,
      update_self]
    exact outside i (by omega) memory other fun read apart => same read (Or.inl (if_neg (by omega)))

theorem parallelFor_storeItem {base count size : Nat} {value : Nat → (Nat → α) → α}
    (outside : ∀ i < count, ∀ memory other : Nat → α,
      (∀ place, place < base ∨ base + count ≤ place → memory place = other place) → value i memory = value i other)
    (enough : count ≤ size) (schedule : Schedule) (memory : Nat → α) (place : Nat) :
    parallelFor schedule size (storeItem base count value) memory place =
      if base ≤ place ∧ place < base + count then value (place - base) memory else memory place := by
  have independent := storeItem_independent base count outside
  by_cases inside : base ≤ place ∧ place < base + count
  · rw [get_parallelFor_of_owned independent (if_pos inside) (by omega), if_pos inside, storeItem,
      if_neg (by omega), show base + (place - base) = place by omega, update_self]
  · rw [get_parallelFor_of_free independent (if_neg inside), if_neg inside]

end buffer

section stores
variable {α : Type}

def storeAll (stores : List (Nat × α)) (memory : Nat → α) : Nat → α :=
  stores.foldl (fun memory store => update memory store.1 store.2) memory

theorem storeAll_of_free {stores : List (Nat × α)} {place : Nat} (free : ∀ value, (place, value) ∉ stores)
    (memory : Nat → α) : storeAll stores memory place = memory place := by
  induction stores generalizing memory with
  | nil => rfl
  | cons store rest ih =>
    have apart : place ≠ store.1 := by
      rintro rfl
      exact free store.2 mem_cons_self
    rw [storeAll, foldl_cons]
    exact (ih (fun value member => free value (mem_cons_of_mem _ member)) _).trans
      (update_of_ne apart _ _)

theorem storeAll_of_agree {stores : List (Nat × α)} {place : Nat} {value : α} (stored : (place, value) ∈ stores)
    (agree : ∀ other, (place, other) ∈ stores → other = value) (memory : Nat → α) :
    storeAll stores memory place = value := by
  induction stores generalizing memory with
  | nil => cases stored
  | cons store rest ih =>
    rw [storeAll, foldl_cons]
    by_cases later : (place, value) ∈ rest
    · exact ih later (fun other member => agree other (mem_cons_of_mem _ member)) _
    · -- the first store is the last one to this place
      have own : store = (place, value) := by simpa [later, eq_comm] using stored
      have free : ∀ other, (place, other) ∉ rest := fun other member =>
        later (agree other (mem_cons_of_mem _ member) ▸ member)
      exact (storeAll_of_free free _).trans (by rw [own, update_self])

theorem storeAll_of_nodup {stores : List (Nat × α)} (places : (stores.map Prod.fst).Nodup) {place : Nat} {value : α}
    (stored : (place, value) ∈ stores) (memory : Nat → α) : storeAll stores memory place = value :=
  storeAll_of_agree stored (fun _ member => congrArg Prod.snd (inj_on_of_nodup_map places member stored rfl)) memory

theorem parallelFor_storeAll (schedule : Schedule) (size : Nat) (stores : Nat → List (Nat × α)) (memory : Nat → α) :
    parallelFor schedule size (fun i => storeAll (stores i)) memory =
      storeAll ((schedule.order size).flatMap stores) memory := by
  unfold parallelFor storeAll
  generalize schedule.order size = order
  induction order generalizing memory with
  | nil => rfl
  | cons i rest ih => rw [foldl_cons, ih, flatMap_cons, foldl_append]

theorem parallelFor_storeAll_of_free {size : Nat} {stores : Nat → List (Nat × α)} {place : Nat}
    (free : ∀ i < size, ∀ value, (place, value) ∉ stores i) (schedule : Schedule) (memory : Nat → α) :
    parallelFor schedule size (fun i => storeAll (stores i)) memory place = memory place := by
  rw [parallelFor_storeAll]
  refine storeAll_of_free (fun value member => ?_) memory
  obtain ⟨i, item, store⟩ := mem_flatMap.mp member
  exact free i (schedule.mem_order.mp item) value store

theorem parallelFor_storeAll_of_agree {size i : Nat} {stores : Nat → List (Nat × α)} {place : Nat} {value : α}
    (inside : i < size) (stored : (place, value) ∈ stores i)
    (agree : ∀ j < size, ∀ other, (place, other) ∈ stores j → other = value)
    (schedule : Schedule) (memory : Nat → α) :
    parallelFor schedule size (fun i => storeAll (stores i)) memory place = value := by
  rw [parallelFor_storeAll]
  refine storeAll_of_agree (mem_flatMap.mpr ⟨i, schedule.mem_order.mpr inside, stored⟩) (fun other member => ?_)
    memory
  obtain ⟨j, item, store⟩ := mem_flatMap.mp member
  exact agree j (schedule.mem_order.mp item) other store

structure Fills (size : Nat) (stores : Nat → List (Nat × α)) (covered : Nat → Prop) (value : Nat → α) : Prop where
  sound : ∀ i < size, ∀ store ∈ stores i, covered store.1 ∧ store.2 = value store.1
  complete : ∀ place, covered place → ∃ i < size, (place, value place) ∈ stores i

section fills
variable {size : Nat} {stores : Nat → List (Nat × α)} {covered : Nat → Prop} {value : Nat → α}
  (fills : Fills size stores covered value) (schedule : Schedule) (memory : Nat → α) {place : Nat}
include fills

theorem parallelFor_of_covered (inside : covered place) :
    parallelFor schedule size (fun i => storeAll (stores i)) memory place = value place := by
  obtain ⟨i, launched, stored⟩ := fills.complete place inside
  exact parallelFor_storeAll_of_agree launched stored (fun j other x store => (fills.sound j other _ store).2)
    schedule memory

theorem parallelFor_of_not_covered (outside : ¬covered place) :
    parallelFor schedule size (fun i => storeAll (stores i)) memory place = memory place :=
  parallelFor_storeAll_of_free (fun i launched _ store => outside (fills.sound i launched _ store).1) schedule memory

end fills
end stores
end ArcMiner.Library
