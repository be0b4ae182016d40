import Mathlib.Data.List.Nodup

/-! Vectors that are changed in place, cell after cell.

In a walk each hop takes what the hop before it has pushed out of its cell, changes it and puts it into the next cell. -/

namespace ArcMiner.Library.CycleWalk

variable {α β : Type} {n : Nat} (op : β → α → α)

def hop (state : Vector α n × α) (step : Fin n × β) : Vector α n × α :=
  (state.1.set step.1 (op step.2 state.2), state.1.get step.1)

/-- Where the content of a cell comes from after the walk, and what was done to it. -/
def origin (previous : Fin n) : List (Fin n × β) → Fin n → Option (Fin n × β)
  | [], _ => none
  | (next, b) :: steps, i => if i = next then some (previous, b) else origin next steps i

theorem origin_eq_none {steps : List (Fin n × β)} {i : Fin n} (untouched : i ∉ steps.map Prod.fst) (previous : Fin n) :
    origin previous steps i = none := by
  induction steps generalizing previous with
  | nil => rfl
  | cons step steps ih =>
    rw [List.map_cons, List.mem_cons, not_or] at untouched
    rw [origin, if_neg untouched.1, ih untouched.2]

theorem get_ofFn (f : Fin n → α) (i : Fin n) : (Vector.ofFn f).get i = f i := Vector.getElem_ofFn i.isLt

theorem ext_get {a b : Vector α n} (same : ∀ i, a.get i = b.get i) : a = b := Vector.ext fun i inside => same ⟨i, inside⟩

theorem get_set_self (a : Vector α n) (i : Fin n) (x : α) : (a.set i x).get i = x := Vector.getElem_set_self i.isLt

theorem get_set_ne (a : Vector α n) {i j : Fin n} (x : α) (apart : j ≠ i) : (a.set i x).get j = a.get j :=
  Vector.getElem_set_ne i.isLt j.isLt (fun same => apart (Fin.ext same.symm))

theorem get_foldl_set_of_ne {κ : Type} {place : κ → Fin n} (value : κ → α) {keys : List κ} {i : Fin n}
    (untouched : ∀ k ∈ keys, place k ≠ i) (a : Vector α n) :
    (keys.foldl (fun a k => a.set (place k) (value k)) a).get i = a.get i := by
  induction keys generalizing a with
  | nil => rfl
  | cons k keys ih =>
    rw [List.foldl_cons, ih fun k' member => untouched k' (List.mem_cons_of_mem _ member),
      get_set_ne _ _ (untouched k List.mem_cons_self).symm]

theorem get_foldl_set_of_mem {κ : Type} {place : κ → Fin n} (distinct : Function.Injective place) (value : κ → α)
    {keys : List κ} (once : keys.Nodup) {k : κ} (member : k ∈ keys) (a : Vector α n) :
    (keys.foldl (fun a k => a.set (place k) (value k)) a).get (place k) = value k := by
  induction keys generalizing a with
  | nil => cases member
  | cons k' keys ih =>
    rw [List.nodup_cons] at once
    rw [List.foldl_cons]
    cases member with
    | head =>
      -- nothing after it writes to the same cell
      have later : ∀ k' ∈ keys, place k' ≠ place k := fun k' member same => once.1 (distinct same ▸ member)
      rw [get_foldl_set_of_ne value later, get_set_self]
    | tail _ member => exact ih once.2 member _

/-- In a walk that visits no cell twice every cell gets the old content of the cell before it. -/
theorem get_foldl_hop {steps : List (Fin n × β)} (once : (steps.map Prod.fst).Nodup) (a : Vector α n) {current : Vector α n}
    (unchanged : ∀ i ∈ steps.map Prod.fst, current.get i = a.get i) (previous i : Fin n) :
    (steps.foldl (hop op) (current, a.get previous)).1.get i =
      match origin previous steps i with
      | none => current.get i
      | some (source, b) => op b (a.get source) := by
  induction steps generalizing current previous with
  | nil => rfl
  | cons step steps ih =>
    obtain ⟨next, b⟩ := step
    rw [List.map_cons, List.nodup_cons] at once
    have carried := unchanged next List.mem_cons_self
    have rest : ∀ j ∈ steps.map Prod.fst, (current.set next (op b (a.get previous))).get j = a.get j := by
      intro j member
      have apart : j ≠ next := fun same => once.1 (same ▸ member)
      rw [get_set_ne current _ apart, unchanged j (List.mem_cons_of_mem _ member)]
    have walked := ih once.2 rest next
    rw [List.foldl_cons, hop, carried, walked, origin]
    by_cases here : i = next
    · subst here
      rw [if_pos rfl, origin_eq_none once.1]
      exact get_set_self current i _
    · rw [if_neg here, get_set_ne current _ here]

end ArcMiner.Library.CycleWalk
