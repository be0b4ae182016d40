import Mathlib.Data.List.Forall2
import Mathlib.Tactic.Ring
import ArcMiner.Library.Tabulate

/-! Nested progressions.

A grid is given by a stride and a length for each dimension, from the outermost to the
innermost one. Its places are enumerated with the innermost dimension running fastest.
-/

namespace ArcMiner.Library

open Nat List

structure GridDim where
  stride : Nat
  length : Nat
deriving DecidableEq

def gridPlaces : List GridDim → List Nat
  | [] => [0]
  | dim :: inner => (range dim.length).flatMap fun i => (gridPlaces inner).map (i * dim.stride + ·)

def gridSize : List GridDim → Nat
  | [] => 1
  | dim :: inner => dim.length * gridSize inner

def gridExtent : List GridDim → Nat
  | [] => 1
  | dim :: _ => dim.stride * dim.length

def gridPlace : List GridDim → Nat → Nat
  | [], _ => 0
  | dim :: inner, i => i / gridSize inner * dim.stride + gridPlace inner (i % gridSize inner)

section places
variable {dim : GridDim} {inner : List GridDim}

theorem gridPlace_block {j : Nat} (inside : j < gridSize inner) (q : Nat) :
    gridPlace (dim :: inner) (q * gridSize inner + j) = q * dim.stride + gridPlace inner j := by
  rw [gridPlace, segment_div inside, segment_mod inside]

theorem gridPlaces_eq (dims : List GridDim) : gridPlaces dims = tabulate (gridPlace dims) (gridSize dims) := by
  induction dims with
  | nil => rfl
  | cons dim inner ih =>
    have row : ∀ q, (gridPlaces inner).map (q * dim.stride + ·) =
        tabulate (fun j => gridPlace (dim :: inner) (q * gridSize inner + j)) (gridSize inner) := by
      intro q
      rw [ih, tabulate, map_map]
      exact tabulate_congr fun j inside => (gridPlace_block inside q).symm
    simp only [gridPlaces, row]
    exact flatMap_blocks (gridPlace (dim :: inner)) (gridSize inner) dim.length

theorem length_gridPlaces (dims : List GridDim) : (gridPlaces dims).length = gridSize dims := by
  rw [gridPlaces_eq, length_tabulate]

theorem gridPlaces_replicate (count stride : Nat) (dims : List GridDim) :
    gridPlaces (replicate count ⟨stride, 1⟩ ++ dims) = gridPlaces dims := by
  induction count with
  | zero => rfl
  | succ count ih =>
    rw [replicate_succ, cons_append]
    simp [gridPlaces, ih]

theorem gridSize_pos {dims : List GridDim} (positive : ∀ dim ∈ dims, 0 < dim.length) : 0 < gridSize dims := by
  induction dims with
  | nil => exact Nat.one_pos
  | cons dim inner ih =>
    obtain ⟨first, rest⟩ := forall_mem_cons.mp positive
    exact Nat.mul_pos first (ih rest)

theorem gridSize_append (outer dims : List GridDim) : gridSize (outer ++ dims) = gridSize outer * gridSize dims := by
  induction outer with
  | nil => exact (Nat.one_mul _).symm
  | cons dim outer ih => rw [cons_append, gridSize, gridSize, ih, Nat.mul_assoc]

theorem length_lt_gridSize {dims : List GridDim} (proper : ∀ dim ∈ dims, 2 ≤ dim.length) : dims.length < gridSize dims := by
  induction dims with
  | nil => exact Nat.one_pos
  | cons dim inner ih =>
    obtain ⟨first, rest⟩ := forall_mem_cons.mp proper
    have inside := ih rest
    have double := Nat.mul_le_mul_right (gridSize inner) first
    rw [length_cons, gridSize]
    omega

theorem gridPlace_of_lt {i : Nat} (inside : i < gridSize inner) : gridPlace (dim :: inner) i = gridPlace inner i := by
  simpa using gridPlace_block inside 0

theorem gridPlace_zero (dims : List GridDim) : gridPlace dims 0 = 0 := by
  induction dims with
  | nil => rfl
  | cons dim inner ih => rw [gridPlace, Nat.zero_div, Nat.zero_mul, zero_mod, ih]

theorem gridPlace_shift (nonempty : 0 < gridSize inner) (i : Nat) :
    gridPlace (dim :: inner) (i + gridSize inner) = gridPlace (dim :: inner) i + dim.stride := by
  rw [gridPlace, gridPlace, add_div_right i nonempty, add_mod_right, succ_mul]
  ring

theorem gridPlace_size (nonempty : 0 < gridSize inner) : gridPlace (dim :: inner) (gridSize inner) = dim.stride := by
  have step : gridPlace (dim :: inner) (0 + gridSize inner) = _ := gridPlace_shift nonempty 0
  rwa [Nat.zero_add, gridPlace_zero, Nat.zero_add] at step

theorem gridPlaces_of_periodic {place : Nat → Nat} {length stride : Nat}
    (first : ∀ i < gridSize inner, place i = gridPlace inner i)
    (shifted : ∀ i, i + gridSize inner < length * gridSize inner → place (i + gridSize inner) = place i + stride) :
    tabulate place (length * gridSize inner) = gridPlaces (⟨stride, length⟩ :: inner) := by
  have block : ∀ q < length, ∀ j < gridSize inner, place (q * gridSize inner + j) = q * stride + gridPlace inner j := by
    intro q within j inside
    induction q with
    | zero => simpa using first j inside
    | succ q ih =>
      have place' : (q + 1) * gridSize inner + j = q * gridSize inner + j + gridSize inner := by ring
      have bound := segment_lt inside within
      rw [place', shifted _ (by omega), ih (by omega)]
      ring
  rw [gridPlaces_eq]
  refine tabulate_congr fun i bound => ?_
  have nonempty : 0 < gridSize inner := Nat.pos_of_mul_pos_left (zero_lt_of_lt bound)
  have inside := mod_lt i nonempty
  rw [← div_add_mod' i (gridSize inner), gridPlace_block inside,
    block _ ((Nat.div_lt_iff_lt_mul nonempty).mpr bound) _ inside]

theorem gridPlace_merge (outer inside : Nat) (dim : GridDim) (inner : List GridDim) (i : Nat) :
    gridPlace (⟨dim.stride * dim.length, outer⟩ :: dim :: inner) i = gridPlace (⟨dim.stride, inside⟩ :: inner) i := by
  have quotient : i / gridSize inner = i / (dim.length * gridSize inner) * dim.length +
      i % (dim.length * gridSize inner) / gridSize inner := by
    rw [Nat.mul_comm dim.length, mod_mul_right_div_self, ← Nat.div_div_eq_div_mul, div_add_mod']
  have rest : i % (dim.length * gridSize inner) % gridSize inner = i % gridSize inner :=
    mod_mod_of_dvd i (Nat.dvd_mul_left _ _)
  rw [gridPlace, gridPlace, gridPlace, gridSize, rest, quotient]
  ring

end places

/-- Every stride is more than twice what lies inside it. -/
def Separated : List GridDim → Prop
  | [] => True
  | dim :: inner => 2 ≤ dim.length ∧ (∀ i < gridSize inner, 2 * gridPlace inner i < dim.stride) ∧ Separated inner

theorem Separated.positive {dims : List GridDim} (separated : Separated dims) : ∀ dim ∈ dims, 0 < dim.length := by
  induction dims with
  | nil => simp
  | cons dim inner ih =>
    obtain ⟨proper, -, rest⟩ := separated
    exact forall_mem_cons.mpr ⟨by omega, ih rest⟩

theorem Separated.no_shorter_period {dim : GridDim} {inner : List GridDim} (separated : Separated (dim :: inner))
    {period : Nat} (short : period < gridSize inner) :
    gridPlace (dim :: inner) (gridSize inner - period) + gridPlace (dim :: inner) period <
      gridPlace (dim :: inner) (gridSize inner - period + period) ∨ period = 0 := by
  obtain ⟨-, apart, rest⟩ := separated
  rcases Nat.eq_zero_or_pos period with none | positive
  · exact .inr none
  · have first := apart (gridSize inner - period) (by omega)
    have second := apart period short
    rw [Nat.sub_add_cancel (by omega), gridPlace_of_lt (by omega), gridPlace_of_lt short,
      gridPlace_size (gridSize_pos rest.positive)]
    exact .inl (by omega)

section compare

theorem gridSize_le {dims other : List GridDim}
    (shorter : List.Forall₂ (fun d e => 0 < d.length ∧ d.length ≤ e.length) dims other) :
    0 < gridSize dims ∧ gridSize dims ≤ gridSize other := by
  induction shorter with
  | nil => exact ⟨Nat.one_pos, Nat.le_refl 1⟩
  | cons head _ ih => exact ⟨Nat.mul_pos head.1 ih.1, Nat.mul_le_mul head.2 ih.2⟩

theorem gridSize_eq_of_lengths {dims other : List GridDim}
    (lengths : List.Forall₂ (fun d e => d.length = e.length) dims other) : gridSize dims = gridSize other := by
  induction lengths with
  | nil => rfl
  | cons head _ ih => rw [gridSize, gridSize, head, ih]

theorem lengths_eq_of_size {dims other : List GridDim}
    (shorter : List.Forall₂ (fun d e => 0 < d.length ∧ d.length ≤ e.length) dims other)
    (size : gridSize dims = gridSize other) : List.Forall₂ (fun d e => d.length = e.length) dims other := by
  induction shorter with
  | nil => exact .nil
  | cons head tail ih =>
    obtain ⟨some, less⟩ := gridSize_le tail
    obtain ⟨first, rest⟩ := (mul_eq_mul_iff_eq_and_eq_of_pos head.2 less head.1 (by omega)).mp size
    exact .cons first (ih rest)

theorem strides_eq_of_places {dims other : List GridDim}
    (lengths : List.Forall₂ (fun d e => d.length = e.length) dims other) (positive : ∀ dim ∈ other, 0 < dim.length)
    (places : ∀ i < gridSize other, gridPlace dims i = gridPlace other i) :
    List.Forall₂ (fun d e => 2 ≤ e.length → d = e) dims other := by
  induction lengths with
  | nil => exact .nil
  | @cons dim dim' inner inner' head tail ih =>
    obtain ⟨some, rest⟩ := forall_mem_cons.mp positive
    have nonempty := gridSize_pos rest
    have size := gridSize_eq_of_lengths tail
    have within : gridSize inner' ≤ gridSize (dim' :: inner') := Nat.le_mul_of_pos_left _ some
    refine .cons (fun proper => ?_) (ih rest fun i inside => ?_)
    · have beyond : gridSize inner' < gridSize (dim' :: inner') := by
        have double := Nat.mul_le_mul_right (gridSize inner') proper
        rw [gridSize]
        omega
      have stride := places _ beyond
      rw [gridPlace_size nonempty, ← size, gridPlace_size (size ▸ nonempty)] at stride
      cases dim
      cases dim'
      exact congrArg₂ GridDim.mk stride head
    · have same := places i (by omega)
      rwa [gridPlace_of_lt inside, gridPlace_of_lt (size ▸ inside)] at same

end compare
end ArcMiner.Library
