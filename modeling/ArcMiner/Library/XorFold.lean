import Mathlib.Algebra.BigOperators.Intervals
import Mathlib.Algebra.BigOperators.Ring.Finset
import ArcMiner.Library.Tabulate

/-! Folds of words under exclusive or.

Exclusive or makes the words a commutative monoid. A fold is a sum in it, so that
elements may be visited in any order and split over any number of accumulators.
-/

namespace ArcMiner.Library

open List

structure Xored where
  word : UInt32
deriving DecidableEq

namespace Xored

instance : Add Xored := ⟨fun a b => ⟨a.word ^^^ b.word⟩⟩
instance : Zero Xored := ⟨⟨0⟩⟩

@[ext] theorem ext {a b : Xored} (same : a.word = b.word) : a = b := by
  cases a
  cases b
  exact congrArg mk same

@[simp] theorem word_add (a b : Xored) : (a + b).word = a.word ^^^ b.word := rfl
@[simp] theorem word_zero : (0 : Xored).word = 0 := rfl

instance : AddCommMonoid Xored where
  add_assoc a b c := ext (UInt32.xor_assoc ..)
  zero_add a := ext (by simp)
  add_zero a := ext (by simp)
  add_comm a b := ext (UInt32.xor_comm ..)
  nsmul := nsmulRec

end Xored

section folds
variable {α : Type}

theorem foldl_xor (f : α → UInt32) (elements : List α) (start : UInt32) :
    elements.foldl (fun acc e => acc ^^^ f e) start = (⟨start⟩ + (elements.map fun e => (⟨f e⟩ : Xored)).sum).word := by
  induction elements generalizing start with
  | nil => simp
  | cons e rest ih =>
    rw [foldl_cons, ih, map_cons, sum_cons, ← add_assoc]
    rfl

variable {M : Type} [AddCommMonoid M]

theorem sum_map_range (value : Nat → M) (n : Nat) :
    ((range n).map value).sum = ∑ i ∈ Finset.range n, value i := by
  induction n with
  | zero => rfl
  | succ n ih => rw [range_succ, map_append, sum_append, ih, Finset.sum_range_succ]; simp

theorem sum_map_product (value : Nat × Nat → M) (rows cols : Nat) :
    (((range rows).product (range cols)).map value).sum =
      ∑ i ∈ Finset.range rows, ∑ j ∈ Finset.range cols, value (i, j) := by
  induction rows with
  | zero => rfl
  | succ rows ih =>
    have row : ((range rows ++ [rows]).product (range cols)) =
        (range rows).product (range cols) ++ (range cols).map fun j => (rows, j) := by
      simp [product]
    rw [range_succ, row, map_append, sum_append, ih, Finset.sum_range_succ, map_map,
      sum_map_range]
    rfl

theorem sum_lanes (lane : α → Nat) (value : α → M) {lanes : Nat} (elements : List α)
    (inside : ∀ e ∈ elements, lane e < lanes) :
    ∑ l ∈ Finset.range lanes, ((elements.filter fun e => lane e = l).map value).sum = (elements.map value).sum := by
  induction elements with
  | nil => simp
  | cons e rest ih =>
    have split : ∀ l, (((e :: rest).filter fun e => lane e = l).map value).sum =
        (if lane e = l then value e else 0) + ((rest.filter fun e => lane e = l).map value).sum := by
      intro l
      by_cases own : lane e = l <;> simp [own]
    simp only [split, Finset.sum_add_distrib, ih fun e member => inside e (mem_cons_of_mem _ member),
      map_cons, sum_cons]
    rw [Finset.sum_ite_eq, if_pos (Finset.mem_range.mpr (inside e mem_cons_self))]

theorem sum_range_segments (value : Nat → M) (count width : Nat) :
    ∑ i ∈ Finset.range (count * width), value i =
      ∑ s ∈ Finset.range count, ∑ j ∈ Finset.range width, value (s * width + j) := by
  induction count with
  | zero => simp
  | succ count ih => rw [Nat.succ_mul, Finset.sum_range_add, ih, Finset.sum_range_succ]

end folds
end ArcMiner.Library
