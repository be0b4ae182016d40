import Mathlib.Data.List.Basic

/-! Lists given by a function of the position. -/

namespace ArcMiner.Library

open List Nat

variable {D : Type}

def tabulate (f : Nat → D) (n : Nat) : List D := (range n).map f

@[simp] theorem length_tabulate (f : Nat → D) (n : Nat) : (tabulate f n).length = n := by
  simp [tabulate]

theorem getElem?_tabulate (f : Nat → D) {n i : Nat} (bound : i < n) : (tabulate f n)[i]? = some (f i) := by
  simp [tabulate, bound]

theorem tabulate_congr {f g : Nat → D} {n : Nat} (same : ∀ i < n, f i = g i) : tabulate f n = tabulate g n :=
  map_congr_left (fun i member => same i (mem_range.mp member))

theorem tabulate_getD [Inhabited D] (xs : List D) : tabulate (fun i => xs.getD i default) xs.length = xs := by
  apply ext_getElem?
  intro i
  by_cases bound : i < xs.length <;> simp [tabulate, bound]

theorem tabulate_succ (f : Nat → D) (n : Nat) : tabulate f (n + 1) = f 0 :: tabulate (fun i => f (i + 1)) n := by
  simp [tabulate, range_succ_eq_map, Function.comp_def]

theorem tabulate_succ_succ (f : Nat → D) (n : Nat) :
    tabulate f (n + 2) = f 0 :: f 1 :: tabulate (fun i => f (i + 2)) n := by
  rw [tabulate_succ, tabulate_succ]

theorem tabulate_add (f : Nat → D) (m n : Nat) :
    tabulate f (m + n) = tabulate f m ++ tabulate (fun i => f (m + i)) n := by
  simp [tabulate, range_add, Function.comp_def]

theorem drop_take_tabulate (f : Nat → D) {offset len total : Nat} (inside : offset + len ≤ total) :
    ((tabulate f total).drop offset).take len = tabulate (fun j => f (offset + j)) len := by
  obtain ⟨rest, rfl⟩ := Nat.exists_eq_add_of_le inside
  rw [Nat.add_assoc, tabulate_add, drop_left' (length_tabulate f offset), tabulate_add,
    take_left' (length_tabulate _ len)]

theorem mapIdx_tabulate {E : Type} (f : Nat → D) (g : Nat → D → E) (n : Nat) :
    (tabulate f n).mapIdx g = tabulate (fun i => g i (f i)) n := by
  apply ext_getElem?
  intro i
  by_cases bound : i < n <;> simp [tabulate, bound]

theorem segment_div {width place : Nat} (inside : place < width) (s : Nat) : (s * width + place) / width = s := by
  rw [Nat.mul_comm, mul_add_div (by omega), div_eq_of_lt inside, Nat.add_zero]

theorem segment_mod {width place : Nat} (inside : place < width) (s : Nat) : (s * width + place) % width = place := by
  rw [Nat.mul_comm, mul_add_mod, mod_eq_of_lt inside]

theorem segment_lt {width place s count : Nat} (inside : place < width) (segment : s < count) :
    s * width + place < count * width := by
  have := Nat.mul_le_mul_right width (show s + 1 ≤ count from segment)
  rw [succ_mul] at this
  omega

theorem segment_inj {width place other s t : Nat} (inside : place < width) (within : other < width)
    (same : s * width + place = t * width + other) : s = t ∧ place = other := by
  have quotient := congrArg (· / width) same
  have rest := congrArg (· % width) same
  simp only [segment_div inside, segment_div within, segment_mod inside, segment_mod within] at quotient rest
  exact ⟨quotient, rest⟩

theorem flatMap_blocks (f : Nat → D) (size k : Nat) :
    (range k).flatMap (fun s => tabulate (fun i => f (s * size + i)) size) = tabulate f (k * size) := by
  induction k with
  | zero => simp [tabulate]
  | succ k ih =>
    rw [range_succ, flatMap_append, ih, flatMap_cons, flatMap_nil, append_nil, succ_mul,
      tabulate_add]

theorem flatMap_range_segments (f : Nat → D) (size n k : Nat) :
    (range k).flatMap (fun s => tabulate (fun i => f (s * size + i)) (min size (n - s * size))) =
      tabulate f (min n (k * size)) := by
  induction k with
  | zero => simp [tabulate]
  | succ k ih =>
    have next : (k + 1) * size = k * size + size := succ_mul k size
    simp only [range_succ, flatMap_append, ih, flatMap_cons, flatMap_nil, append_nil]
    by_cases inside : k * size ≤ n
    · have total : min n ((k + 1) * size) = k * size + min size (n - k * size) := by omega
      rw [total, tabulate_add, Nat.min_eq_right inside]
    · have finished : min size (n - k * size) = 0 := by omega
      have total : min n ((k + 1) * size) = min n (k * size) := by omega
      rw [finished, total]
      simp [tabulate]

theorem flatMap_segments (f : Nat → D) {size : Nat} (positive : 0 < size) (n : Nat) :
    (range ((n + size - 1) / size)).flatMap
      (fun s => tabulate (fun i => f (s * size + i)) (min size (n - s * size))) = tabulate f n := by
  have enough : n ≤ (n + size - 1) / size * size := by
    have split := div_add_mod (n + size - 1) size
    have below := mod_lt (n + size - 1) positive
    rw [Nat.mul_comm] at split
    omega
  rw [flatMap_range_segments, Nat.min_eq_left enough]

theorem filter_range' {first count lo hi : Nat} (below : first ≤ lo) (ordered : lo ≤ hi) (above : hi ≤ first + count) :
    (range' first count).filter (fun x => lo ≤ x ∧ x < hi) = range' lo (hi - lo) := by
  have cut : range' first count =
      range' first (lo - first) ++ (range' lo (hi - lo) ++ range' hi (first + count - hi)) := by
    have inner : range' lo (hi - lo) ++ range' hi (first + count - hi) =
        range' lo (first + count - lo) := by
      rw [show hi = lo + (hi - lo) by omega, Nat.add_sub_cancel_left, range'_append_1]
      congr 1
      omega
    rw [inner, show lo = first + (lo - first) by omega, Nat.add_sub_cancel_left, range'_append_1]
    congr 1
    omega
  have before : (range' first (lo - first)).filter (fun x => lo ≤ x ∧ x < hi) = [] := by
    rw [filter_eq_nil_iff]
    intro x member
    have := mem_range'_1.mp member
    simp
    omega
  have inside : (range' lo (hi - lo)).filter (fun x => lo ≤ x ∧ x < hi) = range' lo (hi - lo) := by
    rw [filter_eq_self]
    intro x member
    have := mem_range'_1.mp member
    simp
    omega
  have after : (range' hi (first + count - hi)).filter (fun x => lo ≤ x ∧ x < hi) = [] := by
    rw [filter_eq_nil_iff]
    intro x member
    have := mem_range'_1.mp member
    simp
    omega
  rw [cut, filter_append, filter_append, before, inside, after, nil_append, append_nil]

theorem flatMap_range'_blocks (size first count : Nat) :
    (range' first count).flatMap (fun block => (range size).map fun i => block * size + i) =
      range' (first * size) (count * size) := by
  induction count generalizing first with
  | zero => simp
  | succ count ih =>
    rw [range'_succ, flatMap_cons, ih, ← range'_eq_map_range, succ_mul, succ_mul,
      range'_append_1, Nat.add_comm size]

theorem drop_take_flatMap {E : Type} {size : Nat} {f : D → List E} {xs : List D}
    (sizes : ∀ x ∈ xs, (f x).length = size) {i : Nat} {x : D} (entry : xs[i]? = some x) :
    ((xs.flatMap f).drop (size * i)).take size = f x := by
  induction xs generalizing i with
  | nil => simp at entry
  | cons y ys ih =>
    have first := sizes y mem_cons_self
    rw [flatMap_cons]
    cases i with
    | zero =>
      obtain rfl : y = x := by simpa using entry
      rw [Nat.mul_zero, drop_zero, take_left' first]
    | succ i =>
      rw [mul_succ, Nat.add_comm, ← drop_drop, drop_left' first]
      exact ih (fun z member => sizes z (mem_cons_of_mem _ member)) (by simpa using entry)

theorem length_flatMap_of_size {E : Type} {size : Nat} {f : D → List E} {xs : List D}
    (sizes : ∀ x ∈ xs, (f x).length = size) : (xs.flatMap f).length = xs.length * size := by
  rw [length_flatMap, map_congr_left sizes, map_const', sum_replicate_nat]

end ArcMiner.Library
