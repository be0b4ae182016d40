import ArcMiner.Library.PairTree
import Mathlib.Data.Nat.Bitwise

/-! Paths from a leaf to the root of a full binary tree.

A path holds one sibling per level, from the leaf upward; the bits of the
position say on which side each of them stands.
-/

namespace ArcMiner.Library

section powers

def isPowerOfTwo (n : Nat) : Bool := n == 2 ^ Nat.log2 n

theorem isPowerOfTwo_iff {n : Nat} : isPowerOfTwo n = true ↔ ∃ e, n = 2 ^ e := by
  simp only [isPowerOfTwo, beq_iff_eq]
  constructor
  · intro same
    exact ⟨_, same⟩
  · rintro ⟨e, rfl⟩
    rw [Nat.log2_two_pow]

theorem and_pred_eq_zero_iff {n : Nat} (positive : n ≠ 0) : n &&& (n - 1) = 0 ↔ ∃ e, n = 2 ^ e := by
  constructor
  · intro zero
    refine ⟨n.log2, ?_⟩
    by_contra differs
    have low := Nat.log2_self_le positive
    have high : n < 2 ^ (n.log2 + 1) := Nat.lt_log2_self
    -- The highest bit is still set in `n - 1`.
    have above : (n - 1) / 2 ^ n.log2 = 1 := by
      apply Nat.div_eq_of_lt_le <;> omega
    have top : n.testBit n.log2 = true := Nat.testBit_log2 positive
    have below : (n - 1).testBit n.log2 = true := by
      rw [Nat.testBit_eq_decide_div_mod_eq, above]
      rfl
    have bit := congrArg (Nat.testBit · n.log2) zero
    simp [Nat.testBit_and, top, below] at bit
  · rintro ⟨e, rfl⟩
    rw [Nat.and_two_pow_sub_one_eq_mod, Nat.mod_self]

/-- The trailing zero bits of an integer of `width` bits. -/
def trailingZeros : (width : Nat) → Nat → Nat
  | 0, _ => 0
  | width + 1, n => if n % 2 = 1 then 0 else 1 + trailingZeros width (n / 2)

theorem trailingZeros_two_pow {e width : Nat} (fits : e < width) : trailingZeros width (2 ^ e) = e := by
  induction e generalizing width with
  | zero =>
    obtain ⟨width, rfl⟩ : ∃ w, width = w + 1 := ⟨width - 1, by omega⟩
    rfl
  | succ e ih =>
    obtain ⟨width, rfl⟩ : ∃ w, width = w + 1 := ⟨width - 1, by omega⟩
    rw [trailingZeros, if_neg (by omega), Nat.pow_succ, Nat.mul_div_cancel _ (by decide), ih (by omega)]
    omega

end powers

variable {D : Type}

def joinAt (op : D → D → D) (i : Nat) (cv sibling : D) : D :=
  if i % 2 = 0 then op cv sibling else op sibling cv

def pathRoot (node root : D → D → D) (i : Nat) (cv : D) : List D → D
  | [] => cv
  | [sibling] => joinAt root i cv sibling
  | sibling :: next :: rest => pathRoot node root (i / 2) (joinAt node i cv sibling) (next :: rest)

def siblingAt (node : D → D → D) (f : Nat → D) (i l : Nat) : D := (pairFull node)^[l] f ((i / 2 ^ l) ^^^ 1)

theorem pathRoot_cons (node root : D → D → D) (i : Nat) (cv sibling : D) {rest : List D} (more : rest ≠ []) :
    pathRoot node root i cv (sibling :: rest) = pathRoot node root (i / 2) (joinAt node i cv sibling) rest := by
  cases rest with
  | nil => exact absurd rfl more
  | cons next rest => rfl

theorem pathRoot_concat (node root : D → D → D) (i : Nat) (cv : D) (path : List D) (last : D) :
    pathRoot node root i cv (path ++ [last]) =
      let reached := path.foldl (fun state sibling => (state.1 / 2, joinAt node state.1 state.2 sibling)) (i, cv)
      joinAt root reached.1 reached.2 last := by
  induction path generalizing i cv with
  | nil => rfl
  | cons sibling rest ih =>
    rw [List.cons_append, pathRoot_cons node root i cv sibling (by simp), ih]
    rfl

theorem joinAt_sibling (op : D → D → D) (f : Nat → D) (i : Nat) :
    joinAt op i (f i) (f (i ^^^ 1)) = op (f (2 * (i / 2))) (f (2 * (i / 2) + 1)) := by
  rcases Nat.even_or_odd i with even | odd
  · have whole : 2 * (i / 2) = i := Nat.two_mul_div_two_of_even even
    rw [joinAt, if_pos (Nat.even_iff.mp even), Nat.xor_one_of_even even, whole]
  · have whole : 2 * (i / 2) + 1 = i := Nat.two_mul_div_two_add_one_of_odd odd
    rw [joinAt, if_neg (by have := Nat.odd_iff.mp odd; omega), Nat.xor_one_of_odd odd, whole]
    congr 2
    omega

theorem siblingAt_succ (node : D → D → D) (f : Nat → D) (i l : Nat) :
    siblingAt node f i (l + 1) = siblingAt node (pairFull node f) (i / 2) l := by
  rw [siblingAt, siblingAt, Function.iterate_succ_apply, Nat.div_div_eq_div_mul, Nat.pow_succ, Nat.mul_comm]

theorem tabulate_siblingAt_succ (node : D → D → D) (f : Nat → D) (i e : Nat) : tabulate (siblingAt node f i) (e + 1) =
      f (i ^^^ 1) :: tabulate (siblingAt node (pairFull node f) (i / 2)) e := by
  rw [Nat.add_comm, tabulate_add]
  have later : (fun l => siblingAt node f i (1 + l)) = siblingAt node (pairFull node f) (i / 2) := by
    funext l
    rw [Nat.add_comm, siblingAt_succ]
  have first : tabulate (siblingAt node f i) 1 = [f (i ^^^ 1)] := by
    simp [tabulate, siblingAt]
  rw [later, first]
  rfl

theorem up_eq_pairFull (node : D → D → D) (f : Nat → D) {n j : Nat} (inside : j < n) :
    up node (2 * n) f j = pairFull node f j := by
  rw [up, if_pos (by omega), pairFull]

theorem treeRoot_pairFull (node root : D → D → D) (f : Nat → D) (e : Nat) :
    treeRoot node root (pairFull node f) (2 ^ (e + 1)) = treeRoot node root f (2 ^ (e + 2)) := by
  have positive := Nat.two_pow_pos e
  have double : 2 ^ (e + 2) = 2 * 2 ^ (e + 1) := by rw [Nat.pow_succ, Nat.mul_comm]
  have large : 2 ≤ 2 ^ (e + 1) := by rw [Nat.pow_succ]; omega
  have half : halfUp (2 * 2 ^ (e + 1)) = 2 ^ (e + 1) := by simp only [halfUp]; omega
  rw [double, ← treeRoot_up node root f (by omega), half]
  exact treeRoot_congr node root large fun i inside => (up_eq_pairFull node f inside).symm

theorem div_two_lt {i e : Nat} (bound : i < 2 ^ (e + 1)) : i / 2 < 2 ^ e := by
  rw [Nat.pow_succ] at bound
  omega

theorem pathRoot_siblingAt (node root : D → D → D) (f : Nat → D) {i e : Nat} (bound : i < 2 ^ (e + 1)) :
    pathRoot node root i (f i) (tabulate (siblingAt node f i) (e + 1)) = treeRoot node root f (2 ^ (e + 1)) := by
  induction e generalizing f i with
  | zero =>
    have top : i / 2 = 0 := by omega
    rw [tabulate_siblingAt_succ, show tabulate _ 0 = ([] : List D) from rfl, pathRoot, joinAt_sibling, top]
    exact (treeRoot_two node root f).symm
  | succ e ih =>
    have more : tabulate (siblingAt node (pairFull node f) (i / 2)) (e + 1) ≠ [] := by
      rw [← List.length_pos_iff, length_tabulate]
      omega
    rw [tabulate_siblingAt_succ, pathRoot_cons node root i _ _ more, joinAt_sibling, ← treeRoot_pairFull]
    exact ih (pairFull node f) (div_two_lt bound)

/-- What passes from a combined node to its parts passes from the root down a path to its leaf. -/
theorem pathRoot_descends {E : Type} {R : D → E → Prop} {node root : D → D → D} {node' root' : E → E → E}
    (nodes : ∀ left right left' right', R (node left right) (node' left' right') → R left left' ∧ R right right')
    (roots : ∀ left right left' right', R (root left right) (root' left' right') → R left left' ∧ R right right')
    (f : Nat → E) {i e : Nat} (bound : i < 2 ^ (e + 1)) {cv : D} {path : List D} (size : path.length = e + 1)
    (top : R (pathRoot node root i cv path) (treeRoot node' root' f (2 ^ (e + 1)))) : R cv (f i) := by
  -- Either the leaf is on the left of its sibling or on the right.
  have side : ∀ (op : D → D → D) (op' : E → E → E) {f : Nat → E} {i : Nat} {cv sibling : D},
      (∀ left right left' right', R (op left right) (op' left' right') → R left left' ∧ R right right') →
      R (joinAt op i cv sibling) (op' (f (2 * (i / 2))) (f (2 * (i / 2) + 1))) → R cv (f i) := by
    intro op op' f i cv sibling parts joined
    unfold joinAt at joined
    split at joined
    next even =>
      rw [← show 2 * (i / 2) = i by omega]
      exact (parts _ _ _ _ joined).1
    next odd =>
      rw [← show 2 * (i / 2) + 1 = i by omega]
      exact (parts _ _ _ _ joined).2
  induction e generalizing f i cv path with
  | zero =>
    obtain ⟨sibling, rfl⟩ := List.length_eq_one_iff.mp size
    have first : i / 2 = 0 := by omega
    rw [pathRoot, show 2 ^ (0 + 1) = 2 from rfl, treeRoot_two] at top
    exact side root root' roots (by rwa [first])
  | succ e ih =>
    obtain ⟨sibling, rest, rfl⟩ : ∃ sibling rest, path = sibling :: rest :=
      List.exists_cons_of_length_eq_add_one size
    have length : rest.length = e + 1 := by simpa using size
    have more : rest ≠ [] := by rw [← List.length_pos_iff]; omega
    rw [pathRoot_cons node root i cv sibling more, ← treeRoot_pairFull] at top
    exact side node node' nodes (ih (pairFull node' f) (div_two_lt bound) length top)

theorem pathRoot_map {E : Type} (φ : D → E) {node root : D → D → D} {node' root' : E → E → E}
    (nodes : ∀ left right, φ (node left right) = node' (φ left) (φ right))
    (roots : ∀ left right, φ (root left right) = root' (φ left) (φ right)) (i : Nat) (cv : D) (path : List D) :
    φ (pathRoot node root i cv path) = pathRoot node' root' i (φ cv) (path.map φ) := by
  have joined : ∀ {op : D → D → D} {op' : E → E → E},
      (∀ left right, φ (op left right) = op' (φ left) (φ right)) → ∀ i cv sibling,
      φ (joinAt op i cv sibling) = joinAt op' i (φ cv) (φ sibling) := by
    intro op op' hom i cv sibling
    unfold joinAt
    split <;> exact hom _ _
  induction path generalizing i cv with
  | nil => rfl
  | cons sibling rest ih =>
    cases rest with
    | nil => exact joined roots i cv sibling
    | cons next rest =>
      rw [pathRoot_cons node root i cv sibling (by simp), ih, joined nodes]
      rfl

theorem lowerLevels_congr (node : D → D → D) {f g : Nat → D} {n : Nat} (large : 2 ≤ n) (same : ∀ i < n, f i = g i) :
    lowerLevels node n f = lowerLevels node n g := by
  induction n using Nat.strong_induction_on generalizing f g with
  | _ n ih =>
    rcases (show n = 2 ∨ 3 ≤ n by omega) with rfl | more
    · rw [lowerLevels_two, lowerLevels_two, tabulate_congr same]
    · rw [lowerLevels_of_large node f more, lowerLevels_of_large node g more, tabulate_congr same]
      congr 1
      refine ih (halfUp n) (halfUp_lt large) (leftCount_halfUp more).2 fun j inside => ?_
      simp only [halfUp] at inside
      unfold up
      rw [same (2 * j) (by omega)]
      split
      next partner => rw [same (2 * j + 1) partner]
      next => rfl

theorem getElem?_lowerLevels (node : D → D → D) (f : Nat → D) {e l : Nat} (below : l ≤ e) :
    (lowerLevels node (2 ^ (e + 1)) f)[l]? = some (tabulate ((pairFull node)^[l] f) (2 ^ (e + 1 - l))) := by
  induction l generalizing f e with
  | zero =>
    rw [← List.head?_eq_getElem?, head?_lowerLevels]
    rfl
  | succ l ih =>
    obtain ⟨e, rfl⟩ : ∃ d, e = d + 1 := ⟨e - 1, by omega⟩
    have positive := Nat.two_pow_pos e
    have double : 2 ^ (e + 1 + 1) = 2 * 2 ^ (e + 1) := by rw [Nat.pow_succ, Nat.mul_comm]
    have large : 2 ≤ 2 ^ (e + 1) := by rw [Nat.pow_succ]; omega
    have half : halfUp (2 * 2 ^ (e + 1)) = 2 ^ (e + 1) := by simp only [halfUp]; omega
    rw [double, lowerLevels_of_large node f (by omega), half, List.getElem?_cons_succ,
      lowerLevels_congr node large fun i inside => up_eq_pairFull node f inside, ih _ (by omega),
      Function.iterate_succ_apply, show e + 1 + 1 - (l + 1) = e + 1 - l by omega]

def HoldsLevels (node : D → D → D) (e : Nat) (f : Nat → D) (layers : List (List D)) : Prop :=
  ∀ l ≤ e, layers[l]? = some (tabulate ((pairFull node)^[l] f) (2 ^ (e + 1 - l)))

theorem holdsLevels_lowerLevels (node : D → D → D) (e : Nat) (f : Nat → D) (rest : List (List D)) :
    HoldsLevels node e f (lowerLevels node (2 ^ (e + 1)) f ++ rest) := by
  intro l below
  have entry := getElem?_lowerLevels node f below
  rw [List.getElem?_append_left (List.getElem?_eq_some_iff.mp entry).1, entry]

end ArcMiner.Library
