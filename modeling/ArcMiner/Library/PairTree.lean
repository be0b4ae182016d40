import ArcMiner.Library.OrderedList
import ArcMiner.Library.Tabulate
import Mathlib.Data.Nat.Log
import Mathlib.Tactic.Ring

/-! Binary trees over an indexed sequence of leaves.

`pairUp` reduces one level bottom-up: neighbours are combined and an odd last
node is promoted. `subtree` is the top-down rule: the left child covers the
largest power of two strictly below the count. Both build the same tree.
-/

namespace ArcMiner.Library

variable {D : Type}

def pairUp (node : D → D → D) : List D → List D
  | left :: right :: rest => node left right :: pairUp node rest
  | [last] => [last]
  | [] => []

/-- The length of a level after pairing, `n.div_ceil(2)`. -/
def halfUp (n : Nat) : Nat := (n + 1) / 2

theorem length_pairUp (node : D → D → D) (xs : List D) : (pairUp node xs).length = halfUp xs.length := by
  induction xs using pairUp.induct with
  | case1 left right rest ih => simp only [pairUp, List.length_cons, ih, halfUp]; omega
  | case2 last => simp [pairUp, halfUp]
  | case3 => simp [pairUp, halfUp]

/-- One level up as a function of the position, in a level of `n` nodes. -/
def up (node : D → D → D) (n : Nat) (f : Nat → D) (j : Nat) : D :=
  if 2 * j + 1 < n then node (f (2 * j)) (f (2 * j + 1)) else f (2 * j)

theorem pairUp_tabulate (node : D → D → D) (f : Nat → D) (n : Nat) :
    pairUp node (tabulate f n) = tabulate (up node n f) (halfUp n) := by
  induction n using Nat.strong_induction_on generalizing f with
  | _ n ih =>
    match n with
    | 0 => rfl
    | 1 => rfl
    | n + 2 =>
      have half : halfUp (n + 2) = halfUp n + 1 := by simp only [halfUp]; omega
      rw [tabulate_succ_succ, pairUp, ih n (by omega), half]
      simp only [tabulate, List.range_succ_eq_map, List.map_cons, List.map_map]
      congr 1
      apply List.map_congr_left
      intro j _
      simp only [up, Function.comp_apply, Nat.succ_eq_add_one]
      congr 1
      simp only [eq_iff_iff]
      omega

theorem halfUp_lt {n : Nat} (large : 2 ≤ n) : halfUp n < n := by
  simp only [halfUp]
  omega

def levels (node root : D → D → D) (n : Nat) (f : Nat → D) : List (List D) :=
  if _large : 3 ≤ n then tabulate f n :: levels node root (halfUp n) (up node n f)
  else [tabulate f n, [root (f 0) (f 1)]]
termination_by n
decreasing_by exact halfUp_lt (by omega)

/-- The largest power of two strictly below `n`, for `2 ≤ n`. -/
def leftCount (n : Nat) : Nat := 2 ^ Nat.log 2 (n - 1)

theorem leftCount_pos (n : Nat) : 0 < leftCount n := Nat.two_pow_pos _

theorem leftCount_lt {n : Nat} (large : 2 ≤ n) : leftCount n < n := by
  have := Nat.pow_log_le_self 2 (show n - 1 ≠ 0 by omega)
  simp only [leftCount]
  omega

theorem le_two_mul_leftCount {n : Nat} (large : 2 ≤ n) : n ≤ 2 * leftCount n := by
  have := Nat.lt_pow_succ_log_self (show 1 < 2 by decide) (n - 1)
  simp only [leftCount]
  rw [Nat.pow_succ] at this
  omega

theorem leftCount_eq {n e : Nat} (below : 2 ^ e < n) (above : n ≤ 2 ^ (e + 1)) : leftCount n = 2 ^ e := by
  have : Nat.log 2 (n - 1) = e := by
    apply (Nat.log_eq_iff (Or.inr ⟨by decide, by have := Nat.two_pow_pos e; omega⟩)).mpr
    omega
  rw [leftCount, this]

theorem leftCount_halfUp {n : Nat} (large : 3 ≤ n) : leftCount n = 2 * leftCount (halfUp n) ∧ 2 ≤ halfUp n := by
  obtain ⟨e, same⟩ : ∃ e, leftCount n = 2 ^ (e + 1) := by
    have : 1 ≤ Nat.log 2 (n - 1) := Nat.le_log_of_pow_le (by decide) (by omega)
    exact ⟨Nat.log 2 (n - 1) - 1, by rw [leftCount]; congr 1; omega⟩
  have below := leftCount_lt (n := n) (by omega)
  have above := le_two_mul_leftCount (n := n) (by omega)
  rw [same, Nat.pow_succ] at below above
  refine ⟨?_, by simp only [halfUp]; omega⟩
  rw [same, leftCount_eq (n := halfUp n) (e := e) (by simp only [halfUp]; omega)
    (by rw [Nat.pow_succ]; simp only [halfUp]; omega), Nat.pow_succ]
  ring

def subtree (node : D → D → D) (leaf : Nat → D) (start count : Nat) : D :=
  if _large : 2 ≤ count then
    node (subtree node leaf start (leftCount count))
      (subtree node leaf (start + leftCount count) (count - leftCount count))
  else leaf start
termination_by count
decreasing_by
  · exact leftCount_lt _large
  · have := leftCount_pos count
    omega

/-- The top-down root: only the last combination uses `root`. -/
def treeRoot (node root : D → D → D) (leaf : Nat → D) (count : Nat) : D :=
  root (subtree node leaf 0 (leftCount count))
    (subtree node leaf (leftCount count) (count - leftCount count))

variable (node : D → D → D) (leaf : Nat → D)

theorem subtree_of_large {start count : Nat} (large : 2 ≤ count) :
    subtree node leaf start count = node (subtree node leaf start (leftCount count))
      (subtree node leaf (start + leftCount count) (count - leftCount count)) := by
  rw [subtree, dif_pos large]

theorem subtree_of_small {start count : Nat} (small : ¬ 2 ≤ count) : subtree node leaf start count = leaf start := by
  rw [subtree, dif_neg small]

theorem subtree_one (start : Nat) : subtree node leaf start 1 = leaf start := subtree_of_small node leaf (by decide)

theorem leftCount_two : leftCount 2 = 1 := by decide

theorem subtree_two (start : Nat) : subtree node leaf start 2 = node (leaf start) (leaf (start + 1)) := by
  rw [subtree_of_large node leaf (by decide), leftCount_two, subtree_one, subtree_one]

theorem subtree_congr (node : D → D → D) {f g : Nat → D} (start count : Nat) (positive : 0 < count)
    (same : ∀ i, start ≤ i → i < start + count → f i = g i) :
    subtree node f start count = subtree node g start count := by
  induction count using Nat.strong_induction_on generalizing start with
  | _ count ih =>
    by_cases large : 2 ≤ count
    · have below := leftCount_lt large
      have left := leftCount_pos count
      rw [subtree_of_large node f large, subtree_of_large node g large,
        ih _ below start left (fun i low high => same i low (by omega)),
        ih _ (by omega) (start + leftCount count) (by omega) (fun i low high => same i (by omega) (by omega))]
    · have one : count = 1 := by omega
      subst one
      rw [subtree_one, subtree_one, same start (by omega) (by omega)]

variable (node root : D → D → D)

theorem treeRoot_congr {f g : Nat → D} {count : Nat} (large : 2 ≤ count)
    (same : ∀ i < count, f i = g i) : treeRoot node root f count = treeRoot node root g count := by
  have below := leftCount_lt large
  have left := leftCount_pos count
  rw [treeRoot, treeRoot, subtree_congr node 0 _ left (fun i _ high => same i (by omega)),
    subtree_congr node _ (count - leftCount count) (by omega) (fun i _ high => same i (by omega))]

theorem subtree_map {E : Type} (φ : D → E) {node : D → D → D} {node' : E → E → E}
    (hom : ∀ left right, φ (node left right) = node' (φ left) (φ right)) (leaf : Nat → D) (start count : Nat) :
    φ (subtree node leaf start count) = subtree node' (fun i => φ (leaf i)) start count := by
  induction count using Nat.strong_induction_on generalizing start with
  | _ count ih =>
    by_cases large : 2 ≤ count
    · have below := leftCount_lt large
      have left := leftCount_pos count
      rw [subtree_of_large node leaf large, subtree_of_large node' _ large, hom, ih _ below, ih _ (by omega)]
    · rw [subtree_of_small node leaf large, subtree_of_small node' _ large]

theorem treeRoot_map {E : Type} (φ : D → E) {node root : D → D → D} {node' root' : E → E → E}
    (nodes : ∀ left right, φ (node left right) = node' (φ left) (φ right))
    (roots : ∀ left right, φ (root left right) = root' (φ left) (φ right)) (leaf : Nat → D) (count : Nat) :
    φ (treeRoot node root leaf count) = treeRoot node' root' (fun i => φ (leaf i)) count := by
  rw [treeRoot, treeRoot, roots, subtree_map φ nodes, subtree_map φ nodes]

/-- A segment that starts at an even position, and is even or ends the level,
keeps its tree when the level is paired up. -/
theorem subtree_up (node : D → D → D) (leaf : Nat → D) (n start count : Nat) (positive : 0 < count)
    (inside : 2 * start + count ≤ n) (aligned : count % 2 = 0 ∨ 2 * start + count = n) :
    subtree node (up node n leaf) start (halfUp count) = subtree node leaf (2 * start) count := by
  induction count using Nat.strong_induction_on generalizing start with
  | _ count ih =>
    rcases (show count = 1 ∨ count = 2 ∨ 3 ≤ count by omega) with rfl | rfl | large
    · rw [show halfUp 1 = 1 from rfl, subtree_one, subtree_one, up, if_neg (by omega)]
    · rw [show halfUp 2 = 1 from rfl, subtree_one, subtree_two, up, if_pos (by omega)]
    · obtain ⟨split, two⟩ := leftCount_halfUp large
      have below := leftCount_lt (n := count) (by omega)
      have left := leftCount_pos (halfUp count)
      have halves : halfUp (leftCount count) = leftCount (halfUp count) := by
        rw [split]; simp only [halfUp]; omega
      have rest : halfUp (count - leftCount count) = halfUp count - leftCount (halfUp count) := by
        rw [split]; simp only [halfUp]; omega
      have first := ih (leftCount count) below start (by omega) (by omega) (Or.inl (by omega))
      have second := ih (count - leftCount count) (by omega) (start + leftCount (halfUp count)) (by omega)
        (by omega) (by omega)
      rw [halves] at first
      rw [rest, Nat.mul_add, ← split] at second
      rw [subtree_of_large node _ two, subtree_of_large node leaf (by omega : 2 ≤ count), first, second]

theorem treeRoot_up (leaf : Nat → D) {n : Nat} (large : 3 ≤ n) :
    treeRoot node root (up node n leaf) (halfUp n) = treeRoot node root leaf n := by
  obtain ⟨split, two⟩ := leftCount_halfUp large
  have below := leftCount_lt (n := n) (by omega)
  have left := leftCount_pos (halfUp n)
  have halves : halfUp (leftCount n) = leftCount (halfUp n) := by
    rw [split]; simp only [halfUp]; omega
  have rest : halfUp (n - leftCount n) = halfUp n - leftCount (halfUp n) := by
    rw [split]; simp only [halfUp]; omega
  have first := subtree_up node leaf n 0 (leftCount n) (by omega) (by omega) (Or.inl (by omega))
  have second := subtree_up node leaf n (leftCount (halfUp n)) (n - leftCount n) (by omega) (by omega)
    (Or.inr (by omega))
  rw [halves, Nat.mul_zero] at first
  rw [rest, ← split] at second
  rw [treeRoot, treeRoot, first, second]

theorem levels_of_large {n : Nat} (f : Nat → D) (large : 3 ≤ n) :
    levels node root n f = tabulate f n :: levels node root (halfUp n) (up node n f) := by
  rw [levels, dif_pos large]

theorem levels_two (f : Nat → D) : levels node root 2 f = [tabulate f 2, [root (f 0) (f 1)]] := by
  rw [levels, dif_neg (by decide)]

theorem head?_levels (n : Nat) (f : Nat → D) : (levels node root n f).head? = some (tabulate f n) := by
  rw [levels]
  split <;> rfl

theorem treeRoot_two (leaf : Nat → D) : treeRoot node root leaf 2 = root (leaf 0) (leaf 1) := by
  rw [treeRoot, leftCount_two, subtree_one, subtree_one]

def lowerLevels (node : D → D → D) (n : Nat) (f : Nat → D) : List (List D) :=
  if _large : 3 ≤ n then tabulate f n :: lowerLevels node (halfUp n) (up node n f) else [tabulate f n]
termination_by n
decreasing_by exact halfUp_lt (by omega)

variable (node : D → D → D)

theorem lowerLevels_of_large {n : Nat} (f : Nat → D) (large : 3 ≤ n) :
    lowerLevels node n f = tabulate f n :: lowerLevels node (halfUp n) (up node n f) := by
  rw [lowerLevels, dif_pos large]

theorem lowerLevels_two (f : Nat → D) : lowerLevels node 2 f = [tabulate f 2] := by
  rw [lowerLevels, dif_neg (by decide)]

theorem head?_lowerLevels (n : Nat) (f : Nat → D) : (lowerLevels node n f).head? = some (tabulate f n) := by
  rw [lowerLevels]
  split <;> rfl

theorem levels_eq_append (node root : D → D → D) {n : Nat} (f : Nat → D) (large : 2 ≤ n) :
    levels node root n f = lowerLevels node n f ++ [[treeRoot node root f n]] := by
  induction n using Nat.strong_induction_on generalizing f with
  | _ n ih =>
    rcases (show n = 2 ∨ 3 ≤ n by omega) with rfl | more
    · rw [levels_two, lowerLevels_two, treeRoot_two]
      rfl
    · rw [levels_of_large node root f more, lowerLevels_of_large node f more,
        ih (halfUp n) (halfUp_lt large) _ (leftCount_halfUp more).2, treeRoot_up node root f more]
      rfl

theorem getLast?_levels (node root : D → D → D) {n : Nat} (f : Nat → D) (large : 2 ≤ n) :
    (levels node root n f).getLast? = some [treeRoot node root f n] := by
  rw [levels_eq_append node root f large, List.getLast?_concat]

theorem getLast?_lowerLevels {n : Nat} (f : Nat → D) (large : 2 ≤ n) :
    ∃ left right, (lowerLevels node n f).getLast? = some [left, right] ∧
      ∀ root, root left right = treeRoot node root f n := by
  induction n using Nat.strong_induction_on generalizing f with
  | _ n ih =>
    rcases (show n = 2 ∨ 3 ≤ n by omega) with rfl | more
    · exact ⟨f 0, f 1, by rw [lowerLevels_two]; rfl, fun root => (treeRoot_two node root f).symm⟩
    · obtain ⟨left, right, last, top⟩ :=
        ih (halfUp n) (halfUp_lt large) (up node n f) (leftCount_halfUp more).2
      refine ⟨left, right, ?_, fun root => (top root).trans (treeRoot_up node root f more)⟩
      rw [lowerLevels_of_large node f more, List.getLast?_cons, last]
      rfl

def pairFull (node : D → D → D) (f : Nat → D) (j : Nat) : D := node (f (2 * j)) (f (2 * j + 1))

theorem leftCount_two_pow (e : Nat) : leftCount (2 ^ (e + 1)) = 2 ^ e := by
  have := Nat.two_pow_pos e
  exact leftCount_eq (by rw [Nat.pow_succ]; omega) (by omega)

theorem subtree_two_pow (leaf : Nat → D) (e start : Nat) : subtree node leaf start (2 ^ (e + 1)) =
      node (subtree node leaf start (2 ^ e)) (subtree node leaf (start + 2 ^ e) (2 ^ e)) := by
  have := Nat.two_pow_pos e
  rw [subtree_of_large node leaf (by rw [Nat.pow_succ]; omega), leftCount_two_pow]
  congr 2
  rw [Nat.pow_succ]
  omega

theorem iterate_pairFull (leaf : Nat → D) (e j : Nat) :
    (pairFull node)^[e] leaf j = subtree node leaf (j * 2 ^ e) (2 ^ e) := by
  induction e generalizing j with
  | zero => rw [Nat.pow_zero, Nat.mul_one, subtree_one]; rfl
  | succ e ih =>
    rw [Function.iterate_succ_apply', pairFull, ih, ih, subtree_two_pow]
    congr 2 <;> rw [Nat.pow_succ] <;> ring

theorem subtree_pairFull (leaf : Nat → D) (e j : Nat) :
    subtree node (pairFull node leaf) (j * 2 ^ e) (2 ^ e) = subtree node leaf (j * 2 ^ (e + 1)) (2 ^ (e + 1)) := by
  rw [← iterate_pairFull, ← iterate_pairFull, Function.iterate_succ_apply]

/-! A multi-leaf opening: at every level a node is opened when it is the partner of a node on a path and not itself on
one; the positions are then halved for the next level. -/

section openings

abbrev Positions := OrderedList (fun i : Nat => i)

def halve (s : Positions) : Positions := .toSet (s.entries.map (· / 2))

def opened (n : Nat) (f : Nat → D) (s : Positions) (i : Nat) : List D :=
  if i % 2 = 1 then if i - 1 ∈ s.entries then [] else [f (i - 1)]
  else if i + 1 ∉ s.entries ∧ i + 1 < n then [f (i + 1)]
  else []

def openings (n : Nat) (f : Nat → D) (s : Positions) : List D := s.entries.flatMap (opened n f s)

def allOpenings (node : D → D → D) (n : Nat) (f : Nat → D) (s : Positions) : List D :=
  if _large : 2 ≤ n then openings n f s ++ allOpenings node (halfUp n) (up node n f) (halve s) else []
termination_by n
decreasing_by exact halfUp_lt _large

theorem allOpenings_of_large (node : D → D → D) {n : Nat} (f : Nat → D) (s : Positions) (large : 2 ≤ n) :
    allOpenings node n f s = openings n f s ++ allOpenings node (halfUp n) (up node n f) (halve s) := by
  rw [allOpenings, dif_pos large]

theorem allOpenings_of_small (node : D → D → D) {n : Nat} (f : Nat → D) (s : Positions) (small : n < 2) :
    allOpenings node n f s = [] := by
  rw [allOpenings, dif_neg (by omega)]

theorem mem_halve {s : Positions} {j : Nat} : j ∈ (halve s).entries ↔ ∃ i ∈ s.entries, i / 2 = j := by
  rw [halve, OrderedList.mem_toSet, List.mem_map]

theorem halve_below {s : Positions} {n : Nat} (below : ∀ i ∈ s.entries, i < n) :
    ∀ j ∈ (halve s).entries, j < halfUp n := by
  intro j member
  obtain ⟨i, here, rfl⟩ := mem_halve.mp member
  have bound := below i here
  simp only [halfUp]
  omega

theorem halve_nonempty {s : Positions} (nonempty : s.entries ≠ []) : (halve s).entries ≠ [] := by
  apply OrderedList.toSet_nonempty
  simpa using nonempty

end openings
end ArcMiner.Library
