import ArcMiner.Library.PairTree
import Mathlib.Data.List.Nodup

/-! The combinations behind a tree.

Two trees over the same leaves that split them differently have different roots,
unless two of the combinations behind them collide.
-/

namespace ArcMiner.Library

inductive TreeCall (D : Type) where
  | leaf (index : Nat)
  | node (left right : D)
  | root (left right : D)
deriving DecidableEq

variable {D : Type} (node root : D → D → D) (leaf : Nat → D)

def TreeCall.answer : TreeCall D → D
  | .leaf index => leaf index
  | .node left right => node left right
  | .root left right => root left right

def NoCollision (calls : List (TreeCall D)) : Prop :=
  Set.InjOn (TreeCall.answer node root leaf) { call | call ∈ calls }

theorem NoCollision.of_nodup {calls within : List (TreeCall D)}
    (distinct : (within.map (TreeCall.answer node root leaf)).Nodup) (subset : calls ⊆ within) :
    NoCollision node root leaf calls :=
  fun _ first _ second same => List.inj_on_of_nodup_map distinct (subset first) (subset second) same

def subtreeCalls (start count : Nat) : List (TreeCall D) :=
  if _large : 2 ≤ count then
    .node (subtree node leaf start (leftCount count))
        (subtree node leaf (start + leftCount count) (count - leftCount count)) ::
      (subtreeCalls start (leftCount count) ++ subtreeCalls (start + leftCount count) (count - leftCount count))
  else [.leaf start]
termination_by count
decreasing_by
  · exact leftCount_lt _large
  · have := leftCount_pos count
    omega

/-- The combinations behind a root over `count` leaves whose left side has `left` of them. -/
def rootCalls (left count : Nat) : List (TreeCall D) :=
  .root (subtree node leaf 0 left) (subtree node leaf left (count - left)) ::
    (subtreeCalls node leaf 0 left ++ subtreeCalls node leaf left (count - left))

theorem subtreeCalls_one (start : Nat) : subtreeCalls node leaf start 1 = [.leaf start] := by
  rw [subtreeCalls, dif_neg (by decide)]

theorem subtreeCalls_two_pow (start e : Nat) : subtreeCalls node leaf start (2 ^ (e + 1)) =
      .node (subtree node leaf start (2 ^ e)) (subtree node leaf (start + 2 ^ e) (2 ^ e)) ::
        (subtreeCalls node leaf start (2 ^ e) ++ subtreeCalls node leaf (start + 2 ^ e) (2 ^ e)) := by
  have positive := Nat.two_pow_pos e
  have rest : 2 ^ (e + 1) - 2 ^ e = 2 ^ e := by
    rw [Nat.pow_succ]
    omega
  rw [subtreeCalls, dif_pos (by rw [Nat.pow_succ]; omega), leftCount_two_pow, rest]

section
variable {node root leaf} {calls : List (TreeCall D)} (free : NoCollision node root leaf calls)
include free

/-- No tree over the first leaves equals its own left half. -/
theorem NoCollision.spine_ne {e : Nat} (within : subtreeCalls node leaf 0 (2 ^ (e + 1)) ⊆ calls) :
    subtree node leaf 0 (2 ^ (e + 1)) ≠ subtree node leaf 0 (2 ^ e) := by
  induction e with
  | zero =>
    intro equal
    rw [subtreeCalls_two_pow, Nat.pow_zero, subtreeCalls_one, List.cons_subset] at within
    rw [subtree_two_pow, Nat.pow_zero, subtree_one] at equal
    have same := free within.1 (within.2 (List.mem_append_left _ (List.mem_singleton_self (TreeCall.leaf 0))))
      (by simpa [TreeCall.answer, subtree_one] using equal)
    cases same
  | succ e ih =>
    intro equal
    rw [subtreeCalls_two_pow, List.cons_subset, List.append_subset] at within
    obtain ⟨top, spine, -⟩ := within
    have below : TreeCall.node (subtree node leaf 0 (2 ^ e)) (subtree node leaf (0 + 2 ^ e) (2 ^ e)) ∈ calls := by
      apply spine
      rw [subtreeCalls_two_pow]
      exact List.mem_cons_self
    rw [subtree_two_pow node leaf (e + 1)] at equal
    nth_rewrite 3 [subtree_two_pow node leaf e] at equal
    have same := free top below equal
    injection same with left
    exact ih spine left

/-- The root that splits in half the largest power of two below the count is not the root of all leaves. -/
theorem NoCollision.root_ne {n e : Nat} (below : 2 ^ (e + 1) < n) (above : n < 2 ^ (e + 2))
    (host : rootCalls node leaf (leftCount n) n ⊆ calls) (device : rootCalls node leaf (2 ^ e) (2 ^ (e + 1)) ⊆ calls) :
    treeRoot node root leaf n ≠ root (subtree node leaf 0 (2 ^ e)) (subtree node leaf (2 ^ e) (2 ^ e)) := by
  have rest : 2 ^ (e + 1) - 2 ^ e = 2 ^ e := by
    rw [Nat.pow_succ]
    omega
  intro equal
  rw [rootCalls, List.cons_subset, List.append_subset, leftCount_eq below (Nat.le_of_lt above)] at host
  rw [rootCalls, List.cons_subset, rest] at device
  rw [treeRoot, leftCount_eq below (Nat.le_of_lt above)] at equal
  have same := free host.1 device.1 equal
  injection same with left
  exact free.spine_ne host.2.1 left

end
end ArcMiner.Library
