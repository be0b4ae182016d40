import ArcMiner.Library.MerklePath
import ArcMiner.PearlBlake3.Completeness

/-! `MerkleTree::get_audit_paths`: one independent path per requested leaf. -/

namespace ArcMiner.PearlBlake3

open Library Library.Rust

section paths
variable {δ : Type}

def auditLevels (totalLeaves : Nat) : Nat := if totalLeaves ≤ 1 then 0 else trailingZeros 64 totalLeaves

def auditStep (layers : List (List δ)) (state : Nat × List δ) (level : Nat) : Result (Nat × List δ) := do
  let sibling ← index (← index layers level) (state.1 ^^^ 1)
  return (state.1 / 2, state.2 ++ [sibling])

def auditPath (layers : List (List δ)) (levels startIdx : Nat) : Result (List δ) := do
  return (← (List.range levels).foldlM (auditStep layers) (startIdx, [])).2

def powerOfTwoMessage (totalLeaves : Nat) : String :=
  s!"total_leaves ({totalLeaves}) must be a power of two for audit_proof v1"

def auditBoundsMessage (totalLeaves bad : Nat) : String :=
  s!"leaf index {bad} out of bounds (total_leaves={totalLeaves})"

/-- The digests of the flat output buffer, in order. A buffer beyond `isize::MAX` cannot be allocated. -/
def MerkleTree.getAuditPaths (self : MerkleTree δ) (leafIndices : List Nat) : Result (List δ) := do
  let totalLeaves ← self.numLeaves
  ensure (isPowerOfTwo totalLeaves || totalLeaves == 0) (powerOfTwoMessage totalLeaves)
  if leafIndices.isEmpty then return []
  rejectSome (leafIndices.find? fun i => decide (max totalLeaves 1 ≤ i)) (auditBoundsMessage totalLeaves)
  let levels := auditLevels totalLeaves
  assert (decide (leafIndices.length * levels * 32 < 2 ^ 63)) "capacity overflow"
  if levels = 0 then return []
  return (← leafIndices.mapM (auditPath self.layers levels)).flatten

end paths

theorem auditLevels_two_pow {e : Nat} (fits : e < 64) : auditLevels (2 ^ e) = e := by
  unfold auditLevels
  split
  next small =>
    rcases Nat.eq_zero_or_pos e with rfl | positive
    · rfl
    · have := Nat.one_lt_two_pow (n := e) (by omega)
      omega
  next => exact trailingZeros_two_pow fits

section full
variable {δ : Type} {node : δ → δ → δ} {f : Nat → δ} {e : Nat} {layers : List (List δ)}
  (full : HoldsLevels node e f layers)
include full

theorem auditStep_eq {i l : Nat} (below : l ≤ e) (bound : i < 2 ^ (e + 1 - l)) (path : List δ) :
    auditStep layers (i, path) l = .ok (i / 2, path ++ [(pairFull node)^[l] f (i ^^^ 1)]) := by
  -- A level below the root has an even length, so the sibling is inside.
  have sibling : i ^^^ 1 < 2 ^ (e + 1 - l) := by
    have even : 2 ^ (e + 1 - l) = 2 * 2 ^ (e - l) := by
      rw [show e + 1 - l = e - l + 1 by omega, Nat.pow_succ, Nat.mul_comm]
    have half := Nat.xor_div_two (a := i) (b := 1)
    simp only [Nat.reduceDiv, Nat.xor_zero] at half
    omega
  unfold auditStep
  rw [index_eq_ok (full l below), ok_bind, MerkleTree.index_tabulate _ sibling, ok_bind]
  rfl

theorem auditSteps_eq {i : Nat} (bound : i < 2 ^ (e + 1)) (l : Nat) (below : l ≤ e + 1) :
    (List.range l).foldlM (auditStep layers) (i, []) = .ok (i / 2 ^ l, tabulate (siblingAt node f i) l) := by
  induction l with
  | zero => simp [tabulate, pure, Except.pure]
  | succ l ih =>
    have inside : i / 2 ^ l < 2 ^ (e + 1 - l) := by
      rw [Nat.div_lt_iff_lt_mul (Nat.two_pow_pos l), ← Nat.pow_add, show e + 1 - l + l = e + 1 by omega]
      exact bound
    rw [List.range_succ, List.foldlM_append, ih (by omega), ok_bind, List.foldlM_cons,
      auditStep_eq full (by omega) inside, ok_bind, List.foldlM_nil, Nat.div_div_eq_div_mul, ← Nat.pow_succ,
      tabulate_add]
    rfl

theorem auditPaths_eq {indices : List Nat} (inRange : ∀ i ∈ indices, i < 2 ^ (e + 1)) :
    indices.mapM (auditPath layers (e + 1)) =
      .ok (indices.map fun i => tabulate (siblingAt node f i) (e + 1)) := by
  refine mapM_eq_ok fun i member => ?_
  unfold auditPath
  rw [auditSteps_eq full (inRange i member) (e + 1) (le_refl _), ok_bind]
  rfl

theorem getAuditPaths_eq (few : e + 1 < 64) {self : MerkleTree δ} (same : self.layers = layers) {indices : List Nat}
    (inRange : ∀ i ∈ indices, i < 2 ^ (e + 1)) (fits : indices.length * (e + 1) * 32 < 2 ^ 63) :
    self.getAuditPaths indices = .ok (indices.flatMap fun i => tabulate (siblingAt node f i) (e + 1)) := by
  subst same
  have leaves : self.numLeaves = .ok (2 ^ (e + 1)) := by
    rw [MerkleTree.numLeaves, index_eq_ok (full 0 (Nat.zero_le e)), ok_bind, length_tabulate]
    rfl
  have power := isPowerOfTwo_iff.mpr ⟨e + 1, rfl⟩
  have bounds : indices.find? (fun i => decide (max (2 ^ (e + 1)) 1 ≤ i)) = none := by
    rw [List.find?_eq_none]
    intro i member
    have := inRange i member
    simp only [decide_eq_true_eq]
    omega
  unfold MerkleTree.getAuditPaths
  rw [leaves, ok_bind, power, Bool.true_or, ensure, if_pos rfl, ok_bind]
  cases indices with
  | nil => rfl
  | cons first rest =>
    rw [if_neg (by simp), bounds, rejectSome, ok_bind, auditLevels_two_pow few]
    simp only [fits, decide_true, assert, ↓reduceIte, ok_bind, auditPaths_eq full inRange]
    rw [if_neg (by omega), List.flatMap_def]
    rfl

end full

theorem getAuditPaths_inRange {δ : Type} {self : MerkleTree δ} {n : Nat} (count : self.numLeaves = .ok n)
    (positive : 0 < n) {indices : List Nat} {paths : List δ} (made : self.getAuditPaths indices = .ok paths) :
    isPowerOfTwo n = true ∧ ∀ i ∈ indices, i < n := by
  unfold MerkleTree.getAuditPaths at made
  rw [count, ok_bind] at made
  obtain ⟨_, power, made⟩ := bind_eq_ok.mp made
  rw [ensure_eq_ok, Bool.or_eq_true, beq_iff_eq] at power
  refine ⟨power.resolve_right (by omega), ?_⟩
  cases indices with
  | nil => simp
  | cons first rest =>
    rw [if_neg (by simp)] at made
    obtain ⟨_, bounds, -⟩ := bind_eq_ok.mp made
    have inside := find?_bound_eq_none.mp (rejectSome_eq_ok.mp bounds)
    rwa [max_eq_left (by omega)] at inside

end ArcMiner.PearlBlake3
