import ArcMiner.AkoyaCrypto.AuditProof

/-! The depth to which `AuditProofVerifier.Verify` opens a tree of `2^e` leaves.

A path down to one leaf of such a tree has one sibling for each of the `e` binary digits of
the index. The number of leaves is a `ulong`; `Verify` counts the levels of the tree in its
low 32 bits.
-/

namespace ArcMiner.AkoyaCrypto.AuditProofVerifier

open Library Library.CSharp MiningCapi PearlBlake3 Nat AuditIndexDeriver

def besideDigit (op : Digest → Digest → Digest) (digit : Bool) (node sibling : Digest) : Digest :=
  if digit then op sibling node else op node sibling

/-- The way up from a node, lowest digit first; the last step makes the root. -/
def climb (jobKey : Digest) : List (Bool × Digest) → Digest → Digest
  | [], node => node
  | [(digit, sibling)], node => besideDigit (Blake3.rootCv (.keyed jobKey)) digit node sibling
  | (digit, sibling) :: next :: rest, node =>
    climb jobKey (next :: rest) (besideDigit (Blake3.parentCv (.keyed jobKey)) digit node sibling)

/-- The root that opening `i` stands for in a tree of `2^e` leaves: the leaf alone where it is the whole tree, and
otherwise its chaining value with one sibling for each of the `e` digits of the index. -/
def rootOver (bSeed jobKey : Digest) (e : Nat) (siblings : List UInt8) (i : Nat) (idx : UInt32) : Digest :=
  let leaf := (streamLeaf bSeed idx.toNat).bytes
  if e = 0 then Blake3.rootChunk (.keyed jobKey) leaf
  else climb jobKey (tabulate (fun lvl => (idx.toNat.testBit lvl, digestAt siblings (i * e + lvl))) e)
    (Blake3.chunkCv (.keyed jobKey) idx.toUInt64 leaf)

/-- Each of the `auditK` openings comes with `e` siblings, its index has `e` binary digits, and the way up over these
digits and siblings ends in `hashB`. -/
def OpenedInFull (claimedHash bSeed jobKey hashB : Digest) (auditK : UInt32) (totalLeaves : UInt64) (e : Nat)
    (siblings : List UInt8) : Prop :=
  ∃ indices, derive claimedHash bSeed auditK totalLeaves = .ok indices ∧
    indices.length = auditK.toNat ∧ siblings.length = auditK.toNat * e * 32 ∧
    ∀ i idx, indices[i]? = some idx → idx.toNat < 2 ^ e ∧ rootOver bSeed jobKey e siblings i idx = hashB

theorem joinAt_eq (op : Digest → Digest → Digest) (i : Nat) (node sibling : Digest) :
    joinAt op i node sibling = besideDigit op (i.testBit 0) node sibling := by
  rw [joinAt, besideDigit, testBit_zero]
  rcases mod_two_eq_zero_or_one i with even | odd
  · simp [even]
  · simp [odd]

/-- The halves of the position show its binary digits one after the other. -/
theorem pathRoot_eq_climb (jobKey : Digest) (sibling : Nat → Digest) (i : Nat) (node : Digest) (e : Nat) :
    pathRoot (hostNodes jobKey).parentCv (hostNodes jobKey).rootCv i node (tabulate sibling e) =
      climb jobKey (tabulate (fun lvl => (i.testBit lvl, sibling lvl)) e) node := by
  induction e generalizing i node sibling with
  | zero => rfl
  | succ e ih =>
    cases e with
    | zero => exact joinAt_eq _ i node (sibling 0)
    | succ e =>
      have rest := ih (fun lvl => sibling (lvl + 1)) (i / 2) (joinAt (hostNodes jobKey).parentCv i node (sibling 0))
      rw [tabulate_succ, tabulate_succ] at rest
      simp only [← testBit_succ] at rest
      rw [tabulate_succ_succ, tabulate_succ_succ, pathRoot_cons _ _ _ _ _ (List.cons_ne_nil _ _), rest, joinAt_eq]
      rfl

theorem checkOpenings_index {bSeed jobKey hashB : Digest} {levels : Nat} {siblings : List UInt8}
    {openings : List (UInt32 × Nat)} {failing : Int}
    (passed : checkOpenings bSeed jobKey hashB levels siblings openings = .ok (.ok, failing)) : failing = -1 := by
  induction openings with
  | nil => exact (congrArg Prod.snd (Except.ok.inj passed)).symm
  | cons first rest ih =>
    obtain ⟨leaf, -, passed⟩ := bind_eq_ok.mp passed
    obtain ⟨root, -, passed⟩ := bind_eq_ok.mp passed
    by_cases other : root ≠ hashB
    · rw [if_pos other] at passed
      cases passed
    · rw [if_neg other] at passed
      exact ih passed

section depth
variable {claimedHash bSeed jobKey hashB : Digest} {auditK : UInt32} (opens : auditK ≠ 0)
  (cap : auditK.toNat ≤ auditKMax) {totalLeaves : UInt64} {e : Nat} (power : totalLeaves.toNat = 2 ^ e)
  {siblings : List UInt8}

include opens cap power in
theorem verify_accepts_iff {levels : Nat} {failing : Int}
    (counted : (if totalLeaves = 1 then 0 else log2 totalLeaves.toUInt32.toNat) = levels)
    {indices : List UInt32} (derived : derive claimedHash bSeed auditK totalLeaves = .ok indices) :
    verify claimedHash bSeed jobKey hashB auditK totalLeaves siblings = .ok (.ok, failing) ↔
      failing = -1 ∧ siblings.length = auditK.toNat * levels * 32 ∧
        ∀ i idx, indices[i]? = some idx → rootOver bSeed jobKey levels siblings i idx = hashB := by
  have openings : checkOpenings bSeed jobKey hashB levels siblings indices.zipIdx = .ok (.ok, -1) ↔ _ :=
    checkOpenings_eq_ok (fun idx => (streamLeaf bSeed idx.toNat).bytes)
      (fun p => rootOver bSeed jobKey levels siblings p.2 p.1) (fun p _ => expandLeaf_eq bSeed p.1) fun p _ => by
        have length : (streamLeaf bSeed p.1.toNat).bytes.length = 1024 := (streamLeaf bSeed p.1.toNat).size
        cases levels with
        | zero =>
          unfold openingRoot
          rw [HostBlake3.chunkCv_eq jobKey p.1.toUInt64 (by omega) (by omega), ok_bind,
            HostBlake3.keyedHash_eq jobKey (by omega)]
          rfl
        | succ d =>
          rw [openingRoot_eq, pathRoot_eq_climb, toUInt64_toNat]
          rfl
  rw [verify_of_levels opens cap power counted derived]
  by_cases length : siblings.length = auditK.toNat * levels * 32
  · rw [if_neg (not_not.mpr length)]
    constructor
    · intro passed
      obtain rfl := checkOpenings_index passed
      exact ⟨rfl, length, fun i idx entry => openings.mp passed (idx, i) (List.mk_mem_zipIdx_iff_getElem?.mpr entry)⟩
    · rintro ⟨rfl, -, every⟩
      exact openings.mpr fun p member => every p.2 p.1 (List.mk_mem_zipIdx_iff_getElem?.mp member)
  · rw [if_pos length]
    exact iff_of_false (by simp) fun both => length both.2.1

omit opens cap in
include power in
theorem levels_of_small (small : totalLeaves.toNat < 2 ^ 32) :
    (if totalLeaves = 1 then 0 else log2 totalLeaves.toUInt32.toNat) = e := by
  have low : log2 totalLeaves.toUInt32.toNat = e := by
    rw [UInt64.toNat_toUInt32, mod_eq_of_lt small, power, log2_two_pow]
  by_cases single : totalLeaves = 1
  · rw [if_pos single, ← low, single]
    rfl
  · rw [if_neg single, low]

omit opens cap in
include power in
theorem levels_of_large (large : 32 ≤ e) :
    (if totalLeaves = 1 then 0 else log2 totalLeaves.toUInt32.toNat) = 0 := by
  have zero : totalLeaves.toUInt32.toNat = 0 := by
    rw [UInt64.toNat_toUInt32, power]
    exact mod_eq_zero_of_dvd (Nat.pow_dvd_pow 2 large)
  rw [zero]
  exact ite_self 0

include opens cap power in
/-- An accepted proof has been checked over the whole depth of the tree exactly when the tree has fewer than `2^32`
leaves. -/
theorem verify_full_depth_iff {failing : Int}
    (accepted : verify claimedHash bSeed jobKey hashB auditK totalLeaves siblings = .ok (.ok, failing)) :
    OpenedInFull claimedHash bSeed jobKey hashB auditK totalLeaves e siblings ↔ totalLeaves.toNat < 2 ^ 32 := by
  have derived := derive_eq claimedHash bSeed cap power
  constructor
  · rintro ⟨indices, -, -, given, -⟩
    rw [power]
    apply Nat.pow_lt_pow_right (by decide)
    by_contra large
    -- `Verify` takes the tree for a single leaf and asks for no sibling at all
    obtain ⟨-, none, -⟩ := (verify_accepts_iff opens cap power (levels_of_large power (by omega)) derived).mp accepted
    have positive : 0 < auditK.toNat := Nat.pos_of_ne_zero fun zero => opens (UInt32.toNat_inj.mp zero)
    have product : 0 < auditK.toNat * e := Nat.mul_pos positive (by omega)
    omega
  · intro small
    obtain ⟨-, given, roots⟩ := (verify_accepts_iff opens cap power (levels_of_small power small) derived).mp accepted
    refine ⟨_, derived, length_indices _ _ _, given, fun i idx entry => ⟨?_, roots i idx entry⟩⟩
    rw [← power]
    exact indices_lt (leaves_ne_zero power) auditK _ idx (List.mem_of_getElem? entry)

end depth

theorem verify_one {claimedHash bSeed jobKey : Digest} {totalLeaves : UInt64} {e levels : Nat}
    (power : totalLeaves.toNat = 2 ^ e)
    (counted : (if totalLeaves = 1 then 0 else log2 totalLeaves.toUInt32.toNat) = levels) {idx : UInt32}
    (derived : derive claimedHash bSeed 1 totalLeaves = .ok [idx]) {siblings : List UInt8}
    (given : siblings.length = 1 * levels * 32) :
    verify claimedHash bSeed jobKey (rootOver bSeed jobKey levels siblings 0 idx) 1 totalLeaves siblings =
      .ok (.ok, -1) := by
  refine (verify_accepts_iff (by decide) (by decide) power counted derived).mpr ⟨rfl, given, fun i other entry => ?_⟩
  cases i with
  | zero => rw [Option.some.inj entry]
  | succ i => cases entry

section zeros
open Blake3 (zeroKey)

/-- A tree of two leaves with the sibling given: the root is found over one level. -/
theorem verify_full_depth_two : ∃ hashB,
    verify zeroKey zeroKey zeroKey hashB 1 2 (List.replicate 32 0) = .ok (.ok, -1) ∧
      OpenedInFull zeroKey zeroKey zeroKey hashB 1 2 1 (List.replicate 32 0) := by
  have accepted : verify zeroKey zeroKey zeroKey (rootOver zeroKey zeroKey 1 (List.replicate 32 0) 0 1) 1 2
      (List.replicate 32 0) = .ok (.ok, -1) := verify_one (e := 1) rfl rfl zero_derived rfl
  exact ⟨_, accepted, (verify_full_depth_iff (e := 1) (by decide) (by decide) rfl accepted).mpr (by decide)⟩

/-- A tree of `2^32` leaves: the hash of the opened leaf alone passes for its root, without a sibling. -/
theorem verify_single_leaf : ∃ hashB, verify zeroKey zeroKey zeroKey hashB 1 4294967296 [] = .ok (.ok, -1) ∧
    ¬ OpenedInFull zeroKey zeroKey zeroKey hashB 1 4294967296 32 [] := by
  have derived := @derive_eq zeroKey zeroKey 1 (by decide) 4294967296 32 rfl
  generalize found : indices 1 4294967296 _ = indices at derived
  have length : indices.length = 1 := by
    rw [← found]
    exact length_indices _ _ _
  obtain ⟨idx, rfl⟩ := List.length_eq_one_iff.mp length
  refine ⟨_, verify_one (e := 32) rfl (levels_of_large (e := 32) rfl (by decide)) derived rfl, ?_⟩
  rintro ⟨_, -, -, given, -⟩
  cases given

end zeros
end ArcMiner.AkoyaCrypto.AuditProofVerifier
