import ArcMiner.Csd.CsdSha256d
import ArcMiner.Stratum.BitcoinStratumDialect

/-! `BitcoinStratumJob`: the Merkle root of a job and the text of an extranonce.

The branch is folded in one buffer. Its right half takes the nodes, and a node that does not fill it leaves the end of
what was there before.
-/

namespace ArcMiner.Stratum.BitcoinStratumJob

open Library Library.CSharp AkoyaCrypto List

def foldNode (state : List UInt8 × List UInt8) (node : String) : Result (List UInt8 × List UInt8) := do
  let (root, pair) := state
  let bytes ← Hex.decode node
  if 32 < bytes.length then .error (.argument "destinationArray")
  let pair := root ++ bytes ++ pair.drop (32 + bytes.length)
  return (sha256d pair, pair)

def merkleRoot (job : BitcoinStratumJob) (extranonce1 extranonce2Hex : String) : Result (List UInt8) := do
  let coinbase ← Hex.decode (job.coinb1 ++ extranonce1 ++ extranonce2Hex ++ job.coinb2)
  let (root, _) ← job.branch.foldlM foldNode (sha256d coinbase, replicate 64 0)
  return root

def foldRight (root : List UInt8) (nodes : List (List UInt8)) : List UInt8 :=
  nodes.foldl (fun root node => sha256d (root ++ node)) root

def foldedRoot (coinbase : List UInt8) (nodes : List (List UInt8)) : List UInt8 := foldRight (sha256d coinbase) nodes

/-- The right halves that are hashed, from the one that the first node meets. -/
def halves (right : List UInt8) : List (List UInt8) → List (List UInt8)
  | [] => []
  | node :: rest => (node ++ right.drop node.length) :: halves (node ++ right.drop node.length) rest

theorem foldNode_of_decoded {root left right bytes : List UInt8} {node : String} (decoded : Hex.decode node = .ok bytes)
    (half : left.length = 32) : foldNode (root, left ++ right) node =
      if 32 < bytes.length then .error (.argument "destinationArray")
      else .ok (sha256d (root ++ (bytes ++ right.drop bytes.length)), root ++ (bytes ++ right.drop bytes.length)) := by
  have kept : (left ++ right).drop (32 + bytes.length) = right.drop bytes.length := by
    rw [← half, drop_length_add_append]
  rw [foldNode, decoded, ok_bind]
  split
  · rfl
  · rw [kept, append_assoc]
    rfl

theorem foldlM_foldNode {branch : List String} {root left right : List UInt8} (whole : root.length = 32)
    (half : left.length = 32) (final : List UInt8) :
    (∃ last, branch.foldlM foldNode (root, left ++ right) = .ok (final, last)) ↔
      ∃ nodes, branch.mapM Hex.decode = .ok nodes ∧ (∀ node ∈ nodes, node.length ≤ 32) ∧
        final = foldRight root (halves right nodes) := by
  induction branch generalizing root left right with
  | nil =>
    constructor
    · rintro ⟨last, ⟨⟩⟩
      exact ⟨[], rfl, by simp, rfl⟩
    · rintro ⟨_, ⟨⟩, -, rfl⟩
      exact ⟨left ++ right, rfl⟩
  | cons node branch ih =>
    rw [foldlM_cons, mapM_cons]
    cases decoded : Hex.decode node with
    | error why =>
      rw [foldNode, decoded]
      exact iff_of_false (by rintro ⟨_, ⟨⟩⟩) (by rintro ⟨_, ⟨⟩, _⟩)
    | ok bytes =>
      rw [foldNode_of_decoded decoded half, ok_bind]
      split
      next long =>
        refine iff_of_false (by rintro ⟨_, ⟨⟩⟩) ?_
        rintro ⟨_, read, short, -⟩
        obtain ⟨nodes, -, ⟨⟩⟩ := bind_eq_ok.mp read
        exact absurd (short bytes mem_cons_self) (Nat.not_le.mpr long)
      next fits =>
        refine (ih (length_sha256d _) whole).trans ⟨?_, ?_⟩
        · rintro ⟨nodes, read, short, same⟩
          exact ⟨bytes :: nodes, bind_eq_ok.mpr ⟨nodes, read, rfl⟩,
            forall_mem_cons.mpr ⟨Nat.not_lt.mp fits, short⟩, same⟩
        · rintro ⟨_, read, short, same⟩
          obtain ⟨nodes, own, ⟨⟩⟩ := bind_eq_ok.mp read
          exact ⟨nodes, own, (forall_mem_cons.mp short).2, same⟩

section job
variable (job : BitcoinStratumJob) (extranonce1 extranonce2Hex : String)

/-- The coinbase and the nodes of a job that is not rejected. -/
def Accepted (coinbase : List UInt8) (nodes : List (List UInt8)) : Prop :=
  Hex.decode (job.coinb1 ++ extranonce1 ++ extranonce2Hex ++ job.coinb2) = .ok coinbase ∧
    job.branch.mapM Hex.decode = .ok nodes ∧ ∀ node ∈ nodes, node.length ≤ 32

/-- The job is rejected, or its root is the fold over its own nodes. -/
def Folds : Prop := ∀ root, job.merkleRoot extranonce1 extranonce2Hex = .ok root →
  ∃ coinbase nodes, Accepted job extranonce1 extranonce2Hex coinbase nodes ∧ root = foldedRoot coinbase nodes

def Whole : Prop :=
  ∀ coinbase nodes, Accepted job extranonce1 extranonce2Hex coinbase nodes → ∀ node ∈ nodes, node.length = 32

theorem merkleRoot_eq_ok (root : List UInt8) : job.merkleRoot extranonce1 extranonce2Hex = .ok root ↔
    ∃ coinbase nodes, Accepted job extranonce1 extranonce2Hex coinbase nodes ∧
      root = foldedRoot coinbase (halves (replicate 32 0) nodes) := by
  have fold (coinbase : List UInt8) := @foldlM_foldNode job.branch _ _ (replicate 32 0) (length_sha256d coinbase)
    (length_replicate (a := 0)) root
  simp only [replicate_append_replicate] at fold
  simp only [merkleRoot, bind_eq_ok, Accepted]
  constructor
  · rintro ⟨coinbase, decoded, ⟨_, last⟩, folded, ⟨⟩⟩
    obtain ⟨nodes, read, short, same⟩ := (fold coinbase).mp ⟨last, folded⟩
    exact ⟨coinbase, nodes, ⟨decoded, read, short⟩, same⟩
  · rintro ⟨coinbase, nodes, ⟨decoded, read, short⟩, same⟩
    obtain ⟨last, folded⟩ := (fold coinbase).mpr ⟨nodes, read, short, same⟩
    exact ⟨coinbase, decoded, (root, last), folded, rfl⟩

end job

theorem halves_eq_iff {right : List UInt8} (half : right.length = 32) {nodes : List (List UInt8)}
    (short : ∀ node ∈ nodes, node.length ≤ 32) : halves right nodes = nodes ↔ ∀ node ∈ nodes, node.length = 32 := by
  induction nodes generalizing right with
  | nil => simp [halves]
  | cons node rest ih =>
    obtain ⟨first, others⟩ := forall_mem_cons.mp short
    have filled : (node ++ right.drop node.length).length = 32 := by
      rw [length_append, length_drop]
      omega
    rw [halves, cons.injEq, ih filled others, forall_mem_cons, append_right_eq_self, drop_eq_nil_iff]
    exact and_congr_left fun _ => by omega

theorem length_halves (right : List UInt8) (nodes : List (List UInt8)) : (halves right nodes).length = nodes.length := by
  induction nodes generalizing right with
  | nil => rfl
  | cons node rest ih => rw [halves, length_cons, length_cons, ih]

/-- What a fold hashes. -/
def foldCalls (root : List UInt8) : List (List UInt8) → List (List UInt8)
  | [] => []
  | node :: rest => (root ++ node) :: foldCalls (sha256d (root ++ node)) rest

theorem foldRight_inj {calls : List (List UInt8)} (apart : Set.InjOn sha256d { call | call ∈ calls })
    {root other : List UInt8} {nodes others : List (List UInt8)} (whole : root.length = 32) (otherWhole : other.length = 32)
    (count : nodes.length = others.length) (made : foldCalls root nodes ⊆ calls) (otherMade : foldCalls other others ⊆ calls)
    (same : foldRight root nodes = foldRight other others) : root = other ∧ nodes = others := by
  induction nodes generalizing root other others with
  | nil =>
    obtain rfl := length_eq_zero_iff.mp count.symm
    exact ⟨same, rfl⟩
  | cons node rest ih =>
    cases others with
    | nil => cases count
    | cons otherNode otherRest =>
      obtain ⟨call, later⟩ := cons_subset.mp made
      obtain ⟨otherCall, otherLater⟩ := cons_subset.mp otherMade
      -- the roots behind the first nodes agree, and so does what was hashed for them
      obtain ⟨next, rfl⟩ := ih (length_sha256d _) (length_sha256d _) (Nat.succ.inj count) later otherLater same
      obtain ⟨rfl, rfl⟩ := append_inj (apart call otherCall next) (whole.trans otherWhole.symm)
      exact ⟨rfl, rfl⟩

/-- No two different messages of the two folds have one hash. -/
def Apart (coinbase : List UInt8) (nodes : List (List UInt8)) : Prop :=
  Set.InjOn sha256d { call | call ∈ foldCalls (sha256d coinbase) (halves (replicate 32 0) nodes) ++
    foldCalls (sha256d coinbase) nodes }

theorem foldedRoot_halves_iff {coinbase : List UInt8} {nodes : List (List UInt8)} (short : ∀ node ∈ nodes, node.length ≤ 32)
    (apart : Apart coinbase nodes) : foldedRoot coinbase (halves (replicate 32 0) nodes) = foldedRoot coinbase nodes ↔
      ∀ node ∈ nodes, node.length = 32 := by
  rw [← halves_eq_iff length_replicate short]
  refine ⟨fun same => ?_, fun same => by rw [same]⟩
  exact (foldRight_inj apart (length_sha256d _) (length_sha256d _) (length_halves _ _) (subset_append_left _ _)
    (subset_append_right _ _) same).2

/-- A job is rejected or its root is the fold, if every node of a job that is not rejected is as long as a hash, and
only then, unless two different messages collide. -/
theorem merkleRoot_folds_iff (job : BitcoinStratumJob) (extranonce1 extranonce2Hex : String) :
    (Whole job extranonce1 extranonce2Hex → Folds job extranonce1 extranonce2Hex) ∧
    ((∀ coinbase nodes, Accepted job extranonce1 extranonce2Hex coinbase nodes → Apart coinbase nodes) →
      (Folds job extranonce1 extranonce2Hex ↔ Whole job extranonce1 extranonce2Hex)) := by
  have forward : Whole job extranonce1 extranonce2Hex → Folds job extranonce1 extranonce2Hex := by
    intro whole root returned
    obtain ⟨coinbase, nodes, accepted, rfl⟩ := (merkleRoot_eq_ok job extranonce1 extranonce2Hex root).mp returned
    refine ⟨coinbase, nodes, accepted, ?_⟩
    rw [(halves_eq_iff length_replicate accepted.2.2).mpr (whole coinbase nodes accepted)]
  refine ⟨forward, fun apart => ⟨fun folds coinbase nodes accepted => ?_, forward⟩⟩
  obtain ⟨otherCoinbase, otherNodes, ⟨decoded, read, -⟩, same⟩ :=
    folds _ ((merkleRoot_eq_ok job extranonce1 extranonce2Hex _).mpr ⟨coinbase, nodes, accepted, rfl⟩)
  obtain rfl := Except.ok.inj (accepted.1.symm.trans decoded)
  obtain rfl := Except.ok.inj (accepted.2.1.symm.trans read)
  exact (foldedRoot_halves_iff accepted.2.2 (apart coinbase nodes accepted)).mp same

/-- SHA-256 by the sixteen words of the kernel, which can be evaluated. -/
def rolledHash (message : List UInt8) : List UInt8 :=
  let padded := Sha256.pad message
  Sha256.digest ((range (padded.length / 64)).foldl
    (fun value i => Csd.CsdSha256d.rounds value (Vector.ofFn fun t => Sha256.blockWord padded i t)) Sha256.initial)

theorem hash_eq_rolledHash (message : List UInt8) : Sha256.hash message = rolledHash message := by
  have rolled (value : Sha256.Value) (block : Nat → UInt32) :
      Sha256.compress value block = Csd.CsdSha256d.rounds value (Vector.ofFn fun t => block t) :=
    (Csd.rounds_eq value fun t inside => by simp [getD_eq_getElem?_getD, inside]).symm
  simp only [Sha256.hash, Sha256.hashValue, rolled, rolledHash]

def bare (branch : List String) : BitcoinStratumJob := ⟨"", [], "", "", branch, 0, 0, 0, "", "", false⟩

def ones : String := String.ofList (replicate 64 '1')

theorem accepted_short : Accepted (bare [ones, ""]) "" "" [] [replicate 32 0x11, []] := by
  have decoded : Hex.decode ones = .ok (replicate 32 0x11) := by decide +kernel
  refine ⟨by decide, ?_, by decide⟩
  change [ones, ""].mapM Hex.decode = _
  rw [mapM_cons, decoded]
  rfl

theorem apart_short : Apart [] [replicate 32 0x11, []] := by
  have apart : ∀ call ∈ foldCalls (sha256d []) (halves (replicate 32 0) [replicate 32 0x11, []]) ++
      foldCalls (sha256d []) [replicate 32 0x11, []], ∀ other ∈ foldCalls (sha256d []) (halves (replicate 32 0)
      [replicate 32 0x11, []]) ++ foldCalls (sha256d []) [replicate 32 0x11, []],
      sha256d call = sha256d other → call = other := by
    simp only [foldCalls, halves, sha256d, hash_eq_rolledHash]
    decide +kernel
  exact fun call made other otherMade => apart call made other otherMade

theorem merkleRoot_folds_short : ¬Folds (bare [ones, ""]) "" "" := by
  intro folds
  have whole := ((merkleRoot_folds_iff (bare [ones, ""]) "" "").2 (by
    rintro _ _ ⟨decoded, read, -⟩
    obtain rfl := Except.ok.inj (accepted_short.1.symm.trans decoded)
    obtain rfl := Except.ok.inj (accepted_short.2.1.symm.trans read)
    exact apart_short)).mp folds
  exact absurd (whole _ _ accepted_short [] (by simp)) (by decide)

/-- An empty node is the node before it once more. -/
theorem short_node_leaks : ∃ root, (bare [ones, ""]).merkleRoot "" "" = .ok root ∧
    [ones, ""].mapM Hex.decode = .ok [replicate 32 0x11, []] ∧
    root = foldedRoot [] [replicate 32 0x11, replicate 32 0x11] ∧
    root ≠ foldedRoot [] [replicate 32 0x11, []] := by
  refine ⟨_, (merkleRoot_eq_ok _ _ _ _).mpr ⟨_, _, accepted_short, rfl⟩, accepted_short.2.1, rfl, fun same => ?_⟩
  have whole := (foldedRoot_halves_iff accepted_short.2.2 apart_short).mp same [] (by simp)
  exact absurd whole (by decide)

def counterDigits (counter : UInt32) : List Char :=
  (range 8).map fun i => (Convert.hexDigit (counter.toNat / 16 ^ (7 - i) % 16)).toLower

def formatExtranonce2 (counter : UInt32) (extranonce2Size : Int) : Result String :=
  let hex := counterDigits counter
  let width := int32 (extranonce2Size * 2)
  if extranonce2Size ≥ 4 then
    if width < 0 then .error (.argumentOutOfRange "totalWidth")
    else .ok (String.ofList (replicate (width.toNat - 8) '0' ++ hex))
  else if 0 ≤ width ∧ width ≤ 8 then .ok (String.ofList (hex.drop (8 - width.toNat)))
  else .error (.argumentOutOfRange "value")

theorem toLower_hexDigit_inj (x y : Nat) : (Convert.hexDigit (x % 16)).toLower = (Convert.hexDigit (y % 16)).toLower ↔
    x % 16 = y % 16 := by
  have digits : ∀ d < 16, ∀ e < 16, (Convert.hexDigit d).toLower = (Convert.hexDigit e).toLower ↔ d = e := by decide
  exact digits _ (Nat.mod_lt _ (by decide)) _ (Nat.mod_lt _ (by decide))

theorem drop_counterDigits_inj (a b : UInt32) {n : Nat} (small : n ≤ 4) :
    (counterDigits a).drop (8 - 2 * n) = (counterDigits b).drop (8 - 2 * n) ↔ a.toNat % 256 ^ n = b.toNat % 256 ^ n := by
  have := a.toNat_lt
  have := b.toNat_lt
  interval_cases n <;> simp [counterDigits, range_succ, toLower_hexDigit_inj] <;> omega

/-- Two counters give one text exactly if they agree in the bytes that it has room for. -/
theorem formatExtranonce2_eq_iff {a b : UInt32} {size : Nat} {text : String} (made : formatExtranonce2 a size = .ok text) :
    formatExtranonce2 b size = .ok text ↔ a.toNat % 256 ^ min size 4 = b.toNat % 256 ^ min size 4 := by
  rw [← made, eq_comm, ← drop_counterDigits_inj a b (min_le_right size 4)]
  by_cases padded : 4 ≤ size
  · have kept : ¬int32 (size * 2) < 0 := fun negative => by simp [formatExtranonce2, padded, negative] at made
    simp [formatExtranonce2, padded, kept, String.ofList_inj]
  · have width : int32 (size * 2) = (2 * size : Nat) := by rw [int32_of_fits (by omega) (by omega)]; omega
    have short : 2 * size ≤ 8 := by omega
    rw [min_eq_left (by omega)]
    generalize 2 * size = digits at *
    simp [formatExtranonce2, padded, width, short, String.ofList_inj]

theorem formatExtranonce2_eq_iff_wraps : formatExtranonce2 1 1 = .ok "01" ∧ formatExtranonce2 257 1 = .ok "01" := by
  have made : formatExtranonce2 1 (1 : Nat) = .ok "01" := by decide +kernel
  exact ⟨made, (formatExtranonce2_eq_iff made).2 (by decide)⟩

end ArcMiner.Stratum.BitcoinStratumJob
