import ArcMiner.PearlBlake3.Provenance

/-! Soundness of multi-leaf proofs.

The argument goes down from the root: as long as no two of the calls made by the
tree and by the walk collide, agreement of a level with the tree forces agreement
of the level below, and in the end of the opened chunks.
-/

namespace ArcMiner.PearlBlake3

open Library Library.Rust List Option MerkleTree OrderedList Slice Blake3Hasher
open Blake3 (chunkAt chunkCount chunkCv)

namespace MerkleProof
variable {δ : Type}

def Above (hasher : NodeHasher δ) (current : NodeMap δ) (n i : Nat) (cv above : δ) : Prop :=
  if i % 2 = 0 then
    match current.find? (i + 1) with
    | some (_, right) => above = hasher.parentCv cv right
    | none => if i + 1 < n then ∃ right, above = hasher.parentCv cv right else above = cv
  else
    match current.find? (i - 1) with
    | some (_, left) => above = hasher.parentCv left cv
    | none => ∃ left, above = hasher.parentCv left cv

variable {hasher : NodeHasher δ} {current : NodeMap δ} {n : Nat}

/-- What one entry does to the recorded nodes: it is skipped when its even partner
came before, and is recorded under half its position otherwise. -/
theorem climbNode_cases {state after : NodeMap δ × List δ}
    {i : Nat} {cv : δ} (step : climbNode hasher current n state (i, cv) = some after) :
    (i % 2 = 1 ∧ current.contains (i - 1) = true ∧ after = state) ∨
    (¬ (i % 2 = 1 ∧ current.contains (i - 1) = true) ∧
      ∃ above, Above hasher current n i cv above ∧ after.1 = state.1.insert (i / 2, above)) := by
  obtain ⟨next, siblings⟩ := state
  simp only [climbNode] at step
  rcases Nat.mod_two_eq_zero_or_one i with even | odd
  · refine Or.inr ⟨by omega, ?_⟩
    simp only [even, ↓reduceIte] at step
    simp only [Above, even, ↓reduceIte]
    cases found : current.find? (i + 1) with
    | some right =>
      rw [found] at step
      cases step
      exact ⟨_, rfl, rfl⟩
    | none =>
      rw [found] at step
      by_cases inside : i + 1 < n
      · cases siblings with
        | nil => simp [inside, nextSibling] at step
        | cons right siblings =>
          simp only [inside, ↓reduceIte, nextSibling, bind_eq_bind, bind_some] at step ⊢
          cases step
          exact ⟨_, ⟨right, rfl⟩, rfl⟩
      · simp only [inside, ↓reduceIte] at step ⊢
        cases step
        exact ⟨_, rfl, rfl⟩
  · have notEven : ¬ i % 2 = 0 := by omega
    simp only [notEven, ↓reduceIte] at step
    simp only [Above, notEven, ↓reduceIte]
    by_cases present : current.contains (i - 1) = true
    · simp only [present, ↓reduceIte] at step
      exact Or.inl ⟨odd, present, (Option.some.inj step).symm⟩
    · have absent : current.find? (i - 1) = none := by
        apply OrderedList.find?_eq_none.mpr
        intro entry member same
        exact present (OrderedList.contains_iff.mpr ⟨entry, member, same⟩)
      rw [absent]
      cases siblings with
      | nil => simp [present, nextSibling] at step
      | cons left siblings =>
        simp only [present, nextSibling, bind_eq_bind, bind_some] at step
        cases step
        exact Or.inr ⟨fun skip => present skip.2, _, ⟨left, rfl⟩, rfl⟩

/-- Every entry of a level has its node above recorded, and nothing else is recorded. -/
structure Recorded (hasher : NodeHasher δ) (current : NodeMap δ) (n : Nat) (entries : List (Nat × δ))
    (next : NodeMap δ) : Prop where
  above : ∀ entry ∈ entries, ∃ value, (entry.1 / 2, value) ∈ next.entries ∧
    Above hasher current n entry.1 entry.2 value
  origin : ∀ entry ∈ next.entries, ∃ below ∈ entries, entry.1 = below.1 / 2

theorem Recorded.step {pre post : List (Nat × δ)}
    {entry : Nat × δ} (split : current.entries = pre ++ entry :: post) {state after : NodeMap δ × List δ}
    (recorded : Recorded hasher current n pre state.1) (step : climbNode hasher current n state entry = some after) :
    Recorded hasher current n (pre ++ [entry]) after.1 := by
  obtain ⟨i, cv⟩ := entry
  have order := current.ordered
  rw [split] at order
  have before : ∀ other ∈ pre, other.1 < i := fun other member =>
    (pairwise_append.mp order).2.2 other member (i, cv) (by simp)
  rcases climbNode_cases step with ⟨odd, present, rfl⟩ | ⟨kept, value, above, inserted⟩
  · -- The partner below `i` recorded the parent of both.
    obtain ⟨⟨j, left⟩, member, place⟩ := contains_iff.mp present
    simp only at place
    subst place
    have earlier : (i - 1, left) ∈ pre := by
      rw [split] at member
      rcases mem_append.mp member with earlier | later
      · exact earlier
      · rcases mem_cons.mp later with same | later
        · simp only [Prod.mk.injEq] at same
          omega
        · have := rel_of_pairwise_cons (pairwise_append.mp order).2.1 later
          simp only at this
          omega
    obtain ⟨value, here, above⟩ := recorded.above _ earlier
    have partner : current.find? (i - 1 + 1) = some (i, cv) :=
      find?_eq_some.mpr ⟨by simp [split], by simp only; omega⟩
    have known : current.find? (i - 1) = some (i - 1, left) := find?_eq_some.mpr ⟨member, rfl⟩
    have both : value = hasher.parentCv left cv := by
      simpa [Above, show (i - 1) % 2 = 0 by omega, partner] using above
    refine ⟨fun entry within => ?_, fun entry within => ?_⟩
    · rcases mem_append.mp within with old | new
      · exact recorded.above entry old
      · rw [mem_singleton.mp new]
        refine ⟨value, ?_, ?_⟩
        · rwa [show i / 2 = (i - 1) / 2 by omega]
        · simp [Above, show ¬ i % 2 = 0 by omega, known, both]
    · obtain ⟨below, old, same⟩ := recorded.origin entry within
      exact ⟨below, by simp [old], same⟩
  · refine ⟨fun entry within => ?_, fun entry within => ?_⟩
    · rcases mem_append.mp within with old | new
      · obtain ⟨w, here, fact⟩ := recorded.above entry old
        refine ⟨w, ?_, fact⟩
        rw [inserted]
        refine mem_insert.mpr (Or.inr ⟨here, fun same => kept ?_⟩)
        -- Two positions with the same half are partners, and then `i` would have been skipped.
        have low := before entry old
        simp only at same
        refine ⟨by omega, contains_iff.mpr ⟨entry, by simp [split, old], by omega⟩⟩
      · rw [mem_singleton.mp new, inserted]
        exact ⟨value, mem_insert.mpr (Or.inl rfl), above⟩
    · rw [inserted] at within
      rcases mem_insert.mp within with rfl | ⟨old, -⟩
      · exact ⟨(i, cv), by simp, rfl⟩
      · obtain ⟨below, member, same⟩ := recorded.origin entry old
        exact ⟨below, by simp [member], same⟩

theorem Recorded.run (post : List (Nat × δ)) :
    ∀ (pre : List (Nat × δ)) (state after : NodeMap δ × List δ), current.entries = pre ++ post →
      Recorded hasher current n pre state.1 → post.foldlM (climbNode hasher current n) state = some after →
      Recorded hasher current n current.entries after.1 := by
  induction post with
  | nil =>
    intro pre state after split recorded run
    cases run
    rwa [split, append_nil]
  | cons entry post ih =>
    intro pre state after split recorded run
    rw [foldlM_cons] at run
    obtain ⟨middle, step, rest⟩ := bind_eq_some_iff.mp run
    exact ih (pre ++ [entry]) middle after (by simp [split]) (recorded.step split step) rest

theorem climbLevel_recorded {hasher : NodeHasher δ} {walk after : Walk δ} (step : climbLevel hasher walk = some after) :
    after.levelLen = halfUp walk.levelLen ∧
      Recorded hasher walk.current walk.levelLen walk.current.entries after.current := by
  obtain ⟨state, run, result⟩ := bind_eq_some_iff.mp step
  cases result
  exact ⟨rfl, Recorded.run walk.current.entries [] (.empty, walk.siblings) state rfl
    ⟨fun _ member => by simp at member, fun _ member => by simp at member⟩ run⟩

end MerkleProof

def MerkleTree.calls (hasher : NodeHasher Digest) (key : Digest) (data : List UInt8) : List HashCall :=
  match (build hasher.traced key data).root with
  | .ok top => top.calls
  | .error _ => []

def MerkleProof.calls (hasher : NodeHasher Digest) (self : MerkleProof Digest) : List HashCall :=
  zipWith (fun idx data => .chunk idx.toUInt64 data.bytes) self.leafIndices self.leafData ++
    match (self.mapDigests fun digest => ⟨digest, []⟩).recomputeRoot hasher.traced with
    | .ok (some top) => top.calls
    | _ => []

def CollisionFree (hasher : NodeHasher Digest) (calls : List HashCall) : Prop :=
  Set.InjOn hasher.answer { call | call ∈ calls }

theorem CollisionFree.mono {hasher : NodeHasher Digest} {calls more : List HashCall}
    (free : CollisionFree hasher more) (within : calls ⊆ more) : CollisionFree hasher calls :=
  Set.InjOn.mono within free

structure Agree (calls : List HashCall) (found expected : Traced) : Prop where
  digest : found.digest = expected.digest
  found : found.calls ⊆ calls
  expected : expected.calls ⊆ calls

section
variable {hasher : NodeHasher Digest} {calls : List HashCall} (free : CollisionFree hasher calls)
include free

theorem Agree.operands {call : Digest → Digest → HashCall} (apart : ∀ {a b c d}, call a b = call c d → a = c ∧ b = d)
    {l r l' r' : Traced}
    (agree : Agree calls ⟨hasher.answer (call l.digest r.digest), call l.digest r.digest :: (l.calls ++ r.calls)⟩
      ⟨hasher.answer (call l'.digest r'.digest), call l'.digest r'.digest :: (l'.calls ++ r'.calls)⟩) :
    Agree calls l l' ∧ Agree calls r r' := by
  obtain ⟨found, foundLeft, foundRight⟩ : _ ∈ calls ∧ l.calls ⊆ calls ∧ r.calls ⊆ calls := by simpa using agree.found
  obtain ⟨expected, expectedLeft, expectedRight⟩ : _ ∈ calls ∧ l'.calls ⊆ calls ∧ r'.calls ⊆ calls := by
    simpa using agree.expected
  obtain ⟨left, right⟩ := apart (free found expected agree.digest)
  exact ⟨⟨left, foundLeft, expectedLeft⟩, ⟨right, foundRight, expectedRight⟩⟩

theorem Agree.chunk {data data' : List UInt8} {i j : UInt64}
    (agree : Agree calls (hasher.traced.chunkCv data i) (hasher.traced.chunkCv data' j)) : data = data' := by
  have same := free (agree.found (mem_singleton.mpr rfl)) (agree.expected (mem_singleton.mpr rfl)) agree.digest
  exact (HashCall.chunk.inj same).2

theorem agree_below {walk : MerkleProof.Walk Traced} {next : NodeMap Traced} {f : Nat → Traced}
    (recorded : MerkleProof.Recorded hasher.traced walk.current walk.levelLen walk.current.entries next)
    (inRange : ∀ entry ∈ walk.current.entries, entry.1 < walk.levelLen)
    (above : ∀ entry ∈ next.entries, Agree calls entry.2 (up hasher.traced.parentCv walk.levelLen f entry.1)) :
    ∀ entry ∈ walk.current.entries, Agree calls entry.2 (f entry.1) := by
  rintro ⟨i, cv⟩ member
  have bound := inRange _ member
  obtain ⟨value, here, rule⟩ := recorded.above _ member
  have agree := above _ here
  simp only [MerkleProof.Above, up] at rule agree bound
  rcases Nat.mod_two_eq_zero_or_one i with even | odd
  · have place : 2 * (i / 2) = i := by omega
    simp only [even, ↓reduceIte] at rule
    rw [place] at agree
    cases found : walk.current.find? (i + 1) with
    | some right =>
      obtain ⟨present, key⟩ := find?_eq_some.mp found
      have partner := inRange _ present
      rw [found] at rule
      rw [if_pos (by omega), rule] at agree
      exact (agree.operands free HashCall.parent.inj).1
    | none =>
      rw [found] at rule
      by_cases partner : i + 1 < walk.levelLen
      · simp only [partner, ↓reduceIte] at rule agree
        obtain ⟨right, rfl⟩ := rule
        exact (agree.operands free HashCall.parent.inj).1
      -- the last node of an odd level is carried up as it is
      · simp only [partner, ↓reduceIte] at rule agree
        rwa [rule] at agree
  · have place : 2 * (i / 2) + 1 = i := by omega
    have notEven : ¬ i % 2 = 0 := by omega
    simp only [notEven, ↓reduceIte] at rule
    rw [place, if_pos bound] at agree
    obtain ⟨left, rfl⟩ : ∃ left, value = hasher.traced.parentCv left cv := by
      split at rule
      · exact ⟨_, rule⟩
      · exact rule
    exact (agree.operands free HashCall.parent.inj).2

/-- Agreement of the root goes down to every leaf that the walk started from. -/
theorem climb_agree {n : Nat} (large : 2 ≤ n) {f : Nat → Traced} {current : NodeMap Traced} {siblings rest : List Traced}
    {left right : Traced} (inRange : ∀ entry ∈ current.entries, entry.1 < n)
    (walk : MerkleProof.climb hasher.traced ⟨n, current, siblings⟩ = some (left, right, rest))
    (agree : Agree calls (hasher.traced.rootCv left right)
      (treeRoot hasher.traced.parentCv hasher.traced.rootCv f n)) :
    ∀ entry ∈ current.entries, Agree calls entry.2 (f entry.1) := by
  induction n using Nat.strong_induction_on generalizing f current siblings with
  | _ n ih =>
    rcases (show n = 2 ∨ 3 ≤ n by omega) with rfl | more
    · rw [treeRoot_two] at agree
      obtain ⟨first, second⟩ := agree.operands free HashCall.root.inj
      rw [MerkleProof.climb_of_small _ (Nat.le_refl 2)] at walk
      obtain ⟨⟨l, middle⟩, takeLeft, walk⟩ := bind_eq_some_iff.mp walk
      obtain ⟨⟨r, last⟩, takeRight, result⟩ := bind_eq_some_iff.mp walk
      cases result
      rintro ⟨i, cv⟩ member
      have bound := inRange _ member
      have known := find?_eq_some.mpr ⟨member, rfl⟩
      rcases (show i = 0 ∨ i = 1 by omega) with rfl | rfl
      · simp only [MerkleProof.nodeOrSibling, known, Option.some.injEq, Prod.mk.injEq] at takeLeft
        rwa [takeLeft.1]
      · simp only [MerkleProof.nodeOrSibling, known, Option.some.injEq, Prod.mk.injEq] at takeRight
        rwa [takeRight.1]
    -- the level above agrees by induction, and its parents then have the same children
    · rw [MerkleProof.climb_of_large _ more] at walk
      obtain ⟨⟨len, next, remaining⟩, step, walk⟩ := bind_eq_some_iff.mp walk
      obtain ⟨rfl, recorded⟩ := MerkleProof.climbLevel_recorded step
      have nextRange : ∀ entry ∈ next.entries, entry.1 < halfUp n := by
        intro entry member
        obtain ⟨below, here, same⟩ := recorded.origin entry member
        have bound := inRange below here
        simp only [halfUp]
        omega
      rw [← treeRoot_up _ _ f more] at agree
      exact agree_below free recorded inRange
        (ih (halfUp n) (halfUp_lt large) (leftCount_halfUp more).2 nextRange walk agree)

end

theorem mapDigests_digest (self : MerkleProof Digest) :
    (self.mapDigests fun digest => (⟨digest, []⟩ : Traced)).mapDigests Traced.digest = self := by
  simp [MerkleProof.mapDigests, Function.comp_def]

theorem windowsIncrease_pairwise {xs : List Nat} (increase : MerkleProof.windowsIncrease xs = true) :
    xs.Pairwise (· < ·) := by
  rw [← isChain_iff_pairwise]
  induction xs using MerkleProof.windowsIncrease.induct with
  | case1 first second rest ih =>
    simp only [MerkleProof.windowsIncrease, Bool.and_eq_true, decide_eq_true_eq] at increase
    exact List.IsChain.cons_cons increase.1 (ih increase.2)
  | case2 xs short =>
    match xs with
    | [] => exact .nil
    | [x] => exact .singleton x
    | first :: second :: rest => exact absurd rfl (short first second rest)

theorem sanityCheck_ok {δ : Type} {self : MerkleProof δ} (sane : self.sanityCheck = .ok ()) :
    self.leafIndices ≠ [] ∧ self.leafIndices.length = self.leafData.length ∧
      self.leafIndices.Pairwise (· < ·) := by
  obtain ⟨_, first, sane⟩ := bind_eq_ok.mp sane
  obtain ⟨_, second, third⟩ := bind_eq_ok.mp sane
  rw [ensure_eq_ok] at first second third
  exact ⟨by simpa using first, by simpa using second, windowsIncrease_pairwise third⟩

theorem zip_zipWith {α β γ : Type} (f : α → β → γ) (xs : List α) (ys : List β) :
    xs.zip (zipWith f xs ys) = (xs.zip ys).map fun pair => (pair.1, f pair.1 pair.2) := by
  induction xs generalizing ys with
  | nil => rfl
  | cons x xs ih =>
    cases ys with
    | nil => rfl
    | cons y ys => simp [ih]

theorem entries_leaves {δ : Type} (hasher : NodeHasher δ) {self : MerkleProof δ} (sane : self.sanityCheck = .ok ()) :
    (self.leaves hasher).entries = (self.leafIndices.zip self.leafData).map
      fun pair => (pair.1, hasher.chunkCv pair.2.bytes pair.1.toUInt64) := by
  obtain ⟨-, lengths, increase⟩ := sanityCheck_ok sane
  rw [← zip_zipWith fun (idx : Nat) (data : Chunk) => hasher.chunkCv data.bytes idx.toUInt64]
  refine entries_collect (pairwise_map.mp ?_)
  rwa [map_fst_zip (by simp [MerkleProof.leafHashes, lengths])]

theorem recomputeRoot_cases {δ : Type} {hasher : NodeHasher δ} {self : MerkleProof δ} (several : self.totalLeaves ≠ 1)
    {top : δ} (accepted : self.recomputeRoot hasher = .ok (some top)) :
    ∃ left right, MerkleProof.climb hasher ⟨self.totalLeaves, self.leaves hasher, self.siblings⟩ =
      some (left, right, []) ∧ top = hasher.rootCv left right := by
  unfold MerkleProof.recomputeRoot at accepted
  by_cases none : self.leafIndices.isEmpty = true
  · simp [none] at accepted
  · rw [if_neg none, if_neg several] at accepted
    cases walk : MerkleProof.climb hasher ⟨self.totalLeaves, self.leaves hasher, self.siblings⟩ with
    | none => simp [walk] at accepted
    | some result =>
      obtain ⟨left, right, rest⟩ := result
      cases rest with
      | cons => simp [walk] at accepted
      | nil =>
        simp only [walk, bind_eq_bind, bind_some, isEmpty_nil, ↓reduceIte, Except.ok.injEq,
          Option.some.injEq] at accepted
        exact ⟨left, right, rfl, accepted.symm⟩

theorem agree_leaves {hasher : NodeHasher Digest} (lawful : hasher.Lawful) (key : Digest) {data : List UInt8}
    (fits : data.length < 2 ^ 63) (large : 1024 < data.length) {self : MerkleProof Digest}
    (sane : self.sanityCheck = .ok ()) (total : self.totalLeaves = chunkCount data.length)
    (free : CollisionFree hasher (calls hasher key data ++ self.calls hasher))
    (accepted : self.recomputeRoot hasher = some <$> (build hasher key data).root)
    (inRange : ∀ i ∈ self.leafIndices, i < self.totalLeaves) :
    ∀ pair ∈ self.leafIndices.zip self.leafData, pair.2.bytes = chunkAt data pair.1 := by
  have two : 2 ≤ self.totalLeaves := by
    rw [total, chunkCount]
    omega
  let tracing : MerkleProof Traced := self.mapDigests fun digest => ⟨digest, []⟩
  have tracedRoot := root_build (traced_lawful lawful) key fits large
  rw [← total] at tracedRoot
  -- The traced run is accepted with the digest of the plain run.
  have plain := MerkleProof.recomputeRoot_map (traced_hom hasher) tracing
  rw [mapDigests_digest, accepted, root_build lawful key fits large, ← total] at plain
  obtain ⟨top, run, digest⟩ : ∃ top, tracing.recomputeRoot hasher.traced = .ok (some top) ∧
      treeRoot hasher.parentCv hasher.rootCv (hasher.leaf data) self.totalLeaves = top.digest := by
    cases run : tracing.recomputeRoot hasher.traced with
    | error why => simp [run, Except.map] at plain
    | ok result =>
      cases result with
      | none => simp [run, Except.map] at plain
      | some top => exact ⟨top, rfl, by simpa [run, Except.map] using plain⟩
  have several : tracing.totalLeaves ≠ 1 := fun single => by
    change self.totalLeaves = 1 at single
    omega
  obtain ⟨left, right, walk, rfl⟩ := recomputeRoot_cases several run
  have agree : Agree (calls hasher key data ++ self.calls hasher)
      (hasher.traced.rootCv left right)
      (treeRoot hasher.traced.parentCv hasher.traced.rootCv (hasher.traced.leaf data) self.totalLeaves) := by
    refine ⟨?_, ?_, ?_⟩
    · rw [← digest, treeRoot_map Traced.digest (traced_hom hasher).parentCv (traced_hom hasher).rootCv]
      rfl
    · intro call member
      simp only [MerkleProof.calls, mem_append]
      refine Or.inr (Or.inr ?_)
      rw [run]
      exact member
    · intro call member
      rw [mem_append, calls, tracedRoot]
      exact Or.inl member
  have traceLeaves : (tracing.leaves hasher.traced).entries = (self.leafIndices.zip self.leafData).map
      fun pair => (pair.1, hasher.traced.chunkCv pair.2.bytes pair.1.toUInt64) :=
    entries_leaves hasher.traced sane
  have inRangeLeaves : ∀ entry ∈ (tracing.leaves hasher.traced).entries, entry.1 < self.totalLeaves := by
    intro entry member
    rw [traceLeaves] at member
    obtain ⟨pair, here, rfl⟩ := mem_map.mp member
    exact inRange _ (of_mem_zip here).1
  have leaves := climb_agree free two (f := hasher.traced.leaf data) inRangeLeaves walk agree
  rintro ⟨idx, chunk⟩ member
  have leaf := leaves (idx, hasher.traced.chunkCv chunk.bytes idx.toUInt64) (by
    rw [traceLeaves]
    exact mem_map.mpr ⟨(idx, chunk), member, rfl⟩)
  exact leaf.chunk free

/-- The leaves of an accepted proof are the chunks of the data exactly when no leaf index lies outside the
tree: neither `sanity_check` nor `compute_root` looks at the range of the indices. -/
theorem multileaf_proof_sound_iff {crate : Blake3Crate} (conforms : crate.Conforms) (key : Digest) (data : Slice)
    (aligned : 1024 ∣ data.bytes.length) (chunks : 2 ≤ data.bytes.length / 1024) (proof : MerkleProof Digest)
    (total : proof.totalLeaves = data.bytes.length / 1024)
    (free : CollisionFree ((withKey key).nodes crate)
      (calls ((withKey key).nodes crate) key data.bytes ++
        proof.calls ((withKey key).nodes crate))) (sane : proof.sanityCheck = .ok ())
    (accepted : proof.computeRoot crate key = some <$> (new crate data key).root) :
    (∀ pair ∈ proof.leafIndices.zip proof.leafData,
      pair.1 < proof.totalLeaves ∧ pair.2.bytes = chunkAt data.bytes pair.1) ↔
    ∀ i ∈ proof.leafIndices, i < proof.totalLeaves := by
  have count : data.bytes.length / 1024 = chunkCount data.bytes.length := by
    simp only [chunkCount]
    omega
  constructor
  · intro genuine i member
    obtain ⟨-, lengths, -⟩ := sanityCheck_ok sane
    have opened : i ∈ (proof.leafIndices.zip proof.leafData).map Prod.fst := by
      rwa [map_fst_zip (by omega)]
    obtain ⟨pair, here, rfl⟩ := mem_map.mp opened
    exact (genuine pair here).1
  · intro inRange pair member
    have agree := agree_leaves (nodes_lawful conforms key) key data.fits (by omega) sane
      (by rw [total, count]) free accepted inRange
    exact ⟨inRange _ (of_mem_zip member).1, agree pair member⟩

section zeros
open Blake3 (zeroKey zeroChunk)

def zeroProof (indices : List Nat) : MerkleProof Digest :=
  ⟨indices.map fun _ => ⟨zeroChunk, Blake3.length_zeroChunk⟩, indices, 2, default, []⟩

def zeroHasher : NodeHasher Digest := (withKey zeroKey).nodes .reference

def zeroCalls : List HashCall :=
  [.root (zeroHasher.chunkCv zeroChunk 0) (zeroHasher.chunkCv zeroChunk 1), .chunk 0 zeroChunk,
    .chunk 1 zeroChunk, .chunk 5 zeroChunk]

theorem zeroHasher_chunkCv {i : UInt64} (small : i.toNat < 2 ^ 54) :
    zeroHasher.chunkCv zeroChunk i = chunkCv (.keyed zeroKey) i zeroChunk :=
  chunkCv_eq Blake3Crate.reference_conforms zeroKey small (by rw [zeroChunk, length_replicate]; decide)
    (by rw [zeroChunk, length_replicate])

theorem zeroCalls_free : CollisionFree zeroHasher zeroCalls := by
  have answers : zeroCalls.map zeroHasher.answer =
      [Blake3.rootCv (.keyed zeroKey) (chunkCv (.keyed zeroKey) 0 zeroChunk)
          (chunkCv (.keyed zeroKey) 1 zeroChunk),
        chunkCv (.keyed zeroKey) 0 zeroChunk, chunkCv (.keyed zeroKey) 1 zeroChunk,
        chunkCv (.keyed zeroKey) 5 zeroChunk] := by
    simp only [zeroCalls, map_cons, map_nil, NodeHasher.answer,
      zeroHasher_chunkCv (i := 0) (by decide), zeroHasher_chunkCv (i := 1) (by decide),
      zeroHasher_chunkCv (i := 5) (by decide)]
    rfl
  have distinct : (zeroCalls.map zeroHasher.answer).Nodup := by
    rw [answers, Blake3.chunkCv_zero_first, Blake3.chunkCv_zero_second, Blake3.chunkCv_zero_sixth]
    decide +kernel
  intro a ha b hb
  exact inj_on_of_nodup_map distinct ha hb

theorem zeroTree_root {δ : Type} [Inhabited δ] {hasher : NodeHasher δ} (lawful : hasher.Lawful) :
    (build hasher zeroKey (zeros 2048 (by decide)).bytes).root =
      .ok (hasher.rootCv (hasher.chunkCv zeroChunk 0) (hasher.chunkCv zeroChunk 1)) := by
  rw [root_build lawful zeroKey (zeros 2048 (by decide)).fits
    (by rw [length_zeros]; decide), length_zeros, show chunkCount 2048 = 2 from rfl, treeRoot_two]
  simp only [NodeHasher.leaf, zeros, chunkAt, drop_replicate, take_replicate]
  rfl

theorem zeroHasher_lawful : zeroHasher.Lawful := nodes_lawful Blake3Crate.reference_conforms zeroKey

theorem zeroProof_free {extra : List Nat} (known : extra = [] ∨ extra = [5]) :
    CollisionFree zeroHasher (calls zeroHasher zeroKey (zeros 2048 (by decide)).bytes ++
      (zeroProof ([0, 1] ++ extra)).calls zeroHasher) := by
  have within : calls zeroHasher zeroKey (zeros 2048 (by decide)).bytes ++
      (zeroProof ([0, 1] ++ extra)).calls zeroHasher ⊆ zeroCalls := by
    rw [calls, zeroTree_root (traced_lawful zeroHasher_lawful)]
    rcases known with rfl | rfl
    · rw [show (zeroProof ([0, 1] ++ [])).calls zeroHasher = [.chunk 0 zeroChunk, .chunk 1 zeroChunk,
        .root (zeroHasher.chunkCv zeroChunk 0) (zeroHasher.chunkCv zeroChunk 1), .chunk 0 zeroChunk,
        .chunk 1 zeroChunk] from rfl]
      simp [zeroCalls, NodeHasher.traced]
    · rw [show (zeroProof ([0, 1] ++ [5])).calls zeroHasher = [.chunk 0 zeroChunk, .chunk 1 zeroChunk,
        .chunk 5 zeroChunk, .root (zeroHasher.chunkCv zeroChunk 0) (zeroHasher.chunkCv zeroChunk 1),
        .chunk 0 zeroChunk, .chunk 1 zeroChunk] from rfl]
      simp [zeroCalls, NodeHasher.traced]
  exact zeroCalls_free.mono within

theorem zeroProof_accepted {extra : List Nat} (known : extra = [] ∨ extra = [5]) :
    (zeroProof ([0, 1] ++ extra)).computeRoot .reference zeroKey =
      some <$> (new .reference (.zeros 2048 (by decide)) zeroKey).root := by
  have root : (new .reference (.zeros 2048 (by decide)) zeroKey).root =
      .ok (zeroHasher.rootCv (zeroHasher.chunkCv zeroChunk 0) (zeroHasher.chunkCv zeroChunk 1)) :=
    zeroTree_root zeroHasher_lawful
  rw [root]
  rcases known with rfl | rfl <;> rfl

/-- Leaf 5 of a tree with two leaves is accepted. -/
theorem multileaf_proof_out_of_range :
    CollisionFree zeroHasher (calls zeroHasher zeroKey (zeros 2048 (by decide)).bytes ++
      (zeroProof [0, 1, 5]).calls zeroHasher) ∧
    (zeroProof [0, 1, 5]).sanityCheck = .ok () ∧
    (zeroProof [0, 1, 5]).computeRoot .reference zeroKey =
      some <$> (new .reference (.zeros 2048 (by decide)) zeroKey).root ∧
    ∃ pair ∈ (zeroProof [0, 1, 5]).leafIndices.zip (zeroProof [0, 1, 5]).leafData,
      ¬ pair.1 < (zeroProof [0, 1, 5]).totalLeaves := by
  refine ⟨zeroProof_free (Or.inr rfl), rfl, zeroProof_accepted (Or.inr rfl),
    (5, ⟨zeroChunk, length_replicate⟩), ?_, by decide⟩
  simp [zeroProof]

theorem multileaf_proof_sound_iff_zeros : (∀ pair ∈ (zeroProof [0, 1]).leafIndices.zip (zeroProof [0, 1]).leafData,
      pair.1 < (zeroProof [0, 1]).totalLeaves ∧
        pair.2.bytes = chunkAt (zeros 2048 (by decide)).bytes pair.1) ↔
    ∀ i ∈ (zeroProof [0, 1]).leafIndices, i < (zeroProof [0, 1]).totalLeaves :=
  multileaf_proof_sound_iff Blake3Crate.reference_conforms zeroKey (.zeros 2048 (by decide))
    (by rw [length_zeros]; decide) (by rw [length_zeros]) (zeroProof [0, 1])
    (by rw [length_zeros]; rfl) (zeroProof_free (Or.inl rfl)) rfl (zeroProof_accepted (Or.inl rfl))
end zeros
end ArcMiner.PearlBlake3
