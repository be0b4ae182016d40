import ArcMiner.PearlGemm.NoisedRows
import ArcMiner.PearlGemm.TgemmTranscript

/-! The ranges of noise, noised entries and accumulators.

Uniform entries have six bits, noise is a difference of two of them, and a noised entry adds a
secret of seven bits. A product of two noised entries is below 2^14, so an `int` holds more than
2^17 of them. The fold takes products 32 at a time, whatever the rank is.
-/

namespace ArcMiner.PearlGemm

open Library Spec AkoyaCrypto AkoyaCrypto.NoiseGenerator AkoyaCrypto.JackpotComputer List Int32
open Blake3 (zeroKey)

section fold
variable (xmx : Xmx) (blocking : Blocking) (viaMem : Bool) (args : TgemmArgs) (grpRow grpCol : Nat)

def groupAfter (blocks : Nat) : GroupState :=
  (range blocks).foldl
    (fun state j => snapBlock xmx blocking viaMem args grpRow grpCol state (j * rVal blocking args))
    ⟨fun _ _ _ _ => 0, fun _ => 0, 0⟩

def accumulatorsAt (blocks steps : Nat) : Accumulators :=
  (range steps).foldl
    (fun mC j => doKsStep xmx blocking args grpRow grpCol (blocks * rVal blocking args) (32 * j) mC)
    (groupAfter xmx blocking viaMem args grpRow grpCol blocks).mC

def chunk (row col k0 : Nat) : Int :=
  ∑ j ∈ Finset.range 32, rowEntries args row (k0 + j) * colEntries args col (k0 + j)

def added (r row col blocks steps : Nat) : Int :=
  ∑ block ∈ Finset.range blocks, ∑ j ∈ Finset.range ((r + 31) / 32), chunk args row col (block * r + 32 * j) +
    ∑ j ∈ Finset.range steps, chunk args row col (blocks * r + 32 * j)

section sums
variable {xmx blocking viaMem args grpRow grpCol} (exact : xmx.Exact blocking.sg) {r t i c : Nat} (row : i < 8)
  (col : c < blocking.sg)
include exact row col

theorem doKsStep_chunk (kb ks : Nat) (mC : Accumulators) :
    doKsStep xmx blocking args grpRow grpCol kb ks mC r t i c = mC r t i c +
      ofInt (chunk args (fragmentRow blocking grpRow r + i) (fragmentCol blocking grpCol t + c) (kb + ks)) := by
  have left : ∀ j, fragmentRow blocking grpRow r * args.k + (kb + ks) + i * args.k + j =
      (fragmentRow blocking grpRow r + i) * args.k + (kb + ks + j) := fun j => by ring
  have right : ∀ j, (kb + ks) * args.stride + fragmentCol blocking grpCol t + j * args.stride + c =
      (kb + ks + j) * args.stride + (fragmentCol blocking grpCol t + c) := fun j => by ring
  unfold doKsStep
  rw [exact.mad _ _ _ i c row col]
  simp only [load, left, right]
  rfl

theorem steps_chunks (kb steps : Nat) (mC : Accumulators) :
    (range steps).foldl (fun mC j => doKsStep xmx blocking args grpRow grpCol kb (32 * j) mC) mC r t i c =
      mC r t i c + ofInt (∑ j ∈ Finset.range steps,
        chunk args (fragmentRow blocking grpRow r + i) (fragmentCol blocking grpCol t + c) (kb + 32 * j)) := by
  induction steps with
  | zero => simp
  | succ steps ih =>
    rw [range_succ, foldl_append, foldl_cons, foldl_nil, doKsStep_chunk exact row col, ih,
      Finset.sum_range_succ, Int32.ofInt_add, Int32.add_assoc]

theorem groupAfter_chunks (blocks : Nat) :
    (groupAfter xmx blocking viaMem args grpRow grpCol blocks).mC r t i c =
      ofInt (∑ block ∈ Finset.range blocks, ∑ j ∈ Finset.range ((rVal blocking args + 31) / 32),
        chunk args (fragmentRow blocking grpRow r + i) (fragmentCol blocking grpCol t + c)
          (block * rVal blocking args + 32 * j)) := by
  induction blocks with
  | zero => simp [groupAfter]
  | succ blocks ih =>
    have next : (groupAfter xmx blocking viaMem args grpRow grpCol (blocks + 1)).mC =
        blockSteps xmx blocking args grpRow grpCol (blocks * rVal blocking args)
          (groupAfter xmx blocking viaMem args grpRow grpCol blocks).mC := by
      unfold groupAfter
      rw [range_succ, foldl_append]
      rfl
    rw [next, blockSteps, steps_chunks exact row col, ih, Finset.sum_range_succ, ofInt_add]

theorem accumulatorsAt_eq (blocks steps : Nat) :
    accumulatorsAt xmx blocking viaMem args grpRow grpCol blocks steps r t i c =
      ofInt (added args (rVal blocking args) (fragmentRow blocking grpRow r + i)
        (fragmentCol blocking grpCol t + c) blocks steps) := by
  rw [accumulatorsAt, steps_chunks exact row col, groupAfter_chunks exact row col, added, ofInt_add]

end sums

variable {args} {r row col : Nat}

theorem sum_chunks (start steps : Nat) :
    ∑ j ∈ Finset.range steps, chunk args row col (start + 32 * j) =
      ∑ l ∈ Finset.range (32 * steps), rowEntries args row (start + l) * colEntries args col (start + l) := by
  induction steps with
  | zero => rfl
  | succ steps ih =>
    rw [Finset.sum_range_succ, ih, Nat.mul_succ, Finset.sum_range_add, chunk]
    simp only [Nat.add_assoc]

theorem added_eq (multiple : 32 ∣ r) (blocks steps : Nat) :
    added args r row col blocks steps =
      ∑ l ∈ Finset.range (blocks * r + 32 * steps), rowEntries args row l * colEntries args col l := by
  have whole : 32 * ((r + 31) / 32) = r := by omega
  have before : ∑ block ∈ Finset.range blocks, ∑ j ∈ Finset.range ((r + 31) / 32),
      chunk args row col (block * r + 32 * j) =
      ∑ l ∈ Finset.range (blocks * r), rowEntries args row l * colEntries args col l := by
    simp only [sum_chunks, whole]
    exact (sum_range_segments (fun l => rowEntries args row l * colEntries args col l) blocks r).symm
  rw [added, before, sum_chunks, Finset.sum_range_add]

end fold

theorem addStores_exact {a : Buffer} {e : Nat → Int32} {n : Int} {t : Nat} {store : Nat × Int8}
    (member : store ∈ addStores a e n t) (secret : (a store.1).toInt.natAbs ≤ 63) (noise : (e store.1).toInt.natAbs ≤ 63) :
    store.2.toInt = (a store.1).toInt + (e store.1).toInt := by
  have value : store.2 = a store.1 + (e store.1).toInt8 := by
    unfold addStores at member
    generalize int32 (int32 t * 4) = first at member
    dsimp only at member
    split_ifs at member
    · generalize sizeT first = p at member
      obtain ⟨lane, inside, rfl⟩ := mem_map.mp member
      exact wordByte_addWord p (mem_range.mp inside)
    · obtain ⟨j, -, rfl⟩ := mem_map.mp member
      rfl
    · cases member
  have byte : (e store.1).toInt8.toInt = (e store.1).toInt := by
    rw [toInt_toInt8, Int.bmod_eq_of_le] <;> omega
  rw [value, Int8.toInt_add, byte, Int.bmod_eq_of_le] <;> omega

structure NoisedArgs (labelA labelB : List UInt8) (seeds : Seeds) (a b bpEB : Buffer) (args : TgemmArgs) : Prop where
  rows : ∀ row < args.m, NoisedRow labelA seeds.a args.k args.r a args.apEA row
  cols : ∀ col < args.n, NoisedRow labelB seeds.b args.k args.r b bpEB col
  transposed : ∀ col < args.n, ∀ l < args.k, args.bt (l * args.stride + col) = bpEB (col * args.k + l)
  secretA : ∀ row < args.m, ∀ l < args.k, (a (row * args.k + l)).toInt.natAbs ≤ 63
  secretB : ∀ col < args.n, ∀ l < args.k, (b (col * args.k + l)).toInt.natAbs ≤ 63

theorem natAbs_getD_le {row : List Int8} {bound : Nat} (bounded : Bounded bound row) (l : Nat) :
    (row.getD l 0).toInt.natAbs ≤ bound := by
  rw [getD_eq_getElem?_getD]
  cases found : row[l]? with
  | none => exact Nat.zero_le bound
  | some x => exact bounded x (mem_of_getElem? found)

theorem NoisedRow.natAbs_le {label : List UInt8} {seed : Digest} {k r row l : Nat} {secret out : Buffer}
    (noised : NoisedRow label seed k r secret out row) (inside : l < k)
    (small : (secret (row * k + l)).toInt.natAbs ≤ 63) : (out (row * k + l)).toInt.natAbs ≤ 126 := by
  obtain ⟨noise, returned, -, entries⟩ := noised
  have bounded := natAbs_getD_le (noiseRows_bounded returned noise (by simp)) l
  rw [(entries l inside).2 (by omega) (by omega)]
  omega

section args
variable {labelA labelB : List UInt8} {seeds : Seeds} {a b bpEB : Buffer} {args : TgemmArgs}
  (noised : NoisedArgs labelA labelB seeds a b bpEB args)
include noised

theorem accumulatorsAt_exact {xmx : Xmx} {viaMem : Bool} {blocking : Blocking} (exact : xmx.Exact blocking.sg)
    (rank : rVal blocking args = args.r) (multiple : 32 ∣ args.r) (short : args.k ≤ 131072) {grpRow grpCol blocks steps : Nat}
    (inside : blocks * args.r + 32 * steps ≤ args.k) {r t i c : Nat} (row : i < 8) (col : c < blocking.sg)
    (inRow : fragmentRow blocking grpRow r + i < args.m) (inCol : fragmentCol blocking grpCol t + c < args.n) :
    (accumulatorsAt xmx blocking viaMem args grpRow grpCol blocks steps r t i c).toInt =
        added args args.r (fragmentRow blocking grpRow r + i) (fragmentCol blocking grpCol t + c) blocks steps ∧
      (added args args.r (fragmentRow blocking grpRow r + i) (fragmentCol blocking grpCol t + c) blocks steps).natAbs ≤
        131072 * 126 ^ 2 := by
  have left : ∀ l < blocks * args.r + 32 * steps, (rowEntries args (fragmentRow blocking grpRow r + i) l).natAbs ≤ 126 :=
    fun l below => (noised.rows _ inRow).natAbs_le (by omega) (noised.secretA _ inRow l (by omega))
  have right : ∀ l < blocks * args.r + 32 * steps, (colEntries args (fragmentCol blocking grpCol t + c) l).natAbs ≤ 126 :=
    fun l below => by
      rw [colEntries, noised.transposed _ inCol l (by omega)]
      exact (noised.cols _ inCol).natAbs_le (by omega) (noised.secretB _ inCol l (by omega))
  rw [accumulatorsAt_eq exact row col, rank, added_eq multiple]
  exact ⟨toInt_dot left right (by omega),
    (natAbs_sum_mul_le left right).trans (Nat.mul_le_mul_right _ (by omega))⟩

end args

theorem natAbs_noised_le {secret noise : List (List Int8)} (secrets : ∀ row ∈ secret, Bounded 63 row)
    (noises : ∀ row ∈ noise, Bounded 63 row) (u l : Nat) : (noised secret noise u l).natAbs ≤ 126 := by
  have bounded : ∀ {rows : List (List Int8)}, (∀ row ∈ rows, Bounded 63 row) → Bounded 63 (rows.getD u []) := by
    intro rows all
    rw [getD_eq_getElem?_getD]
    cases found : rows[u]? with
    | none => exact fun x member => absurd member not_mem_nil
    | some row => exact all row (mem_of_getElem? found)
  have left := natAbs_getD_le (bounded secrets) l
  have right := natAbs_getD_le (bounded noises) l
  unfold noised
  omega

theorem noiseRows_shaped {label : List UInt8} {seed : Digest} {rowIndices : List Nat} {k r : Nat} (columns : k < 2 ^ 31)
    {noise : List (List Int8)} (returned : noiseRows label seed rowIndices k r = .ok noise) :
    Shaped noise rowIndices.length k := by
  obtain ⟨height, width⟩ := length_noiseRows columns returned
  refine ⟨height, fun u row => width _ ?_⟩
  rw [getD_eq_getElem?_getD, getElem?_eq_getElem (by omega)]
  exact getElem_mem _

/-- Nothing wraps between the noise and the folded accumulators: on the host for every rank, in the fold for the ranks
whose blocks are whole matrix products and divide the row. -/
theorem integer_ranges {r e : Nat} (power : r = 2 ^ e) (proper : 2 ≤ r) (fits : r < 2 ^ 31) :
    (∀ seed key k perm, generatePermutationMatrix seed key k r = .ok perm → ∀ p ∈ perm,
      p.firstIndex ≠ p.secondIndex ∧ p.firstIndex.toNat < r ∧ p.secondIndex.toNat < r) ∧
    (∀ seed key rowIndices k noise, noiseRows seed key rowIndices k r = .ok noise → (∀ row ∈ noise, Bounded 63 row) ∧
      ∀ secret, (∀ row ∈ secret, Bounded 63 row) → ∀ u l, -128 ≤ noised secret noise u l ∧ noised secret noise u l ≤ 127) ∧
    (∀ (a : Buffer) (e : Nat → Int32) (n : Int) (t : Nat), ∀ store ∈ addStores a e n t,
      (a store.1).toInt.natAbs ≤ 63 → (e store.1).toInt.natAbs ≤ 63 →
      store.2.toInt = (a store.1).toInt + (e store.1).toInt) ∧
    (∀ (labelA labelB : List UInt8) (seeds : Seeds) (rowsA rowsB : List Nat) (k : Nat) (rows : Rows), k ≤ 131072 →
      Shaped rows.secretA rowsA.length k → (∀ row ∈ rows.secretA, Bounded 63 row) →
      Shaped rows.secretB rowsB.length k → (∀ row ∈ rows.secretB, Bounded 63 row) →
      noiseRows labelA seeds.a rowsA k r = .ok rows.noiseA → noiseRows labelB seeds.b rowsB k r = .ok rows.noiseB →
      ∀ n state, loopAfter rowsA.length rowsB.length k r rows n = .ok state → state.ll ≤ k →
      ∀ u < rowsA.length, ∀ v < rowsB.length, ∀ more ≤ r, ∃ acc,
        addProducts rows u v (int32 (state.ll - r)) (int32 (state.ll - r) + more) ((state.tile.getD u []).getD v 0) =
          .ok acc ∧
        acc.toInt = partialSum rows u v ((state.ll - r).toNat + more) ∧
        (partialSum rows u v ((state.ll - r).toNat + more)).natAbs ≤ 131072 * 126 ^ 2) ∧
    (∀ (xmx : Xmx) (viaMem : Bool) (tuning : Tuning) (args : TgemmArgs) (labelA labelB : List UInt8) (seeds : Seeds)
      (a b bpEB : Buffer), xmx.Exact tuning.sg → args.r = r → 32 ∣ r → r ∣ args.k → args.k ≤ 131072 →
      NoisedArgs labelA labelB seeds a b bpEB args →
      ∀ grpRow grpCol, ∀ blocks < args.k / r, ∀ steps ≤ r / 32, ∀ part t, ∀ i < 8, ∀ c < tuning.sg,
      fragmentRow (dispatch tuning args) grpRow part + i < args.m → fragmentCol (dispatch tuning args) grpCol t + c < args.n →
      (accumulatorsAt xmx (dispatch tuning args) viaMem args grpRow grpCol blocks steps part t i c).toInt =
          added args r (fragmentRow (dispatch tuning args) grpRow part + i)
            (fragmentCol (dispatch tuning args) grpCol t + c) blocks steps ∧
        (added args r (fragmentRow (dispatch tuning args) grpRow part + i)
          (fragmentCol (dispatch tuning args) grpCol t + c) blocks steps).natAbs ≤ 131072 * 126 ^ 2) := by
  refine ⟨fun seed key k perm returned => generatePermutationMatrix_range power fits proper returned, ?_,
    fun a e n t store member => addStores_exact member, ?_, ?_⟩
  · intro seed key rowIndices k noise returned
    have bounded := noiseRows_bounded returned
    refine ⟨bounded, fun secret secrets u l => ?_⟩
    have small := natAbs_noised_le secrets bounded u l
    omega
  · intro labelA labelB seeds rowsA rowsB k rows short aShaped aSecret bShaped bSecret aNoise bNoise n state reached running
      u row v col more inside
    exact accumulators_exact aShaped bShaped (noiseRows_shaped (by omega) aNoise) (noiseRows_shaped (by omega) bNoise)
      (by omega) short (fun u _ l _ => natAbs_noised_le aSecret (noiseRows_bounded aNoise) u l)
      (fun v _ l _ => natAbs_noised_le bSecret (noiseRows_bounded bNoise) v l) reached running row col inside
  · intro xmx viaMem tuning args labelA labelB seeds a b bpEB exact rank multiple divides short noised grpRow grpCol blocks
      more steps within part t i row c col inRow inCol
    obtain ⟨sg, whole, -, -⟩ := dispatch_spec tuning args
    have inside : blocks * r + 32 * steps ≤ args.k := by
      have last := Nat.mul_le_mul_right r more
      rw [Nat.div_mul_cancel divides, Nat.succ_mul] at last
      omega
    subst rank
    exact accumulatorsAt_exact noised (sg ▸ exact) whole multiple short inside row (sg ▸ col) inRow inCol

section constant

def constantNoised (label : List UInt8) (k r : Nat) (secret : Int8) : Buffer := fun p =>
  secret + noise zeroKey label r (uniformFactor zeroKey label r (p / k)) (p % k)

def constantArgs (k r : Nat) (secretA secretB : Int8) : TgemmArgs where
  apEA := constantNoised seedLabelA k r secretA
  bt p := constantNoised seedLabelB k r secretB (p % 16 * k + p / 16)
  m := 16
  n := 16
  k := k
  r := r
  nStride := 0

theorem constantNoised_row {label : List UInt8} {k r e : Nat} (power : r = 2 ^ e) (proper : 2 ≤ r) (columns : k < 2 ^ 31)
    (fits : 16 * r < 2 ^ 31) (secret : Int8) {row : Nat} (inRow : row < 16) :
    NoisedRow label zeroKey k r (fun _ => secret) (constantNoised label k r secret) row := by
  refine noisedRow_of_eq power proper columns fits inRow fun l inside => ?_
  rw [constantNoised, segment_div inside, segment_mod inside]

theorem constantArgs_noised {k r e : Nat} (power : r = 2 ^ e) (proper : 2 ≤ r) (columns : k < 2 ^ 31) (fits : 16 * r < 2 ^ 31)
    {secretA secretB : Int8} (smallA : secretA.toInt.natAbs ≤ 63) (smallB : secretB.toInt.natAbs ≤ 63) :
    NoisedArgs seedLabelA seedLabelB ⟨zeroKey, zeroKey⟩ (fun _ => secretA) (fun _ => secretB)
      (constantNoised seedLabelB k r secretB) (constantArgs k r secretA secretB) where
  rows _ inRow := constantNoised_row power proper columns fits secretA inRow
  cols _ inCol := constantNoised_row power proper columns fits secretB inCol
  transposed col inCol l _ := by
    have narrow : col < 16 := inCol
    have place : (l * 16 + col) % 16 * k + (l * 16 + col) / 16 = col * k + l := by
      rw [segment_mod narrow, segment_div narrow]
    exact congrArg (constantNoised seedLabelB k r secretB) place
  secretA _ _ _ _ := smallA
  secretB _ _ _ _ := smallB

theorem integer_ranges_rank_32 :
    ∃ perm noiseA noiseB, generatePermutationMatrix seedLabelA zeroKey 32 32 = .ok perm ∧
      (∀ p ∈ perm, p.firstIndex ≠ p.secondIndex ∧ p.firstIndex.toNat < 32 ∧ p.secondIndex.toNat < 32) ∧
      noiseRows seedLabelA zeroKey [0] 32 32 = .ok noiseA ∧ (∀ row ∈ noiseA, Bounded 63 row) ∧
      noiseRows seedLabelB zeroKey [0] 32 32 = .ok noiseB ∧
      (∃ acc, addProducts ⟨[replicate 32 0], [replicate 32 0], noiseA, noiseB⟩ 0 0 (int32 0) (int32 0 + 32) 0 =
        .ok acc ∧ acc.toInt = partialSum ⟨[replicate 32 0], [replicate 32 0], noiseA, noiseB⟩ 0 0 32) ∧
      (accumulatorsAt .reference (dispatch ⟨false, 0, 0⟩ (constantArgs 32 32 0 0)) false (constantArgs 32 32 0 0) 0 0 0 1
        0 0 0 0).toInt = added (constantArgs 32 32 0 0) 32 0 0 0 1 := by
  obtain ⟨positions, noises, -, host, device⟩ := integer_ranges (r := 32) (e := 5) (by decide) (by decide) (by decide)
  have made : ∀ label, noiseRows label zeroKey [0] 32 32 = .ok _ := fun label =>
    noiseRows_eq label zeroKey (e := 5) (by decide) (by decide) (by decide) (by decide) (by decide)
  have drawn := generatePermutationMatrix_eq seedLabelA zeroKey (k := 32) 32 (by decide)
  have zeros : ∀ row ∈ [replicate 32 (0 : Int8)], Bounded 63 row := by
    intro row member
    obtain rfl := mem_singleton.mp member
    intro x inside
    rw [eq_of_mem_replicate inside]
    decide
  have shaped : Shaped [replicate 32 (0 : Int8)] 1 32 := ⟨rfl, by decide⟩
  refine ⟨_, _, _, drawn, positions _ _ _ _ drawn, made seedLabelA, (noises _ _ _ _ _ (made seedLabelA)).1, made seedLabelB,
    ?_, ?_⟩
  · obtain ⟨acc, computed, exact, -⟩ := host seedLabelA seedLabelB ⟨zeroKey, zeroKey⟩ [0] [0] 32
      ⟨[replicate 32 0], [replicate 32 0], _, _⟩ (by decide) shaped zeros shaped zeros (made seedLabelA)
      (made seedLabelB) 0 _ rfl (by decide) 0 (by decide) 0 (by decide) 32 (by decide)
    exact ⟨acc, computed, exact⟩
  · exact (device .reference false ⟨false, 0, 0⟩ (constantArgs 32 32 0 0) seedLabelA seedLabelB _ _ _ _
      (Xmx.reference_exact _) rfl (by decide) (by decide) (by decide)
      (constantArgs_noised (e := 5) (by decide) (by decide) (by decide) (by decide) (by decide) (by decide)) 0 0 0 (by decide)
      1 (by decide) 0 0 0 (by decide) 0 (by decide) (by decide) (by decide)).1

theorem sum_corners {ι : Type} (s : Finset ι) (p q : ι → Int) (c : Int) :
    ∑ x ∈ s, (c + p x) * (c + q x) + ∑ x ∈ s, (-c + p x) * (-c + q x) - ∑ x ∈ s, (c + p x) * (-c + q x) -
      ∑ x ∈ s, (-c + p x) * (c + q x) = s.card * (4 * c ^ 2) := by
  rw [← Finset.sum_add_distrib, ← Finset.sum_sub_distrib, ← Finset.sum_sub_distrib, ← nsmul_eq_mul, ← Finset.sum_const]
  refine Finset.sum_congr rfl fun x _ => ?_
  ring

theorem toInt_constantNoised (label : List UInt8) (k r : Nat) {secret : Int8} (small : secret.toInt.natAbs ≤ 63) (p : Nat) :
    (constantNoised label k r secret p).toInt = secret.toInt + (constantNoised label k r 0 p).toInt := by
  unfold constantNoised
  rw [toInt_add_noise _ _ _ _ _ (by omega) (by omega), toInt_add_noise _ _ _ _ _ (by decide) (by decide), Int8.toInt_zero,
    Int.zero_add]

/-- What an accumulator holds at rank two, where every block of two columns adds 32 products. -/
theorem added_rank_two {secretA secretB : Int8} (smallA : secretA.toInt.natAbs ≤ 63) (smallB : secretB.toInt.natAbs ≤ 63) :
    added (constantArgs 131072 2 secretA secretB) 2 0 0 65521 0 =
      ∑ x ∈ Finset.range 65521 ×ˢ Finset.range 32,
        (secretA.toInt + (constantNoised seedLabelA 131072 2 0 (x.1 * 2 + x.2)).toInt) *
          (secretB.toInt + (constantNoised seedLabelB 131072 2 0 (x.1 * 2 + x.2)).toInt) := by
  have left : ∀ l, rowEntries (constantArgs 131072 2 secretA secretB) 0 l =
      secretA.toInt + (constantNoised seedLabelA 131072 2 0 l).toInt := by
    intro l
    rw [← toInt_constantNoised seedLabelA 131072 2 smallA, rowEntries, Nat.zero_mul, Nat.zero_add]
    rfl
  have right : ∀ l, colEntries (constantArgs 131072 2 secretA secretB) 0 l =
      secretB.toInt + (constantNoised seedLabelB 131072 2 0 l).toInt := by
    intro l
    have place : (l * 16 + 0) % 16 * 131072 + (l * 16 + 0) / 16 = l := by omega
    rw [← toInt_constantNoised seedLabelB 131072 2 smallB]
    exact congrArg (fun p => (constantNoised seedLabelB 131072 2 secretB p).toInt) place
  rw [added, Finset.sum_range_zero, Int.add_zero, Finset.sum_product]
  refine Finset.sum_congr rfl fun block _ => ?_
  rw [show (2 + 31) / 32 = 1 from rfl, Finset.sum_range_one, Nat.mul_zero, Nat.add_zero, chunk]
  exact Finset.sum_congr rfl fun j _ => by rw [left, right]

theorem accumulator_origin (tuning : Tuning) (args : TgemmArgs) (blocks : Nat) :
    accumulatorsAt .reference (dispatch tuning args) false args 0 0 blocks 0 0 0 0 0 =
      ofInt (added args args.r 0 0 blocks 0) := by
  obtain ⟨sg, rank, -, -⟩ := dispatch_spec tuning args
  have lanes : 0 < (dispatch tuning args).sg := by
    rw [sg, Tuning.sg]
    split <;> decide
  have row : fragmentRow (dispatch tuning args) 0 0 + 0 = 0 := by simp [fragmentRow]
  have col : fragmentCol (dispatch tuning args) 0 0 + 0 = 0 := by simp [fragmentCol]
  rw [accumulatorsAt_eq (Xmx.reference_exact _) (by decide) lanes, rank, row, col]

/-- At rank two the fold wraps: there are secrets of seven bits for which an accumulator of a search with 131072 columns
is not what was added to it. -/
theorem fold_rank_two_wraps :
    ∃ secretA secretB : Int8, secretA.toInt.natAbs ≤ 63 ∧ secretB.toInt.natAbs ≤ 63 ∧
      NoisedArgs seedLabelA seedLabelB ⟨zeroKey, zeroKey⟩ (fun _ => secretA) (fun _ => secretB)
        (constantNoised seedLabelB 131072 2 secretB) (constantArgs 131072 2 secretA secretB) ∧
      ¬(-2 ^ 31 ≤ added (constantArgs 131072 2 secretA secretB) 2 0 0 65521 0 ∧
        added (constantArgs 131072 2 secretA secretB) 2 0 0 65521 0 < 2 ^ 31) ∧
      accumulatorsAt .reference (dispatch ⟨false, 0, 0⟩ (constantArgs 131072 2 secretA secretB)) false
        (constantArgs 131072 2 secretA secretB) 0 0 65521 0 0 0 0 0 =
        ofInt (added (constantArgs 131072 2 secretA secretB) 2 0 0 65521 0) := by
  by_contra none
  have fits : ∀ secretA secretB : Int8, secretA.toInt.natAbs ≤ 63 → secretB.toInt.natAbs ≤ 63 →
      -2 ^ 31 ≤ added (constantArgs 131072 2 secretA secretB) 2 0 0 65521 0 ∧
        added (constantArgs 131072 2 secretA secretB) 2 0 0 65521 0 < 2 ^ 31 := by
    intro secretA secretB smallA smallB
    by_contra wrapped
    exact none ⟨secretA, secretB, smallA, smallB,
      constantArgs_noised (e := 1) (by decide) (by decide) (by decide) (by decide) smallA smallB, wrapped,
      accumulator_origin _ _ 65521⟩
  -- the four sums cannot all be small, because their alternating sum does not depend on the noise
  have corners := sum_corners (Finset.range 65521 ×ˢ Finset.range 32)
    (fun x => (constantNoised seedLabelA 131072 2 0 (x.1 * 2 + x.2)).toInt)
    (fun x => (constantNoised seedLabelB 131072 2 0 (x.1 * 2 + x.2)).toInt) 63
  have high : (63 : Int8).toInt = 63 := by decide
  have low : (-63 : Int8).toInt = -63 := by decide
  have pp := fits 63 63 (by decide) (by decide)
  have pn := fits 63 (-63) (by decide) (by decide)
  have np := fits (-63) 63 (by decide) (by decide)
  have nn := fits (-63) (-63) (by decide) (by decide)
  rw [added_rank_two (by decide) (by decide)] at pp pn np nn
  rw [high] at pp pn np
  rw [low] at pn np nn
  rw [Finset.card_product, Finset.card_range, Finset.card_range] at corners
  omega

end constant
end ArcMiner.PearlGemm
