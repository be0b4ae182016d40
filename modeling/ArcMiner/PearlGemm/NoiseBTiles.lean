import ArcMiner.Library.Numeral
import ArcMiner.PearlGemm.NoisedRows

/-! `pearl_capi_noise_B` block by block, with the `int` arithmetic of its launches.

Offsets into the matrices are `size_t`. The areas of a block, the indices of the scalar
product and the loop counter are `int`; a run in which one of them overflows has no
meaning. Sums of products are words of 32 bits in one block as in all of B at once.
-/

namespace ArcMiner.PearlGemm

open Library Spec List Nat

/-- `AKOYA_NOISEB_NTILE`, or 16384 where it is not set to a positive number. -/
def ntileSetting (libc : Libc) (text : Option String) : Nat := ((libc.positiveStart text).getD 16384).toNat

def TransposeInts (rows cols : Nat) : Prop := rows * cols + 255 < 2 ^ 31

/-- Those of `launch_add_i8`; every thread of the launch computes the place behind its last entry. -/
def AddInts (n : Nat) : Prop := n + 3 < 2 ^ 31 ∧ ∀ t < ((n + 3) / 4 + 255) / 256 * 256, t * 4 + 4 < 2 ^ 31

/-- Those of `launch_gemm_i8`. -/
def GemmInts (hpg : Bool) (m n k : Nat) : Prop :=
  TakesXmx hpg m n k ∨
    (m + 15 < 2 ^ 31 ∧ n + 15 < 2 ^ 31 ∧ (k + 15) / 16 * 16 < 2 ^ 31 ∧ (∀ i < m, ∀ l < k, i * k + l < 2 ^ 31) ∧
      (∀ l < k, ∀ j < n, l * n + j < 2 ^ 31) ∧ ∀ i < m, ∀ j < n, i * n + j < 2 ^ 31)

def BlockInts (hpg : Bool) (k r cb : Nat) : Prop :=
  TransposeInts cb r ∧ GemmInts hpg k cb r ∧ TransposeInts cb k ∧ AddInts (k * cb) ∧ TransposeInts k cb

instance (rows cols : Nat) : Decidable (TransposeInts rows cols) := inferInstanceAs (Decidable (_ < _))
instance (n : Nat) : Decidable (AddInts n) := inferInstanceAs (Decidable (_ ∧ _))
instance (hpg : Bool) (m n k : Nat) : Decidable (GemmInts hpg m n k) := inferInstanceAs (Decidable (_ ∨ _))
instance (hpg : Bool) (k r cb : Nat) : Decidable (BlockInts hpg k r cb) := inferInstanceAs (Decidable (_ ∧ _))

def blockWidth (n cn j : Nat) : Nat := if j * cn + cn ≤ n then cn else n - j * cn

section run
variable (xmx : Xmx) (schedule : Schedule) (hpg : Bool) (n k r cn : Nat) (b ebr eblR : Buffer)

/-- The loop over the blocks, as long as its `int` expressions have a value. -/
def noiseBRun (w : NoiseBBuffers) : Option NoiseBBuffers :=
  (range ((n + cn - 1) / cn)).foldlM (fun w j =>
    if j * cn + cn < 2 ^ 31 ∧ BlockInts hpg k r (blockWidth n cn j) then
      some (noiseBBlock xmx schedule hpg k r (j * cn) (blockWidth n cn j) b ebr eblR w)
    else none) w

/-- Step 4 of `pearl_capi_install_B` on the factors of step 3. -/
def installBRun (m ntile : Nat) (commit : Seeds) (w : InstallBuffers) : Option InstallBuffers :=
  let installed := installB xmx schedule hpg m n k r ntile commit b w
  (noiseBRun xmx schedule hpg n k r (noiseBTile ntile n) b installed.ebr installed.eblR w.blocks).map fun blocks =>
    { installed with blocks }

/-- The places of `BpEB` that the blocks store to, store by store. -/
def writtenPlaces : List Nat :=
  (range ((n + cn - 1) / cn)).flatMap fun j =>
    (schedule.order (launchSize (int32 (k * blockWidth n cn j)) 256)).flatMap fun id =>
      (transposeStores b (j * cn * k) k (blockWidth n cn j) id).map Prod.fst

end run

/-- The sizes that `noise_B` can work with. -/
def TilesFit (hpg : Bool) (n k r cn : Nat) : Prop :=
  n = 0 ∨ ((n + cn - 1) / cn * cn < 2 ^ 31 ∧ cn * r + 256 ≤ 2 ^ 31 ∧ k * cn + 1024 ≤ 2 ^ 31 ∧
    (TakesXmx hpg k n r ∨ k * r ≤ 2 ^ 31))

theorem addInts_iff (n : Nat) : AddInts n ↔ n + 1024 ≤ 2 ^ 31 := by
  unfold AddInts
  constructor
  · rintro ⟨few, places⟩
    by_contra large
    have := places (((n + 3) / 4 + 255) / 256 * 256 - 1) (by omega)
    omega
  · intro room
    refine ⟨by omega, fun t launched => ?_⟩
    omega

theorem index_lt_iff {m k : Nat} : (∀ i < m, ∀ l < k, i * k + l < 2 ^ 31) ↔ m * k ≤ 2 ^ 31 := by
  constructor
  · intro inside
    rcases Nat.eq_zero_or_pos (m * k) with none | some
    · omega
    · have rows := Nat.pos_of_mul_pos_right some
      have cols := Nat.pos_of_mul_pos_left some
      have last := inside (m - 1) (by omega) (k - 1) (by omega)
      have area : m * k = (m - 1) * k + k := by
        rw [← succ_mul]
        congr 1
        omega
      omega
  · intro fits i row l col
    exact Nat.lt_of_lt_of_le (segment_lt col row) fits

theorem noiseBTile_shape (ntile n : Nat) :
    noiseBTile ntile n ≤ n ∧ (noiseBTile ntile n % 128 = 0 ∨ noiseBTile ntile n = n ∧ n < 128) := by
  simp only [noiseBTile]
  split_ifs <;> omega

section ints
variable {hpg : Bool} {n k r cn : Nat}

theorem lastBlock (some : 0 < n) (positive : 0 < cn) :
    ∃ last, (n + cn - 1) / cn = last + 1 ∧ last * cn + blockWidth n cn last = n ∧ n ≤ last * cn + cn := by
  have parts := div_add_mod' (n + cn - 1) cn
  have rest := mod_lt (n + cn - 1) positive
  obtain ⟨last, count⟩ := exists_eq_add_one.mpr (Nat.div_pos (show cn ≤ n + cn - 1 by omega) positive)
  rw [count, succ_mul] at parts
  refine ⟨last, count, ?_, by omega⟩
  unfold blockWidth
  split_ifs <;> omega

theorem blockWidth_le (n cn : Nat) {j : Nat} (begun : j * cn ≤ n) : blockWidth n cn j ≤ cn := by
  unfold blockWidth
  split_ifs <;> omega

theorem takesXmx_iff : TakesXmx hpg k n r ↔ 8 ∣ k ∧ (8 * if hpg then 8 else 16) ∣ n ∧ 32 ∣ r := by
  rw [TakesXmx, dvd_iff_mod_eq_zero, dvd_iff_mod_eq_zero, dvd_iff_mod_eq_zero]

theorem takesXmx_blocks_iff (some : 0 < n) (positive : 0 < cn) (inside : cn ≤ n)
    (shape : cn % 128 = 0 ∨ cn = n ∧ n < 128) :
    (∀ j < (n + cn - 1) / cn, TakesXmx hpg k (blockWidth n cn j) r) ↔ TakesXmx hpg k n r := by
  obtain ⟨last, count, ends, -⟩ := lastBlock some positive
  simp only [takesXmx_iff]
  constructor
  · intro all
    obtain ⟨rows, first, blocks⟩ := all 0 (by omega)
    have whole : blockWidth n cn 0 = cn := if_pos (by omega)
    rw [whole] at first
    refine ⟨rows, ?_, blocks⟩
    rw [← ends]
    exact Nat.dvd_add (Nat.dvd_mul_left_of_dvd first last) (all last (by omega)).2.1
  · rintro ⟨rows, cols, blocks⟩ j _
    refine ⟨rows, ?_, blocks⟩
    have tile : (8 * if hpg then 8 else 16) ∣ cn := by
      rcases shape with multiple | ⟨rfl, -⟩
      · refine Nat.dvd_trans ?_ (dvd_of_mod_eq_zero multiple)
        cases hpg <;> decide
      · exact cols
    generalize (8 * if hpg then 8 else 16) = width at cols tile ⊢
    unfold blockWidth
    split_ifs
    · exact tile
    · exact Nat.dvd_sub cols (Nat.dvd_mul_left_of_dvd tile j)

theorem runInts_iff (inside : cn ≤ n) (some : 0 < n → 0 < cn) (shape : cn % 128 = 0 ∨ cn = n ∧ n < 128) :
    (∀ j < (n + cn - 1) / cn, j * cn + cn < 2 ^ 31 ∧ BlockInts hpg k r (blockWidth n cn j)) ↔
      TilesFit hpg n k r cn := by
  rcases Nat.eq_zero_or_pos n with rfl | nonempty
  · refine iff_of_true (fun j begun => ?_) (Or.inl rfl)
    obtain rfl : cn = 0 := by omega
    simp at begun
  have positive := some nonempty
  obtain ⟨last, count, ends, reaches⟩ := lastBlock nonempty positive
  have product : (last + 1) * cn = last * cn + cn := succ_mul last cn
  constructor
  · intro ints
    obtain ⟨-, rows, -, -, sums, -⟩ := ints 0 (by omega)
    obtain ⟨loop, -⟩ := ints last (by omega)
    rw [show blockWidth n cn 0 = cn from if_pos (by omega)] at rows sums
    refine Or.inr ⟨by rw [count]; omega, rows, (addInts_iff _).mp sums, ?_⟩
    by_cases whole : TakesXmx hpg k n r
    · exact Or.inl whole
    · -- some block takes the scalar path
      rw [← takesXmx_blocks_iff nonempty positive inside shape] at whole
      push Not at whole
      obtain ⟨j, begun, scalar⟩ := whole
      obtain ⟨-, -, product, -⟩ := ints j begun
      exact Or.inr (index_lt_iff.mp (product.resolve_left scalar).2.2.2.1)
  · rintro (rfl | ⟨loop, rows, window, factors⟩) j begun
    · omega
    rw [count] at loop begun
    have before : j * cn ≤ last * cn := Nat.mul_le_mul_right cn (by omega)
    have narrow := blockWidth_le n cn (j := j) (by omega)
    have rowArea := Nat.mul_le_mul_right r narrow
    have area := Nat.mul_le_mul_left k narrow
    have ranks : r ≤ cn * r := Nat.le_mul_of_pos_left r positive
    have lines : k ≤ k * cn := Nat.le_mul_of_pos_right k positive
    have turned := Nat.mul_comm (blockWidth n cn j) k
    have turnedRows := Nat.mul_comm (blockWidth n cn j) r
    have products : GemmInts hpg k (blockWidth n cn j) r := by
      by_cases xmx : TakesXmx hpg k (blockWidth n cn j) r
      · exact Or.inl xmx
      · have scalar : k * r ≤ 2 ^ 31 := by
          refine factors.resolve_left fun whole => xmx ?_
          exact (takesXmx_blocks_iff nonempty positive inside shape).mpr whole j (by omega)
        exact Or.inr ⟨by omega, by omega, by omega, index_lt_iff.mpr scalar, index_lt_iff.mpr (by omega),
          index_lt_iff.mpr (by omega)⟩
    exact ⟨by omega, by unfold TransposeInts; omega, products, by unfold TransposeInts; omega,
      (addInts_iff _).mpr (by omega), by unfold TransposeInts; omega⟩

end ints

theorem foldlM_allowed {α β : Type} (allowed : α → Prop) [DecidablePred allowed] (step : β → α → β) (xs : List α) (start : β) :
    xs.foldlM (fun state x => if allowed x then some (step state x) else none) start =
      if ∀ x ∈ xs, allowed x then some (xs.foldl step start) else none := by
  induction xs generalizing start with
  | nil => simp
  | cons x rest ih =>
    rw [foldlM_cons]
    by_cases first : allowed x
    · rw [if_pos first]
      refine (ih _).trans ?_
      simp [first]
    · simp [first]

section places
variable (schedule : Schedule) (b : Buffer)

theorem transposed_perm (rows cols : Nat) :
    ((range (rows * cols)).map fun id => id % cols * rows + id / cols).Perm (range (cols * rows)) := by
  have cell {id : Nat} (inside : id < rows * cols) : id / cols < rows ∧ id % cols < cols :=
    have nonempty : 0 < cols := Nat.pos_of_mul_pos_left (zero_lt_of_lt inside)
    ⟨(Nat.div_lt_iff_lt_mul nonempty).mpr inside, mod_lt id nonempty⟩
  have apart : ((range (rows * cols)).map fun id => id % cols * rows + id / cols).Nodup := by
    refine nodup_range.map_on fun i ini j inj same => ?_
    obtain ⟨col, row⟩ := segment_inj (cell (mem_range.mp ini)).1 (cell (mem_range.mp inj)).1 same
    rw [← div_add_mod' i cols, ← div_add_mod' j cols, row, col]
  refine (perm_ext_iff_of_nodup apart nodup_range).mpr fun q => ?_
  rw [mem_map, mem_range]
  constructor
  · rintro ⟨id, inside, rfl⟩
    obtain ⟨row, col⟩ := cell (mem_range.mp inside)
    exact segment_lt row col
  · intro inside
    have nonempty : 0 < rows := Nat.pos_of_mul_pos_left (zero_lt_of_lt inside)
    have col : q / rows < cols := (Nat.div_lt_iff_lt_mul nonempty).mpr inside
    refine ⟨q % rows * cols + q / rows, mem_range.mpr (segment_lt col (mod_lt q nonempty)), ?_⟩
    rw [segment_mod col, segment_div col, div_add_mod']

theorem transposePlaces_perm {rows cols : Nat} (base : Nat) (fits : rows * cols + 256 ≤ 2 ^ 31) :
    ((schedule.order (launchSize (int32 (rows * cols)) 256)).flatMap fun id =>
      (transposeStores b base rows cols id).map Prod.fst).Perm ((range (cols * rows)).map (base + ·)) := by
  have size := le_launchSize (rows * cols) (show 0 < 256 by decide) fits
  obtain ⟨more, launched⟩ := Nat.exists_eq_add_of_le size.1
  have stored : ((range (rows * cols)).flatMap fun id => (transposeStores b base rows cols id).map Prod.fst) =
      ((range (rows * cols)).map fun id => id % cols * rows + id / cols).map (base + ·) := by
    rw [map_map, ← flatMap_pure_eq_map]
    refine flatMap_congr fun id member => ?_
    rw [transposeStores_of_lt b base fits (mem_range.mp member)]
    rfl
  have idle : ((range more).map (rows * cols + ·)).flatMap
      (fun id => (transposeStores b base rows cols id).map Prod.fst) = [] := by
    refine flatMap_eq_nil_iff.mpr fun id member => ?_
    obtain ⟨extra, inside, rfl⟩ := mem_map.mp member
    have := mem_range.mp inside
    rw [transposeStores_of_ge b base fits (by omega) (by omega), map_nil]
  rw [int32_area fits]
  refine ((schedule.complete _).flatMap_right _).trans ?_
  rw [launched, range_add, flatMap_append, stored, idle, append_nil]
  exact (transposed_perm rows cols).map _

theorem writtenPlaces_perm {n k cn : Nat} (positive : 0 < cn) (window : k * cn + 1024 ≤ 2 ^ 31) :
    (writtenPlaces schedule n k cn b).Perm (range (n * k)) := by
  have blocks : ∀ count ≤ (n + cn - 1) / cn, ((range count).flatMap fun j =>
      (schedule.order (launchSize (int32 (k * blockWidth n cn j)) 256)).flatMap fun id =>
        (transposeStores b (j * cn * k) k (blockWidth n cn j) id).map Prod.fst).Perm
      (range (min (count * cn) n * k)) := by
    intro count bound
    induction count with
    | zero => simp
    | succ count ih =>
      have started : count * cn < n := by
        have whole := (Nat.le_div_iff_mul_le positive).mp bound
        rw [succ_mul] at whole
        omega
      have narrow := blockWidth_le n cn started.le
      have reached : min ((count + 1) * cn) n = min (count * cn) n + blockWidth n cn count := by
        unfold blockWidth
        rw [succ_mul]
        split_ifs <;> omega
      have area := Nat.mul_le_mul_left k narrow
      rw [range_succ, flatMap_append, flatMap_singleton, reached, Nat.add_mul, range_add]
      refine (ih (by omega)).append ?_
      rw [Nat.min_eq_left started.le]
      exact transposePlaces_perm schedule b (count * cn * k) (by omega)
  have last : n ≤ (n + cn - 1) / cn * cn := by
    have parts := div_add_mod' (n + cn - 1) cn
    have rest := mod_lt (n + cn - 1) positive
    omega
  have final := blocks _ (Nat.le_refl _)
  rwa [Nat.min_eq_right last] at final

end places

/-- After a run `BpEB` holds the whole sum, each place of it has been stored to once, and nothing else has changed. -/
def WritesWhole (schedule : Schedule) (n k r cn : Nat) (b ebr eblR before after : Buffer) : Prop :=
  (∀ p, after p = if p < n * k then noisedEntry b ebr eblR k r p else before p) ∧
    (writtenPlaces schedule n k cn b).Perm (range (n * k))

section whole
variable {xmx : Xmx} {hpg : Bool} (exact : xmx.Exact (if hpg then 8 else 16)) (schedule : Schedule) {n k r : Nat}

theorem noiseBRun_eq (xmx : Xmx) (hpg : Bool) (n k r cn : Nat) (b ebr eblR : Buffer) (w : NoiseBBuffers) :
    noiseBRun xmx schedule hpg n k r cn b ebr eblR w =
      if ∀ j ∈ range ((n + cn - 1) / cn), j * cn + cn < 2 ^ 31 ∧ BlockInts hpg k r (blockWidth n cn j) then
        some (noiseB xmx schedule hpg n k r cn b ebr eblR w)
      else none := by
  unfold noiseBRun
  rw [foldlM_allowed (fun j => j * cn + cn < 2 ^ 31 ∧ BlockInts hpg k r (blockWidth n cn j))]
  rfl

include exact in
theorem noiseB_writesWhole (ntile : Nat) (fit : TilesFit hpg n k r (noiseBTile ntile n)) (b ebr eblR : Buffer)
    (w : NoiseBBuffers) : WritesWhole schedule n k r (noiseBTile ntile n) b ebr eblR w.bpEB
      (noiseB xmx schedule hpg n k r (noiseBTile ntile n) b ebr eblR w).bpEB := by
  rcases Nat.eq_zero_or_pos n with rfl | nonempty
  · have none : noiseBTile ntile 0 = 0 := by
      have := (noiseBTile_shape ntile 0).1
      omega
    rw [none]
    refine ⟨fun p => ?_, ?_⟩
    · rw [if_neg (by omega)]
      rfl
    · rw [Nat.zero_mul]
      exact .nil
  have positive := noiseBTile_pos ntile nonempty
  obtain ⟨inside, shape⟩ := noiseBTile_shape ntile n
  generalize noiseBTile ntile n = cn at fit positive inside shape ⊢
  obtain ⟨-, rows, window, factors⟩ := fit.resolve_left (by omega)
  refine ⟨fun p => noiseB_eq exact schedule b ebr eblR positive (fun cb narrow _ => ?_) window (fun j begun scalar => ?_) w p,
    writtenPlaces_perm schedule b positive window⟩
  · have := Nat.mul_le_mul_right r narrow
    omega
  · refine factors.resolve_left fun all => scalar ?_
    exact (takesXmx_blocks_iff nonempty positive inside shape).mpr all j begun

theorem noiseBRun_isSome_iff (ntile : Nat) (b ebr eblR : Buffer) (w : NoiseBBuffers) :
    noiseBRun xmx schedule hpg n k r (noiseBTile ntile n) b ebr eblR w =
        some (noiseB xmx schedule hpg n k r (noiseBTile ntile n) b ebr eblR w) ↔
      TilesFit hpg n k r (noiseBTile ntile n) := by
  obtain ⟨inside, shape⟩ := noiseBTile_shape ntile n
  rw [← runInts_iff inside (noiseBTile_pos ntile) shape, noiseBRun_eq]
  simp only [mem_range]
  split_ifs with ints
  · exact iff_of_true rfl ints
  · exact iff_of_false nofun ints

theorem noiseBRun_eq_some {cn : Nat} {b ebr eblR : Buffer} {w out : NoiseBBuffers}
    (ran : noiseBRun xmx schedule hpg n k r cn b ebr eblR w = some out) :
    out = noiseB xmx schedule hpg n k r cn b ebr eblR w := by
  rw [noiseBRun_eq] at ran
  split_ifs at ran
  exact (Option.some.inj ran).symm

end whole

/-- For every tile size, `noise_B` and `install_B` write all of `BpEB` as one product would, each place once and
nothing else, exactly when the areas and indices of the blocks are `int` values. -/
theorem noiseB_whole_iff (xmx : Xmx) (schedule : Schedule) (hpg : Bool) (exact : xmx.Exact (if hpg then 8 else 16))
    (libc : Libc) (setting : Option String) (m n k r : Nat) (b ebr eblR : Buffer) (w : NoiseBBuffers) (commit : Seeds)
    (install : InstallBuffers) :
    let ntile := ntileSetting libc setting
    let cn := noiseBTile ntile n
    ((∃ out, noiseBRun xmx schedule hpg n k r cn b ebr eblR w = some out ∧
        WritesWhole schedule n k r cn b ebr eblR w.bpEB out.bpEB) ↔ TilesFit hpg n k r cn) ∧
      ((∃ out, installBRun xmx schedule hpg n k r b m ntile commit install = some out ∧
        WritesWhole schedule n k r cn b out.ebr out.eblR install.blocks.bpEB out.blocks.bpEB) ↔
          TilesFit hpg n k r cn) := by
  intro ntile cn
  refine ⟨⟨?_, fun fit => ?_⟩, ⟨?_, fun fit => ?_⟩⟩
  · rintro ⟨out, ran, -⟩
    obtain rfl := noiseBRun_eq_some schedule ran
    exact (noiseBRun_isSome_iff schedule ntile b ebr eblR w).mp ran
  · exact ⟨_, (noiseBRun_isSome_iff schedule ntile b ebr eblR w).mpr fit,
      noiseB_writesWhole exact schedule ntile fit b ebr eblR w⟩
  · rintro ⟨out, ran, -⟩
    obtain ⟨blocks, ran, -⟩ := Option.map_eq_some_iff.mp ran
    obtain rfl := noiseBRun_eq_some schedule ran
    exact (noiseBRun_isSome_iff schedule ntile _ _ _ _).mp ran
  · have ran := (@noiseBRun_isSome_iff xmx hpg schedule n k r ntile b
      (installB xmx schedule hpg m n k r ntile commit b install).ebr
      (installB xmx schedule hpg m n k r ntile commit b install).eblR install.blocks).mpr fit
    exact ⟨_, by rw [installBRun, ran]; rfl, noiseB_writesWhole exact schedule ntile fit b _ _ install.blocks⟩

section sizes

def emptyBlocks : NoiseBBuffers := ⟨zeroBuffer, zeroBuffer, zeroBuffer, fun _ => 0, zeroBuffer⟩

theorem noiseB_whole_canonical : ∃ out,
    noiseBRun .reference .ascending false 131072 4096 128 (noiseBTile (ntileSetting .saturating none) 131072) zeroBuffer
        zeroBuffer zeroBuffer emptyBlocks = some out ∧
      WritesWhole .ascending 131072 4096 128 (noiseBTile (ntileSetting .saturating none) 131072) zeroBuffer zeroBuffer
        zeroBuffer zeroBuffer out.bpEB :=
  (noiseB_whole_iff .reference .ascending false (Xmx.reference_exact 16) .saturating none 131072 131072 4096 128 zeroBuffer
    zeroBuffer zeroBuffer emptyBlocks ⟨Blake3.zeroKey, Blake3.zeroKey⟩ emptyInstall).1.mpr (Or.inr (by decide))

/-- An area of `2^31` wraps to the smallest `int`, and every item returns at once. -/
theorem launchTransposeI8_wrapped (schedule : Schedule) (input : Buffer) (base : Nat) {rows cols : Nat}
    (area : rows * cols = 2 ^ 31) (out : Buffer) : launchTransposeI8 schedule input base rows cols out = out := by
  have smallest : int32 ((rows : Int) * cols) = -2 ^ 31 := by
    rw [← cast_mul, area, int32_of_wraps (by decide) (by decide)]
    decide
  funext p
  refine parallelFor_storeAll_of_free (fun id _ value stored => ?_) schedule out
  have low : -2 ^ 31 ≤ int32 id := Int.le_bmod (by decide)
  unfold transposeStores at stored
  rw [smallest, if_pos low] at stored
  cases stored

/-- Blocks of 16384 columns and 131072 rows: their area is no `int`, and with wrapping arithmetic nothing at all is
written. -/
theorem noiseB_area_overflow :
    noiseBRun .reference .ascending false 16384 131072 128 (noiseBTile (ntileSetting .saturating none) 16384)
        (fun _ => 1) zeroBuffer zeroBuffer emptyBlocks = none ∧
      (noiseB .reference .ascending false 16384 131072 128 (noiseBTile (ntileSetting .saturating none) 16384)
        (fun _ => 1) zeroBuffer zeroBuffer emptyBlocks).bpEB 0 = 0 ∧
      noisedEntry (fun _ => 1) zeroBuffer zeroBuffer 131072 128 0 = 1 := by
  have tile : noiseBTile (ntileSetting .saturating none) 16384 = 16384 := by decide
  rw [tile]
  refine ⟨?_, ?_, ?_⟩
  · rw [noiseBRun_eq, if_neg]
    intro ints
    obtain ⟨-, -, -, area, -⟩ := ints 0 (by decide)
    exact absurd area (by decide)
  · unfold noiseB
    rw [show (16384 + 16384 - 1) / 16384 = 1 by decide, range_one, foldl_cons, foldl_nil]
    simp only [noiseBBlock, Nat.zero_mul, Nat.zero_add, Nat.le_refl, ↓reduceIte]
    rw [launchTransposeI8_wrapped .ascending _ 0 (show 131072 * 16384 = 2 ^ 31 by decide)]
    rfl
  · simp [noisedEntry, zeroBuffer, dot]

end sizes
end ArcMiner.PearlGemm
