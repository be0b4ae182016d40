import ArcMiner.AkoyaCrypto.JackpotComputer
import ArcMiner.PearlGemm.TgemmPow

/-! Every tile is evaluated once, with the transcript the host computes. -/

namespace ArcMiner.PearlGemm

open Library Spec List Nat Xored

theorem begun_blocks_iff {k r : Nat} (positive : 0 < r) : (k + r - 1) / r = k / r ↔ r ∣ k := by
  obtain ⟨q, rest, below, rfl⟩ : ∃ q rest, rest < r ∧ k = r * q + rest :=
    ⟨k / r, k % r, Nat.mod_lt k positive, (Nat.div_add_mod k r).symm⟩
  rw [Nat.add_assoc, Nat.add_sub_assoc (by omega), Nat.mul_add_div positive, Nat.mul_add_div positive,
    Nat.div_eq_of_lt below, Nat.dvd_add_right (Nat.dvd_mul_right r q)]
  rcases Nat.eq_zero_or_pos rest with rfl | some
  · rw [Nat.zero_add, Nat.div_eq_of_lt (by omega)]
    exact iff_of_true rfl (Nat.dvd_zero r)
  · have begun : (rest + r - 1) / r = 1 := by
      rw [show rest + r - 1 = rest - 1 + r by omega, Nat.add_div_right _ positive, Nat.div_eq_of_lt (by omega)]
    rw [begun]
    exact iff_of_false (by omega) (Nat.not_dvd_of_pos_of_lt some below)

def rowEntries (args : TgemmArgs) (row l : Nat) : Int := (args.apEA (row * args.k + l)).toInt

def colEntries (args : TgemmArgs) (col l : Nat) : Int := (args.bt (l * args.stride + col)).toInt

section group
variable {xmx : Xmx} {blocking : Blocking} {args : TgemmArgs} {grpRow grpCol : Nat}

/-- The accumulators hold the first `n` products of their rows and columns. -/
def Accumulated (blocking : Blocking) (args : TgemmArgs) (grpRow grpCol n : Nat) (mC : Accumulators) : Prop :=
  ∀ r t i c, i < 8 → c < blocking.sg → mC r t i c =
    dot (rowEntries args (fragmentRow blocking grpRow r + i)) (colEntries args (fragmentCol blocking grpCol t + c)) n

section products
variable (exact : xmx.Exact blocking.sg)
include exact

theorem blockSteps_accumulated {kb : Nat} {mC : Accumulators} (blocks : 32 ∣ rVal blocking args)
    (before : Accumulated blocking args grpRow grpCol kb mC) :
    Accumulated blocking args grpRow grpCol (kb + rVal blocking args)
      (blockSteps xmx blocking args grpRow grpCol kb mC) := by
  obtain ⟨count, same⟩ := blocks
  have steps : (rVal blocking args + 31) / 32 = count := by omega
  unfold blockSteps
  rw [steps, same]
  clear steps same
  induction count with
  | zero => exact before
  | succ count ih =>
    rw [range_succ, foldl_append, mul_succ]
    intro r t i c row col
    rw [← add_assoc]
    exact exact.mad_load row col (ih r t i c row col)

end products

section fold
variable (blocking) (mb t : Nat)

theorem fragmentRow_half {half : Nat} (small : half < 2) :
    fragmentRow blocking grpRow (2 * mb + half) = (grpRow * blocking.rm + mb) * 16 + half * 8 := by
  unfold fragmentRow
  rw [show (2 * mb + half) / 2 = mb by omega, show (2 * mb + half) % 2 = half by omega]

theorem fragmentCol_half {h : Nat} (small : h < blocking.nhalf) :
    fragmentCol blocking grpCol (t * blocking.nhalf + h) = (grpCol * blocking.rn + t) * 16 + h * blocking.sg := by
  unfold fragmentCol
  rw [segment_div small, segment_mod small]

def entryWord (args : TgemmArgs) (row col n u v : Nat) : UInt32 :=
  (dot (rowEntries args (row * 16 + u)) (colEntries args (col * 16 + v)) n).toUInt32

variable {blocking} {mC : Accumulators} {n : Nat} (held : Accumulated blocking args grpRow grpCol n mC)
include held

theorem sum_accumulators :
    ∑ h ∈ Finset.range blocking.nhalf, ∑ half ∈ Finset.range 2, ∑ i ∈ Finset.range 8, ∑ c ∈ Finset.range blocking.sg,
      (⟨(mC (2 * mb + half) (t * blocking.nhalf + h) i c).toUInt32⟩ : Xored) =
    ∑ u ∈ Finset.range 16, ∑ v ∈ Finset.range 16,
      (⟨entryWord args (grpRow * blocking.rm + mb) (grpCol * blocking.rn + t) n u v⟩ : Xored) := by
  have width : blocking.nhalf * blocking.sg = 16 := blocking.width
  rw [show (16 : Nat) = 2 * 8 from rfl, sum_range_segments _ 2 8, show (2 * 8 : Nat) = 16 from rfl, ← width]
  simp only [sum_range_segments _ blocking.nhalf blocking.sg]
  rw [Finset.sum_comm]
  refine Finset.sum_congr rfl fun half top => ?_
  rw [Finset.sum_comm]
  refine Finset.sum_congr rfl fun i row => Finset.sum_congr rfl fun h left => Finset.sum_congr rfl fun c col => ?_
  rw [held _ _ i c (Finset.mem_range.mp row) (Finset.mem_range.mp col), fragmentRow_half blocking mb (Finset.mem_range.mp top),
    fragmentCol_half blocking t (Finset.mem_range.mp left), entryWord, add_assoc, add_assoc]

omit held in
theorem foldSlm_place (mC : Accumulators) {f r lid : Nat} (row : r < 8) (col : lid < blocking.sg) :
    foldSlm blocking mC mb t (f * (8 * blocking.sg) + r * blocking.sg + lid) =
      mC (2 * mb + f % 2) (t * blocking.nhalf + f / 2) r lid := by
  have inside := segment_lt col row
  simp only [foldSlm, add_assoc, segment_div inside, segment_mod inside, segment_div col, segment_mod col]

omit held in
theorem applyXor_eq (lid : Nat) (fragment : Fragment Int32) (part : UInt32) :
    applyXor xmx blocking lid fragment part = part ^^^ (((xmx.elements blocking.sg).filter
      fun e => xmx.lane blocking.sg e = lid).map fun e => (⟨(fragment e.1 e.2).toUInt32⟩ : Xored)).sum.word := by
  unfold applyXor
  rw [foldl_xor, word_add]

omit held in
theorem lanePart_registers (mC : Accumulators) (lid : Nat) :
    (⟨lanePart xmx blocking false mC mb t lid⟩ : Xored) =
      ∑ h ∈ Finset.range blocking.nhalf, ∑ half ∈ Finset.range 2, (((xmx.elements blocking.sg).filter
        fun e => xmx.lane blocking.sg e = lid).map fun e =>
          (⟨(mC (2 * mb + half) (t * blocking.nhalf + h) e.1 e.2).toUInt32⟩ : Xored)).sum := by
  have pair : ∀ h part, applyXor xmx blocking lid (mC (2 * mb + 1) (t * blocking.nhalf + h))
      (applyXor xmx blocking lid (mC (2 * mb) (t * blocking.nhalf + h)) part) =
      part ^^^ (∑ half ∈ Finset.range 2, (((xmx.elements blocking.sg).filter
        fun e => xmx.lane blocking.sg e = lid).map fun e =>
          (⟨(mC (2 * mb + half) (t * blocking.nhalf + h) e.1 e.2).toUInt32⟩ : Xored)).sum).word := by
    intro h part
    rw [applyXor_eq, applyXor_eq, UInt32.xor_assoc, Finset.sum_range_succ, Finset.sum_range_one]
    rfl
  apply ext
  simp only [lanePart, Bool.false_eq_true, ↓reduceIte, pair]
  rw [foldl_xor, sum_map_range]
  exact congrArg word (zero_add _)

omit held in
theorem lanePart_memory (mC : Accumulators) {lid : Nat} (col : lid < blocking.sg) :
    (⟨lanePart xmx blocking true mC mb t lid⟩ : Xored) =
      ∑ h ∈ Finset.range blocking.nhalf, ∑ half ∈ Finset.range 2, ∑ i ∈ Finset.range 8,
        (⟨(mC (2 * mb + half) (t * blocking.nhalf + h) i lid).toUInt32⟩ : Xored) := by
  have fragment : ∀ f part, (range 8).foldl (fun part r =>
      part ^^^ (foldSlm blocking mC mb t (f * (8 * blocking.sg) + r * blocking.sg + lid)).toUInt32) part =
      part ^^^ (∑ i ∈ Finset.range 8,
        (⟨(mC (2 * mb + f % 2) (t * blocking.nhalf + f / 2) i lid).toUInt32⟩ : Xored)).word := by
    intro f part
    rw [foldl_xor, sum_map_range, word_add]
    congr 2
    refine Finset.sum_congr rfl fun i row => ?_
    rw [foldSlm_place mb t mC (Finset.mem_range.mp row) col]
  apply ext
  simp only [lanePart, ↓reduceIte, fragment]
  rw [foldl_xor, sum_map_range, mul_comm 2, sum_range_segments _ blocking.nhalf 2]
  refine (congrArg word (zero_add _)).trans (congrArg word ?_)
  refine Finset.sum_congr rfl fun h _ => Finset.sum_congr rfl fun half top => ?_
  rw [segment_div (Finset.mem_range.mp top), segment_mod (Finset.mem_range.mp top)]

theorem tileXor_eq (exact : xmx.Exact blocking.sg) (viaMem : Bool) :
    tileXor xmx blocking viaMem mC mb t =
      xorTile 16 16 (entryWord args (grpRow * blocking.rm + mb) (grpCol * blocking.rn + t) n) := by
  have all := sum_accumulators mb t held
  unfold tileXor xorTile
  rw [foldl_xor, sum_map_range, ← all]
  refine (congrArg word (zero_add _)).trans (congrArg word ?_)
  cases viaMem with
  | false =>
    simp only [lanePart_registers]
    rw [Finset.sum_comm]
    refine Finset.sum_congr rfl fun h _ => ?_
    rw [Finset.sum_comm]
    refine Finset.sum_congr rfl fun half _ => ?_
    rw [sum_lanes (xmx.lane blocking.sg) _ _ exact.lane, (exact.elements.map _).sum_eq, sum_map_product]
  | true =>
    rw [Finset.sum_congr rfl fun lid col => lanePart_memory mb t mC (Finset.mem_range.mp col), Finset.sum_comm]
    refine Finset.sum_congr rfl fun h _ => ?_
    rw [Finset.sum_comm]
    refine Finset.sum_congr rfl fun half _ => Finset.sum_comm

end fold

theorem mem_groupTiles {tile : Nat × Nat} :
    tile ∈ groupTiles blocking ↔ tile.1 < blocking.rm ∧ tile.2 < blocking.rn := by
  obtain ⟨mb, t⟩ := tile
  exact pair_mem_product.trans (and_congr mem_range mem_range)

theorem nodup_groupTiles : (groupTiles blocking).Nodup := List.Nodup.product nodup_range nodup_range

theorem slot_inj {tile other : Nat × Nat} {e e' : Nat} (inside : tile.2 < blocking.rn) (otherInside : other.2 < blocking.rn)
    (small : e < 16) (otherSmall : e' < 16) (same : slot blocking tile e = slot blocking other e') :
    tile = other ∧ e = e' := by
  unfold slot at same
  have place : tile.1 * blocking.rn + tile.2 = other.1 * blocking.rn + other.2 := by omega
  have row : tile.1 = other.1 := by
    rw [← segment_div inside tile.1, place, segment_div otherInside]
  have col : tile.2 = other.2 := by
    rw [← segment_mod inside tile.1, place, segment_mod otherInside]
  exact ⟨Prod.ext row col, by omega⟩

structure Snapped (blocking : Blocking) (args : TgemmArgs) (grpRow grpCol blocks : Nat) (state : GroupState) : Prop where
  held : Accumulated blocking args grpRow grpCol (blocks * args.r) state.mC
  words : ∀ tile ∈ groupTiles blocking, ∀ e (inside : e < 16), state.trSlm (slot blocking tile e) =
    (transcript 16 16 args.r (fun u => rowEntries args ((grpRow * blocking.rm + tile.1) * 16 + u))
      (fun v => colEntries args ((grpCol * blocking.rn + tile.2) * 16 + v)) blocks)[e]
  snap : state.snap = blocks

section blocks
variable (exact : xmx.Exact blocking.sg) (viaMem : Bool) (rank : rVal blocking args = args.r) (multiple : 32 ∣ args.r)
include exact rank multiple

theorem snapBlock_snapped {blocks : Nat} {state : GroupState} (before : Snapped blocking args grpRow grpCol blocks state) :
    Snapped blocking args grpRow grpCol (blocks + 1)
      (snapBlock xmx blocking viaMem args grpRow grpCol state (blocks * args.r)) := by
  obtain ⟨held, words, snap⟩ := before
  have after : Accumulated blocking args grpRow grpCol ((blocks + 1) * args.r)
      (blockSteps xmx blocking args grpRow grpCol (blocks * args.r) state.mC) := by
    have next := blockSteps_accumulated exact (rank ▸ multiple) held
    rwa [rank, ← succ_mul] at next
  have small := mod_lt blocks (show 0 < 16 by decide)
  refine ⟨after, fun tile member e inside => ?_, by rw [snapBlock, snap]⟩
  have col := (mem_groupTiles.mp member).2
  have apart : ((groupTiles blocking).map fun tile => slot blocking tile (blocks % 16)).Nodup :=
    nodup_groupTiles.map_on fun a ina b inb same =>
      (slot_inj (mem_groupTiles.mp ina).2 (mem_groupTiles.mp inb).2 small small same).1
  simp only [snapBlock, foldTile, snap]
  by_cases current : e = blocks % 16
  · -- the word that this block updates
    obtain rfl := current
    rw [foldl_update_of_mem (fun tile => slot blocking tile (blocks % 16))
      (fun tile word => rotl32 word 13 ^^^ tileXor xmx blocking viaMem
        (blockSteps xmx blocking args grpRow grpCol (blocks * args.r) state.mC) tile.1 tile.2) apart member,
      tileXor_eq tile.1 tile.2 after exact viaMem, words tile member _ inside, transcript]
    simp only [Fin.getElem_fin, Vector.getElem_set_self]
    rfl
  · -- the other words keep their value
    rw [foldl_update_of_free (fun tile => slot blocking tile (blocks % 16))
      (fun tile word => rotl32 word 13 ^^^ tileXor xmx blocking viaMem
        (blockSteps xmx blocking args grpRow grpCol (blocks * args.r) state.mC) tile.1 tile.2)
      (fun other ino same => current (slot_inj (mem_groupTiles.mp ino).2 col small inside same).2.symm),
      words tile member e inside, transcript]
    simp only [Fin.getElem_fin]
    rw [Vector.getElem_set_ne _ _ (fun same => current same.symm)]

theorem runBlocks_snapped (positive : 0 < args.r) (divides : args.r ∣ args.k) :
    Snapped blocking args grpRow grpCol (args.k / args.r) (runBlocks xmx blocking viaMem args grpRow grpCol) := by
  unfold runBlocks
  simp only [rank, (begun_blocks_iff positive).mpr divides]
  generalize args.k / args.r = blocks
  induction blocks with
  | zero =>
    refine ⟨fun r t i c _ _ => ?_, fun tile _ e _ => ?_, rfl⟩
    · simp [dot]
    · simp [transcript]
  | succ blocks ih =>
    rw [range_succ, foldl_append]
    exact snapBlock_snapped exact viaMem rank multiple ih

theorem runGroup_transcript (positive : 0 < args.r) (divides : args.r ∣ args.k) {run : TileRun}
    (member : run ∈ runGroup xmx blocking viaMem args grpRow grpCol) :
    run.transcript = transcript 16 16 args.r (fun u => rowEntries args (run.row * 16 + u))
      (fun v => colEntries args (run.col * 16 + v)) (args.k / args.r) := by
  obtain ⟨tile, inside, rfl⟩ := mem_map.mp member
  have final : Snapped blocking args grpRow grpCol (args.k / args.r) _ :=
    runBlocks_snapped exact viaMem rank multiple positive divides
  apply Vector.ext
  intro e bound
  rw [Vector.getElem_ofFn]
  exact final.words tile inside e bound

end blocks
end group

section grid
variable {xmx : Xmx} {schedule : Schedule} {viaMem : Bool} {args : TgemmArgs} {blocking : Blocking}

def groupCoords (blocking : Blocking) (numGroupsM group : Nat) : List (Nat × Nat) :=
  (groupTiles blocking).map fun tile =>
    (group % numGroupsM * blocking.rm + tile.1, group / numGroupsM * blocking.rn + tile.2)

theorem mem_groupCoords {numGroupsM group : Nat} {coord : Nat × Nat} :
    coord ∈ groupCoords blocking numGroupsM group ↔
      coord.1 / blocking.rm = group % numGroupsM ∧ coord.2 / blocking.rn = group / numGroupsM := by
  unfold groupCoords
  rw [mem_map]
  constructor
  · rintro ⟨tile, inside, rfl⟩
    obtain ⟨row, col⟩ := mem_groupTiles.mp inside
    exact ⟨segment_div row _, segment_div col _⟩
  · rintro ⟨row, col⟩
    refine ⟨(coord.1 % blocking.rm, coord.2 % blocking.rn),
      mem_groupTiles.mpr ⟨mod_lt _ blocking.rm_pos, mod_lt _ blocking.rn_pos⟩, ?_⟩
    rw [← row, ← col, div_add_mod', div_add_mod']

theorem nodup_groupCoords (numGroupsM group : Nat) : (groupCoords blocking numGroupsM group).Nodup := by
  refine nodup_groupTiles.map fun tile other same => ?_
  rw [Prod.mk.injEq] at same
  exact Prod.ext (by omega) (by omega)

theorem coords_runGrid : ((runGrid xmx schedule viaMem args blocking).map fun run => (run.row, run.col)) =
    (schedule.order (numTiles args.n / blocking.rn * (numTiles args.m / blocking.rm))).flatMap
      (groupCoords blocking (numTiles args.m / blocking.rm)) := by
  unfold runGrid
  rw [map_flatMap]
  simp only [runGroup, map_map]
  rfl

/-- Every tile of the window is evaluated exactly once. -/
theorem runGrid_perm (rows : blocking.rm ∣ numTiles args.m) (cols : blocking.rn ∣ numTiles args.n) :
    ((runGrid xmx schedule viaMem args blocking).map fun run => (run.row, run.col)).Perm
      ((range (numTiles args.m)).product (range (numTiles args.n))) := by
  rw [coords_runGrid]
  have groupsM := Nat.div_mul_cancel rows
  have groupsN := Nat.div_mul_cancel cols
  generalize numTiles args.m / blocking.rm = numGroupsM at groupsM ⊢
  generalize numTiles args.n / blocking.rn = numGroupsN at groupsN ⊢
  rw [← groupsM, ← groupsN]
  refine (perm_ext_iff_of_nodup ?_ (List.Nodup.product nodup_range nodup_range)).mpr fun coord => ?_
  · -- a tile determines its group
    refine nodup_flatMap.mpr ⟨fun group _ => nodup_groupCoords numGroupsM group, ?_⟩
    refine (schedule.nodup_order _).pairwise_of_forall_ne fun group _ other _ apart => ?_
    intro coord first second
    obtain ⟨row, col⟩ := mem_groupCoords.mp first
    obtain ⟨row', col'⟩ := mem_groupCoords.mp second
    refine apart ?_
    rw [← div_add_mod' group numGroupsM, ← div_add_mod' other numGroupsM, ← row, ← col, row', col']
  · obtain ⟨row, col⟩ := coord
    rw [mem_flatMap]
    refine Iff.trans ?_ (pair_mem_product.trans (and_congr mem_range mem_range)).symm
    constructor
    · rintro ⟨group, inside, member⟩
      obtain ⟨own, own'⟩ := mem_groupCoords.mp member
      have bound := schedule.mem_order.mp inside
      have some' : 0 < numGroupsM := pos_of_ne_zero fun none => by simp [none] at bound
      exact ⟨(div_lt_iff_lt_mul blocking.rm_pos).mp (own ▸ mod_lt group some'),
        (div_lt_iff_lt_mul blocking.rn_pos).mp (own' ▸ (div_lt_iff_lt_mul some').mpr bound)⟩
    · rintro ⟨rowInside, colInside⟩
      have fast := (div_lt_iff_lt_mul blocking.rm_pos).mpr rowInside
      have slow := (div_lt_iff_lt_mul blocking.rn_pos).mpr colInside
      refine ⟨col / blocking.rn * numGroupsM + row / blocking.rm, schedule.mem_order.mpr (segment_lt fast slow), ?_⟩
      rw [mem_groupCoords, segment_mod fast, segment_div fast]
      exact ⟨rfl, rfl⟩

end grid

section dispatch

theorem dispatchNB_spec (tuning : Tuning) (rConst nb : Nat) {rm numTilesM numTilesN : Nat} (rm_pos : 0 < rm)
    (rows : rm ∣ numTilesM) :
    (dispatchNB tuning rConst rm nb numTilesN rm_pos).sg = tuning.sg ∧
    (dispatchNB tuning rConst rm nb numTilesN rm_pos).rConst = rConst ∧
    (dispatchNB tuning rConst rm nb numTilesN rm_pos).rm ∣ numTilesM ∧
    (dispatchNB tuning rConst rm nb numTilesN rm_pos).rn ∣ numTilesN := by
  unfold dispatchNB
  split_ifs with four two
  · exact ⟨rfl, rfl, rows, dvd_of_mod_eq_zero four.2⟩
  · exact ⟨rfl, rfl, rows, dvd_of_mod_eq_zero two.2⟩
  · exact ⟨rfl, rfl, one_dvd _, one_dvd _⟩

theorem dispatchMB_spec (tuning : Tuning) (rConst nb mb numTilesM numTilesN : Nat) :
    (dispatchMB tuning rConst nb mb numTilesM numTilesN).sg = tuning.sg ∧
    (dispatchMB tuning rConst nb mb numTilesM numTilesN).rConst = rConst ∧
    (dispatchMB tuning rConst nb mb numTilesM numTilesN).rm ∣ numTilesM ∧
    (dispatchMB tuning rConst nb mb numTilesM numTilesN).rn ∣ numTilesN := by
  unfold dispatchMB
  split
  next two => exact dispatchNB_spec tuning rConst nb _ (dvd_of_mod_eq_zero two.2)
  next => exact dispatchNB_spec tuning rConst nb _ (one_dvd _)

theorem dispatch_spec (tuning : Tuning) (args : TgemmArgs) :
    (dispatch tuning args).sg = tuning.sg ∧ rVal (dispatch tuning args) args = args.r ∧
    (dispatch tuning args).rm ∣ numTiles args.m ∧ (dispatch tuning args).rn ∣ numTiles args.n := by
  obtain ⟨sg, rConst, rows, cols⟩ := dispatchMB_spec tuning
    (if tuning.hpg = false ∧ args.r = 128 then 128 else 0)
    (if 0 < tuning.nbEnv then tuning.nbEnv else if tuning.hpg then 2 else 4)
    (if 0 < tuning.mbEnv then tuning.mbEnv else if tuning.hpg then 1 else 2) (numTiles args.m) (numTiles args.n)
  refine ⟨sg, ?_, rows, cols⟩
  unfold rVal dispatch
  rw [rConst]
  by_cases unrolled : tuning.hpg = false ∧ args.r = 128
  · rw [if_pos unrolled, if_pos (by decide), unrolled.2]
  · rw [if_neg unrolled, if_neg (by decide)]

end dispatch

theorem launchTgemmPow_perm (xmx : Xmx) (schedule : Schedule) (viaMem : Bool) (tuning : Tuning) {args : TgemmArgs}
    (rows : 16 ∣ args.m) (cols : 16 ∣ args.n) :
    ((launchTgemmPow xmx schedule viaMem tuning args).map fun run => (run.row, run.col)).Perm
      ((range (args.m / 16)).product (range (args.n / 16))) := by
  obtain ⟨-, -, rowBlocks, colBlocks⟩ := dispatch_spec tuning args
  have tilesM : numTiles args.m = args.m / 16 := by
    unfold numTiles
    omega
  have tilesN : numTiles args.n = args.n / 16 := by
    unfold numTiles
    omega
  rw [← tilesM, ← tilesN]
  exact runGrid_perm rowBlocks colBlocks

open AkoyaCrypto.JackpotComputer CSharp

/-- Whatever the dispatcher chooses and in whatever order the groups run, each tile of the window is evaluated once.
Its transcript is what the host computes from the rows and columns of the tile, exactly if the loop counter of the host
stays an `int`. -/
theorem tgemm_transcripts_agree (xmx : Xmx) (schedule : Schedule) (viaMem : Bool) (tuning : Tuning) (args : TgemmArgs)
    (exact : xmx.Exact tuning.sg) (rows : 16 ∣ args.m) (cols : 16 ∣ args.n) (positive : 0 < args.r)
    (multiple : 32 ∣ args.r) (divides : args.r ∣ args.k) (int : args.k < 2 ^ 31) (rank : args.r < 2 ^ 31) :
    ((launchTgemmPow xmx schedule viaMem tuning args).map fun run => (run.row, run.col)).Perm
      ((range (args.m / 16)).product (range (args.n / 16))) ∧
    ∀ run ∈ launchTgemmPow xmx schedule viaMem tuning args, ∀ inputs : Rows,
      Shaped inputs.secretA 16 args.k → Shaped inputs.secretB 16 args.k →
      Shaped inputs.noiseA 16 args.k → Shaped inputs.noiseB 16 args.k →
      (∀ u < 16, ∀ l < args.k, rowEntries args (run.row * 16 + u) l = noised inputs.secretA inputs.noiseA u l) →
      (∀ v < 16, ∀ l < args.k, colEntries args (run.col * 16 + v) l = noised inputs.secretB inputs.noiseB v l) →
      (compute 16 16 args.k args.r inputs = .ok run.transcript ↔ args.k + args.r < 2 ^ 31) := by
  obtain ⟨sg, rVal, -, -⟩ := dispatch_spec tuning args
  refine ⟨launchTgemmPow_perm xmx schedule viaMem tuning rows cols, ?_⟩
  intro run member inputs aShaped bShaped aNoise bNoise left right
  obtain ⟨group, _, inside⟩ := mem_flatMap.mp member
  rw [compute_ok_iff aShaped bShaped aNoise bNoise positive divides int rank,
    runGroup_transcript (sg ▸ exact) viaMem rVal multiple positive divides inside]
  refine and_iff_right (transcript_congr (fun u row l bound => ?_) fun v col l bound => ?_)
  · exact left u row l (Nat.div_mul_cancel divides ▸ bound)
  · exact right v col l (Nat.div_mul_cancel divides ▸ bound)

section zeros

def zeroArgs (k r : Nat) : TgemmArgs := ⟨fun _ => 0, fun _ => 0, 32, 48, k, r, 0⟩

def zeroRows (k : Nat) : List (List Int8) := replicate 16 (replicate k 0)

def zeroInputs (k : Nat) : Rows := ⟨zeroRows k, zeroRows k, zeroRows k, zeroRows k⟩

theorem zeroRows_getD (k u : Nat) : (zeroRows k).getD u [] = if u < 16 then replicate k 0 else [] := by
  rw [zeroRows, getD_eq_getElem?_getD, getElem?_replicate]
  split <;> rfl

theorem zeroRows_shaped (k : Nat) : Shaped (zeroRows k) 16 k :=
  ⟨length_replicate, fun u row => by rw [zeroRows_getD, if_pos row, length_replicate]⟩

theorem noised_zeroRows (k u l : Nat) : noised (zeroRows k) (zeroRows k) u l = 0 := by
  have entry : ((zeroRows k).getD u []).getD l 0 = 0 := by
    rw [zeroRows_getD]
    split
    · rw [getD_eq_getElem?_getD, getElem?_replicate]
      split <;> rfl
    · rfl
  rw [noised, entry]
  rfl

theorem tgemm_transcripts_agree_zeros :
    ((launchTgemmPow .reference .ascending false ⟨false, 0, 0⟩ (zeroArgs 192 64)).map fun run => (run.row, run.col)).Perm
      ((range 2).product (range 3)) ∧
    ∀ run ∈ launchTgemmPow .reference .ascending false ⟨false, 0, 0⟩ (zeroArgs 192 64),
      compute 16 16 192 64 (zeroInputs 192) = .ok run.transcript := by
  obtain ⟨once, agree⟩ := tgemm_transcripts_agree .reference .ascending false ⟨false, 0, 0⟩ (zeroArgs 192 64)
    (Xmx.reference_exact 16) (by decide) (by decide) (by decide) (by decide) (by decide) (by decide) (by decide)
  have shaped := zeroRows_shaped 192
  exact ⟨once, fun run member => (agree run member (zeroInputs 192) shaped shaped shaped shaped
    (fun u _ l _ => (noised_zeroRows 192 u l).symm) fun v _ l _ => (noised_zeroRows 192 v l).symm).mpr (by decide)⟩

/-- The longest rows that a rank of 64 divides: the counter of the host wraps behind the last block. -/
theorem long_rows_throw :
    ∃ run ∈ launchTgemmPow .reference .ascending false ⟨false, 0, 0⟩ (zeroArgs (2 ^ 31 - 64) 64),
      compute 16 16 (2 ^ 31 - 64 : Nat) 64 (zeroInputs (2 ^ 31 - 64)) ≠ .ok run.transcript := by
  have once := launchTgemmPow_perm .reference .ascending false ⟨false, 0, 0⟩
    (show 16 ∣ (zeroArgs (2 ^ 31 - 64) 64).m by decide) (show 16 ∣ (zeroArgs (2 ^ 31 - 64) 64).n by decide)
  have tile : (0, 0) ∈ (range 2).product (range 3) := by decide
  obtain ⟨run, member, -⟩ := mem_map.mp (once.mem_iff.mpr tile)
  have shaped := zeroRows_shaped (2 ^ 31 - 64)
  refine ⟨run, member, fun returned => ?_⟩
  have fits := ((@compute_ok_iff (zeroInputs (2 ^ 31 - 64)) 16 16 _ shaped shaped shaped shaped 64 (by decide) (by decide)
    (by decide) (by decide) _).mp returned).2
  revert fits
  decide

end zeros
end ArcMiner.PearlGemm
