import ArcMiner.Library.Race
import ArcMiner.MinerCore.HostSignal
import ArcMiner.PearlGemm.Blake3Device
import ArcMiner.PearlGemm.TgemmTranscript

/-! The proof-of-work check at the end of `launch_tgemm_pow`, and what the host reads of a win.

The leaders of the sub-groups hash their tiles at the same time. A tile whose hash meets
the target tries to claim `host_signal` and, if it is the first, fills the header.
-/

namespace ArcMiner.PearlGemm

open Library B3 MinerCore MinerCore.HostSignalHeaderLayout List GpuWorker

/-- A hashed tile. The sizes of a window are `int`s, so there are fewer than `2 ^ 27` tiles in a direction. -/
structure HashedTile where
  row : Nat
  col : Nat
  hash : Node
  rowFits : row < 2 ^ 27
  colFits : col < 2 ^ 27

def HashedTile.value (tile : HashedTile) : Nat := digestValue (cvToBytes tile.hash)

def word (cv : Node) (e : Nat) : UInt32 := cv.toList.getD e 0

def meetsTarget (hw powTarget : Node) : Nat → Bool
  | 0 => true
  | e + 1 =>
    if word powTarget e < word hw e then false
    else if word hw e < word powTarget e then true
    else meetsTarget hw powTarget e

def storeWord (offset : Nat) (w : UInt32) : List (Nat × UInt8) := (range 4).map fun i => (offset + i, wordByte w i)

def threadStores : List (Nat × UInt8) := (range 16).flatMap fun e => [(66 + e, e.toUInt8), (322 + e, e.toUInt8)]

def headerStores (tile : HashedTile) : List (Nat × UInt8) :=
  storeWord 0 1 ++ storeWord 40 tile.row.toUInt32 ++ storeWord 44 tile.col.toUInt32 ++ storeWord 48 0 ++
  [(64, 16), (65, 0)] ++ threadStores ++ storeWord 592 16 ++ storeWord 596 16 ++ storeWord 600 0

section check
variable (powTarget : Digest) (tiles : List HashedTile)

def powCheck (order : List (Fin tiles.length)) : Race.State (Fin tiles.length) UInt8 :=
  Race.run (fun i => meetsTarget (tiles.get i).hash (keyWords powTarget) 8) (fun i => headerStores (tiles.get i)) order
    (Race.start fun _ => 0)

def Finished (order : List (Fin tiles.length)) : Prop := ∀ i, (powCheck powTarget tiles order).phase i = .done

def headerBytes (order : List (Fin tiles.length)) : List UInt8 := tabulate (powCheck powTarget tiles order).memory 640

end check

theorem meetsTarget_iff (hw powTarget : Node) (k : Nat) :
    meetsTarget hw powTarget k = true ↔ wordsValue (word hw) k ≤ wordsValue (word powTarget) k := by
  induction k with
  | zero => simp [meetsTarget, wordsValue, radixValue]
  | succ e ih =>
    rw [meetsTarget, wordsValue_le_iff, ← ih]
    split
    next more =>
      have notLess := UInt32.lt_asymm more
      have differ := (UInt32.ne_of_lt more).symm
      simp [notLess, differ]
    next notMore =>
      split
      next less => simp [less]
      next notLess =>
        have same := UInt32.le_antisymm (UInt32.not_lt.mp notMore) (UInt32.not_lt.mp notLess)
        simp [same]

theorem wordsValue_keyWords (d : Digest) : wordsValue (word (keyWords d)) 8 = digestValue d := by
  refine wordsValue_bytes fun j inside => ?_
  have entry : word (keyWords d) j = leWordAt d.toList (4 * j) := by
    unfold word
    rw [getD_eq_getElem _ _ (by rw [Vector.length_toList]; exact inside), Vector.getElem_toList, keyWords,
      Vector.getElem_ofFn]
  rw [entry, Nat.mul_comm]
  rfl

theorem meetsTarget_powTarget (tile : HashedTile) (adjusted : Nat) :
    meetsTarget tile.hash (keyWords (powTarget adjusted)) 8 = true ↔ tile.value ≤ adjusted := by
  have hash : wordsValue (word tile.hash) 8 = tile.value := by
    rw [HashedTile.value, ← wordsValue_keyWords, keyWords_cvToBytes]
  rw [meetsTarget_iff, wordsValue_keyWords, hash]
  exact le_powTarget_iff _ _

theorem finished_of_turns {powTarget : Digest} {tiles : List HashedTile} {order : List (Fin tiles.length)}
    (turns : ∀ i, 65 ≤ order.count i) : Finished powTarget tiles order := fun i =>
  Race.run_done _ _ (turns i)

def blockIndices (block : Nat) : List Nat := (range 16).map fun e => block * 16 + e

theorem blockIndices_eq {block : Nat} (fits : block < 2 ^ 27) :
    (((range 16).map Nat.toUInt8).map fun r => block.toUInt32 * 16 + r.toUInt32).map UInt32.toNat =
      blockIndices block := by
  unfold blockIndices
  rw [map_map, map_map]
  refine map_congr_left fun e member => ?_
  have early := mem_range.mp member
  simp only [Function.comp_apply, Nat.toUInt32, Nat.toUInt8, UInt32.toNat_add, UInt32.toNat_mul, UInt32.toNat_ofNat',
    UInt8.toNat_toUInt32, UInt8.toNat_ofNat', UInt32.reduceToNat]
  omega

theorem storeAll_headerStores {tile : HashedTile} {place : Nat} {value : UInt8}
    (stored : (place, value) ∈ headerStores tile) (memory : Nat → UInt8) :
    storeAll (headerStores tile) memory place = value := by
  have fixed : (headerStores tile).map Prod.fst =
      (headerStores ⟨0, 0, Vector.replicate 8 0, by decide, by decide⟩).map Prod.fst := rfl
  have places : ((headerStores tile).map Prod.fst).Nodup := by
    rw [fixed]
    decide +kernel
  exact storeAll_of_nodup places stored memory

variable (tile : HashedTile) (memory : Nat → UInt8)

theorem word_headerStores (offset : Nat) (w : UInt32)
    (stored : ∀ store ∈ storeWord offset w, store ∈ headerStores tile) :
    leWord (storeAll (headerStores tile) memory offset) (storeAll (headerStores tile) memory (offset + 1))
      (storeAll (headerStores tile) memory (offset + 2)) (storeAll (headerStores tile) memory (offset + 3)) = w := by
  have byte (i : Nat) (inside : i < 4) : storeAll (headerStores tile) memory (offset + i) = wordByte w i :=
    storeAll_headerStores (stored _ (mem_map_of_mem (mem_range.mpr inside))) memory
  have first := byte 0 (by decide)
  rw [Nat.add_zero] at first
  rw [first, byte 1 (by decide), byte 2 (by decide), byte 3 (by decide), leWord_wordByte]

theorem threads_headerStores (off : Nat)
    (stored : ∀ e, (off + e, e.toUInt8) ∈ [(66 + e, e.toUInt8), (322 + e, e.toUInt8)]) :
    tabulate (fun i => storeAll (headerStores tile) memory (off + i)) 16 = (range 16).map Nat.toUInt8 := by
  refine tabulate_congr fun e inside => storeAll_headerStores ?_ memory
  have member : (off + e, e.toUInt8) ∈ threadStores :=
    mem_flatMap.mpr ⟨e, mem_range.mpr inside, stored e⟩
  simp only [headerStores, mem_append, member, true_or, or_true]

theorem extractIndices_headerStores :
    ∃ indices, extractIndices (tabulate (storeAll (headerStores tile) memory) 640) = .ok indices ∧
      indices.aRowIndices.map UInt32.toNat = blockIndices tile.row ∧
      indices.bColumnIndices.map UInt32.toNat = blockIndices tile.col := by
  have regs : toUInt16 [storeAll (headerStores tile) memory 64, storeAll (headerStores tile) memory 65] =
      (16).toUInt16 := by
    rw [storeAll_headerStores (show (64, 16) ∈ headerStores tile by simp [headerStores]),
      storeAll_headerStores (show (65, 0) ∈ headerStores tile by simp [headerStores])]
    decide
  have threadRows := threads_headerStores tile memory offThreadRows fun e => mem_cons_self
  have threadCols := threads_headerStores tile memory offThreadCols fun e =>
    mem_cons_of_mem _ mem_cons_self
  have row := word_headerStores tile memory 40 tile.row.toUInt32 fun store member => by simp [headerStores, member]
  have col := word_headerStores tile memory 44 tile.col.toUInt32 fun store member => by simp [headerStores, member]
  have height := word_headerStores tile memory 592 16 fun store member => by simp [headerStores, member]
  have width := word_headerStores tile memory 596 16 fun store member => by simp [headerStores, member]
  have sorted : compact (((range 16).map Nat.toUInt8).insertionSort (· ≤ ·)) = (range 16).map Nat.toUInt8 := by
    decide
  rw [extractIndices_tabulate (by decide) 16 (by decide) (by decide) regs, threadRows, threadCols, sorted, row, col,
    height, width]
  exact ⟨_, rfl, blockIndices_eq tile.rowFits, blockIndices_eq tile.colFits⟩

theorem status_tabulate (memory : Nat → UInt8) :
    status (tabulate memory 640) = (leWord (memory 0) (memory 1) (memory 2) (memory 3)).toInt32 := by
  have entry (i : Nat) (inside : i < 640) : (tabulate memory 640).getD i 0 = memory i := by
    rw [getD_eq_getElem?_getD, getElem?_tabulate memory inside, Option.getD_some]
  unfold status leWordAt offStatus
  rw [entry 0 (by decide), entry _ (by decide), entry _ (by decide), entry _ (by decide)]

theorem status_headerStores :
    status (tabulate (storeAll (headerStores tile) memory) 640) = 1 := by
  rw [status_tabulate, word_headerStores tile memory 0 1 fun store member => by simp [headerStores, member]]
  rfl

/-- Whatever order the tiles take their steps in, the header of a finished launch reports a win exactly when
some hash is at most the target, and then it leads the host to the rows and columns of such a tile. -/
theorem win_reported_iff (adjusted : Nat) (tiles : List HashedTile) (order : List (Fin tiles.length))
    (finished : Finished (powTarget adjusted) tiles order) :
    (status (headerBytes (powTarget adjusted) tiles order) = 1 ↔ ∃ tile ∈ tiles, tile.value ≤ adjusted) ∧
    (status (headerBytes (powTarget adjusted) tiles order) = 1 →
      ∃ tile ∈ tiles, tile.value ≤ adjusted ∧
        ∃ indices, extractIndices (headerBytes (powTarget adjusted) tiles order) = .ok indices ∧
          indices.aRowIndices.map UInt32.toNat = blockIndices tile.row ∧
          indices.bColumnIndices.map UInt32.toNat = blockIndices tile.col) := by
  unfold headerBytes
  rcases Race.run_result finished with ⟨none, clean⟩ | ⟨winner, able, written⟩
  · -- no tile meets the target, and the header is as it was
    have quiet : status (tabulate (powCheck (powTarget adjusted) tiles order).memory 640) ≠ 1 := by
      rw [powCheck, clean, status_tabulate]
      decide
    refine ⟨⟨fun won => absurd won quiet, ?_⟩, fun won => absurd won quiet⟩
    rintro ⟨tile, member, meets⟩
    obtain ⟨i, rfl⟩ := get_of_mem member
    exact absurd ((meetsTarget_powTarget _ _).mpr meets) (by rw [none i]; exact Bool.false_ne_true)
  · have meets := (meetsTarget_powTarget _ _).mp able
    rw [powCheck, written]
    exact ⟨⟨fun _ => ⟨_, get_mem _ _, meets⟩, fun _ => status_headerStores _ _⟩,
      fun _ => ⟨_, get_mem _ _, meets, extractIndices_headerStores _ _⟩⟩

def twoTiles : List HashedTile :=
  [⟨0, 1, Vector.replicate 8 9, by decide, by decide⟩, ⟨3, 2, Vector.replicate 8 0, by decide, by decide⟩]

def inTurn : List (Fin twoTiles.length) := replicate 65 ⟨0, by decide⟩ ++ replicate 65 ⟨1, by decide⟩

theorem win_reported_iff_two :
    ∃ tile ∈ twoTiles, tile.value ≤ 5 ∧
      ∃ indices, extractIndices (headerBytes (powTarget 5) twoTiles inTurn) = .ok indices ∧
        indices.aRowIndices.map UInt32.toNat = blockIndices tile.row ∧
        indices.bColumnIndices.map UInt32.toNat = blockIndices tile.col := by
  obtain ⟨reported, decoded⟩ := win_reported_iff 5 twoTiles inTurn
    (finished_of_turns (by decide))
  exact decoded (reported.mpr ⟨⟨3, 2, Vector.replicate 8 0, by decide, by decide⟩, by simp [twoTiles], by decide⟩)

section launch
variable (xmx : Xmx) (schedule : Schedule) (viaMem : Bool) (tuning : Tuning) (args : TgemmArgs)

theorem launchTgemmPow_inside {run : TileRun} (member : run ∈ launchTgemmPow xmx schedule viaMem tuning args) :
    run.row < numTiles args.m ∧ run.col < numTiles args.n := by
  obtain ⟨_, _, rows, cols⟩ := dispatch_spec tuning args
  have coords := (runGrid_perm rows cols).mem_iff.mp (mem_map_of_mem (f := fun run => (run.row, run.col)) member)
  simpa using coords

def hashedTiles (powKey : Node) (mFits : args.m < 2 ^ 31) (nFits : args.n < 2 ^ 31) : List HashedTile :=
  (launchTgemmPow xmx schedule viaMem tuning args).attach.map fun run =>
    have inside := launchTgemmPow_inside xmx schedule viaMem tuning args run.property
    { row := run.val.row
      col := run.val.col
      hash := hashBlockU32 run.val.transcript (some powKey)
      rowFits := by
        have := inside.1
        unfold numTiles at this
        omega
      colFits := by
        have := inside.2
        unfold numTiles at this
        omega }

/-- Every tile of the search window is hashed exactly once. -/
theorem hashedTiles_perm (powKey : Node) (mFits : args.m < 2 ^ 31) (nFits : args.n < 2 ^ 31) :
    ((hashedTiles xmx schedule viaMem tuning args powKey mFits nFits).map fun tile => (tile.row, tile.col)).Perm
      ((range (numTiles args.m)).product (range (numTiles args.n))) := by
  obtain ⟨_, _, rows, cols⟩ := dispatch_spec tuning args
  have coords : ((hashedTiles xmx schedule viaMem tuning args powKey mFits nFits).map fun tile => (tile.row, tile.col)) =
      (launchTgemmPow xmx schedule viaMem tuning args).map fun run => (run.row, run.col) := by
    rw [hashedTiles, map_map]
    exact attach_map_val (f := fun run : TileRun => (run.row, run.col))
  rw [coords]
  exact runGrid_perm rows cols

end launch

theorem hashedTiles_perm_two : ((hashedTiles .reference .ascending false ⟨false, 0, 0⟩ ⟨fun _ => 0, fun _ => 0, 32, 16, 48, 32, 0⟩
    (Vector.replicate 8 0) (by decide) (by decide)).map fun tile => (tile.row, tile.col)).Perm [(0, 0), (1, 0)] :=
  hashedTiles_perm ..

end ArcMiner.PearlGemm
