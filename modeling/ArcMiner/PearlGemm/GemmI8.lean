import ArcMiner.Library.Kernel
import ArcMiner.Library.LittleEndian
import ArcMiner.Library.MachineInt
import ArcMiner.PearlGemm.Xmx

/-! `launch_gemm_i8`, `launch_add_i8` and `launch_transpose_i8`: the products and sums behind noised rows. -/

namespace ArcMiner.PearlGemm

open Library Spec List Nat

section gemm
variable (a b : Nat → Int8) (m n k : Nat)

def xmxAccumulator (xmx : Xmx) (width gr0 gc0 t : Nat) : Fragment Int32 :=
  (range ((k + 31) / 32)).foldl (fun c j =>
    xmx.mad width (load a (gr0 * k + 32 * j) k) (load b (32 * j * n + (gc0 + t * width)) n) c) fun _ _ => 0

def xmxStores (xmx : Xmx) (width rowBlocks group : Nat) : List (Nat × Int32) :=
  let gr0 := group % rowBlocks * 8
  let gc0 := group / rowBlocks * (8 * width)
  (range 8).flatMap fun t => (range 8).flatMap fun row => (range width).map fun col =>
    (gr0 * n + gc0 + t * width + row * n + col, xmxAccumulator a b n k xmx width gr0 gc0 t row col)

def gemmI8Xmx (xmx : Xmx) (schedule : Schedule) (width : Nat) (c : Nat → Int32) : Nat → Int32 :=
  let rowBlocks := m / 8
  let nGroups := n / (8 * width)
  parallelFor schedule (nGroups * rowBlocks) (fun group => storeAll (xmxStores a b n k xmx width rowBlocks group)) c

/-- `lA` after the barrier: every item of the group has staged one entry. -/
def stageA (grpRow k0 i : Nat) : Int8 :=
  let gr := grpRow * 16 + i / 16
  let lc := i % 16
  if gr < m ∧ k0 + lc < k then a (sizeT (int32 (gr * k + k0 + lc))) else 0

def stageB (grpCol k0 i : Nat) : Int8 :=
  let lr := i / 16
  let gc := grpCol * 16 + i % 16
  if k0 + lr < k ∧ gc < n then b (sizeT (int32 ((k0 + lr) * n + gc))) else 0

/-- The products of one staged tile, four at a time. -/
def addTile (lA lB : Nat → Int8) (lr lc : Nat) (acc : Int32) : Int32 :=
  (range 4).foldl (fun acc q =>
    let p := 4 * q
    acc + ((lA (lr * 16 + p)).toInt32 * (lB (p * 16 + lc)).toInt32 +
      (lA (lr * 16 + (p + 1))).toInt32 * (lB ((p + 1) * 16 + lc)).toInt32 +
      (lA (lr * 16 + (p + 2))).toInt32 * (lB ((p + 2) * 16 + lc)).toInt32 +
      (lA (lr * 16 + (p + 3))).toInt32 * (lB ((p + 3) * 16 + lc)).toInt32)) acc

def scalarAcc (grpRow grpCol lr lc : Nat) : Int32 :=
  (range ((k + 15) / 16)).foldl
    (fun acc j => addTile (stageA a m k grpRow (16 * j)) (stageB b n k grpCol (16 * j)) lr lc acc) 0

def scalarStores (groupsN group : Nat) : List (Nat × Int32) :=
  let grpRow := group / groupsN
  let grpCol := group % groupsN
  (range 16).flatMap fun lr => (range 16).filterMap fun lc =>
    let gr := grpRow * 16 + lr
    let gc := grpCol * 16 + lc
    if gr < m ∧ gc < n then some (sizeT (int32 (gr * n + gc)), scalarAcc a b m n k grpRow grpCol lr lc) else none

def gemmI8Scalar (schedule : Schedule) (c : Nat → Int32) : Nat → Int32 :=
  let groupsM := (m + 15) / 16
  let groupsN := (n + 15) / 16
  parallelFor schedule (groupsM * groupsN) (fun group => storeAll (scalarStores a b m n k groupsN group)) c

def launchGemmI8 (xmx : Xmx) (schedule : Schedule) (hpg : Bool) (c : Nat → Int32) : Nat → Int32 :=
  let xn := if hpg then 8 else 16
  if m % 8 = 0 ∧ n % (8 * xn) = 0 ∧ k % 32 = 0 then gemmI8Xmx a b m n k xmx schedule xn c
  else gemmI8Scalar a b m n k schedule c

end gemm

section add
variable (a : Nat → Int8) (e : Nat → Int32)

def addWord (a4 : UInt32) (e4 : Nat → Int32) : UInt32 :=
  (range 4).foldl (fun out4 lane =>
    let av := (wordByte a4 lane).toInt8
    let ev := (e4 lane).toInt8
    out4 ||| ((av + ev).toUInt8.toUInt32 <<< (8 * lane).toUInt32)) 0

/-- Thread `t`: four entries in one word, or the tail one by one. -/
def addStores (n : Int) (t : Nat) : List (Nat × Int8) :=
  let i := int32 (int32 t * 4)
  if int32 (i + 4) ≤ n then
    let p := sizeT i
    let a4 := leWord (a p).toUInt8 (a (p + 1)).toUInt8 (a (p + 2)).toUInt8 (a (p + 3)).toUInt8
    let out4 := addWord a4 fun lane => e (p + lane)
    (range 4).map fun lane => (p + lane, (wordByte out4 lane).toInt8)
  else if i < n then
    (range (n - i).toNat).map fun (j : Nat) => (sizeT (i + j), a (sizeT (i + j)) + (e (sizeT (i + j))).toInt8)
  else []

def launchAddI8 (schedule : Schedule) (n : Int) (out : Nat → Int8) : Nat → Int8 :=
  let threads := (int32 (n + 3)).tdiv 4
  parallelFor schedule (launchSize threads 256) (fun t => storeAll (addStores a e n t)) out

end add

def transposeStores (input : Nat → Int8) (base rows cols id : Nat) : List (Nat × Int8) :=
  let i := int32 id
  if int32 (rows * cols) ≤ i then []
  else
    let r := i.tdiv cols
    let c := i.tmod cols
    [(base + sizeT (c * rows + r), input (sizeT i))]

def launchTransposeI8 (schedule : Schedule) (input : Nat → Int8) (base rows cols : Nat) (out : Nat → Int8) : Nat → Int8 :=
  parallelFor schedule (launchSize (int32 (rows * cols)) 256)
    (fun id => storeAll (transposeStores input base rows cols id)) out

section gemm
variable {a b : Nat → Int8} {m n k : Nat}

/-- Entry `(i, j)` of the product of an `m` by `k` and a `k` by `n` matrix, both row by row. -/
def product (a b : Nat → Int8) (n k i j : Nat) : Int32 :=
  dot (fun l => (a (i * k + l)).toInt) (fun l => (b (l * n + j)).toInt) k

section xmx
variable {xmx : Xmx} {width : Nat} (exact : xmx.Exact width)
include exact

theorem xmxAccumulator_eq (blocks : k % 32 = 0) {gr0 gc0 t row col : Nat} (inRow : row < 8) (inCol : col < width) :
    xmxAccumulator a b n k xmx width gr0 gc0 t row col = product a b n k (gr0 + row) (gc0 + t * width + col) := by
  have steps : ∀ count, (range count).foldl (fun c j =>
      xmx.mad width (load a (gr0 * k + 32 * j) k) (load b (32 * j * n + (gc0 + t * width)) n) c) (fun _ _ => 0) row col =
      dot (fun l => (a ((gr0 + row) * k + l)).toInt) (fun l => (b (l * n + (gc0 + t * width + col))).toInt)
        (32 * count) := by
    intro count
    induction count with
    | zero => simp [dot]
    | succ count ih =>
      rw [range_succ, foldl_append, mul_succ]
      exact exact.mad_load inRow inCol ih
  have whole : 32 * ((k + 31) / 32) = k := by omega
  rw [xmxAccumulator, steps, whole, product]

theorem xmxStores_fill (positive : 0 < width) (rows : m % 8 = 0) (cols : n % (8 * width) = 0) (blocks : k % 32 = 0) :
    Fills (n / (8 * width) * (m / 8)) (xmxStores a b n k xmx width (m / 8)) (· < m * n)
      fun place => product a b n k (place / n) (place % n) := by
  obtain ⟨rowBlocks, rfl⟩ : ∃ rowBlocks, m = rowBlocks * 8 := ⟨m / 8, by omega⟩
  obtain ⟨nGroups, rfl⟩ : ∃ nGroups, n = nGroups * (8 * width) :=
    ⟨n / (8 * width), (Nat.div_mul_cancel (Nat.dvd_of_mod_eq_zero cols)).symm⟩
  rw [Nat.mul_div_cancel rowBlocks (show 0 < 8 by decide), Nat.mul_div_cancel nGroups (show 0 < 8 * width by omega)]
  generalize wide : nGroups * (8 * width) = n
  constructor
  -- a store writes the entry of its place
  · intro group launched store member
    simp only [xmxStores, mem_flatMap, mem_map, mem_range] at member
    obtain ⟨t, tile, row, inRow, col, inCol, rfl⟩ := member
    have count : 0 < rowBlocks := by
      rcases Nat.eq_zero_or_pos rowBlocks with rfl | positive
      · simp at launched
      · exact positive
    have rowBound : group % rowBlocks * 8 + row < rowBlocks * 8 := segment_lt inRow (Nat.mod_lt group count)
    have colBound : group / rowBlocks * (8 * width) + (t * width + col) < n := by
      rw [← wide]
      exact segment_lt (segment_lt inCol tile) ((Nat.div_lt_iff_lt_mul count).mpr launched)
    have place : group % rowBlocks * 8 * n + group / rowBlocks * (8 * width) + t * width + row * n + col =
        (group % rowBlocks * 8 + row) * n + (group / rowBlocks * (8 * width) + (t * width + col)) := by ring
    rw [xmxAccumulator_eq exact blocks inRow inCol, place, segment_div colBound, segment_mod colBound, Nat.add_assoc _ (t * width)]
    exact ⟨segment_lt colBound rowBound, rfl⟩
  -- and a place is written by the group, tile, row and column it falls into
  · intro place inside
    have nonempty : 0 < n := by
      rcases Nat.eq_zero_or_pos n with rfl | positive
      · simp at inside
      · exact positive
    have rowBound : place / n < rowBlocks * 8 := (Nat.div_lt_iff_lt_mul nonempty).mpr inside
    have colBound : place % n < nGroups * (8 * width) := by
      rw [wide]
      exact Nat.mod_lt place nonempty
    generalize row : place / n = i at rowBound
    generalize col : place % n = j at colBound
    have count : 0 < rowBlocks := by omega
    have groupRow : i / 8 < rowBlocks := by omega
    have groupCol : j / (8 * width) < nGroups := (Nat.div_lt_iff_lt_mul (by omega)).mpr colBound
    have inner : j % (8 * width) < 8 * width := Nat.mod_lt j (by omega)
    have tile : j % (8 * width) / width < 8 := (Nat.div_lt_iff_lt_mul positive).mpr inner
    refine ⟨j / (8 * width) * rowBlocks + i / 8, segment_lt groupRow groupCol, ?_⟩
    simp only [xmxStores, segment_div groupRow, segment_mod groupRow, mem_flatMap, mem_map, mem_range]
    refine ⟨j % (8 * width) / width, tile, i % 8, Nat.mod_lt i (by decide), j % (8 * width) % width,
      Nat.mod_lt _ positive, ?_⟩
    have rowEq : i / 8 * 8 + i % 8 = i := Nat.div_add_mod' i 8
    have colEq : j / (8 * width) * (8 * width) + j % (8 * width) / width * width + j % (8 * width) % width = j := by
      rw [Nat.add_assoc, Nat.div_add_mod', Nat.div_add_mod']
    rw [xmxAccumulator_eq exact blocks (Nat.mod_lt i (by decide)) (Nat.mod_lt _ positive), rowEq, colEq]
    refine Prod.ext ?_ rfl
    calc i / 8 * 8 * n + j / (8 * width) * (8 * width) + j % (8 * width) / width * width + i % 8 * n + j % (8 * width) % width
        = (i / 8 * 8 + i % 8) * n +
          (j / (8 * width) * (8 * width) + j % (8 * width) / width * width + j % (8 * width) % width) := by ring
      _ = place := by rw [rowEq, colEq, ← row, ← col, Nat.div_add_mod']

end xmx

def paddedRow (a : Nat → Int8) (k i l : Nat) : Int := if l < k then (a (i * k + l)).toInt else 0

def paddedCol (b : Nat → Int8) (n k j l : Nat) : Int := if l < k then (b (l * n + j)).toInt else 0

theorem dot_padded (a b : Nat → Int8) (n i j : Nat) {size : Nat} (enough : k ≤ size) :
    dot (paddedRow a k i) (paddedCol b n k j) size = product a b n k i j := by
  obtain ⟨more, rfl⟩ := Nat.exists_eq_add_of_le enough
  have zeros : ∀ l, k ≤ l → paddedRow a k i l = 0 := fun l past => if_neg (by omega)
  rw [dot_of_zeros zeros]
  exact dot_congr (fun l inside => if_pos inside) (fun l inside => if_pos inside)

theorem addTile_eq {lA lB : Nat → Int8} {lr lc start : Nat} {x y : Nat → Int} {acc : Int32}
    (left : ∀ p < 16, (lA (lr * 16 + p)).toInt = x (start + p)) (right : ∀ p < 16, (lB (p * 16 + lc)).toInt = y (start + p))
    (before : acc = dot x y start) : addTile lA lB lr lc acc = dot x y (start + 16) := by
  have entry : ∀ p < 16, (lA (lr * 16 + p)).toInt32 * (lB (p * 16 + lc)).toInt32 =
      Int32.ofInt (x (start + p)) * Int32.ofInt (y (start + p)) := by
    intro p within
    rw [← left p within, ← right p within, Int32.ofInt_int8ToInt, Int32.ofInt_int8ToInt]
  have steps : ∀ count ≤ 4, (range count).foldl (fun acc q =>
      acc + ((lA (lr * 16 + 4 * q)).toInt32 * (lB (4 * q * 16 + lc)).toInt32 +
      (lA (lr * 16 + (4 * q + 1))).toInt32 * (lB ((4 * q + 1) * 16 + lc)).toInt32 +
      (lA (lr * 16 + (4 * q + 2))).toInt32 * (lB ((4 * q + 2) * 16 + lc)).toInt32 +
      (lA (lr * 16 + (4 * q + 3))).toInt32 * (lB ((4 * q + 3) * 16 + lc)).toInt32)) acc =
      dot x y (start + 4 * count) := by
    intro count within
    induction count with
    | zero => exact before
    | succ count ih =>
      rw [range_succ, foldl_append, ih (by omega), foldl_cons, foldl_nil, entry _ (by omega),
        entry _ (by omega), entry _ (by omega), entry _ (by omega), mul_succ]
      rw [show start + (4 * count + 4) = start + 4 * count + 1 + 1 + 1 + 1 by omega, dot_succ, dot_succ, dot_succ,
        dot_succ]
      simp only [Int32.add_assoc, add_assoc]
  exact steps 4 (by decide)

section scalar

theorem stageA_eq (fits : m * k ≤ 2 ^ 31) {grpRow k0 lr p : Nat} (within : p < 16) (row : grpRow * 16 + lr < m) :
    (stageA a m k grpRow k0 (lr * 16 + p)).toInt = paddedRow a k (grpRow * 16 + lr) (k0 + p) := by
  rw [stageA, paddedRow, segment_div within, segment_mod within]
  by_cases inside : k0 + p < k
  · have place := segment_lt inside row
    rw [if_pos ⟨row, inside⟩, if_pos inside,
      sizeT_int32 (n := (grpRow * 16 + lr) * k + (k0 + p)) (by push_cast; ring) (by omega)]
  · rw [if_neg (fun both => inside both.2), if_neg inside]
    rfl

theorem stageB_eq (fits : k * n ≤ 2 ^ 31) {grpCol k0 lc p : Nat} (within : lc < 16) (col : grpCol * 16 + lc < n) :
    (stageB b n k grpCol k0 (p * 16 + lc)).toInt = paddedCol b n k (grpCol * 16 + lc) (k0 + p) := by
  rw [stageB, paddedCol, segment_div within, segment_mod within]
  by_cases inside : k0 + p < k
  · have place := segment_lt col inside
    rw [if_pos ⟨inside, col⟩, if_pos inside,
      sizeT_int32 (n := (k0 + p) * n + (grpCol * 16 + lc)) (by push_cast; ring) (by omega)]
  · rw [if_neg (fun both => inside both.1), if_neg inside]
    rfl

variable (fitsA : m * k ≤ 2 ^ 31) (fitsB : k * n ≤ 2 ^ 31) (fitsC : m * n ≤ 2 ^ 31)
include fitsA fitsB

theorem scalarAcc_eq {grpRow grpCol lr lc : Nat} (within : lc < 16) (row : grpRow * 16 + lr < m)
    (col : grpCol * 16 + lc < n) :
    scalarAcc a b m n k grpRow grpCol lr lc = product a b n k (grpRow * 16 + lr) (grpCol * 16 + lc) := by
  have steps : ∀ count, (range count).foldl
      (fun acc j => addTile (stageA a m k grpRow (16 * j)) (stageB b n k grpCol (16 * j)) lr lc acc) 0 =
      dot (paddedRow a k (grpRow * 16 + lr)) (paddedCol b n k (grpCol * 16 + lc)) (16 * count) := by
    intro count
    induction count with
    | zero => simp [dot]
    | succ count ih =>
      rw [range_succ, foldl_append, foldl_cons, foldl_nil, mul_succ]
      exact addTile_eq (fun p inside => stageA_eq fitsA inside row) (fun p _ => stageB_eq fitsB within col) ih
  rw [scalarAcc, steps, dot_padded _ _ _ _ _ (by omega)]

include fitsC

theorem scalarStores_fill :
    Fills ((m + 15) / 16 * ((n + 15) / 16)) (scalarStores a b m n k ((n + 15) / 16)) (· < m * n)
      fun place => product a b n k (place / n) (place % n) := by
  have cell {i j : Nat} (row : i < m) (col : j < n) : sizeT (int32 ((i : Int) * n + j)) = i * n + j := by
    have place : i * n + j < m * n := segment_lt col row
    exact sizeT_int32 (by push_cast; rfl) (by omega)
  constructor
  · intro group launched store member
    simp only [scalarStores, mem_flatMap, mem_filterMap, mem_range] at member
    obtain ⟨lr, _, lc, within, stored⟩ := member
    by_cases inside : group / ((n + 15) / 16) * 16 + lr < m ∧ group % ((n + 15) / 16) * 16 + lc < n
    · obtain ⟨row, col⟩ := inside
      rw [if_pos ⟨row, col⟩, Option.some.injEq, cell row col, scalarAcc_eq fitsA fitsB within row col] at stored
      obtain rfl := stored
      simp only [segment_div col, segment_mod col]
      exact ⟨segment_lt col row, trivial⟩
    · rw [if_neg inside] at stored
      cases stored
  · intro place inside
    have nonempty : 0 < n := by
      rcases Nat.eq_zero_or_pos n with rfl | positive
      · simp at inside
      · exact positive
    have row : place / n < m := (div_lt_iff_lt_mul nonempty).mpr inside
    have col : place % n < n := mod_lt place nonempty
    have groupRow : place / n / 16 < (m + 15) / 16 := by omega
    have groupCol : place % n / 16 < (n + 15) / 16 := by omega
    have rowEq : place / n / 16 * 16 + place / n % 16 = place / n := div_add_mod' _ 16
    have colEq : place % n / 16 * 16 + place % n % 16 = place % n := div_add_mod' _ 16
    refine ⟨place / n / 16 * ((n + 15) / 16) + place % n / 16, segment_lt groupCol groupRow, ?_⟩
    simp only [scalarStores, segment_div groupCol, segment_mod groupCol, mem_flatMap, mem_filterMap,
      mem_range]
    refine ⟨place / n % 16, mod_lt _ (by decide), place % n % 16, mod_lt _ (by decide), ?_⟩
    rw [scalarAcc_eq fitsA fitsB (mod_lt _ (by decide)) (by rw [rowEq]; exact row) (by rw [colEq]; exact col), rowEq,
      colEq, if_pos ⟨row, col⟩, cell row col, div_add_mod']

end scalar

def TakesXmx (hpg : Bool) (m n k : Nat) : Prop := m % 8 = 0 ∧ n % (8 * if hpg then 8 else 16) = 0 ∧ k % 32 = 0

instance (hpg : Bool) (m n k : Nat) : Decidable (TakesXmx hpg m n k) := inferInstanceAs (Decidable (_ ∧ _ ∧ _))

theorem launchGemmI8_eq {xmx : Xmx} {hpg : Bool} (exact : xmx.Exact (if hpg then 8 else 16))
    (fits : ¬TakesXmx hpg m n k → m * k ≤ 2 ^ 31 ∧ k * n ≤ 2 ^ 31 ∧ m * n ≤ 2 ^ 31) (schedule : Schedule)
    (c : Nat → Int32) {i j : Nat} (row : i < m) (col : j < n) :
    launchGemmI8 a b m n k xmx schedule hpg c (i * n + j) = product a b n k i j := by
  have inside : i * n + j < m * n := segment_lt col row
  have positive : 0 < if hpg then 8 else 16 := by split <;> decide
  have value : product a b n k ((i * n + j) / n) ((i * n + j) % n) = product a b n k i j := by
    rw [segment_div col, segment_mod col]
  unfold TakesXmx at fits
  dsimp only [launchGemmI8]
  generalize (if hpg then 8 else 16) = xn at exact positive fits ⊢
  split_ifs with shape
  · exact (parallelFor_of_covered (xmxStores_fill exact positive shape.1 shape.2.1 shape.2.2) schedule c inside).trans value
  · obtain ⟨fitsA, fitsB, fitsC⟩ := fits shape
    exact (parallelFor_of_covered (scalarStores_fill fitsA fitsB fitsC) schedule c inside).trans value

end gemm

section add
variable {a : Nat → Int8} {e : Nat → Int32} {n : Nat}

theorem addWord_eq (a4 : UInt32) (e4 : Nat → Int32) :
    addWord a4 e4 = leWord ((wordByte a4 0).toInt8 + (e4 0).toInt8).toUInt8 ((wordByte a4 1).toInt8 + (e4 1).toInt8).toUInt8
      ((wordByte a4 2).toInt8 + (e4 2).toInt8).toUInt8 ((wordByte a4 3).toInt8 + (e4 3).toInt8).toUInt8 := by
  simp [addWord, leWord, range_succ]

theorem wordByte_addWord (p : Nat) {lane : Nat} (within : lane < 4) :
    (wordByte (addWord (leWord (a p).toUInt8 (a (p + 1)).toUInt8 (a (p + 2)).toUInt8 (a (p + 3)).toUInt8)
      fun lane => e (p + lane)) lane).toInt8 = a (p + lane) + (e (p + lane)).toInt8 := by
  obtain ⟨a0, a1, a2, a3⟩ := wordByte_leWord (a p).toUInt8 (a (p + 1)).toUInt8 (a (p + 2)).toUInt8 (a (p + 3)).toUInt8
  rw [addWord_eq, a0, a1, a2, a3]
  obtain ⟨o0, o1, o2, o3⟩ := wordByte_leWord ((a p).toUInt8.toInt8 + (e (p + 0)).toInt8).toUInt8
    ((a (p + 1)).toUInt8.toInt8 + (e (p + 1)).toInt8).toUInt8 ((a (p + 2)).toUInt8.toInt8 + (e (p + 2)).toInt8).toUInt8
    ((a (p + 3)).toUInt8.toInt8 + (e (p + 3)).toInt8).toUInt8
  have cases : lane = 0 ∨ lane = 1 ∨ lane = 2 ∨ lane = 3 := by omega
  rcases cases with rfl | rfl | rfl | rfl
  · rw [o0]; rfl
  · rw [o1]; rfl
  · rw [o2]; rfl
  · rw [o3]; rfl

theorem addStores_fill (fits : n + 1024 ≤ 2 ^ 31) :
    Fills (launchSize ((n + 3) / 4 : Nat) 256) (addStores a e n) (· < n) fun p => a p + (e p).toInt8 := by
  have size := le_launchSize ((n + 3) / 4) (show 0 < 256 by decide) (by omega)
  have first {t : Nat} (launched : t < launchSize ((n + 3) / 4 : Nat) 256) :
      int32 (int32 t * 4) = ((4 * t : Nat) : Int) ∧ int32 (((4 * t : Nat) : Int) + 4) = ((4 * t + 4 : Nat) : Int) := by
    rw [int32_of_fits (x := (t : Int)) (by omega) (by omega), int32_of_fits (by omega) (by omega),
      int32_of_fits (by omega) (by omega)]
    omega
  constructor
  · intro t launched store member
    unfold addStores at member
    simp only [(first launched).1, (first launched).2, sizeT_natCast (n := 4 * t) (by omega)] at member
    split_ifs at member with word tail
    · obtain ⟨lane, inside, rfl⟩ := mem_map.mp member
      have within := mem_range.mp inside
      exact ⟨by omega, wordByte_addWord (4 * t) within⟩
    · obtain ⟨j, inside, rfl⟩ := mem_map.mp member
      have within := mem_range.mp inside
      have place : sizeT (((4 * t : Nat) : Int) + j) = 4 * t + j := sizeT_natCast (n := 4 * t + j) (by omega)
      simp only [place]
      exact ⟨by omega, trivial⟩
    · cases member
  · intro p inside
    have launched : p / 4 < launchSize ((n + 3) / 4 : Nat) 256 := by omega
    refine ⟨p / 4, launched, ?_⟩
    unfold addStores
    simp only [(first launched).1, (first launched).2, sizeT_natCast (n := 4 * (p / 4)) (by omega)]
    have own : 4 * (p / 4) + p % 4 = p := div_add_mod p 4
    split_ifs with word tail
    · refine mem_map.mpr ⟨p % 4, mem_range.mpr (mod_lt p (by decide)), ?_⟩
      rw [wordByte_addWord _ (mod_lt p (by decide)), own]
    · refine mem_map.mpr ⟨p % 4, mem_range.mpr (by omega), ?_⟩
      have place : sizeT (((4 * (p / 4) : Nat) : Int) + (p % 4 : Nat)) = p := by
        rw [← cast_add, own, sizeT_natCast (by omega)]
      rw [place]
    · omega

theorem launchAddI8_eq (fits : n + 1024 ≤ 2 ^ 31) (schedule : Schedule) (out : Nat → Int8) {p : Nat} (inside : p < n) :
    launchAddI8 a e schedule n out p = a p + (e p).toInt8 := by
  have threads : (int32 ((n : Int) + 3)).tdiv 4 = ((n + 3) / 4 : Nat) := by
    rw [int32_of_fits (by omega) (by omega), Int.tdiv_eq_ediv_of_nonneg (by omega)]
    omega
  unfold launchAddI8
  rw [threads]
  exact parallelFor_of_covered (addStores_fill fits) schedule out inside

end add

section transpose
variable (input : Nat → Int8) {rows cols : Nat} (base : Nat)

theorem int32_area (fits : rows * cols + 256 ≤ 2 ^ 31) : int32 ((rows : Int) * cols) = (rows * cols : Nat) := by
  rw [← cast_mul, int32_of_fits (by omega) (by omega)]

theorem transposeStores_of_lt (fits : rows * cols + 256 ≤ 2 ^ 31) {id : Nat} (inside : id < rows * cols) :
    transposeStores input base rows cols id = [(base + (id % cols * rows + id / cols), input id)] := by
  have nonempty : 0 < cols := Nat.pos_of_mul_pos_left (Nat.zero_lt_of_lt inside)
  have row : id / cols < rows := (div_lt_iff_lt_mul nonempty).mpr inside
  have cell := segment_lt row (mod_lt id nonempty)
  rw [mul_comm cols] at cell
  have index : sizeT ((((id % cols : Nat) : Int)) * rows + (id / cols : Nat)) = id % cols * rows + id / cols := by
    rw [← cast_mul, ← cast_add, sizeT_natCast (by omega)]
  unfold transposeStores
  rw [int32_area fits, int32_of_fits (by omega) (by omega), if_neg (by omega)]
  simp only [Int.tdiv_eq_ediv_of_nonneg (Int.natCast_nonneg id), Int.tmod_eq_emod_of_nonneg (Int.natCast_nonneg id),
    ← Int.natCast_div, ← Int.natCast_mod, index, sizeT_natCast (n := id) (by omega)]

theorem transposeStores_of_ge (fits : rows * cols + 256 ≤ 2 ^ 31) {id : Nat} (launched : id < rows * cols + 256)
    (outside : rows * cols ≤ id) : transposeStores input base rows cols id = [] := by
  unfold transposeStores
  rw [int32_area fits, int32_of_fits (by omega) (by omega), if_pos (by omega)]

theorem transposeStores_fill (fits : rows * cols + 256 ≤ 2 ^ 31) :
    Fills (launchSize (rows * cols : Nat) 256) (transposeStores input base rows cols)
      (fun p => base ≤ p ∧ p < base + cols * rows)
      fun p => input ((p - base) % rows * cols + (p - base) / rows) := by
  have size := le_launchSize (rows * cols) (show 0 < 256 by decide) fits
  constructor
  · intro id launched store member
    by_cases inside : id < rows * cols
    · have nonempty : 0 < cols := Nat.pos_of_mul_pos_left (Nat.zero_lt_of_lt inside)
      have row : id / cols < rows := (Nat.div_lt_iff_lt_mul nonempty).mpr inside
      have cell := segment_lt row (Nat.mod_lt id nonempty)
      rw [transposeStores_of_lt input base fits inside, mem_singleton] at member
      obtain rfl := member
      simp only [Nat.add_sub_cancel_left, segment_div row, segment_mod row, Nat.div_add_mod']
      exact ⟨⟨Nat.le_add_right _ _, Nat.add_lt_add_left cell base⟩, trivial⟩
    · rw [transposeStores_of_ge input base fits (by omega) (by omega)] at member
      cases member
  · rintro p ⟨above, below⟩
    obtain ⟨q, rfl⟩ := Nat.exists_eq_add_of_le above
    have inside : q < cols * rows := by omega
    have nonempty : 0 < rows := Nat.pos_of_mul_pos_left (Nat.zero_lt_of_lt inside)
    have col : q / rows < cols := (Nat.div_lt_iff_lt_mul nonempty).mpr inside
    have own := segment_lt col (Nat.mod_lt q nonempty)
    refine ⟨q % rows * cols + q / rows, by omega, ?_⟩
    rw [transposeStores_of_lt input base fits own, Nat.add_sub_cancel_left, segment_div col, segment_mod col,
      Nat.div_add_mod', mem_singleton]

theorem launchTransposeI8_eq (fits : rows * cols + 256 ≤ 2 ^ 31) (schedule : Schedule) (out : Nat → Int8) {r c : Nat}
    (row : r < rows) (col : c < cols) :
    launchTransposeI8 schedule input base rows cols out (base + (c * rows + r)) = input (r * cols + c) := by
  have cell := segment_lt row col
  have count := int32_area fits
  unfold launchTransposeI8
  rw [count, parallelFor_of_covered (transposeStores_fill input base fits) schedule out ⟨by omega, by omega⟩,
    Nat.add_sub_cancel_left, segment_div row, segment_mod row]

theorem launchTransposeI8_frame (fits : rows * cols + 256 ≤ 2 ^ 31) (schedule : Schedule) (out : Nat → Int8) {p : Nat}
    (outside : ¬(base ≤ p ∧ p < base + cols * rows)) :
    launchTransposeI8 schedule input base rows cols out p = out p := by
  have count := int32_area fits
  unfold launchTransposeI8
  rw [count]
  exact parallelFor_of_not_covered (transposeStores_fill input base fits) schedule out outside

end transpose
end ArcMiner.PearlGemm
