import ArcMiner.Library.CSharp
import ArcMiner.Library.Except
import ArcMiner.Library.Grid
import ArcMiner.Library.Loop

/-! `MiningConfiguration` and `PeriodicPattern`: the shape of an index list, and the six bytes that commit to it.

`FromIndices` peels the outermost dimension off again and again. A list is a grid, and the
dimensions found are those of the grid, from the outermost to the innermost one.
-/

namespace ArcMiner.AkoyaCrypto

inductive MMAType where
  | int7xInt7ToInt32
deriving DecidableEq

structure PatternDim where
  stride : UInt32
  length : UInt32
deriving DecidableEq

structure PeriodicPattern where
  d0 : PatternDim
  d1 : PatternDim
  d2 : PatternDim
deriving DecidableEq

def PeriodicPattern.size (pattern : PeriodicPattern) : UInt32 :=
  pattern.d0.length * pattern.d1.length * pattern.d2.length

structure MiningConfiguration where
  commonDim : UInt32
  rank : UInt16
  mmaType : MMAType
  rowsPattern : PeriodicPattern
  colsPattern : PeriodicPattern
deriving DecidableEq

namespace MiningConfiguration

def dotProductLength (config : MiningConfiguration) : UInt32 :=
  let quantum := match config.mmaType with
    | .int7xInt7ToInt32 => 128
  config.commonDim / quantum * quantum

def difficultyAdjustmentFactor (config : MiningConfiguration) : UInt64 :=
  config.rowsPattern.size.toUInt64 * config.colsPattern.size.toUInt64 * config.dotProductLength.toUInt64

end MiningConfiguration

namespace PeriodicPattern

open Library Library.CSharp List UInt32 Nat Except

def isPeriodic (p : List UInt32) (period : Nat) : Bool :=
  (range (p.length - period)).all fun i => p.getD i 0 + p.getD period 0 = p.getD (i + period) 0

def findPeriod (p : List UInt32) : Option Nat :=
  (range' 1 (p.length - 1)).find? fun period => p.length % period = 0 && isPeriodic p period

structure Peeling where
  p : List UInt32
  shape : List PatternDim
deriving DecidableEq

def peel (state : Peeling) : Result Peeling :=
  match findPeriod state.p with
  | some period => .ok
      { p := state.p.take period
        shape := state.shape ++ [⟨state.p.getD period 0, (state.p.length / period).toUInt32⟩] }
  | none => .error (.argument "Pattern is not periodic")

def peelAll (pattern : List UInt32) : Result Peeling :=
  whileLoop (fun state : Peeling => state.p.length) (fun state => decide (1 < state.p.length)) peel ⟨pattern, []⟩

def padShape (shape : List PatternDim) : List PatternDim :=
  let trailing := match shape.getLast? with
    | none => 1
    | some last => last.stride * last.length
  shape ++ replicate (3 - shape.length) ⟨trailing, 1⟩

def fromIndices (pattern : List UInt32) : Result PeriodicPattern :=
  if pattern.length = 0 then .error (.argument "Pattern cannot be empty")
  else if (range' 1 (pattern.length - 1)).any fun i => pattern.getD i 0 ≤ pattern.getD (i - 1) 0 then
    .error (.argument "Pattern must be sorted and have no duplicates")
  else if pattern.getD 0 0 ≠ 0 then .error (.argument "Pattern must start at 0")
  else do
    let peeled ← peelAll pattern
    match padShape peeled.shape.reverse with
    | d0 :: d1 :: d2 :: _ => return ⟨d0, d1, d2⟩
    | _ => .error .indexOutOfRange

/-- One iteration of `ToBytes`: the state is `minStride` and the bytes so far. -/
def writeDim (state : UInt32 × List UInt8) (dim : PatternDim) : Result (UInt32 × List UInt8) :=
  if state.1 = 0 then .error .divideByZero
  else .ok (dim.stride * dim.length, state.2 ++ [(dim.stride / state.1 - 1).toUInt8, (dim.length - 1).toUInt8])

def toBytes (pattern : PeriodicPattern) : Result (List UInt8) :=
  Prod.snd <$> [pattern.d0, pattern.d1, pattern.d2].foldlM writeDim (1, [])

/-- The documented reading of the bytes, a factor and a length for each dimension; the inner dimensions come first. -/
def readDims (inner : List GridDim) : List UInt8 → List GridDim
  | factor :: length :: rest => readDims (⟨(factor.toNat + 1) * gridExtent inner, length.toNat + 1⟩ :: inner) rest
  | _ => inner

def decode (bytes : List UInt8) : List Nat := gridPlaces (readDims [] bytes)

def Committed (pattern : PeriodicPattern) (indices : List UInt32) : Prop :=
  ∃ bytes, pattern.toBytes = .ok bytes ∧ decode bytes = indices.map toNat ∧
    pattern.size.toNat = indices.length

def Lists (p : List UInt32) (dims : List GridDim) : Prop := p.map toNat = gridPlaces dims

def patternDim (dim : GridDim) : PatternDim := ⟨dim.stride.toUInt32, dim.length.toUInt32⟩

section lists
variable {p : List UInt32} {dim : GridDim} {inner dims : List GridDim}

theorem Lists.length_eq (lists : Lists p dims) : p.length = gridSize dims := by
  rw [← length_gridPlaces, ← lists, length_map]

theorem Lists.getD_eq (lists : Lists p dims) {i : Nat} (inside : i < gridSize dims) :
    (p.getD i 0).toNat = gridPlace dims i := by
  have entry : (p.map toNat)[i]? = some (gridPlace dims i) := by
    rw [lists, gridPlaces_eq, getElem?_tabulate _ inside]
  rw [getElem?_map, Option.map_eq_some_iff] at entry
  obtain ⟨value, found, same⟩ := entry
  rw [getD_eq_getElem?_getD, found, ← same]
  rfl

theorem map_toNat_eq (p : List UInt32) : p.map toNat = tabulate (fun i => (p.getD i 0).toNat) p.length := by
  conv_lhs => rw [← tabulate_getD p]
  rw [tabulate, map_map]
  rfl

theorem Lists.of_getD (length : p.length = gridSize dims)
    (entries : ∀ i < gridSize dims, (p.getD i 0).toNat = gridPlace dims i) : Lists p dims := by
  rw [Lists, map_toNat_eq, gridPlaces_eq, length]
  exact tabulate_congr entries

theorem getD_take {n i : Nat} (inside : i < n) : (p.take n).getD i 0 = p.getD i 0 := by
  rw [getD_eq_getElem?_getD, getD_eq_getElem?_getD, getElem?_take_of_lt inside]

theorem Lists.take (lists : Lists p (dim :: inner)) (some : 0 < dim.length) : Lists (p.take (gridSize inner)) inner := by
  have within : gridSize inner ≤ gridSize (dim :: inner) := Nat.le_mul_of_pos_left _ some
  refine Lists.of_getD ?_ fun i inside => ?_
  · rw [length_take, lists.length_eq, min_eq_left within]
  · rw [getD_take inside, lists.getD_eq (by omega), gridPlace_of_lt inside]

theorem Lists.stride (lists : Lists p (dim :: inner)) (proper : 2 ≤ dim.length) (nonempty : 0 < gridSize inner) :
    (p.getD (gridSize inner) 0).toNat = dim.stride := by
  have double := mul_le_mul_right (gridSize inner) proper
  rw [lists.getD_eq (by rw [gridSize]; omega), gridPlace_size nonempty]

end lists

section periods
variable {p : List UInt32} {period : Nat}

theorem isPeriodic_iff : isPeriodic p period = true ↔
    ∀ i, i + period < p.length → p.getD i 0 + p.getD period 0 = p.getD (i + period) 0 := by
  unfold isPeriodic
  rw [all_eq_true]
  constructor
  · intro all i inside
    simpa using all i (mem_range.mpr (by omega))
  · intro all i member
    have inside := mem_range.mp member
    simpa using all i (by omega)

theorem isPeriodic_of_shift {dims : List GridDim} (lists : Lists p dims) (inside : period < gridSize dims)
    (shift : ∀ i, i + period < gridSize dims → gridPlace dims (i + period) = gridPlace dims i + gridPlace dims period) :
    isPeriodic p period = true := by
  refine isPeriodic_iff.mpr fun i within => ?_
  rw [lists.length_eq] at within
  have bound := (p.getD (i + period) 0).toNat_lt
  apply UInt32.toNat_inj.mp
  rw [UInt32.toNat_add, lists.getD_eq (by omega), lists.getD_eq inside, ← shift i within, ← lists.getD_eq within]
  exact mod_eq_of_lt bound

theorem findPeriod_eq_some : findPeriod p = some period ↔
    (period ∣ p.length ∧ isPeriodic p period = true) ∧ (1 ≤ period ∧ period < p.length) ∧
      ∀ shorter, 1 ≤ shorter → shorter < period → shorter ∣ p.length → ¬isPeriodic p shorter = true := by
  unfold findPeriod
  rw [find?_range'_eq_some, mem_range'_1]
  simp only [Bool.and_eq_true, decide_eq_true_eq, Bool.not_eq_true', Bool.and_eq_false_iff, decide_eq_false_iff_not,
    dvd_iff_mod_eq_zero, Bool.not_eq_true]
  constructor
  · rintro ⟨found, bounds, shortest⟩
    exact ⟨found, by omega, fun shorter some less divides => (shortest shorter some less).resolve_left (by simpa using divides)⟩
  · rintro ⟨found, bounds, shortest⟩
    refine ⟨found, by omega, fun shorter some less => ?_⟩
    by_cases divides : p.length % shorter = 0
    · exact .inr (shortest shorter some less divides)
    · exact .inl divides

theorem Lists.findPeriod_eq {dim : GridDim} {inner : List GridDim} (lists : Lists p (dim :: inner))
    (separated : Separated (dim :: inner)) : findPeriod p = some (gridSize inner) := by
  have proper := separated.1
  have nonempty := gridSize_pos separated.2.2.positive
  have double := mul_le_mul_right (gridSize inner) proper
  have length := lists.length_eq
  have beyond : gridSize inner < gridSize (dim :: inner) := by rw [gridSize]; omega
  refine findPeriod_eq_some.mpr ⟨⟨?_, ?_⟩, ⟨nonempty, by omega⟩, ?_⟩
  · rw [length]
    exact dvd_mul_left _ _
  · refine isPeriodic_of_shift lists beyond fun i _ => ?_
    rw [gridPlace_shift nonempty, gridPlace_size nonempty]
  · -- just before the second plane a shorter shift falls short of its stride
    intro shorter some less _ periodic
    have own := isPeriodic_iff.mp periodic (gridSize inner - shorter) (by rw [lists.length_eq]; omega)
    have short := (separated.no_shorter_period less).resolve_right (by omega)
    have last := (p.getD (gridSize inner - shorter + shorter) 0).toNat_lt
    have sum := congrArg toNat own
    rw [lists.getD_eq (by omega)] at last
    rw [UInt32.toNat_add, lists.getD_eq (by omega), lists.getD_eq (by omega), lists.getD_eq (by omega),
      mod_eq_of_lt (by omega)] at sum
    omega

end periods

variable {dims : List GridDim}

/-- No dimension is trivial, and none continues the one inside it. -/
def Proper : List GridDim → Prop
  | [] => True
  | dim :: inner => 2 ≤ dim.length ∧ (inner ≠ [] → dim.stride ≠ gridExtent inner) ∧ Proper inner

theorem Proper.length_le (proper : Proper dims) : ∀ dim ∈ dims, 2 ≤ dim.length := by
  induction dims with
  | nil => simp
  | cons dim inner ih => exact forall_mem_cons.mpr ⟨proper.1, ih proper.2.2⟩

theorem Proper.positive (proper : Proper dims) : ∀ dim ∈ dims, 0 < dim.length :=
  fun dim member => lt_of_lt_of_le two_pos (proper.length_le dim member)

/-- A byte holds every length and every stride, as a multiple of what the inner dimensions reach. -/
def Scaled : List GridDim → Prop
  | [] => True
  | dim :: inner => dim.length ≤ 256 ∧
      (∃ factor, 1 ≤ factor ∧ factor ≤ 256 ∧ dim.stride = factor * gridExtent inner) ∧ Scaled inner

theorem Scaled.drop (scaled : Scaled dims) (n : Nat) : Scaled (dims.drop n) := by
  induction n generalizing dims with
  | zero => exact scaled
  | succ n ih =>
    cases dims with
    | nil => exact trivial
    | cons dim inner => exact ih scaled.2.2

section greedy

theorem Scaled.gridPlace_lt (scaled : Scaled dims) (positive : ∀ dim ∈ dims, 0 < dim.length) {i : Nat}
    (inside : i < gridSize dims) : gridPlace dims i < gridExtent dims := by
  induction dims generalizing i with
  | nil => exact one_pos
  | cons dim inner ih =>
    obtain ⟨-, ⟨factor, some, -, stride⟩, scaled⟩ := scaled
    obtain ⟨-, rest⟩ := forall_mem_cons.mp positive
    have nonempty := gridSize_pos rest
    have within := ih scaled rest (mod_lt i nonempty)
    have multiple := stride ▸ Nat.le_mul_of_pos_left _ some
    have digit := (div_lt_iff_lt_mul nonempty).mpr inside
    rw [gridPlace, gridExtent, mul_comm dim.stride]
    exact segment_lt (by omega) digit

theorem Scaled.separated (scaled : Scaled dims) (proper : Proper dims) : Separated dims := by
  induction dims with
  | nil => exact trivial
  | cons dim inner ih =>
    have places {i : Nat} := scaled.2.2.gridPlace_lt proper.2.2.positive (i := i)
    obtain ⟨-, ⟨factor, some, -, stride⟩, scaled⟩ := scaled
    obtain ⟨long, apart, proper⟩ := proper
    refine ⟨long, fun i inside => ?_, ih scaled proper⟩
    have below := places inside
    cases inner with
    | nil =>
      rw [gridExtent] at stride
      rw [gridPlace]
      omega
    | cons next inner =>
      have twice : 2 ≤ factor := by
        have other := apart (cons_ne_nil _ _)
        by_contra one
        obtain rfl : factor = 1 := by omega
        exact other (by rw [stride, Nat.one_mul])
      have double := mul_le_mul_right (gridExtent (next :: inner)) twice
      omega

variable {p : List UInt32}

theorem whileFuel_peel (lists : Lists p dims) (separated : Separated dims)
    {fuel : Nat} (enough : dims.length ≤ fuel) (shape : List PatternDim) :
    whileFuel (fun state : Peeling => decide (1 < state.p.length)) peel fuel ⟨p, shape⟩ =
      .ok ⟨p.take 1, shape ++ dims.map patternDim⟩ := by
  induction dims generalizing p fuel shape with
  | nil =>
    have single : p.length = 1 := lists.length_eq
    rw [map_nil, append_nil, take_of_length_le (by omega)]
    cases fuel with
    | zero => rfl
    | succ fuel => rw [whileFuel, if_neg (by simp [single])]; rfl
  | cons dim inner ih =>
    have nonempty := gridSize_pos separated.2.2.positive
    have found := lists.findPeriod_eq separated
    have double := mul_le_mul_right (gridSize inner) separated.1
    have length : p.length = dim.length * gridSize inner := lists.length_eq
    have first : p.getD (gridSize inner) 0 = dim.stride.toUInt32 := by
      rw [← lists.stride separated.1 nonempty]
      exact UInt32.ofNat_toNat.symm
    have count : p.length / gridSize inner = dim.length := by rw [length, Nat.mul_div_cancel _ nonempty]
    have inside := lists.take (by have := separated.1; omega)
    cases fuel with
    | zero => simp at enough
    | succ fuel =>
      rw [whileFuel, if_pos (by rw [decide_eq_true_iff, length]; omega), peel]
      simp only [found, ok_bind, first, count]
      rw [ih inside separated.2.2 (by simpa using enough), take_take, min_eq_left nonempty, map_cons,
        append_assoc]
      rfl

theorem peelAll_eq (lists : Lists p dims) (separated : Separated dims)
    (proper : Proper dims) : peelAll p = .ok ⟨p.take 1, dims.map patternDim⟩ := by
  have enough := length_lt_gridSize proper.length_le
  rw [peelAll, whileLoop, whileFuel_peel lists separated (by rw [lists.length_eq]; omega), nil_append]

/-- Sorted, without duplicates and from zero on. -/
structure Rising (p : List UInt32) : Prop where
  nonempty : 0 < p.length
  sorted : ∀ i, i + 1 < p.length → p.getD i 0 < p.getD (i + 1) 0
  first : p.getD 0 0 = 0

theorem Rising.lt (rising : Rising p) {i more : Nat} (inside : i + (more + 1) < p.length) :
    p.getD i 0 < p.getD (i + (more + 1)) 0 := by
  induction more with
  | zero => exact rising.sorted i inside
  | succ more ih => exact UInt32.lt_trans (ih (by omega)) (rising.sorted (i + (more + 1)) inside)

theorem Rising.take (rising : Rising p) {n : Nat} (some : 0 < n) : Rising (p.take n) where
  nonempty := by
    have := rising.nonempty
    rw [length_take]
    omega
  sorted i inside := by
    rw [length_take] at inside
    rw [getD_take (by omega), getD_take (by omega)]
    exact rising.sorted i (by omega)
  first := by rw [getD_take some, rising.first]

theorem Rising.lists_nil (rising : Rising p) (short : p.length ≤ 1) : Lists p [] := by
  have some := rising.nonempty
  apply Lists.of_getD
  · rw [gridSize]
    omega
  · intro i inside
    obtain rfl : i = 0 := by simpa [gridSize] using inside
    rw [rising.first]
    rfl

theorem Rising.lists_cons (rising : Rising p) {period : Nat} (some : 1 ≤ period) (divides : period ∣ p.length)
    (periodic : isPeriodic p period = true) {inner : List GridDim} (lists : Lists (p.take period) inner)
    (inside : period < p.length) : Lists p (⟨(p.getD period 0).toNat, p.length / period⟩ :: inner) := by
  have size : period = gridSize inner := by
    rw [← lists.length_eq, length_take, min_eq_left (by omega)]
  have length : p.length / period * gridSize inner = p.length := by rw [← size, Nat.div_mul_cancel divides]
  have places : tabulate (fun i => (p.getD i 0).toNat) (p.length / period * gridSize inner) =
      gridPlaces (⟨(p.getD period 0).toNat, p.length / period⟩ :: inner) := by
    refine gridPlaces_of_periodic (fun i bound => ?_) fun i bound => ?_
    · rw [← lists.getD_eq bound, getD_take (by omega)]
    · -- the entries rise, so that the sum has not wrapped
      rw [length, ← size] at bound
      rw [← size]
      obtain ⟨more, rfl⟩ : ∃ more, period = more + 1 := ⟨period - 1, by omega⟩
      have sum := congrArg toNat (isPeriodic_iff.mp periodic i bound)
      have above : (p.getD i 0).toNat < (p.getD (i + (more + 1)) 0).toNat := rising.lt bound
      have stride := (p.getD (more + 1) 0).toNat_lt
      have start := (p.getD i 0).toNat_lt
      rw [UInt32.toNat_add] at sum
      omega
  rw [length] at places
  rw [Lists, ← places, map_toNat_eq]

theorem findPeriod_stride {dim : GridDim} {inner : List GridDim} (lists : Lists p (dim :: inner))
    (long : 2 ≤ dim.length) (proper : Proper inner) (found : findPeriod p = some (gridSize inner)) (outer : inner ≠ []) :
    dim.stride ≠ gridExtent inner := by
  intro same
  obtain ⟨-, -, shortest⟩ := findPeriod_eq_some.mp found
  cases inner with
  | nil => exact outer rfl
  | cons next inner =>
    obtain ⟨nextLong, -, inside⟩ := proper
    have nonempty := gridSize_pos inside.positive
    have double := mul_le_mul_right (gridSize inner) nextLong
    have whole := mul_le_mul_right (gridSize (next :: inner)) long
    have size : gridSize (next :: inner) = next.length * gridSize inner := rfl
    have total : gridSize (dim :: next :: inner) = dim.length * gridSize (next :: inner) := rfl
    have merged : gridPlace (dim :: next :: inner) = gridPlace (⟨next.stride, next.length⟩ :: inner) := by
      funext i
      obtain ⟨stride, length⟩ := dim
      obtain rfl : stride = next.stride * next.length := same
      exact gridPlace_merge length next.length next inner i
    refine shortest (gridSize inner) nonempty (by omega) ?_ (isPeriodic_of_shift lists (by omega) fun i _ => ?_)
    · rw [lists.length_eq, total, size, ← mul_assoc]
      exact dvd_mul_left _ _
    · rw [merged, gridPlace_shift nonempty, gridPlace_size nonempty]

theorem whileFuel_peel_sound (rising : Rising p) {fuel : Nat} (enough : p.length ≤ fuel + 1)
    {shape : List PatternDim} {final : Peeling}
    (run : whileFuel (fun state : Peeling => decide (1 < state.p.length)) peel fuel ⟨p, shape⟩ = .ok final) :
    ∃ dims, Lists p dims ∧ Proper dims ∧ final.shape = shape ++ dims.map patternDim := by
  induction fuel generalizing p shape with
  | zero =>
    obtain rfl := ok.inj run
    exact ⟨[], rising.lists_nil (by omega), trivial, by simp⟩
  | succ fuel ih =>
    rw [whileFuel] at run
    by_cases running : 1 < p.length
    · rw [if_pos (by simpa using running)] at run
      obtain ⟨after, peeled, run⟩ := bind_eq_ok.mp run
      unfold peel at peeled
      cases found : findPeriod p with
      | none => simp [found] at peeled
      | some period =>
        simp only [found] at peeled
        obtain rfl := ok.inj peeled
        obtain ⟨⟨divides, periodic⟩, ⟨some, inside⟩, -⟩ := findPeriod_eq_some.mp found
        have shorter : (p.take period).length = period := by rw [length_take, min_eq_left (by omega)]
        obtain ⟨inner, lists, proper, same⟩ := ih (rising.take some) (by omega) run
        have whole := rising.lists_cons some divides periodic lists inside
        have long : 2 ≤ p.length / period := by
          obtain ⟨count, total⟩ := divides
          rw [total, Nat.mul_div_cancel_left _ some]
          by_contra few
          have : count ≤ 1 := by omega
          have := mul_le_mul_left period this
          omega
        have size : period = gridSize inner := by rw [← lists.length_eq, shorter]
        refine ⟨_ :: inner, whole, ⟨long, findPeriod_stride whole long proper (size ▸ found), proper⟩, ?_⟩
        rw [same, append_assoc, map_cons, patternDim]
        simp [UInt32.ofNat_toNat]
    · rw [if_neg (by simpa using running)] at run
      obtain rfl := ok.inj run
      exact ⟨[], rising.lists_nil (by omega), trivial, by simp⟩

end greedy

section bytes

theorem readDims_append {inner : List GridDim} {bytes : List UInt8} (even : bytes.length % 2 = 0) (factor length : UInt8) :
    readDims inner (bytes ++ [factor, length]) =
      ⟨(factor.toNat + 1) * gridExtent (readDims inner bytes), length.toNat + 1⟩ :: readDims inner bytes := by
  induction inner, bytes using readDims.induct with
  | case1 inner first second rest ih =>
    rw [length_cons, length_cons] at even
    exact ih (by omega)
  | case2 bytes inner other =>
    match bytes, other, even with
    | [], _, _ => rfl
    | [_], _, odd => simp at odd
    | first :: second :: rest, other, _ => exact (other first second rest rfl).elim

/-- The loop of `ToBytes` on the dimensions of a grid, whose innermost one is written first. -/
def writeDims (dims : List GridDim) : Result (UInt32 × List UInt8) :=
  (dims.map patternDim).reverse.foldlM writeDim (1, [])

theorem writeDims_cons (dim : GridDim) (inner : List GridDim) :
    writeDims (dim :: inner) = writeDims inner >>= fun state => writeDim state (patternDim dim) := by
  rw [writeDims, map_cons, reverse_cons, foldlM_append]
  simp only [foldlM_cons, foldlM_nil, bind_pure]
  rfl

structure ReadBack (dims : List GridDim) (state : UInt32 × List UInt8) : Prop where
  minStride : state.1 = (gridExtent dims).toUInt32
  even : state.2.length % 2 = 0
  shorter : List.Forall₂ (fun d e => 0 < d.length ∧ d.length ≤ e.length) (readDims [] state.2) dims
  scaled : Scaled (readDims [] state.2)

theorem byte_pred_le {length : Nat} (some : 0 < length) : (length.toUInt32 - 1).toUInt8.toNat + 1 ≤ length := by
  have value : (length.toUInt32 - 1).toUInt8.toNat = (length + (2 ^ 32 - 1)) % 2 ^ 8 := by
    rw [UInt32.toNat_toUInt8, UInt32.toNat_sub]
    simp only [toUInt32, toNat_ofNat', reduceToNat]
    omega
  omega

theorem writeDims_readBack (positive : ∀ dim ∈ dims, 0 < dim.length) {state : UInt32 × List UInt8}
    (written : writeDims dims = .ok state) : ReadBack dims state := by
  induction dims generalizing state with
  | nil =>
    obtain rfl := ok.inj written
    exact ⟨rfl, rfl, .nil, trivial⟩
  | cons dim inner ih =>
    obtain ⟨some, rest⟩ := forall_mem_cons.mp positive
    rw [writeDims_cons] at written
    obtain ⟨before, inside, written⟩ := bind_eq_ok.mp written
    have read := ih rest inside
    unfold writeDim at written
    split_ifs at written
    obtain rfl := ok.inj written
    refine ⟨?_, ?_, ?_, ?_⟩
    · exact (ofNat_mul dim.stride dim.length).symm
    · have even := read.even
      rw [length_append, length_cons, length_cons, length_nil]
      omega
    · rw [readDims_append read.even]
      exact .cons ⟨succ_pos _, byte_pred_le some⟩ read.shorter
    · rw [readDims_append read.even]
      exact ⟨UInt8.toNat_lt _, ⟨_, succ_pos _, UInt8.toNat_lt _, rfl⟩, read.scaled⟩

/-- Every division of `ToBytes` is by the reach of the inner dimensions, and exact. -/
def Writable : List GridDim → Prop
  | [] => True
  | dim :: inner => 1 ≤ dim.length ∧ dim.length ≤ 256 ∧ gridExtent inner % 2 ^ 32 ≠ 0 ∧
      (∃ factor, 1 ≤ factor ∧ factor ≤ 256 ∧ dim.stride = factor * gridExtent inner ∧ (factor = 1 ∨ dim.stride < 2 ^ 32)) ∧
      Writable inner

theorem byte_pred {n : Nat} (some : 1 ≤ n) (fits : n ≤ 256) (word : UInt32) (same : word.toNat = n) :
    (word - 1).toUInt8.toNat + 1 = n := by
  rw [UInt32.toNat_toUInt8, UInt32.toNat_sub, same]
  simp only [UInt32.reduceToNat]
  omega

theorem toNat_factor {factor extent : Nat} (some : 1 ≤ factor) (nonzero : extent % 2 ^ 32 ≠ 0)
    (fits : factor = 1 ∨ factor * extent < 2 ^ 32) : ((factor * extent).toUInt32 / extent.toUInt32).toNat = factor := by
  rw [UInt32.toNat_div]
  simp only [toUInt32, UInt32.toNat_ofNat']
  rcases fits with rfl | fits
  · rw [Nat.one_mul, Nat.div_self (by omega)]
  · have below : extent ≤ factor * extent := Nat.le_mul_of_pos_left extent some
    rw [Nat.mod_eq_of_lt fits, Nat.mod_eq_of_lt (by omega), Nat.mul_div_cancel _ (by omega)]

theorem Writable.positive (writable : Writable dims) : ∀ dim ∈ dims, 0 < dim.length := by
  induction dims with
  | nil => simp
  | cons dim inner ih => exact forall_mem_cons.mpr ⟨writable.1, ih writable.2.2.2.2⟩

theorem Writable.length_le (writable : Writable dims) : ∀ dim ∈ dims, dim.length ≤ 256 := by
  induction dims with
  | nil => simp
  | cons dim inner ih => exact forall_mem_cons.mpr ⟨writable.2.1, ih writable.2.2.2.2⟩

theorem Writable.readDims_eq (writable : Writable dims) :
    ∃ state, writeDims dims = .ok state ∧ readDims [] state.2 = dims := by
  induction dims with
  | nil => exact ⟨_, rfl, rfl⟩
  | cons dim inner ih =>
    obtain ⟨some, short, nonzero, ⟨factor, positive, small, stride, fits⟩, writable⟩ := writable
    obtain ⟨before, inside, read⟩ := ih writable
    obtain ⟨minStride, even, -, -⟩ := writeDims_readBack writable.positive inside
    have divisor : before.1 ≠ 0 := by
      rw [minStride]
      intro zero
      apply nonzero
      simpa [toUInt32] using congrArg toNat zero
    have quotient : (dim.stride.toUInt32 / before.1 - 1).toUInt8.toNat + 1 = factor :=
      byte_pred positive small _ (by rw [minStride, stride, toNat_factor positive nonzero (stride ▸ fits)])
    have length : (dim.length.toUInt32 - 1).toUInt8.toNat + 1 = dim.length := by
      apply byte_pred some short
      simp only [toUInt32, toNat_ofNat']
      omega
    refine ⟨_, by rw [writeDims_cons, inside, ok_bind, writeDim, if_neg divisor], ?_⟩
    rw [readDims_append even, read, patternDim, quotient, length, ← stride]

end bytes

/-- The dimensions of a grid with further ones around them, up to three in all. -/
def padGrid (dims : List GridDim) : List GridDim := replicate (3 - dims.length) ⟨gridExtent dims, 1⟩ ++ dims

theorem padShape_eq (dims : List GridDim) :
    padShape (dims.map patternDim).reverse = ((padGrid dims).map patternDim).reverse := by
  have trailing : (match (dims.map patternDim).reverse.getLast? with
      | none => 1
      | some last => last.stride * last.length) = (gridExtent dims).toUInt32 := by
    cases dims with
    | nil => rfl
    | cons dim inner =>
      rw [getLast?_reverse, map_cons, head?_cons]
      exact (ofNat_mul dim.stride dim.length).symm
  unfold padShape padGrid
  rw [trailing, map_append, reverse_append, map_replicate, reverse_replicate, length_reverse,
    length_map]
  rfl

theorem gridPlaces_padGrid (dims : List GridDim) : gridPlaces (padGrid dims) = gridPlaces dims :=
  gridPlaces_replicate _ _ dims

theorem length_padGrid (dims : List GridDim) : (padGrid dims).length = max 3 dims.length := by
  rw [padGrid, length_append, length_replicate]
  omega

theorem gridExtent_pad (dims : List GridDim) (count : Nat) :
    gridExtent (replicate count ⟨gridExtent dims, 1⟩ ++ dims) = gridExtent dims := by
  cases count with
  | zero => rfl
  | succ count => rw [replicate_succ, cons_append, gridExtent, Nat.mul_one]

theorem Writable.pad (writable : Writable dims) (nonzero : gridExtent dims % 2 ^ 32 ≠ 0) (count : Nat) :
    Writable (replicate count ⟨gridExtent dims, 1⟩ ++ dims) := by
  induction count with
  | zero => exact writable
  | succ count ih =>
    have extent := gridExtent_pad dims count
    rw [replicate_succ, cons_append]
    refine ⟨le_refl 1, by simp, by rwa [extent], ⟨1, le_refl 1, by decide, ?_, .inl rfl⟩, ih⟩
    rw [extent, Nat.one_mul]

theorem padGrid_positive (proper : Proper dims) : ∀ dim ∈ padGrid dims, 0 < dim.length := by
  intro dim member
  rcases mem_append.mp member with pad | own
  · rw [eq_of_mem_replicate pad]
    exact one_pos
  · exact proper.positive dim own

theorem Lists.writable {p : List UInt32} (lists : Lists p dims) (scaled : Scaled dims)
    (proper : Proper dims) : Writable dims ∧ 0 < gridExtent dims := by
  induction dims generalizing p with
  | nil => exact ⟨trivial, one_pos⟩
  | cons dim inner ih =>
    have nonempty := gridSize_pos proper.2.2.positive
    have stride := lists.stride proper.1 nonempty
    have word := (p.getD (gridSize inner) 0).toNat_lt
    obtain ⟨long, -, proper⟩ := proper
    obtain ⟨short, ⟨factor, some, small, multiple⟩, scaled⟩ := scaled
    obtain ⟨writable, reach⟩ := ih (lists.take (by omega)) scaled proper
    have below := multiple ▸ Nat.le_mul_of_pos_left _ some
    refine ⟨⟨by omega, short, by omega, ⟨factor, some, small, multiple, .inr (by omega)⟩, writable⟩, ?_⟩
    exact mul_pos (by omega) (by omega)

theorem Lists.extent_lt {p : List UInt32} (lists : Lists p dims) (proper : Proper dims) :
    gridExtent dims < 2 ^ 33 := by
  cases dims with
  | nil => decide
  | cons dim inner =>
    obtain ⟨long, -, proper⟩ := proper
    have nonempty := gridSize_pos proper.positive
    -- the last plane begins at an index of the list
    have inside : (dim.length - 1) * gridSize inner + 0 < gridSize (dim :: inner) := segment_lt nonempty (by omega)
    have last := (p.getD ((dim.length - 1) * gridSize inner + 0) 0).toNat_lt
    rw [lists.getD_eq inside, gridPlace_block nonempty, gridPlace_zero] at last
    obtain ⟨more, same⟩ : ∃ more, dim.length = more + 2 := ⟨dim.length - 2, by omega⟩
    have plane : dim.stride ≤ (more + 1) * dim.stride := Nat.le_mul_of_pos_left _ (Nat.succ_pos more)
    have extent : gridExtent (dim :: inner) = (more + 1) * dim.stride + dim.stride := by
      rw [gridExtent, same]
      ring
    rw [same, show more + 2 - 1 = more + 1 from rfl] at last
    omega

variable {indices : List UInt32} {pattern : PeriodicPattern}

theorem fromIndices_ok (accepted : fromIndices indices = .ok pattern) :
    Rising indices ∧ ∃ peeled, peelAll indices = .ok peeled ∧
      [pattern.d0, pattern.d1, pattern.d2] = (padShape peeled.shape.reverse).take 3 := by
  unfold fromIndices at accepted
  split_ifs at accepted with empty unsorted late
  obtain ⟨peeled, run, accepted⟩ := bind_eq_ok.mp accepted
  refine ⟨⟨by omega, fun i inside => ?_, by simpa using late⟩, peeled, run, ?_⟩
  · have above : ¬(indices.getD (i + 1) 0 ≤ indices.getD i 0) := by
      intro below
      apply unsorted
      rw [any_eq_true]
      exact ⟨i + 1, mem_range'_1.mpr (by omega), by simpa using below⟩
    exact UInt32.not_le.mp above
  · split at accepted
    next d0 d1 d2 rest shape =>
      obtain rfl := ok.inj accepted
      rw [shape]
      rfl
    next => cases accepted

/-- The dimensions that `FromIndices` keeps of a grid: the three innermost ones. -/
def keptDims (dims : List GridDim) : List GridDim := (padGrid dims).drop ((padGrid dims).length - 3)

theorem length_keptDims (dims : List GridDim) : (keptDims dims).length = 3 := by
  rw [keptDims, length_drop, length_padGrid]
  omega

theorem keptDims_positive (proper : Proper dims) : ∀ dim ∈ keptDims dims, 0 < dim.length :=
  fun dim member => padGrid_positive proper dim (mem_of_mem_drop member)

theorem keptDims_of_le (few : dims.length ≤ 3) : keptDims dims = padGrid dims := by
  rw [keptDims, length_padGrid, max_eq_left few, drop_zero]

theorem gridSize_keptDims_lt (proper : Proper dims) (many : 3 < dims.length) :
    gridSize (keptDims dims) < gridSize dims := by
  have whole : padGrid dims = dims := by
    rw [padGrid, Nat.sub_eq_zero_of_le (by omega)]
    rfl
  have outer : (dims.take (dims.length - 3)).length < gridSize (dims.take (dims.length - 3)) :=
    length_lt_gridSize fun dim member => proper.length_le dim (mem_of_mem_take member)
  have kept : 0 < gridSize (dims.drop (dims.length - 3)) :=
    gridSize_pos fun dim member => proper.positive dim (mem_of_mem_drop member)
  rw [length_take] at outer
  calc gridSize (keptDims dims) = gridSize (dims.drop (dims.length - 3)) := by rw [keptDims, whole]
    _ < gridSize (dims.take (dims.length - 3)) * gridSize (dims.drop (dims.length - 3)) :=
      (lt_mul_iff_one_lt_left kept).mpr (by omega)
    _ = gridSize dims := by rw [← gridSize_append, take_append_drop]

theorem take_padShape (dims : List GridDim) :
    (padShape (dims.map patternDim).reverse).take 3 = ((keptDims dims).map patternDim).reverse := by
  rw [padShape_eq, take_reverse, length_map, keptDims, map_drop]

section kept
variable {pattern : PeriodicPattern} {dims : List GridDim}
  (kept : [pattern.d0, pattern.d1, pattern.d2] = ((keptDims dims).map patternDim).reverse)
include kept

theorem toBytes_eq : pattern.toBytes = Prod.snd <$> writeDims (keptDims dims) := by
  rw [toBytes, writeDims, kept]

theorem toNat_size (short : ∀ dim ∈ keptDims dims, dim.length ≤ 256) : pattern.size.toNat = gridSize (keptDims dims) := by
  have three := length_keptDims dims
  match keptDims dims, three, kept, short with
  | [c, b, a], _, kept, short =>
    simp only [map_cons, map_nil, reverse_cons, reverse_nil, nil_append, cons_append,
      List.cons.injEq, and_true] at kept
    obtain ⟨first, second, third⟩ := kept
    have shortA := short a (by simp)
    have shortB := short b (by simp)
    have shortC := short c (by simp)
    have plane := Nat.mul_le_mul shortA shortB
    have total := Nat.mul_le_mul plane shortC
    rw [size, first, second, third, UInt32.toNat_mul, UInt32.toNat_mul]
    simp only [patternDim, Nat.toUInt32, toNat_ofNat', gridSize]
    rw [Nat.mod_eq_of_lt (a := a.length) (by omega), Nat.mod_eq_of_lt (a := b.length) (by omega),
      Nat.mod_eq_of_lt (a := c.length) (by omega), Nat.mod_eq_of_lt (a := a.length * b.length) (by omega),
      Nat.mod_eq_of_lt (by omega)]
    ring

end kept

/-- The list is a grid of at most three dimensions, none of which continues the one inside it, whose factors and
lengths fit a byte; with fewer than three dimensions it does not end exactly at 2^32, where the trailing stride is zero. -/
def Encodable (indices : List UInt32) : Prop :=
  ∃ dims : List GridDim, indices.map toNat = gridPlaces dims ∧ dims.length ≤ 3 ∧ Proper dims ∧ Scaled dims ∧
    (dims.length < 3 → gridExtent dims ≠ 2 ^ 32)

theorem committed_of_encodable
    (accepted : fromIndices indices = .ok pattern) (encodable : Encodable indices) : Committed pattern indices := by
  obtain ⟨dims, lists, few, proper, scaled, inside⟩ := encodable
  obtain ⟨-, peeled, run, kept⟩ := fromIndices_ok accepted
  rw [peelAll_eq lists (scaled.separated proper) proper] at run
  obtain rfl := ok.inj run
  rw [take_padShape] at kept
  obtain ⟨writable, reach⟩ := Lists.writable lists scaled proper
  have padded : Writable (keptDims dims) := by
    rw [keptDims_of_le few, padGrid]
    rcases lt_or_ge dims.length 3 with fewer | three
    · have extent := Lists.extent_lt lists proper
      have apart := inside fewer
      exact writable.pad (by omega) _
    · rw [Nat.sub_eq_zero_of_le three]
      exact writable
  obtain ⟨state, written, read⟩ := padded.readDims_eq
  have places : gridPlaces (keptDims dims) = gridPlaces dims := by rw [keptDims_of_le few, gridPlaces_padGrid]
  refine ⟨state.2, by rw [toBytes_eq kept, written]; rfl, ?_, ?_⟩
  · rw [decode, read, places]
    exact lists.symm
  · rw [toNat_size kept padded.length_le, ← length_gridPlaces, places, length_gridPlaces, Lists.length_eq lists]

theorem eq_of_forall₂_proper {other : List GridDim} (same : List.Forall₂ (fun d e => 2 ≤ e.length → d = e) dims other)
    (proper : ∀ dim ∈ other, 2 ≤ dim.length) : dims = other := by
  induction same with
  | nil => rfl
  | cons head _ ih =>
    obtain ⟨first, rest⟩ := forall_mem_cons.mp proper
    rw [head first, ih rest]

/-- Padding a list that ends at 2^32 divides by zero. -/
theorem writeDims_padGrid_ne (proper : Proper dims) (fewer : dims.length < 3)
    {state : UInt32 × List UInt8} (written : writeDims (padGrid dims) = .ok state) : gridExtent dims ≠ 2 ^ 32 := by
  intro extent
  obtain ⟨count, more⟩ : ∃ count, 3 - dims.length = count + 1 := ⟨2 - dims.length, by omega⟩
  rw [padGrid, more, replicate_succ, cons_append, writeDims_cons] at written
  obtain ⟨before, inside, written⟩ := bind_eq_ok.mp written
  have positive : ∀ dim ∈ replicate count ⟨gridExtent dims, 1⟩ ++ dims, 0 < dim.length := by
    intro dim member
    apply padGrid_positive proper
    rw [padGrid, more, replicate_succ, cons_append]
    exact mem_cons_of_mem _ member
  have zero : before.1 = 0 := by
    rw [(writeDims_readBack positive inside).minStride, gridExtent_pad, extent]
    rfl
  rw [writeDim, if_pos zero] at written
  cases written

theorem encodable_of_committed
    (accepted : fromIndices indices = .ok pattern) (committed : Committed pattern indices) : Encodable indices := by
  obtain ⟨rising, peeled, run, kept⟩ := fromIndices_ok accepted
  obtain ⟨dims, lists, proper, shape⟩ := whileFuel_peel_sound rising (le_succ _) run
  rw [nil_append] at shape
  rw [shape, take_padShape] at kept
  obtain ⟨bytes, converted, decoded, -⟩ := committed
  rw [toBytes_eq kept] at converted
  obtain ⟨state, written, rfl⟩ : ∃ state, writeDims (keptDims dims) = .ok state ∧ state.2 = bytes := by
    cases result : writeDims (keptDims dims) with
    | error why => rw [result] at converted; cases converted
    | ok state => exact ⟨state, rfl, by rw [result] at converted; exact ok.inj converted⟩
  have read := writeDims_readBack (keptDims_positive proper) written
  have same : gridPlaces (readDims [] state.2) = gridPlaces dims := decoded.trans lists
  have size : gridSize (readDims [] state.2) = gridSize dims := by rw [← length_gridPlaces, same, length_gridPlaces]
  have few : dims.length ≤ 3 := by
    by_contra many
    have dropped := gridSize_keptDims_lt proper (by omega)
    have shorter := (gridSize_le read.shorter).2
    omega
  have shorter := read.shorter
  rw [keptDims_of_le few] at shorter written
  have padded : gridSize (padGrid dims) = gridSize dims := by
    rw [← length_gridPlaces, gridPlaces_padGrid, length_gridPlaces]
  have lengths := lengths_eq_of_size shorter (size.trans padded.symm)
  have strides := strides_eq_of_places lengths (padGrid_positive proper) fun i inside => by
    have places := same.trans (gridPlaces_padGrid dims).symm
    rw [gridPlaces_eq, gridPlaces_eq] at places
    have entry := congrArg (·[i]?) places
    simpa [getElem?_tabulate _ inside, getElem?_tabulate _ (size.trans padded.symm ▸ inside)] using entry
  have own := eq_of_forall₂_proper (forall₂_drop_append _ _ _ strides) proper.length_le
  refine ⟨dims, lists, few, proper, own ▸ read.scaled.drop _, fun fewer extent => ?_⟩
  exact writeDims_padGrid_ne proper fewer written extent

/-- The bytes of an accepted list stand for it exactly when it is a grid that fits them. -/
theorem committed_iff_encodable {indices : List UInt32} {pattern : PeriodicPattern}
    (accepted : fromIndices indices = .ok pattern) : Committed pattern indices ↔ Encodable indices :=
  ⟨encodable_of_committed accepted, committed_of_encodable accepted⟩

def defaultRowsIndices : List UInt32 := [0, 8]

def defaultColsIndices : List UInt32 := (range 32).flatMap fun r => [(8 * r).toUInt32, (8 * r + 1).toUInt32]

theorem committed_defaults :
    (∃ rows, fromIndices defaultRowsIndices = .ok rows ∧ Committed rows defaultRowsIndices) ∧
    ∃ cols, fromIndices defaultColsIndices = .ok cols ∧ Committed cols defaultColsIndices := by
  constructor
  · have accepted : fromIndices defaultRowsIndices = .ok ⟨⟨8, 2⟩, ⟨16, 1⟩, ⟨16, 1⟩⟩ := by decide +kernel
    refine ⟨_, accepted, (committed_iff_encodable accepted).mpr ⟨[⟨8, 2⟩], ?_⟩⟩
    exact ⟨by decide, by decide, ⟨by decide, by simp, trivial⟩, ⟨by decide, ⟨8, by decide, by decide, rfl⟩, trivial⟩, by decide⟩
  · have accepted : fromIndices defaultColsIndices = .ok ⟨⟨1, 2⟩, ⟨8, 32⟩, ⟨256, 1⟩⟩ := by decide +kernel
    refine ⟨_, accepted, (committed_iff_encodable accepted).mpr ⟨[⟨8, 32⟩, ⟨1, 2⟩], ?_⟩⟩
    exact ⟨by decide +kernel, by decide, ⟨by decide, fun _ => by decide, by decide, by simp, trivial⟩,
      ⟨by decide, ⟨4, by decide, by decide, rfl⟩, by decide, ⟨1, by decide, by decide, rfl⟩, trivial⟩, by decide⟩

/-- A stride of 300 is written as one of 44. -/
theorem stride_truncated :
    ∃ pattern, fromIndices [0, 300] = .ok pattern ∧ pattern.toBytes = .ok [43, 1, 0, 0, 0, 0] ∧
      decode [43, 1, 0, 0, 0, 0] = [0, 44] ∧ ¬Committed pattern [0, 300] := by
  refine ⟨⟨⟨300, 2⟩, ⟨600, 1⟩, ⟨600, 1⟩⟩, by decide +kernel, by decide +kernel, by decide, ?_⟩
  rintro ⟨bytes, converted, decoded, -⟩
  have written : toBytes ⟨⟨300, 2⟩, ⟨600, 1⟩, ⟨600, 1⟩⟩ = .ok [43, 1, 0, 0, 0, 0] := by decide +kernel
  obtain rfl := ok.inj (written.symm.trans converted)
  exact absurd decoded (by decide)

end PeriodicPattern
end ArcMiner.AkoyaCrypto
