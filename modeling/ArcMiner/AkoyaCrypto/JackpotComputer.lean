import ArcMiner.Library.CSharp
import ArcMiner.Library.Except
import ArcMiner.Library.Loop
import ArcMiner.Spec.Transcript

/-! `Akoya.Crypto.JackpotComputer`: the jackpot words from signal and noise rows.

The rows are jagged arrays of `sbyte`. Sums are `int` and wrap.
-/

namespace ArcMiner.AkoyaCrypto.JackpotComputer

open Library Library.CSharp Spec Nat
open List hiding Vector

def element (rows : List (List Int8)) (u : Nat) (l : Int) : Result Int32 := do
  let row ← index rows u
  let value ← index row l
  return value.toInt32

structure Rows where
  secretA : List (List Int8)
  secretB : List (List Int8)
  noiseA : List (List Int8)
  noiseB : List (List Int8)
deriving DecidableEq

def addProducts (rows : Rows) (u v : Nat) (lo hi : Int) (start : Int32) : Result Int32 :=
  (range (hi - lo).toNat).foldlM (fun sum (j : Nat) => do
    let a ← element rows.secretA u (lo + j)
    let noiseA ← element rows.noiseA u (lo + j)
    let b ← element rows.secretB v (lo + j)
    let noiseB ← element rows.noiseB v (lo + j)
    return sum + (a + noiseA) * (b + noiseB)) start

structure State where
  ll : Int
  tile : List (List Int32)
  msg : Vector UInt32 16
deriving DecidableEq

def xorEntries (tile : List (List Int32)) : UInt32 :=
  tile.foldl (fun xored row => row.foldl (fun xored entry => xored ^^^ entry.toUInt32) xored) 0

def step (rows : Rows) (h w : Nat) (r : Int) (state : State) : Result State := do
  let tile ← (range h).mapM fun u => (range w).mapM fun v =>
    addProducts rows u v (int32 (state.ll - r)) state.ll ((state.tile.getD u []).getD v 0)
  if r = 0 then .error .divideByZero
  else
    let tid := (state.ll.tdiv r - 1).tmod 16
    if bound : 0 ≤ tid ∧ tid.toNat < 16 then
      return { ll := int32 (state.ll + r), tile,
               msg := state.msg.set tid.toNat (Spec.rotateLeft (state.msg[tid.toNat]) 13 ^^^ xorEntries tile) }
    else .error .indexOutOfRange

def initial (h w : Nat) (r : Int) : State := ⟨r, replicate h (replicate w 0), Vector.replicate 16 0⟩

/-- The loop advances by `r` until it passes `k`. Where the counter wraps before that, at most two more iterations
follow, since the place of a word is negative by then. -/
def compute (h w : Nat) (k r : Int) (rows : Rows) : Result (Vector UInt32 16) := do
  let final ← whileLoop (fun state : State => (k + 3 - state.ll).toNat) (fun state => decide (state.ll ≤ k))
    (step rows h w r) (initial h w r)
  return final.msg

def loopAfter (h w : Nat) (k r : Int) (rows : Rows) (n : Nat) : Result State :=
  whileFuel (fun state : State => decide (state.ll ≤ k)) (step rows h w r) n
    ⟨r, replicate h (replicate w 0), Vector.replicate 16 0⟩

def recordedLoop (h w : Nat) (k r : Int) (rows : Rows) : Result (State × List (List (List Int32))) :=
  whileLoop (fun state => (k + 3 - state.1.ll).toNat) (fun state => decide (state.1.ll ≤ k))
    (recording State.tile (step rows h w r)) (initial h w r, [])

def foldedTiles (h w : Nat) (k r : Int) (rows : Rows) : Result (List (List (List Int32))) :=
  Prod.snd <$> recordedLoop h w k r rows

theorem compute_eq_recordedLoop (h w : Nat) (k r : Int) (rows : Rows) :
    compute h w k r rows = (fun state => state.1.msg) <$> recordedLoop h w k r rows := by
  have run := whileFuel_recording State.tile (fun state => decide (state.ll ≤ k)) (step rows h w r) (k + 3 - r).toNat
    (initial h w r, [])
  have value : compute h w k r rows =
      State.msg <$> whileFuel (fun state => decide (state.ll ≤ k)) (step rows h w r) (k + 3 - r).toNat (initial h w r) := by
    unfold compute whileLoop
    rw [map_eq_pure_bind]
    rfl
  rw [value, ← run, Functor.map_map]
  rfl

structure Shaped (rows : List (List Int8)) (h k : Nat) : Prop where
  height : rows.length = h
  width : ∀ u < h, (rows.getD u []).length = k

def noised (secret noise : List (List Int8)) (u l : Nat) : Int :=
  ((secret.getD u []).getD l 0).toInt + ((noise.getD u []).getD l 0).toInt

def partialSum (rows : Rows) (u v n : Nat) : Int :=
  ∑ l ∈ Finset.range n, noised rows.secretA rows.noiseA u l * noised rows.secretB rows.noiseB v l

theorem element_eq {rows : List (List Int8)} {h k u l : Nat} (shaped : Shaped rows h k) (row : u < h) (col : l < k) :
    element rows u (l : Int) = .ok ((rows.getD u []).getD l 0).toInt32 := by
  have inner := index_of_lt (by rw [shaped.width u row]; exact col)
  have outer : index rows (u : Int) = .ok (rows.getD u []) := index_of_lt (by rw [shaped.height]; exact row)
  unfold element
  rw [outer, ok_bind, inner, ok_bind]
  rfl

def stateAfter (rows : Rows) (h w r blocks : Nat) : State where
  ll := ((blocks + 1) * r : Nat)
  tile := tabulate (fun u => tabulate (fun v =>
    dot (noised rows.secretA rows.noiseA u) (noised rows.secretB rows.noiseB v) (blocks * r)) w) h
  msg := transcript h w r (noised rows.secretA rows.noiseA) (noised rows.secretB rows.noiseB) blocks

theorem ll_stateAfter (rows : Rows) (h w r blocks : Nat) :
    (stateAfter rows h w r blocks).ll = (((blocks + 1) * r : Nat) : Int) := rfl

theorem state_zero (rows : Rows) (h w r : Nat) :
    (⟨r, replicate h (replicate w 0), Vector.replicate 16 0⟩ : State) = stateAfter rows h w r 0 := by
  simp [stateAfter, tabulate, dot, transcript, map_const']

def recordAfter (rows : Rows) (h w r blocks : Nat) : State × List (List (List Int32)) :=
  (stateAfter rows h w r blocks, tabulate (fun b => (stateAfter rows h w r (b + 1)).tile) blocks)

theorem recordAfter_next (rows : Rows) (h w r blocks : Nat) :
    (stateAfter rows h w r (blocks + 1), (recordAfter rows h w r blocks).2 ++ [(stateAfter rows h w r (blocks + 1)).tile]) =
      recordAfter rows h w r (blocks + 1) := by
  rw [recordAfter, recordAfter, tabulate_add]
  rfl

theorem entry_stateAfter (rows : Rows) (h w r blocks : Nat) {u v : Nat} (row : u < h) (col : v < w) :
    ((stateAfter rows h w r blocks).tile.getD u []).getD v 0 =
      dot (noised rows.secretA rows.noiseA u) (noised rows.secretB rows.noiseB v) (blocks * r) := by
  simp [stateAfter, tabulate, row, col]

theorem xorEntries_tabulate (h w : Nat) (entry : Nat → Nat → Int32) :
    xorEntries (tabulate (fun u => tabulate (entry u) w) h) = xorTile h w fun u v => (entry u v).toUInt32 := by
  have row : ∀ (xored : UInt32) (row : List Int32), row.foldl (fun xored entry => xored ^^^ entry.toUInt32) xored =
      xored ^^^ (row.map fun entry => (⟨entry.toUInt32⟩ : Xored)).sum.word :=
    fun xored row => foldl_xor _ row xored
  unfold xorEntries xorTile
  simp only [row]
  rw [foldl_xor]
  simp only [tabulate, map_map, Function.comp_def, sum_map_range]
  exact congrArg Xored.word (zero_add _)

theorem place_of_negative (a r : Nat) :
    ((-(a : Int)).tdiv r - 1).tmod 16 = -(((a / r + 1) % 16 : Nat) : Int) := by
  have quotient : (-(a : Int)).tdiv r = -((a / r : Nat) : Int) := by
    rw [Int.neg_tdiv]
    rfl
  have shift : -((a / r : Nat) : Int) - 1 = -((a / r + 1 : Nat) : Int) := by omega
  rw [quotient, shift, Int.neg_tmod]
  rfl

section wrapped
variable {rows : Rows} {h w r : Nat} {state next : State} (positive : 0 < r)
include positive

/-- With a negative counter only one word in sixteen has a place. -/
theorem step_of_negative {a : Nat} (negative : state.ll = -(a : Int)) (ran : step rows h w r state = .ok next) :
    (a / r + 1) % 16 = 0 ∧ next.ll = int32 (state.ll + r) := by
  obtain ⟨tile, -, ran⟩ := bind_eq_ok.mp ran
  rw [if_neg (by omega)] at ran
  simp only at ran
  split at ran
  next inside =>
    obtain rfl := Except.ok.inj ran
    rw [negative, place_of_negative] at inside
    exact ⟨by omega, rfl⟩
  next => cases ran

theorem two_steps_fail {a : Nat} (negative : state.ll = -(a : Int)) (fits : a ≤ 2 ^ 31)
    (first : step rows h w r state = .ok next) : next.ll ≤ 0 ∧ ∃ why, step rows h w r next = .error why := by
  obtain ⟨place, advanced⟩ := step_of_negative positive negative first
  have deep : r ≤ a := by
    by_contra short
    rw [div_eq_of_lt (by omega)] at place
    omega
  have later : next.ll = -((a - r : Nat) : Int) := by
    rw [advanced, negative, int32_of_fits] <;> omega
  refine ⟨by omega, ?_⟩
  have quotient : (a - r) / r + 1 = a / r := by
    rw [← Nat.add_div_right _ positive, Nat.sub_add_cancel deep]
  cases second : step rows h w r next with
  | error why => exact ⟨why, rfl⟩
  | ok last =>
    have other := (step_of_negative positive later second).1
    omega

theorem whileFuel_wrapped {k a : Nat} (negative : state.ll = -(a : Int)) (fits : a ≤ 2 ^ 31) (fuel : Nat) :
    ∃ why, whileFuel (fun state : State => decide (state.ll ≤ (k : Int))) (step rows h w r) (fuel + 2) state =
      .error why := by
  have running : state.ll ≤ (k : Int) := by omega
  rw [whileFuel, if_pos (decide_eq_true running)]
  cases first : step rows h w r state with
  | error why => exact ⟨why, rfl⟩
  | ok next =>
    obtain ⟨low, why, failed⟩ := two_steps_fail positive negative fits first
    have later : next.ll ≤ (k : Int) := by omega
    rw [ok_bind, whileFuel, if_pos (decide_eq_true later), failed]
    exact ⟨why, rfl⟩

end wrapped
theorem recordedLoop_zero (h w k : Nat) (rows : Rows) : ∃ why, recordedLoop h w k 0 rows = .error why := by
  have running : decide ((initial h w 0).ll ≤ (k : Int)) = true := decide_eq_true (Int.natCast_nonneg k)
  have fuel : ((k : Int) + 3 - (initial h w 0).ll).toNat = k + 2 + 1 := by
    show ((k : Int) + 3 - 0).toNat = k + 2 + 1
    omega
  have failed : ∃ why, step rows h w 0 (initial h w 0) = .error why := by
    cases ran : step rows h w 0 (initial h w 0) with
    | error why => exact ⟨why, rfl⟩
    | ok next =>
      obtain ⟨tile, -, ran⟩ := bind_eq_ok.mp ran
      cases ran
  obtain ⟨why, failed⟩ := failed
  refine ⟨why, ?_⟩
  rw [recordedLoop, whileLoop, fuel, whileFuel, if_pos running, recording, failed]
  rfl

section
variable {rows : Rows} {h w k : Nat} (aShaped : Shaped rows.secretA h k) (bShaped : Shaped rows.secretB w k)
  (aNoise : Shaped rows.noiseA h k) (bNoise : Shaped rows.noiseB w k)
include aShaped bShaped aNoise bNoise

theorem addProducts_eq {u v : Nat} (row : u < h) (col : v < w) {lo more : Nat} (inside : lo + more ≤ k) :
    addProducts rows u v lo ((lo + more : Nat) : Int)
        (dot (noised rows.secretA rows.noiseA u) (noised rows.secretB rows.noiseB v) lo) =
      .ok (dot (noised rows.secretA rows.noiseA u) (noised rows.secretB rows.noiseB v) (lo + more)) := by
  have count : (((lo + more : Nat) : Int) - lo).toNat = more := by omega
  unfold addProducts
  rw [count]
  clear count
  -- one more product per iteration
  induction more with
  | zero => rfl
  | succ more ih =>
    have next : ((lo : Int) + (more : Nat)) = ((lo + more : Nat) : Int) := by omega
    rw [range_succ, foldlM_append, ih (by omega), ok_bind, foldlM_cons, next,
      element_eq aShaped row (by omega), ok_bind, element_eq aNoise row (by omega), ok_bind,
      element_eq bShaped col (by omega), ok_bind, element_eq bNoise col (by omega), ok_bind]
    rw [← add_assoc, dot_succ, noised, noised, Int32.ofInt_add, Int32.ofInt_add, Int32.ofInt_int8ToInt,
      Int32.ofInt_int8ToInt, Int32.ofInt_int8ToInt, Int32.ofInt_int8ToInt]
    rfl

theorem step_wraps {r blocks : Nat} (positive : 0 < r) (inside : (blocks + 1) * r ≤ k) (int : k < 2 ^ 31) :
    step rows h w r (stateAfter rows h w r blocks) =
      .ok { stateAfter rows h w r (blocks + 1) with ll := int32 (((blocks + 2) * r : Nat) : Int) } := by
  have split : (blocks + 1) * r = blocks * r + r := succ_mul blocks r
  have hi : (stateAfter rows h w r blocks).ll = ((blocks * r + r : Nat) : Int) := by
    rw [ll_stateAfter, split]
  have lo : int32 ((stateAfter rows h w r blocks).ll - r) = (blocks * r : Nat) := by
    rw [hi, int32_of_fits] <;> omega
  have tile : ((range h).mapM fun u => (range w).mapM fun v =>
      addProducts rows u v (int32 ((stateAfter rows h w r blocks).ll - r)) (stateAfter rows h w r blocks).ll
        (((stateAfter rows h w r blocks).tile.getD u []).getD v 0)) =
      .ok (stateAfter rows h w r (blocks + 1)).tile := by
    rw [lo, hi]
    refine mapM_eq_ok fun u member => mapM_eq_ok fun v member' => ?_
    have row := mem_range.mp member
    have col := mem_range.mp member'
    rw [entry_stateAfter rows h w r blocks row col, addProducts_eq aShaped bShaped aNoise bNoise row col (by omega), split]
  have tid : (((stateAfter rows h w r blocks).ll.tdiv r) - 1).tmod 16 = ((blocks % 16 : Nat) : Int) := by
    have quotient : ((stateAfter rows h w r blocks).ll.tdiv r) = ((blocks + 1 : Nat) : Int) := by
      rw [ll_stateAfter, cast_mul, Int.mul_tdiv_cancel _ (by omega)]
    rw [quotient, show ((blocks + 1 : Nat) : Int) - 1 = blocks by omega, Int.tmod_eq_emod_of_nonneg (by omega)]
    omega
  have advance : (stateAfter rows h w r blocks).ll + r = (((blocks + 2) * r : Nat) : Int) := by
    rw [hi, succ_mul, split]
    rfl
  have small := mod_lt blocks (show 0 < 16 by decide)
  unfold step
  rw [tile, ok_bind, if_neg (by omega)]
  simp only [tid, advance]
  rw [dif_pos (by omega)]
  simp only [Int.toNat_natCast, stateAfter, xorEntries_tabulate]
  rfl

theorem step_eq {r blocks : Nat} (positive : 0 < r) (inside : (blocks + 1) * r ≤ k) (int : k < 2 ^ 31)
    (fits : (blocks + 2) * r < 2 ^ 31) :
    step rows h w r (stateAfter rows h w r blocks) = .ok (stateAfter rows h w r (blocks + 1)) := by
  rw [step_wraps aShaped bShaped aNoise bNoise positive inside int, int32_of_fits (by omega) (by omega)]
  rfl

theorem record_advance {r : Nat} (positive : 0 < r) (int : k < 2 ^ 31) (fuel : Nat) {n blocks : Nat}
    (inside : (blocks + n) * r ≤ k) (fits : 0 < n → (blocks + n + 1) * r < 2 ^ 31) :
    whileFuel (fun state => decide (state.1.ll ≤ (k : Int))) (recording State.tile (step rows h w r)) (n + fuel)
        (recordAfter rows h w r blocks) =
      whileFuel (fun state => decide (state.1.ll ≤ (k : Int))) (recording State.tile (step rows h w r)) fuel
        (recordAfter rows h w r (blocks + n)) := by
  induction n generalizing blocks with
  | zero => rw [zero_add, add_zero]
  | succ n ih =>
    have place : blocks + (n + 1) = blocks + 1 + n := by omega
    have now : (blocks + 1) * r ≤ (blocks + (n + 1)) * r := mul_le_mul_right r (by omega)
    have after : (blocks + 2) * r ≤ (blocks + (n + 1) + 1) * r := mul_le_mul_right r (by omega)
    have bound := fits (succ_pos n)
    have running : decide ((recordAfter rows h w r blocks).1.ll ≤ (k : Int)) = true := by
      rw [decide_eq_true_iff, recordAfter, ll_stateAfter]
      omega
    have one : recording State.tile (step rows h w r) (recordAfter rows h w r blocks) =
        .ok (recordAfter rows h w r (blocks + 1)) := by
      have next := step_eq aShaped bShaped aNoise bNoise positive (show (blocks + 1) * r ≤ k by omega) int (by omega)
      rw [← recordAfter_next, recording, show (recordAfter rows h w r blocks).1 = stateAfter rows h w r blocks from rfl,
        next]
      rfl
    rw [succ_add, whileFuel, if_pos running, one, ok_bind, ih (by rwa [← place]) (fun _ => by rwa [← place]), place]

omit aShaped bShaped aNoise bNoise in
theorem record_ends {r : Nat} (positive : 0 < r) (fuel : Nat) :
    whileFuel (fun state => decide (state.1.ll ≤ (k : Int))) (recording State.tile (step rows h w r)) fuel
        (recordAfter rows h w r (k / r)) = .ok (recordAfter rows h w r (k / r)) := by
  have reached := div_add_mod' k r
  have rest := mod_lt k positive
  have past : ¬ (recordAfter rows h w r (k / r)).1.ll ≤ (k : Int) := by
    rw [recordAfter, ll_stateAfter, succ_mul]
    omega
  cases fuel with
  | zero => rfl
  | succ fuel =>
    rw [whileFuel, if_neg (by simpa using past)]
    rfl

theorem record_fuel {r : Nat} (positive : 0 < r) (int : r ≤ k → k < 2 ^ 31)
    (fits : r ≤ k → (k / r + 1) * r < 2 ^ 31) (fuel : Nat) :
    whileFuel (fun state => decide (state.1.ll ≤ (k : Int))) (recording State.tile (step rows h w r)) fuel
        (recordAfter rows h w r 0) = .ok (recordAfter rows h w r (min fuel (k / r))) := by
  have covered := Nat.div_mul_le_self k r
  rcases Nat.lt_or_ge k r with short | some
  · have none : k / r = 0 := Nat.div_eq_of_lt short
    have ended := @record_ends rows h w k r positive fuel
    rw [none] at ended
    rw [none, Nat.min_zero, ended]
  · rcases Nat.le_total fuel (k / r) with few | enough
    · have shorter := Nat.mul_le_mul_right r few
      have next := Nat.mul_le_mul_right r (Nat.add_le_add_right few 1)
      have run := @record_advance rows h w k aShaped bShaped aNoise bNoise r positive (int some) 0 fuel 0
        (by rw [Nat.zero_add]; omega) (fun _ => by rw [Nat.zero_add]; have := fits some; omega)
      rw [Nat.min_eq_left few]
      rw [Nat.add_zero, Nat.zero_add] at run
      exact run
    · obtain ⟨rest, rfl⟩ := Nat.exists_eq_add_of_le enough
      rw [Nat.min_eq_right enough, record_advance aShaped bShaped aNoise bNoise positive (int some) rest
        (by rwa [Nat.zero_add]) (fun _ => by rw [Nat.zero_add]; exact fits some), Nat.zero_add]
      exact record_ends positive rest

omit aShaped bShaped aNoise bNoise in
theorem blocks_le_fuel {r : Nat} (positive : 0 < r) : k / r ≤ ((k : Int) + 3 - r).toNat := by
  have covered := div_mul_le_self k r
  rcases quotient : k / r with _ | more
  · omega
  · have := Nat.le_mul_of_pos_right more positive
    rw [quotient, succ_mul] at covered
    omega

theorem recordedLoop_eq {r : Nat} (positive : 0 < r) (int : r ≤ k → k < 2 ^ 31)
    (fits : r ≤ k → (k / r + 1) * r < 2 ^ 31) :
    recordedLoop h w k r rows = .ok (recordAfter rows h w r (k / r)) := by
  have start : ((initial h w r, []) : State × List (List (List Int32))) = recordAfter rows h w r 0 :=
    Prod.ext (state_zero rows h w r) rfl
  have run := record_fuel aShaped bShaped aNoise bNoise positive int fits ((k : Int) + 3 - r).toNat
  rw [min_eq_right (blocks_le_fuel positive), ← start] at run
  exact run

/-- Where the counter wraps, the run fails after the tiles of all whole blocks have been folded. -/
theorem recordedLoop_wraps {r : Nat} (positive : 0 < r) (some : r ≤ k) (int : k < 2 ^ 31)
    (wraps : 2 ^ 31 ≤ (k / r + 1) * r) : ∃ why, recordedLoop h w k r rows = .error why := by
  have covered := Nat.div_mul_le_self k r
  obtain ⟨blocks, quotient⟩ := Nat.exists_eq_add_one.mpr (Nat.div_pos some positive)
  rw [quotient] at covered
  replace wraps : 2 ^ 31 ≤ (blocks + 2) * r := by rwa [quotient] at wraps
  have before : blocks * r ≤ k := Nat.le_trans (Nat.mul_le_mul_right r (Nat.le_succ blocks)) covered
  obtain ⟨rest, fuel⟩ : ∃ rest, ((k : Int) + 3 - r).toNat = blocks + (rest + 2 + 1) := by
    have short := Nat.le_mul_of_pos_right blocks positive
    rw [Nat.succ_mul] at covered
    exact ⟨k - r - blocks, by omega⟩
  obtain ⟨a, small, negative⟩ : ∃ a : Nat, a ≤ 2 ^ 31 ∧ int32 (((blocks + 2) * r : Nat) : Int) = -(a : Int) := by
    rw [show (blocks + 2) * r = (blocks + 1) * r + r from Nat.succ_mul _ _] at wraps ⊢
    refine ⟨2 ^ 32 - ((blocks + 1) * r + r), by omega, ?_⟩
    rw [int32_of_wraps (by omega) (by omega)]
    omega
  have start : ((initial h w r, []) : State × List (List (List Int32))) = recordAfter rows h w r 0 :=
    Prod.ext (state_zero rows h w r) rfl
  have running : decide ((recordAfter rows h w r blocks).1.ll ≤ (k : Int)) = true := by
    rw [decide_eq_true_iff, recordAfter, ll_stateAfter]
    omega
  -- the last whole block is folded, and the counter is negative
  have run : recordedLoop h w k r rows =
      whileFuel (fun state => decide (state.1.ll ≤ (k : Int))) (recording State.tile (step rows h w r)) (rest + 2)
        ({ stateAfter rows h w r (blocks + 1) with ll := int32 (((blocks + 2) * r : Nat) : Int) },
          (recordAfter rows h w r blocks).2 ++ [(stateAfter rows h w r (blocks + 1)).tile]) := by
    have steps := @record_advance rows h w k aShaped bShaped aNoise bNoise r positive int (rest + 2 + 1) blocks 0
      (by rwa [Nat.zero_add]) (fun _ => by rw [Nat.zero_add]; exact Nat.lt_of_le_of_lt covered int)
    have wrapped := step_wraps aShaped bShaped aNoise bNoise positive covered int
    generalize int32 (((blocks + 2) * r : Nat) : Int) = ll at wrapped ⊢
    rw [← fuel, ← start, Nat.zero_add, whileFuel, if_pos running, recording,
      show (recordAfter rows h w r blocks).1 = stateAfter rows h w r blocks from rfl, wrapped, ok_bind] at steps
    exact steps.trans (ok_bind _ _)
  generalize wrapped : { stateAfter rows h w r (blocks + 1) with ll := int32 (((blocks + 2) * r : Nat) : Int) } = state at run
  have counter : state.ll = -(a : Int) := by rw [← wrapped, ← negative]
  obtain ⟨why, failed⟩ := @whileFuel_wrapped rows h w r state positive k a counter small rest
  rw [show state = (state, (recordAfter rows h w r blocks).2 ++ [(stateAfter rows h w r (blocks + 1)).tile]).1 from rfl,
    ← whileFuel_recording State.tile, ← run] at failed
  cases loop : recordedLoop h w k r rows with
  | error why => exact ⟨why, rfl⟩
  | ok final =>
    rw [loop] at failed
    cases failed

theorem loopAfter_eq {r : Nat} (positive : 0 < r) (int : r ≤ k → k < 2 ^ 31) (fits : r ≤ k → (k / r + 1) * r < 2 ^ 31)
    (n : Nat) : loopAfter h w k r rows n = .ok (stateAfter rows h w r (min n (k / r))) := by
  have run := whileFuel_recording State.tile (fun state => decide (state.ll ≤ (k : Int))) (step rows h w r) n
    (recordAfter rows h w r 0)
  rw [record_fuel aShaped bShaped aNoise bNoise positive int fits] at run
  rw [loopAfter, state_zero]
  exact run.symm

theorem compute_eq {r : Nat} (positive : 0 < r) (fits : r ≤ k → k + r < 2 ^ 31) :
    compute h w k r rows =
      .ok (transcript h w r (noised rows.secretA rows.noiseA) (noised rows.secretB rows.noiseB) (k / r)) := by
  have covered := div_mul_le_self k r
  rw [compute_eq_recordedLoop, recordedLoop_eq aShaped bShaped aNoise bNoise positive
    (fun some => by have := fits some; omega) (fun some => by have := fits some; rw [succ_mul]; omega)]
  rfl

/-- Where the rank divides the length of the rows, the words are returned exactly if the loop counter stays an `int`. -/
theorem compute_ok_iff {r : Nat} (positive : 0 < r) (divides : r ∣ k) (int : k < 2 ^ 31) (rank : r < 2 ^ 31)
    (words : Vector UInt32 16) : compute h w k r rows = .ok words ↔
      words = transcript h w r (noised rows.secretA rows.noiseA) (noised rows.secretB rows.noiseB) (k / r) ∧
        k + r < 2 ^ 31 := by
  by_cases fits : k + r < 2 ^ 31
  · rw [compute_eq aShaped bShaped aNoise bNoise positive fun _ => fits, Except.ok.injEq, eq_comm]
    exact (and_iff_left fits).symm
  · refine iff_of_false ?_ fun known => fits known.2
    obtain ⟨why, failed⟩ := recordedLoop_wraps aShaped bShaped aNoise bNoise positive
      (Nat.le_of_dvd (by omega) divides) int (by rw [Nat.succ_mul, Nat.div_mul_cancel divides]; omega)
    rw [compute_eq_recordedLoop, failed]
    rintro ⟨⟩

/-- Every value an accumulator takes is the sum of the products so far, and far from wrapping. -/
theorem accumulators_exact {r : Nat} (positive : 0 < r) (short : k ≤ 131072)
    (left : ∀ u < h, ∀ l < k, (noised rows.secretA rows.noiseA u l).natAbs ≤ 126)
    (right : ∀ v < w, ∀ l < k, (noised rows.secretB rows.noiseB v l).natAbs ≤ 126) {n : Nat} {state : State}
    (reached : loopAfter h w k r rows n = .ok state) (running : state.ll ≤ k) {u v more : Nat} (row : u < h) (col : v < w)
    (inside : more ≤ r) :
    ∃ acc, addProducts rows u v (int32 (state.ll - r)) (int32 (state.ll - r) + more)
        ((state.tile.getD u []).getD v 0) = .ok acc ∧
      acc.toInt = partialSum rows u v ((state.ll - r).toNat + more) ∧
      (partialSum rows u v ((state.ll - r).toNat + more)).natAbs ≤ 131072 * 126 ^ 2 := by
  have whole := div_mul_le_self k r
  rw [loopAfter_eq aShaped bShaped aNoise bNoise positive (by omega) (by rw [succ_mul]; omega) n] at reached
  obtain rfl := Except.ok.inj reached
  generalize min n (k / r) = blocks at running
  rw [ll_stateAfter, succ_mul] at running
  have first : (stateAfter rows h w r blocks).ll - r = (blocks * r : Nat) := by
    rw [ll_stateAfter, succ_mul]
    omega
  have upTo : ((blocks * r : Nat) : Int) + more = ((blocks * r + more : Nat) : Int) := by omega
  have covered : blocks * r + more ≤ k := by omega
  have rowBound : ∀ l < blocks * r + more, (noised rows.secretA rows.noiseA u l).natAbs ≤ 126 :=
    fun l bound => left u row l (by omega)
  have colBound : ∀ l < blocks * r + more, (noised rows.secretB rows.noiseB v l).natAbs ≤ 126 :=
    fun l bound => right v col l (by omega)
  rw [first, int32_of_fits (by omega) (by omega), upTo, entry_stateAfter rows h w r blocks row col, Int.toNat_natCast,
    addProducts_eq aShaped bShaped aNoise bNoise row col covered]
  exact ⟨_, rfl, toInt_dot rowBound colBound (by omega),
    (natAbs_sum_mul_le rowBound colBound).trans (mul_le_mul_right _ (by omega))⟩

end

def parseRows (slice : List UInt8) (numRows cols : Nat) : Result (List (List Int8)) :=
  (range numRows).mapM fun (i : Nat) => (range cols).mapM fun (j : Nat) => do
    let byte ← index slice (int32 (int32 (i * cols) + j))
    return byte.toInt8

theorem parseRows_eq {slice : List UInt8} {numRows cols : Nat} (covers : numRows * cols ≤ slice.length)
    (fits : slice.length < 2 ^ 31) :
    parseRows slice numRows cols =
      .ok (tabulate (fun i => tabulate (fun j => (slice.getD (i * cols + j) 0).toInt8) cols) numRows) := by
  unfold parseRows
  refine mapM_eq_ok fun i member => mapM_eq_ok fun j member' => ?_
  have inside := segment_lt (mem_range.mp member') (mem_range.mp member)
  have place : int32 (int32 ((i : Int) * cols) + j) = ((i * cols + j : Nat) : Int) := by
    rw [← cast_mul, int32_of_fits (x := ((i * cols : Nat) : Int)), int32_of_fits] <;> omega
  rw [place, index_of_lt (by omega), ok_bind]
  rfl

theorem parseRows_shaped {slice : List UInt8} {numRows cols : Nat} (covers : numRows * cols ≤ slice.length)
    (fits : slice.length < 2 ^ 31) {rows : List (List Int8)} (parsed : parseRows slice numRows cols = .ok rows) :
    Shaped rows numRows cols := by
  rw [parseRows_eq covers fits] at parsed
  cases parsed
  refine ⟨length_tabulate _ _, fun u row => ?_⟩
  rw [getD_eq_getElem?_getD, getElem?_tabulate _ row]
  exact length_tabulate _ _

end ArcMiner.AkoyaCrypto.JackpotComputer
