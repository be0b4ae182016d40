import Mathlib.Algebra.Order.Ring.Int
import ArcMiner.Library.Numeral

/-! The rows and columns that an iteration searches.

`compute_search_m` and `pearl_capi_iter` take the window from the environment; `SyclSearchM`
and `SyclSearchN` of `GpuWorker` repeat the formulas, to report the throughput.
-/

namespace ArcMiner

open Library

abbrev Vars := String → Option String

/-- A request cut to the dimension and to whole units, but at least one of these. -/
def alignedWindow (unit dim request : Int) : Int :=
  let s := if request > dim then dim else request
  let s := s.tdiv unit * unit
  if s < unit then unit else s

namespace PearlGemm

section native
variable (libc : Libc) (env : Vars)

/-- The first spelling that is set to a positive number counts. -/
def tuneEnvInt (name : String) (default : Int) : Int :=
  (["ARC_", "AKOYA_"].findSome? fun spelling => (env (spelling ++ name)).bind fun v =>
    if 0 < libc.atoi v.toList then some (libc.atoi v.toList) else none).getD default

def computeSearchM (m : Int) : Int := alignedWindow 16 m (tuneEnvInt libc env "SEARCH_M" 4096)

def iterWindow (smCap m n : Int) : Int × Int :=
  let sm := computeSearchM libc env m
  let sm := if 0 < smCap ∧ sm > smCap then smCap else sm
  (sm, alignedWindow 64 n (tuneEnvInt libc env "SEARCH_N" 131072))

/-- The window of an iteration in a workspace that was allocated in the same environment. -/
def searchedWindow (m n : Int) : Int × Int := iterWindow libc env (computeSearchM libc env m) m n

end native
end PearlGemm

namespace Prl.GpuWorker

def envInt (env : Vars) (name : String) (fallback : Int) : Int :=
  ((env name).bind fun text => CSharp.tryParseInt text.toList).getD fallback

def syclSearchM (env : Vars) (m : Int) : Int := alignedWindow 16 m (envInt env "ARC_SEARCH_M" 4096)

/-- Unlike the native side this cuts the window to `n` again. -/
def syclSearchN (env : Vars) (n : Int) : Int :=
  let sn := alignedWindow 64 n (envInt env "ARC_SEARCH_N" 131072)
  if sn > n then n else sn

end Prl.GpuWorker

namespace Prl

open PearlGemm GpuWorker

section window
variable {unit : Int} (positive : 0 < unit) (dim request : Int)
include positive

theorem alignedWindow_eq : alignedWindow unit dim request = unit * max 1 (min request dim / unit) := by
  have cut : (if request > dim then dim else request) = min request dim := by omega
  unfold alignedWindow
  simp only [cut]
  generalize min request dim = s
  rcases lt_or_ge s unit with small | large
  · have units : s / unit < 1 := (Int.ediv_lt_iff_lt_mul positive).mpr (by rwa [Int.one_mul])
    have below : s.tdiv unit * unit < unit := by
      rcases lt_or_ge s 0 with negative | nonneg
      · have quotient := Int.tdiv_nonneg (show 0 ≤ -s by omega) positive.le
        have := Int.mul_nonneg quotient positive.le
        rw [Int.neg_tdiv, Int.neg_mul] at this
        omega
      · rw [Int.tdiv_eq_zero_of_lt nonneg small, Int.zero_mul]
        exact positive
    rw [if_pos below, max_eq_left (by omega), Int.mul_one]
  · have units : 1 ≤ s / unit := (Int.le_ediv_iff_mul_le positive).mpr (by rwa [Int.one_mul])
    have above : unit ≤ s / unit * unit := by
      have := Int.mul_le_mul_of_nonneg_right units positive.le
      rwa [Int.one_mul] at this
    rw [Int.tdiv_eq_ediv_of_nonneg (by omega), if_neg (by omega), max_eq_right units, Int.mul_comm]

theorem alignedWindow_le_iff : alignedWindow unit dim request ≤ dim ↔ unit ≤ dim := by
  rw [alignedWindow_eq positive]
  constructor
  · intro inside
    have one := Int.mul_le_mul_of_nonneg_left (Int.le_max_left 1 (min request dim / unit)) positive.le
    omega
  · intro room
    rcases Int.le_total (min request dim / unit) 1 with none | some
    · rwa [max_eq_left none, Int.mul_one]
    · have covered := Int.mul_ediv_self_le (x := min request dim) positive.ne'
      rw [max_eq_right some]
      omega

theorem units_of_nonpos (low : request ≤ 0) : max 1 (min request dim / unit) = 1 := by
  apply max_eq_left
  apply Int.le_of_lt
  apply (Int.ediv_lt_iff_lt_mul positive).mpr
  omega

theorem units_eq_one_iff : max 1 (min request dim / unit) = 1 ↔ min request dim < 2 * unit := by
  rw [max_eq_left_iff, ← Int.lt_add_one_iff]
  exact Int.ediv_lt_iff_lt_mul positive

end window

section request
variable (libc : Libc) (arc akoya : Option String) (fallback : Int)

/-- What the two spellings of a variable must hold for both sides to search alike, by what `TryParse` makes of the
first one. -/
def SameWindow (unit dim : Int) : Prop :=
  match arc.bind fun text => CSharp.tryParseInt text.toList with
  | some v => 0 < v ∨ min ((libc.positiveStart akoya).getD fallback) dim < 2 * unit
  | none => max 1 (min (((libc.positiveStart arc).or (libc.positiveStart akoya)).getD fallback) dim / unit) =
      max 1 (min fallback dim / unit)

theorem tuneEnvInt_eq (env : Vars) (name : String) :
    tuneEnvInt libc env name fallback =
      ((libc.positiveStart (env ("ARC_" ++ name))).or (libc.positiveStart (env ("AKOYA_" ++ name)))).getD fallback := by
  have start (text : Option String) : (text.bind fun v =>
      if 0 < libc.atoi v.toList then some (libc.atoi v.toList) else none) = libc.positiveStart text := by
    cases text with
    | none => rfl
    | some v => simp [Libc.positiveStart, Option.filter]
  unfold tuneEnvInt
  simp only [List.findSome?_cons, List.findSome?_nil, start]
  cases libc.positiveStart (env ("ARC_" ++ name)) with
  | some v => rfl
  | none => cases libc.positiveStart (env ("AKOYA_" ++ name)) <;> rfl

theorem windows_eq_iff (env : Vars) (name : String) {unit : Int} (positive : 0 < unit) (dim : Int) :
    alignedWindow unit dim (envInt env ("ARC_" ++ name) fallback) =
        alignedWindow unit dim (tuneEnvInt libc env name fallback) ↔
      SameWindow libc (env ("ARC_" ++ name)) (env ("AKOYA_" ++ name)) fallback unit dim := by
  rw [alignedWindow_eq positive, alignedWindow_eq positive, Int.mul_eq_mul_left_iff positive.ne', tuneEnvInt_eq, envInt, SameWindow]
  generalize env ("ARC_" ++ name) = arc
  cases parsed : arc.bind fun text => CSharp.tryParseInt text.toList with
  | none => exact eq_comm
  | some v =>
    obtain ⟨text, rfl, parsed⟩ := Option.bind_eq_some_iff.mp parsed
    have read := libc.atoi_of_parsed parsed
    by_cases above : 0 < v
    · -- both sides read the same number
      have start : libc.positiveStart (some text) = some v := by simp [Libc.positiveStart, Option.filter, read, above]
      rw [start]
      exact iff_of_true rfl (Or.inl above)
    · have start : libc.positiveStart (some text) = none := by simp [Libc.positiveStart, Option.filter, read, above]
      rw [start, Option.none_or, Option.getD_some, units_of_nonpos positive dim v (by omega), eq_comm,
        units_eq_one_iff positive]
      exact (or_iff_right above).symm

end request

/-- The window reported is the one searched, and it lies inside the matrices, exactly when these have room for one
unit of the window and both sides take the same window from the environment. -/
theorem search_window_iff (libc : Libc) (env : Vars) (m n : Int) :
    (syclSearchM env m = (searchedWindow libc env m n).1 ∧ syclSearchN env n = (searchedWindow libc env m n).2 ∧
        (searchedWindow libc env m n).1 ≤ m ∧ (searchedWindow libc env m n).2 ≤ n) ↔
      16 ≤ m ∧ 64 ≤ n ∧ SameWindow libc (env "ARC_SEARCH_M") (env "AKOYA_SEARCH_M") 4096 16 m ∧
        SameWindow libc (env "ARC_SEARCH_N") (env "AKOYA_SEARCH_N") 131072 64 n := by
  have uncapped : (searchedWindow libc env m n).1 = alignedWindow 16 m (tuneEnvInt libc env "SEARCH_M" 4096) := by
    simp only [searchedWindow, iterWindow, ite_self]
    rfl
  have columns : (searchedWindow libc env m n).2 = alignedWindow 64 n (tuneEnvInt libc env "SEARCH_N" 131072) := rfl
  have rowsAgree := windows_eq_iff libc 4096 env "SEARCH_M" (show 0 < (16 : Int) by decide) m
  have columnsAgree := windows_eq_iff libc 131072 env "SEARCH_N" (show 0 < (64 : Int) by decide) n
  have inside := alignedWindow_le_iff (show 0 < (64 : Int) by decide) n (envInt env "ARC_SEARCH_N" 131072)
  rw [uncapped, columns, alignedWindow_le_iff (by decide), alignedWindow_le_iff (by decide), syclSearchM]
  constructor
  · rintro ⟨rows, cols, tall, wide⟩
    rw [syclSearchN, if_neg (Int.not_lt.mpr (inside.mpr wide))] at cols
    exact ⟨tall, wide, rowsAgree.mp rows, columnsAgree.mp cols⟩
  · rintro ⟨tall, wide, rows, cols⟩
    refine ⟨rowsAgree.mpr rows, ?_, tall, wide⟩
    rw [syclSearchN, if_neg (Int.not_lt.mpr (inside.mpr wide))]
    exact columnsAgree.mpr cols

/-- Nothing set. -/
theorem search_window_unset :
    syclSearchM (fun _ => none) 131072 = (searchedWindow .saturating (fun _ => none) 131072 131072).1 ∧
      syclSearchN (fun _ => none) 131072 = (searchedWindow .saturating (fun _ => none) 131072 131072).2 ∧
      (searchedWindow .saturating (fun _ => none) 131072 131072).1 ≤ 131072 ∧
      (searchedWindow .saturating (fun _ => none) 131072 131072).2 ≤ 131072 :=
  (search_window_iff .saturating (fun _ => none) 131072 131072).mpr ⟨by decide, by decide, rfl, rfl⟩

def legacyEnv : Vars := fun name => if name = "AKOYA_SEARCH_M" then some "256" else none

theorem search_window_legacy : syclSearchM legacyEnv 131072 = 4096 ∧
    (searchedWindow .saturating legacyEnv 131072 131072).1 = 256 := by
  decide

end Prl
end ArcMiner
