import Mathlib.Data.Nat.Digits.Lemmas
import ArcMiner.Library.Blake3
import ArcMiner.Library.CSharp
import ArcMiner.Library.Except
import ArcMiner.Library.WordValue

/-! The host's side of a win: `GpuWorker.TargetToUint32LE` and `HostSignalHeaderLayout.ExtractIndices`. -/

namespace ArcMiner.MinerCore

open Library Library.CSharp List

namespace GpuWorker

/-- `BigInteger.ToByteArray(isUnsigned: true, isBigEndian: false)` of a number that is not negative. -/
def toByteArray (n : Nat) : List UInt8 := if n = 0 then [0] else (Nat.digits 256 n).map fun digit => digit.toUInt8

/-- At most 32 bytes are copied into a buffer of zeros. -/
def targetToUint32LE (target : Nat) : Digest := Vector.ofFn fun i => (toByteArray target).getD i.val 0

/-- The target as `InstallSigmaHalf` uploads it, clamped to 256 bits. -/
def powTarget (adjusted : Nat) : Digest := targetToUint32LE (if 2 ^ 256 ≤ adjusted then 2 ^ 256 - 1 else adjusted)

theorem getD_toByteArray (n i : Nat) : ((toByteArray n).getD i 0).toNat = n / 256 ^ i % 256 := by
  unfold toByteArray
  split
  next zero =>
    subst zero
    cases i <;> simp
  next =>
    have digit : ((Nat.digits 256 n).map fun digit => digit.toUInt8).getD i 0 = ((Nat.digits 256 n).getD i 0).toUInt8 := by
      rw [getD_eq_getElem?_getD, getElem?_map, getD_eq_getElem?_getD]
      cases (Nat.digits 256 n)[i]? <;> rfl
    rw [digit, Nat.getD_digits n i (by decide)]
    simp only [Nat.toUInt8, UInt8.toNat_ofNat']
    omega

end GpuWorker

def digestValue (d : Digest) : Nat := bytesValue (fun i => d.toList.getD i 0) 32

theorem getD_ofFn (f : Nat → UInt8) {i : Nat} (inside : i < 32) :
    (Vector.ofFn fun i : Fin 32 => f i.val).toList.getD i 0 = f i := by
  rw [getD_eq_getElem _ _ (by rw [Vector.length_toList]; exact inside), Vector.getElem_toList, Vector.getElem_ofFn]

theorem digestValue_lt (d : Digest) : digestValue d < 2 ^ 256 := bytesValue_lt _ _

namespace GpuWorker

theorem digestValue_targetToUint32LE {target : Nat} (fits : target < 2 ^ 256) :
    digestValue (targetToUint32LE target) = target := by
  unfold digestValue targetToUint32LE
  have digits : ∀ i < 32, ((Vector.ofFn fun i : Fin 32 => (toByteArray target).getD i.val 0).toList.getD i 0).toNat =
      target / 256 ^ i % 256 := fun i inside => by
    rw [getD_ofFn (fun i => (toByteArray target).getD i 0) inside, getD_toByteArray]
  rw [bytesValue_digits digits]
  exact Nat.mod_eq_of_lt fits

theorem le_powTarget_iff (d : Digest) (adjusted : Nat) :
    digestValue d ≤ digestValue (powTarget adjusted) ↔ digestValue d ≤ adjusted := by
  have bound := digestValue_lt d
  unfold powTarget
  split
  next large =>
    rw [digestValue_targetToUint32LE (by omega)]
    omega
  next small => rw [digestValue_targetToUint32LE (by omega)]

end GpuWorker

namespace HostSignalHeaderLayout

def offStatus : Nat := 0
def offTileCoord : Nat := 40
def offNumRegistersPerThread : Nat := 64
def offThreadRows : Nat := 66
def offThreadCols : Nat := 322
def offMmaTileSize : Nat := 592

def maxNumRegistersPerThread : UInt16 := 256

def status (header : List UInt8) : Int32 := (leWordAt header offStatus).toInt32

structure ProofTileIndices where
  aRowIndices : List UInt32
  bColumnIndices : List UInt32
deriving DecidableEq

def slice (header : List UInt8) (start length : Nat) : Result (List UInt8) :=
  if start + length ≤ header.length then .ok ((header.drop start).take length) else .error (.argumentOutOfRange "")

def toUInt32 (bytes : List UInt8) : UInt32 := leWordAt bytes 0

def toUInt16 (bytes : List UInt8) : UInt16 := (bytes.getD 0 0).toUInt16 ||| (bytes.getD 1 0).toUInt16 <<< 8

/-- The loop that moves the first of equal neighbours to the front of the sorted buffer. -/
def compact (buf : List UInt8) : List UInt8 :=
  let final := (range buf.length).foldl (fun (state : List UInt8 × Nat) i =>
    if i = 0 ∨ state.1.getD i 0 ≠ state.1.getD (i - 1) 0 then (state.1.set state.2 (state.1.getD i 0), state.2 + 1)
    else state) (buf, 0)
  final.1.take final.2

def extractIndices (header : List UInt8) : Result ProofTileIndices := do
  let tileRow := toUInt32 (← slice header (offTileCoord + 0) 4)
  let tileCol := toUInt32 (← slice header (offTileCoord + 4) 4)
  let mmaTileH := (toUInt32 (← slice header (offMmaTileSize + 0) 4)).toInt32
  let mmaTileW := (toUInt32 (← slice header (offMmaTileSize + 4) 4)).toInt32
  let numRegs := toUInt16 (← slice header offNumRegistersPerThread 2)
  if numRegs = 0 ∨ maxNumRegistersPerThread < numRegs then
    .error (.invalidData ("num_registers_per_thread out of range: " ++ toString numRegs.toNat))
  else
    let bufs ← (range numRegs.toNat).mapM fun (i : Nat) => do
      let r ← index header ((offThreadRows + i : Nat) : Int)
      let c ← index header ((offThreadCols + i : Nat) : Int)
      return (r, c)
    let rows := compact ((bufs.map Prod.fst).insertionSort (· ≤ ·))
    let cols := compact ((bufs.map Prod.snd).insertionSort (· ≤ ·))
    let rowOff := tileRow * mmaTileH.toUInt32
    let colOff := tileCol * mmaTileW.toUInt32
    return ⟨rows.map fun r => rowOff + r.toUInt32, cols.map fun c => colOff + c.toUInt32⟩

theorem slice_tabulate (f : Nat → UInt8) {n start length : Nat} (inside : start + length ≤ n) :
    slice (tabulate f n) start length = .ok (tabulate (fun i => f (start + i)) length) := by
  have parts : tabulate f n = tabulate f start ++ (tabulate (fun i => f (start + i)) length ++
      tabulate (fun i => f (start + (length + i))) (n - (start + length))) := by
    rw [← tabulate_add (fun i => f (start + i)), ← tabulate_add]
    congr 1
    omega
  unfold slice
  rw [length_tabulate, if_pos inside, parts, drop_left' (length_tabulate ..), take_left' (length_tabulate ..)]

theorem index_tabulate (f : Nat → UInt8) {n i : Nat} (inside : i < n) : index (tabulate f n) (i : Int) = .ok (f i) := by
  unfold index
  rw [if_neg (by omega), Int.toNat_natCast, getElem?_tabulate f inside]

theorem extractIndices_tabulate {f : Nat → UInt8} {n : Nat} (inside : 604 ≤ n) (count : Nat) (positive : 0 < count)
    (most : count ≤ 256) (regs : toUInt16 [f 64, f 65] = count.toUInt16) : extractIndices (tabulate f n) = .ok
      ⟨(compact ((tabulate (fun i => f (offThreadRows + i)) count).insertionSort (· ≤ ·))).map fun r =>
          leWord (f 40) (f 41) (f 42) (f 43) * leWord (f 592) (f 593) (f 594) (f 595) + r.toUInt32,
        (compact ((tabulate (fun i => f (offThreadCols + i)) count).insertionSort (· ≤ ·))).map fun c =>
          leWord (f 44) (f 45) (f 46) (f 47) * leWord (f 596) (f 597) (f 598) (f 599) + c.toUInt32⟩ := by
  have word (start : Nat) : toUInt32 (tabulate (fun i => f (start + i)) 4) =
      leWord (f start) (f (start + 1)) (f (start + 2)) (f (start + 3)) := rfl
  have value : count.toUInt16.toNat = count := by
    rw [Nat.toUInt16, UInt16.toNat_ofNat']
    omega
  have accepted : ¬(count.toUInt16 = 0 ∨ maxNumRegistersPerThread < count.toUInt16) := by
    rw [← UInt16.toNat_inj, UInt16.lt_iff_toNat_lt, value]
    have top : maxNumRegistersPerThread.toNat = 256 := rfl
    have bottom : (0 : UInt16).toNat = 0 := rfl
    omega
  have loaded : ((range count).mapM fun (i : Nat) => do
      let r ← index (tabulate f n) ((offThreadRows + i : Nat) : Int)
      let c ← index (tabulate f n) ((offThreadCols + i : Nat) : Int)
      return (r, c)) = (.ok (tabulate (fun i => (f (offThreadRows + i), f (offThreadCols + i))) count) : Result _) := by
    refine mapM_eq_ok fun i member => ?_
    have early := mem_range.mp member
    rw [index_tabulate f (by unfold offThreadRows; omega), ok_bind,
      index_tabulate f (by unfold offThreadCols; omega), ok_bind]
    rfl
  unfold extractIndices
  rw [slice_tabulate f (by unfold offTileCoord; omega), ok_bind, slice_tabulate f (by unfold offTileCoord; omega),
    ok_bind, slice_tabulate f (by unfold offMmaTileSize; omega), ok_bind,
    slice_tabulate f (by unfold offMmaTileSize; omega), ok_bind,
    slice_tabulate f (by unfold offNumRegistersPerThread; omega), ok_bind,
    show toUInt16 (tabulate (fun i => f (offNumRegistersPerThread + i)) 2) = count.toUInt16 from regs]
  simp only [word, value]
  rw [if_neg accepted, loaded, ok_bind]
  simp only [tabulate, map_map, UInt32.toUInt32_toInt32]
  rfl

end HostSignalHeaderLayout
end ArcMiner.MinerCore
