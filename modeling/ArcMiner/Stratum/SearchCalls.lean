import ArcMiner.Csd.CsdSha256d
import ArcMiner.Sha3t.Sha3tKeccak

/-! The nonce search of the GPU kernels and the search calls of the two GPU libraries.

A work-item sweeps a few nonces one after the other. A nonce that wins takes the next slot of the output
from a counter that all work-items share, so the winners may stand there in any order.
-/

namespace ArcMiner.Stratum.NonceSearch

open Library UInt32
open List hiding Vector

def foundCap : Nat := 4096

def itemNonces (nonceBase count per : UInt32) (gid : Nat) : List UInt32 :=
  (((range per.toNat).map fun j => UInt32.ofNat gid * per + UInt32.ofNat j).takeWhile (· < count)).map (nonceBase + ·)

def winners (win : UInt32 → Bool) (nonceBase count per : UInt32) : List UInt32 :=
  (range ((count + per - 1) / per).toNat).flatMap fun gid => (itemNonces nonceBase count per gid).filter win

def found (slots : List UInt32) : List UInt32 := slots.take foundCap

theorem win_of_found {win : UInt32 → Bool} {nonceBase count per : UInt32} {slots : List UInt32}
    (ordered : slots.isPerm (winners win nonceBase count per) = true) {nonce : UInt32} (isFound : nonce ∈ found slots) :
    win nonce = true := by
  have inSlots : nonce ∈ slots := mem_of_mem_take isFound
  have isWinner := (isPerm_iff.mp ordered).mem_iff.mp inSlots
  obtain ⟨gid, -, swept⟩ := mem_flatMap.mp isWinner
  exact (mem_filter.mp swept).2

def tested (nonceBase count per : UInt32) : List UInt32 :=
  (range ((count + per - 1) / per).toNat).flatMap (itemNonces nonceBase count per)

/-- `fetch_add` on the counter; the nonce is kept while there is room. -/
def claimSlot (state : UInt32 × (Nat → UInt32)) (nonce : UInt32) : UInt32 × (Nat → UInt32) :=
  (state.1 + 1, if state.1.toNat < foundCap then Function.update state.2 state.1.toNat nonce else state.2)

/-- The total and the nonces returned. `order` are the winners in the order of their increments, `dFound` is what the
buffer of the device held before. -/
def search (count foundCapacity : UInt32) (order : List UInt32) (dFound : Nat → UInt32) : UInt32 × List UInt32 :=
  if count = 0 then (0, [])
  else
    let (total, found) := order.foldl claimSlot (0, dFound)
    let n := if total < foundCapacity then total.toNat else foundCapacity.toNat
    (total, (range (if n < foundCap then n else foundCap)).map found)

theorem takeWhile_map_range {α : Type} (item : Nat → α) {p : α → Bool} {n m : Nat}
    (below : ∀ j < n, p (item j) = decide (j < m)) :
    ((range n).map item).takeWhile p = tabulate item (min n m) := by
  induction n with
  | zero => simp [tabulate]
  | succ n ih =>
    have last := below n (by omega)
    rw [range_succ, map_append, takeWhile_append, ih fun j inside => below j (by omega), length_tabulate,
      length_map, length_range]
    by_cases inside : n < m
    · rw [if_pos (by omega), show min (n + 1) m = n + 1 by omega, tabulate, range_succ, map_append]
      simp [last, inside]
    · by_cases full : min n m = n
      · rw [if_pos full, show min (n + 1) m = n by omega]
        simp [last, inside, tabulate]
      · rw [if_neg full, show min (n + 1) m = min n m by omega]

section

variable {nonceBase count per : UInt32} (each : 0 < per) (fits : count.toNat + per.toNat ≤ 2 ^ 32)
include each fits

/-- No index of a work-item wraps, as the last one is below `count + per`. -/
theorem itemNonces_eq {gid : Nat} (inside : gid < (count.toNat + per.toNat - 1) / per.toNat) :
    itemNonces nonceBase count per gid =
      tabulate (fun i => nonceBase + ofNat (gid * per.toNat + i)) (min per.toNat (count.toNat - gid * per.toNat)) := by
  have started : (gid + 1) * per.toNat ≤ count.toNat + per.toNat - 1 := (Nat.le_div_iff_mul_le each).mp inside
  rw [Nat.succ_mul] at started
  have index : ∀ j < per.toNat, ofNat gid * per + ofNat j = ofNat (gid * per.toNat + j) := by
    intro j _
    simp
  rw [itemNonces, map_congr_left fun j member => index j (mem_range.mp member),
    takeWhile_map_range (m := count.toNat - gid * per.toNat), tabulate, tabulate, map_map]
  · rfl
  · intro j small
    have place := toNat_ofNat_of_lt' (show gid * per.toNat + j < 2 ^ 32 by omega)
    exact decide_eq_decide.mpr (by rw [lt_iff_toNat_lt, place]; omega)

theorem tested_eq : tested nonceBase count per = tabulate (fun i => nonceBase + ofNat i) count.toNat := by
  have items : ((count + per - 1) / per).toNat = (count.toNat + per.toNat - 1) / per.toNat := by
    have some : 0 < per.toNat := each
    rw [UInt32.toNat_div, UInt32.toNat_sub, UInt32.toNat_add]
    congr 1
    simp
    omega
  rw [tested, items, ← flatMap_segments (fun i => nonceBase + ofNat i) each count.toNat]
  exact flatMap_congr fun gid member => itemNonces_eq each fits (mem_range.mp member)

theorem nodup_tested : (tested nonceBase count per).Nodup := by
  rw [tested_eq each fits]
  refine nodup_range.map_on fun i inside j within same => ?_
  have indices := UInt32.toNat_inj.mpr ((UInt32.add_right_inj nonceBase).mp same)
  have below := count.toNat_lt
  have small : ∀ k ∈ range count.toNat, (ofNat k).toNat = k := fun k member =>
    toNat_ofNat_of_lt' (Nat.lt_trans (mem_range.mp member) below)
  rwa [small i inside, small j within] at indices

end

theorem foldl_claimSlot (order : List UInt32) {n : Nat} (fits : n + order.length < 2 ^ 32) (found : Nat → UInt32) :
    order.foldl claimSlot (ofNat n, found) = (ofNat (n + order.length), fun i =>
      if n ≤ i ∧ i < foundCap then order.getD (i - n) (found i) else found i) := by
  induction order generalizing n found with
  | nil => simp
  | cons nonce order ih =>
    rw [length_cons] at fits
    have counted : ofNat n + 1 = ofNat (n + 1) := by simp
    rw [foldl_cons, claimSlot, toNat_ofNat_of_lt' (show n < 2 ^ 32 by omega), counted, ih (by omega), length_cons]
    refine Prod.ext (congrArg ofNat (by omega)) (funext fun i => ?_)
    grind [Function.update_apply]

structure Exact (win : UInt32 → Bool) (nonceBase count foundCapacity : UInt32) (tested : List UInt32)
    (returned : UInt32 × List UInt32) : Prop where
  covers : tested.Perm ((range count.toNat).map fun i => nonceBase + ofNat i)
  once : tested.Nodup
  total : returned.1.toNat = tested.countP win
  kept : returned.2.length = min returned.1.toNat (min foundCapacity.toNat foundCap)
  distinct : returned.2.Nodup
  won : ∀ nonce ∈ returned.2, nonce ∈ tested ∧ win nonce = true

theorem exact_search {win : UInt32 → Bool} {nonceBase count per : UInt32} (some : 0 < count) (each : 0 < per)
    (fits : count.toNat + per.toNat ≤ 2 ^ 32) (foundCapacity : UInt32) {order : List UInt32}
    (ordered : order.Perm (winners win nonceBase count per)) (dFound : Nat → UInt32) :
    Exact win nonceBase count foundCapacity (tested nonceBase count per) (search count foundCapacity order dFound) := by
  have won : order.Perm ((tested nonceBase count per).filter win) := by
    rwa [tested, filter_flatMap]
  have total : order.length = (tested nonceBase count per).countP win := by
    rw [won.length_eq, countP_eq_length_filter]
  have covers : tested nonceBase count per = _ := tested_eq each fits
  have once : order.Nodup := won.nodup_iff.mpr ((nodup_tested each fits).filter win)
  have few : order.length < 2 ^ 32 := by
    have most := countP_le_length (p := win) (l := tested nonceBase count per)
    have below := count.toNat_lt
    rw [← total, covers, length_tabulate] at most
    omega
  have returned : search count foundCapacity order dFound =
      (ofNat order.length, order.take (min foundCapacity.toNat foundCap)) := by
    have claimed : order.foldl claimSlot (0, dFound) = _ := foldl_claimSlot order (n := 0) (by omega) dFound
    have counted := toNat_ofNat_of_lt' few
    simp only [search, if_neg (UInt32.ne_of_lt some).symm, claimed, Nat.zero_add, lt_iff_toNat_lt, counted]
    refine Prod.ext rfl (ext_getElem ?_ fun i inside _ => ?_)
    · grind
    · grind
  rw [returned]
  refine ⟨covers ▸ .refl _, nodup_tested each fits, ?_, ?_, once.sublist (take_sublist _ _), fun nonce member => ?_⟩
  · rw [← total, toNat_ofNat_of_lt' few]
  · rw [length_take, toNat_ofNat_of_lt' few, Nat.min_comm]
  · exact mem_filter.mp (won.mem_iff.mp (mem_of_mem_take member))

def csdWins (mid : Words) (tail5 : Vector UInt32 5) (target : Words) (nonce : UInt32) : Bool :=
  CsdSha256d.leTarget (Csd.CsdSha256d.sha256dTail mid tail5 nonce) target

def sha3tWins (hdr10 : Vector UInt64 10) (target4 : Lanes) (nonce : UInt32) : Bool :=
  let h := Sha3t.sha3tHash hdr10 nonce
  Sha3tKeccak.leTarget #v[h.l0, h.l1, h.l2, h.l3] target4

theorem nonce_search_exact {nonceBase count per : UInt32} (some : 0 < count) (each : 0 < per)
    (fits : count.toNat + per.toNat ≤ 2 ^ 32) (foundCapacity : UInt32) (dFound : Nat → UInt32) (order : List UInt32) :
    (∀ mid tail5 target, order.Perm (winners (csdWins mid tail5 target) nonceBase count per) →
      Exact (csdWins mid tail5 target) nonceBase count foundCapacity (tested nonceBase count per)
        (search count foundCapacity order dFound)) ∧
    ∀ hdr10 target4, order.Perm (winners (sha3tWins hdr10 target4) nonceBase count per) →
      Exact (sha3tWins hdr10 target4) nonceBase count foundCapacity (tested nonceBase count per)
        (search count foundCapacity order dFound) :=
  ⟨fun _ _ _ ordered => exact_search some each fits foundCapacity ordered dFound,
    fun _ _ ordered => exact_search some each fits foundCapacity ordered dFound⟩

def blankWins : UInt32 → Bool := csdWins (.replicate 8 0) (.replicate 5 0) (.replicate 8 0x7FFFFFFF)

/-- Twenty nonces in three work-items, from the end of the range round to its start. -/
theorem nonce_search_exact_wrapped : Exact blankWins 0xFFFFFFFA 20 2 (tested 0xFFFFFFFA 20 8)
    (search 20 2 (winners blankWins 0xFFFFFFFA 20 8) fun _ => 0) :=
  (nonce_search_exact (by decide) (by decide) (by decide) 2 (fun _ => 0) _).1 _ _ _ (.refl _)

end ArcMiner.Stratum.NonceSearch
