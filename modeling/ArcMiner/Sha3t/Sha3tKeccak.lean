import ArcMiner.Library.CycleWalk
import ArcMiner.Library.Keccak
import ArcMiner.Library.Span

/-! The sha3t kernel: three permutations of a state that the header and the nonce are put into. -/

namespace ArcMiner.Sha3t

open Library Library.CSharp Library.CycleWalk Keccak Vector
open Library.Keccak (State)

def kRC : Vector UInt64 24 :=
  #v[0x0000000000000001, 0x0000000000008082, 0x800000000000808a, 0x8000000080008000, 0x000000000000808b,
    0x0000000080000001, 0x8000000080008081, 0x8000000000008009, 0x000000000000008a, 0x0000000000000088,
    0x0000000080008009, 0x000000008000000a, 0x000000008000808b, 0x800000000000008b, 0x8000000000008089,
    0x8000000000008003, 0x8000000000008002, 0x8000000000000080, 0x000000000000800a, 0x800000008000000a,
    0x8000000080008081, 0x8000000000008080, 0x0000000080000001, 0x8000000080008008]

def kRotc : Vector Nat 24 :=
  #v[1, 3, 6, 10, 15, 21, 28, 36, 45, 55, 2, 14, 27, 41, 56, 8, 25, 43, 62, 18, 39, 61, 20, 44]

def kPiln : Vector (Fin 25) 24 :=
  #v[10, 7, 11, 17, 18, 3, 5, 16, 8, 21, 24, 4, 15, 23, 19, 13, 12, 2, 20, 14, 22, 9, 6, 1]

def rol (x : UInt64) (n : Nat) : UInt64 := (x <<< n.toUInt64) ||| (x >>> (64 - n).toUInt64)

def chi (a b c : UInt64) : UInt64 := a ^^^ (~~~b &&& c)

def cell (y x : Fin 5) : Fin 25 := ⟨5 * y.val + x.val, by omega⟩

def row (a : State) (y : Fin 5) : Vector UInt64 5 := ofFn fun x => a.get (cell y x)

def setRow (a : State) (y : Fin 5) (lanes : Vector UInt64 5) : State :=
  (List.finRange 5).foldl (fun a x => a.set (cell y x) (lanes.get x)) a

def forRows (f : Vector UInt64 5 → Vector UInt64 5) (a : State) : State :=
  (List.finRange 5).foldl (fun a y => setRow a y (f (row a y))) a

def theta (a : State) : State :=
  let c0 := a[0] ^^^ a[5] ^^^ a[10] ^^^ a[15] ^^^ a[20]
  let c1 := a[1] ^^^ a[6] ^^^ a[11] ^^^ a[16] ^^^ a[21]
  let c2 := a[2] ^^^ a[7] ^^^ a[12] ^^^ a[17] ^^^ a[22]
  let c3 := a[3] ^^^ a[8] ^^^ a[13] ^^^ a[18] ^^^ a[23]
  let c4 := a[4] ^^^ a[9] ^^^ a[14] ^^^ a[19] ^^^ a[24]
  let d0 := c4 ^^^ rol c1 1
  let d1 := c0 ^^^ rol c2 1
  let d2 := c1 ^^^ rol c3 1
  let d3 := c2 ^^^ rol c4 1
  let d4 := c3 ^^^ rol c0 1
  forRows (fun b => #v[b[0] ^^^ d0, b[1] ^^^ d1, b[2] ^^^ d2, b[3] ^^^ d3, b[4] ^^^ d4]) a

/-- Lane 1 walks the cycle; every hop turns what the hop before it has pushed out. -/
def rhoPi (a : State) : State :=
  ((List.finRange 24).foldl (fun state t => hop (fun n last => rol last n) state (kPiln.get t, kRotc.get t))
    (a, a.get 1)).1

def chiRows (a : State) : State :=
  forRows (fun b => #v[chi b[0] b[1] b[2], chi b[1] b[2] b[3], chi b[2] b[3] b[4], chi b[3] b[4] b[0], chi b[4] b[0] b[1]]) a

def round (a : State) (r : Fin 24) : State :=
  let a := chiRows (rhoPi (theta a))
  a.set 0 (a[0] ^^^ kRC.get r)

def keccakf (a : State) : State := (List.finRange 24).foldl round a

def kRateEndBit : UInt64 := 0x8000000000000000

structure Digest4 where
  l0 : UInt64
  l1 : UInt64
  l2 : UInt64
  l3 : UInt64

def firstLane (hdr10 : Vector UInt64 10) (nonce : UInt32) (i : Fin 25) : UInt64 :=
  if h : i.val < 9 then hdr10[i.val]
  else if i.val = 9 then (hdr10[9] &&& (0x00000000ffffffff : UInt64)) ||| nonce.toUInt64 <<< 32
  else if i.val = 10 then 0x06
  else 0

def firstState (hdr10 : Vector UInt64 10) (nonce : UInt32) : State :=
  let a := ofFn (firstLane hdr10 nonce)
  a.set 16 (a[16] ||| kRateEndBit)

/-- The digest stays where it is; everything behind it is written anew. -/
def nextState (a : State) : State :=
  let a : State := ofFn fun i => if i.val < 4 then a.get i else if i.val = 4 then 0x06 else 0
  a.set 16 kRateEndBit

def sha3tHash (hdr10 : Vector UInt64 10) (nonce : UInt32) : Digest4 :=
  let a := keccakf (firstState hdr10 nonce)
  let a := Nat.repeat (fun a => keccakf (nextState a)) 2 a
  ⟨a[0], a[1], a[2], a[3]⟩

def headerLanes (header80 : List UInt8) : Result (Vector UInt64 10) := do
  if header80.length ≠ 80 then .error (.argument "header must be 80 bytes")
  let lanes ← (List.range 10).mapM fun i => do
    let slice ← spanSlice header80 (8 * i) 8
    readUInt64LittleEndian slice
  return ofFn fun i => lanes.getD i.val 0

def Digest4.bytes (digest : Digest4) : List UInt8 :=
  [digest.l0, digest.l1, digest.l2, digest.l3].flatMap longBytes

theorem rol_eq (x : UInt64) {n : Nat} (small : n < 64) : rol x n = rotateLeft x n := by
  cases n with
  | zero =>
    rw [rotateLeft_zero]
    apply UInt64.toBitVec_inj.mp
    simp [rol, UInt64.toBitVec_shiftRight]
  | succ n =>
    have amount : (63 - n) % 64 = 64 - (n + 1) % 64 := by omega
    apply UInt64.toBitVec_inj.mp
    simp [rol, rotateLeft, BitVec.rotateLeft_def, UInt64.toBitVec_shiftLeft, UInt64.toBitVec_shiftRight, amount]

theorem cell_ne {y y' : Fin 5} (apart : y ≠ y') (x x' : Fin 5) : cell y x ≠ cell y' x' := by
  intro same
  have values := congrArg Fin.val same
  simp only [cell] at values
  omega

theorem cell_injective (y : Fin 5) : Function.Injective (cell y) := by
  intro x x' same
  have values := congrArg Fin.val same
  simp only [cell] at values
  omega

variable (a : State)

theorem get_row (y x : Fin 5) : (row a y).get x = a.get (cell y x) := CycleWalk.get_ofFn _ x

theorem ext_row {a b : State} (same : ∀ y, row a y = row b y) : a = b := by
  apply ext_get
  intro i
  have place : i = cell ⟨i.val / 5, by omega⟩ ⟨i.val % 5, by omega⟩ := Fin.ext (Nat.div_add_mod i.val 5).symm
  rw [place, ← get_row, ← get_row, same]

theorem row_setRow (y y' : Fin 5) (lanes : Vector UInt64 5) :
    row (setRow a y lanes) y' = if y' = y then lanes else row a y' := by
  apply ext_get
  intro x
  rw [get_row, setRow]
  split
  next here =>
    subst here
    exact get_foldl_set_of_mem (cell_injective y') lanes.get (List.nodup_finRange 5) (List.mem_finRange x) a
  next apart =>
    rw [get_row]
    exact get_foldl_set_of_ne lanes.get (fun x' _ => cell_ne (Ne.symm apart) x' x) a

theorem row_forRows (f : Vector UInt64 5 → Vector UInt64 5) (a : State) (y : Fin 5) :
    row (forRows f a) y = f (row a y) := by
  have visited (ys : List (Fin 5)) (once : ys.Nodup) (a : State) :
      row (ys.foldl (fun a y => setRow a y (f (row a y))) a) y = if y ∈ ys then f (row a y) else row a y := by
    induction ys generalizing a with
    | nil => rfl
    | cons y' ys ih =>
      rw [List.nodup_cons] at once
      rw [List.foldl_cons, ih once.2, row_setRow]
      by_cases here : y = y'
      · subst here
        rw [if_neg once.1, if_pos rfl, if_pos List.mem_cons_self]
      · simp [here]
  rw [forRows, visited _ (List.nodup_finRange 5), if_pos (List.mem_finRange y)]

theorem row_ofLanes (f : Nat → Nat → UInt64) (y : Fin 5) : row (ofLanes f) y = ofFn fun x => f x.val y.val := by
  apply ext_get
  intro x
  have column : (cell y x).val % 5 = x.val := by
    simp only [cell]
    omega
  have level : (cell y x).val / 5 = y.val := by
    simp only [cell]
    omega
  rw [get_row, get_ofLanes, column, level, CycleWalk.get_ofFn]

theorem lane_eq (x : Nat) (y : Fin 5) :
    lane a x y.val = (row a y).get ⟨x % 5, Nat.mod_lt x (by decide)⟩ := by
  have place : position x y.val = cell y ⟨x % 5, Nat.mod_lt x (by decide)⟩ := by
    apply Fin.ext
    simp only [position, cell]
    omega
  rw [get_row, lane, place]

theorem ofFn_five (f : Fin 5 → UInt64) : ofFn f = #v[f 0, f 1, f 2, f 3, f 4] := rfl

theorem theta_eq : theta a = Keccak.theta a := by
  have turn (z : UInt64) : rol z 1 = Keccak.rotateLeft z 1 := rol_eq z (by decide)
  apply ext_row
  intro y
  rw [theta, row_forRows, Keccak.theta, row_ofLanes, ofFn_five]
  simp only [turn, lane_eq]
  rfl

theorem chiRows_eq : chiRows a = Keccak.chi a := by
  apply ext_row
  intro y
  rw [chiRows, row_forRows, Keccak.chi, row_ofLanes, ofFn_five]
  simp only [lane_eq]
  rfl

def cycle : List (Fin 25 × Nat) := (List.finRange 24).map fun t => (kPiln.get t, kRotc.get t)

/-- The tables of the walk: what `pi` moves to a lane, and how far `rho` turns it before. -/
theorem origin_cycle : ∀ i : Fin 25, origin 1 cycle i =
    if i = 0 then none
    else some (position (i.val % 5 + 3 * (i.val / 5)) (i.val % 5),
      offset ((i.val % 5 + 3 * (i.val / 5)) % 5) (i.val % 5 % 5) % 64) := by
  decide

theorem rhoPi_eq : rhoPi a = pi (rho a) := by
  apply ext_get
  intro i
  have walked := get_foldl_hop (fun n last => rol last n) (by decide : (cycle.map Prod.fst).Nodup) a (fun _ _ => rfl) 1 i
  rw [cycle, List.foldl_map] at walked
  rw [rhoPi, walked, ← cycle, origin_cycle, pi, get_ofLanes, rho, lane_ofLanes]
  rw [lane, position_mod]
  by_cases corner : i = 0
  · subst corner
    exact (rotateLeft_zero _).symm
  · rw [if_neg corner]
    dsimp only
    rw [rol_eq _ (Nat.mod_lt _ (by decide)), rotateLeft_mod]

theorem kRC_eq : ∀ r : Fin 24, kRC.get r = roundConstant r.val := by decide +kernel

theorem round_eq (r : Fin 24) : round a r = Keccak.round a r.val := by
  rw [round, Keccak.round, Keccak.iota, chiRows_eq, rhoPi_eq, theta_eq, kRC_eq]

theorem keccakf_eq : keccakf a = Keccak.permute a := by
  have indices : List.range 24 = (List.finRange 24).map Fin.val := rfl
  rw [keccakf, permute, indices, List.foldl_map, funext fun a => funext (round_eq a)]

def digest (a : State) : List UInt8 := (a.toList.take 4).flatMap longBytes

theorem take_toList : a.toList.take 4 = [a.get 0, a.get 1, a.get 2, a.get 3] := by
  apply List.ext_getElem
  · simp
  · intro i inTake inList
    match i with
    | 0 | 1 | 2 | 3 => simp [Vector.get]
    | i + 4 => exact absurd inList (by simp)

theorem length_digest : (digest a).length = 32 := by
  rw [digest, take_toList]
  rfl

theorem sha3_block {m : Nat} (short : m < 16) {message : List UInt8} (whole : message.length = 8 * m) :
    sha3 4 message = digest (permute (block 136 (pad 136 message) 0)) := by
  have padded : (pad 136 message).length = 136 := by
    simp only [pad, padding, List.length_append, whole]
    split <;> simp <;> omega
  exact sha3_one (by decide) padded

theorem get_set (i j : Fin 25) (x : UInt64) : (a.set i x).get j = if j = i then x else a.get j := by
  split
  next here => rw [here, get_set_self]
  next apart => rw [get_set_ne a x apart]

theorem leLongAt_digest {k : Fin 25} (below : k.val < 4) : leLongAt (digest a) (8 * k.val) = a.get k := by
  have inside : k.val < (a.toList.take 4).length := by
    rw [List.length_take, length_toList]
    omega
  have lane := leLongAt_flatMap (a.toList.take 4) [] inside
  rw [List.append_nil, List.getD_eq_getElem _ _ inside, List.getElem_take, getElem_toList] at lane
  exact lane

theorem nextState_eq : nextState a = block 136 (pad 136 (digest a)) 0 := by
  apply ext_get
  intro k
  have written : (nextState a).get k =
      if k = 16 then kRateEndBit else if k.val < 4 then a.get k else if k.val = 4 then 0x06 else 0 := by
    rw [nextState]
    exact (get_set _ 16 k _).trans (by rw [CycleWalk.get_ofFn])
  rw [get_block_pad (show 4 < 16 by decide) (length_digest a), written]
  by_cases last : k = 16
  · subst last
    rfl
  · have high : k.val ≠ 16 := fun same => last (Fin.ext same)
    rw [if_neg last, if_neg high]
    by_cases below : k.val < 4
    · rw [if_pos below, if_pos below, leLongAt_digest a below]
    · rw [if_neg below, if_neg below]

theorem digest_nextState : digest (keccakf (nextState a)) = sha3 4 (digest a) := by
  rw [keccakf_eq, sha3_block (show 4 < 16 by decide) (length_digest a), nextState_eq]

def withNonce (header : Vector UInt8 80) (nonce : UInt32) : List UInt8 := header.toList.take 76 ++ wordBytes nonce

variable (header : Vector UInt8 80) (nonce : UInt32)

theorem length_withNonce : (withNonce header nonce).length = 80 := by
  rw [withNonce, List.length_append, List.length_take, length_toList]
  rfl

theorem leLongAt_withNonce {k : Nat} (before : k < 9) :
    leLongAt (withNonce header nonce) (8 * k) = leLongAt header.toList (8 * k) := by
  have front : (header.toList.take 76).length = 76 := by simp
  have whole := leLongAt_append_left (header.toList.drop 76) (show 8 * k + 8 ≤ (header.toList.take 76).length by omega)
  rw [List.take_append_drop] at whole
  rw [withNonce, leLongAt_append_left _ (by omega), whole]

theorem leLongAt_withNonce_last :
    leLongAt (withNonce header nonce) 72 = (leLongAt header.toList 72 &&& (0x00000000ffffffff : UInt64)) ||| nonce.toUInt64 <<< 32 := by
  have front : (header.toList.take 76).length = 76 := by simp
  rw [leLongAt, leLongAt, packBytes_high]
  apply packBytes_congr
  intro i inside
  rw [withNonce]
  split
  next low =>
    have whole := List.getD_append (header.toList.take 76) (header.toList.drop 76) 0 (72 + i) (by omega)
    rw [List.take_append_drop] at whole
    rw [List.getD_append _ _ _ _ (by omega), whole]
  next high =>
    rw [List.getD_append_right _ _ _ _ (by omega), front]
    have nonceByte : 72 + i - 76 = i - 4 := by omega
    have four : i - 4 = 0 ∨ i - 4 = 1 ∨ i - 4 = 2 ∨ i - 4 = 3 := by omega
    rw [nonceByte]
    rcases four with same | same | same | same <;> rw [same] <;> rfl

theorem get_firstState (hdr10 : Vector UInt64 10) (nonce : UInt32) (k : Fin 25) :
    (firstState hdr10 nonce).get k = if k = 16 then kRateEndBit else firstLane hdr10 nonce k := by
  have behind : (ofFn (firstLane hdr10 nonce))[16] = 0 := getElem_ofFn (by decide)
  rw [firstState, behind, UInt64.zero_or]
  exact (get_set _ 16 k _).trans (by rw [CycleWalk.get_ofFn])

theorem firstState_eq :
    firstState (ofFn fun i => leLongAt header.toList (8 * i.val)) nonce =
      block 136 (pad 136 (withNonce header nonce)) 0 := by
  apply ext_get
  intro k
  rw [get_block_pad (show 10 < 16 by decide) (length_withNonce header nonce), get_firstState, firstLane]
  by_cases last : k = 16
  · subst last
    rfl
  · have high : k.val ≠ 16 := fun same => last (Fin.ext same)
    rw [if_neg last, if_neg high]
    split
    next before => rw [if_pos (by omega), getElem_ofFn, leLongAt_withNonce header nonce before]
    next after =>
      split
      next nonceLane =>
        rw [if_pos (by omega), getElem_ofFn, nonceLane]
        exact (leLongAt_withNonce_last header nonce).symm
      next => rw [if_neg (show ¬k.val < 10 by omega)]

theorem digest_firstState :
    digest (keccakf (firstState (ofFn fun i => leLongAt header.toList (8 * i.val)) nonce)) =
      sha3 4 (withNonce header nonce) := by
  rw [keccakf_eq, sha3_block (show 10 < 16 by decide) (length_withNonce header nonce), firstState_eq]

theorem headerLanes_eq (header : Vector UInt8 80) :
    headerLanes header.toList = .ok (ofFn fun i => leLongAt header.toList (8 * i.val)) := by
  have length : header.toList.length = 80 := length_toList
  have read : ∀ i ∈ List.range 10, (spanSlice header.toList (8 * i) 8 >>= readUInt64LittleEndian) =
      .ok (leLongAt header.toList (8 * i)) := by
    intro i member
    have inside : 8 * i + 8 ≤ header.toList.length := by
      have := List.mem_range.mp member
      omega
    rw [spanSlice_of_le inside, ok_bind, readUInt64LittleEndian, if_pos (by simp; omega), ← leLongAt_take]
    simp only [leLongAt, Nat.zero_add]
  rw [headerLanes, if_neg (by simp), mapM_eq_ok read, ok_bind]
  refine congrArg Except.ok (ext_get fun i => ?_)
  rw [CycleWalk.get_ofFn, CycleWalk.get_ofFn, List.getD_eq_getElem _ _ (by simp), List.getElem_map, List.getElem_range]

/-- The kernel hashes the header three times, with the nonce in its last four bytes. -/
theorem sha3tHash_headerLanes (header : Vector UInt8 80) (nonce : UInt32) :
    (headerLanes header.toList).map (fun lanes => (sha3tHash lanes nonce).bytes) =
      .ok (sha3 4 (sha3 4 (sha3 4 (withNonce header nonce)))) := by
  have bytes (lanes : Vector UInt64 10) : (sha3tHash lanes nonce).bytes =
      digest (keccakf (nextState (keccakf (nextState (keccakf (firstState lanes nonce)))))) := by
    rw [digest, take_toList]
    rfl
  rw [headerLanes_eq, Except.map, bytes, digest_nextState, digest_nextState, digest_firstState]

end ArcMiner.Sha3t
