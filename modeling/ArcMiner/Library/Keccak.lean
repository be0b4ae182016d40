import ArcMiner.Library.LittleEndian

/-! SHA-3 as in FIPS 202, over messages of whole bytes.

A state is kept as its twenty-five lanes: bit `z` of the lane at `x + 5 y` is the bit `A[x, y, z]`. The
step mappings are the algorithms 1 to 6, the sponge is algorithm 8. -/

namespace ArcMiner.Library.Keccak

abbrev State := Vector UInt64 25

def position (x y : Nat) : Fin 25 := ⟨x % 5 + 5 * (y % 5), by omega⟩

def lane (a : State) (x y : Nat) : UInt64 := a.get (position x y)

def ofLanes (f : Nat → Nat → UInt64) : State := Vector.ofFn fun i => f (i.val % 5) (i.val / 5)

theorem get_ofLanes (f : Nat → Nat → UInt64) (i : Fin 25) : (ofLanes f).get i = f (i.val % 5) (i.val / 5) :=
  Vector.getElem_ofFn i.isLt

theorem lane_ofLanes (f : Nat → Nat → UInt64) (x y : Nat) : lane (ofLanes f) x y = f (x % 5) (y % 5) := by
  have column : (x % 5 + 5 * (y % 5)) % 5 = x % 5 := by omega
  have row : (x % 5 + 5 * (y % 5)) / 5 = y % 5 := by omega
  rw [lane, get_ofLanes, position, column, row]

theorem position_mod (x y : Nat) : position (x % 5) (y % 5) = position x y := by
  rw [position, position]
  simp only [Nat.mod_mod]

def rotateLeft (z : UInt64) (n : Nat) : UInt64 := ⟨z.toBitVec.rotateLeft n⟩

theorem rotateLeft_mod (z : UInt64) (n : Nat) : rotateLeft z (n % 64) = rotateLeft z n :=
  congrArg UInt64.ofBitVec BitVec.rotateLeft_mod_eq_rotateLeft

theorem rotateLeft_zero (z : UInt64) : rotateLeft z 0 = z := by
  apply UInt64.toBitVec_inj.mp
  rw [rotateLeft, BitVec.rotateLeft_def, Nat.zero_mod, BitVec.shiftLeft_zero, BitVec.ushiftRight_eq_zero (Nat.le_refl 64),
    BitVec.or_zero]

def parity (a : State) (x : Nat) : UInt64 := lane a x 0 ^^^ lane a x 1 ^^^ lane a x 2 ^^^ lane a x 3 ^^^ lane a x 4

def theta (a : State) : State :=
  ofLanes fun x y => lane a x y ^^^ (parity a (x + 4) ^^^ rotateLeft (parity a (x + 1)) 1)

/-- The coordinates that `rho` runs through. -/
def walk : Nat → Nat × Nat
  | 0 => (1, 0)
  | t + 1 => ((walk t).2, (2 * (walk t).1 + 3 * (walk t).2) % 5)

/-- The lane visited at time `t` is turned by a triangular number. -/
def offset (x y : Nat) : Nat :=
  match (List.range 24).find? fun t => walk t = (x, y) with
  | some t => (t + 1) * (t + 2) / 2
  | none => 0

def rho (a : State) : State := ofLanes fun x y => rotateLeft (lane a x y) (offset x y)

def pi (a : State) : State := ofLanes fun x y => lane a (x + 3 * y) x

def chi (a : State) : State := ofLanes fun x y => lane a x y ^^^ (~~~lane a (x + 1) y &&& lane a (x + 2) y)

abbrev registerBits : Nat := 8

/-- One turn of the shift register that makes the round constants. -/
def shift (r : Vector Bool registerBits) : Vector Bool registerBits :=
  #v[r[7], r[0], r[1], r[2], r[3] ^^ r[7], r[4] ^^ r[7], r[5] ^^ r[7], r[6]]

def rc (t : Nat) : Bool := (Nat.repeat shift (t % 255) #v[true, false, false, false, false, false, false, false]).get 0

def roundConstant (ir : Nat) : UInt64 :=
  (List.range 7).foldl (fun constant j => if rc (j + 7 * ir) then constant ||| (1 : UInt64) <<< (2 ^ j - 1).toUInt64 else constant)
    0

abbrev laneCount : Nat := 25

def iota (ir : Nat) (a : Vector UInt64 laneCount) : State := a.set 0 (a[0] ^^^ roundConstant ir)

def round (a : State) (ir : Nat) : State := iota ir (chi (pi (rho (theta a))))

def permute (a : State) : State := (List.range 24).foldl round a

/-- The suffix `01` and `pad10*1` after `length` bytes, for a rate of `rate` bytes. -/
def padding (rate length : Nat) : List UInt8 :=
  if length % rate + 1 = rate then [0x86] else 0x06 :: List.replicate (rate - length % rate - 2) 0 ++ [0x80]

def pad (rate : Nat) (message : List UInt8) : List UInt8 := message ++ padding rate message.length

def block (rate : Nat) (padded : List UInt8) (i : Nat) : State :=
  Vector.ofFn fun k => if 8 * k.val < rate then leLongAt padded (rate * i + 8 * k.val) else 0

def absorb (rate : Nat) (padded : List UInt8) (a : State) (i : Nat) : State :=
  permute (Vector.zipWith (· ^^^ ·) a (block rate padded i))

/-- SHA-3 with a digest of `lanes` lanes: SHA3-256 has four, SHA3-512 has eight. -/
def sha3 (lanes : Nat) (message : List UInt8) : List UInt8 :=
  let rate := 200 - 16 * lanes
  let padded := pad rate message
  let final := (List.range (padded.length / rate)).foldl (absorb rate padded) (Vector.replicate 25 0)
  (final.toList.take lanes).flatMap longBytes

theorem sha3_one {lanes : Nat} {message : List UInt8} (positive : 0 < 200 - 16 * lanes)
    (short : (pad (200 - 16 * lanes) message).length = 200 - 16 * lanes) : sha3 lanes message =
      ((permute (block (200 - 16 * lanes) (pad (200 - 16 * lanes) message) 0)).toList.take lanes).flatMap longBytes := by
  have empty (a : State) : Vector.zipWith (· ^^^ ·) (Vector.replicate 25 0) a = a := by
    apply Vector.ext
    intro i inside
    rw [Vector.getElem_zipWith, Vector.getElem_replicate, UInt64.zero_xor]
  rw [sha3, short, Nat.div_self positive, List.range_one, List.foldl_cons, List.foldl_nil, absorb, empty]

theorem get_block (rate : Nat) (padded : List UInt8) (i : Nat) (k : Fin 25) :
    (block rate padded i).get k = if 8 * k.val < rate then leLongAt padded (rate * i + 8 * k.val) else 0 :=
  Vector.getElem_ofFn k.isLt

theorem leLongAt_padding : ∀ m : Fin 16, ∀ j : Fin 17, leLongAt (padding 136 (8 * m.val)) (8 * j.val) =
    if j.val = 0 then 0x06 else if m.val + j.val = 16 then 0x8000000000000000 else 0 := by
  decide +kernel

theorem get_block_pad {m : Nat} (short : m < 16) {message : List UInt8} (whole : message.length = 8 * m) (k : Fin 25) :
    (block 136 (pad 136 message) 0).get k =
      if k.val < m then leLongAt message (8 * k.val)
      else if k.val = m then 0x06 else if k.val = 16 then 0x8000000000000000 else 0 := by
  rw [get_block, pad, Nat.mul_zero, Nat.zero_add]
  by_cases before : k.val < m
  · rw [if_pos before, if_pos (by omega), leLongAt_append_left _ (by omega)]
  · rw [if_neg before]
    by_cases inside : k.val < 17
    · have behind := leLongAt_append_right message (padding 136 (8 * m)) (8 * (k.val - m))
      rw [whole, ← Nat.mul_add, Nat.add_sub_cancel' (Nat.le_of_not_lt before)] at behind
      have lane := leLongAt_padding ⟨m, short⟩ ⟨k.val - m, by omega⟩
      rw [if_pos (by omega), whole, behind, lane]
      simp only [Nat.sub_eq_zero_iff_le, Nat.add_sub_cancel' (Nat.le_of_not_lt before)]
      by_cases first : k.val = m
      · rw [if_pos first, if_pos (Nat.le_of_eq first)]
      · rw [if_neg first, if_neg (by omega)]
    · rw [if_neg (by omega), if_neg (by omega), if_neg (by omega)]

end ArcMiner.Library.Keccak
