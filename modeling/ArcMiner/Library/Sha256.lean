import ArcMiner.Library.LittleEndian

/-! SHA-256 as in FIPS 180-4, over messages of whole bytes. -/

namespace ArcMiner.Library

def beWordAt (bytes : List UInt8) (p : Nat) : UInt32 :=
  leWord (bytes.getD (p + 3) 0) (bytes.getD (p + 2) 0) (bytes.getD (p + 1) 0) (bytes.getD p 0)

def beWordBytes (w : UInt32) : List UInt8 := [wordByte w 3, wordByte w 2, wordByte w 1, wordByte w 0]

theorem leWordAt_reverse {bytes : List UInt8} {p : Nat} (inside : p + 4 ≤ bytes.length) :
    leWordAt bytes.reverse p = beWordAt bytes (bytes.length - 4 - p) := by
  unfold leWordAt beWordAt
  rw [List.getD_reverse _ (by omega), List.getD_reverse _ (by omega), List.getD_reverse _ (by omega),
    List.getD_reverse _ (by omega)]
  congr 2 <;> omega

theorem beWordAt_append_left {bytes : List UInt8} (rest : List UInt8) {p : Nat} (inside : p + 4 ≤ bytes.length) :
    beWordAt (bytes ++ rest) p = beWordAt bytes p := by
  unfold beWordAt
  rw [List.getD_append _ _ _ _ (by omega), List.getD_append _ _ _ _ (by omega), List.getD_append _ _ _ _ (by omega),
    List.getD_append _ _ _ _ (by omega)]

theorem beWordAt_append_right (bytes rest : List UInt8) (p : Nat) :
    beWordAt (bytes ++ rest) (bytes.length + p) = beWordAt rest p := by
  have read (k : Nat) : (bytes ++ rest).getD (bytes.length + k) 0 = rest.getD k 0 := by
    rw [List.getD_append_right _ _ _ _ (Nat.le_add_right ..), Nat.add_sub_cancel_left]
  unfold beWordAt
  rw [Nat.add_assoc, Nat.add_assoc, Nat.add_assoc, read, read, read, read]

theorem beWordAt_beWordBytes (w : UInt32) (rest : List UInt8) : beWordAt (beWordBytes w ++ rest) 0 = w :=
  leWord_wordByte w

theorem beWordAt_flatMap (words : List UInt32) (rest : List UInt8) {t : Nat} (inside : t < words.length) :
    beWordAt (words.flatMap beWordBytes ++ rest) (4 * t) = words.getD t 0 := by
  induction words generalizing t with
  | nil => cases inside
  | cons word words ih =>
    rw [List.flatMap_cons, List.append_assoc]
    cases t with
    | zero => exact beWordAt_beWordBytes word _
    | succ t =>
      have moved := beWordAt_append_right (beWordBytes word) (words.flatMap beWordBytes ++ rest) (4 * t)
      have place : (beWordBytes word).length + 4 * t = 4 * (t + 1) := by
        rw [Nat.mul_succ, Nat.add_comm]
        rfl
      rw [place] at moved
      rw [moved, ih (Nat.lt_of_succ_lt_succ inside)]
      rfl

namespace Sha256

def rotr (n x : UInt32) : UInt32 := (x >>> n) ||| (x <<< (32 - n))

def ch (x y z : UInt32) : UInt32 := (x &&& y) ^^^ (~~~x &&& z)

def maj (x y z : UInt32) : UInt32 := (x &&& y) ^^^ (x &&& z) ^^^ (y &&& z)

def bigSigma0 (x : UInt32) : UInt32 := rotr 2 x ^^^ rotr 13 x ^^^ rotr 22 x

def bigSigma1 (x : UInt32) : UInt32 := rotr 6 x ^^^ rotr 11 x ^^^ rotr 25 x

def smallSigma0 (x : UInt32) : UInt32 := rotr 7 x ^^^ rotr 18 x ^^^ x >>> 3

def smallSigma1 (x : UInt32) : UInt32 := rotr 17 x ^^^ rotr 19 x ^^^ x >>> 10

def constants : List UInt32 :=
  [0x428a2f98, 0x71374491, 0xb5c0fbcf, 0xe9b5dba5, 0x3956c25b, 0x59f111f1, 0x923f82a4, 0xab1c5ed5,
    0xd807aa98, 0x12835b01, 0x243185be, 0x550c7dc3, 0x72be5d74, 0x80deb1fe, 0x9bdc06a7, 0xc19bf174,
    0xe49b69c1, 0xefbe4786, 0x0fc19dc6, 0x240ca1cc, 0x2de92c6f, 0x4a7484aa, 0x5cb0a9dc, 0x76f988da,
    0x983e5152, 0xa831c66d, 0xb00327c8, 0xbf597fc7, 0xc6e00bf3, 0xd5a79147, 0x06ca6351, 0x14292967,
    0x27b70a85, 0x2e1b2138, 0x4d2c6dfc, 0x53380d13, 0x650a7354, 0x766a0abb, 0x81c2c92e, 0x92722c85,
    0xa2bfe8a1, 0xa81a664b, 0xc24b8b70, 0xc76c51a3, 0xd192e819, 0xd6990624, 0xf40e3585, 0x106aa070,
    0x19a4c116, 0x1e376c08, 0x2748774c, 0x34b0bcb5, 0x391c0cb3, 0x4ed8aa4a, 0x5b9cca4f, 0x682e6ff3,
    0x748f82ee, 0x78a5636f, 0x84c87814, 0x8cc70208, 0x90befffa, 0xa4506ceb, 0xbef9a3f7, 0xc67178f2]

def constant (t : Nat) : UInt32 := constants.getD t 0

abbrev Value := Vector UInt32 8

def initial : Value :=
  #v[0x6a09e667, 0xbb67ae85, 0x3c6ef372, 0xa54ff53a, 0x510e527f, 0x9b05688c, 0x1f83d9ab, 0x5be0cd19]

structure Working where
  a : UInt32
  b : UInt32
  c : UInt32
  d : UInt32
  e : UInt32
  f : UInt32
  g : UInt32
  h : UInt32

def Working.ofValue (value : Value) : Working :=
  ⟨value[0], value[1], value[2], value[3], value[4], value[5], value[6], value[7]⟩

def Working.addTo (v : Working) (value : Value) : Value :=
  #v[v.a + value[0], v.b + value[1], v.c + value[2], v.d + value[3], v.e + value[4], v.f + value[5], v.g + value[6],
    v.h + value[7]]

def schedule (block : Nat → UInt32) (t : Nat) : UInt32 :=
  if t < 16 then block t
  else smallSigma1 (schedule block (t - 2)) + schedule block (t - 7) + smallSigma0 (schedule block (t - 15)) +
    schedule block (t - 16)

def round (k w : UInt32) (v : Working) : Working :=
  let t1 := v.h + bigSigma1 v.e + ch v.e v.f v.g + k + w
  let t2 := bigSigma0 v.a + maj v.a v.b v.c
  ⟨t1 + t2, v.a, v.b, v.c, v.d + t1, v.e, v.f, v.g⟩

def rounds (block : Nat → UInt32) (v : Working) : Nat → Working
  | 0 => v
  | t + 1 => round (constant t) (schedule block t) (rounds block v t)

def compress (value : Value) (block : Nat → UInt32) : Value := (rounds block (.ofValue value) 64).addTo value

def lengthBytes (length : Nat) : List UInt8 := (List.range 8).map fun i => UInt8.ofNat (8 * length / 256 ^ (7 - i))

/-- A one bit, the zeros that fill a block up to its last eight bytes, and the length. -/
def padding (length : Nat) : List UInt8 := 0x80 :: List.replicate ((119 - length % 64) % 64) 0 ++ lengthBytes length

def pad (message : List UInt8) : List UInt8 := message ++ padding message.length

def blockWord (padded : List UInt8) (i t : Nat) : UInt32 := beWordAt padded (64 * i + 4 * t)

def hashValue (message : List UInt8) : Value :=
  let padded := pad message
  (List.range (padded.length / 64)).foldl (fun value i => compress value (blockWord padded i)) initial

def digest (value : Value) : List UInt8 := value.toList.flatMap beWordBytes

/-- SHA-256 of a message of less than `2 ^ 61` bytes. -/
def hash (message : List UInt8) : List UInt8 := digest (hashValue message)

theorem schedule_input (block : Nat → UInt32) {t : Nat} (early : t < 16) : schedule block t = block t := by
  rw [schedule, if_pos early]

theorem schedule_recurrence (block : Nat → UInt32) (t : Nat) :
    schedule block (t + 16) = smallSigma1 (schedule block (t + 14)) + schedule block (t + 9) +
      smallSigma0 (schedule block (t + 1)) + schedule block t := by
  rw [schedule, if_neg (by omega)]
  rfl

theorem schedule_congr {first second : Nat → UInt32} (same : ∀ t < 16, first t = second t) (t : Nat) :
    schedule first t = schedule second t := by
  induction t using Nat.strongRecOn with
  | ind t ih =>
    by_cases early : t < 16
    · rw [schedule_input first early, schedule_input second early, same t early]
    · rw [schedule, schedule.eq_1 second, if_neg early, if_neg early, ih (t - 2) (by omega), ih (t - 7) (by omega),
        ih (t - 15) (by omega), ih (t - 16) (by omega)]

theorem compress_congr (value : Value) {first second : Nat → UInt32} (same : ∀ t < 16, first t = second t) :
    compress value first = compress value second := by
  have rounds_eq (n : Nat) : rounds first (.ofValue value) n = rounds second (.ofValue value) n := by
    induction n with
    | zero => rfl
    | succ n ih => rw [rounds, rounds, ih, schedule_congr same]
  rw [compress, compress, rounds_eq]

theorem hashValue_one {message : List UInt8} (short : (pad message).length = 64) :
    hashValue message = compress initial (blockWord (pad message) 0) := by
  rw [hashValue, short]
  rfl

theorem hashValue_two {message : List UInt8} (short : (pad message).length = 128) :
    hashValue message = compress (compress initial (blockWord (pad message) 0)) (blockWord (pad message) 1) := by
  rw [hashValue, short]
  rfl

theorem length_digest (value : Value) : (digest value).length = 32 := by
  simp [digest, beWordBytes, List.length_flatMap, List.map_const']

end Sha256

def sha256d (data : List UInt8) : List UInt8 := Sha256.hash (Sha256.hash data)

theorem length_sha256d (data : List UInt8) : (sha256d data).length = 32 := Sha256.length_digest _

end ArcMiner.Library
