import ArcMiner.Library.Sha256
import ArcMiner.Stratum.ShareTargets

/-! The double SHA-256 of the csd kernel, from the midstate and the tail that the host prepares.

The kernel keeps sixteen words of the message schedule and replaces one in each round; the host writes out
all sixty-four. The body of the round and the constants are the same text in both.
-/

namespace ArcMiner.Csd

open Library Stratum Nat
open Sha256 (compress initial length_digest pad)
open Sha256 (blockWord digest hashValue padding schedule)
open Library.Sha256 (Working)

def kK : List UInt32 :=
  [0x428a2f98, 0x71374491, 0xb5c0fbcf, 0xe9b5dba5, 0x3956c25b, 0x59f111f1, 0x923f82a4, 0xab1c5ed5,
    0xd807aa98, 0x12835b01, 0x243185be, 0x550c7dc3, 0x72be5d74, 0x80deb1fe, 0x9bdc06a7, 0xc19bf174,
    0xe49b69c1, 0xefbe4786, 0x0fc19dc6, 0x240ca1cc, 0x2de92c6f, 0x4a7484aa, 0x5cb0a9dc, 0x76f988da,
    0x983e5152, 0xa831c66d, 0xb00327c8, 0xbf597fc7, 0xc6e00bf3, 0xd5a79147, 0x06ca6351, 0x14292967,
    0x27b70a85, 0x2e1b2138, 0x4d2c6dfc, 0x53380d13, 0x650a7354, 0x766a0abb, 0x81c2c92e, 0x92722c85,
    0xa2bfe8a1, 0xa81a664b, 0xc24b8b70, 0xc76c51a3, 0xd192e819, 0xd6990624, 0xf40e3585, 0x106aa070,
    0x19a4c116, 0x1e376c08, 0x2748774c, 0x34b0bcb5, 0x391c0cb3, 0x4ed8aa4a, 0x5b9cca4f, 0x682e6ff3,
    0x748f82ee, 0x78a5636f, 0x84c87814, 0x8cc70208, 0x90befffa, 0xa4506ceb, 0xbef9a3f7, 0xc67178f2]

def rotr (x n : UInt32) : UInt32 := (x >>> n) ||| (x <<< (32 - n))

abbrev stateWords : Nat := 8

def iv : Vector UInt32 stateWords :=
  ⟨#[0x6a09e667, 0xbb67ae85, 0x3c6ef372, 0xa54ff53a, 0x510e527f, 0x9b05688c, 0x1f83d9ab, 0x5be0cd19], by decide⟩

def roundBody (k w : UInt32) (v : Working) : Working :=
  let bigS1 := rotr v.e 6 ^^^ rotr v.e 11 ^^^ rotr v.e 25
  let ch := (v.e &&& v.f) ^^^ (~~~v.e &&& v.g)
  let t1 := v.h + bigS1 + ch + k + w
  let bigS0 := rotr v.a 2 ^^^ rotr v.a 13 ^^^ rotr v.a 22
  let maj := (v.a &&& v.b) ^^^ (v.a &&& v.c) ^^^ (v.b &&& v.c)
  let t2 := bigS0 + maj
  ⟨t1 + t2, v.a, v.b, v.c, v.d + t1, v.e, v.f, v.g⟩

def s0 (w15 : UInt32) : UInt32 := rotr w15 7 ^^^ rotr w15 18 ^^^ (w15 >>> 3)

def s1 (w2 : UInt32) : UInt32 := rotr w2 17 ^^^ rotr w2 19 ^^^ (w2 >>> 10)

def finish (st : Vector UInt32 stateWords) (v : Working) : Words :=
  #v[st[0] + v.a, st[1] + v.b, st[2] + v.c, st[3] + v.d, st[4] + v.e, st[5] + v.f, st[6] + v.g, st[7] + v.h]

namespace CsdSha256d

def slot (i : Nat) : Fin 16 := ⟨i &&& 15, lt_succ_of_le and_le_right⟩

def roll (i : Nat) (w : Vector UInt32 16) : Vector UInt32 16 :=
  if i ≥ 16 then
    let w15 := w.get (slot (i + 1))
    let w2 := w.get (slot (i + 14))
    w.set (slot i) (w.get (slot i) + (s0 w15 + w.get (slot (i + 9)) + s1 w2))
  else w

/-- One turn of the loop: a new word, from the second block of sixteen on, and a round with it. -/
def turn (state : Working × Vector UInt32 16) (i : Nat) : Working × Vector UInt32 16 :=
  let w := roll i state.2
  (roundBody (kK.getD i 0) (w.get (slot i)) state.1, w)

def rounds (st : Words) (w : Vector UInt32 16) : Words := finish st ((List.range 64).foldl turn (.ofValue st, w)).1

abbrev tailWords : Nat := 5

/-- The last words of the first message are the nonce and the padding of 84 bytes; the second message is the
first digest. -/
def sha256dTail (mid : Words) (tail5 : Vector UInt32 tailWords) (nonce : UInt32) : Words :=
  let st : Vector UInt32 stateWords := rounds mid
    #v[tail5[0], tail5[1], tail5[2], tail5[3], nonce, 0x80000000, 0, 0, 0, 0, 0, 0, 0, 0, 0, 672]
  rounds iv #v[st[0], st[1], st[2], st[3], st[4], st[5], st[6], st[7], 0x80000000, 0, 0, 0, 0, 0, 0, 256]

end CsdSha256d

namespace CsdHash

def be32 (p0 p1 p2 p3 : UInt8) : UInt32 :=
  (p0.toUInt32 <<< 24) ||| (p1.toUInt32 <<< 16) ||| (p2.toUInt32 <<< 8) ||| p3.toUInt32

def extend (w : List UInt32) (i : Nat) : List UInt32 :=
  w ++ [w.getD (i - 16) 0 + s0 (w.getD (i - 15) 0) + w.getD (i - 7) 0 + s1 (w.getD (i - 2) 0)]

def midstate (block64 : Vector UInt8 64) : Words :=
  let w := List.ofFn fun i : Fin 16 =>
    be32 block64[4 * i.val] block64[4 * i.val + 1] block64[4 * i.val + 2] block64[4 * i.val + 3]
  let w := (List.range' 16 48).foldl extend w
  finish iv ((List.range 64).foldl (fun v i => roundBody (kK.getD i 0) (w.getD i 0) v) (.ofValue iv))

end CsdHash

/-- The midstate and the tail words of a header, as `Rebuild` returns them. The slot of the nonce is not looked at. -/
def prepare (hdr : Vector UInt8 84) : Words × Vector UInt32 5 :=
  (CsdHash.midstate (Vector.ofFn fun i => hdr[i.val]),
    #v[CsdHash.be32 hdr[64] hdr[65] hdr[66] hdr[67], CsdHash.be32 hdr[68] hdr[69] hdr[70] hdr[71],
      CsdHash.be32 hdr[72] hdr[73] hdr[74] hdr[75], CsdHash.be32 hdr[76] hdr[77] hdr[78] hdr[79], 0])

theorem finish_eq (st : Words) (v : Working) : finish st v = v.addTo st := by
  rw [finish, Working.addTo, UInt32.add_comm v.a, UInt32.add_comm v.b, UInt32.add_comm v.c, UInt32.add_comm v.d,
    UInt32.add_comm v.e, UInt32.add_comm v.f, UInt32.add_comm v.g, UInt32.add_comm v.h]

theorem be32_eq (p0 p1 p2 p3 : UInt8) : CsdHash.be32 p0 p1 p2 p3 = leWord p3 p2 p1 p0 := by
  have reversed (w3 w2 w1 w0 : UInt32) : w3 ||| w2 ||| w1 ||| w0 = w0 ||| w1 ||| w2 ||| w3 := by ac_rfl
  exact reversed _ _ _ _

section kernel
open CsdSha256d
variable {block : Nat → UInt32}

theorem slot_val (i : Nat) : (slot i).val = i % 16 := and_two_pow_sub_one_eq_mod i 4

theorem slot_add (i : Nat) : slot (i + 16) = slot i := by
  apply Fin.ext
  rw [slot_val, slot_val, add_mod_right]

def Holds (block : Nat → UInt32) (n : Nat) (w : Vector UInt32 16) : Prop :=
  ∀ j, n ≤ j + 16 → j < max n 16 → w.get (slot j) = schedule block j

theorem get_set_slot (w : Vector UInt32 16) (i j : Nat) (word : UInt32) :
    (w.set (slot i) word).get (slot j) = if i % 16 = j % 16 then word else w.get (slot j) := by
  rw [← slot_val, ← slot_val]
  exact Vector.getElem_set _ _

theorem new_word {m : Nat} {w : Vector UInt32 16} (holds : Holds block (m + 16) w) :
    w.get (slot (m + 16)) + (s0 (w.get (slot (m + 16 + 1))) + w.get (slot (m + 16 + 9)) + s1 (w.get (slot (m + 16 + 14)))) =
      schedule block (m + 16) := by
  have word (k : Nat) (inside : k < 16) : w.get (slot (m + 16 + k)) = schedule block (m + k) := by
    rw [Nat.add_right_comm, slot_add]
    exact holds (m + k) (by omega) (by omega)
  have first := word 0 (by decide)
  rw [first, word 1 (by decide), word 9 (by decide), word 14 (by decide), Sha256.schedule_recurrence]
  change _ + (Sha256.smallSigma0 _ + _ + Sha256.smallSigma1 _) = _
  ac_rfl

theorem roll_holds {n : Nat} {w : Vector UInt32 16} (holds : Holds block n w) :
    Holds block (n + 1) (roll n w) ∧ (roll n w).get (slot n) = schedule block n := by
  unfold roll
  split
  next late =>
    obtain ⟨m, rfl⟩ : ∃ m, n = m + 16 := ⟨n - 16, by omega⟩
    dsimp only
    rw [new_word holds]
    refine ⟨fun j low high => ?_, by rw [get_set_slot, if_pos rfl]⟩
    rw [get_set_slot]
    split
    next same =>
      obtain rfl : j = m + 16 := by omega
      rfl
    next => exact holds j (by omega) (by omega)
  next early => exact ⟨fun j low high => holds j (by omega) (by omega), holds n (by omega) (by omega)⟩

theorem turns_eq {w : Vector UInt32 16} (holds : Holds block 0 w) (v : Working) (n : Nat) :
    ((List.range n).foldl turn (v, w)).1 = Sha256.rounds block v n ∧
      Holds block n ((List.range n).foldl turn (v, w)).2 := by
  induction n with
  | zero => exact ⟨rfl, holds⟩
  | succ n ih =>
    obtain ⟨regs, window⟩ := ih
    obtain ⟨next, word⟩ := roll_holds window
    rw [List.range_succ, List.foldl_append]
    refine ⟨?_, next⟩
    rw [Sha256.rounds, ← regs, ← word]
    rfl

theorem rounds_eq (st : Words) {w : Vector UInt32 16} (given : ∀ t < 16, w.toList.getD t 0 = block t) :
    rounds st w = compress st block := by
  have holds : Holds block 0 w := by
    intro j _ early
    have same : slot j = ⟨j, by omega⟩ := by
      apply Fin.ext
      rw [slot_val]
      exact mod_eq_of_lt (by omega)
    rw [same, Sha256.schedule_input block (by omega), ← given j (by omega), List.getD_eq_getElem _ _ (by simpa using early)]
    exact (Vector.getElem_toList ..).symm
  rw [rounds, finish_eq, (turns_eq holds _ 64).1]
  rfl

end kernel

section host
open CsdHash
variable {block : Nat → UInt32}

theorem extend_schedule {w : List UInt32} {n : Nat} (length : w.length = n + 16)
    (holds : ∀ t < n + 16, w.getD t 0 = schedule block t) :
    (extend w (n + 16)).length = n + 17 ∧ ∀ t < n + 17, (extend w (n + 16)).getD t 0 = schedule block t := by
  refine ⟨by simp [extend, length], fun t inside => ?_⟩
  unfold extend
  by_cases last : t = n + 16
  · subst last
    have new : w.getD n 0 + s0 (w.getD (n + 1) 0) + w.getD (n + 9) 0 + s1 (w.getD (n + 14) 0) =
        schedule block (n + 16) := by
      rw [holds n (by omega), holds (n + 1) (by omega), holds (n + 9) (by omega), holds (n + 14) (by omega),
        Sha256.schedule_recurrence]
      change _ + Sha256.smallSigma0 _ + _ + Sha256.smallSigma1 _ = _
      ac_rfl
    rw [List.getD_append_right _ _ _ _ (by omega), length, Nat.sub_self]
    exact new
  · rw [List.getD_append _ _ _ _ (by omega)]
    exact holds t (by omega)

theorem extend_all {w : List UInt32} (length : w.length = 16) (given : ∀ t < 16, w.getD t 0 = block t) (n : Nat) :
    ((List.range' 16 n).foldl extend w).length = n + 16 ∧
      ∀ t < n + 16, ((List.range' 16 n).foldl extend w).getD t 0 = schedule block t := by
  induction n with
  | zero =>
    refine ⟨by simpa using length, fun t inside => ?_⟩
    rw [Sha256.schedule_input block (by omega)]
    exact given t (by omega)
  | succ n ih =>
    obtain ⟨long, holds⟩ := ih
    rw [List.range'_concat, List.foldl_append, Nat.one_mul, Nat.add_comm 16 n]
    exact extend_schedule long holds

theorem foldl_roundBody {w : List UInt32} {n : Nat} (holds : ∀ t < n, w.getD t 0 = schedule block t) (v : Working) :
    (List.range n).foldl (fun v i => roundBody (kK.getD i 0) (w.getD i 0) v) v = Sha256.rounds block v n := by
  induction n with
  | zero => rfl
  | succ n ih =>
    rw [List.range_succ, List.foldl_append, ih fun t inside => holds t (by omega), Sha256.rounds, ← holds n (by omega)]
    rfl

theorem toList_getD {n : Nat} (bytes : Vector UInt8 n) {i : Nat} (inside : i < n) : bytes.toList.getD i 0 = bytes[i] := by
  rw [List.getD_eq_getElem _ _ (by simpa using inside), Vector.getElem_toList]

theorem be32_beWordAt {n : Nat} (bytes : Vector UInt8 n) {p : Nat} (inside : p + 3 < n) :
    be32 bytes[p] bytes[p + 1] bytes[p + 2] bytes[p + 3] = beWordAt bytes.toList p := by
  rw [be32_eq, beWordAt, toList_getD bytes inside, toList_getD bytes (show p + 2 < n by omega),
    toList_getD bytes (show p + 1 < n by omega), toList_getD bytes (show p < n by omega)]

theorem midstate_eq (block64 : Vector UInt8 64) :
    midstate block64 = compress initial fun t => beWordAt block64.toList (4 * t) := by
  have given : ∀ t < 16, (List.ofFn fun i : Fin 16 =>
      be32 block64[4 * i.val] block64[4 * i.val + 1] block64[4 * i.val + 2] block64[4 * i.val + 3]).getD t 0 =
        beWordAt block64.toList (4 * t) := by
    intro t inside
    rw [List.getD_eq_getElem _ _ (by simpa using inside), List.getElem_ofFn]
    exact be32_beWordAt block64 (by omega)
  obtain ⟨-, holds⟩ := extend_all (by simp) given 48
  unfold midstate
  rw [finish_eq, foldl_roundBody holds]
  rfl

end host

def withNonce (hdr : Vector UInt8 84) (nonce : UInt32) : List UInt8 := hdr.toList.take 80 ++ beWordBytes nonce

section message
open CsdSha256d
variable (hdr : Vector UInt8 84) (nonce : UInt32)

theorem length_withNonce : (withNonce hdr nonce).length = 84 := by
  simp [withNonce, beWordBytes]

theorem pad_withNonce :
    pad (withNonce hdr nonce) = hdr.toList.take 80 ++ (beWordBytes nonce ++ padding 84) := by
  rw [pad, length_withNonce, withNonce, List.append_assoc]

theorem beWordAt_template {p : Nat} (inside : p + 4 ≤ 80) (rest : List UInt8) :
    beWordAt (hdr.toList.take 80 ++ rest) p = beWordAt hdr.toList p := by
  have whole : (hdr.toList.take 80).length = 80 := by simp
  have split := beWordAt_append_left (hdr.toList.drop 80) (inside.trans whole.ge)
  rw [List.take_append_drop] at split
  rw [beWordAt_append_left _ (inside.trans whole.ge), split]

theorem midstate_prepare :
    (prepare hdr).1 = compress initial (blockWord (pad (withNonce hdr nonce)) 0) := by
  rw [prepare, midstate_eq]
  apply Sha256.compress_congr
  intro t inside
  have front : beWordAt hdr.toList (4 * t) = beWordAt (hdr.toList.take 64) (4 * t) := by
    have whole : (hdr.toList.take 64).length = 64 := by simp
    have split := beWordAt_append_left (hdr.toList.drop 64) (show 4 * t + 4 ≤ (hdr.toList.take 64).length by omega)
    rwa [List.take_append_drop] at split
  have first : (Vector.ofFn fun i : Fin 64 => hdr[i.val]).toList = hdr.toList.take 64 := by
    apply List.ext_getElem
    · simp
    · intro i inFirst inTake
      simp
  rw [first, ← front, pad_withNonce, blockWord, Nat.mul_zero, Nat.zero_add, beWordAt_template hdr (by omega)]

def tailPadding : List UInt32 := [0x80000000, 0, 0, 0, 0, 0, 0, 0, 0, 0, 672]

theorem tailPadding_getD : ∀ k < 11, tailPadding.getD k 0 = beWordAt (padding 84) (4 * k) := by
  decide

theorem tail_getD {t : Nat} (inside : t < 4) : ((prepare hdr).2.toList.take 4).getD t 0 = beWordAt hdr.toList (64 + 4 * t) := by
  match t, inside with
  | 0, _ => exact be32_beWordAt hdr (show 64 + 3 < 84 by decide)
  | 1, _ => exact be32_beWordAt hdr (show 68 + 3 < 84 by decide)
  | 2, _ => exact be32_beWordAt hdr (show 72 + 3 < 84 by decide)
  | 3, _ => exact be32_beWordAt hdr (show 76 + 3 < 84 by decide)

theorem second_block : ∀ t < 16, ((prepare hdr).2.toList.take 4 ++ nonce :: tailPadding).getD t 0 =
    blockWord (pad (withNonce hdr nonce)) 1 t := by
  intro t inside
  have four : ((prepare hdr).2.toList.take 4).length = 4 := rfl
  have eighty : (hdr.toList.take 80).length = 80 := by simp
  rw [pad_withNonce, blockWord]
  by_cases template : t < 4
  · rw [List.getD_append _ _ _ _ (four.symm ▸ template), tail_getD hdr template, beWordAt_template hdr (by omega)]
  · -- From the nonce on, count from byte 80.
    obtain ⟨k, rfl⟩ : ∃ k, t = 4 + k := ⟨t - 4, by omega⟩
    have place : 64 * 1 + 4 * (4 + k) = (hdr.toList.take 80).length + 4 * k := by omega
    rw [place, beWordAt_append_right, List.getD_append_right _ _ _ _ (by omega), four, Nat.add_sub_cancel_left]
    cases k with
    | zero => exact (beWordAt_beWordBytes nonce _).symm
    | succ k =>
      have after : 4 * (k + 1) = (beWordBytes nonce).length + 4 * k := mul_succ 4 k ▸ Nat.add_comm ..
      rw [after, beWordAt_append_right, ← tailPadding_getD k (by omega)]
      rfl

def digestPadding : List UInt32 := [0x80000000, 0, 0, 0, 0, 0, 0, 256]

theorem digestPadding_getD : ∀ k < 8, digestPadding.getD k 0 = beWordAt (padding 32) (4 * k) := by
  decide

theorem digest_block (st : Words) : ∀ t < 16, (st.toList ++ digestPadding).getD t 0 =
    blockWord (pad (digest st)) 0 t := by
  intro t inside
  have eight : st.toList.length = 8 := Vector.length_toList ..
  rw [pad, length_digest, blockWord, Nat.mul_zero, Nat.zero_add]
  by_cases word : t < 8
  · rw [List.getD_append _ _ _ _ (by omega), digest, beWordAt_flatMap _ _ (by omega)]
  · obtain ⟨k, rfl⟩ : ∃ k, t = 8 + k := ⟨t - 8, by omega⟩
    have place : 4 * (8 + k) = (digest st).length + 4 * k := by
      rw [length_digest]
      omega
    rw [place, beWordAt_append_right, List.getD_append_right _ _ _ _ (by omega), eight, Nat.add_sub_cancel_left,
      digestPadding_getD k (by omega)]

theorem toList_words (st : Vector UInt32 stateWords) : st.toList = [st[0], st[1], st[2], st[3], st[4], st[5], st[6], st[7]] := by
  obtain ⟨⟨words⟩, length⟩ := st
  match words, length with
  | [_, _, _, _, _, _, _, _], _ => rfl

/-- The kernel's hash of a template and a nonce is the double SHA-256 of the header that has the nonce in place. -/
theorem sha256dTail_prepare :
    digest (sha256dTail (prepare hdr).1 (prepare hdr).2 nonce) = Sha256.hash (Sha256.hash (withNonce hdr nonce)) := by
  have one : (pad (withNonce hdr nonce)).length = 128 := by
    rw [pad, List.length_append, length_withNonce]
    rfl
  have two (st : Words) : (pad (digest st)).length = 64 := by
    rw [pad, List.length_append, length_digest]
    rfl
  have first : rounds (prepare hdr).1 #v[(prepare hdr).2[0], (prepare hdr).2[1], (prepare hdr).2[2], (prepare hdr).2[3], nonce,
      0x80000000, 0, 0, 0, 0, 0, 0, 0, 0, 0, 672] = hashValue (withNonce hdr nonce) := by
    rw [Sha256.hashValue_two one, ← midstate_prepare]
    exact rounds_eq _ (second_block hdr nonce)
  have second (st : Words) : rounds iv #v[st[0], st[1], st[2], st[3], st[4], st[5], st[6], st[7], 0x80000000, 0, 0, 0, 0, 0,
      0, 256] = hashValue (digest st) := by
    have block := digest_block st
    rw [toList_words] at block
    rw [Sha256.hashValue_one (two st)]
    exact rounds_eq iv block
  calc digest (sha256dTail (prepare hdr).1 (prepare hdr).2 nonce)
      = digest (hashValue (digest (hashValue (withNonce hdr nonce)))) := by
        rw [← first]
        exact congrArg digest (second _)
    _ = Sha256.hash (Sha256.hash (withNonce hdr nonce)) := by rw [Sha256.hash, Sha256.hash]

end message
end ArcMiner.Csd
