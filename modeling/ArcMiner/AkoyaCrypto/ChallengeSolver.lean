import ArcMiner.AkoyaCrypto.Blake3
import ArcMiner.Library.LeadingZeros

/-! `TryNonce` and `Verify` of the challenge solver.

`Verify` hashes the seed and the nonce. `TryNonce` is the one compression that this comes to, with the order of the
message words of every round written out. -/

namespace ArcMiner.AkoyaCrypto.ChallengeSolver

open Library Library.CSharp HostBlake3

def seedWords (seed : Digest) : Vector UInt32 8 := Vector.ofFn fun w => leWordAt seed.toList (4 * w.val)

abbrev seedCount : Nat := 8
abbrev stateCount : Nat := 16

def g (v : Vector UInt32 stateCount) (a b c d : Fin stateCount) (x y : UInt32) : Vector UInt32 stateCount :=
  let v := v.set a (v[a] + (v[b] + x))
  let v := v.set d (Blake3.rotateRight (v[d] ^^^ v[a]) 16)
  let v := v.set c (v[c] + v[d])
  let v := v.set b (Blake3.rotateRight (v[b] ^^^ v[c]) 12)
  let v := v.set a (v[a] + (v[b] + y))
  let v := v.set d (Blake3.rotateRight (v[d] ^^^ v[a]) 8)
  let v := v.set c (v[c] + v[d])
  v.set b (Blake3.rotateRight (v[b] ^^^ v[c]) 7)

/-- The arguments of the calls of `G`, round by round. -/
def schedule (s : Vector UInt32 seedCount) (n0 n1 : UInt32) : List (Vector UInt32 16) :=
  [#v[s[0], s[1], s[2], s[3], s[4], s[5], s[6], s[7], n0, n1, 0, 0, 0, 0, 0, 0],
    #v[s[2], s[6], s[3], 0, s[7], s[0], s[4], 0, s[1], 0, 0, s[5], n1, 0, 0, n0],
    #v[s[3], s[4], 0, 0, 0, s[2], s[7], 0, s[6], s[5], n1, s[0], 0, 0, n0, s[1]],
    #v[0, s[7], 0, n1, 0, s[3], 0, 0, s[4], s[0], 0, s[2], s[5], n0, s[1], s[6]],
    #v[0, 0, n1, 0, 0, 0, 0, n0, s[7], s[2], s[5], s[3], s[0], s[1], s[6], s[4]],
    #v[n1, 0, 0, s[5], n0, 0, 0, s[1], 0, s[3], s[0], 0, s[2], s[6], s[4], s[7]],
    #v[0, 0, s[5], s[0], s[1], n1, n0, s[6], 0, 0, s[2], 0, s[3], s[4], s[7], 0]]

def startWords : Vector UInt32 16 :=
  #v[0x6A09E667, 0xBB67AE85, 0x3C6EF372, 0xA54FF53A, 0x510E527F, 0x9B05688C, 0x1F83D9AB, 0x5BE0CD19,
    0x6A09E667, 0xBB67AE85, 0x3C6EF372, 0xA54FF53A, 0, 0, 40, 1 ||| 2 ||| 8]

def tryNonce (s : Vector UInt32 8) (nonce : UInt64) (difficulty : Int) : Bool :=
  let n0 := nonce.toUInt32
  let n1 := (nonce >>> 32).toUInt32
  let v : Vector UInt32 stateCount := (schedule s n0 n1).foldl (Blake3.roundWith g) startWords
  let h0 := reverseEndianness (v[0] ^^^ v[8])
  if h0 ≠ 0 then decide ((leadingZeroCount h0 : Int) ≥ difficulty)
  else
    let lz := leadingZeroWords 32
      [v[1] ^^^ v[9], v[2] ^^^ v[10], v[3] ^^^ v[11], v[4] ^^^ v[12], v[5] ^^^ v[13], v[6] ^^^ v[14], v[7] ^^^ v[15]]
    decide (lz ≥ difficulty)

def verify (seed : List UInt8) (nonce : UInt64) (difficulty : Int) : Result Bool := do
  if 40 < seed.length then .error (.argument "destination")
  let input := (seed ++ List.replicate (40 - seed.length) 0).take 32 ++ longBytes nonce
  let digest ← hash input
  return decide (leadingZeroBits 0 digest.toList ≥ difficulty)

theorem g_eq : g = HostBlake3.g := by
  funext v a b c d x y
  simp only [g, HostBlake3.g, UInt32.add_assoc]
  rfl

theorem roundsArray_iterate (n : Nat) (v m : Vector UInt32 16) :
    Blake3.roundsArray n v m = (List.iterate Blake3.permuteArray m n).foldl (Blake3.roundWith Blake3.mixAt) v := by
  induction n generalizing v m with
  | zero => rfl
  | succ n ih => rw [Blake3.roundsArray, ih, List.iterate, List.foldl_cons]

def block (s : Vector UInt32 seedCount) (n0 n1 : UInt32) : Vector UInt32 16 :=
  #v[s[0], s[1], s[2], s[3], s[4], s[5], s[6], s[7], n0, n1, 0, 0, 0, 0, 0, 0]

theorem schedule_eq (s : Vector UInt32 8) (n0 n1 : UInt32) :
    schedule s n0 n1 = List.iterate Blake3.permuteArray (block s n0 n1) 7 := rfl

theorem startWords_eq : startWords = initialState iv 0 40 11 := rfl

theorem outWords_tryNonce (s : Vector UInt32 8) (n0 n1 : UInt32) :
    outWords ((schedule s n0 n1).foldl (Blake3.roundWith g) startWords) iv =
      compress iv (block s n0 n1) 0 40 11 := by
  rw [compress, rounds_eq, roundsArray_iterate, ← schedule_eq, g_eq, roundWith_g, startWords_eq]

def digestWords (s : Vector UInt32 8) (nonce : UInt64) : Vector UInt32 8 :=
  firstEight (compress iv (block s nonce.toUInt32 (nonce >>> 32).toUInt32) 0 40 11)

theorem tryNonce_eq (s : Vector UInt32 8) (nonce : UInt64) (difficulty : Int) :
    tryNonce s nonce difficulty = decide (leadingZeroWords 0 (digestWords s nonce).toList ≥ difficulty) := by
  rw [digestWords, ← outWords_tryNonce, tryNonce]
  generalize (schedule s nonce.toUInt32 (nonce >>> 32).toUInt32).foldl (Blake3.roundWith g) startWords = v
  have words : (firstEight (outWords v iv)).toList =
      [v[0] ^^^ v[8], v[1] ^^^ v[9], v[2] ^^^ v[10], v[3] ^^^ v[11], v[4] ^^^ v[12], v[5] ^^^ v[13], v[6] ^^^ v[14],
        v[7] ^^^ v[15]] := rfl
  rw [words, leadingZeroWords_cons 0]
  dsimp only
  split
  next => rw [Int.zero_add]
  next none => rw [if_pos (not_not.mp none), Int.zero_add]

theorem toList_wordsToBytes (words : Vector UInt32 seedCount) :
    (wordsToBytes words).toList = words.toList.flatMap wordBytes := by
  have entries : words.toList = [words[0], words[1], words[2], words[3], words[4], words[5], words[6], words[7]] := by
    apply List.ext_getElem
    · exact Vector.length_toList
    · intro i inWords inList
      match i with
      | 0 | 1 | 2 | 3 | 4 | 5 | 6 | 7 => rfl
      | i + 8 => exact absurd inList (by simp)
  rw [entries, wordsToBytes, Vector.toList_ofFn]
  rfl

theorem loadBlock_input (seed : Digest) (nonce : UInt64) :
    loadBlock (seed.toList ++ longBytes nonce) = block (seedWords seed) nonce.toUInt32 (nonce >>> 32).toUInt32 := by
  have length : seed.toList.length = 32 := Vector.length_toList
  have total : (seed.toList ++ longBytes nonce).length = 40 := by
    rw [List.length_append, length]
    rfl
  have halves := leWordAt_longBytes nonce
  have low (i : Nat) (inside : i < 8) : leWordAt (seed.toList ++ longBytes nonce) (4 * i) = (seedWords seed)[i] := by
    rw [seedWords, Vector.getElem_ofFn, leWordAt_append_left _ (by omega)]
  have first : leWordAt (seed.toList ++ longBytes nonce) (4 * 8) = nonce.toUInt32 := by
    rw [leWordAt_append_right _ (by omega), length]
    exact halves.1
  have second : leWordAt (seed.toList ++ longBytes nonce) (4 * 9) = (nonce >>> 32).toUInt32 := by
    rw [leWordAt_append_right _ (by omega), length]
    exact halves.2
  have rest (i : Nat) (outside : 10 ≤ i) : leWordAt (seed.toList ++ longBytes nonce) (4 * i) = 0 :=
    leWordAt_end _ (by omega)
  rw [loadBlock_eq]
  apply Vector.ext
  intro i bound
  rw [Blake3.getElem_load _ bound]
  match i with
  | 0 | 1 | 2 | 3 | 4 | 5 | 6 | 7 => exact low _ (by decide)
  | 8 => exact first
  | 9 => exact second
  | 10 | 11 | 12 | 13 | 14 | 15 => exact rest _ (by decide)
  | i + 16 => exact absurd bound (by omega)

theorem hash_input (seed : Digest) (nonce : UInt64) :
    HostBlake3.hash (seed.toList ++ longBytes nonce) = .ok (HostBlake3.wordsToBytes (digestWords (seedWords seed) nonce)) := by
  have length : (seed.toList ++ longBytes nonce).length = 40 := by
    rw [List.length_append, Vector.length_toList]
    rfl
  rw [HostBlake3.hash, if_neg (by omega), HostBlake3.chainBlocks, length, digestWords, ← loadBlock_input]
  have whole : ((seed.toList ++ longBytes nonce).drop (64 * 0)).take (min 64 (40 - 64 * 0)) = seed.toList ++ longBytes nonce := by
    exact List.take_of_length_le (Nat.le_of_eq length)
  exact congrArg (fun input => Except.ok (wordsToBytes (firstEight
    (compress iv (loadBlock input) 0 40 11)))) whole

theorem verify_eq (seed : Digest) (nonce : UInt64) (difficulty : Int) : verify seed.toList nonce difficulty =
      .ok (decide (leadingZeroBits 0 ((digestWords (seedWords seed) nonce).toList.flatMap wordBytes) ≥ difficulty)) := by
  have length : seed.toList.length = 32 := Vector.length_toList
  have front : (seed.toList ++ List.replicate (40 - seed.toList.length) 0).take 32 = seed.toList :=
    List.take_left' length
  rw [verify, if_neg (by omega), front]
  dsimp only
  rw [hash_input, ← toList_wordsToBytes]
  rfl

/-- The search accepts what the check accepts. -/
theorem verify_tryNonce (seed : Digest) (nonce : UInt64) (difficulty : Int) :
    verify seed.toList nonce difficulty = .ok (tryNonce (seedWords seed) nonce difficulty) := by
  rw [verify_eq, tryNonce_eq, leadingZeroWords_eq]

end ArcMiner.AkoyaCrypto.ChallengeSolver
