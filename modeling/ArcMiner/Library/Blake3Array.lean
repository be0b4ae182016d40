import ArcMiner.Library.Blake3
import Mathlib.Tactic.IntervalCases

/-! BLAKE3 compression on arrays of sixteen words.

Implementations keep the state in an array and mix it in place, four indices at a
time. This module relates that form to the rows of the specification.
-/

namespace ArcMiner.Library.Blake3

def Words.toArray (w : Words) : Vector UInt32 16 :=
  #v[w.r0.x0, w.r0.x1, w.r0.x2, w.r0.x3, w.r1.x0, w.r1.x1, w.r1.x2, w.r1.x3,
    w.r2.x0, w.r2.x1, w.r2.x2, w.r2.x3, w.r3.x0, w.r3.x1, w.r3.x2, w.r3.x3]

def Words.ofArray (w : Vector UInt32 16) : Words :=
  ⟨⟨w[0], w[1], w[2], w[3]⟩, ⟨w[4], w[5], w[6], w[7]⟩, ⟨w[8], w[9], w[10], w[11]⟩, ⟨w[12], w[13], w[14], w[15]⟩⟩

theorem Words.toArray_ofArray (w : Vector UInt32 16) : (Words.ofArray w).toArray = w := by
  apply Vector.ext
  intro i bound
  interval_cases i <;> rfl

theorem Words.ofArray_toArray (w : Words) : Words.ofArray w.toArray = w := rfl

theorem word_lt (i : Fin 32) : i.val / 4 < 8 := by omega

/-- The quarter-round on the words at `a`, `b`, `c` and `d`. -/
def mixAt (s : Vector UInt32 16) (a b c d : Fin 16) (mx my : UInt32) : Vector UInt32 16 :=
  let q := mix ⟨s[a], s[b], s[c], s[d]⟩ mx my
  (((s.set a q.x0).set b q.x1).set c q.x2).set d q.x3

def roundWith (g : Vector UInt32 16 → Fin 16 → Fin 16 → Fin 16 → Fin 16 → UInt32 → UInt32 → Vector UInt32 16)
    (s m : Vector UInt32 16) : Vector UInt32 16 :=
  let s := g s 0 4 8 12 m[0] m[1]
  let s := g s 1 5 9 13 m[2] m[3]
  let s := g s 2 6 10 14 m[4] m[5]
  let s := g s 3 7 11 15 m[6] m[7]
  let s := g s 0 5 10 15 m[8] m[9]
  let s := g s 1 6 11 12 m[10] m[11]
  let s := g s 2 7 8 13 m[12] m[13]
  g s 3 4 9 14 m[14] m[15]

section quarters
variable (x0 x1 x2 x3 x4 x5 x6 x7 x8 x9 x10 x11 x12 x13 x14 x15 mx my : UInt32)

theorem mixAt_column0 : mixAt #v[x0, x1, x2, x3, x4, x5, x6, x7, x8, x9, x10, x11, x12, x13, x14, x15] 0 4 8 12 mx my =
    let q := mix ⟨x0, x4, x8, x12⟩ mx my
    #v[q.x0, x1, x2, x3, q.x1, x5, x6, x7, q.x2, x9, x10, x11, q.x3, x13, x14, x15] := rfl

theorem mixAt_column1 : mixAt #v[x0, x1, x2, x3, x4, x5, x6, x7, x8, x9, x10, x11, x12, x13, x14, x15] 1 5 9 13 mx my =
    let q := mix ⟨x1, x5, x9, x13⟩ mx my
    #v[x0, q.x0, x2, x3, x4, q.x1, x6, x7, x8, q.x2, x10, x11, x12, q.x3, x14, x15] := rfl

theorem mixAt_column2 : mixAt #v[x0, x1, x2, x3, x4, x5, x6, x7, x8, x9, x10, x11, x12, x13, x14, x15] 2 6 10 14 mx my =
    let q := mix ⟨x2, x6, x10, x14⟩ mx my
    #v[x0, x1, q.x0, x3, x4, x5, q.x1, x7, x8, x9, q.x2, x11, x12, x13, q.x3, x15] := rfl

theorem mixAt_column3 : mixAt #v[x0, x1, x2, x3, x4, x5, x6, x7, x8, x9, x10, x11, x12, x13, x14, x15] 3 7 11 15 mx my =
    let q := mix ⟨x3, x7, x11, x15⟩ mx my
    #v[x0, x1, x2, q.x0, x4, x5, x6, q.x1, x8, x9, x10, q.x2, x12, x13, x14, q.x3] := rfl

theorem mixAt_diagonal0 : mixAt #v[x0, x1, x2, x3, x4, x5, x6, x7, x8, x9, x10, x11, x12, x13, x14, x15] 0 5 10 15 mx my =
    let q := mix ⟨x0, x5, x10, x15⟩ mx my
    #v[q.x0, x1, x2, x3, x4, q.x1, x6, x7, x8, x9, q.x2, x11, x12, x13, x14, q.x3] := rfl

theorem mixAt_diagonal1 : mixAt #v[x0, x1, x2, x3, x4, x5, x6, x7, x8, x9, x10, x11, x12, x13, x14, x15] 1 6 11 12 mx my =
    let q := mix ⟨x1, x6, x11, x12⟩ mx my
    #v[x0, q.x0, x2, x3, x4, x5, q.x1, x7, x8, x9, x10, q.x2, q.x3, x13, x14, x15] := rfl

theorem mixAt_diagonal2 : mixAt #v[x0, x1, x2, x3, x4, x5, x6, x7, x8, x9, x10, x11, x12, x13, x14, x15] 2 7 8 13 mx my =
    let q := mix ⟨x2, x7, x8, x13⟩ mx my
    #v[x0, x1, q.x0, x3, x4, x5, x6, q.x1, q.x2, x9, x10, x11, x12, q.x3, x14, x15] := rfl

theorem mixAt_diagonal3 : mixAt #v[x0, x1, x2, x3, x4, x5, x6, x7, x8, x9, x10, x11, x12, x13, x14, x15] 3 4 9 14 mx my =
    let q := mix ⟨x3, x4, x9, x14⟩ mx my
    #v[x0, x1, x2, q.x0, q.x1, x5, x6, x7, x8, q.x2, x10, x11, x12, x13, q.x3, x15] := rfl

end quarters

theorem roundWith_mixAt (s m : Words) : roundWith mixAt s.toArray m.toArray = (round s m).toArray := by
  simp only [roundWith, Words.toArray, mixAt_column0, mixAt_column1, mixAt_column2, mixAt_column3,
    mixAt_diagonal0, mixAt_diagonal1, mixAt_diagonal2, mixAt_diagonal3]
  rfl

def permuteArray (m : Vector UInt32 16) : Vector UInt32 16 :=
  #v[m[2], m[6], m[3], m[10], m[7], m[0], m[4], m[13], m[1], m[11], m[12], m[5], m[9], m[14], m[15], m[8]]

theorem permuteArray_toArray (m : Words) : permuteArray m.toArray = (permute m).toArray := rfl

def roundsArray : Nat → Vector UInt32 16 → Vector UInt32 16 → Vector UInt32 16
  | 0, s, _ => s
  | n + 1, s, m => roundsArray n (roundWith mixAt s m) (permuteArray m)

theorem roundsArray_toArray (n : Nat) (s m : Words) : roundsArray n s.toArray m.toArray = (rounds n s m).toArray := by
  induction n generalizing s m with
  | zero => rfl
  | succ n ih => rw [roundsArray, roundWith_mixAt, permuteArray_toArray, ih, rounds]

structure Apart (a b c d : Fin 16) : Prop where
  ab : a ≠ b
  ac : a ≠ c
  ad : a ≠ d
  bc : b ≠ c
  bd : b ≠ d
  cd : c ≠ d

def put (s : Vector UInt32 16) (a b c d : Fin 16) (q : Row) : Vector UInt32 16 :=
  (((s.set a q.x0).set b q.x1).set c q.x2).set d q.x3

section put
variable {a b c d : Fin 16} (apart : Apart a b c d) (s : Vector UInt32 16) (q : Row) (v : UInt32)
include apart

theorem put_get : (put s a b c d q)[a] = q.x0 ∧ (put s a b c d q)[b] = q.x1 ∧ (put s a b c d q)[c] = q.x2 ∧
    (put s a b c d q)[d] = q.x3 := by
  obtain ⟨ab, ac, ad, bc, bd, cd⟩ := apart
  simp only [ne_eq, Fin.ext_iff] at ab ac ad bc bd cd
  refine ⟨?_, ?_, ?_, ?_⟩ <;> simp only [put, Fin.getElem_fin, Vector.getElem_set] <;> split_ifs <;>
    first | rfl | omega

theorem put_set : (put s a b c d q).set a v = put s a b c d { q with x0 := v } ∧
    (put s a b c d q).set b v = put s a b c d { q with x1 := v } ∧
    (put s a b c d q).set c v = put s a b c d { q with x2 := v } ∧
    (put s a b c d q).set d v = put s a b c d { q with x3 := v } := by
  obtain ⟨ab, ac, ad, bc, bd, cd⟩ := apart
  simp only [ne_eq, Fin.ext_iff] at ab ac ad bc bd cd
  refine ⟨?_, ?_, ?_, ?_⟩ <;> apply Vector.ext <;> intro i bound <;>
    simp only [put, Vector.getElem_set] <;> split_ifs <;> first | rfl | omega

omit apart in
theorem put_self : put s a b c d ⟨s[a], s[b], s[c], s[d]⟩ = s := by
  apply Vector.ext
  intro i bound
  simp only [put, Vector.getElem_set, Fin.getElem_fin]
  split_ifs <;> first | rfl | simp_all

/-- Mixing in place, each step overwriting one word of the state. -/
theorem mixAt_inPlace (mx my : UInt32) : (let s := s.set a (s[a] + s[b] + mx)
     let s := s.set d (rotateRight (s[d] ^^^ s[a]) 16)
     let s := s.set c (s[c] + s[d])
     let s := s.set b (rotateRight (s[b] ^^^ s[c]) 12)
     let s := s.set a (s[a] + s[b] + my)
     let s := s.set d (rotateRight (s[d] ^^^ s[a]) 8)
     let s := s.set c (s[c] + s[d])
     s.set b (rotateRight (s[b] ^^^ s[c]) 7)) = mixAt s a b c d mx my := by
  conv_lhs => rw [← put_self s (a := a) (b := b) (c := c) (d := d)]
  simp only [put_get apart, put_set apart]
  rfl

end put

theorem roundWith_congr
    {g : Vector UInt32 16 → Fin 16 → Fin 16 → Fin 16 → Fin 16 → UInt32 → UInt32 → Vector UInt32 16}
    (same : ∀ s a b c d mx my, Apart a b c d → g s a b c d mx my = mixAt s a b c d mx my) :
    roundWith g = roundWith mixAt := by
  funext s m
  simp only [roundWith]
  rw [same s 0 4 8 12 _ _ ⟨by decide, by decide, by decide, by decide, by decide, by decide⟩,
    same _ 1 5 9 13 _ _ ⟨by decide, by decide, by decide, by decide, by decide, by decide⟩,
    same _ 2 6 10 14 _ _ ⟨by decide, by decide, by decide, by decide, by decide, by decide⟩,
    same _ 3 7 11 15 _ _ ⟨by decide, by decide, by decide, by decide, by decide, by decide⟩,
    same _ 0 5 10 15 _ _ ⟨by decide, by decide, by decide, by decide, by decide, by decide⟩,
    same _ 1 6 11 12 _ _ ⟨by decide, by decide, by decide, by decide, by decide, by decide⟩,
    same _ 2 7 8 13 _ _ ⟨by decide, by decide, by decide, by decide, by decide, by decide⟩,
    same _ 3 4 9 14 _ _ ⟨by decide, by decide, by decide, by decide, by decide, by decide⟩]

theorem Cv.word_ofWords (w : Vector UInt32 8) {k : Nat} (bound : k < 8) : (Cv.ofWords w).word k = w[k] := by
  interval_cases k <;> rfl

theorem Cv.store_ofWords (w : Vector UInt32 8) :
    (Cv.ofWords w).store = Vector.ofFn fun i => wordByte w[i.val / 4] (i.val % 4) := by
  apply Vector.ext
  intro i bound
  simp only [Cv.store, Vector.getElem_ofFn]
  rw [Cv.word_ofWords w (by omega)]

theorem leWordAt_drop (bytes : List UInt8) (k p : Nat) : leWordAt (bytes.drop k) p = leWordAt bytes (k + p) := by
  simp [leWordAt, Nat.add_assoc]

theorem getElem_load (bytes : List UInt8) {i : Nat} (bound : i < 16) :
    (Words.load bytes).toArray[i] = leWordAt bytes (4 * i) := by
  interval_cases i <;> simp [Words.load, Words.toArray, loadRow, leWordAt_drop]

theorem Words.toArray_inj {w v : Words} (same : w.toArray = v.toArray) : w = v := by
  rw [← Words.ofArray_toArray w, same, Words.ofArray_toArray]

theorem load_congr {bytes other : List UInt8} (same : ∀ k < 64, bytes.getD k 0 = other.getD k 0) :
    Words.load bytes = Words.load other := by
  apply Words.toArray_inj
  apply Vector.ext
  intro i bound
  rw [getElem_load bytes bound, getElem_load other bound, leWordAt, leWordAt, same _ (by omega), same _ (by omega),
    same _ (by omega), same _ (by omega)]

end ArcMiner.Library.Blake3
