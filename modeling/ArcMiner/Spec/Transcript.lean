import ArcMiner.Library.XorFold

/-! The transcript of a tile.

A tile is the product of some rows of one matrix with some rows of another. After
every block of `r` products the entries of the tile, as 32-bit words, are folded
into one of sixteen words in turn.
-/

namespace ArcMiner.Spec

open Library Finset

def dot (a b : Nat → Int) (n : Nat) : Int32 := Int32.ofInt (∑ l ∈ range n, a l * b l)

def xorTile (h w : Nat) (entry : Nat → Nat → UInt32) : UInt32 :=
  (∑ u ∈ range h, ∑ v ∈ range w, (⟨entry u v⟩ : Xored)).word

def rotateLeft (x n : UInt32) : UInt32 := (x <<< n) ||| (x >>> (32 - n))

theorem place_lt (blocks : Nat) : blocks % 16 < 16 := Nat.mod_lt _ (by decide)

def transcript (h w r : Nat) (a b : Nat → Nat → Int) : Nat → Vector UInt32 16
  | 0 => Vector.replicate 16 0
  | blocks + 1 =>
    let words := transcript h w r a b blocks
    let place : Fin 16 := ⟨blocks % 16, place_lt blocks⟩
    words.set place (rotateLeft (getElem words place place.isLt) 13 ^^^
      xorTile h w fun u v => (dot (a u) (b v) ((blocks + 1) * r)).toUInt32) place.isLt

theorem dot_add (a b : Nat → Int) (n more : Nat) :
    dot a b (n + more) = dot a b n + Int32.ofInt (∑ l ∈ range more, a (n + l) * b (n + l)) := by
  rw [dot, sum_range_add, Int32.ofInt_add, dot]

theorem dot_succ (a b : Nat → Int) (n : Nat) : dot a b (n + 1) = dot a b n + Int32.ofInt (a n) * Int32.ofInt (b n) := by
  rw [dot, sum_range_succ, Int32.ofInt_add, Int32.ofInt_mul, dot]

theorem dot_congr {a b a' b' : Nat → Int} {n : Nat} (left : ∀ l < n, a l = a' l) (right : ∀ l < n, b l = b' l) :
    dot a b n = dot a' b' n := by
  unfold dot
  congr 1
  refine sum_congr rfl fun l member => ?_
  have inside := mem_range.mp member
  rw [left l inside, right l inside]

theorem dot_of_zeros {a b : Nat → Int} {n more : Nat} (zeros : ∀ l, n ≤ l → a l = 0) : dot a b (n + more) = dot a b n := by
  rw [dot, sum_range_add, sum_eq_zero (s := range more), Int.add_zero, dot]
  intro l _
  rw [zeros _ (by omega), Int.zero_mul]

theorem natAbs_sum_mul_le {a b : Nat → Int} {n bound : Nat} (left : ∀ l < n, (a l).natAbs ≤ bound)
    (right : ∀ l < n, (b l).natAbs ≤ bound) : (∑ l ∈ range n, a l * b l).natAbs ≤ n * bound ^ 2 := by
  induction n with
  | zero => simp
  | succ n ih =>
    have before := ih (fun l inside => left l (by omega)) (fun l inside => right l (by omega))
    have last : (a n * b n).natAbs ≤ bound ^ 2 := by
      rw [Int.natAbs_mul, Nat.pow_two]
      exact Nat.mul_le_mul (left n (by omega)) (right n (by omega))
    have total := Int.natAbs_add_le (∑ l ∈ range n, a l * b l) (a n * b n)
    rw [sum_range_succ, Nat.succ_mul]
    omega

theorem toInt_dot {a b : Nat → Int} {n bound : Nat} (left : ∀ l < n, (a l).natAbs ≤ bound)
    (right : ∀ l < n, (b l).natAbs ≤ bound) (fits : n * bound ^ 2 < 2 ^ 31) :
    (dot a b n).toInt = ∑ l ∈ range n, a l * b l := by
  have total := natAbs_sum_mul_le left right
  rw [dot, Int32.toInt_ofInt_of_le (by omega) (by omega)]

theorem xorTile_congr {h w : Nat} {entry other : Nat → Nat → UInt32}
    (same : ∀ u < h, ∀ v < w, entry u v = other u v) : xorTile h w entry = xorTile h w other := by
  unfold xorTile
  congr 1
  refine sum_congr rfl fun u row => sum_congr rfl fun v col => ?_
  rw [same u (mem_range.mp row) v (mem_range.mp col)]

theorem transcript_congr {h w r : Nat} {a b a' b' : Nat → Nat → Int} {blocks : Nat}
    (left : ∀ u < h, ∀ l < blocks * r, a u l = a' u l) (right : ∀ v < w, ∀ l < blocks * r, b v l = b' v l) :
    transcript h w r a b blocks = transcript h w r a' b' blocks := by
  induction blocks with
  | zero => rfl
  | succ blocks ih =>
    have shorter : blocks * r ≤ (blocks + 1) * r := Nat.mul_le_mul_right r (Nat.le_succ blocks)
    have before := ih (fun u row l inside => left u row l (by omega)) (fun v col l inside => right v col l (by omega))
    have folded : xorTile h w (fun u v => (dot (a u) (b v) ((blocks + 1) * r)).toUInt32) =
        xorTile h w (fun u v => (dot (a' u) (b' v) ((blocks + 1) * r)).toUInt32) :=
      xorTile_congr fun u row v col => by rw [dot_congr (left u row) (right v col)]
    rw [transcript, transcript, before, folded]

end ArcMiner.Spec
