import Mathlib.Data.Nat.Digits.Defs

/-! Numbers compared digit by digit, the most significant digit first. -/

namespace ArcMiner.Library

open List Nat

def digitsLe : List Nat → List Nat → Bool
  | x :: xs, y :: ys => if x < y then true else if y < x then false else digitsLe xs ys
  | _, _ => true

theorem leading_le_iff {power low low' digit digit' : Nat} (small : low < power) (small' : low' < power) :
    low + power * digit ≤ low' + power * digit' ↔ digit < digit' ∨ digit = digit' ∧ low ≤ low' := by
  rcases Nat.lt_trichotomy digit digit' with less | rfl | greater
  · have apart := Nat.mul_le_mul_left power less
    rw [mul_succ] at apart
    exact iff_of_true (by omega) (.inl less)
  · simp
  · have apart := Nat.mul_le_mul_left power greater
    rw [mul_succ] at apart
    exact iff_of_false (by omega) (by omega)

theorem digitsLe_iff {base : Nat} (large : 1 < base) {xs ys : List Nat} (same : xs.length = ys.length)
    (small : ∀ x ∈ xs, x < base) (smallToo : ∀ y ∈ ys, y < base) :
    digitsLe xs ys = true ↔ ofDigits base xs.reverse ≤ ofDigits base ys.reverse := by
  induction xs generalizing ys with
  | nil =>
    obtain rfl := length_eq_zero_iff.mp same.symm
    exact iff_of_true rfl (Nat.le_refl _)
  | cons x xs ih =>
    cases ys with
    | nil => cases same
    | cons y ys =>
      have sameRest : xs.length = ys.length := succ.inj same
      have below : ∀ d ∈ xs.reverse, d < base := fun d found => small d (mem_cons_of_mem _ (mem_reverse.mp found))
      have belowToo : ∀ d ∈ ys.reverse, d < base := fun d found => smallToo d (mem_cons_of_mem _ (mem_reverse.mp found))
      have low := ofDigits_lt_base_pow_length large below
      have lowToo := ofDigits_lt_base_pow_length large belowToo
      rw [length_reverse] at low lowToo
      rw [ofDigits_reverse_cons, ofDigits_reverse_cons, sameRest, leading_le_iff (sameRest ▸ low) lowToo,
        ← ih sameRest (fun d found => below d (mem_reverse.mpr found)) fun d found => belowToo d (mem_reverse.mpr found)]
      rw [digitsLe]
      split
      next less => exact iff_of_true rfl (.inl less)
      next notLess =>
        split
        next greater => exact iff_of_false (by simp) (by omega)
        next notGreater =>
          have equal : x = y := by omega
          simp [equal]

theorem digitsLe_map_iff {α : Type} {base : Nat} (large : 1 < base) {digit : α → Nat} (small : ∀ word, digit word < base)
    {xs ys : List α} (same : xs.length = ys.length) : digitsLe (xs.map digit) (ys.map digit) = true ↔
      ofDigits base (xs.reverse.map digit) ≤ ofDigits base (ys.reverse.map digit) := by
  rw [map_reverse, map_reverse]
  apply digitsLe_iff large
  · rw [length_map, length_map, same]
  · rintro _ found
    obtain ⟨word, -, rfl⟩ := mem_map.mp found
    exact small word
  · rintro _ found
    obtain ⟨word, -, rfl⟩ := mem_map.mp found
    exact small word

end ArcMiner.Library
