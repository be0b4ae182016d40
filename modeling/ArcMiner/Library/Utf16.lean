import Mathlib.Tactic.Common

/-! Text as UTF-16 code units. -/

namespace ArcMiner.Library.Utf16

open List Bool

def isHigh (unit : UInt16) : Bool := 0xD800 ≤ unit && unit < 0xDC00

def isLow (unit : UInt16) : Bool := 0xDC00 ≤ unit && unit < 0xE000

def isScalar (unit : UInt16) : Bool := !isHigh unit && !isLow unit

def scalar (unit : UInt16) : Char := Char.ofNat unit.toNat

def pair (high low : UInt16) : Char := Char.ofNat (0x10000 + (high.toNat - 0xD800) * 0x400 + (low.toNat - 0xDC00))

def encodeChar (c : Char) : List UInt16 :=
  if c.toNat < 0x10000 then [c.toNat.toUInt16]
  else [(0xD800 + (c.toNat - 0x10000) / 0x400).toUInt16, (0xDC00 + (c.toNat - 0x10000) % 0x400).toUInt16]

def encode (text : List Char) : List UInt16 := text.flatMap encodeChar

def Paired : List UInt16 → Prop
  | [] => True
  | [unit] => isScalar unit
  | unit :: next :: rest => (isScalar unit ∧ Paired (next :: rest)) ∨ (isHigh unit ∧ isLow next ∧ Paired rest)

instance decidablePaired : ∀ units, Decidable (Paired units)
  | [] => inferInstanceAs (Decidable True)
  | [unit] => inferInstanceAs (Decidable (isScalar unit))
  | unit :: next :: rest =>
    have := decidablePaired (next :: rest)
    have := decidablePaired rest
    inferInstanceAs (Decidable ((isScalar unit ∧ Paired (next :: rest)) ∨ (isHigh unit ∧ isLow next ∧ Paired rest)))

def replacement : Char := Char.ofNat 0xFFFD

/-- Decoding that puts a replacement character for a surrogate without its other half. -/
def decode : List UInt16 → List Char
  | [] => []
  | [unit] => [if isScalar unit then scalar unit else replacement]
  | unit :: next :: rest =>
    if isScalar unit then scalar unit :: decode (next :: rest)
    else if isHigh unit && isLow next then pair unit next :: decode rest
    else replacement :: decode (next :: rest)

theorem isHigh_iff (unit : UInt16) : isHigh unit ↔ 0xD800 ≤ unit.toNat ∧ unit.toNat < 0xDC00 := by
  simp [isHigh, UInt16.le_iff_toNat_le, UInt16.lt_iff_toNat_lt]

theorem isLow_iff (unit : UInt16) : isLow unit ↔ 0xDC00 ≤ unit.toNat ∧ unit.toNat < 0xE000 := by
  simp [isLow, UInt16.le_iff_toNat_le, UInt16.lt_iff_toNat_lt]

theorem isScalar_iff (unit : UInt16) : isScalar unit ↔ unit.toNat < 0xD800 ∨ 0xE000 ≤ unit.toNat := by
  have high := isHigh_iff unit
  have low := isLow_iff unit
  simp only [isScalar, and_eq_true, not_eq_true', ← not_eq_true, high, low]
  omega

theorem isLow_of_isScalar {unit : UInt16} (single : isScalar unit) : isLow unit = false := by
  simp only [isScalar, and_eq_true, not_eq_true'] at single
  exact single.2

theorem toNat_ofNat {n : Nat} (valid : n.isValidChar) : (Char.ofNat n).toNat = n := by
  rw [Char.ofNat, dif_pos valid]
  rfl

theorem scalar_toNat {unit : UInt16} (single : isScalar unit) : (scalar unit).toNat = unit.toNat := by
  have size := unit.toNat_lt
  refine toNat_ofNat ?_
  rcases (isScalar_iff unit).mp single with below | above
  · exact .inl below
  · exact .inr ⟨by omega, by omega⟩

theorem pair_toNat {high low : UInt16} (first : isHigh high) (second : isLow low) :
    (pair high low).toNat = 0x10000 + (high.toNat - 0xD800) * 0x400 + (low.toNat - 0xDC00) := by
  have first := (isHigh_iff high).mp first
  have second := (isLow_iff low).mp second
  exact toNat_ofNat (.inr ⟨by omega, by omega⟩)

theorem encodeChar_scalar {unit : UInt16} (single : isScalar unit) : encodeChar (scalar unit) = [unit] := by
  rw [encodeChar, scalar_toNat single, if_pos unit.toNat_lt]
  simp [Nat.toUInt16]

theorem encodeChar_pair {high low : UInt16} (first : isHigh high) (second : isLow low) :
    encodeChar (pair high low) = [high, low] := by
  have value := pair_toNat first second
  have first := (isHigh_iff high).mp first
  have second := (isLow_iff low).mp second
  have upper : 0xD800 + ((pair high low).toNat - 0x10000) / 0x400 = high.toNat := by omega
  have lower : 0xDC00 + ((pair high low).toNat - 0x10000) % 0x400 = low.toNat := by omega
  rw [encodeChar, if_neg (by omega), upper, lower]
  simp [Nat.toUInt16]

theorem not_isHigh_of_isScalar {unit : UInt16} (single : isScalar unit) : isHigh unit = false := by
  simp only [isScalar, and_eq_true, not_eq_true'] at single
  exact single.1

theorem not_isScalar_of_isHigh {unit : UInt16} (high : isHigh unit) : isScalar unit = false := by
  simp [isScalar, high]

theorem paired_scalar {unit : UInt16} (single : isScalar unit) (rest : List UInt16) : Paired (unit :: rest) ↔ Paired rest := by
  cases rest with
  | nil => simp [Paired, single]
  | cons next rest => simp [Paired, single, not_isHigh_of_isScalar single]

theorem paired_pair {high low : UInt16} (first : isHigh high) (second : isLow low) (rest : List UInt16) :
    Paired (high :: low :: rest) ↔ Paired rest := by
  simp [Paired, first, second, not_isScalar_of_isHigh first]

theorem decode_scalar {unit : UInt16} (single : isScalar unit) (rest : List UInt16) :
    decode (unit :: rest) = scalar unit :: decode rest := by
  cases rest with
  | nil => simp [decode, single]
  | cons next rest => simp [decode, single]

theorem decode_pair {high low : UInt16} (first : isHigh high) (second : isLow low) (rest : List UInt16) :
    decode (high :: low :: rest) = pair high low :: decode rest := by
  simp [decode, first, second, not_isScalar_of_isHigh first]

theorem encodeChar_cases (c : Char) :
    (∃ unit, isScalar unit ∧ scalar unit = c) ∨ ∃ high low, isHigh high ∧ isLow low ∧ pair high low = c := by
  have valid : c.toNat.isValidChar := c.valid
  have bounds : c.toNat < 0xD800 ∨ 0xDFFF < c.toNat ∧ c.toNat < 0x110000 := valid
  by_cases small : c.toNat < 0x10000
  · have size : c.toNat.toUInt16.toNat = c.toNat := UInt16.toNat_ofNat_of_lt small
    have single : isScalar c.toNat.toUInt16 := by
      rw [isScalar_iff, size]
      omega
    exact .inl ⟨_, single, Char.toNat_inj.mp (by rw [scalar_toNat single, size])⟩
  · have upper : (0xD800 + (c.toNat - 0x10000) / 0x400).toUInt16.toNat = 0xD800 + (c.toNat - 0x10000) / 0x400 :=
      UInt16.toNat_ofNat_of_lt (show _ < 2 ^ 16 by omega)
    have lower : (0xDC00 + (c.toNat - 0x10000) % 0x400).toUInt16.toNat = 0xDC00 + (c.toNat - 0x10000) % 0x400 :=
      UInt16.toNat_ofNat_of_lt (show _ < 2 ^ 16 by omega)
    have first : isHigh (0xD800 + (c.toNat - 0x10000) / 0x400).toUInt16 := by
      rw [isHigh_iff, upper]
      omega
    have second : isLow (0xDC00 + (c.toNat - 0x10000) % 0x400).toUInt16 := by
      rw [isLow_iff, lower]
      omega
    refine .inr ⟨_, _, first, second, Char.toNat_inj.mp ?_⟩
    rw [pair_toNat first second, upper, lower]
    omega

theorem paired_encode (text : List Char) : Paired (encode text) := by
  induction text with
  | nil => trivial
  | cons c text ih =>
    rw [encode, flatMap_cons]
    rcases encodeChar_cases c with ⟨unit, single, rfl⟩ | ⟨high, low, first, second, rfl⟩
    · rw [encodeChar_scalar single]
      exact (paired_scalar single _).mpr ih
    · rw [encodeChar_pair first second]
      exact (paired_pair first second _).mpr ih

theorem decode_encode_append (text : List Char) (rest : List UInt16) : decode (encode text ++ rest) = text ++ decode rest := by
  induction text with
  | nil => rfl
  | cons c text ih =>
    rw [encode, flatMap_cons, append_assoc]
    rcases encodeChar_cases c with ⟨unit, single, rfl⟩ | ⟨high, low, first, second, rfl⟩
    · rw [encodeChar_scalar single]
      exact (decode_scalar single _).trans (congrArg (scalar unit :: ·) ih)
    · rw [encodeChar_pair first second]
      exact (decode_pair first second _).trans (congrArg (pair high low :: ·) ih)

theorem decode_encode (text : List Char) : decode (encode text) = text := by
  have whole := decode_encode_append text []
  rwa [append_nil, decode, append_nil] at whole

theorem encode_decode {units : List UInt16} (paired : Paired units) : encode (decode units) = units := by
  induction units using decode.induct with
  | case1 => rfl
  | case2 unit =>
    have single : isScalar unit := paired
    rw [decode_scalar single, encode, flatMap_cons, encodeChar_scalar single]
    rfl
  | case3 unit next rest single ih =>
    rw [decode_scalar single, encode, flatMap_cons, encodeChar_scalar single]
    exact congrArg (unit :: ·) (ih ((paired_scalar single _).mp paired))
  | case4 unit next rest _ both ih =>
    obtain ⟨first, second⟩ := (and_eq_true _ _).mp both
    rw [decode_pair first second, encode, flatMap_cons, encodeChar_pair first second]
    exact congrArg (unit :: next :: ·) (ih ((paired_pair first second _).mp paired))
  | case5 unit next rest single unpaired _ =>
    rcases paired with ⟨known, -⟩ | ⟨first, second, -⟩
    · exact absurd known single
    · exact absurd ((and_eq_true _ _).mpr ⟨first, second⟩) unpaired

theorem encode_decode_iff (units : List UInt16) : encode (decode units) = units ↔ Paired units :=
  ⟨fun same => same ▸ paired_encode (decode units), encode_decode⟩

theorem decode_append {unit : UInt16} (single : isScalar unit) (before after : List UInt16) :
    decode (before ++ unit :: after) = decode before ++ scalar unit :: decode after := by
  induction before using decode.induct with
  | case1 => exact decode_scalar single after
  | case2 only =>
    by_cases alone : isScalar only
    · rw [singleton_append, decode_scalar alone, decode_scalar single, decode_scalar alone]
      rfl
    · simp [decode, alone, isLow_of_isScalar single, decode_scalar single]
  | case3 first next rest alone ih =>
    rw [cons_append, decode_scalar alone, decode_scalar alone, ih]
    rfl
  | case4 high low rest _ both ih =>
    obtain ⟨first, second⟩ := (and_eq_true _ _).mp both
    rw [cons_append, cons_append, decode_pair first second, decode_pair first second, ih]
    rfl
  | case5 first next rest single unpaired ih =>
    rw [cons_append] at ih ⊢
    rw [cons_append, decode, if_neg single, if_neg unpaired, ih, decode, if_neg single, if_neg unpaired]
    rfl

theorem paired_append {unit : UInt16} (single : isScalar unit) (before after : List UInt16) :
    Paired (before ++ unit :: after) ↔ Paired before ∧ Paired after := by
  induction before using decode.induct with
  | case1 => simp [paired_scalar single, Paired]
  | case2 only =>
    by_cases alone : isScalar only
    · simp [paired_scalar alone, paired_scalar single, Paired, alone]
    · simp [Paired, alone, isLow_of_isScalar single]
  | case3 first next rest alone ih => rw [cons_append, paired_scalar alone, paired_scalar alone, ih]
  | case4 high low rest _ both ih =>
    obtain ⟨first, second⟩ := (and_eq_true _ _).mp both
    rw [cons_append, cons_append, paired_pair first second, paired_pair first second, ih]
  -- a lone half is broken whatever follows it
  | case5 first next rest single unpaired _ =>
    have broken : ∀ tail, ¬ Paired (first :: next :: tail) := by
      rintro tail (⟨known, -⟩ | ⟨high, low, -⟩)
      · exact single known
      · exact unpaired ((and_eq_true _ _).mpr ⟨high, low⟩)
    exact iff_of_false (broken _) (fun both => broken _ both.1)

theorem decode_bound {bound : Nat} (small : bound ≤ 0xD800) (units : List UInt16) :
    (∀ c ∈ decode units, bound ≤ c.toNat) ↔ ∀ unit ∈ units, bound ≤ unit.toNat := by
  have lone : ∀ {unit : UInt16}, ¬ isScalar unit → bound ≤ unit.toNat := by
    intro unit surrogate
    rw [isScalar_iff] at surrogate
    omega
  have replaced : bound ≤ replacement.toNat := Nat.le_trans small (by decide)
  induction units using decode.induct with
  | case1 => simp [decode]
  | case2 unit =>
    by_cases single : isScalar unit
    · simp [decode, single, scalar_toNat single]
    · simp [decode, single, lone single, replaced]
  | case3 unit next rest single ih =>
    rw [decode_scalar single, forall_mem_cons, scalar_toNat single, forall_mem_cons]
    exact and_congr Iff.rfl ih
  | case4 high low rest _ both ih =>
    obtain ⟨first, second⟩ := (and_eq_true _ _).mp both
    have value := pair_toNat first second
    have above := ((isHigh_iff high).mp first).1
    have above' := ((isLow_iff low).mp second).1
    rw [decode_pair first second, forall_mem_cons, forall_mem_cons, forall_mem_cons]
    constructor
    · exact fun ⟨_, later⟩ => ⟨by omega, by omega, ih.mp later⟩
    · exact fun ⟨_, _, later⟩ => ⟨by omega, ih.mpr later⟩
  | case5 unit next rest single unpaired ih =>
    rw [decode, if_neg single, if_neg unpaired, forall_mem_cons, forall_mem_cons]
    exact and_congr (iff_of_true replaced (lone single)) ih

end ArcMiner.Library.Utf16
