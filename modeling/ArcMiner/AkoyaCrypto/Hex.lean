import ArcMiner.Library.CSharp

/-! `Hex`: bytes as text, with the conversions of `System.Convert` it rests on. -/

namespace ArcMiner.AkoyaCrypto

open Library Library.CSharp List Option

namespace Convert

def hexDigit (nibble : Nat) : Char := Char.ofNat (if nibble < 10 then '0'.toNat + nibble else 'A'.toNat + (nibble - 10))

def toHexString (bytes : List UInt8) : String :=
  String.ofList (bytes.flatMap fun byte => [hexDigit (byte.toNat / 16), hexDigit (byte.toNat % 16)])

def digitValue (c : Char) : Option Nat :=
  if '0' ≤ c ∧ c ≤ '9' then some (c.toNat - '0'.toNat)
  else if 'a' ≤ c ∧ c ≤ 'f' then some (c.toNat - 'a'.toNat + 10)
  else if 'A' ≤ c ∧ c ≤ 'F' then some (c.toNat - 'A'.toNat + 10)
  else none

def fromHexDigits : List Char → Result (List UInt8)
  | [] => .ok []
  | high :: low :: rest =>
    match digitValue high, digitValue low with
    | some h, some l => do return (16 * h + l).toUInt8 :: (← fromHexDigits rest)
    | _, _ => .error .format
  | [_] => .error .format

def fromHexString (hex : String) : Result (List UInt8) := fromHexDigits hex.toList

/-- The digits of a number in base 16, `0x` or not, and nothing after them. -/
def unsignedDigits (width : Nat) (text : List Char) : Result Nat :=
  let text := match text with
    | '0' :: 'x' :: rest | '0' :: 'X' :: rest => rest
    | _ => text
  let digits := text.takeWhile fun c => (digitValue c).isSome
  let value := digits.foldl (fun value c => 16 * value + (digitValue c).getD 0) 0
  if 2 ^ width ≤ value then .error .overflow
  else if digits.length = 0 ∨ digits.length < text.length then .error .format
  else .ok value

/-- `ToUInt32` and `ToUInt64` in base 16; `null` is zero. -/
def toUnsigned (width : Nat) : Option String → Result Nat
  | none => .ok 0
  | some value =>
    match value.toList with
    | [] => .error (.argumentOutOfRange "startIndex")
    | '-' :: _ => .error (.argument "String cannot contain a minus sign if the base is not 10.")
    | '+' :: rest => unsignedDigits width rest
    | text => unsignedDigits width text

end Convert

/-- `ToLowerInvariant`, for text without other letters than those of ASCII. -/
def toLowerInvariant (text : String) : String := text.map Char.toLower

namespace Hex

/-- A text of odd length is taken with a zero in front; `null` counts as empty. -/
def decode (hex : String) : Result (List UInt8) :=
  if hex.isEmpty then .ok []
  else Convert.fromHexString (if hex.length % 2 ≠ 0 then "0" ++ hex else hex)

end Hex

theorem digitValue_lower {nibble : Nat} (small : nibble < 16) :
    Convert.digitValue (Convert.hexDigit nibble).toLower = some nibble := by
  revert nibble
  decide

theorem fromHexDigits_lower (bytes : List UInt8) :
    Convert.fromHexDigits (toLowerInvariant (Convert.toHexString bytes)).toList = .ok bytes := by
  rw [toLowerInvariant, String.toList_map, Convert.toHexString, String.toList_ofList]
  induction bytes with
  | nil => rfl
  | cons byte rest ih =>
    have bound := byte.toNat_lt
    have whole : 16 * (byte.toNat / 16) + byte.toNat % 16 = byte.toNat := by omega
    simp only [flatMap_cons, cons_append, nil_append, map_cons, Convert.fromHexDigits,
      digitValue_lower (show byte.toNat / 16 < 16 by omega), digitValue_lower (show byte.toNat % 16 < 16 by omega), ih, whole]
    simp [Nat.toUInt8]

theorem decode_lower (bytes : List UInt8) :
    Hex.decode (toLowerInvariant (Convert.toHexString bytes)) = .ok bytes := by
  have read := fromHexDigits_lower bytes
  have even : (toLowerInvariant (Convert.toHexString bytes)).length % 2 = 0 := by
    rw [← String.length_toList, toLowerInvariant, String.toList_map, length_map, Convert.toHexString,
      String.toList_ofList, length_flatMap]
    simp [map_const']
  unfold Hex.decode
  split
  · next empty =>
    rw [String.isEmpty_iff.mp empty] at read
    exact read
  · rw [if_neg (not_not.mpr even)]
    exact read

def HexText (text : List Char) : Prop := ∀ c ∈ text, (Convert.digitValue c).isSome

instance (text : List Char) : Decidable (HexText text) := decidableBAll _ text

theorem fromHexDigits_error {text : List Char} {why : Exception} (fails : Convert.fromHexDigits text = .error why) :
    why = .format := by
  induction text using Convert.fromHexDigits.induct with
  | case1 => nomatch fails
  | case2 high low rest h l first second ih =>
    rw [Convert.fromHexDigits, first, second] at fails
    cases more : Convert.fromHexDigits rest with
    | ok bytes =>
      rw [more] at fails
      nomatch fails
    | error other =>
      rw [more] at fails
      cases fails
      exact ih more
  | case3 high low rest bad =>
    rw [Convert.fromHexDigits] at fails
    split at fails
    · next h l first second => exact absurd second (bad h l first)
    · cases fails
      rfl
  | case4 c =>
    cases fails
    rfl

theorem fromHexDigits_ok_iff (text : List Char) :
    (∃ bytes, Convert.fromHexDigits text = .ok bytes) ↔ text.length % 2 = 0 ∧ HexText text := by
  induction text using Convert.fromHexDigits.induct with
  | case1 => exact iff_of_true ⟨[], rfl⟩ ⟨rfl, fun _ => nofun⟩
  | case2 high low rest h l first second ih =>
    have even : (high :: low :: rest).length % 2 = rest.length % 2 := Nat.add_mod_right rest.length 2
    simp only [Convert.fromHexDigits, first, second, even, HexText, forall_mem_cons, isSome_some, true_and]
    rw [HexText] at ih
    rw [← ih]
    cases Convert.fromHexDigits rest <;> simp
  | case3 high low rest bad =>
    refine iff_of_false ?_ ?_
    · rintro ⟨bytes, read⟩
      rw [Convert.fromHexDigits] at read
      split at read
      · next h l first second => exact bad h l first second
      · nomatch read
    · rintro ⟨-, digits⟩
      obtain ⟨h, first⟩ := isSome_iff_exists.mp (digits high (by simp))
      obtain ⟨l, second⟩ := isSome_iff_exists.mp (digits low (by simp))
      exact bad h l first second
  | case4 c => exact iff_of_false (fun ⟨_, read⟩ => nomatch read) (fun ⟨even, _⟩ => nomatch even)

theorem decode_error {text : String} {why : Exception} (fails : Hex.decode text = .error why) : why = .format := by
  unfold Hex.decode at fails
  split at fails
  · nomatch fails
  · exact fromHexDigits_error fails

theorem decode_ok_iff (text : String) : (∃ bytes, Hex.decode text = .ok bytes) ↔ HexText text.toList := by
  unfold Hex.decode
  split
  · next empty =>
    rw [String.isEmpty_iff.mp empty]
    exact iff_of_true ⟨[], rfl⟩ (fun _ => nofun)
  · rw [Convert.fromHexString]
    split
    · next odd =>
      have zero : "0".toList = ['0'] := rfl
      have size : text.toList.length = text.length := String.length_toList
      rw [fromHexDigits_ok_iff, String.toList_append, length_append]
      simp only [zero, HexText, mem_append, mem_singleton, length_singleton]
      constructor
      · exact fun ⟨_, digits⟩ c member => digits c (.inr member)
      · intro digits
        refine ⟨by omega, ?_⟩
        rintro c (rfl | member)
        · decide
        · exact digits c member
    · next even =>
      rw [fromHexDigits_ok_iff, String.length_toList]
      exact ⟨fun h => h.2, fun digits => ⟨by omega, digits⟩⟩

theorem lower_of_digitValue {c : Char} {value : Nat} (read : Convert.digitValue c = some value) :
    value < 16 ∧ (Convert.hexDigit value).toLower = c.toLower := by
  have ascii : c.toNat < 128 := by
    have digit : c ≤ '9' ∨ c ≤ 'f' ∨ c ≤ 'F' := by
      unfold Convert.digitValue at read
      split at read
      · next range => exact .inl range.2
      · split at read
        · next range => exact .inr (.inl range.2)
        · split at read
          · next range => exact .inr (.inr range.2)
          · nomatch read
    have bound : ∀ last : Char, c ≤ last → c.toNat ≤ last.toNat := fun _ le => le
    rcases digit with le | le | le
    · exact lt_of_le_of_lt (bound _ le) (by decide)
    · exact lt_of_le_of_lt (bound _ le) (by decide)
    · exact lt_of_le_of_lt (bound _ le) (by decide)
  have all : ∀ n < 128, ∀ value ∈ Convert.digitValue (Char.ofNat n),
      value < 16 ∧ (Convert.hexDigit value).toLower = (Char.ofNat n).toLower := by decide
  have here := all c.toNat ascii
  rw [Char.ofNat_toNat] at here
  exact here value read

theorem lower_of_fromHexDigits {text : List Char} {bytes : List UInt8} (read : Convert.fromHexDigits text = .ok bytes) :
    (toLowerInvariant (Convert.toHexString bytes)).toList = text.map Char.toLower := by
  rw [toLowerInvariant, String.toList_map, Convert.toHexString, String.toList_ofList]
  induction text using Convert.fromHexDigits.induct generalizing bytes with
  | case1 =>
    cases read
    rfl
  | case2 high low rest h l first second ih =>
    rw [Convert.fromHexDigits, first, second] at read
    cases more : Convert.fromHexDigits rest with
    | error why =>
      rw [more] at read
      nomatch read
    | ok tail =>
      rw [more] at read
      cases read
      obtain ⟨hSmall, hLower⟩ := lower_of_digitValue first
      obtain ⟨lSmall, lLower⟩ := lower_of_digitValue second
      have value : (16 * h + l).toUInt8.toNat = 16 * h + l := UInt8.toNat_ofNat_of_lt (show _ < 2 ^ 8 by omega)
      have top : (16 * h + l) / 16 = h := by omega
      have bottom : (16 * h + l) % 16 = l := by omega
      simp only [flatMap_cons, value, top, bottom, cons_append, nil_append, map_cons, hLower, lLower,
        ih more]
  | case3 high low rest bad =>
    rw [Convert.fromHexDigits] at read
    split at read
    · next h l first second => exact absurd second (bad h l first)
    · nomatch read
  | case4 c => nomatch read

theorem lower_lower (bytes : List UInt8) :
    toLowerInvariant (toLowerInvariant (Convert.toHexString bytes)) = toLowerInvariant (Convert.toHexString bytes) := by
  refine String.toList_inj.mp ?_
  rw [toLowerInvariant, String.toList_map, ← lower_of_fromHexDigits (fromHexDigits_lower bytes)]

/-- The bytes of a text are written as the text was, with the zero that was put in front of it. -/
theorem lower_of_decode {text : String} {bytes : List UInt8} (read : Hex.decode text = .ok bytes) :
    toLowerInvariant (Convert.toHexString bytes) = toLowerInvariant (if text.length % 2 ≠ 0 then "0" ++ text else text) := by
  unfold Hex.decode at read
  split at read
  · next empty =>
    cases read
    rw [String.isEmpty_iff.mp empty]
    rfl
  · refine String.toList_inj.mp ?_
    rw [lower_of_fromHexDigits read, toLowerInvariant, String.toList_map]

theorem lower_of_decode_iff {text : String} {bytes : List UInt8} (read : Hex.decode text = .ok bytes) :
    toLowerInvariant (Convert.toHexString bytes) = toLowerInvariant text ↔ text.length % 2 = 0 := by
  rw [lower_of_decode read]
  constructor
  · intro same
    by_contra odd
    rw [if_pos odd] at same
    have sizes := congrArg (fun text => text.toList.length) same
    simp [toLowerInvariant, String.toList_map] at sizes
  · intro even
    rw [if_neg (not_not.mpr even)]

end ArcMiner.AkoyaCrypto
