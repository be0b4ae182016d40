import ArcMiner.Library.Reader
import ArcMiner.Library.Utf16

/-! JSON values and the text that spells them.

A string is the list of UTF-16 code units that it spells, whether or not its surrogates
are paired. A number is kept as it is written.
-/

namespace ArcMiner.Library

inductive Json where
  | null
  | bool (value : Bool)
  | number (literal : List Char)
  | string (units : List UInt16)
  | array (items : List Json)
  | object (members : List (List UInt16 × Json))

namespace Json

open Reader List Option

section grammar

def isWhitespace (c : Char) : Bool := c = ' ' || c = '\t' || c = '\n' || c = '\r'

def whitespace : Reader Char Unit := fun input => some ((), input.dropWhile isWhitespace)

def expect (c : Char) : Reader Char Unit
  | [] => none
  | first :: rest => if first = c then some ((), rest) else none

def hexValue (c : Char) : Option Nat :=
  if '0' ≤ c ∧ c ≤ '9' then some (c.toNat - '0'.toNat)
  else if 'a' ≤ c ∧ c ≤ 'f' then some (c.toNat - 'a'.toNat + 10)
  else if 'A' ≤ c ∧ c ≤ 'F' then some (c.toNat - 'A'.toNat + 10)
  else none

def hexUnit (a b c d : Char) : Option UInt16 := do
  let a ← hexValue a
  let b ← hexValue b
  let c ← hexValue c
  let d ← hexValue d
  return (((a * 16 + b) * 16 + c) * 16 + d).toUInt16

def escaped (c : Char) : Option UInt16 :=
  if c = '"' ∨ c = '\\' ∨ c = '/' then some c.toNat.toUInt16
  else if c = 'b' then some 8
  else if c = 'f' then some 12
  else if c = 'n' then some 10
  else if c = 'r' then some 13
  else if c = 't' then some 9
  else none

def isPlain (c : Char) : Bool := 0x20 ≤ c.toNat

def stringBody : List Char → Option (List UInt16 × List Char)
  | [] => none
  | '"' :: rest => some ([], rest)
  | '\\' :: 'u' :: a :: b :: c :: d :: rest =>
    (hexUnit a b c d).bind fun unit => (stringBody rest).map fun (units, rest) => (unit :: units, rest)
  | '\\' :: e :: rest => (escaped e).bind fun unit => (stringBody rest).map fun (units, rest) => (unit :: units, rest)
  | c :: rest =>
    if isPlain c then (stringBody rest).map fun (units, rest) => (Utf16.encodeChar c ++ units, rest) else none

def digits : Reader Char (List Char) := fun input =>
  match input.takeWhile Char.isDigit with
  | [] => none
  | taken => some (taken, input.dropWhile Char.isDigit)

def wholePart : Reader Char (List Char)
  | '0' :: rest => some (['0'], rest)
  | input => digits input

def fraction : Reader Char (List Char)
  | '.' :: rest => (digits rest).map fun (taken, rest) => ('.' :: taken, rest)
  | input => some ([], input)

def isSign (c : Char) : Bool := c = '+' || c = '-'

def exponent : Reader Char (List Char)
  | mark :: rest =>
    if mark = 'e' ∨ mark = 'E' then
      match rest with
      | sign :: rest' =>
        if isSign sign then (digits rest').map fun (taken, rest) => (mark :: sign :: taken, rest)
        else (digits rest).map fun (taken, rest) => (mark :: taken, rest)
      | [] => none
    else some ([], mark :: rest)
  | [] => some ([], [])

def unsigned : Reader Char (List Char) := do
  let whole ← wholePart
  let fraction ← fraction
  let exponent ← exponent
  pure (whole ++ fraction ++ exponent)

def numberLiteral : Reader Char (List Char)
  | '-' :: rest => (unsigned rest).map fun (taken, rest) => ('-' :: taken, rest)
  | input => unsigned input

def word (text : List Char) : Reader Char Unit := fun input =>
  if input.take text.length = text then some ((), input.drop text.length) else none

section items
variable (item : Reader Char Json)

/-- The items of an array after its opening bracket, `count` at most. -/
def elements : Nat → Reader Char (List Json)
  | 0 => failure
  | count + 1 => do
    let first ← item
    whitespace
    let mark ← token
    if mark = ',' then
      let rest ← elements count
      pure (first :: rest)
    else if mark = ']' then pure [first]
    else failure

def key : Reader Char (List UInt16) := do
  whitespace
  expect '"'
  let name ← (stringBody : Reader Char (List UInt16))
  whitespace
  expect ':'
  pure name

/-- The members of an object after its opening brace, `count` at most. -/
def members : Nat → Reader Char (List (List UInt16 × Json))
  | 0 => failure
  | count + 1 => do
    let name ← key
    let value ← item
    whitespace
    let mark ← token
    if mark = ',' then
      let rest ← members count
      pure ((name, value) :: rest)
    else if mark = '\x7d' then pure [(name, value)]
    else failure

end items

def bracketed {α : Type} (close : Char) (items : Reader Char (List α)) : Reader Char (List α) := do
  whitespace
  fun
    | [] => none
    | c :: rest => if c = close then some ([], rest) else items (c :: rest)

/-- A value nested `fuel` deep at most, in sequences of `fuel` items at most. -/
def value : Nat → Reader Char Json
  | 0 => failure
  | fuel + 1 => do
    whitespace
    fun
      | [] => none
      | c :: rest =>
        if c = '"' then (stringBody rest).map fun (units, rest) => (.string units, rest)
        else if c = '\x7b' then
          (bracketed '\x7d' (members (value fuel) fuel) rest).map fun (members, rest) => (.object members, rest)
        else if c = '[' then
          (bracketed ']' (elements (value fuel) fuel) rest).map fun (items, rest) => (.array items, rest)
        else if c = 't' then (word ['t', 'r', 'u', 'e'] (c :: rest)).map fun (_, rest) => (.bool true, rest)
        else if c = 'f' then (word ['f', 'a', 'l', 's', 'e'] (c :: rest)).map fun (_, rest) => (.bool false, rest)
        else if c = 'n' then (word ['n', 'u', 'l', 'l'] (c :: rest)).map fun (_, rest) => (.null, rest)
        else (numberLiteral (c :: rest)).map fun (literal, rest) => (.number literal, rest)

def parse (text : List Char) : Option Json :=
  match value (text.length + 1) text with
  | some (json, rest) => if rest.dropWhile isWhitespace = [] then some json else none
  | none => none

end grammar

section strings

def escapeChar (c : Char) : List Char := if c = '\\' ∨ c = '"' then ['\\', c] else [c]

def escape (text : List Char) : List Char := text.flatMap escapeChar

def Printable (text : List Char) : Prop := ∀ c ∈ text, isPlain c

instance (text : List Char) : Decidable (Printable text) := decidableBAll _ text

theorem printable_cons (c : Char) (text : List Char) : Printable (c :: text) ↔ isPlain c ∧ Printable text :=
  forall_mem_cons

theorem printable_append (front back : List Char) : Printable (front ++ back) ↔ Printable front ∧ Printable back :=
  forall_mem_append

theorem printable_escape {text : List Char} (shown : Printable text) : Printable (escape text) := by
  intro c member
  obtain ⟨original, inside, found⟩ := mem_flatMap.mp member
  unfold escapeChar at found
  split at found
  · rcases mem_cons.mp found with rfl | found
    · rfl
    · exact mem_singleton.mp found ▸ shown original inside
  · exact mem_singleton.mp found ▸ shown original inside

theorem stringBody_escapeChar (c : Char) (rest : List Char) :
    stringBody (escapeChar c ++ rest) =
      if isPlain c then (stringBody rest).map fun (units, rest) => (Utf16.encodeChar c ++ units, rest) else none := by
  by_cases special : c = '\\' ∨ c = '"'
  · rcases special with rfl | rfl <;> simp [escapeChar, stringBody, escaped, isPlain, Utf16.encodeChar]
  · obtain ⟨plain, unquoted⟩ := not_or.mp special
    rw [escapeChar, if_neg special, singleton_append, stringBody]
    all_goals simp_all

theorem stringBody_escape (text rest : List Char) :
    stringBody (escape text ++ '"' :: rest) = if Printable text then some (Utf16.encode text, rest) else none := by
  induction text with
  | nil => simp [escape, stringBody, Printable, Utf16.encode]
  | cons c text ih =>
    rw [escape, flatMap_cons, append_assoc, stringBody_escapeChar]
    change (if _ then (stringBody (escape text ++ '"' :: rest)).map _ else none) = _
    rw [ih]
    by_cases shown : isPlain c <;> by_cases later : Printable text <;> simp [printable_cons, shown, later, Utf16.encode]

def stringItems : List (List Char) → List Char
  | [] => [']']
  | [text] => '"' :: (escape text ++ ['"', ']'])
  | text :: texts => '"' :: (escape text ++ '"' :: ',' :: stringItems texts)

theorem printable_stringItems {texts : List (List Char)} (shown : ∀ text ∈ texts, Printable text) :
    Printable (stringItems texts) := by
  induction texts with
  | nil => decide
  | cons text texts ih =>
    have escaped := printable_escape (shown text mem_cons_self)
    have later := ih (fun other member => shown other (mem_cons_of_mem text member))
    cases texts with
    | nil => exact (printable_cons _ _).mpr ⟨rfl, (printable_append _ _).mpr ⟨escaped, by decide⟩⟩
    | cons next texts =>
      refine (printable_cons _ _).mpr ⟨rfl, (printable_append _ _).mpr ⟨escaped, ?_⟩⟩
      exact (printable_cons _ _).mpr ⟨rfl, (printable_cons _ _).mpr ⟨rfl, later⟩⟩

def ofText (text : List Char) : Json := .string (Utf16.encode text)

theorem value_string (fuel : Nat) (input : List Char) :
    value (fuel + 1) ('"' :: input) = (stringBody input).map fun (units, rest) => (.string units, rest) := rfl

theorem value_escape (fuel : Nat) (text rest : List Char) :
    value (fuel + 1) ('"' :: (escape text ++ '"' :: rest)) = if Printable text then some (ofText text, rest) else none := by
  rw [value_string, stringBody_escape]
  split <;> rfl

variable {item : Reader Char Json} (count : Nat)

theorem elements_more {input rest : List Char} {first : Json} (read : item input = some (first, ',' :: rest)) :
    elements item (count + 1) input = (elements item count rest).map fun (items, rest) => (first :: items, rest) := by
  rw [elements, bind_eq, read]
  change (elements item count >>= fun items => pure (first :: items) : Reader Char (List Json)) rest = _
  rw [bind_eq]
  cases elements item count rest <;> rfl

theorem elements_last {input rest : List Char} {first : Json}
    (read : item input = some (first, ']' :: rest)) : elements item (count + 1) input = some ([first], rest) := by
  rw [elements, bind_eq, read]
  rfl

theorem elements_none {input : List Char} (fails : item input = none) : elements item (count + 1) input = none := by
  rw [elements, bind_eq, fails]
  rfl

theorem members_more {input afterKey rest : List Char} {name : List UInt16}
    {value : Json} (named : key input = some (name, afterKey)) (read : item afterKey = some (value, ',' :: rest)) :
    members item (count + 1) input =
      (members item count rest).map fun (members, rest) => ((name, value) :: members, rest) := by
  rw [members, bind_eq, named, bind_some]
  dsimp only
  rw [bind_eq, read]
  change (members item count >>= fun members => pure ((name, value) :: members) :
    Reader Char (List (List UInt16 × Json))) rest = _
  rw [bind_eq]
  cases members item count rest <;> rfl

theorem members_last {input afterKey rest : List Char} {name : List UInt16}
    {value : Json} (named : key input = some (name, afterKey)) (read : item afterKey = some (value, '\x7d' :: rest)) :
    members item (count + 1) input = some ([(name, value)], rest) := by
  rw [members, bind_eq, named, bind_some]
  dsimp only
  rw [bind_eq, read]
  rfl

theorem members_none {input afterKey : List Char} {name : List UInt16}
    (named : key input = some (name, afterKey)) (fails : item afterKey = none) :
    members item (count + 1) input = none := by
  rw [members, bind_eq, named, bind_some]
  dsimp only
  rw [bind_eq, fails]
  rfl

theorem elements_stringItems (fuel : Nat) {texts : List (List Char)} (filled : texts ≠ []) {count : Nat}
    (enough : texts.length ≤ count) (rest : List Char) :
    elements (value (fuel + 1)) count (stringItems texts ++ rest) =
      if ∀ text ∈ texts, Printable text then some (texts.map ofText, rest) else none := by
  induction texts generalizing count with
  | nil => exact absurd rfl filled
  | cons text texts ih =>
    obtain ⟨count, rfl⟩ : ∃ n, count = n + 1 := Nat.exists_eq_add_of_le' (Nat.le_trans (by simp) enough)
    have read := value_escape fuel text
    cases texts with
    | nil =>
      have here : stringItems [text] ++ rest = '"' :: (escape text ++ '"' :: (']' :: rest)) := by simp [stringItems]
      rw [here]
      by_cases shown : Printable text
      · rw [elements_last count ((read _).trans (if_pos shown))]
        simp [shown]
      · rw [elements_none count ((read _).trans (if_neg shown))]
        simp [shown]
    | cons next texts =>
      have here : stringItems (text :: next :: texts) ++ rest =
          '"' :: (escape text ++ '"' :: (',' :: (stringItems (next :: texts) ++ rest))) := by simp [stringItems]
      rw [here]
      by_cases shown : Printable text
      · rw [elements_more count ((read _).trans (if_pos shown)), ih (by simp) (by simpa using enough)]
        split
        · next later => simp_all
        · next later => simp_all
      · rw [elements_none count ((read _).trans (if_neg shown)), if_neg (fun all => shown (all text (by simp)))]

theorem value_array (fuel : Nat) {input : List Char} (starts : ∃ more, input = '"' :: more) :
    value (fuel + 1) ('[' :: input) = (elements (value fuel) fuel input).map fun (items, rest) => (.array items, rest) := by
  obtain ⟨more, rfl⟩ := starts
  rfl

theorem value_object (fuel : Nat) {input : List Char} (starts : ∃ more, input = '"' :: more) :
    value (fuel + 1) ('\x7b' :: input) =
      (members (value fuel) fuel input).map fun (members, rest) => (.object members, rest) := by
  obtain ⟨more, rfl⟩ := starts
  rfl

end strings

section numbers

def decimal (n : Int) : List Char := if n < 0 then '-' :: Nat.toDigits 10 n.natAbs else Nat.toDigits 10 n.natAbs

theorem digits_append {taken : List Char} (filled : taken ≠ []) (all : ∀ c ∈ taken, c.isDigit) {stop : Char}
    (other : stop.isDigit = false) (rest : List Char) : digits (taken ++ stop :: rest) = some (taken, stop :: rest) := by
  have front : (taken ++ stop :: rest).takeWhile Char.isDigit = taken := by
    rw [takeWhile_append_of_pos all, takeWhile_cons, other]
    exact append_nil taken
  have back : (taken ++ stop :: rest).dropWhile Char.isDigit = stop :: rest := by
    rw [dropWhile_append_of_pos all, dropWhile_cons, other]
    rfl
  unfold digits
  rw [front, back]
  cases taken with
  | nil => exact absurd rfl filled
  | cons c taken => rfl

theorem toDigits_head {n : Nat} (positive : 0 < n) : ∃ first rest, Nat.toDigits 10 n = first :: rest ∧ first ≠ '0' := by
  induction n using Nat.strongRecOn with
  | ind n ih =>
    by_cases small : n < 10
    · have nonzero : ∀ digit < 10, 0 < digit → digit.digitChar ≠ '0' := by decide
      exact ⟨_, [], Nat.toDigits_of_lt_base small, nonzero n small positive⟩
    · obtain ⟨first, rest, same, nonzero⟩ := ih (n / 10) (by omega) (by omega)
      exact ⟨first, rest ++ [(n % 10).digitChar], by rw [Nat.toDigits_of_base_le (by decide) (by omega), same]; rfl, nonzero⟩

theorem toDigits_cons (n : Nat) : ∃ first rest, Nat.toDigits 10 n = first :: rest ∧ first.isDigit := by
  obtain ⟨first, rest, same⟩ := exists_cons_of_ne_nil (Nat.toDigits_ne_nil (b := 10) (n := n))
  have member : first ∈ Nat.toDigits 10 n := same ▸ mem_cons_self
  exact ⟨first, rest, same, Nat.isDigit_of_mem_toDigits (by decide) (by decide) member⟩

theorem wholePart_toDigits (n : Nat) {stop : Char} (other : stop.isDigit = false) (rest : List Char) :
    wholePart (Nat.toDigits 10 n ++ stop :: rest) = some (Nat.toDigits 10 n, stop :: rest) := by
  rcases Nat.eq_zero_or_pos n with rfl | positive
  · rw [Nat.toDigits_zero]
    rfl
  · have whole := digits_append Nat.toDigits_ne_nil
      (fun c (member : c ∈ Nat.toDigits 10 n) => Nat.isDigit_of_mem_toDigits (by decide) (by decide) member) other rest
    obtain ⟨first, more, same, nonzero⟩ := toDigits_head positive
    rw [same] at whole ⊢
    rw [cons_append] at whole ⊢
    rw [wholePart, whole]
    rintro _ ⟨⟩
    exact nonzero rfl

def EndsMember (stop : Char) : Prop := stop = ',' ∨ stop = '\x7d'

theorem unsigned_toDigits (n : Nat) {stop : Char} (ends : EndsMember stop) (rest : List Char) :
    unsigned (Nat.toDigits 10 n ++ stop :: rest) = some (Nat.toDigits 10 n, stop :: rest) := by
  have whole : (some (Nat.toDigits 10 n ++ [] ++ [], stop :: rest) : Option (List Char × List Char)) =
      some (Nat.toDigits 10 n, stop :: rest) := by rw [append_nil, append_nil]
  rcases ends with rfl | rfl
  all_goals
    rw [unsigned, bind_eq, wholePart_toDigits n (by decide)]
    exact whole

theorem numberLiteral_decimal (n : Int) {stop : Char} (ends : EndsMember stop) (rest : List Char) :
    numberLiteral (decimal n ++ stop :: rest) = some (decimal n, stop :: rest) := by
  have read := unsigned_toDigits n.natAbs ends rest
  unfold decimal
  split
  · rw [cons_append, numberLiteral, read]
    rfl
  · obtain ⟨first, more, same, digit⟩ := toDigits_cons n.natAbs
    rw [same] at read ⊢
    rw [cons_append] at read ⊢
    rw [numberLiteral, read]
    rintro _ ⟨⟩
    exact absurd digit (by decide)

theorem isPlain_of_isDigit {c : Char} (digit : c.isDigit) : isPlain c := by
  simp only [Char.isDigit, Bool.and_eq_true, decide_eq_true_eq] at digit
  have above : 48 ≤ c.toNat := UInt32.le_iff_toNat_le.mp digit.1
  simp only [isPlain, decide_eq_true_eq]
  omega

theorem printable_decimal (n : Int) : Printable (decimal n) := by
  have shown : Printable (Nat.toDigits 10 n.natAbs) := fun c member =>
    isPlain_of_isDigit (Nat.isDigit_of_mem_toDigits (by decide) (by decide) member)
  unfold decimal
  split
  · exact (printable_cons _ _).mpr ⟨rfl, shown⟩
  · exact shown

theorem decimal_head (n : Int) : ∃ first rest, decimal n = first :: rest ∧ (first = '-' ∨ first.isDigit) := by
  unfold decimal
  split
  · exact ⟨'-', _, rfl, .inl rfl⟩
  · obtain ⟨first, more, same, digit⟩ := toDigits_cons n.natAbs
    exact ⟨first, more, same, .inr digit⟩

theorem value_decimal (fuel : Nat) (n : Int) {stop : Char} (ends : EndsMember stop) (rest : List Char) :
    value (fuel + 1) (decimal n ++ stop :: rest) = some (.number (decimal n), stop :: rest) := by
  have read := numberLiteral_decimal n ends rest
  obtain ⟨first, more, same, start⟩ := decimal_head n
  rw [same] at read ⊢
  rw [cons_append] at read ⊢
  have plain : ∀ c : Char, c.isDigit = false → c ≠ '-' → first ≠ c := by
    rintro c other unsigned rfl
    rcases start with minus | digit
    · exact unsigned minus
    · rw [other] at digit
      nomatch digit
  have solid : isWhitespace first = false := by
    simp [isWhitespace, plain ' ' (by decide) (by decide), plain '\t' (by decide) (by decide),
      plain '\n' (by decide) (by decide), plain '\r' (by decide) (by decide)]
  have skipped : (first :: (more ++ stop :: rest)).dropWhile isWhitespace = first :: (more ++ stop :: rest) := by
    rw [dropWhile_cons, solid]
    rfl
  rw [value, bind_eq, whitespace, skipped, bind_some]
  dsimp only
  rw [if_neg (plain '"' (by decide) (by decide)), if_neg (plain '\x7b' (by decide) (by decide)),
    if_neg (plain '[' (by decide) (by decide)), if_neg (plain 't' (by decide) (by decide)),
    if_neg (plain 'f' (by decide) (by decide)), if_neg (plain 'n' (by decide) (by decide)), read]
  rfl

end numbers
end Json
end ArcMiner.Library
