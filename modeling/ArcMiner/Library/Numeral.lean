import Mathlib.Algebra.Group.Int.Defs
import Mathlib.Algebra.Group.Nat.Defs
import Mathlib.Data.List.Basic

/-! Signed decimal numbers at the start of a text, as the libraries of C and .NET read them.

`atoi` takes the number at the start and ignores what follows; a number that does not fit
into an `int` leaves it undefined. `int.TryParse` takes a text that is nothing but a number,
with white space around it, and refuses every other one.
-/

namespace ArcMiner.Library

/-- White space of the C locale, which is also what .NET skips around a number. -/
def isSpace (c : Char) : Bool := (9 ≤ c.toNat && c.toNat ≤ 13) || c.toNat = 32

def decimalValue (digits : List Char) : Nat := digits.foldl (fun value c => 10 * value + (c.toNat - 48)) 0

/-- What a text begins with: digits with their sign, and what follows them. -/
structure Leading where
  negative : Bool
  digits : List Char
  rest : List Char
deriving DecidableEq

def Leading.value (found : Leading) : Int :=
  if found.negative then -(decimalValue found.digits : Int) else decimalValue found.digits

def takeSign : List Char → Bool × List Char
  | '-' :: rest => (true, rest)
  | '+' :: rest => (false, rest)
  | text => (false, text)

def leading (text : List Char) : Leading :=
  let (negative, body) := takeSign (text.dropWhile isSpace)
  ⟨negative, body.takeWhile Char.isDigit, body.dropWhile Char.isDigit⟩

def IsInt (x : Int) : Prop := -2 ^ 31 ≤ x ∧ x < 2 ^ 31

instance (x : Int) : Decidable (IsInt x) := inferInstanceAs (Decidable (_ ∧ _))

namespace CSharp

/-- `int.TryParse` with the signs of the invariant culture; behind the white space only zero characters may follow. -/
def tryParseInt (text : List Char) : Option Int :=
  let found := leading text
  if found.digits = [] then none
  else if ((found.rest.dropWhile isSpace).all fun c => c = '\x00') = false then none
  else if IsInt found.value then some found.value
  else none

theorem tryParseInt_eq_some {text : List Char} {v : Int} (parsed : tryParseInt text = some v) :
    (leading text).value = v ∧ IsInt v := by
  unfold tryParseInt at parsed
  simp only at parsed
  split_ifs at parsed with _ _ fits
  cases parsed
  exact ⟨rfl, fits⟩

end CSharp

structure Libc where
  atoi : List Char → Int
  atoi_isInt : ∀ text, IsInt (atoi text)
  atoi_of_fits : ∀ text, IsInt (leading text).value → atoi text = (leading text).value

def Libc.saturating : Libc where
  atoi text := max (-2 ^ 31) (min (leading text).value (2 ^ 31 - 1))
  atoi_isInt text := by
    unfold IsInt
    omega
  atoi_of_fits text fits := by
    unfold IsInt at fits
    omega

def Libc.positiveStart (libc : Libc) (text : Option String) : Option Int :=
  (text.map fun v => libc.atoi v.toList).filter fun v => 0 < v

theorem Libc.atoi_of_parsed (libc : Libc) {text : List Char} {v : Int} (parsed : CSharp.tryParseInt text = some v) :
    libc.atoi text = v := by
  obtain ⟨value, fits⟩ := CSharp.tryParseInt_eq_some parsed
  rw [libc.atoi_of_fits text (value ▸ fits), value]

end ArcMiner.Library
