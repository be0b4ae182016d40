import ArcMiner.Library.MachineInt

/-! Results, arrays, spans and texts of C# code. -/

namespace ArcMiner.Library.CSharp

inductive Exception where
  | argument (message : String)
  | argumentOutOfRange (parameter : String)
  | argumentOutOfRangeWith (parameter message : String)
  | notSupported (message : String)
  | indexOutOfRange
  | divideByZero
  | overflow
  | invalidData (message : String)
  | invalidOperation (message : String)
  | format
  | nullReference
  | argumentNull (parameter : String)
  | json
  | objectDisposed (name : String)
  | application (type : String) (code : Int) (message : String)
deriving DecidableEq

abbrev Result := Except Exception

/-- A `ReadOnlySpan<byte>`, whose length is an `int`. -/
structure Span where
  bytes : List UInt8
  fits : bytes.length < 2 ^ 31

def index {α : Type} (array : List α) (i : Int) : Result α :=
  if i < 0 then .error .indexOutOfRange
  else match array[i.toNat]? with
    | some value => .ok value
    | none => .error .indexOutOfRange

/-- One element of an array through `AsSpan`, which checks its range. -/
def spanAt {α : Type} (array : List α) (i : Nat) : Result α :=
  match array[i]? with
  | some value => .ok value
  | none => .error (.argumentOutOfRange "start")

theorem index_of_entry {α : Type} {array : List α} {i : Nat} {value : α} (entry : array[i]? = some value) :
    index array (i : Int) = .ok value := by
  unfold index
  rw [if_neg (by omega), Int.toNat_natCast, entry]

theorem index_of_lt {α : Type} [Inhabited α] {array : List α} {i : Nat} (inside : i < array.length) :
    index array (i : Int) = .ok (array.getD i default) := by
  refine index_of_entry ?_
  rw [List.getD_eq_getElem?_getD, List.getElem?_eq_getElem inside]
  rfl

def isWhiteSpace (c : Char) : Bool :=
  let n := c.toNat
  (9 ≤ n && n ≤ 13) || n = 0x20 || n = 0x85 || n = 0xA0 || n = 0x1680 || (0x2000 ≤ n && n ≤ 0x200A) || n = 0x2028 ||
    n = 0x2029 || n = 0x202F || n = 0x205F || n = 0x3000

def isBlank (text : String) : Bool := text.toList.all isWhiteSpace

def trimStart (text : List Char) : List Char := text.dropWhile isWhiteSpace

def trim (text : String) : String := String.ofList (trimStart (trimStart text.toList).reverse).reverse

/-- `StartsWith` with `StringComparison.OrdinalIgnoreCase`, for a start of ASCII letters and signs in lower case. -/
def startsWithIgnoreCase (start : String) (text : String) : Bool :=
  (text.toList.take start.length).map Char.toLower = start.toList

/-- `Equals` with `StringComparison.OrdinalIgnoreCase`, for a word of ASCII letters in lower case. -/
def equalsIgnoreCase (word : String) (text : String) : Bool := text.toList.map Char.toLower = word.toList

end ArcMiner.Library.CSharp
