import ArcMiner.Library.CSharp
import ArcMiner.Library.Json

/-! Reading JSON values in C#.

A `JsonElement` is a value whose accessors throw when it is of another kind. The fields of a class
are filled from the members of an object, and anything that does not fit a field is a `JsonException`.
A string whose surrogates are not paired cannot be read by either.
-/

namespace ArcMiner.Library.CSharp

def textOf (units : List UInt16) : Option String :=
  if Utf16.Paired units then some (String.ofList (Utf16.decode units)) else none

def integerOf (literal : List Char) : Option Int :=
  match literal with
  | '-' :: digits => if digits.all Char.isDigit then some (-(Nat.ofDigitChars 10 digits 0 : Int)) else none
  | digits => if digits.all Char.isDigit then some (Nat.ofDigitChars 10 digits 0) else none

def integerIn (low high : Int) (literal : List Char) : Option Int :=
  (integerOf literal).filter fun n => low ≤ n ∧ n ≤ high

namespace JsonElement

def otherKind {α : Type} : Result α := .error (.invalidOperation "the element is of another kind")

def getString : Json → Result (Option String)
  | .null => .ok none
  | .string units =>
    match textOf units with
    | some text => .ok (some text)
    | none => .error (.invalidOperation "incomplete UTF-16 text")
  | _ => otherKind

def getInteger (low high : Int) : Json → Result Int
  | .number literal =>
    match integerIn low high literal with
    | some n => .ok n
    | none => .error .format
  | _ => otherKind

def getInt64 : Json → Result Int := getInteger (-2 ^ 63) (2 ^ 63 - 1)

def getUInt32 : Json → Result Int := getInteger 0 (2 ^ 32 - 1)

def enumerateArray : Json → Result (List Json)
  | .array items => .ok items
  | _ => otherKind

def toString (raw : Json → String) : Json → Result String
  | .string units => do return (← getString (.string units)).getD ""
  | json => .ok (raw json)

end JsonElement

namespace JsonSerializer

def membersOf : Json → Result (List (List UInt16 × Json))
  | .object members => if ∀ member ∈ members, Utf16.Paired member.1 then .ok members else .error .json
  | _ => .error .json

/-- A field is filled from every member of its name in turn, so the last one stays and each of them has to fit. -/
def fill {α : Type} (name : String) (missing : α) (convert : Json → Result α) (members : List (List UInt16 × Json)) :
    Result α :=
  (members.filter fun member => member.1 = Utf16.encode name.toList).foldlM (fun _ member => convert member.2) missing

def integer (low high : Int) : Json → Result Int
  | .number literal =>
    match integerIn low high literal with
    | some n => .ok n
    | none => .error .json
  | _ => .error .json

def nullableInteger (low high : Int) : Json → Result (Option Int)
  | .null => .ok none
  | json => some <$> integer low high json

def string : Json → Result (Option String)
  | .null => .ok none
  | .string units =>
    match textOf units with
    | some text => .ok (some text)
    | none => .error .json
  | _ => .error .json

/-- A `JsonElement?` field, which is null for the JSON null. -/
def element : Json → Result (Option Json)
  | .null => .ok none
  | json => .ok (some json)

/-- Reading that throws nothing but a `JsonException`. -/
def OnlyJson {α : Type} (result : Result α) : Prop := ∀ why, result = .error why → why = .json

section onlyJson
variable {α β : Type}

theorem OnlyJson.ok (a : α) : OnlyJson (.ok a : Result α) := nofun

theorem OnlyJson.json : OnlyJson (.error .json : Result α) := by
  rintro why ⟨⟩
  rfl

theorem OnlyJson.bind {result : Result α} {next : α → Result β} (first : OnlyJson result)
    (second : ∀ a, OnlyJson (next a)) : OnlyJson (result >>= next) := by
  cases result with
  | ok a => exact second a
  | error why => exact first why rfl ▸ .json

theorem onlyJson_membersOf (value : Json) : OnlyJson (membersOf value) := by
  unfold membersOf
  split
  · split
    · exact .ok _
    · exact .json
  · exact .json

theorem onlyJson_fill (name : String) (missing : α) {convert : Json → Result α} (each : ∀ json, OnlyJson (convert json))
    (members : List (List UInt16 × Json)) : OnlyJson (fill name missing convert members) := by
  unfold fill
  induction members.filter fun member => member.1 = Utf16.encode name.toList generalizing missing with
  | nil => exact .ok missing
  | cons member rest ih => exact (each member.2).bind fun value => ih value

theorem onlyJson_integer (low high : Int) (json : Json) : OnlyJson (integer low high json) := by
  unfold integer
  split
  · split
    · exact .ok _
    · exact .json
  · exact .json

theorem onlyJson_nullableInteger (low high : Int) (json : Json) : OnlyJson (nullableInteger low high json) := by
  unfold nullableInteger
  split
  · exact .ok _
  · exact (onlyJson_integer low high json).bind fun n => .ok (some n)

theorem onlyJson_string (json : Json) : OnlyJson (string json) := by
  unfold string
  split
  · exact .ok _
  · split
    · exact .ok _
    · exact .json
  · exact .json

theorem onlyJson_element (json : Json) : OnlyJson (element json) := by
  unfold element
  split <;> exact .ok _

end onlyJson
end JsonSerializer
end ArcMiner.Library.CSharp
