import ArcMiner.Library.Except
import ArcMiner.Library.JsonElement

/-! Members of a `JsonElement` by name.

The search runs from the last member to the first. A name that is written with escapes is only
unescaped when it could be the one that is looked for, and that throws if its surrogates are not
paired; which names the search stumbles over is a parameter, since a value does not show how its names
were written.
-/

namespace ArcMiner.Library.CSharp.JsonElement

/-- Whether the search for a name throws at a member of another name. -/
structure Lookup where
  stumbles : String → List UInt16 → Bool
  onlyUnpaired : ∀ name key, stumbles name key = true → ¬Utf16.Paired key

def Lookup.smooth : Lookup := ⟨fun _ _ => false, nofun⟩

variable (lookup : Lookup)

def findMember (name : String) : List (List UInt16 × Json) → Result (Option Json)
  | [] => .ok none
  | (key, value) :: rest =>
    if key = Utf16.encode name.toList then .ok (some value)
    else if lookup.stumbles name key then .error (.invalidOperation "invalid UTF-16 text")
    else findMember name rest

def tryGetProperty (name : String) : Json → Result (Option Json)
  | .object members => findMember lookup name members.reverse
  | _ => otherKind

/-- `GetProperty` throws a `KeyNotFoundException` for a missing member. -/
def getProperty (name : String) (element : Json) : Result Json := do
  match ← tryGetProperty lookup name element with
  | some value => return value
  | none => throw (.application "KeyNotFoundException" 0 "")

def requiredText (name : String) (element : Json) : Result String := do
  let value ← getProperty lookup name element
  return (← getString value).getD ""

def optionalText (name : String) (element : Json) : Result String := do
  match ← tryGetProperty lookup name element with
  | some value => return (← getString value).getD ""
  | none => return ""

def Searchable (name : String) : Json → Prop
  | .object members =>
    ∀ member ∈ members.reverse.takeWhile fun member => member.1 ≠ Utf16.encode name.toList,
      lookup.stumbles name member.1 = false
  | _ => False

def memberOf (name : String) (element : Json) : Option Json := (tryGetProperty lookup name element).toOption.join

theorem findMember_isOk_iff (name : String) (members : List (List UInt16 × Json)) :
    (∃ found, findMember lookup name members = .ok found) ↔
      ∀ member ∈ members.takeWhile (fun member => member.1 ≠ Utf16.encode name.toList),
        lookup.stumbles name member.1 = false := by
  induction members with
  | nil => simp [findMember]
  | cons member rest ih =>
    obtain ⟨key, value⟩ := member
    by_cases same : key = Utf16.encode name.toList
    · simp [findMember, same]
    · cases stumbles : lookup.stumbles name key with
      | false => simpa [findMember, same, stumbles] using ih
      | true => simp [findMember, same, stumbles]

theorem tryGetProperty_isOk_iff (name : String) (element : Json) :
    (∃ found, tryGetProperty lookup name element = .ok found) ↔ Searchable lookup name element := by
  cases element with
  | object members => exact findMember_isOk_iff lookup name members.reverse
  | null | bool | number | string | array => exact iff_of_false (by rintro ⟨_, ⟨⟩⟩) id

variable {lookup}

theorem bind_isOk_iff {α : Type} {name : String} {element : Json} {rest : Option Json → Result α} :
    (∃ value, (tryGetProperty lookup name element >>= rest) = .ok value) ↔
      Searchable lookup name element ∧ ∃ value, rest (memberOf lookup name element) = .ok value := by
  rw [← tryGetProperty_isOk_iff, memberOf]
  cases tryGetProperty lookup name element with
  | error thrown => exact iff_of_false (by rintro ⟨_, ⟨⟩⟩) (by rintro ⟨⟨_, ⟨⟩⟩, _⟩)
  | ok found => exact (and_iff_right ⟨found, rfl⟩).symm

end ArcMiner.Library.CSharp.JsonElement
