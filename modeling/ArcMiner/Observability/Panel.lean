import ArcMiner.Library.CSharp
import ArcMiner.Library.Utf16

/-! Clipping a line of the dashboard to a width.

`DisplayWidth` and `Clip` scan the same text with loops of their own. A scan is a mode and the units that are left;
the two part at an escape that no bracket follows, which `Clip` copies with the unit after it. -/

namespace ArcMiner.Observability.Panel

open Library Library.CSharp Library.Utf16 List

def esc : UInt16 := 0x1B
def bracket : UInt16 := 0x5B
def ellipsis : UInt16 := 0x2026
def variationSelector : UInt16 := 0xFE0F
def reset : List UInt16 := [esc, bracket, 0x30, 0x6D]

def isWide (c : UInt16) : Bool :=
  c = 0x2139 || c = 0x2764 || (0x1100 ≤ c && c ≤ 0x115F) || (0x2E80 ≤ c && c ≤ 0xA4CF) || (0xAC00 ≤ c && c ≤ 0xD7A3) ||
    (0xF900 ≤ c && c ≤ 0xFAFF) || (0xFE30 ≤ c && c ≤ 0xFE4F) || (0xFF00 ≤ c && c ≤ 0xFF60) || (0xFFE0 ≤ c && c ≤ 0xFFE6)

def isPair (c : UInt16) (next : Option UInt16) : Bool := isHigh c && next.any isLow

def charWidth (c : UInt16) (next : Option UInt16) : Nat :=
  if isPair c next then
    if 0x1F000 ≤ 0x10000 + (c.toNat - 0xD800) * 0x400 + ((next.getD 0).toNat - 0xDC00) then 2 else 1
  else if c = variationSelector then 0
  else if 0x300 ≤ c ∧ c ≤ 0x36F then 0
  else if next = some variationSelector then 2
  else if isWide c then 2
  else 1

/-- Where a scan is: at a character, at the bracket after an escape, in the sequence up to its letter, or at the unit
that goes with the one before it. -/
inductive Mode where
  | text
  | bracket
  | sequence
  | second
deriving DecidableEq

section
variable (isLetter : UInt16 → Bool)

end

section
variable (isLetter : UInt16 → Bool) (maxWidth : Nat)

/-- What `Clip` copies in front of the first character that it finds no column for, if there is one. -/
def kept : Mode → Nat → List UInt16 → Option (List UInt16)
  | _, _, [] => none
  | .text, n, c :: rest =>
    if c = esc then (kept (if rest.head? = some bracket then .bracket else .second) n rest).map (c :: ·)
    else if maxWidth - 1 < n + charWidth c rest.head? then some []
    else (kept (if isPair c rest.head? then .second else .text) (n + charWidth c rest.head?) rest).map (c :: ·)
  | .bracket, n, c :: rest => (kept .sequence n rest).map (c :: ·)
  | .sequence, n, c :: rest => (kept (if isLetter c then .text else .sequence) n rest).map (c :: ·)
  | .second, n, c :: rest => (kept .text n rest).map (c :: ·)

end

section lookahead
variable {d : UInt16} (low : isLow d = false)
include low

end lookahead

section
variable {isLetter : UInt16 → Bool} {maxWidth : Nat}

/-- `Clip` returns the part kept and an ellipsis, or copies the text to its end. -/
def Copied (s : List UInt16) (clipped : Result (List UInt16 × Bool)) : Option (List UInt16) → Prop
  | some front => ∃ seen, clipped = .ok (front ++ [ellipsis], seen)
  | none => ∀ result, clipped = .ok result → result.1 = s

theorem Copied.cons {s : List UInt16} {clipped : Result (List UInt16 × Bool)} {front : Option (List UInt16)}
    (copied : Copied s clipped front) (c : UInt16) :
    Copied (c :: s) (clipped.map (.map (c :: ·) id)) (front.map (c :: ·)) := by
  cases front with
  | some front =>
    obtain ⟨seen, rfl⟩ := copied
    exact ⟨seen, rfl⟩
  | none =>
    rintro result more
    cases clipped with
    | error why => cases more
    | ok pair =>
      cases more
      exact congrArg (c :: ·) (copied pair rfl)

variable (plain : ∀ c ∈ [esc, bracket, 0x30], isLetter c = false)
include plain

end

end ArcMiner.Observability.Panel
