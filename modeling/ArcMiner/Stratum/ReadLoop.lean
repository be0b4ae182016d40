import ArcMiner.Stratum.BitcoinStratumDialect
import ArcMiner.Stratum.CryptoNoteStratumDialect
import ArcMiner.Stratum.StratumSession

/-! The read loop of the shared stratum session, under either dialect.

A line that is not JSON is skipped. Everything else that goes wrong while a line is handled leaves the
loop as an exception. Which ids are in the table of pending requests when a line is handled is given
with the line. Neither dialect takes unmatched responses.
-/

namespace ArcMiner.Stratum.StratumSession

open Library Library.CSharp BitcoinStratumDialect JsonElement

/-- What the loop meets: a line with the ids that are awaited then, the end of the stream, a cancellation. -/
inductive Input where
  | line (text : List Char) (awaited : Int → Bool)
  | closed
  | canceled

inductive LoopEnd where
  /-- The loop waits for more. -/
  | reading
  | closed
  | canceled
  | faulted (thrown : Exception)
deriving DecidableEq

structure Reader (σ : Type) where
  dialect : σ
  responses : List Frame
  /-- How many lines were handled. -/
  lines : Nat

section
variable {σ : Type} (lookup : JsonElement.Lookup) (parse : List Char → Option Json)
  (onNotification : String → Json → σ → Result σ)

def readResponse (id : Int) (root : Json) : Result Frame := do
  match ← tryGetProperty lookup "error" root with
  | none => return ⟨id, none, ← tryGetProperty lookup "result" root⟩
  | some .null => return ⟨id, some .null, ← tryGetProperty lookup "result" root⟩
  | some error => return ⟨id, some error, none⟩

def takeResponse (awaited : Int → Bool) (id : Int) (root : Json) (reader : Reader σ) : Result (Reader σ) :=
  if awaited id then do
    let frame ← readResponse lookup id root
    return { reader with responses := reader.responses ++ [frame] }
  else .ok reader

/-- A frame that is no call is taken by its id. -/
def handleAnswer (awaited : Int → Bool) (root : Json) (reader : Reader σ) : Result (Reader σ) := do
  match ← tryGetProperty lookup "id" root with
  | some (.number literal) =>
    let id ← getInt64 (.number literal)
    takeResponse lookup awaited id root reader
  | _ => return reader

def handleFrame (awaited : Int → Bool) (root : Json) (reader : Reader σ) : Result (Reader σ) := do
  match ← tryGetProperty lookup "method" root with
  | some (.string units) =>
    let method ← getString (.string units)
    let dialect ← onNotification (method.getD "") root reader.dialect
    return { reader with dialect }
  | _ => handleAnswer lookup awaited root reader

def handleLine (text : List Char) (awaited : Int → Bool) (reader : Reader σ) : Result (Reader σ) :=
  if text.length = 0 then .ok reader
  else
    match parse text with
    | none => .ok reader
    | some root => handleFrame lookup onNotification awaited root reader

def readLoop : List Input → Reader σ → Reader σ × LoopEnd
  | [], reader => (reader, .reading)
  | .closed :: _, reader => (reader, .closed)
  | .canceled :: _, reader => (reader, .canceled)
  | .line text awaited :: rest, reader =>
    match handleLine lookup parse onNotification text awaited reader with
    | .ok next => readLoop rest { next with lines := reader.lines + 1 }
    | .error thrown => (reader, .faulted thrown)

def received : List Input → List (List Char × (Int → Bool))
  | .line text awaited :: rest => (text, awaited) :: received rest
  | _ => []

def endOf : List Input → LoopEnd
  | [] => .reading
  | .closed :: _ => .closed
  | .canceled :: _ => .canceled
  | .line _ _ :: rest => endOf rest

def ReadsAll (inputs : List Input) (start : Reader σ) : Prop :=
  (readLoop lookup parse onNotification inputs start).1.lines = start.lines + (received inputs).length ∧
    (readLoop lookup parse onNotification inputs start).2 = endOf inputs

def HarmlessResponse (root : Json) : Prop :=
  JsonElement.Searchable lookup "error" root ∧
    (memberOf lookup "error" root = none ∨ memberOf lookup "error" root = some .null →
      JsonElement.Searchable lookup "result" root)

/-- An id that is a number is a 64-bit integer. -/
def HarmlessAnswer (awaited : Int → Bool) (root : Json) : Prop :=
  JsonElement.Searchable lookup "id" root ∧
    ∀ literal, memberOf lookup "id" root = some (.number literal) →
      ∃ id, integerIn (-2 ^ 63) (2 ^ 63 - 1) literal = some id ∧ (awaited id = true → HarmlessResponse lookup root)

def HarmlessFrame (handles : String → Json → Prop) (awaited : Int → Bool) (root : Json) : Prop :=
  JsonElement.Searchable lookup "method" root ∧
    (∀ units, memberOf lookup "method" root = some (.string units) →
      ∃ method, textOf units = some method ∧ handles method root) ∧
    ((∀ units, memberOf lookup "method" root ≠ some (.string units)) → HarmlessAnswer lookup awaited root)

def HarmlessLine (handles : String → Json → Prop) (line : List Char × (Int → Bool)) : Prop :=
  line.1.length = 0 ∨ ∀ root, parse line.1 = some root → HarmlessFrame lookup handles line.2 root

variable {lookup parse onNotification}

theorem readResponse_isOk_iff (id : Int) (root : Json) :
    (∃ frame, readResponse lookup id root = .ok frame) ↔ HarmlessResponse lookup root := by
  unfold readResponse
  refine bind_isOk_iff.trans (and_congr_right fun _ => ?_)
  rw [← tryGetProperty_isOk_iff lookup "result"]
  match memberOf lookup "error" root with
  | none =>
    rw [forall_prop_of_true (.inl rfl)]
    exact exists_bind_ok_iff fun _ => ⟨_, rfl⟩
  | some .null =>
    rw [forall_prop_of_true (.inr rfl)]
    exact exists_bind_ok_iff fun _ => ⟨_, rfl⟩
  | some (.bool _) | some (.number _) | some (.string _) | some (.array _) | some (.object _) =>
    exact iff_of_true ⟨_, rfl⟩ fun noError => by simp at noError

theorem takeResponse_isOk_iff (awaited : Int → Bool) (id : Int) (root : Json) (reader : Reader σ) :
    (∃ next, takeResponse lookup awaited id root reader = .ok next) ↔
      (awaited id = true → HarmlessResponse lookup root) := by
  unfold takeResponse
  by_cases waits : awaited id = true
  · rw [if_pos waits, forall_prop_of_true waits, ← readResponse_isOk_iff id root]
    exact exists_bind_ok_iff fun _ => ⟨_, rfl⟩
  · rw [if_neg waits]
    exact iff_of_true ⟨reader, rfl⟩ fun same => absurd same waits

theorem answer_isOk_iff (awaited : Int → Bool) (root : Json) (reader : Reader σ) :
    (∃ next, handleAnswer lookup awaited root reader = .ok next) ↔ HarmlessAnswer lookup awaited root := by
  unfold handleAnswer
  refine bind_isOk_iff.trans (and_congr_right fun _ => ?_)
  match memberOf lookup "id" root with
  | some (.number literal) =>
    simp only [Option.some.injEq, Json.number.injEq, forall_eq', getInt64, getInteger]
    cases integerIn (-2 ^ 63) (2 ^ 63 - 1) literal with
    | some id => simp only [ok_bind, takeResponse_isOk_iff, Option.some.injEq, exists_eq_left']
    | none => exact iff_of_false (by rintro ⟨_, ⟨⟩⟩) (by rintro ⟨_, ⟨⟩, _⟩)
  | none | some .null | some (.bool _) | some (.string _) | some (.array _) | some (.object _) =>
    exact iff_of_true ⟨_, rfl⟩ nofun

section
variable {handles : String → Json → Prop}
  (spec : ∀ method root dialect, (∃ next, onNotification method root dialect = .ok next) ↔ handles method root)
include spec

theorem handleFrame_isOk_iff (awaited : Int → Bool) (root : Json) (reader : Reader σ) :
    (∃ next, handleFrame lookup onNotification awaited root reader = .ok next) ↔
      HarmlessFrame lookup handles awaited root := by
  unfold handleFrame
  refine bind_isOk_iff.trans (and_congr_right fun _ => ?_)
  match memberOf lookup "method" root with
  | some (.string units) =>
    rw [and_iff_left fun other => absurd rfl (other units)]
    simp only [Option.some.injEq, Json.string.injEq, forall_eq', getString]
    cases textOf units with
    | some method =>
      refine (exists_bind_ok_iff fun _ => ⟨_, rfl⟩).trans ((spec method root reader.dialect).trans ?_)
      simp
    | none => exact iff_of_false (by rintro ⟨_, ⟨⟩⟩) (by rintro ⟨_, ⟨⟩, _⟩)
  | none | some .null | some (.bool _) | some (.number _) | some (.array _) | some (.object _) =>
    rw [and_iff_right nofun, forall_prop_of_true nofun]
    exact answer_isOk_iff awaited root reader

theorem handleLine_isOk_iff (text : List Char) (awaited : Int → Bool) (reader : Reader σ) :
    (∃ next, handleLine lookup parse onNotification text awaited reader = .ok next) ↔
      HarmlessLine lookup parse handles (text, awaited) := by
  unfold handleLine HarmlessLine
  by_cases empty : text.length = 0
  · rw [if_pos empty]
    exact iff_of_true ⟨reader, rfl⟩ (.inl empty)
  · rw [if_neg empty, or_iff_right empty]
    cases read : parse text with
    | none => exact iff_of_true ⟨reader, rfl⟩ nofun
    | some root => simp [handleFrame_isOk_iff spec]

/-- The loop goes on after a line exactly if the line is harmless. -/
theorem readsAll_iff (inputs : List Input) (start : Reader σ) : ReadsAll lookup parse onNotification inputs start ↔
      ∀ line ∈ received inputs, HarmlessLine lookup parse handles line := by
  induction inputs generalizing start with
  | nil => exact iff_of_true ⟨rfl, rfl⟩ nofun
  | cons input rest ih =>
    cases input with
    | closed => exact iff_of_true ⟨rfl, rfl⟩ nofun
    | canceled => exact iff_of_true ⟨rfl, rfl⟩ nofun
    | line text awaited =>
      rw [received, List.forall_mem_cons, ← handleLine_isOk_iff spec text awaited start]
      cases handled : handleLine lookup parse onNotification text awaited start with
      | ok next =>
        rw [and_iff_right ⟨next, rfl⟩, ← ih { next with lines := start.lines + 1 }]
        have counted : start.lines + ((received rest).length + 1) = start.lines + 1 + (received rest).length := by omega
        simp only [ReadsAll, readLoop, handled, received, endOf, List.length_cons, counted]
      | error thrown =>
        refine iff_of_false (fun readsAll => ?_) (by rintro ⟨⟨_, ⟨⟩⟩, _⟩)
        have counted := readsAll.1
        simp only [readLoop, handled, received, List.length_cons] at counted
        omega

end
end

/-- Under either dialect the loop reads every line exactly if each one is harmless. -/
theorem readLoop_readsAll_iff (lookup : JsonElement.Lookup) (parse : List Char → Option Json)
    (tryGetDouble : List Char → Option Pool.Double) (parseJob : Json → Result CryptoNoteJob) (inputs : List Input)
    (bitcoin : Reader BitcoinStratumWork) (cryptoNote : Reader CryptoNoteStratumDialect) :
    (ReadsAll lookup parse (onNotification lookup tryGetDouble) inputs bitcoin ↔
      ∀ line ∈ received inputs, HarmlessLine lookup parse (BitcoinStratumDialect.Handles lookup) line) ∧
    (ReadsAll lookup parse (CryptoNoteStratumDialect.onNotification lookup parseJob) inputs cryptoNote ↔
      ∀ line ∈ received inputs, HarmlessLine lookup parse (CryptoNoteStratumDialect.Handles lookup) line) :=
  ⟨readsAll_iff onNotification_isOk_iff inputs bitcoin,
    readsAll_iff CryptoNoteStratumDialect.onNotification_isOk_iff inputs cryptoNote⟩

def plainLine (text : String) : Input := .line text.toList fun _ => false

def setDifficultyLine : String := "\x7b\"method\":\"mining.set_difficulty\",\"params\":[\"8\"]\x7d"

/-- A number as a line ends the loop of either dialect, and a difficulty in quotes that of Bitcoin. -/
theorem readLoop_faulted : ¬ReadsAll .smooth Json.parse (onNotification .smooth fun _ => none)
        [plainLine "5", .closed] ⟨initial, [], 0⟩ ∧
      ¬ReadsAll .smooth Json.parse (CryptoNoteStratumDialect.onNotification .smooth fun _ => .error .json)
        [plainLine "5", .closed] ⟨.opened, [], 0⟩ ∧
      ¬ReadsAll .smooth Json.parse (onNotification .smooth fun _ => none)
        [plainLine setDifficultyLine, .closed] ⟨initial, [], 0⟩ := by
  refine ⟨fun all => ?_, fun all => ?_, fun all => ?_⟩
  · exact absurd all.2 (by decide +kernel)
  · exact absurd all.2 (by decide +kernel)
  · exact absurd all.2 (by decide +kernel)

end ArcMiner.Stratum.StratumSession
