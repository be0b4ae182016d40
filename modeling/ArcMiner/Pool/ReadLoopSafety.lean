import ArcMiner.Library.Machine
import ArcMiner.Pool.ReadLoop

/-! Which lines end the read loop. -/

namespace ArcMiner.Pool.StratumSession

open Library Library.CSharp Library.Action Library.Machine AkoyaCrypto JsonElement StratumJobParser String

structure Decodable (p : StratumNotifyParams) : Prop where
  jobId : p.jobId ≠ none
  header : p.header ≠ none
  headerHex : HexText (p.header.getD "").toList
  targetHex : HexText (p.target.getD "").toList
  bSeedHex : HexText (p.bSeed.getD "").toList

def Textual : Json → Prop
  | .null => True
  | .string units => Utf16.Paired units
  | _ => False

def textIn : Json → String
  | .string units => ofList (Utf16.decode units)
  | _ => ""

/-- A number, if it is one, that an `Int64` can hold. -/
def LongOrOther : Json → Prop
  | .number literal => (integerIn (-2 ^ 63) (2 ^ 63 - 1) literal).isSome
  | _ => True

/-- The positional form of four to eight elements. -/
structure ShortForm (arr : List Json) (lastDifficulty : Double) : Prop where
  jobId : Textual (optional arr 0)
  header : Textual (optional arr 2)
  headerHex : HexText (textIn (optional arr 2)).toList
  height : LongOrOther (optional arr 3)
  difficulty : ¬ Overflows (jobDifficulty lastDifficulty)

section difficulty
variable (parseDouble : String → Option Double)

/-- Every string up to the first element that is a difficulty can be read. -/
def LegibleItems : List Json → Prop
  | [] => True
  | .number _ :: _ => True
  | .string units :: rest =>
    Utf16.Paired units ∧ (parseDouble (ofList (Utf16.decode units)) = none → LegibleItems rest)
  | _ :: rest => LegibleItems rest

def Legible : Json → Prop
  | .array items => LegibleItems parseDouble items
  | .string units => Utf16.Paired units
  | _ => True

end difficulty

section lines
variable (host : Host) (nearest : Rat → Rat)

def Harmless (session : Session) (msg : StratumMessage) : Prop :=
  match msg.method, msg.params, msg.id with
  | some "mining.notify", some (.array arr), _ =>
    4 ≤ arr.length → arr.length < 9 → ShortForm arr session.lastDifficulty
  | some "mining.notify", some params, _ => ∀ p, StratumNotifyParams.deserialize params = .ok p → Decodable p
  | some "mining.set_difficulty", some params, _ =>
    Legible host.parseDouble params ∧ ∀ diff, tryReadDifficulty host.toDouble host.parseDouble params = .ok (some diff) →
      diff.isPositive → ¬ Overflows diff
  | none, _, some id => id ∉ session.challengeRespIds → ∀ units, msg.error = some (.string units) → Utf16.Paired units
  | _, _, _ => True

def HarmlessLine (session : Session) (line : List Char) : Prop :=
  ∀ json msg, host.parse line = some json → StratumMessage.deserialize json = .ok (some msg) → Harmless host session msg

end lines

section text

theorem hexText_toHexString (bytes : List UInt8) : HexText (Convert.toHexString bytes).toList := by
  have digit : ∀ nibble < 16, (Convert.digitValue (Convert.hexDigit nibble)).isSome := by decide
  rw [Convert.toHexString, toList_ofList]
  intro c member
  obtain ⟨byte, -, found⟩ := List.mem_flatMap.mp member
  have size := byte.toNat_lt
  simp only [List.mem_cons, List.not_mem_nil, or_false] at found
  rcases found with rfl | rfl
  · exact digit _ (by omega)
  · exact digit _ (by omega)

theorem hexText_lower (bytes : List UInt8) : HexText (toLowerInvariant (Convert.toHexString bytes)).toList :=
  (decode_ok_iff _).mp ⟨bytes, decode_lower bytes⟩

theorem decode_cases (text : String) :
    (HexText text.toList ∧ ∃ bytes, Hex.decode text = .ok bytes) ∨ (¬ HexText text.toList ∧ Hex.decode text = .error .format) := by
  rw [← decode_ok_iff]
  cases read : Hex.decode text with
  | ok bytes => exact .inl ⟨⟨bytes, rfl⟩, bytes, rfl⟩
  | error why =>
    cases decode_error read
    exact .inr ⟨nofun, rfl⟩

theorem getString_textual {json : Json} (textual : Textual json) :
    ∃ read, getString json = .ok read ∧ read.getD "" = textIn json := by
  cases json with
  | null => exact ⟨none, rfl, rfl⟩
  | string units =>
    have paired : Utf16.Paired units := textual
    exact ⟨some (ofList (Utf16.decode units)), by rw [getString, textOf, if_pos paired], rfl⟩
  | _ => exact absurd textual id

theorem getString_other {json : Json} (other : ¬ Textual json) :
    ∃ message, getString json = .error (.invalidOperation message) := by
  cases json with
  | null => exact absurd trivial other
  | string units =>
    have unpaired : ¬ Utf16.Paired units := other
    exact ⟨_, by rw [getString, textOf, if_neg unpaired]⟩
  | _ => exact ⟨_, rfl⟩

end text

section parse
variable {host : Host} {nearest : Rat → Rat} {session : Session}

/-- An action that returns, or throws what the loop catches. -/
def Survives {α : Type} (action : SessionM α) (session : Session) : Prop :=
  ends action (fun _ _ => True) (fun why _ => why = .json) session

theorem parsePearlNotification_survives (p : StratumNotifyParams) :
    Survives (parsePearlNotification host p) session ↔ Decodable p := by
  unfold Survives parsePearlNotification
  simp only [ends_bind, ends_ofResult]
  rcases decode_cases (p.header.getD "") with ⟨headerHex, sigma, decoded⟩ | ⟨bad, decoded⟩
  case inr => exact iff_of_false (by rw [decoded]; rintro ⟨⟩) (fun known => bad known.headerHex)
  rw [decoded]
  cases header : p.header with
  | none => exact iff_of_false (by rintro ⟨⟩) (fun known => known.header header)
  | some text =>
    cases jobId : p.jobId with
    | none => exact iff_of_false (by rintro ⟨⟩) (fun known => known.jobId jobId)
    | some id =>
      rcases decode_cases (p.target.getD "") with ⟨targetHex, target, decoded⟩ | ⟨bad, decoded⟩
      case inr => exact iff_of_false (by simp [storeJob, decoded]) (fun known => bad known.targetHex)
      rcases decode_cases (p.bSeed.getD "") with ⟨bSeedHex, bSeed, decoded'⟩ | ⟨bad, decoded'⟩
      case inl =>
        refine iff_of_true ?_ ⟨by simp [jobId], by simp [header], headerHex, targetHex, bSeedHex⟩
        simp [storeJob, decoded, decoded']
      case inr =>
        have filled : ¬ (p.bSeed.getD "").isEmpty := by
          intro empty
          rw [isEmpty_iff.mp empty] at bad
          exact bad (by rintro _ ⟨⟩)
        exact iff_of_false (by simp [storeJob, decoded, decoded', filled]) (fun known => bad known.bSeedHex)

theorem survives_call (p : StratumNotifyParams) : Survives (do
      let job ← parsePearlNotification host p
      call (.onJob job)) session ↔ Decodable p := by
  rw [← @parsePearlNotification_survives host session p, Survives, ends_bind]
  rfl

theorem parseArrayNotify_long {arr : List Json} (long : 9 ≤ arr.length) (toNbits : Double → Result UInt32) :
    ends (parseArrayNotify host toNbits arr) (fun read _ => ∀ p ∈ read, Decodable p) (fun _ _ => False) session := by
  unfold parseArrayNotify
  rw [if_neg (by omega), if_pos long, ends_tryCatch]
  simp only [ends_bind, ends_get, ends_ofResult, storeJob, ends_modify, ends_pure]
  have rejected : ∀ p ∈ (none : Option StratumNotifyParams), Decodable p := by rintro p ⟨⟩
  cases parseNotification host.toPrimitives arr session.extranonce1 [0, 0, 0, 0] with
  | error why => exact rejected
  | ok job =>
    dsimp only
    cases getString (optional arr 0) with
    | error why => exact rejected
    | ok jobId =>
      dsimp only
      cases toNbits (jobDifficulty session.lastDifficulty) with
      | error why => exact rejected
      | ok nbits =>
        rintro p ⟨⟩
        exact ⟨by rintro ⟨⟩, by rintro ⟨⟩, hexText_lower job.sigma, hexText_lower (nbitsToTarget nbits), hexText_toHexString job.bSeed⟩

theorem positionalHeight_cases (json : Json) : (LongOrOther json ∧ ∃ height, positionalHeight json = .ok height) ∨
      (¬ LongOrOther json ∧ positionalHeight json = .error .format) := by
  cases json with
  | number literal =>
    simp only [positionalHeight, getInt64, getInteger, LongOrOther]
    cases integerIn (-2 ^ 63) (2 ^ 63 - 1) literal <;> simp
  | _ => exact .inl ⟨trivial, 0, rfl⟩

theorem handleNotify_short {arr : List Json} (enough : 4 ≤ arr.length) (short : arr.length < 9) :
    Survives (handleNotify host (difficultyToNbits nearest) (.array arr)) session ↔ ShortForm arr session.lastDifficulty := by
  change ends (parseArrayNotify host (difficultyToNbits nearest) arr >>= _) _ _ _ ↔ _
  rw [parseArrayNotify, if_neg (by omega), if_neg (by omega)]
  simp only [ends_bind, ends_get, ends_ofResult, ends_pure]
  -- the four conversions of the short form in their order: the first that throws ends it
  by_cases first : Textual (optional arr 0)
  case neg =>
    obtain ⟨message, fails⟩ := getString_other first
    exact iff_of_false (by rw [fails]; rintro ⟨⟩) (fun known => first known.jobId)
  obtain ⟨jobId, read, -⟩ := getString_textual first
  rw [read]
  by_cases third : Textual (optional arr 2)
  case neg =>
    obtain ⟨message, fails⟩ := getString_other third
    exact iff_of_false (by rw [fails]; rintro ⟨⟩) (fun known => third known.header)
  obtain ⟨header, read, text⟩ := getString_textual third
  rw [read]
  rcases positionalHeight_cases (optional arr 3) with ⟨number, height, read⟩ | ⟨bad, fails⟩
  case inr => exact iff_of_false (by rw [fails]; rintro ⟨⟩) (fun known => bad known.height)
  rw [read]
  rcases difficultyToNbits_cases nearest (jobDifficulty session.lastDifficulty) with ⟨fits, nbits, converted⟩ | ⟨large, fails⟩
  case inr => exact iff_of_false (by rw [fails]; rintro ⟨⟩) (fun known => known.difficulty large)
  rw [converted]
  have parsed := @parsePearlNotification_survives host session
    ⟨some (jobId.getD ""), some (header.getD ""), some (nbitsToTargetHex nbits), height, none, none⟩
  refine Iff.trans parsed ?_
  constructor
  · intro known
    exact ⟨first, third, text ▸ known.headerHex, number, fits⟩
  · intro known
    refine ⟨by rintro ⟨⟩, by rintro ⟨⟩, ?_, hexText_lower (nbitsToTarget nbits), by rintro _ ⟨⟩⟩
    exact text.symm ▸ known.headerHex

theorem handleNotify_array (arr : List Json) :
    Survives (handleNotify host (difficultyToNbits nearest) (.array arr)) session ↔
      (4 ≤ arr.length → arr.length < 9 → ShortForm arr session.lastDifficulty) := by
  by_cases few : arr.length < 4
  · refine iff_of_true ?_ (fun enough => absurd enough (by omega))
    change ends (parseArrayNotify host (difficultyToNbits nearest) arr >>= _) _ _ _
    rw [parseArrayNotify, if_pos few, ends_bind]
    trivial
  · by_cases long : 9 ≤ arr.length
    · refine iff_of_true ?_ (fun _ short => absurd short (by omega))
      change ends (parseArrayNotify host (difficultyToNbits nearest) arr >>= _) _ _ _
      rw [ends_bind]
      refine ends_mono (parseArrayNotify_long long (difficultyToNbits nearest)) (fun read after known => ?_) (fun _ _ => False.elim)
      cases read with
      | none => trivial
      | some p => exact (survives_call p).mpr (known p rfl)
    · rw [handleNotify_short (by omega) (by omega)]
      exact ⟨fun known _ _ => known, fun known => known (by omega) (by omega)⟩

theorem notifyParams_object {params : Json} (object : ∀ arr, params ≠ .array arr) (toNbits : Double → Result UInt32) :
    notifyParams host toNbits params = (do return some (← ofResult (StratumNotifyParams.deserialize params))) := by
  cases params with
  | array arr => exact absurd rfl (object arr)
  | _ => rfl

theorem handleNotify_object {params : Json} (object : ∀ arr, params ≠ .array arr) (toNbits : Double → Result UInt32) :
    Survives (handleNotify host toNbits params) session ↔
      ∀ p, StratumNotifyParams.deserialize params = .ok p → Decodable p := by
  rw [Survives, handleNotify, notifyParams_object object]
  simp only [ends_bind, ends_ofResult, ends_pure]
  cases read : StratumNotifyParams.deserialize params with
  | ok p =>
    refine Iff.trans (@parsePearlNotification_survives host session p) ?_
    exact ⟨fun known other same => Except.ok.inj same ▸ known, fun known => known p rfl⟩
  | error why =>
    exact iff_of_true (StratumNotifyParams.deserialize_onlyJson params why read) (by rintro p ⟨⟩)

theorem firstDifficulty_cases (toDouble : List Char → Double) (parseDouble : String → Option Double) (items : List Json) :
    (LegibleItems parseDouble items ∧ ∃ read, firstDifficulty toDouble parseDouble items = .ok read) ∨
      (¬ LegibleItems parseDouble items ∧
        ∃ message, firstDifficulty toDouble parseDouble items = .error (.invalidOperation message)) := by
  induction items with
  | nil => exact .inl ⟨trivial, none, rfl⟩
  | cons item rest ih =>
    cases item with
    | number literal => exact .inl ⟨trivial, _, rfl⟩
    | string units =>
      by_cases paired : Utf16.Paired units
      · have read : tryParseString parseDouble units = .ok (parseDouble (ofList (Utf16.decode units))) := by
          rw [tryParseString, getString, textOf, if_pos paired]
          rfl
        rw [firstDifficulty, read, LegibleItems]
        cases parsed : parseDouble (ofList (Utf16.decode units)) with
        | some diff => exact .inl ⟨⟨paired, nofun⟩, _, rfl⟩
        | none =>
          have tail : LegibleItems parseDouble rest ↔ Utf16.Paired units ∧ ((none : Option Double) = none → LegibleItems parseDouble rest) := by
            simp [paired]
          rw [← tail]
          exact ih
      · refine .inr ⟨fun legible => paired legible.1, "incomplete UTF-16 text", ?_⟩
        rw [firstDifficulty, tryParseString, getString, textOf, if_neg paired]
        rfl
    | _ => exact ih

theorem tryReadDifficulty_cases (toDouble : List Char → Double) (parseDouble : String → Option Double) (params : Json) :
    (Legible parseDouble params ∧ ∃ read, tryReadDifficulty toDouble parseDouble params = .ok read) ∨
      (¬ Legible parseDouble params ∧
        ∃ message, tryReadDifficulty toDouble parseDouble params = .error (.invalidOperation message)) := by
  cases params with
  | array items => exact firstDifficulty_cases toDouble parseDouble items
  | string units =>
    by_cases paired : Utf16.Paired units
    · refine .inl ⟨paired, parseDouble (ofList (Utf16.decode units)), ?_⟩
      rw [tryReadDifficulty, tryParseString, getString, textOf, if_pos paired]
      rfl
    · refine .inr ⟨paired, "incomplete UTF-16 text", ?_⟩
      rw [tryReadDifficulty, tryParseString, getString, textOf, if_neg paired]
      rfl
  | _ => exact .inl ⟨trivial, _, rfl⟩

theorem handleSetDifficulty_survives (params : Json) :
    Survives (handleSetDifficulty host (difficultyToNbits nearest) params) session ↔
      Legible host.parseDouble params ∧ ∀ diff, tryReadDifficulty host.toDouble host.parseDouble params = .ok (some diff) →
        diff.isPositive → ¬ Overflows diff := by
  unfold Survives handleSetDifficulty
  simp only [ends_bind, ends_ofResult]
  rcases tryReadDifficulty_cases host.toDouble host.parseDouble params with ⟨legible, read, found⟩ | ⟨bad, message, fails⟩
  case inr => exact iff_of_false (by rw [fails]; rintro ⟨⟩) (fun known => bad known.1)
  rw [found]
  cases read with
  | none => exact iff_of_true trivial ⟨legible, by rintro _ ⟨⟩⟩
  | some diff =>
    simp only [ends_ite, ends_bind, ends_modify, ends_ofResult, ends_pure, legible, true_and, Except.ok.injEq,
      Option.some.injEq, forall_eq']
    by_cases positive : diff.isPositive
    · rcases difficultyToNbits_cases nearest diff with ⟨fits, nbits, converted⟩ | ⟨large, fails⟩
      · rw [converted]
        exact iff_of_true (by rw [if_pos positive]; trivial) (fun _ => fits)
      · rw [fails]
        exact iff_of_false (by rw [if_pos positive]; rintro ⟨⟩) (fun known => known positive large)
    · exact iff_of_true (by rw [if_neg positive]; trivial) (fun other => absurd other positive)

theorem handleReply_survives (id : Int) (result error : Option Json) :
    Survives (handleReply host id result error) session ↔
      (id ∉ session.challengeRespIds → ∀ units, error = some (.string units) → Utf16.Paired units) := by
  unfold Survives handleReply
  simp only [ends_bind, ends_get, ends_ite]
  by_cases challenge : id ∈ session.challengeRespIds
  · exact iff_of_true (by rw [if_pos challenge]; trivial) (fun other => absurd challenge other)
  · rw [if_neg challenge]
    cases error with
    | none =>
      refine iff_of_true ?_ (by rintro _ _ ⟨⟩)
      dsimp only
      split <;> trivial
    | some error =>
      cases error with
      | string units =>
        simp only [JsonElement.toString, ends_bind, ends_ofResult, challenge, not_false_eq_true, true_implies,
          Option.some.injEq, Json.string.injEq, forall_eq']
        rw [JsonElement.getString, textOf]
        by_cases paired : Utf16.Paired units
        · exact iff_of_true (by rw [if_pos paired]; trivial) paired
        · exact iff_of_false (by rw [if_neg paired]; rintro ⟨⟩) paired
      | _ => exact iff_of_true trivial (by rintro _ _ ⟨⟩)

theorem handle_survives (msg : StratumMessage) :
    Survives (handle host (difficultyToNbits nearest) msg) session ↔ Harmless host session msg := by
  obtain ⟨id, method, params, result, error⟩ := msg
  unfold handle
  dsimp only
  split
  · next params =>
    cases params with
    | array arr => exact handleNotify_array arr
    | _ => exact handleNotify_object (by rintro arr ⟨⟩) _
  · exact handleSetDifficulty_survives _
  · exact iff_of_true trivial trivial
  · exact iff_of_true trivial trivial
  · exact handleReply_survives _ _ _
  · next none1 none2 none3 none4 none5 =>
    refine iff_of_true trivial ?_
    unfold Harmless
    split <;> simp_all

theorem handleLine_survives (line : List Char) :
    Survives (handleLine host (difficultyToNbits nearest) line) session ↔ HarmlessLine host session line := by
  unfold Survives handleLine HarmlessLine
  cases read : host.parse line with
  | none => exact iff_of_true rfl (by rintro _ _ ⟨⟩)
  | some json =>
    simp only [ends_bind, ends_ofResult, Option.some.injEq]
    cases made : StratumMessage.deserialize json with
    | error why =>
      refine iff_of_true (StratumMessage.deserialize_onlyJson json why made) ?_
      rintro json msg rfl found
      cases made.symm.trans found
    | ok message =>
      cases message with
      | none =>
        refine iff_of_true trivial ?_
        rintro json msg rfl found
        cases made.symm.trans found
      | some msg =>
        refine (handle_survives msg).trans ⟨?_, fun all => all json msg rfl made⟩
        rintro harmless json other rfl found
        cases made.symm.trans found
        exact harmless

variable (host nearest)

def turn (toNbits : Double → Result UInt32) (line : List Char) : SessionM Unit :=
  tryCatch (handleLine host toNbits line) fun why => if why = .json then pure () else throw why

def afterLine (toNbits : Double → Result UInt32) (session : Session) (line : List Char) : Option Session :=
  some (exec (turn host toNbits line) session).2

theorem turn_state (toNbits : Double → Result UInt32) (line : List Char) (session : Session) :
    (exec (turn host toNbits line) session).2 = (exec (handleLine host toNbits line) session).2 := by
  rw [turn, exec_tryCatch]
  cases exec (handleLine host toNbits line) session with
  | mk outcome after =>
    cases outcome with
    | ok _ => rfl
    | error why =>
      dsimp only
      split <;> rfl

theorem turn_session (toNbits : Double → Result UInt32) (line : List Char) (session : Session) :
    (exec (turn host toNbits line) session).2 =
      match (host.parse line).map StratumMessage.deserialize with
      | some (.ok (some msg)) => (exec (handle host toNbits msg) session).2
      | _ => session := by
  rw [turn_state, handleLine]
  cases host.parse line with
  | none => rfl
  | some json =>
    rw [Option.map_some]
    dsimp only
    rw [exec_bind, exec_ofResult]
    rcases StratumMessage.deserialize json with why | _ | msg <;> rfl

theorem handleSetDifficulty_keeps {τ : Type} {view : Session → τ} (toNbits : Double → Result UInt32)
    (remembered : ∀ session diff, view { session with lastDifficulty := diff } = view session)
    (announced : ∀ nbits, Keeps view (call (.onVardiff nbits))) (params : Json) :
    Keeps view (handleSetDifficulty host toNbits params) := by
  refine keeps_bind (keeps_ofResult _) fun read => ?_
  cases read with
  | none => exact keeps_pure _
  | some diff =>
    refine keeps_ite (keeps_bind (keeps_modify fun session => remembered session diff) fun _ => ?_) (keeps_pure _)
    exact keeps_bind (keeps_ofResult _) announced

variable {host nearest}

theorem turn_returns_iff (line : List Char) :
    ends (turn host (difficultyToNbits nearest) line) (fun _ _ => True) (fun _ _ => False) session ↔
      HarmlessLine host session line := by
  have caught : ∀ (why : Exception) (after : Session),
      ends (if why = .json then pure () else throw why : SessionM Unit) (fun _ _ => True) (fun _ _ => False) after ↔ why = .json := by
    intro why after
    by_cases json : why = .json <;> simp [json]
  rw [turn, ends_tryCatch, ← @handleLine_survives _ nearest, Survives]
  simp only [caught]

/-- The loop reads to the end of the stream exactly if every line is harmless when it comes. -/
theorem readLoop_ok_iff (host : Host) (nearest : Rat → Rat) (lines : List (List Char)) (session : Session) :
    (exec (readLoop host (difficultyToNbits nearest) lines) session).1 = .ok () ↔
      Along (afterLine host (difficultyToNbits nearest)) (HarmlessLine host) session lines := by
  rw [exec_ok_iff]
  induction lines generalizing session with
  | nil => exact iff_of_true trivial trivial
  | cons line lines ih =>
    change ends (turn host (difficultyToNbits nearest) line >>= fun _ => readLoop host _ lines) _ _ _ ↔ _
    -- the rest is read in the session that this line leaves
    rw [ends_bind, ends_returns_iff, turn_returns_iff, ih, Along]
    simp only [afterLine, Option.mem_def, Option.some.injEq, forall_eq']

def notifyLine (header : String) : List Char :=
  "\x7b\"method\":\"mining.notify\",\"params\":\x7b\"job_id\":\"a\",\"header\":\"".toList ++ header.toList ++
    "\",\"target\":\"\"\x7d\x7d".toList

/-- After a header that is not hex, a line that holds a job is not read any more. -/
theorem readLoop_ends_on_header :
    (exec (readLoop .plain (difficultyToNbits id) [notifyLine "zz", notifyLine "00"]) (.opened [] (.finite 0))).1 = .error .format ∧
      (exec (readLoop .plain (difficultyToNbits id) [notifyLine "zz", notifyLine "00"]) (.opened [] (.finite 0))).2.calls.length = 0 ∧
      (exec (readLoop .plain (difficultyToNbits id) [notifyLine "00"]) (.opened [] (.finite 0))).2.calls.length = 1 := by
  decide +kernel

end parse
end ArcMiner.Pool.StratumSession
