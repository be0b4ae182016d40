import ArcMiner.Library.Json

/-! The lines that a pearl/v1 session writes: subscribe, authorize and submit.

A C# string is its UTF-16 code units. What goes on the wire is the UTF-8 of the whole line, in
which a surrogate without its other half has become a replacement character.
-/

namespace ArcMiner.Pool.StratumSession

open Library List Json Utf16

def units (text : String) : List UInt16 := encode text.toList

def replaceUnit (old : UInt16) (new : List UInt16) (s : List UInt16) : List UInt16 :=
  s.flatMap fun unit => if unit = old then new else [unit]

def jsonEsc (s : List UInt16) : List UInt16 := replaceUnit 0x22 [0x5C, 0x22] (replaceUnit 0x5C [0x5C, 0x5C] s)

def sextet (n : Nat) : Char :=
  Char.ofNat (if n < 26 then 'A'.toNat + n else if n < 52 then 'a'.toNat + (n - 26)
    else if n < 62 then '0'.toNat + (n - 52) else if n = 62 then '+'.toNat else '/'.toNat)

def toBase64String : List UInt8 → List Char
  | [] => []
  | [a] => [sextet (a.toNat / 4), sextet (a.toNat % 4 * 16), '=', '=']
  | [a, b] => [sextet (a.toNat / 4), sextet (a.toNat % 4 * 16 + b.toNat / 16), sextet (b.toNat % 16 * 4), '=']
  | a :: b :: c :: rest =>
    sextet (a.toNat / 4) :: sextet (a.toNat % 4 * 16 + b.toNat / 16) :: sextet (b.toNat % 16 * 4 + c.toNat / 64) ::
      sextet (c.toNat % 64) :: toBase64String rest

def idUnits (id : Int) : List UInt16 := encode (decimal id)

def subscribeFrame (subId : Int) (agent : List UInt16) : List UInt16 :=
  units "\x7b\"id\":" ++ (idUnits subId ++ (units ",\"method\":\"mining.subscribe\",\"params\":[\"" ++ (jsonEsc agent ++ units "\"]\x7d")))

def authorizeFrame (authId : Int) (walletAddress workerName password : List UInt16) : List UInt16 :=
  units "\x7b\"id\":" ++ (idUnits authId ++ (units ",\"method\":\"mining.authorize\",\"params\":[\"" ++ (jsonEsc walletAddress ++
    (units "." ++ (jsonEsc workerName ++ (units "\",\"" ++ (jsonEsc password ++ units "\"]\x7d")))))))

/-- The positional form; the proof is in base64 and goes without escapes. -/
def submitFrame (reqId : Int) (walletAddress workerName jobId : List UInt16) (plainProof : List UInt8) : List UInt16 :=
  units "\x7b\"id\":" ++ (idUnits reqId ++ (units ",\"method\":\"mining.submit\",\"params\":[\"" ++ (jsonEsc walletAddress ++
    (units "." ++ (jsonEsc workerName ++ (units "\",\"" ++ (jsonEsc jobId ++ (units "\",\"" ++
      (encode (toBase64String plainProof) ++ units "\"]\x7d")))))))))

def wire (line : List UInt16) : List Char := decode line

def request (id : Int) (method : String) (params : List (List UInt16)) : Json :=
  .object [(units "id", .number (decimal id)), (units "method", .string (units method)),
    (units "params", .array (params.map .string))]

structure Intact (line : List UInt16) (id : Int) (method : String) (params : List (List UInt16)) : Prop where
  oneLine : '\n' ∉ wire line
  reads : parse (wire line) = some (request id method params)

structure Clean (s : List UInt16) : Prop where
  printable : ∀ unit ∈ s, 0x20 ≤ unit.toNat
  paired : Utf16.Paired s

section escapes

def escapeUnit (unit : UInt16) : List UInt16 := if unit = 0x5C ∨ unit = 0x22 then [0x5C, unit] else [unit]

theorem jsonEsc_eq (s : List UInt16) : jsonEsc s = s.flatMap escapeUnit := by
  rw [jsonEsc, replaceUnit, replaceUnit, flatMap_assoc]
  refine congrArg (s.flatMap ·) (funext fun unit => ?_)
  unfold escapeUnit
  by_cases backslash : unit = 0x5C
  · subst backslash
    rfl
  · by_cases quote : unit = 0x22
    · subst quote
      rfl
    · simp [backslash, quote]

theorem jsonEsc_append (s t : List UInt16) : jsonEsc (s ++ t) = jsonEsc s ++ jsonEsc t := by
  simp only [jsonEsc_eq, flatMap_append]

theorem escapeUnit_of_not_isScalar {unit : UInt16} (surrogate : ¬ isScalar unit) : escapeUnit unit = [unit] := by
  refine if_neg ?_
  rintro (rfl | rfl)
  · exact surrogate (by decide)
  · exact surrogate (by decide)

theorem scalar_eq_iff {unit : UInt16} (single : isScalar unit) {n : UInt16} (plain : isScalar n) :
    scalar unit = scalar n ↔ unit = n := by
  rw [← Char.toNat_inj, scalar_toNat single, scalar_toNat plain, UInt16.toNat_inj]

theorem decode_escapeUnit {unit : UInt16} (single : isScalar unit) (rest : List UInt16) :
    decode (escapeUnit unit ++ rest) = escapeChar (scalar unit) ++ decode rest := by
  have backslash : scalar unit = '\\' ↔ unit = 0x5C := scalar_eq_iff single (n := 0x5C) (by decide)
  have quote : scalar unit = '"' ↔ unit = 0x22 := scalar_eq_iff single (n := 0x22) (by decide)
  simp only [escapeUnit, escapeChar, backslash, quote]
  split
  · exact (decode_scalar (by decide) _).trans (congrArg ('\\' :: ·) (decode_scalar single rest))
  · exact decode_scalar single rest

theorem escapeChar_pair {high low : UInt16} (first : isHigh high) (second : isLow low) :
    escapeChar (pair high low) = [pair high low] := by
  have value := pair_toNat first second
  refine if_neg ?_
  rintro (same | same)
  · rw [same] at value
    exact absurd value (by simp; omega)
  · rw [same] at value
    exact absurd value (by simp; omega)

theorem wire_jsonEsc (s : List UInt16) : wire (jsonEsc s) = escape (wire s) := by
  rw [jsonEsc_eq, wire, wire]
  induction s using decode.induct with
  | case1 => rfl
  | case2 unit =>
    by_cases single : isScalar unit
    · have here := decode_escapeUnit single []
      simpa [decode, single, escape] using here
    · rw [flatMap_singleton, escapeUnit_of_not_isScalar single, decode, if_neg single]
      rfl
  | case3 unit next rest single ih =>
    rw [flatMap_cons, decode_escapeUnit single, ih, decode_scalar single, escape, escape, flatMap_cons]
  | case4 high low rest surrogate both ih =>
    obtain ⟨first, second⟩ := (Bool.and_eq_true _ _).mp both
    have lone : ¬ isScalar low := by simp [isScalar, second]
    rw [flatMap_cons, flatMap_cons, escapeUnit_of_not_isScalar surrogate, escapeUnit_of_not_isScalar lone,
      singleton_append, singleton_append, decode_pair first second, ih, decode_pair first second, escape, escape, flatMap_cons, escapeChar_pair first second]
    rfl
  | case5 unit next rest single unpaired ih =>
    -- what follows the lone surrogate is the next unit, or a backslash
    obtain ⟨front, more, same, still⟩ : ∃ front more, (next :: rest).flatMap escapeUnit = front :: more ∧
        (isHigh unit && isLow front) = false := by
      rw [flatMap_cons]
      unfold escapeUnit
      split
      · exact ⟨_, _, rfl, by simp [show isLow 0x5C = false by decide]⟩
      · exact ⟨_, _, rfl, by simpa using unpaired⟩
    rw [flatMap_cons, escapeUnit_of_not_isScalar single]
    rw [same] at ih ⊢
    rw [singleton_append, decode, if_neg single, if_neg (by simp [still]), ih, decode, if_neg single, if_neg unpaired]
    rfl

theorem sextet_plain : ∀ n < 64, escapeChar (sextet n) = [sextet n] ∧ isPlain (sextet n) := by decide

theorem base64_plain (bytes : List UInt8) : ∀ c ∈ toBase64String bytes, escapeChar c = [c] ∧ isPlain c := by
  have padding : escapeChar '=' = ['='] ∧ isPlain '=' := by decide
  induction bytes using toBase64String.induct with
  | case1 => exact fun _ member => absurd member not_mem_nil
  | case2 a =>
    have := a.toNat_lt
    simp only [toBase64String, forall_mem_cons]
    exact ⟨sextet_plain _ (by omega), sextet_plain _ (by omega), padding, padding, fun _ => nofun⟩
  | case3 a b =>
    have := a.toNat_lt
    have := b.toNat_lt
    simp only [toBase64String, forall_mem_cons]
    exact ⟨sextet_plain _ (by omega), sextet_plain _ (by omega), sextet_plain _ (by omega), padding, fun _ => nofun⟩
  | case4 a b c rest ih =>
    have := a.toNat_lt
    have := b.toNat_lt
    have := c.toNat_lt
    simp only [toBase64String, forall_mem_cons]
    exact ⟨sextet_plain _ (by omega), sextet_plain _ (by omega), sextet_plain _ (by omega), sextet_plain _ (by omega), ih⟩

theorem escape_of_plain {text : List Char} (plain : ∀ c ∈ text, escapeChar c = [c]) : escape text = text := by
  induction text with
  | nil => rfl
  | cons c text ih =>
    rw [escape, flatMap_cons, plain c mem_cons_self]
    exact congrArg (c :: ·) (ih (fun later member => plain later (mem_cons_of_mem c member)))

end escapes

section frames

def paramsText (texts : List (List Char)) : List Char :=
  ['"', 'p', 'a', 'r', 'a', 'm', 's', '"', ':'] ++ '[' :: (stringItems texts ++ ['\x7d'])

def methodText (method : List Char) (texts : List (List Char)) : List Char :=
  ['"', 'm', 'e', 't', 'h', 'o', 'd', '"', ':'] ++ '"' :: (method ++ '"' :: ',' :: paramsText texts)

def requestText (id : Int) (method : List Char) (texts : List (List Char)) : List Char :=
  '\x7b' :: (['"', 'i', 'd', '"', ':'] ++ (decimal id ++ ',' :: methodText method texts))

theorem wire_literal (text : String) (rest : List UInt16) : wire (units text ++ rest) = text.toList ++ wire rest :=
  decode_encode_append text.toList rest

theorem wire_encode (text : List Char) : wire (encode text) = text := decode_encode text

theorem wire_idUnits (id : Int) (rest : List UInt16) : wire (idUnits id ++ rest) = decimal id ++ wire rest :=
  decode_encode_append (decimal id) rest

theorem wire_escaped (s : List UInt16) {mark : Char} {text : String} {more : List Char} (starts : text.toList = mark :: more)
    (ascii : mark.toNat < 0x80) (rest : List UInt16) :
    wire (jsonEsc s ++ (units text ++ rest)) = escape (wire s) ++ (text.toList ++ wire rest) := by
  have size : mark.toNat.toUInt16.toNat = mark.toNat := UInt16.toNat_ofNat_of_lt (show _ < 2 ^ 16 by omega)
  have single : isScalar mark.toNat.toUInt16 := by
    rw [isScalar_iff, size]
    omega
  have front : units text ++ rest = mark.toNat.toUInt16 :: (encode more ++ rest) := by
    rw [units, starts, encode, flatMap_cons, encodeChar, if_pos (by omega)]
    rfl
  rw [← wire_literal, front, ← wire_jsonEsc]
  exact (decode_append single _ _).trans (congrArg (_ ++ ·) (decode_scalar single _).symm)

theorem wire_last (s : List UInt16) :
    wire (jsonEsc s ++ units "\"]\x7d") = Json.escape (wire s) ++ ['"', ']', '\x7d'] := by
  have closed := wire_escaped s (show "\"]\x7d".toList = '"' :: [']', '\x7d'] by rfl) (by decide) []
  rwa [append_nil] at closed

theorem wire_next (s rest : List UInt16) :
    wire (jsonEsc s ++ (units "\",\"" ++ rest)) = escape (wire s) ++ ('"' :: ',' :: '"' :: wire rest) :=
  wire_escaped s (show "\",\"".toList = '"' :: [',', '"'] by rfl) (by decide) rest

def userName (walletAddress workerName : List UInt16) : List UInt16 := walletAddress ++ 0x2E :: workerName

theorem jsonEsc_userName (walletAddress workerName : List UInt16) (rest : List UInt16) :
    jsonEsc walletAddress ++ (units "." ++ (jsonEsc workerName ++ rest)) = jsonEsc (userName walletAddress workerName) ++ rest := by
  rw [userName, jsonEsc_append, ← singleton_append, jsonEsc_append, append_assoc, append_assoc]
  rfl

theorem id_literal : "\x7b\"id\":".toList = ['\x7b', '"', 'i', 'd', '"', ':'] := rfl

def methodLiteral (method : List Char) : List Char :=
  ',' :: (['"', 'm', 'e', 't', 'h', 'o', 'd', '"', ':', '"'] ++ (method ++
    ['"', ',', '"', 'p', 'a', 'r', 'a', 'm', 's', '"', ':', '[', '"']))

theorem subscribe_literal :
    ",\"method\":\"mining.subscribe\",\"params\":[\"".toList = methodLiteral "mining.subscribe".toList := rfl

theorem authorize_literal :
    ",\"method\":\"mining.authorize\",\"params\":[\"".toList = methodLiteral "mining.authorize".toList := rfl

theorem submit_literal : ",\"method\":\"mining.submit\",\"params\":[\"".toList = methodLiteral "mining.submit".toList := rfl

theorem wire_subscribeFrame (subId : Int) (agent : List UInt16) :
    wire (subscribeFrame subId agent) = requestText subId "mining.subscribe".toList ([agent].map wire) := by
  rw [subscribeFrame, wire_literal, wire_idUnits, wire_literal, wire_last, subscribe_literal, id_literal]
  generalize "mining.subscribe".toList = method
  simp [requestText, methodText, paramsText, methodLiteral, stringItems]

theorem wire_authorizeFrame (authId : Int) (walletAddress workerName password : List UInt16) :
    wire (authorizeFrame authId walletAddress workerName password) =
      requestText authId "mining.authorize".toList ([userName walletAddress workerName, password].map wire) := by
  rw [authorizeFrame, jsonEsc_userName, wire_literal, wire_idUnits, wire_literal, wire_next, wire_last, authorize_literal,
    id_literal]
  generalize "mining.authorize".toList = method
  simp [requestText, methodText, paramsText, methodLiteral, stringItems]

theorem wire_submitFrame (reqId : Int) (walletAddress workerName jobId : List UInt16) (plainProof : List UInt8) :
    wire (submitFrame reqId walletAddress workerName jobId plainProof) =
      requestText reqId "mining.submit".toList
        ([userName walletAddress workerName, jobId, encode (toBase64String plainProof)].map wire) := by
  have proof : wire (encode (toBase64String plainProof) ++ units "\"]\x7d") =
      toBase64String plainProof ++ ['"', ']', '\x7d'] := Utf16.decode_encode_append (toBase64String plainProof) _
  have plain := escape_of_plain fun c member => (base64_plain plainProof c member).1
  rw [submitFrame, jsonEsc_userName, wire_literal, wire_idUnits, wire_literal, wire_next, wire_next, proof, submit_literal,
    id_literal]
  generalize "mining.submit".toList = method
  simp [requestText, methodText, paramsText, methodLiteral, stringItems, wire_encode, plain]

theorem length_stringItems (texts : List (List Char)) : texts.length < (stringItems texts).length := by
  induction texts with
  | nil => simp [stringItems]
  | cons text texts ih =>
    cases texts with
    | nil => simp [stringItems]
    | cons next texts =>
      simp only [stringItems, length_cons, length_append] at ih ⊢
      omega

theorem key_id (rest : List Char) : key (['"', 'i', 'd', '"', ':'] ++ rest) = some (units "id", rest) := rfl

theorem key_method (rest : List Char) :
    key (['"', 'm', 'e', 't', 'h', 'o', 'd', '"', ':'] ++ rest) = some (units "method", rest) := rfl

theorem key_params (rest : List Char) :
    key (['"', 'p', 'a', 'r', 'a', 'm', 's', '"', ':'] ++ rest) = some (units "params", rest) := rfl

theorem value_strings {fuel : Nat} {texts : List (List Char)} (filled : texts ≠ []) (enough : texts.length ≤ fuel + 1)
    (rest : List Char) :
    value (fuel + 2) ('[' :: (stringItems texts ++ rest)) =
      if ∀ text ∈ texts, Json.Printable text then some (.array (texts.map ofText), rest) else none := by
  have starts : ∃ more, stringItems texts ++ rest = '"' :: more := by
    match texts, filled with
    | [text], _ => exact ⟨_, rfl⟩
    | text :: next :: texts, _ => exact ⟨_, rfl⟩
  rw [value_array (fuel + 1) starts, elements_stringItems fuel filled enough rest]
  split <;> rfl

theorem members_paramsText {fuel : Nat} (count : Nat) {texts : List (List Char)} (filled : texts ≠ [])
    (enough : texts.length ≤ fuel + 1) :
    members (value (fuel + 2)) (count + 1) (paramsText texts) =
      if ∀ text ∈ texts, Json.Printable text then some ([(units "params", .array (texts.map ofText))], []) else none := by
  have params := value_strings filled enough ['\x7d']
  split
  · next clean => exact members_last count (key_params _) (params.trans (if_pos clean))
  · next broken => exact members_none count (key_params _) (params.trans (if_neg broken))

theorem value_methodText (fuel : Nat) {method : List Char} (plain : escape method = method)
    (shown : Json.Printable method) (rest : List Char) :
    value (fuel + 1) ('"' :: (method ++ '"' :: rest)) = some (ofText method, rest) := by
  have read := value_escape fuel method rest
  rwa [plain, if_pos shown] at read

/-- A request is read back, unless one of its strings has a control character. -/
theorem parse_requestText (id : Int) {method : List Char} (plain : escape method = method)
    (shown : Json.Printable method) {texts : List (List Char)} (filled : texts ≠ []) :
    parse (requestText id method texts) = if ∀ text ∈ texts, Json.Printable text then
      some (.object [(units "id", .number (decimal id)), (units "method", ofText method),
        (units "params", .array (texts.map ofText))]) else none := by
  obtain ⟨fuel, size⟩ : ∃ fuel, (requestText id method texts).length = fuel + texts.length + 3 := by
    have items := length_stringItems texts
    refine ⟨(requestText id method texts).length - texts.length - 3, ?_⟩
    simp only [requestText, methodText, paramsText, length_cons, length_append]
    omega
  have last := members_paramsText (fuel + texts.length) filled (show texts.length ≤ fuel + texts.length + 1 + 1 by omega)
  have middle := members_more (fuel + texts.length + 1) (key_method _)
    (value_methodText (fuel + texts.length + 2) plain shown (',' :: paramsText texts))
  have whole := members_more (fuel + texts.length + 2) (key_id _)
    (value_decimal (fuel + texts.length + 2) id (.inl rfl) (methodText method texts))
  have read : value (fuel + texts.length + 3 + 1) (requestText id method texts) = _ := value_object _ ⟨_, rfl⟩
  rw [whole, methodText, middle, last] at read
  rw [parse, size, read]
  split_ifs <;> rfl

theorem printable_requestText (id : Int) {method : List Char} (shown : Json.Printable method) {texts : List (List Char)}
    (clean : ∀ text ∈ texts, Json.Printable text) : Json.Printable (requestText id method texts) := by
  have items := printable_stringItems clean
  have number := printable_decimal id
  simp only [requestText, methodText, paramsText, printable_append, printable_cons]
  simp only [items, number, shown]
  decide

theorem clean_iff (s : List UInt16) : Clean s ↔ Json.Printable (wire s) ∧ ofText (wire s) = .string s := by
  have shown : Json.Printable (wire s) ↔ ∀ unit ∈ s, 0x20 ≤ unit.toNat := by
    rw [← decode_bound (by decide) s]
    simp only [Json.Printable, isPlain, decide_eq_true_eq, wire]
  have same : ofText (wire s) = .string s ↔ Utf16.Paired s := by
    rw [← encode_decode_iff, ofText, string.injEq]
    rfl
  rw [shown, same]
  exact ⟨fun clean => ⟨clean.printable, clean.paired⟩, fun both => ⟨both.1, both.2⟩⟩

theorem intact_iff {line : List UInt16} {id : Int} {method : String} {params : List (List UInt16)}
    (text : wire line = requestText id method.toList (params.map wire)) (plain : escape method.toList = method.toList)
    (shown : Json.Printable method.toList) (filled : params ≠ []) :
    Intact line id method params ↔ ∀ param ∈ params, Clean param := by
  have parsed : parse (requestText id method.toList (params.map wire)) = _ :=
    parse_requestText id plain shown (by simpa using filled)
  rw [← text] at parsed
  constructor
  · intro intact param member
    have reads := intact.reads
    rw [parsed] at reads
    split at reads
    · next clean =>
      simp only [request, Option.some.injEq, object.injEq, List.cons.injEq, Prod.mk.injEq, array.injEq,
        map_map, map_inj_left, true_and, and_true] at reads
      exact (clean_iff param).mpr ⟨clean _ (mem_map_of_mem member), reads.2 param member⟩
    · nomatch reads
  · intro clean
    have printable : ∀ text ∈ params.map wire, Json.Printable text := by
      intro text member
      obtain ⟨param, inside, rfl⟩ := mem_map.mp member
      exact ((clean_iff param).mp (clean param inside)).1
    refine ⟨fun newline => ?_, ?_⟩
    -- a line break is below every printable character
    · rw [text] at newline
      exact absurd (printable_requestText id shown printable _ newline) (by decide)
    · have same : (params.map wire).map ofText = params.map .string := by
        rw [map_map]
        exact map_congr_left (fun param inside => ((clean_iff param).mp (clean param inside)).2)
      rw [parsed, if_pos printable, same]
      rfl

theorem clean_userName (walletAddress workerName : List UInt16) :
    Clean (userName walletAddress workerName) ↔ Clean walletAddress ∧ Clean workerName := by
  have paired := paired_append (show isScalar 0x2E by decide) walletAddress workerName
  have printable : (∀ unit ∈ userName walletAddress workerName, 0x20 ≤ unit.toNat) ↔
      (∀ unit ∈ walletAddress, 0x20 ≤ unit.toNat) ∧ ∀ unit ∈ workerName, 0x20 ≤ unit.toNat := by
    rw [userName, forall_mem_append, forall_mem_cons]
    simp
  constructor
  · intro clean
    obtain ⟨wallet, worker⟩ := printable.mp clean.printable
    exact ⟨⟨wallet, (paired.mp clean.paired).1⟩, ⟨worker, (paired.mp clean.paired).2⟩⟩
  · exact fun ⟨wallet, worker⟩ =>
      ⟨printable.mpr ⟨wallet.printable, worker.printable⟩, paired.mpr ⟨wallet.paired, worker.paired⟩⟩

theorem clean_base64 (bytes : List UInt8) : Clean (encode (toBase64String bytes)) := by
  rw [clean_iff, wire_encode]
  exact ⟨fun c member => (base64_plain bytes c member).2, rfl⟩

/-- The subscribe, authorize and submit frames are each one line that reads back to the strings put in, exactly if no
string has a control character or a surrogate without its other half: the escaper knows only backslashes and quotes. -/
theorem frames_intact_iff (subId authId reqId : Int) (agent walletAddress workerName password jobId : List UInt16)
    (plainProof : List UInt8) : (Intact (subscribeFrame subId agent) subId "mining.subscribe" [agent] ∧
      Intact (authorizeFrame authId walletAddress workerName password) authId "mining.authorize"
        [userName walletAddress workerName, password] ∧
      Intact (submitFrame reqId walletAddress workerName jobId plainProof) reqId "mining.submit"
        [userName walletAddress workerName, jobId, encode (toBase64String plainProof)]) ↔
      Clean agent ∧ Clean walletAddress ∧ Clean workerName ∧ Clean password ∧ Clean jobId := by
  rw [intact_iff (wire_subscribeFrame subId agent) (by decide) (by decide) (by simp),
    intact_iff (wire_authorizeFrame authId walletAddress workerName password) (by decide) (by decide) (by simp),
    intact_iff (wire_submitFrame reqId walletAddress workerName jobId plainProof) (by decide) (by decide) (by simp)]
  simp only [forall_mem_cons, clean_userName, clean_base64, not_mem_nil, false_implies, implies_true, and_true]
  tauto

/-- A job id that the pool sent with a line break in it splits the submit frame. -/
theorem submit_frame_split : '\n' ∈ wire (submitFrame 4 (units "wallet") (units "rig") (units "a\nb") [1, 2, 3]) ∧
    (parse (wire (submitFrame 4 (units "wallet") (units "rig") (units "a\nb") [1, 2, 3]))).isNone := by
  decide +kernel

end frames
end ArcMiner.Pool.StratumSession
