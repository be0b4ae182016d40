import ArcMiner.Library.JsonLookup

/-! Objects that are written member by member.

A writer puts a text for each value. A text comes with what a reader makes of it, so an object is
read back as a whole, or not at all when one of its texts is no value.
-/

namespace ArcMiner.Library

namespace Json

open Reader List Option

structure Written where
  text : List Char
  read : Option Json
  reads : ∀ (fuel : Nat) {stop : Char}, EndsMember stop → ∀ rest : List Char,
    value (fuel + 1) (text ++ stop :: rest) = read.map fun json => (json, stop :: rest)

namespace Written

def quoted (text : List Char) : Written where
  text := '"' :: (escape text ++ ['"'])
  read := if Printable text then some (ofText text) else none
  reads fuel stop _ rest := by
    have closed : '"' :: (escape text ++ ['"']) ++ stop :: rest = '"' :: (escape text ++ '"' :: stop :: rest) := by simp
    rw [closed, value_escape]
    split <;> rfl

def integer (n : Int) : Written where
  text := decimal n
  read := some (.number (decimal n))
  reads fuel _ ends rest := value_decimal fuel n ends rest

def flag (value : Bool) : Written where
  text := if value then ['t', 'r', 'u', 'e'] else ['f', 'a', 'l', 's', 'e']
  read := some (.bool value)
  reads _ _ _ _ := by cases value <;> rfl

end Written

def memberText (name text : List Char) : List Char := '"' :: (name ++ '"' :: ':' :: text)

def membersText : List (List Char × List Char) → List Char
  | [] => ['\x7d']
  | [(name, text)] => memberText name (text ++ ['\x7d'])
  | (name, text) :: members => memberText name (text ++ ',' :: membersText members)

def PlainName (name : List Char) : Prop := escape name = name ∧ Printable name

instance (name : List Char) : Decidable (PlainName name) := inferInstanceAs (Decidable (_ ∧ _))

theorem key_memberText {name : List Char} (plain : PlainName name) (rest : List Char) :
    key (memberText name rest) = some (Utf16.encode name, rest) := by
  have read := stringBody_escape name (':' :: rest)
  rw [plain.1, if_pos plain.2] at read
  have after : key (memberText name rest) = (stringBody (name ++ '"' :: ':' :: rest)).bind fun found =>
      (do whitespace; expect ':'; pure found.1 : Reader Char (List UInt16)) found.2 := rfl
  rw [after, read]
  rfl

def readMembers (members : List (List Char × Written)) : Option (List (List UInt16 × Json)) :=
  members.mapM fun member => member.2.read.map fun json => (Utf16.encode member.1, json)

def textsOf (members : List (List Char × Written)) : List (List Char × List Char) :=
  members.map fun member => (member.1, member.2.text)

theorem members_membersText (fuel : Nat) {members : List (List Char × Written)} (filled : members ≠ [])
    (plain : ∀ member ∈ members, PlainName member.1) {count : Nat} (enough : members.length ≤ count) (rest : List Char) :
    Json.members (value (fuel + 1)) count (membersText (textsOf members) ++ rest) =
      (readMembers members).map fun read => (read, rest) := by
  induction members generalizing count with
  | nil => exact absurd rfl filled
  | cons member members ih =>
    obtain ⟨name, written⟩ := member
    obtain ⟨count, rfl⟩ : ∃ n, count = n + 1 := Nat.exists_eq_add_of_le' (Nat.le_trans (by simp) enough)
    obtain ⟨here, later⟩ := forall_mem_cons.mp plain
    cases members with
    | nil =>
      have only : membersText (textsOf [(name, written)]) ++ rest = memberText name (written.text ++ '\x7d' :: rest) := by
        simp [membersText, textsOf, memberText]
      have read := written.reads fuel (.inr rfl) rest
      rw [only, readMembers, mapM_cons, mapM_nil]
      cases found : written.read with
      | none => exact members_none count (key_memberText here _) (by rw [read, found]; rfl)
      | some json => exact members_last count (key_memberText here _) (by rw [read, found]; rfl)
    | cons next members =>
      have first : membersText (textsOf ((name, written) :: next :: members)) ++ rest =
          memberText name (written.text ++ ',' :: (membersText (textsOf (next :: members)) ++ rest)) := by
        simp [membersText, textsOf, memberText]
      have read := written.reads fuel (.inl rfl) (membersText (textsOf (next :: members)) ++ rest)
      rw [first, readMembers, mapM_cons, ← readMembers]
      cases found : written.read with
      | none => exact members_none count (key_memberText here _) (by rw [read, found]; rfl)
      | some json =>
        rw [members_more count (key_memberText here _) (by rw [read, found]; rfl),
          ih (by simp) later (Nat.le_of_succ_le_succ enough)]
        cases readMembers (next :: members) <;> rfl

theorem length_membersText (texts : List (List Char × List Char)) : texts.length ≤ (membersText texts).length := by
  induction texts with
  | nil => simp
  | cons text texts ih =>
    cases texts with
    | nil => simp [membersText, memberText]
    | cons next texts =>
      simp only [membersText, memberText, length_cons, length_append] at ih ⊢
      omega

theorem membersText_starts (member : List Char × Written) (members : List (List Char × Written)) :
    ∃ more, membersText (textsOf (member :: members)) = '"' :: more := by
  cases members with
  | nil => exact ⟨_, rfl⟩
  | cons next members => exact ⟨_, rfl⟩

theorem parse_membersText {members : List (List Char × Written)} (plain : ∀ member ∈ members, PlainName member.1) :
    parse ('\x7b' :: membersText (textsOf members)) = (readMembers members).map .object := by
  cases members with
  | nil => rfl
  | cons member members =>
    have enough : (member :: members).length ≤ (membersText (textsOf (member :: members))).length + 1 := by
      have texts := length_membersText (textsOf (member :: members))
      rw [textsOf, length_map] at texts
      exact Nat.le_succ_of_le texts
    have read := members_membersText (membersText (textsOf (member :: members))).length (cons_ne_nil _ _) plain enough []
    rw [append_nil] at read
    rw [parse, length_cons, value_object _ (membersText_starts member members), read]
    cases readMembers (member :: members) <;> rfl

section fields

def present {α : Type} (fields : List (String × Option α)) : List (List Char × α) :=
  fields.filterMap fun field => field.2.map fun value => (field.1.toList, value)

def membersOf (fields : List (String × Option Json)) : List (List UInt16 × Json) :=
  (present fields).map fun member => (Utf16.encode member.1, member.2)

theorem present_cons {α : Type} (name : String) (value : Option α) (fields : List (String × Option α)) :
    present ((name, value) :: fields) = (value.map fun value => (name.toList, value)).toList ++ present fields := by
  cases value <;> rfl

theorem textsOf_present (fields : List (String × Option Written)) :
    textsOf (present fields) = present (fields.map fun field => (field.1, field.2.map Written.text)) := by
  induction fields with
  | nil => rfl
  | cons field fields ih =>
    obtain ⟨name, written⟩ := field
    rw [map_cons, present_cons, present_cons, ← ih]
    cases written <;> rfl

theorem plain_present {fields : List (String × Option Written)} (plain : ∀ field ∈ fields, PlainName field.1.toList) :
    ∀ member ∈ present fields, PlainName member.1 := by
  intro member inside
  obtain ⟨field, listed, found⟩ := mem_filterMap.mp inside
  obtain ⟨written, -, rfl⟩ := map_eq_some_iff.mp found
  exact plain field listed

def Legible (fields : List (String × Option Written)) : Prop := ∀ field ∈ fields, ∀ written ∈ field.2, written.read.isSome

theorem legible_cons (name : String) (written : Option Written) (fields : List (String × Option Written)) :
    Legible ((name, written) :: fields) ↔ (∀ one ∈ written, one.read.isSome) ∧ Legible fields := forall_mem_cons

theorem readMembers_present {fields : List (String × Option Written)} (legible : Legible fields) :
    readMembers (present fields) = some (membersOf (fields.map fun field => (field.1, field.2.bind Written.read))) := by
  induction fields with
  | nil => rfl
  | cons field fields ih =>
    obtain ⟨name, written⟩ := field
    obtain ⟨here, later⟩ := (legible_cons name written fields).mp legible
    have rest := ih later
    cases written with
    | none => exact rest
    | some written =>
      obtain ⟨json, found⟩ := isSome_iff_exists.mp (here written rfl)
      rw [present_cons, map_some, toList_some, singleton_append, readMembers, mapM_cons,
        ← readMembers, rest, found, map_cons, bind_some, found]
      rfl

theorem readMembers_illegible {fields : List (String × Option Written)} (broken : ¬Legible fields) :
    readMembers (present fields) = none := by
  induction fields with
  | nil => exact absurd nofun broken
  | cons field fields ih =>
    obtain ⟨name, written⟩ := field
    rw [legible_cons] at broken
    cases written with
    | none => exact ih fun legible => broken ⟨nofun, legible⟩
    | some written =>
      rw [present_cons, map_some, toList_some, singleton_append, readMembers, mapM_cons,
        ← readMembers]
      cases found : written.read with
      | none => rfl
      | some json =>
        rw [ih fun legible => broken ⟨by rintro _ ⟨⟩; rw [found]; rfl, legible⟩]
        rfl

end fields

section nesting

mutual

def nesting : Json → Nat
  | .array items => nestingItems items + 1
  | .object members => nestingMembers members + 1
  | _ => 0

def nestingItems : List Json → Nat
  | [] => 0
  | item :: items => max (nesting item) (nestingItems items)

def nestingMembers : List (List UInt16 × Json) → Nat
  | [] => 0
  | member :: members => max (nestingMember member) (nestingMembers members)

def nestingMember : List UInt16 × Json → Nat
  | (_, value) => nesting value

end

theorem nestingMembers_eq_zero {members : List (List UInt16 × Json)} (flat : ∀ member ∈ members, nesting member.2 = 0) :
    nestingMembers members = 0 := by
  induction members with
  | nil => rfl
  | cons member members ih =>
    obtain ⟨here, later⟩ := forall_mem_cons.mp flat
    rw [nestingMembers, nestingMember, here, ih later]
    rfl

theorem nestingMembers_membersOf {fields : List (String × Option Json)}
    (flat : ∀ field ∈ fields, ∀ json ∈ field.2, nesting json = 0) : nestingMembers (membersOf fields) = 0 := by
  apply nestingMembers_eq_zero
  intro member inside
  obtain ⟨named, listed, rfl⟩ := mem_map.mp inside
  obtain ⟨field, original, found⟩ := mem_filterMap.mp listed
  obtain ⟨json, given, rfl⟩ := map_eq_some_iff.mp found
  exact flat field original json given

end nesting
end Json

namespace CSharp

/-- `JsonDocument.Parse`, which takes values nested up to 64 deep. -/
def JsonDocument.parse (text : List Char) : Option Json := (Json.parse text).filter fun json => json.nesting ≤ 64

theorem integerOf_decimal (n : Int) : integerOf (Json.decimal n) = some n := by
  have digits : (Nat.toDigits 10 n.natAbs).all Char.isDigit := by
    rw [List.all_eq_true]
    intro c member
    exact Nat.isDigit_of_mem_toDigits (by decide) (by decide) member
  unfold Json.decimal
  split
  · next negative =>
    rw [integerOf, if_pos digits, Nat.ofDigitChars_ten_toDigits]
    exact congrArg some (by omega)
  · next positive =>
    obtain ⟨first, rest, same, digit⟩ := Json.toDigits_cons n.natAbs
    have unsigned : integerOf (Nat.toDigits 10 n.natAbs) =
        if (Nat.toDigits 10 n.natAbs).all Char.isDigit then some (Nat.ofDigitChars 10 (Nat.toDigits 10 n.natAbs) 0 : Int)
        else none := by
      rw [same, integerOf]
      rintro _ ⟨⟩
      exact absurd digit (by decide)
    rw [unsigned, if_pos digits, Nat.ofDigitChars_ten_toDigits]
    exact congrArg some (by omega)

namespace JsonElement
variable {lookup : Lookup}

theorem getString_ofText (text : String) : getString (Json.ofText text.toList) = .ok (some text) := by
  have read : textOf (Utf16.encode text.toList) = some text := by
    rw [textOf, if_pos (Utf16.paired_encode text.toList), Utf16.decode_encode, String.ofList_toList]
  rw [Json.ofText, getString, read]

theorem findMember_append (name : String) (front back : List (List UInt16 × Json)) :
    findMember lookup name (front ++ back) =
      findMember lookup name front >>= fun found => found.elim (findMember lookup name back) fun value => .ok (some value) := by
  induction front with
  | nil => rfl
  | cons member front ih =>
    obtain ⟨key, value⟩ := member
    rw [List.cons_append, findMember, findMember]
    split
    · rfl
    · split
      · rfl
      · exact ih

theorem findMember_other {name other : String} (differ : name ≠ other) (value : Option Json) :
    findMember lookup name (value.map fun value => (Utf16.encode other.toList, value)).toList = .ok none := by
  have apart : Utf16.encode other.toList ≠ Utf16.encode name.toList := by
    intro same
    have equal := congrArg Utf16.decode same
    rw [Utf16.decode_encode, Utf16.decode_encode] at equal
    exact differ (String.toList_injective equal).symm
  have smooth : lookup.stumbles name (Utf16.encode other.toList) = false := by
    by_contra stumbles
    exact lookup.onlyUnpaired name _ (by simpa using stumbles) (Utf16.paired_encode other.toList)
  cases value with
  | none => rfl
  | some value => rw [Option.map_some, Option.toList_some, findMember, if_neg apart, if_neg (by simp [smooth]), findMember]

theorem tryGetProperty_membersOf {fields : List (String × Option Json)} (distinct : (fields.map Prod.fst).Nodup)
    (name : String) :
    tryGetProperty lookup name (.object (Json.membersOf fields)) = .ok (fields.lookup name).join := by
  change findMember lookup name (Json.membersOf fields).reverse = _
  induction fields with
  | nil => rfl
  | cons field fields ih =>
    obtain ⟨other, value⟩ := field
    obtain ⟨fresh, distinct⟩ := List.nodup_cons.mp distinct
    have last : (Json.membersOf ((other, value) :: fields)).reverse = (Json.membersOf fields).reverse ++
        (value.map fun value => (Utf16.encode other.toList, value)).toList := by
      cases value <;> simp [Json.membersOf, Json.present]
    rw [last, findMember_append, ih distinct, List.lookup_cons, ok_bind]
    by_cases same : name = other
    · -- a later field has another name, so the search gets to this one
      subst same
      have missing : fields.lookup name = none := by
        rw [List.lookup_eq_none_iff]
        rintro ⟨key, later⟩ member
        apply bne_iff_ne.mpr
        rintro rfl
        exact fresh (List.mem_map.mpr ⟨_, member, rfl⟩)
      rw [missing, beq_self_eq_true]
      cases value with
      | none => rfl
      | some value => simp [findMember]
    · rw [findMember_other same, beq_false_of_ne same]
      cases (fields.lookup name).join <;> rfl

end JsonElement
end CSharp
end ArcMiner.Library
