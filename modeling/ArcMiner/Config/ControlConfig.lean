import ArcMiner.Library.JsonWriter

/-! `ControlConfig`: the settings that the control API keeps in a file.

The file is its text, or missing. `Save` writes it in one move, so a save that fails leaves it as it
was.
-/

namespace ArcMiner.Config

open Library Library.CSharp Option Except Json

/-- A field that is `none` is not managed by the file. -/
structure ControlConfig where
  poolHost : Option String := none
  poolPort : Option Int := none
  useTls : Option Bool := none
  wallet : Option String := none
  worker : Option String := none
  algo : Option String := none
deriving DecidableEq

namespace ControlConfig

section load
variable (lookup : JsonElement.Lookup)

open JsonElement

def readText (name : String) (set : ControlConfig → Option String → ControlConfig) (root : Json) (cfg : ControlConfig) :
    Result ControlConfig := do
  match ← tryGetProperty lookup name root with
  | some (.string units) => return set cfg (← getString (.string units))
  | _ => return cfg

/-- A number that is no `int` is passed over. -/
def readPort (root : Json) (cfg : ControlConfig) : Result ControlConfig := do
  match ← tryGetProperty lookup "pool_port" root with
  | some (.number literal) =>
    match integerIn (-2 ^ 31) (2 ^ 31 - 1) literal with
    | some port => return { cfg with poolPort := some port }
    | none => return cfg
  | _ => return cfg

def readTls (root : Json) (cfg : ControlConfig) : Result ControlConfig := do
  match ← tryGetProperty lookup "use_tls" root with
  | some (.bool value) => return { cfg with useTls := some value }
  | _ => return cfg

def readings : List (Json → ControlConfig → Result ControlConfig) :=
  [readText lookup "pool_host" fun cfg text => { cfg with poolHost := text },
   readPort lookup,
   readTls lookup,
   readText lookup "wallet" fun cfg text => { cfg with wallet := text },
   readText lookup "worker" fun cfg text => { cfg with worker := text },
   readText lookup "algo" fun cfg text => { cfg with algo := text }]

/-- The members one after the other. An exception is caught, and what was read before it stays. -/
def readAll (root : Json) : List (Json → ControlConfig → Result ControlConfig) → ControlConfig → ControlConfig
  | [], cfg => cfg
  | read :: rest, cfg =>
    match read root cfg with
    | .ok cfg => readAll root rest cfg
    | .error _ => cfg

def load (file : Option (List Char)) : ControlConfig :=
  match file.bind JsonDocument.parse with
  | some (.object members) => readAll (.object members) (readings lookup) {}
  | _ => {}

end load

section save

/-- The `StringBuilder` of `Save`, and whether a field is the first one. -/
structure Builder where
  text : List Char
  first : Bool

/-- `Field`, for a value that is not null. -/
def Builder.field (sb : Builder) (entry : String × Option (List Char)) : Builder :=
  match entry.2 with
  | none => sb
  | some v =>
    let text := if sb.first then sb.text else sb.text ++ [',']
    { text := text ++ '"' :: (entry.1.toList ++ '"' :: ':' :: v), first := false }

def quote (text : String) : List Char := '"' :: (Json.escape text.toList ++ ['"'])

def entries (cfg : ControlConfig) : List (String × Option (List Char)) :=
  [("pool_host", cfg.poolHost.map quote),
   ("pool_port", cfg.poolPort.map decimal),
   ("use_tls", cfg.useTls.map fun tls => if tls then ['t', 'r', 'u', 'e'] else ['f', 'a', 'l', 's', 'e']),
   ("wallet", cfg.wallet.map quote),
   ("worker", cfg.worker.map quote),
   ("algo", cfg.algo.map quote)]

def save (cfg : ControlConfig) : List Char := (cfg.entries.foldl Builder.field ⟨['\x7b'], true⟩).text ++ ['\x7d']

end save

/-- Fields of an update that are not null replace those that are there. -/
def overlay (cur updates : ControlConfig) : ControlConfig where
  poolHost := updates.poolHost.or cur.poolHost
  poolPort := updates.poolPort.or cur.poolPort
  useTls := updates.useTls.or cur.useTls
  wallet := updates.wallet.or cur.wallet
  worker := updates.worker.or cur.worker
  algo := updates.algo.or cur.algo

def merge (lookup : JsonElement.Lookup) (updates : ControlConfig) (file : Option (List Char)) : List Char :=
  save (overlay (load lookup file) updates)

section written

theorem foldl_field (sb : Builder) (entries : List (String × Option (List Char))) :
    (entries.foldl Builder.field sb).text ++ ['\x7d'] =
      sb.text ++ if sb.first ∨ present entries = [] then membersText (present entries)
        else ',' :: membersText (present entries) := by
  induction entries generalizing sb with
  | nil => simp [present, membersText]
  | cons entry entries ih =>
    obtain ⟨name, value⟩ := entry
    rw [List.foldl_cons, ih]
    cases value with
    | none => rfl
    | some v =>
      rw [present_cons]
      cases later : present entries with
      | nil => cases first : sb.first <;> simp [Builder.field, first, membersText, memberText]
      | cons next rest => cases first : sb.first <;> simp [Builder.field, first, membersText, memberText]

def written (cfg : ControlConfig) : List (String × Option Json.Written) :=
  [("pool_host", cfg.poolHost.map fun text => .quoted text.toList),
   ("pool_port", cfg.poolPort.map .integer),
   ("use_tls", cfg.useTls.map .flag),
   ("wallet", cfg.wallet.map fun text => .quoted text.toList),
   ("worker", cfg.worker.map fun text => .quoted text.toList),
   ("algo", cfg.algo.map fun text => .quoted text.toList)]

theorem save_eq (cfg : ControlConfig) : cfg.save = '\x7b' :: membersText (textsOf (present cfg.written)) := by
  rw [save, foldl_field, if_pos (.inl rfl), textsOf_present]
  simp only [written, List.map_cons, List.map_nil, map_map]
  rfl

def Printable (cfg : ControlConfig) : Prop :=
  ∀ field ∈ [cfg.poolHost, cfg.wallet, cfg.worker, cfg.algo], ∀ text ∈ field, Json.Printable text.toList

instance (cfg : ControlConfig) : Decidable cfg.Printable :=
  inferInstanceAs (Decidable (∀ field ∈ [cfg.poolHost, cfg.wallet, cfg.worker, cfg.algo], ∀ text ∈ field, _))

theorem quoted_legible (field : Option String) :
    (∀ written ∈ field.map fun text => Json.Written.quoted text.toList, written.read.isSome) ↔
      ∀ text ∈ field, Json.Printable text.toList := by
  cases field with
  | none => simp
  | some text => by_cases shown : Json.Printable text.toList <;> simp [Json.Written.quoted, shown]

theorem legible_iff (cfg : ControlConfig) : Json.Legible cfg.written ↔ cfg.Printable := by
  have port : ∀ written ∈ cfg.poolPort.map Json.Written.integer, written.read.isSome := by
    intro written member
    obtain ⟨n, -, rfl⟩ := map_eq_some_iff.mp member
    rfl
  have tls : ∀ written ∈ cfg.useTls.map Json.Written.flag, written.read.isSome := by
    intro written member
    obtain ⟨value, -, rfl⟩ := map_eq_some_iff.mp member
    rfl
  simp only [written, legible_cons, quoted_legible, Printable, List.forall_mem_cons]
  constructor
  · rintro ⟨host, -, -, wallet, worker, algo, -⟩
    exact ⟨host, wallet, worker, algo, nofun⟩
  · rintro ⟨host, wallet, worker, algo, -⟩
    exact ⟨host, port, tls, wallet, worker, algo, nofun⟩

def values (cfg : ControlConfig) : List (String × Option Json) :=
  [("pool_host", cfg.poolHost.map fun text => ofText text.toList),
   ("pool_port", cfg.poolPort.map fun port => .number (decimal port)),
   ("use_tls", cfg.useTls.map .bool),
   ("wallet", cfg.wallet.map fun text => ofText text.toList),
   ("worker", cfg.worker.map fun text => ofText text.toList),
   ("algo", cfg.algo.map fun text => ofText text.toList)]

theorem quoted_read {field : Option String} (shown : ∀ text ∈ field, Json.Printable text.toList) :
    (field.map fun text => Json.Written.quoted text.toList).bind Json.Written.read =
      field.map fun text => ofText text.toList := by
  cases field with
  | none => rfl
  | some text => exact if_pos (shown text rfl)

theorem written_read {cfg : ControlConfig} (shown : cfg.Printable) :
    (cfg.written.map fun field => (field.1, field.2.bind Json.Written.read)) = cfg.values := by
  simp only [Printable, List.forall_mem_cons] at shown
  obtain ⟨host, wallet, worker, algo, -⟩ := shown
  have port : (cfg.poolPort.map Json.Written.integer).bind Json.Written.read =
      cfg.poolPort.map fun port => .number (decimal port) := by cases cfg.poolPort <;> rfl
  have tls : (cfg.useTls.map Json.Written.flag).bind Json.Written.read = cfg.useTls.map .bool := by cases cfg.useTls <;> rfl
  simp only [written, values, List.map_cons, List.map_nil]
  rw [quoted_read host, port, tls, quoted_read wallet, quoted_read worker, quoted_read algo]

theorem values_flat (cfg : ControlConfig) : ∀ field ∈ cfg.values, ∀ json ∈ field.2, json.nesting = 0 := by
  have scalar {α : Type} (field : Option α) (f : α → Json) (flat : ∀ a, (f a).nesting = 0) :
      ∀ json ∈ field.map f, json.nesting = 0 := by
    intro json member
    obtain ⟨a, -, rfl⟩ := map_eq_some_iff.mp member
    exact flat a
  simp only [values, List.forall_mem_cons]
  exact ⟨scalar _ _ fun _ => rfl, scalar _ _ fun _ => rfl, scalar _ _ fun _ => rfl, scalar _ _ fun _ => rfl,
    scalar _ _ fun _ => rfl, scalar _ _ fun _ => rfl, nofun⟩

theorem plain_written (cfg : ControlConfig) : ∀ field ∈ cfg.written, Json.PlainName field.1.toList := by
  simp only [written, List.forall_mem_cons]
  exact ⟨by decide, by decide, by decide, by decide, by decide, by decide, nofun⟩

theorem parse_save (cfg : ControlConfig) :
    JsonDocument.parse cfg.save = if cfg.Printable then some (.object (membersOf cfg.values)) else none := by
  rw [JsonDocument.parse, save_eq, parse_membersText (plain_present cfg.plain_written)]
  split
  · next shown =>
    rw [readMembers_present (cfg.legible_iff.mpr shown), written_read shown, map_some, filter_some,
      if_pos]
    rw [nesting, nestingMembers_membersOf cfg.values_flat]
    rfl
  · next broken =>
    rw [readMembers_illegible fun legible => broken (cfg.legible_iff.mp legible)]
    rfl

end written

section roundTrip
variable {lookup : JsonElement.Lookup} {root : Json} {acc : ControlConfig}

open JsonElement

theorem readText_eq {name : String} {set : ControlConfig → Option String → ControlConfig} {field : Option String}
    (found : tryGetProperty lookup name root = .ok (field.map fun text => ofText text.toList))
    (blank : set acc none = acc) : readText lookup name set root acc = .ok (set acc field) := by
  rw [readText, found, ok_bind]
  cases field with
  | none => exact congrArg ok blank.symm
  | some text =>
    change getString (ofText text.toList) >>= (fun read => pure (set acc read)) = _
    rw [getString_ofText, ok_bind]
    rfl

def PortFits (cfg : ControlConfig) : Prop := ∀ port ∈ cfg.poolPort, -2 ^ 31 ≤ port ∧ port ≤ 2 ^ 31 - 1

theorem readPort_eq {port : Option Int} (fits : ∀ n ∈ port, -2 ^ 31 ≤ n ∧ n ≤ (2 ^ 31 - 1 : Int))
    (found : tryGetProperty lookup "pool_port" root = .ok (port.map fun n => .number (decimal n)))
    (blank : acc.poolPort = none) : readPort lookup root acc = .ok { acc with poolPort := port } := by
  rw [readPort, found, ok_bind]
  cases port with
  | none =>
    have same : { acc with poolPort := none } = acc := by rw [← blank]
    exact congrArg ok same.symm
  | some n =>
    have inside : integerIn (-2 ^ 31) (2 ^ 31 - 1) (decimal n) = some n := by
      rw [integerIn, integerOf_decimal, filter_some, if_pos (by simpa using fits n rfl)]
    simp only [map_some, inside]
    rfl

theorem readTls_eq {tls : Option Bool} (found : tryGetProperty lookup "use_tls" root = .ok (tls.map .bool))
    (blank : acc.useTls = none) : readTls lookup root acc = .ok { acc with useTls := tls } := by
  rw [readTls, found, ok_bind]
  cases tls with
  | none =>
    have same : { acc with useTls := none } = acc := by rw [← blank]
    exact congrArg ok same.symm
  | some value => rfl

theorem readAll_cons {read : Json → ControlConfig → Result ControlConfig} {next : ControlConfig}
    (reads : read root acc = .ok next) (rest : List (Json → ControlConfig → Result ControlConfig)) :
    readAll root (read :: rest) acc = readAll root rest next := by
  rw [readAll, reads]

theorem load_save {cfg : ControlConfig} (shown : cfg.Printable) (fits : cfg.PortFits) :
    load lookup (some cfg.save) = cfg := by
  have distinct : (cfg.values.map Prod.fst).Nodup := by
    change ["pool_host", "pool_port", "use_tls", "wallet", "worker", "algo"].Nodup
    decide
  have found (name : String) : tryGetProperty lookup name (.object (membersOf cfg.values)) = _ :=
    tryGetProperty_membersOf distinct name
  rw [load, bind_some, parse_save, if_pos shown]
  dsimp only
  rw [readings, readAll_cons (readText_eq (found "pool_host") rfl), readAll_cons (readPort_eq fits (found "pool_port") rfl),
    readAll_cons (readTls_eq (found "use_tls") rfl), readAll_cons (readText_eq (found "wallet") rfl),
    readAll_cons (readText_eq (found "worker") rfl), readAll_cons (readText_eq (found "algo") rfl), readAll]

structure Valid (cfg : ControlConfig) : Prop where
  shown : cfg.Printable
  fits : cfg.PortFits

theorem valid_empty : Valid {} := ⟨by decide, nofun⟩

theorem Valid.overlay {cur updates : ControlConfig} (old : cur.Valid) (new : updates.Valid) :
    (cur.overlay updates).Valid := by
  have either {α : Type} {P : α → Prop} {second first : Option α} (before : ∀ a ∈ second, P a) (after : ∀ a ∈ first, P a) :
      ∀ a ∈ first.or second, P a := by
    intro a member
    rcases or_eq_some_iff.mp member with found | ⟨-, found⟩
    · exact after a found
    · exact before a found
  obtain ⟨oldShown, oldFits⟩ := old
  obtain ⟨newShown, newFits⟩ := new
  simp only [Printable, List.forall_mem_cons] at oldShown newShown
  refine ⟨?_, either oldFits newFits⟩
  simp only [Printable, ControlConfig.overlay, List.forall_mem_cons]
  exact ⟨either oldShown.1 newShown.1, either oldShown.2.1 newShown.2.1, either oldShown.2.2.1 newShown.2.2.1,
    either oldShown.2.2.2.1 newShown.2.2.2.1, nofun⟩

theorem printable_of_overlay {cur updates : ControlConfig} (shown : (cur.overlay updates).Printable) : updates.Printable := by
  have kept {P : String → Prop} {first second : Option String} (both : ∀ text ∈ first.or second, P text) :
      ∀ text ∈ first, P text := by
    intro text member
    exact both text (or_eq_some_iff.mpr (.inl member))
  simp only [Printable, overlay, List.forall_mem_cons] at shown ⊢
  exact ⟨kept shown.1, kept shown.2.1, kept shown.2.2.1, kept shown.2.2.2.1, nofun⟩

/-- A control character in one text loses every field. -/
theorem load_save_of_not_printable {cfg : ControlConfig} (broken : ¬cfg.Printable) : load lookup (some cfg.save) = {} := by
  rw [load, bind_some, parse_save, if_neg broken]

end roundTrip
end ControlConfig
end ArcMiner.Config
