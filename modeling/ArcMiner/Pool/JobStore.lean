import ArcMiner.Pool.ReadLoopSafety

/-! The job ids of the session: under which key a notify is kept, and what a share finds there. -/

namespace ArcMiner.Pool.StratumSession

open Library Library.CSharp Library.Action Library.Machine AkoyaCrypto Option FifoStore StratumJobParser Convert

/-- How `SubmitShareAsync` finds the job id of a share: under its sigma or, as is noted with it, from the
front of its sigma. -/
def resolveJobId (jobs : FifoStore String (Option String)) (sigma : List UInt8) : Result (Option String × Bool) :=
  match jobs.values.lookup (toLowerInvariant (toHexString sigma)) with
  | some jobId => .ok (jobId, false)
  | none =>
    if sigma.length < 16 then .error (.argumentOutOfRange "")
    else .ok (some (toLowerInvariant (toHexString (sigma.take 16))), true)

def entryOf (p : StratumNotifyParams) : Option (String × Option String) :=
  p.header.bind fun header => if HexText header.toList then some (toLowerInvariant header, p.jobId) else none

section entries
variable (host : Host) (toNbits : Double → Result UInt32)

def entry (session : Session) : Json → Option (String × Option String)
  | .array arr =>
    if 9 ≤ arr.length then do
      -- the long form is kept before the difficulty is looked at
      let job ← (parseNotification host.toPrimitives arr session.extranonce1 [0, 0, 0, 0]).toOption
      let jobId ← (JsonElement.getString (optional arr 0)).toOption
      some (toLowerInvariant (toHexString job.sigma), some (jobId.getD ""))
    else (exec (parseArrayNotify host toNbits arr) session).1.toOption.join.bind entryOf
  | json => (StratumNotifyParams.deserialize json).toOption.bind entryOf

def messageEntry (session : Session) (msg : StratumMessage) : Option (String × Option String) :=
  match msg.method, msg.params with
  | some "mining.notify", some params => entry host toNbits session params
  | _, _ => none

def lineEntry (session : Session) (line : List Char) : Option (String × Option String) :=
  match (host.parse line).map StratumMessage.deserialize with
  | some (.ok (some msg)) => messageEntry host toNbits session msg
  | _ => none

/-- What the lines put into the store, up to the one that ends the loop. -/
def journal : Session → List (List Char) → List (String × Option String)
  | _, [] => []
  | session, line :: lines =>
    (lineEntry host toNbits session line).toList ++
      match exec (turn host toNbits line) session with
      | (.ok _, after) => journal after lines
      | (.error _, _) => []

end entries

def keep (jobs : FifoStore String (Option String)) : Option (String × Option String) → FifoStore String (Option String)
  | none => jobs
  | some (key, jobId) => jobs.record 100 key jobId

section steps
variable {host : Host} {toNbits : Double → Result UInt32} {session : Session}

def Leaves {α : Type} (action : SessionM α) (jobs : FifoStore String (Option String)) (session : Session) : Prop :=
  ends action (fun _ after => after.jobs = jobs) (fun _ after => after.jobs = jobs) session

theorem leaves_iff {α : Type} {action : SessionM α} {jobs : FifoStore String (Option String)} :
    Leaves action jobs session ↔ (exec action session).2.jobs = jobs :=
  @ends_state_iff _ _ _ session action fun after => after.jobs = jobs

theorem jobOf_leaves (p : StratumNotifyParams) :
    Leaves (parsePearlNotification host p >>= fun job => call (.onJob job)) (keep session.jobs (entryOf p)) session := by
  unfold Leaves parsePearlNotification
  simp only [ends_bind, ends_ofResult]
  cases named : p.header with
  | none =>
    have nothing : entryOf p = none := by rw [entryOf, named]; rfl
    rw [nothing]
    rfl
  | some header =>
    rcases decode_cases header with ⟨hex, sigma, decoded⟩ | ⟨bad, decoded⟩
    · have something : entryOf p = some (toLowerInvariant header, p.jobId) := by
        rw [entryOf, named]
        exact if_pos hex
      rw [getD_some, decoded, something]
      -- nothing after the store is entered touches it
      cases p.jobId with
      | none => rfl
      | some jobId =>
        simp only [storeJob, ends_bind, ends_modify, ends_pure, ends_ofResult, ends_ite]
        cases Hex.decode (p.target.getD "") with
        | error why => rfl
        | ok targetBytes =>
          by_cases empty : (p.bSeed.getD "").isEmpty
          · simp only [if_pos empty]
            rfl
          · simp only [if_neg empty]
            cases Hex.decode (p.bSeed.getD "") <;> rfl
    · have nothing : entryOf p = none := by
        rw [entryOf, named]
        exact if_neg bad
      rw [getD_some, decoded, nothing]
      rfl

theorem parseArrayNotify_state {arr : List Json} (short : ¬ 9 ≤ arr.length) :
    (exec (parseArrayNotify host toNbits arr) session).2 = session := by
  rw [← @ends_state_iff _ _ _ session _ fun after => after = session, parseArrayNotify, ends_ite]
  split
  · rfl
  · simp only [ends_bind, ends_get, ends_ofResult, ends_pure]
    cases JsonElement.getString (optional arr 0) with
    | error why => trivial
    | ok jobId =>
      cases JsonElement.getString (optional arr 2) with
      | error why => trivial
      | ok header =>
        cases positionalHeight (optional arr 3) with
        | error why => trivial
        | ok height => cases toNbits (jobDifficulty session.lastDifficulty) <;> trivial

/-- Nine or more elements: the store is entered, or nothing is done. -/
theorem parseArrayNotify_stores {arr : List Json} (long : 9 ≤ arr.length) :
    (entry host toNbits session (.array arr) = none ∧
      exec (parseArrayNotify host toNbits arr) session = (.ok none, session)) ∨
    ∃ sigma jobId, let key := toLowerInvariant (toHexString sigma)
      entry host toNbits session (.array arr) = some (key, some jobId) ∧
        ∃ read, exec (parseArrayNotify host toNbits arr) session =
            (.ok read, { session with jobs := session.jobs.record 100 key (some jobId) }) ∧
          ∀ p ∈ read, p.header = some key ∧ p.jobId = some jobId := by
  have several : ¬ arr.length < 4 := by omega
  rw [entry, if_pos long, parseArrayNotify, if_neg several, if_pos long, exec_tryCatch]
  simp only [exec_bind, exec_get, exec_ofResult]
  cases parseNotification host.toPrimitives arr session.extranonce1 [0, 0, 0, 0] with
  | error why => exact .inl ⟨rfl, rfl⟩
  | ok job =>
    cases JsonElement.getString (optional arr 0) with
    | error why => exact .inl ⟨rfl, rfl⟩
    | ok jobId =>
      refine .inr ⟨job.sigma, jobId.getD "", rfl, ?_⟩
      cases toNbits (jobDifficulty session.lastDifficulty) with
      | error why => exact ⟨none, rfl, by rintro p ⟨⟩⟩
      | ok nbits =>
        refine ⟨some _, rfl, ?_⟩
        rintro p ⟨⟩
        exact ⟨rfl, rfl⟩

theorem handleNotify_of_read {params : Json} {read : Result (Option StratumNotifyParams)}
    (unchanged : exec (notifyParams host toNbits params) session = (read, session)) :
    Leaves (handleNotify host toNbits params) (keep session.jobs (read.toOption.join.bind entryOf)) session := by
  rw [leaves_iff, handleNotify, exec_bind, unchanged]
  cases read with
  | error why => rfl
  | ok read =>
    cases read with
    | none => rfl
    | some p => exact leaves_iff.mp (jobOf_leaves p)

theorem handleNotify_leaves_object {params : Json} (object : ∀ arr, params ≠ .array arr) :
    Leaves (handleNotify host toNbits params) (keep session.jobs (entry host toNbits session params)) session := by
  have read : exec (notifyParams host toNbits params) session =
      ((StratumNotifyParams.deserialize params).map some, session) := by
    rw [notifyParams_object object, exec_bind, exec_ofResult]
    cases StratumNotifyParams.deserialize params <;> rfl
  have plain : entry host toNbits session params = (StratumNotifyParams.deserialize params).toOption.bind entryOf := by
    cases params with
    | array arr => exact absurd rfl (object arr)
    | _ => rfl
  have kept := handleNotify_of_read read
  rw [plain]
  cases made : StratumNotifyParams.deserialize params with
  | error why =>
    rw [made] at kept
    exact kept
  | ok p =>
    rw [made] at kept
    exact kept

theorem handleNotify_leaves (known : session.jobs.Coherent 100) (params : Json) :
    Leaves (handleNotify host toNbits params) (keep session.jobs (entry host toNbits session params)) session := by
  cases params with
  | array arr =>
    by_cases long : 9 ≤ arr.length
    · rw [leaves_iff, handleNotify, exec_bind]
      rcases parseArrayNotify_stores long with ⟨nothing, same⟩ | ⟨sigma, jobId, something, read, stored, fields⟩
      · rw [nothing, notifyParams, same]
        rfl
      · rw [something, notifyParams, stored]
        cases read with
        | none => rfl
        | some p =>
          -- the long form is entered twice, under the same key
          obtain ⟨header, job⟩ := fields p rfl
          have again : entryOf p = some (toLowerInvariant (toHexString sigma), some jobId) := by
            rw [entryOf, header, bind_some, if_pos (hexText_lower sigma), lower_lower, job]
          refine (leaves_iff.mp (jobOf_leaves p)).trans ?_
          rw [again]
          exact record_again known (by decide) _ _
    · have form := @handleNotify_of_read host toNbits session (.array arr) _
        (Prod.ext rfl (parseArrayNotify_state long))
      rw [entry, if_neg long]
      exact form
  | _ => exact handleNotify_leaves_object (by rintro arr ⟨⟩)

theorem call_keeps_jobs (callback : Callback) : Keeps Session.jobs (call callback) := keeps_modify fun _ => rfl

theorem handleReply_keeps_jobs (id : Int) (result error : Option Json) :
    Keeps Session.jobs (handleReply host id result error) := by
  unfold handleReply
  refine keeps_bind keeps_get fun session => keeps_ite (keeps_modify fun _ => rfl) ?_
  split
  · exact keeps_bind (keeps_ofResult _) fun message => call_keeps_jobs _
  · split <;> exact call_keeps_jobs _

theorem handle_leaves (known : session.jobs.Coherent 100) (msg : StratumMessage) :
    Leaves (handle host toNbits msg) (keep session.jobs (messageEntry host toNbits session msg)) session := by
  obtain ⟨id, method, params, result, error⟩ := msg
  unfold handle
  dsimp only
  split
  · exact handleNotify_leaves known _
  · exact leaves_iff.mpr (handleSetDifficulty_keeps host toNbits (fun _ _ => rfl) (fun _ => call_keeps_jobs _) _ session)
  · exact leaves_iff.mpr rfl
  · exact leaves_iff.mpr rfl
  · exact leaves_iff.mpr (handleReply_keeps_jobs _ _ _ session)
  · next notNotify _ _ _ _ =>
    have nothing : messageEntry host toNbits session ⟨id, method, params, result, error⟩ = none := by
      unfold messageEntry
      split
      · next notify given => exact absurd given (notNotify _ notify)
      · rfl
    rw [nothing]
    exact leaves_iff.mpr rfl

theorem turn_jobs (known : session.jobs.Coherent 100) (line : List Char) :
    (exec (turn host toNbits line) session).2.jobs = keep session.jobs (lineEntry host toNbits session line) := by
  rw [turn_session, lineEntry]
  match (host.parse line).map StratumMessage.deserialize with
  | some (.ok (some msg)) => exact leaves_iff.mp (handle_leaves known msg)
  | none | some (.error _) | some (.ok none) => rfl

theorem keep_coherent {jobs : FifoStore String (Option String)} (known : jobs.Coherent 100)
    (entry : Option (String × Option String)) : (keep jobs entry).Coherent 100 := by
  cases entry with
  | none => exact known
  | some pair => exact record_coherent known (by decide) pair.1 pair.2

theorem keep_eq_recordAll (jobs : FifoStore String (Option String)) (entry : Option (String × Option String)) :
    keep jobs entry = jobs.recordAll 100 entry.toList := by
  cases entry <;> rfl

theorem readLoop_jobs (known : session.jobs.Coherent 100) (lines : List (List Char)) :
    (exec (readLoop host toNbits lines) session).2.jobs = session.jobs.recordAll 100 (journal host toNbits session lines) := by
  induction lines generalizing session with
  | nil => rfl
  | cons line lines ih =>
    have here := @turn_jobs host toNbits session known line
    change (exec (turn host toNbits line >>= fun _ => readLoop host toNbits lines) session).2.jobs = _
    rw [exec_bind, journal, recordAll_append, ← keep_eq_recordAll]
    cases ran : exec (turn host toNbits line) session with
    | mk outcome after =>
      rw [ran] at here
      cases outcome with
      -- a line that ends the loop may have entered its job before
      | error why => exact here
      | ok _ =>
        rw [← here]
        exact ih (here ▸ keep_coherent known _)

theorem parsePearlNotification_ok {p : StratumNotifyParams} (decodable : Decodable p) (session : Session) :
    ∃ header job, p.header = some header ∧ Hex.decode header = .ok job.sigma ∧
      exec (parsePearlNotification host p) session =
        (.ok job, { session with jobs := session.jobs.record 100 (toLowerInvariant header) p.jobId }) := by
  obtain ⟨header, hasHeader⟩ := ne_none_iff_exists'.mp decodable.header
  obtain ⟨jobId, hasJobId⟩ := ne_none_iff_exists'.mp decodable.jobId
  obtain ⟨sigma, decoded⟩ := (decode_ok_iff _).mpr decodable.headerHex
  obtain ⟨targetBytes, target⟩ := (decode_ok_iff _).mpr decodable.targetHex
  obtain ⟨seed, bSeed⟩ := (decode_ok_iff _).mpr decodable.bSeedHex
  rw [hasHeader, getD_some] at decoded
  unfold parsePearlNotification
  rw [hasHeader, hasJobId, getD_some, decoded, target, bSeed]
  by_cases empty : (p.bSeed.getD "").isEmpty
  · simp only [if_pos empty]
    exact ⟨header, _, rfl, decoded, rfl⟩
  · simp only [if_neg empty]
    exact ⟨header, _, rfl, decoded, rfl⟩

end steps

/-- After any lines the map holds at most a hundred entries and the queue lists its keys, each once and in the
order in which they entered; a key has the job id of its latest notify, and that of the last notify is there. -/
theorem job_store_invariant (host : Host) (toNbits : Double → Result UInt32) (extranonce1 : List UInt8)
    (requested : Double) (lines : List (List Char)) : let jobs := (exec (readLoop host toNbits lines) (.opened extranonce1 requested)).2.jobs
    let log := journal host toNbits (.opened extranonce1 requested) lines
    jobs.values.keys.card ≤ 100 ∧ jobs.order.Nodup ∧ (∀ key, key ∈ jobs.order ↔ key ∈ jobs.values) ∧
      (∃ evicted, entered 100 .empty log = evicted ++ jobs.order) ∧
      (∀ key ∈ jobs.values, jobs.values.lookup key = latest log key) ∧
      ∀ key jobId, log.getLast? = some (key, jobId) → key ∈ jobs.values := by
  intro jobs log
  have stored : jobs = recordAll 100 .empty log := readLoop_jobs coherent_empty lines
  have coherent : jobs.Coherent 100 := stored ▸ recordAll_coherent (by decide) coherent_empty log
  refine ⟨?_, coherent.nodup, coherent.keys, ?_, ?_, ?_⟩
  · rw [card_keys coherent.nodup coherent.keys]
    exact coherent.count
  · rw [stored]
    exact recordAll_order (by decide) coherent_empty log
  · intro key present
    rw [stored] at present ⊢
    exact lookup_recordAll (by decide) log present
  · intro key jobId last
    obtain ⟨before, split⟩ := List.getLast?_eq_some_iff.mp last
    rw [stored, split]
    exact last_recorded (by decide) before key jobId

theorem resolveJobId_alone {key : String} {sigma : List UInt8} (other : toLowerInvariant (toHexString sigma) ≠ key)
    (jobId found : Option String) : resolveJobId (empty.record 100 key jobId) sigma ≠ .ok (found, false) := by
  have absent : (empty.record 100 key jobId).values.lookup (toLowerInvariant (toHexString sigma)) = none := by
    rw [record_new coherent_empty Finmap.notMem_empty jobId (by decide)]
    exact (Finmap.lookup_insert_of_ne _ other).trans (Finmap.lookup_empty _)
  rw [resolveJobId, absent]
  dsimp only
  split
  · nofun
  · intro same
    nomatch (Prod.mk.inj (Except.ok.inj same)).2

/-- A share finds the job id of its notify exactly if the header has an even number of digits. -/
theorem job_id_resolves_iff (host : Host) (toNbits : Double → Result UInt32) {p : StratumNotifyParams}
    (decodable : Decodable p) :
    (∀ session job after, exec (parsePearlNotification host p) session = (.ok job, after) → ∀ lines,
      let later := (exec (readLoop host toNbits lines) after).2
      later.jobs.values.lookup (toLowerInvariant (p.header.getD "")) = some p.jobId →
        resolveJobId later.jobs job.sigma = .ok (p.jobId, false)) ↔
      (p.header.getD "").length % 2 = 0 := by
  constructor
  · intro resolves
    obtain ⟨header, job, hasHeader, decoded, handled⟩ := @parsePearlNotification_ok host p decodable (.opened [] (.finite 0))
    have found := resolves _ job _ handled []
    rw [hasHeader, getD_some] at found ⊢
    rw [← lower_of_decode_iff decoded]
    by_contra other
    refine resolveJobId_alone other p.jobId p.jobId (found ?_)
    exact lookup_record_self coherent_empty (by decide) _ _
  · intro even session job after handled lines later retained
    obtain ⟨header, made, hasHeader, decoded, result⟩ := @parsePearlNotification_ok host p decodable session
    rw [handled] at result
    cases result
    rw [hasHeader, getD_some] at even retained
    rw [resolveJobId, (lower_of_decode_iff decoded).mpr even, retained]

def notifyOf (header : String) : StratumNotifyParams where
  jobId := some "7"
  header := some header
  target := some ""
  height := 1
  bSeed := none
  auditK := none

theorem job_id_resolves_even : Decodable (notifyOf "0aBc") ∧
    ∀ session job after, exec (parsePearlNotification .plain (notifyOf "0aBc")) session = (.ok job, after) → ∀ lines,
      let later := (exec (readLoop .plain (difficultyToNbits id) lines) after).2
      later.jobs.values.lookup (toLowerInvariant "0aBc") = some (some "7") → resolveJobId later.jobs job.sigma = .ok (some "7", false) := by
  have decodable : Decodable (notifyOf "0aBc") := ⟨nofun, nofun, by decide, by decide, by decide⟩
  exact ⟨decodable, (job_id_resolves_iff .plain (difficultyToNbits id) decodable).mpr rfl⟩

def oddHeader : String := String.ofList ("abc".toList ++ List.replicate 148 '0')

/-- With an odd number of digits the entry is there, and the share of the job goes out under the front of its sigma. -/
theorem odd_header_falls_back : (exec (do
      let job ← parsePearlNotification .plain (notifyOf oddHeader)
      let session ← get
      return (job.sigma.length, session.jobs.values.lookup oddHeader, resolveJobId session.jobs job.sigma))
      (.opened [] (.finite 0))).1 =
    .ok (76, some (some "7"), .ok (some "0abc0000000000000000000000000000", true)) := by
  decide +kernel

end ArcMiner.Pool.StratumSession
