import ArcMiner.AkoyaCrypto.Hex
import ArcMiner.AkoyaCrypto.Uint256
import ArcMiner.Library.Blake3
import ArcMiner.Stratum.CryptoNoteStratumDialect

/-! The jobs and the solver threads of `RxPoolClient`.

A solver takes a snapshot of the dialect in every turn and writes its nonce into its own copy of the
blob. `HashNext` answers with the hash of the input of the call before, so a hit is found one turn
after its nonce was written, when the job may already be another one. A turn that throws ends the
thread; what is in the queue stays there.
-/

namespace ArcMiner.Rx.RxPoolClient

open Library Library.CSharp AkoyaCrypto Stratum List Option UInt32 JsonElement

def moneroNonceOffset : Nat := 39

/-- The offset of the nonce and whether all of it is ours. `forced` is `ARC_RX_NONCE_OFFSET`, if it is an integer. -/
def nonceLayout (forced : Option Int) (blob : List UInt8) (algo : String) : Result (Nat × Bool) :=
  let usable := forced.filter fun f => f ≥ 0 ∧ int32 (f + 4) ≤ blob.length
  match usable with
  | some f => .ok (f.toNat, true)
  | none =>
    if blob.length = 80 then .ok (76, true)
    else if blob.length < moneroNonceOffset + 4 then
      .error (.invalidOperation ("rx: pool sent a " ++ toString blob.length ++ "-byte blob (algo=" ++ algo ++
        "), too short for a nonce at 39"))
    else .ok (moneroNonceOffset, false)

def expandTarget (targetBytes : List UInt8) : List UInt8 :=
  if targetBytes.length < 32 then replicate (32 - targetBytes.length) 0xFF ++ targetBytes
  else targetBytes.take 32

def parsePoolJob (lookup : JsonElement.Lookup) (forced : Option Int) (el : Json) : Result CryptoNoteJob := do
  let jobId ← requiredText lookup "job_id" el
  let blobHex ← requiredText lookup "blob" el
  let targetHex ← requiredText lookup "target" el
  let seedHex ← requiredText lookup "seed_hash" el
  let height ← getProperty lookup "height" el >>= getInt64
  let algo ← optionalText lookup "algo" el
  let blob ← Convert.fromHexString blobHex
  let seedHash ← Convert.fromHexString seedHex
  let (nonceOffset, fullWidthNonce) ← nonceLayout forced blob algo
  let targetBytes ← Convert.fromHexString targetHex
  return { jobId, blob, target := expandTarget targetBytes, seedHash, height, nonceOffset, fullWidthNonce }

def writeNonce (blob : List UInt8) (nonceOffset : Nat) (fullWidthNonce : Bool) (nonce : UInt32) :
    Result (List UInt8 × UInt32) :=
  if fullWidthNonce then
    if nonceOffset + 4 ≤ blob.length then
      .ok (blob.take nonceOffset ++ wordBytes nonce ++ blob.drop (nonceOffset + 4), nonce)
    else .error (.argumentOutOfRange "start")
  else if nonceOffset + 3 < blob.length then
    -- The high byte is the pool's extranonce.
    let searchNonce := nonce &&& 0x00FFFFFF
    let blob := ((blob.set nonceOffset (searchNonce &&& 0xFF).toUInt8).set (nonceOffset + 1)
      ((searchNonce >>> 8) &&& 0xFF).toUInt8).set (nonceOffset + 2) ((searchNonce >>> 16) &&& 0xFF).toUInt8
    .ok (blob, searchNonce ||| (blob.getD (nonceOffset + 3) 0).toUInt32 <<< 24)
  else .error .indexOutOfRange

structure Hit where
  jobId : String
  nonce : UInt32
  hash : Digest

structure Solver where
  lastGen : Int
  blob : List UInt8
  target : List UInt8
  jobId : String
  nonceOffset : Nat
  fullWidthNonce : Bool
  nonce : UInt32
  primed : Bool
  pendingJobId : String
  pendingSubmitNonce : UInt32
  pendingTarget : List UInt8
  /-- The input the VM was given last. -/
  vm : List UInt8
  hits : List Hit

def Solver.start (idx : UInt32) : Solver where
  lastGen := -1
  blob := []
  target := []
  jobId := ""
  nonceOffset := moneroNonceOffset
  fullWidthNonce := false
  nonce := idx
  primed := false
  pendingJobId := ""
  pendingSubmitNonce := 0
  pendingTarget := []
  vm := []
  hits := []

/-- What `Snapshot` returns: the job and the generation it goes with. -/
abbrev Snapshot := Option CryptoNoteJob × Int

def Solver.adopt (idx : UInt32) (job : CryptoNoteJob) (gen : Int) (solver : Solver) : Solver :=
  if gen ≠ solver.lastGen then
    { solver with
      blob := job.blob
      target := job.target
      jobId := job.jobId
      nonceOffset := job.nonceOffset
      fullWidthNonce := job.fullWidthNonce
      lastGen := gen
      nonce := if solver.jobId ≠ job.jobId then idx else solver.nonce }
  else solver

/-- The hash of the previous input, tested against the target it was searched for. -/
def Solver.harvest (H : List UInt8 → Digest) (solver : Solver) : Result (List Hit) :=
  if solver.primed then do
    let hash := H solver.vm
    if ← Uint256.leLessOrEqual hash.toList solver.pendingTarget then
      return [⟨solver.pendingJobId, solver.pendingSubmitNonce, hash⟩]
    return []
  else .ok []

def turn (H : List UInt8 → Digest) (idx threads : UInt32) (snapshot : Snapshot) (solver : Solver) : Result Solver :=
  match snapshot with
  | (none, _) => .ok solver
  | (some job, gen) => do
    let solver := solver.adopt idx job gen
    let (blob, submittedNonce) ← writeNonce solver.blob solver.nonceOffset solver.fullWidthNonce solver.nonce
    let found ← solver.harvest H
    return { solver with
      blob
      vm := blob
      hits := solver.hits ++ found
      pendingJobId := solver.jobId
      pendingSubmitNonce := submittedNonce
      pendingTarget := solver.target
      primed := true
      nonce := solver.nonce + threads }

def solve (H : List UInt8 → Digest) (idx threads : UInt32) : List Snapshot → Solver → Solver
  | [], solver => solver
  | snapshot :: rest, solver =>
    match turn H idx threads snapshot solver with
    | .ok next => solve H idx threads rest next
    | .error _ => solver

def solverThread (H : List UInt8 → Digest) (idx threads : UInt32) (snapshots : List Snapshot) : List Hit :=
  (solve H idx threads snapshots (.start idx)).hits

def withNonce (blob : List UInt8) (nonceOffset : Nat) (nonce : UInt32) : List UInt8 :=
  blob.take nonceOffset ++ wordBytes nonce ++ blob.drop (nonceOffset + 4)

/-- The nonce a pool is told: the counter, with the pool's own byte on top where one is reserved. -/
def submittedNonce (job : CryptoNoteJob) (nonce : UInt32) : UInt32 :=
  if job.fullWidthNonce then nonce
  else leWord (wordByte nonce 0) (wordByte nonce 1) (wordByte nonce 2) (job.blob.getD (job.nonceOffset + 3) 0)

theorem searchNonce_toNat (nonce : UInt32) : (nonce &&& 0x00FFFFFF).toNat = nonce.toNat % 2 ^ 24 := by
  rw [UInt32.toNat_and]
  exact Nat.and_two_pow_sub_one_eq_mod nonce.toNat 24

theorem searchNonce_bytes (nonce : UInt32) :
    ((nonce &&& 0x00FFFFFF) &&& 0xFF).toUInt8 = wordByte nonce 0 ∧
    (((nonce &&& 0x00FFFFFF) >>> 8) &&& 0xFF).toUInt8 = wordByte nonce 1 ∧
    (((nonce &&& 0x00FFFFFF) >>> 16) &&& 0xFF).toUInt8 = wordByte nonce 2 := by
  have mask (w : UInt32) : (w &&& 0xFF).toNat = w.toNat % 2 ^ 8 := by
    rw [UInt32.toNat_and]
    exact Nat.and_two_pow_sub_one_eq_mod w.toNat 8
  refine ⟨?_, ?_, ?_⟩ <;> apply UInt8.toNat_inj.mp <;> rw [wordByte_toNat _ (by decide), toNat_toUInt8, mask]
  · rw [searchNonce_toNat]
    omega
  all_goals
    rw [UInt32.toNat_shiftRight, searchNonce_toNat, Nat.shiftRight_eq_div_pow]
    simp only [reduceToNat, Nat.reduceMod, Nat.reducePow]
    omega

theorem searchNonce_or (nonce : UInt32) (reserved : UInt8) :
    (nonce &&& (0x00FFFFFF : UInt32)) ||| reserved.toUInt32 <<< (24 : UInt32) =
      leWord (wordByte nonce 0) (wordByte nonce 1) (wordByte nonce 2) reserved := by
  have small := reserved.toNat_lt
  have shifted : (reserved.toUInt32 <<< 24).toNat = 2 ^ 24 * reserved.toNat := by
    simp [Nat.shiftLeft_eq]
    omega
  have below : nonce.toNat % 2 ^ 24 < 2 ^ 24 := Nat.mod_lt _ (by decide)
  apply UInt32.toNat_inj.mp
  rw [UInt32.toNat_or, searchNonce_toNat, shifted, Nat.or_comm, ← Nat.two_pow_add_eq_or_of_lt below, leWord_toNat,
    wordByte_toNat _ (by decide), wordByte_toNat _ (by decide), wordByte_toNat _ (by decide)]
  omega

theorem exists_field {blob : List UInt8} {offset : Nat} (fits : offset + 4 ≤ blob.length) :
    ∃ before b0 b1 b2 b3 after, blob = before ++ [b0, b1, b2, b3] ++ after ∧ before.length = offset := by
  refine ⟨blob.take offset, blob[offset], blob[offset + 1], blob[offset + 2], blob[offset + 3], blob.drop (offset + 4),
    ?_, by rw [length_take]; omega⟩
  have field : blob.drop offset = [blob[offset], blob[offset + 1], blob[offset + 2], blob[offset + 3]] ++
      blob.drop (offset + 4) := by
    rw [drop_eq_getElem_cons (by omega), drop_eq_getElem_cons (by omega), drop_eq_getElem_cons (by omega),
      drop_eq_getElem_cons (by omega)]
    rfl
  rw [append_assoc, ← field, take_append_drop]

theorem withNonce_field (before after : List UInt8) (b0 b1 b2 b3 : UInt8) (nonce : UInt32) :
    withNonce (before ++ [b0, b1, b2, b3] ++ after) before.length nonce = before ++ wordBytes nonce ++ after := by
  simp [withNonce, drop_append, drop_eq_nil_of_le]

/-- A solver's copy of a blob: as it came, or with the nonce of an earlier turn. -/
def Carries (job : CryptoNoteJob) (blob : List UInt8) : Prop :=
  blob = job.blob ∨ ∃ nonce, job.nonceOffset + 4 ≤ job.blob.length ∧
    blob = withNonce job.blob job.nonceOffset (submittedNonce job nonce)

theorem withNonce_withNonce {blob : List UInt8} {offset : Nat} (fits : offset + 4 ≤ blob.length) (first second : UInt32) :
    withNonce (withNonce blob offset first) offset second = withNonce blob offset second := by
  obtain ⟨before, b0, b1, b2, b3, after, rfl, rfl⟩ := exists_field fits
  rw [withNonce_field, withNonce_field, wordBytes, withNonce_field]

theorem length_withNonce {blob : List UInt8} {offset : Nat} (fits : offset + 4 ≤ blob.length) (nonce : UInt32) :
    (withNonce blob offset nonce).length = blob.length := by
  obtain ⟨before, b0, b1, b2, b3, after, rfl, rfl⟩ := exists_field fits
  rw [withNonce_field]
  simp [wordBytes]

theorem reserved_withNonce {job : CryptoNoteJob} (fits : job.nonceOffset + 4 ≤ job.blob.length) (nonce : UInt32)
    (partly : job.fullWidthNonce = false) :
    (withNonce job.blob job.nonceOffset (submittedNonce job nonce)).getD (job.nonceOffset + 3) 0 =
      job.blob.getD (job.nonceOffset + 3) 0 := by
  have top : wordByte (submittedNonce job nonce) 3 = job.blob.getD (job.nonceOffset + 3) 0 := by
    rw [submittedNonce, partly]
    exact (wordByte_leWord ..).2.2.2
  obtain ⟨before, b0, b1, b2, b3, after, blob, length⟩ := exists_field fits
  rw [← top]
  generalize submittedNonce job nonce = submitted
  rw [blob, ← length, withNonce_field]
  simp [wordBytes]

theorem writeNonce_full {blob next : List UInt8} {offset : Nat} {nonce submitted : UInt32}
    (written : writeNonce blob offset true nonce = .ok (next, submitted)) :
    offset + 4 ≤ blob.length ∧ next = withNonce blob offset nonce ∧ submitted = nonce := by
  simp only [writeNonce, if_true] at written
  split at written
  next fits =>
    cases written
    exact ⟨fits, rfl, rfl⟩
  next => cases written

theorem writeNonce_partial {blob next : List UInt8} {offset : Nat} {nonce submitted : UInt32}
    (written : writeNonce blob offset false nonce = .ok (next, submitted)) :
    offset + 4 ≤ blob.length ∧
      submitted = leWord (wordByte nonce 0) (wordByte nonce 1) (wordByte nonce 2) (blob.getD (offset + 3) 0) ∧
      next = withNonce blob offset submitted := by
  simp only [writeNonce, Bool.false_eq_true, if_false] at written
  split at written
  next fits =>
    obtain ⟨before, b0, b1, b2, b3, after, rfl, rfl⟩ := exists_field (Nat.succ_le_of_lt fits)
    obtain ⟨byte0, byte1, byte2⟩ := searchNonce_bytes nonce
    rw [byte0, byte1, byte2, searchNonce_or] at written
    have put : (((before ++ [b0, b1, b2, b3] ++ after).set before.length (wordByte nonce 0)).set (before.length + 1)
        (wordByte nonce 1)).set (before.length + 2) (wordByte nonce 2) =
          before ++ [wordByte nonce 0, wordByte nonce 1, wordByte nonce 2, b3] ++ after := by
      simp
    rw [put] at written
    have reserved : (before ++ [wordByte nonce 0, wordByte nonce 1, wordByte nonce 2, b3] ++ after).getD
        (before.length + 3) 0 = b3 := by
      simp
    rw [reserved] at written
    cases written
    obtain ⟨w0, w1, w2, w3⟩ := wordByte_leWord (wordByte nonce 0) (wordByte nonce 1) (wordByte nonce 2) b3
    refine ⟨fits, by simp, ?_⟩
    rw [withNonce_field, wordBytes, w0, w1, w2, w3]
  next => cases written

theorem Carries.withNonce_eq {job : CryptoNoteJob} {blob : List UInt8} (carries : Carries job blob) (nonce : UInt32) :
    withNonce blob job.nonceOffset nonce = withNonce job.blob job.nonceOffset nonce := by
  rcases carries with rfl | ⟨earlier, fits, rfl⟩
  · rfl
  · exact withNonce_withNonce fits _ _

theorem Carries.length_eq {job : CryptoNoteJob} {blob : List UInt8} (carries : Carries job blob) :
    blob.length = job.blob.length := by
  rcases carries with rfl | ⟨earlier, fits, rfl⟩
  · rfl
  · exact length_withNonce fits _

theorem Carries.reserved_eq {job : CryptoNoteJob} {blob : List UInt8} (carries : Carries job blob)
    (partly : job.fullWidthNonce = false) :
    blob.getD (job.nonceOffset + 3) 0 = job.blob.getD (job.nonceOffset + 3) 0 := by
  rcases carries with rfl | ⟨earlier, fits, rfl⟩
  · rfl
  · exact reserved_withNonce fits earlier partly

theorem writeNonce_carries {job : CryptoNoteJob} {blob next : List UInt8} {nonce submitted : UInt32}
    (carries : Carries job blob)
    (written : writeNonce blob job.nonceOffset job.fullWidthNonce nonce = .ok (next, submitted)) :
    job.nonceOffset + 4 ≤ job.blob.length ∧ submitted = submittedNonce job nonce ∧
      next = withNonce job.blob job.nonceOffset submitted := by
  cases width : job.fullWidthNonce with
  | true =>
    rw [width] at written
    obtain ⟨fits, rfl, rfl⟩ := writeNonce_full written
    exact ⟨carries.length_eq ▸ fits, by simp [submittedNonce, width], carries.withNonce_eq _⟩
  | false =>
    rw [width] at written
    obtain ⟨fits, rfl, rfl⟩ := writeNonce_partial written
    rw [carries.reserved_eq width]
    exact ⟨carries.length_eq ▸ fits, by simp [submittedNonce, width], carries.withNonce_eq _⟩

structure Write where
  job : CryptoNoteJob
  nonce : UInt32

def Write.input (write : Write) : List UInt8 := withNonce write.job.blob write.job.nonceOffset write.nonce

def Write.Made (write : Write) : Prop :=
  write.job.nonceOffset + 4 ≤ write.job.blob.length ∧ ∃ nonce, write.nonce = submittedNonce write.job nonce

def writes (idx threads : UInt32) : List Snapshot → Int → Option CryptoNoteJob → UInt32 → List Write
  | [], _, _, _ => []
  | (none, _) :: rest, lastGen, current, nonce => writes idx threads rest lastGen current nonce
  | (some job, gen) :: rest, lastGen, current, nonce =>
    if gen ≠ lastGen then
      let nonce := if (current.map CryptoNoteJob.jobId).getD "" ≠ job.jobId then idx else nonce
      ⟨job, submittedNonce job nonce⟩ :: writes idx threads rest gen (some job) (nonce + threads)
    else match current with
      | some job => ⟨job, submittedNonce job nonce⟩ :: writes idx threads rest lastGen current (nonce + threads)
      | none => []

def Write.hit (H : List UInt8 → Digest) (write : Write) : Option Hit :=
  if Uint256.leLessOrEqual (H write.input).toList write.job.target = .ok true then
    some ⟨write.job.jobId, write.nonce, H write.input⟩
  else none

/-- The thread's own copies are those of the job it has taken up. -/
structure Solver.Holds (solver : Solver) (job : CryptoNoteJob) : Prop where
  carries : Carries job solver.blob
  target : solver.target = job.target
  jobId : solver.jobId = job.jobId
  nonceOffset : solver.nonceOffset = job.nonceOffset
  fullWidthNonce : solver.fullWidthNonce = job.fullWidthNonce

structure Solver.InFlight (solver : Solver) (write : Write) : Prop where
  input : solver.vm = write.input
  jobId : solver.pendingJobId = write.job.jobId
  nonce : solver.pendingSubmitNonce = write.nonce
  target : solver.pendingTarget = write.job.target
  made : write.Made

structure Solver.Tracks (solver : Solver) (current : Option CryptoNoteJob) (pending : Option Write) : Prop where
  holds : ∀ job ∈ current, solver.Holds job
  blank : current = none → solver.blob = [] ∧ solver.fullWidthNonce = false ∧ solver.jobId = ""
  primed : solver.primed = pending.isSome
  inFlight : ∀ write ∈ pending, solver.InFlight write

section run
variable {H : List UInt8 → Digest} {idx threads : UInt32} {solver next : Solver} {current : Option CryptoNoteJob}
  {pending : Option Write}

theorem harvest_eq {found : List Hit} (tracks : solver.Tracks current pending) (harvested : solver.harvest H = .ok found) :
    found = pending.toList.filterMap (Write.hit H) := by
  unfold Solver.harvest at harvested
  cases pending with
  | none =>
    rw [tracks.primed] at harvested
    cases harvested
    rfl
  | some write =>
    obtain ⟨input, jobId, nonce, target, -⟩ := tracks.inFlight write rfl
    have primed : solver.primed = true := tracks.primed
    rw [if_pos primed, input, jobId, nonce, target] at harvested
    dsimp only at harvested
    simp only [toList_some, filterMap_cons, filterMap_nil, Write.hit]
    cases compared : Uint256.leLessOrEqual (H write.input).toList write.job.target with
    | error why =>
      rw [compared] at harvested
      cases harvested
    | ok less =>
      rw [compared] at harvested
      cases less with
      | true =>
        cases harvested
        rfl
      | false =>
        cases harvested
        rfl

def takenUp (lastGen gen : Int) (job : CryptoNoteJob) (current : Option CryptoNoteJob) : Option CryptoNoteJob :=
  if gen ≠ lastGen then some job else current

theorem adopt_tracks (job : CryptoNoteJob) (gen : Int) (tracks : solver.Tracks current pending) :
    (solver.adopt idx job gen).Tracks (takenUp solver.lastGen gen job current) pending := by
  unfold Solver.adopt takenUp
  split
  · refine ⟨?_, nofun, tracks.primed, fun write found => ?_⟩
    · rintro taken ⟨⟩
      exact ⟨.inl rfl, rfl, rfl, rfl, rfl⟩
    · obtain ⟨input, jobId, nonce, target, made⟩ := tracks.inFlight write found
      exact ⟨input, jobId, nonce, target, made⟩
  · exact tracks

theorem Solver.Tracks.jobId_eq (tracks : solver.Tracks current pending) :
    (current.map CryptoNoteJob.jobId).getD "" = solver.jobId := by
  cases current with
  | none => exact (tracks.blank rfl).2.2.symm
  | some job => exact (tracks.holds job rfl).jobId.symm

theorem exists_taken {written : List UInt8 × UInt32} (tracks : solver.Tracks current pending)
    (wrote : writeNonce solver.blob solver.nonceOffset solver.fullWidthNonce solver.nonce = .ok written) :
    ∃ job, current = some job := by
  cases current with
  | some job => exact ⟨job, rfl⟩
  | none =>
    obtain ⟨blob, width, -⟩ := tracks.blank rfl
    rw [blob, width] at wrote
    cases wrote

theorem turn_spec {job : CryptoNoteJob} {gen : Int} (rest : List Snapshot) (tracks : solver.Tracks current pending)
    (turned : turn H idx threads (some job, gen) solver = .ok next) :
    ∃ taken write, takenUp solver.lastGen gen job current = some taken ∧ write.job = taken ∧
      next.Tracks (some taken) (some write) ∧
      next.hits = solver.hits ++ pending.toList.filterMap (Write.hit H) ∧
      writes idx threads ((some job, gen) :: rest) solver.lastGen current solver.nonce =
        write :: writes idx threads rest next.lastGen (some taken) next.nonce := by
  have adopted : (solver.adopt idx job gen).Tracks _ _ := adopt_tracks job gen tracks
  obtain ⟨⟨blob, submitted⟩, wrote, turned⟩ := bind_eq_ok.mp turned
  obtain ⟨found, harvested, turned⟩ := bind_eq_ok.mp turned
  cases turned
  obtain ⟨taken, now⟩ := exists_taken adopted wrote
  rw [now] at adopted
  obtain ⟨carries, target, jobId, nonceOffset, fullWidthNonce⟩ := adopted.holds taken rfl
  rw [nonceOffset, fullWidthNonce] at wrote
  obtain ⟨fits, rfl, rfl⟩ := writeNonce_carries carries wrote
  refine ⟨taken, ⟨taken, submittedNonce taken (solver.adopt idx job gen).nonce⟩, now, rfl, ⟨?_, nofun, rfl, ?_⟩, ?_, ?_⟩
  · rintro same ⟨⟩
    exact ⟨.inr ⟨_, fits, rfl⟩, target, jobId, nonceOffset, fullWidthNonce⟩
  · rintro write ⟨⟩
    exact ⟨rfl, jobId, rfl, target, fits, _, rfl⟩
  · have kept : (solver.adopt idx job gen).hits = solver.hits := by
      unfold Solver.adopt
      split <;> rfl
    simp only [kept, harvest_eq adopted harvested]
  · unfold takenUp at now
    split at now
    next changed =>
      cases now
      simp only [writes, Solver.adopt, if_pos changed, tracks.jobId_eq]
    next same =>
      subst now
      simp only [writes, Solver.adopt, if_neg same]

variable (H idx threads) in
theorem hits_solve (snapshots : List Snapshot) (tracks : solver.Tracks current pending) :
    ∃ made rest, pending.toList ++ writes idx threads snapshots solver.lastGen current solver.nonce = made ++ rest ∧
      (∀ write ∈ made, write.Made) ∧
      (solve H idx threads snapshots solver).hits = solver.hits ++ made.filterMap (Write.hit H) := by
  induction snapshots generalizing solver current pending with
  | nil => exact ⟨[], _, rfl, nofun, by simp [solve]⟩
  | cons snapshot rest ih =>
    obtain ⟨job, gen⟩ := snapshot
    cases job with
    | none => exact ih tracks
    | some job =>
      rw [solve]
      split
      next next turned =>
        obtain ⟨taken, write, -, -, tracksNext, hits, written⟩ := turn_spec rest tracks turned
        obtain ⟨made, later, split, allMade, final⟩ := ih tracksNext
        refine ⟨pending.toList ++ made, later, ?_, ?_, ?_⟩
        · rw [written, append_assoc, ← split]
          rfl
        · rw [forall_mem_append]
          refine ⟨fun earlier found => ?_, allMade⟩
          exact (tracks.inFlight earlier (mem_toList.mp found)).made
        · rw [final, hits, filterMap_append, append_assoc]
      next => exact ⟨[], _, rfl, nofun, by simp⟩

theorem start_tracks : (Solver.start idx).Tracks none none :=
  ⟨nofun, fun _ => ⟨rfl, rfl, rfl⟩, rfl, nofun⟩

end run

structure Hit.Consistent (H : List UInt8 → Digest) (hit : Hit) (job : CryptoNoteJob) : Prop where
  jobId : hit.jobId = job.jobId
  fits : job.nonceOffset + 4 ≤ job.blob.length
  hash : hit.hash = H (withNonce job.blob job.nonceOffset hit.nonce)
  reserved : job.fullWidthNonce = false →
    (withNonce job.blob job.nonceOffset hit.nonce).getD (job.nonceOffset + 3) 0 = job.blob.getD (job.nonceOffset + 3) 0
  target : leValue hit.hash.toList ≤ leValue job.target

theorem consistent_of_hit {H : List UInt8 → Digest} {write : Write} {hit : Hit} (made : write.Made)
    (found : write.hit H = some hit) : hit.nonce = write.nonce ∧ hit.Consistent H write.job := by
  obtain ⟨fits, nonce, submitted⟩ := made
  unfold Write.hit at found
  split at found
  next less =>
    cases found
    refine ⟨rfl, rfl, fits, rfl, fun partly => ?_, ?_⟩
    · rw [submitted]
      exact reserved_withNonce fits nonce partly
    · exact Uint256.leValue_le_of_leLessOrEqual (Vector.length_toList ..) less
  next => cases found

theorem hits_consistent (H : List UInt8 → Digest) (idx threads : UInt32) (snapshots : List Snapshot) :
    ∀ hit ∈ solverThread H idx threads snapshots,
      ∃ job, (⟨job, hit.nonce⟩ : Write) ∈ writes idx threads snapshots (-1) none idx ∧ hit.Consistent H job := by
  intro hit found
  obtain ⟨made, rest, split, allMade, hits⟩ := hits_solve H idx threads snapshots start_tracks
  rw [solverThread, hits, mem_append] at found
  obtain ⟨write, inMade, isHit⟩ := mem_filterMap.mp (found.resolve_left nofun)
  obtain ⟨nonce, consistent⟩ := consistent_of_hit (allMade write inMade) isHit
  refine ⟨write.job, ?_, consistent⟩
  rw [nonce]
  have all : writes idx threads snapshots (-1) none idx = made ++ rest := split
  rw [all]
  exact mem_append_left rest inMade

def seenTwice : List Snapshot :=
  let job : CryptoNoteJob := ⟨"a", replicate 80 0, replicate 32 0xFF, [], 0, 76, true⟩
  [(some job, 1), (some job, 1)]

theorem hits_consistent_seenTwice :
    ∃ hit ∈ solverThread (fun _ => Vector.replicate 32 0) 0 1 seenTwice,
      ∃ job, (⟨job, hit.nonce⟩ : Write) ∈ writes 0 1 seenTwice (-1) none 0 ∧
        hit.Consistent (fun _ => Vector.replicate 32 0) job := by
  have one : (solverThread (fun _ => Vector.replicate 32 0) 0 1 seenTwice).length = 1 := by decide +kernel
  obtain ⟨hit, same⟩ := length_eq_one_iff.mp one
  have found : hit ∈ solverThread (fun _ => Vector.replicate 32 0) 0 1 seenTwice := by simp [same]
  exact ⟨hit, found, hits_consistent _ 0 1 seenTwice hit found⟩

structure Ready (job : CryptoNoteJob) : Prop where
  fits : job.nonceOffset + 4 ≤ job.blob.length
  target : job.target.length = 32

theorem length_expandTarget (targetBytes : List UInt8) : (expandTarget targetBytes).length = 32 := by
  unfold expandTarget
  split
  · rw [length_append, length_replicate]
    omega
  · rw [length_take]
    omega

theorem nonceLayout_fits {forced : Option Int} {blob : List UInt8} {algo : String} {offset : Nat} {full : Bool}
    (small : ∀ f ∈ forced, f + 4 < 2 ^ 31) (laidOut : nonceLayout forced blob algo = .ok (offset, full)) :
    offset + 4 ≤ blob.length := by
  unfold nonceLayout at laidOut
  dsimp only at laidOut
  split at laidOut
  next f usable =>
    obtain ⟨given, inside⟩ := filter_eq_some_iff.mp usable
    obtain ⟨positive, enough⟩ := of_decide_eq_true inside
    rw [int32_of_fits (by omega) (small f given)] at enough
    cases laidOut
    omega
  next =>
    split at laidOut
    · cases laidOut
      omega
    · split at laidOut
      · cases laidOut
      next enough =>
        cases laidOut
        exact Nat.not_lt.mp enough

/-- Every job the pool's messages are parsed into is one that no turn throws at, unless a forced offset overflows. -/
theorem parsePoolJob_ready {lookup : JsonElement.Lookup} {forced : Option Int} {el : Json} {job : CryptoNoteJob}
    (small : ∀ f ∈ forced, f + 4 < 2 ^ 31) (parsed : parsePoolJob lookup forced el = .ok job) : Ready job := by
  -- The members, and the bytes of the blob and the seed, come before the layout.
  obtain ⟨jobId, -, parsed⟩ := bind_eq_ok.mp parsed
  obtain ⟨blobHex, -, parsed⟩ := bind_eq_ok.mp parsed
  obtain ⟨targetHex, -, parsed⟩ := bind_eq_ok.mp parsed
  obtain ⟨seedHex, -, parsed⟩ := bind_eq_ok.mp parsed
  obtain ⟨height, -, parsed⟩ := bind_eq_ok.mp parsed
  obtain ⟨algo, -, parsed⟩ := bind_eq_ok.mp parsed
  obtain ⟨blob, -, parsed⟩ := bind_eq_ok.mp parsed
  obtain ⟨seedHash, -, parsed⟩ := bind_eq_ok.mp parsed
  obtain ⟨⟨offset, full⟩, laidOut, parsed⟩ := bind_eq_ok.mp parsed
  obtain ⟨targetBytes, -, parsed⟩ := bind_eq_ok.mp parsed
  cases parsed
  exact ⟨nonceLayout_fits small laidOut, length_expandTarget targetBytes⟩

section exact
variable {H : List UInt8 → Digest} {idx threads : UInt32} {solver : Solver} {current : Option CryptoNoteJob}
  {pending : Option Write}

theorem writeNonce_ok {blob : List UInt8} {offset : Nat} (fits : offset + 4 ≤ blob.length) (full : Bool) (nonce : UInt32) :
    ∃ written, writeNonce blob offset full nonce = .ok written := by
  cases full with
  | true => exact ⟨_, if_pos fits⟩
  | false => exact ⟨_, if_pos (Nat.lt_of_succ_le fits)⟩

variable (H) in
theorem harvest_ok (tracks : solver.Tracks current pending) (ready : ∀ write ∈ pending, Ready write.job) :
    ∃ found, solver.harvest H = .ok found := by
  unfold Solver.harvest
  cases pending with
  | none => exact ⟨[], by rw [if_neg (by simp [tracks.primed])]⟩
  | some write =>
    have whole : (H solver.vm).toList.length = 32 := Vector.length_toList ..
    have target : solver.pendingTarget.length = 32 := by
      rw [(tracks.inFlight write rfl).target]
      exact (ready write rfl).target
    have primed : solver.primed = true := tracks.primed
    simp only [if_pos primed, Uint256.leLessOrEqual, Uint256.leLessOrEqualFrom_eq whole.ge target.ge, ok_bind]
    split
    · exact ⟨_, rfl⟩
    · exact ⟨_, rfl⟩

variable (H idx threads) in
theorem turn_ok {job taken : CryptoNoteJob} {gen : Int} (tracks : solver.Tracks current pending)
    (now : takenUp solver.lastGen gen job current = some taken) (readyTaken : Ready taken)
    (readyPending : ∀ write ∈ pending, Ready write.job) :
    ∃ next, turn H idx threads (some job, gen) solver = .ok next := by
  have adopted : (solver.adopt idx job gen).Tracks _ _ := adopt_tracks job gen tracks
  rw [now] at adopted
  have holds := adopted.holds taken rfl
  have fits : (solver.adopt idx job gen).nonceOffset + 4 ≤ (solver.adopt idx job gen).blob.length := by
    rw [holds.nonceOffset, holds.carries.length_eq]
    exact readyTaken.fits
  obtain ⟨written, wrote⟩ := writeNonce_ok fits (solver.adopt idx job gen).fullWidthNonce
    (solver.adopt idx job gen).nonce
  obtain ⟨found, harvested⟩ := harvest_ok H adopted readyPending
  simp only [turn, wrote, harvested, ok_bind]
  exact ⟨_, rfl⟩

variable (H idx threads) in
/-- With such jobs no turn throws, and the hits are all those among the writes but the one in flight. -/
theorem hits_solve_ready {snapshots : List Snapshot} (tracks : solver.Tracks current pending)
    (ready : ∀ snapshot ∈ snapshots, ∀ job ∈ snapshot.1, Ready job) (readyCurrent : ∀ job ∈ current, Ready job)
    (readyPending : ∀ write ∈ pending, Ready write.job)
    (fresh : current = none → ∀ snapshot ∈ snapshots, snapshot.2 ≠ solver.lastGen) :
    snapshots.foldlM (fun solver snapshot => turn H idx threads snapshot solver) solver =
        .ok (solve H idx threads snapshots solver) ∧
      (solve H idx threads snapshots solver).hits = solver.hits ++
        (pending.toList ++ writes idx threads snapshots solver.lastGen current solver.nonce).dropLast.filterMap
          (Write.hit H) := by
  induction snapshots generalizing solver current pending with
  | nil => exact ⟨rfl, by cases pending <;> simp [solve, writes]⟩
  | cons snapshot rest ih =>
    obtain ⟨job, gen⟩ := snapshot
    obtain ⟨readyHere, readyRest⟩ := forall_mem_cons.mp ready
    cases job with
    | none => exact ih tracks readyRest readyCurrent readyPending fun none => (forall_mem_cons.mp (fresh none)).2
    | some job =>
      -- A thread that has no job yet takes up the first one it sees.
      obtain ⟨taken, now, readyTaken⟩ : ∃ taken, takenUp solver.lastGen gen job current = some taken ∧ Ready taken := by
        unfold takenUp
        split
        next => exact ⟨job, rfl, readyHere job rfl⟩
        next same =>
          cases current with
          | none => exact absurd (not_not.mp same) (fresh rfl (some job, gen) mem_cons_self)
          | some taken => exact ⟨taken, rfl, readyCurrent taken rfl⟩
      obtain ⟨next, turned⟩ := turn_ok H idx threads tracks now readyTaken readyPending
      obtain ⟨same, write, again, origin, tracksNext, hits, written⟩ := turn_spec rest tracks turned
      obtain rfl : taken = same := Option.some.inj (now.symm.trans again)
      obtain ⟨ran, later⟩ := ih tracksNext readyRest (by rintro job ⟨⟩; exact readyTaken)
        (by rintro last ⟨⟩; exact origin ▸ readyTaken) nofun
      rw [foldlM_cons, solve, turned, ok_bind]
      refine ⟨ran, ?_⟩
      rw [later, hits, written, append_assoc, ← filterMap_append, toList_some, singleton_append, dropLast_append_cons]

end exact

/-- A thread whose jobs were parsed throws in no turn; its hits are every write that meets its target, but for the
last one. -/
theorem solverThread_eq (H : List UInt8 → Digest) (idx threads : UInt32) {lookup : JsonElement.Lookup}
    {forced : Option Int} (small : ∀ f ∈ forced, f + 4 < 2 ^ 31) {snapshots : List Snapshot}
    (parsed : ∀ snapshot ∈ snapshots, ∀ job ∈ snapshot.1, ∃ el, parsePoolJob lookup forced el = .ok job)
    (generations : ∀ snapshot ∈ snapshots, snapshot.2 ≠ -1) :
    (∃ final, snapshots.foldlM (fun solver snapshot => turn H idx threads snapshot solver) (.start idx) = .ok final) ∧
      solverThread H idx threads snapshots =
        (writes idx threads snapshots (-1) none idx).dropLast.filterMap (Write.hit H) := by
  refine (hits_solve_ready H idx threads start_tracks (fun snapshot member job inside => ?_) nofun nofun
    fun _ => generations).imp_left fun ran => ⟨_, ran⟩
  obtain ⟨el, read⟩ := parsed snapshot member job inside
  exact parsePoolJob_ready small read

def elementTwice : Json := .object <|
  [("job_id", .string [97]), ("blob", .string (replicate 160 48)), ("target", .string []), ("seed_hash", .string []),
    ("height", .number ['0'])].map fun member => (Utf16.encode member.1.toList, member.2)

theorem solverThread_eq_seenTwice :
    (solverThread (fun _ => Vector.replicate 32 0) 0 1 seenTwice).map Hit.nonce = [0] := by
  have read : parsePoolJob .smooth none elementTwice = .ok ⟨"a", replicate 80 0, replicate 32 0xFF, [], 0, 76, true⟩ := by
    decide +kernel
  have parsed : ∀ snapshot ∈ seenTwice, ∀ job ∈ snapshot.1, ∃ el, parsePoolJob .smooth none el = .ok job := by
    rintro _ member job inside
    simp only [seenTwice, mem_cons, not_mem_nil, or_false] at member
    rcases member with rfl | rfl <;> cases inside <;> exact ⟨elementTwice, read⟩
  rw [(solverThread_eq _ 0 1 (by simp) parsed (by simp [seenTwice])).2]
  decide +kernel

end ArcMiner.Rx.RxPoolClient
