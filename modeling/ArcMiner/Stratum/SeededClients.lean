import ArcMiner.Nm.NmPoolClient
import ArcMiner.Stratum.SeededSession

/-! The rx and nm clients as clients of the session loop. The native hashes are parameters. -/

namespace ArcMiner.Stratum.SeededSession

open Library Library.CSharp Library.Machine Rx Nm Option UInt32 NmPoolClient RxPoolClient

/-- A VM hashes with what it was created under and what is in the memory now. -/
abbrev Native (α : Type) := List UInt8 → Option (List UInt8) → α

def rxClient (hash : Native (List UInt8 → Digest)) (threads : Nat) : Client RxPoolClient.Solver RxPoolClient.Hit where
  threads
  start idx := .start (ofNat idx)
  lastGen := RxPoolClient.Solver.lastGen
  turn idx vm memory job gen solver := do
    let next ← turn (hash vm memory) (ofNat idx) (ofNat threads) (some job, gen) solver
    return (next, next.hits.drop solver.hits.length)
  pipelined := true
  sessionSeeds := true
  memoryKey := id
  memoryKey_eq _ _ := rfl

def nmClient (hash : Native (List UInt8 → UInt64 → Digest)) (datasetKey : List UInt8 → List UInt8) (threads : Nat) :
    Client NmPoolClient.Solver NmPoolClient.Hit where
  threads
  start idx := .start (ofNat idx)
  lastGen := NmPoolClient.Solver.lastGen
  turn idx vm memory job gen solver :=
    turn (hash vm memory) (ofNat idx) (ofNat threads) job gen solver
  pipelined := false
  sessionSeeds := false
  memoryKey := datasetKey
  memoryKey_eq := nofun

theorem rxClient_lawful (hash : Native (List UInt8 → Digest)) (threads : Nat) : Lawful (rxClient hash threads)
      (fun solver current pending => ∃ write, solver.Tracks current write ∧ pending = write.map RxPoolClient.Write.job)
      fun vm memory hit job => hit.Consistent (hash vm memory) job where
  start idx := ⟨none, start_tracks, rfl⟩
  turn := by
    rintro idx vm memory job gen solver next current _ found ⟨pending, tracks, rfl⟩ turned
    obtain ⟨after, ran, ⟨⟩⟩ := bind_eq_ok.mp turned
    obtain ⟨taken, write, now, rfl, tracksNext, hits, -⟩ := turn_spec [] tracks ran
    refine ⟨write.job, now, ⟨some write, tracksNext, rfl⟩, fun hit isFound => ?_⟩
    -- What is new in the list is what became of the write in flight.
    rw [hits, List.drop_left] at isFound
    obtain ⟨earlier, inFlight, isHit⟩ := List.mem_filterMap.mp isFound
    have inFlight := mem_toList.mp inFlight
    have made := (tracks.inFlight earlier inFlight).made
    refine ⟨earlier.job, ?_, (consistent_of_hit made isHit).2⟩
    rw [mem_def.mp inFlight]
    rfl

theorem nmClient_lawful (hash : Native (List UInt8 → UInt64 → Digest)) (datasetKey : List UInt8 → List UInt8) (threads : Nat) :
    Lawful (nmClient hash datasetKey threads) (fun solver current _ => solver.Tracks current)
      fun vm memory hit job => hit.Consistent (hash vm memory) job where
  start idx := start_tracks
  turn := by
    intro idx vm memory job gen solver next current pending found tracks turned
    obtain ⟨taken, now, tracksNext, consistent⟩ := turn_spec tracks turned
    exact ⟨taken, now, tracksNext, fun hit isFound => ⟨taken, rfl, consistent hit isFound⟩⟩

/-- If no thread takes up a job of another seed than the session's and none outlives its `Join`, every hit was computed
by a VM of its job's seed, over the memory of that seed. -/
theorem hits_seeded_along (rxHash : Native (List UInt8 → Digest)) (nmHash : Native (List UInt8 → UInt64 → Digest))
    (datasetKey : List UInt8 → List UInt8) (threads : Nat) :
    (SeededAlong (rxClient rxHash threads) fun vm memory hit job => hit.Consistent (rxHash vm memory) job) ∧
      SeededAlong (nmClient nmHash datasetKey threads) fun vm memory hit job => hit.Consistent (nmHash vm memory) job := by
  constructor
  · exact seededAlong_of_lawful (rxClient_lawful rxHash threads)
  · exact seededAlong_of_lawful (nmClient_lawful nmHash datasetKey threads)

def easyJob (jobId : String) (seedHash : List UInt8) : CryptoNoteJob where
  jobId
  blob := List.replicate headerBytes 0
  target := List.replicate 32 0xFF
  seedHash
  height := 0
  nonceOffset := nonceOffset
  fullWidthNonce := true

def easyRx : Client RxPoolClient.Solver RxPoolClient.Hit := rxClient (fun _ _ _ => Vector.replicate 32 0) 1

def easyNm : Client NmPoolClient.Solver NmPoolClient.Hit := nmClient (fun _ _ _ _ => Vector.replicate 32 0) id 1

def seedA : List UInt8 := List.replicate 32 0

def seedB : List UInt8 := List.replicate 32 1

def install (job : CryptoNoteJob) : List Event := [.publish job, .bump]

def round (key : Key) : List Event := [.turn key .check, .turn key .readGeneration, .turn key .readJob, .turn key .hash]

/-- RandomX is initialised before the thread starts. -/
def rxSeeded (key : Key) : List Event := [.init, .initialised true, .turn key .begin, .turn key .create]

def rxFirst : List Event :=
  [.loggedIn] ++ install (easyJob "a" seedA) ++ [.poll, .cancel] ++ rxSeeded (1, 0) ++ round (1, 0) ++ round (1, 0)

def rxReseeded : List Event :=
  rxFirst ++ install (easyJob "b" seedB) ++ [.poll, .cancel, .turn (1, 0) .check, .join] ++ rxSeeded (2, 0) ++
    round (2, 0) ++ round (2, 0)

theorem hits_seeded_along_rxReseeded :
    Along (step easyRx) (fun session event => mayCome easyRx session event = true) (.opened none) rxReseeded ∧
      ∃ final, run (step easyRx) (.opened none) rxReseeded = some final ∧
        final.hits.map (fun entry => (entry.hit.jobId, entry.vm)) = [("a", seedA), ("b", seedB)] ∧
        ∀ entry ∈ final.hits, ∃ job, entry.Seeded easyRx
          (fun _ _ hit job => hit.Consistent (fun _ => Vector.replicate 32 0) job) job := by
  have along : Along (step easyRx) (fun session event => mayCome easyRx session event = true) (.opened none) rxReseeded := by
    decide +kernel
  have reached : (run (step easyRx) (.opened none) rxReseeded).map
      (fun final => final.hits.map fun entry => (entry.hit.jobId, entry.vm)) = some [("a", seedA), ("b", seedB)] := by
    decide +kernel
  obtain ⟨final, ran, hits⟩ := map_eq_some_iff.mp reached
  have seeded := (hits_seeded_along (fun _ _ _ => Vector.replicate 32 0) (fun _ _ _ _ => Vector.replicate 32 0) id 1).1
  exact ⟨along, final, ran, hits, seeded none rxReseeded final along ran⟩

def rxOvertaken : List Event := rxFirst ++ install (easyJob "b" seedB) ++ round (1, 0) ++ round (1, 0)

def nmOvertaken : List Event :=
  [.loggedIn] ++ install (easyJob "a" seedA) ++ [.poll, .cancel, .launch] ++
    [.turn (1, 0) .begin, .turn (1, 0) .create, .turn (1, 0) .build, .turn (1, 0) .attach] ++
    round (1, 0) ++ install (easyJob "b" seedB) ++ round (1, 0)

theorem exists_old_seed {σ η : Type} {client : Client σ η} {events : List Event} (jobId : η → String)
    {log : List (Option CryptoNoteJob × String × List UInt8)} {job : CryptoNoteJob} {vm : List UInt8}
    (old : vm ≠ job.seedHash) (listed : (some job, job.jobId, vm) ∈ log)
    (logged : (run (step client) (.opened none) events).map
      (fun final => final.hits.map fun entry => (entry.job, jobId entry.hit, entry.vm)) = some log) :
    ∃ final, run (step client) (.opened none) events = some final ∧
      ∃ entry ∈ final.hits, ∃ job, entry.job = some job ∧ jobId entry.hit = job.jobId ∧ entry.vm ≠ job.seedHash := by
  obtain ⟨final, ran, rfl⟩ := map_eq_some_iff.mp logged
  obtain ⟨entry, inHits, same⟩ := List.mem_map.mp listed
  simp only [Prod.mk.injEq] at same
  obtain ⟨owner, named, rfl⟩ := same
  exact ⟨final, ran, entry, inHits, job, owner, named, old⟩

/-- A thread takes up a job of another seed before the session loop has seen it. -/
theorem hit_of_old_seed : (∃ final, run (step easyRx) (.opened none) rxOvertaken = some final ∧
      ∃ entry ∈ final.hits, ∃ job, entry.job = some job ∧ entry.hit.jobId = job.jobId ∧ entry.vm ≠ job.seedHash) ∧
    ∃ final, run (step easyNm) (.opened none) nmOvertaken = some final ∧
      ∃ entry ∈ final.hits, ∃ job, entry.job = some job ∧ entry.hit.jobId = job.jobId ∧ entry.vm ≠ job.seedHash := by
  have old : seedA ≠ (easyJob "b" seedB).seedHash := by decide
  constructor
  · have logged : (run (step easyRx) (.opened none) rxOvertaken).map
        (fun final => final.hits.map fun entry => (entry.job, entry.hit.jobId, entry.vm)) =
          some [(some (easyJob "a" seedA), "a", seedA), (some (easyJob "a" seedA), "a", seedA), (some (easyJob "b" seedB), "b", seedA)] := by
      decide +kernel
    exact exists_old_seed RxPoolClient.Hit.jobId old (by simp [easyJob]) logged
  · have logged : (run (step easyNm) (.opened none) nmOvertaken).map
        (fun final => final.hits.map fun entry => (entry.job, entry.hit.jobId, entry.vm)) =
          some [(some (easyJob "a" seedA), "a", seedA), (some (easyJob "b" seedB), "b", seedA)] := by
      decide +kernel
    exact exists_old_seed NmPoolClient.Hit.jobId old (by simp [easyJob]) logged

end ArcMiner.Stratum.SeededSession
