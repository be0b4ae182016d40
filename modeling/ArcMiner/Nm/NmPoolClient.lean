import ArcMiner.Rx.RxPoolClient

/-! The solver threads of `NmPoolClient`.

The loop is that of `RxPoolClient` without its pipeline: a hash is tested in the turn that wrote its nonce.
A blob has a fixed length, and only the low half of its nonce is searched.
-/

namespace ArcMiner.Nm.NmPoolClient

open Library Library.CSharp AkoyaCrypto Stratum
open Rx.RxPoolClient (withNonce writeNonce writeNonce_full withNonce_withNonce length_withNonce takenUp)

def headerBytes : Nat := 124

def nonceOffset : Nat := 116

structure Hit where
  jobId : String
  nonce : UInt64
  hash : Digest

structure Solver where
  lastGen : Int
  blob : List UInt8
  target : List UInt8
  jobId : String
  height : Int
  nonce : UInt32

def Solver.start (idx : UInt32) : Solver where
  lastGen := -1
  blob := List.replicate headerBytes 0
  target := []
  jobId := ""
  height := 0
  nonce := idx

def Solver.adopt (idx : UInt32) (job : CryptoNoteJob) (gen : Int) (solver : Solver) : Result Solver :=
  if gen ≠ solver.lastGen then
    -- `Array.Copy` takes as many bytes as it is told to.
    if headerBytes ≤ job.blob.length then .ok
      { blob := job.blob.take headerBytes
        target := job.target
        jobId := job.jobId
        height := job.height
        lastGen := gen
        nonce := if solver.jobId ≠ job.jobId then idx else solver.nonce }
    else .error (.argument "sourceArray")
  else .ok solver

/-- The hash of the blob, tested against the target; a pool is told all eight bytes of the nonce. -/
def Solver.harvest (H : List UInt8 → UInt64 → Digest) (solver : Solver) : Result (List Hit) := do
  let hash := H solver.blob (UInt64.ofInt solver.height)
  if ← Uint256.beLessOrEqual hash.toList solver.target then
    let fullNonce ← spanSlice solver.blob nonceOffset 8 >>= readUInt64LittleEndian
    return [⟨solver.jobId, fullNonce, hash⟩]
  return []

def turn (H : List UInt8 → UInt64 → Digest) (idx threads : UInt32) (job : CryptoNoteJob) (gen : Int) (solver : Solver) :
    Result (Solver × List Hit) := do
  let solver ← solver.adopt idx job gen
  let (blob, _) ← writeNonce solver.blob nonceOffset true solver.nonce
  let solver := { solver with blob }
  let found ← solver.harvest H
  return ({ solver with nonce := solver.nonce + threads }, found)

def header (job : CryptoNoteJob) : List UInt8 := job.blob.take headerBytes

structure Hit.Consistent (H : List UInt8 → UInt64 → Digest) (hit : Hit) (job : CryptoNoteJob) : Prop where
  jobId : hit.jobId = job.jobId
  searched : ∃ nonce, hit.hash = H (withNonce (header job) nonceOffset nonce) (UInt64.ofInt job.height) ∧
    hit.nonce.toNat = leValue (((withNonce (header job) nonceOffset nonce).drop nonceOffset).take 8)
  target : job.target.length = 32 → leValue hit.hash.toList.reverse ≤ leValue job.target.reverse

structure Solver.Holds (solver : Solver) (job : CryptoNoteJob) : Prop where
  whole : (header job).length = headerBytes
  carries : solver.blob = header job ∨ ∃ nonce, solver.blob = withNonce (header job) nonceOffset nonce
  target : solver.target = job.target
  jobId : solver.jobId = job.jobId
  height : solver.height = job.height

structure Solver.Tracks (solver : Solver) (current : Option CryptoNoteJob) : Prop where
  holds : ∀ job ∈ current, solver.Holds job
  blank : current = none → solver.target = []

section run
variable {H : List UInt8 → UInt64 → Digest} {idx threads : UInt32} {solver next : Solver} {current : Option CryptoNoteJob}

theorem start_tracks : (Solver.start idx).Tracks none := ⟨nofun, fun _ => rfl⟩

theorem adopt_tracks {job : CryptoNoteJob} {gen : Int} (tracks : solver.Tracks current)
    (adopted : solver.adopt idx job gen = .ok next) : next.Tracks (takenUp solver.lastGen gen job current) := by
  unfold Solver.adopt at adopted
  unfold takenUp
  split at adopted
  next changed =>
    split at adopted
    next enough =>
      cases adopted
      rw [if_pos changed]
      refine ⟨?_, nofun⟩
      rintro taken ⟨⟩
      exact ⟨List.length_take_of_le enough, .inl rfl, rfl, rfl, rfl⟩
    next => cases adopted
  next same =>
    cases adopted
    rwa [if_neg same]

theorem exists_taken {found : List Hit} (tracks : solver.Tracks current) (harvested : solver.harvest H = .ok found) :
    ∃ job, current = some job := by
  cases current with
  | some job => exact ⟨job, rfl⟩
  | none =>
    -- There is nothing to compare with.
    obtain ⟨less, compared, -⟩ := bind_eq_ok.mp harvested
    rw [tracks.blank rfl] at compared
    obtain ⟨x, -, compared⟩ := bind_eq_ok.mp compared
    cases compared

theorem Solver.Holds.withNonce_blob {job : CryptoNoteJob} (holds : solver.Holds job) (nonce : UInt32) :
    withNonce solver.blob nonceOffset nonce = withNonce (header job) nonceOffset nonce := by
  have fits : nonceOffset + 4 ≤ (header job).length := by
    rw [holds.whole]
    decide
  rcases holds.carries with same | ⟨earlier, same⟩
  · rw [same]
  · rw [same, withNonce_withNonce fits]

theorem harvest_consistent {job : CryptoNoteJob} {nonce : UInt32} {found : List Hit} (holds : solver.Holds job)
    (written : solver.blob = withNonce (header job) nonceOffset nonce) (harvested : solver.harvest H = .ok found) :
    ∀ hit ∈ found, hit.Consistent H job := by
  intro hit isFound
  have length : solver.blob.length = headerBytes := by
    rw [written, length_withNonce (by rw [holds.whole]; decide), holds.whole]
  obtain ⟨less, compared, harvested⟩ := bind_eq_ok.mp harvested
  cases less with
  | false =>
    cases harvested
    cases isFound
  | true =>
    obtain ⟨fullNonce, read, value⟩ := readUInt64LittleEndian_slice solver.blob nonceOffset (by rw [length]; decide)
    obtain ⟨told, reread, ⟨⟩⟩ := bind_eq_ok.mp harvested
    obtain rfl : told = fullNonce := Except.ok.inj (reread.symm.trans read)
    obtain rfl := List.mem_singleton.mp isFound
    rw [holds.target] at compared
    refine ⟨holds.jobId, ⟨nonce, ?_, ?_⟩, fun whole => ?_⟩
    · rw [written, holds.height]
    · rw [value, written]
    · rw [Uint256.beLessOrEqual_eq (Vector.length_toList ..) whole] at compared
      exact Uint256.leValue_le_of_leLessOrEqual (by simp) compared

theorem turn_spec {job : CryptoNoteJob} {gen : Int} {found : List Hit} (tracks : solver.Tracks current)
    (turned : turn H idx threads job gen solver = .ok (next, found)) :
    ∃ taken, takenUp solver.lastGen gen job current = some taken ∧ next.Tracks (some taken) ∧
      ∀ hit ∈ found, hit.Consistent H taken := by
  obtain ⟨adopted, adopts, turned⟩ := bind_eq_ok.mp turned
  obtain ⟨⟨blob, submitted⟩, wrote, turned⟩ := bind_eq_ok.mp turned
  obtain ⟨hits, harvested, ⟨⟩⟩ := bind_eq_ok.mp turned
  have tracksAdopted := adopt_tracks tracks adopts
  obtain ⟨-, rfl, -⟩ := writeNonce_full wrote
  have tracksWritten : Solver.Tracks { adopted with blob := withNonce adopted.blob nonceOffset adopted.nonce }
      (takenUp solver.lastGen gen job current) := by
    refine ⟨fun taken now => ?_, tracksAdopted.blank⟩
    have holds := tracksAdopted.holds taken now
    exact ⟨holds.whole, .inr ⟨_, holds.withNonce_blob _⟩, holds.target, holds.jobId, holds.height⟩
  obtain ⟨taken, now⟩ := exists_taken tracksWritten harvested
  rw [now] at tracksAdopted tracksWritten
  have holds := tracksWritten.holds taken rfl
  refine ⟨taken, now, ⟨?_, nofun⟩, ?_⟩
  · rintro same ⟨⟩
    exact ⟨holds.whole, holds.carries, holds.target, holds.jobId, holds.height⟩
  · exact harvest_consistent holds ((tracksAdopted.holds taken rfl).withNonce_blob _) harvested

end run
end ArcMiner.Nm.NmPoolClient
