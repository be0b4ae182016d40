import ArcMiner.Rx.RxPoolClient

/-! The nonces that the solver threads of `RxPoolClient` share out among them.

Each thread begins at its own number and goes on by the number of threads, as fast as it can. What a thread
hashes are its writes.
-/

namespace ArcMiner.Rx.RxPoolClient

open Library Stratum Nat UInt32 List

def searchSpace (job : CryptoNoteJob) : Nat := if job.fullWidthNonce then 2 ^ 32 else 2 ^ 24

/-- The nonces that thread `idx` hashes, from what it sees in its turns. -/
def hashed (threads idx : Nat) (seen : List Snapshot) : List UInt32 :=
  (writes idx.toUInt32 threads.toUInt32 seen (-1) none idx.toUInt32).map Write.nonce

theorem toNat_submittedNonce (job : CryptoNoteJob) (nonce : UInt32) :
    (submittedNonce job nonce).toNat % searchSpace job = nonce.toNat % searchSpace job := by
  unfold submittedNonce searchSpace
  split
  · rfl
  · rw [leWord_toNat, wordByte_toNat _ (by decide), wordByte_toNat _ (by decide), wordByte_toNat _ (by decide)]
    omega

/-- A job that comes again under another generation does not set the nonce back. -/
theorem writes_job {job : CryptoNoteJob} {threads idx : UInt32} {seen : List Snapshot} (onJob : ∀ s ∈ seen, s.1 = some job)
    (lastGen : Int) (nonce : UInt32) : writes idx threads seen lastGen (some job) nonce =
      (range seen.length).map fun k => ⟨job, submittedNonce job (nonce + ofNat k * threads)⟩ := by
  induction seen generalizing lastGen nonce with
  | nil => rfl
  | cons s rest ih =>
    obtain ⟨here, later⟩ := forall_mem_cons.mp onJob
    obtain ⟨_, gen⟩ := s
    obtain rfl := here
    have next (k : Nat) : nonce + threads + ofNat k * threads = nonce + ofNat (k + 1) * threads := by
      rw [ofNat_add]
      grind
    simp [writes, ih later, range_succ_eq_map, next]

section
variable {threads : Nat} {job : CryptoNoteJob}

theorem hashed_eq {seen : List Snapshot} (onJob : ∀ s ∈ seen, s.1 = some job ∧ s.2 ≠ -1) (idx : Nat) :
    hashed threads idx seen =
      (range seen.length).map fun k => submittedNonce job (ofNat (idx + k * threads)) := by
  have same : writes idx.toUInt32 threads.toUInt32 seen (-1) none idx.toUInt32 =
      writes idx.toUInt32 threads.toUInt32 seen (-1) (some job) idx.toUInt32 := by
    match seen, onJob with
    | [], _ => rfl
    | (_, gen) :: rest, onJob =>
      obtain ⟨⟨⟨⟩, known⟩, -⟩ := forall_mem_cons.mp onJob
      simp [writes, (known : gen ≠ -1)]
  rw [hashed, same, writes_job fun s member => (onJob s member).1, map_map]
  refine map_congr_left fun k _ => ?_
  simp [toUInt32, ofNat_add, ofNat_mul]

/-- Up to the end of the space, a nonce names its thread and its turn. -/
theorem turn_of_nonce {i j k l : Nat} (first : i < threads) (second : j < threads)
    (low : i + k * threads < searchSpace job) (low' : j + l * threads < searchSpace job)
    (same : submittedNonce job (.ofNat (i + k * threads)) = submittedNonce job (.ofNat (j + l * threads))) :
    i = j ∧ k = l := by
  have space : searchSpace job ≤ 2 ^ 32 := by
    unfold searchSpace
    split <;> decide
  have value := congrArg (·.toNat % searchSpace job) same
  simp only [toNat_submittedNonce, toNat_ofNat', mod_eq_of_lt (low.trans_le space), mod_eq_of_lt low,
    mod_eq_of_lt (low'.trans_le space), mod_eq_of_lt low'] at value
  have start := congrArg (· % threads) value
  simp only [add_mul_mod_self_right, mod_eq_of_lt first, mod_eq_of_lt second] at start
  subst start
  exact ⟨rfl, eq_of_mul_eq_mul_right (zero_lt_of_lt first) (Nat.add_left_cancel value)⟩

end

/-- As long as no thread has passed the end of the nonces, none is hashed twice. -/
theorem nonces_hashed_once (threads : Nat) (job : CryptoNoteJob) (seen : Nat → List Snapshot)
    (onJob : ∀ idx < threads, ∀ s ∈ seen idx, s.1 = some job ∧ s.2 ≠ -1)
    (inside : ∀ idx < threads, ∀ k < (seen idx).length, idx + k * threads < searchSpace job) :
    ((range threads).flatMap fun idx => hashed threads idx (seen idx)).Nodup := by
  refine nodup_flatMap.mpr ⟨fun i member => ?_, nodup_range.imp_of_mem fun {i j} member member' other => ?_⟩
  · have first := mem_range.mp member
    rw [hashed_eq (onJob i first)]
    refine nodup_range.map_on fun k turned l turned' same => ?_
    exact (turn_of_nonce first first (inside i first k (mem_range.mp turned))
      (inside i first l (mem_range.mp turned')) same).2
  · have first := mem_range.mp member
    have second := mem_range.mp member'
    simp only [Function.onFun, hashed_eq (onJob i first), hashed_eq (onJob j second)]
    intro nonce here there
    obtain ⟨k, turned, rfl⟩ := mem_map.mp here
    obtain ⟨l, turned', same⟩ := mem_map.mp there
    exact other (turn_of_nonce first second (inside i first k (mem_range.mp turned))
      (inside j second l (mem_range.mp turned')) same.symm).1

def moneroJob : CryptoNoteJob := ⟨"a", replicate 43 0, replicate 32 0xFF, [], 0, 39, false⟩

theorem nonces_hashed_once_two : ((range 2).flatMap fun idx =>
    hashed 2 idx (replicate (2 ^ 23) (some moneroJob, 1))).Nodup := by
  refine nonces_hashed_once 2 moneroJob (fun _ => replicate (2 ^ 23) (some moneroJob, 1)) (fun _ _ s member => ?_)
    fun idx first k turned => ?_
  · rw [eq_of_mem_replicate member]
    exact ⟨rfl, by decide⟩
  · rw [length_replicate] at turned
    rw [show searchSpace moneroJob = 2 ^ 24 from rfl]
    omega

/-- Of two threads the first is through with its nonces before the second has begun, and hashes 0 again. -/
theorem nonce_hashed_again : ¬(hashed 2 0 (replicate (2 ^ 23 + 1) (some moneroJob, 1))).Nodup ∧
    submittedNonce moneroJob 1 ∉ hashed 2 0 (replicate (2 ^ 23 + 1) (some moneroJob, 1)) := by
  have onJob : ∀ s ∈ replicate (2 ^ 23 + 1) (some moneroJob, (1 : Int)), s.1 = some moneroJob ∧ s.2 ≠ -1 := by
    intro s member
    rw [eq_of_mem_replicate member]
    exact ⟨rfl, by decide⟩
  rw [hashed_eq onJob, length_replicate]
  constructor
  · intro distinct
    have turn : 0 = 2 ^ 23 := inj_on_of_nodup_map distinct (by simp) (by simp) (by decide)
    cases turn
  · intro member
    obtain ⟨k, -, same⟩ := mem_map.mp member
    have value := congrArg (·.toNat % 2 ^ 24) same
    have even := toNat_submittedNonce moneroJob (.ofNat (0 + k * 2))
    rw [show searchSpace moneroJob = 2 ^ 24 from rfl, toNat_ofNat'] at even
    rw [show (submittedNonce moneroJob 1).toNat % 2 ^ 24 = 1 from by decide, even] at value
    omega

end ArcMiner.Rx.RxPoolClient
