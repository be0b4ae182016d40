import ArcMiner.AkoyaCrypto.ChallengeSolver
import ArcMiner.Library.Machine

/-! The threads of `ChallengeSolver.Solve`.

The main thread starts one worker for each processor, waits for all of them and reads the result. The reads and
writes that the threads share are separate steps, in any order. -/

namespace ArcMiner.AkoyaCrypto.ChallengeSolver

open Library Library.CSharp List Function Nat Except Option

/-- What a call of `Solve` is given and what it captures for its threads. -/
structure Search where
  seed : Digest
  difficulty : Int
  threads : Nat

def Search.accepts (search : Search) (nonce : UInt64) : Bool :=
  tryNonce (seedWords search.seed) nonce search.difficulty

inductive Phase where
  | looking (nonce : UInt64)
  /-- The flag was clear; the token is read next. -/
  | checking (nonce : UInt64)
  | trying (nonce : UInt64)
  | claiming (nonce : UInt64)
  | writing (nonce : UInt64)
  | done
deriving DecidableEq

inductive Main where
  | starting (t : Nat)
  | joining (t : Nat)
  | reading
  | returned (result : Option UInt64)
deriving DecidableEq

structure State where
  main : Main
  /-- Nothing for a worker that is not started. -/
  phase : Nat → Option Phase
  foundFlag : Bool
  found : UInt64
  cancelled : Bool
  tried : Nat → List UInt64

inductive Event where
  | main
  | worker (t : Nat)
  | cancel

def solve (seed : List UInt8) (difficulty processorCount : Int) : Result (Search × State) :=
  if size : seed.length = 32 then
    if difficulty < 0 ∨ 255 < difficulty then .error (.argumentOutOfRange "difficulty")
    else .ok (⟨⟨seed.toArray, size⟩, difficulty, (max 1 processorCount).toNat⟩,
      ⟨.starting 0, fun _ => none, false, 0, false, fun _ => []⟩)
  else .error (.argument "seed must be 32 bytes")

def advance (search : Search) (state : State) (t : Nat) : Phase → Option State
  | .looking nonce =>
    let next : Phase :=
      if (nonce / search.threads.toUInt64) &&& 0x1FFF = 0 then if state.foundFlag then .done else .checking nonce
      else .trying nonce
    some { state with phase := update state.phase t (some next) }
  | .checking nonce =>
    some { state with phase := update state.phase t (some (if state.cancelled then .done else .trying nonce)) }
  | .trying nonce =>
    let next : Phase := if search.accepts nonce then .claiming nonce else .looking (nonce + search.threads.toUInt64)
    some { state with
      phase := update state.phase t (some next)
      tried := update state.tried t (state.tried t ++ [nonce]) }
  | .claiming nonce =>
    if state.foundFlag then some { state with phase := update state.phase t (some .done) }
    else some { state with foundFlag := true, phase := update state.phase t (some (.writing nonce)) }
  | .writing nonce => some { state with found := nonce, phase := update state.phase t (some .done) }
  | .done => none

def advanceMain (search : Search) (state : State) : Option State :=
  match state.main with
  | .starting t =>
    if t < search.threads then
      some { state with
        main := .starting (t + 1)
        phase := update state.phase t (some (.looking t.toUInt64)) }
    else some { state with main := .joining 0 }
  | .joining t =>
    if t < search.threads then
      if state.phase t = some .done then some { state with main := .joining (t + 1) } else none
    else some { state with main := if state.foundFlag then .reading else .returned none }
  | .reading => some { state with main := .returned (some state.found) }
  | .returned _ => none

def step (search : Search) (state : State) : Event → Option State
  | .main => advanceMain search state
  | .worker t => state.phase t >>= advance search state t
  | .cancel => some { state with cancelled := true }

def scan (threads t : Nat) : Nat → UInt64
  | 0 => t.toUInt64
  | k + 1 => scan threads t k + threads.toUInt64

theorem scan_toNat (threads t k : Nat) : (scan threads t k).toNat = (t + k * threads) % 2 ^ 64 := by
  induction k with
  | zero => simp [scan]
  | succ k ih =>
    rw [scan, UInt64.toNat_add, ih, succ_mul]
    simp [Nat.add_assoc]

/-- Before the scans wrap around, every nonce is reached once, and by one worker. -/
theorem scan_existsUnique {threads : Nat} (positive : 0 < threads) (nonce : UInt64) :
    ∃! turn : Nat × Nat, turn.1 < threads ∧ turn.1 + turn.2 * threads < 2 ^ 64 ∧ scan threads turn.1 turn.2 = nonce := by
  have whole : nonce.toNat % threads + nonce.toNat / threads * threads = nonce.toNat := by
    rw [Nat.mul_comm]
    exact mod_add_div ..
  have bound := nonce.toNat_lt
  refine ⟨(nonce.toNat % threads, nonce.toNat / threads), ⟨mod_lt _ positive, whole.trans_lt bound, ?_⟩, ?_⟩
  · apply UInt64.toNat_inj.mp
    rw [scan_toNat, whole, mod_eq_of_lt bound]
  · rintro ⟨t, k⟩ ⟨inside, unwrapped, reached⟩
    have value := congrArg UInt64.toNat reached
    rw [scan_toNat, mod_eq_of_lt unwrapped] at value
    dsimp only at inside value ⊢
    rw [← value, add_mul_mod_self_right, mod_eq_of_lt inside, add_mul_div_right _ _ positive,
      div_eq_of_lt inside, Nat.zero_add]

section run
variable {search : Search} {state next : State}

/-- What a worker has tried is the beginning of its scan, and what it carries is the next nonce or an accepted one. -/
def Tracked (search : Search) (t : Nat) (tried : List UInt64) : Phase → Prop
  | .looking nonce | .checking nonce | .trying nonce =>
    tried = (range tried.length).map (scan search.threads t) ∧ nonce = scan search.threads t tried.length
  | .claiming nonce | .writing nonce =>
    tried = (range tried.length).map (scan search.threads t) ∧ search.accepts nonce = true
  | .done => tried = (range tried.length).map (scan search.threads t)

theorem Tracked.tried_eq {t : Nat} {tried : List UInt64} {phase : Phase} (tracked : Tracked search t tried phase) :
    tried = (range tried.length).map (scan search.threads t) := by
  cases phase with
  | looking _ | checking _ | trying _ | claiming _ | writing _ => exact tracked.1
  | done => exact tracked

def Joined (search : Search) (state : State) : Prop :=
  match state.main with
  | .starting t => t ≤ search.threads ∧ ∀ i, t ≤ i → state.phase i = none
  | .joining t => (∀ i, search.threads ≤ i → state.phase i = none) ∧ ∀ i < t, state.phase i = some .done
  | .reading => (∀ i phase, state.phase i = some phase → phase = .done) ∧ search.accepts state.found = true
  | .returned result => ∀ nonce ∈ result, search.accepts nonce = true

structure Sound (search : Search) (state : State) : Prop where
  tracked : ∀ t phase, state.phase t = some phase → Tracked search t (state.tried t) phase
  idle : ∀ t, state.phase t = none → state.tried t = []
  /-- The flag is raised by a worker that still has to write its nonce, or has written it. -/
  claimed : state.foundFlag = true → (∃ t nonce, state.phase t = some (.writing nonce)) ∨ search.accepts state.found = true
  joined : Joined search state

theorem advance_moves {t : Nat} {phase : Phase} (stepped : advance search state t phase = some next) :
    ∃ moved tried, next.phase = update state.phase t (some moved) ∧
      next.tried = update state.tried t tried ∧ next.main = state.main ∧
      (Tracked search t (state.tried t) phase → Tracked search t tried moved) ∧
      (next.foundFlag = state.foundFlag ∧ next.found = state.found ∧ (∀ nonce, phase ≠ .writing nonce) ∨
        (∃ nonce, moved = .writing nonce) ∧ next.found = state.found ∨
        ∃ nonce, phase = .writing nonce ∧ next.found = nonce) := by
  have same : state.tried = update state.tried t (state.tried t) := (update_eq_self t _).symm
  cases phase with
  | looking nonce =>
    obtain rfl := some.inj stepped
    refine ⟨_, _, rfl, same, rfl, ?_, .inl ⟨rfl, rfl, nofun⟩⟩
    rintro ⟨tried, carried⟩
    split
    · split
      · exact tried
      · exact ⟨tried, carried⟩
    · exact ⟨tried, carried⟩
  | checking nonce =>
    obtain rfl := some.inj stepped
    refine ⟨_, _, rfl, same, rfl, ?_, .inl ⟨rfl, rfl, nofun⟩⟩
    rintro ⟨tried, carried⟩
    split
    · exact tried
    · exact ⟨tried, carried⟩
  | trying nonce =>
    obtain rfl := some.inj stepped
    refine ⟨_, _, rfl, rfl, rfl, ?_, .inl ⟨rfl, rfl, nofun⟩⟩
    rintro ⟨tried, carried⟩
    have longer : state.tried t ++ [nonce] =
        (range (state.tried t ++ [nonce]).length).map (scan search.threads t) := by
      rw [length_append, length_singleton, range_succ, map_append, ← tried, map_singleton, carried]
    split
    next accepted => exact ⟨longer, accepted⟩
    next => exact ⟨longer, by rw [length_append, length_singleton, scan, carried]⟩
  | claiming nonce =>
    rw [advance] at stepped
    split at stepped
    · obtain rfl := some.inj stepped
      exact ⟨_, _, rfl, same, rfl, fun tracked => tracked.1, .inl ⟨rfl, rfl, nofun⟩⟩
    · obtain rfl := some.inj stepped
      exact ⟨_, _, rfl, same, rfl, id, .inr (.inl ⟨⟨nonce, rfl⟩, rfl⟩)⟩
  | writing nonce =>
    obtain rfl := some.inj stepped
    exact ⟨_, _, rfl, same, rfl, fun tracked => tracked.1, .inr (.inr ⟨nonce, rfl, rfl⟩)⟩
  | done => cases stepped

theorem joined_of_worker {t : Nat} {phase : Phase} {moved : Option Phase} (joined : Joined search state)
    (now : state.phase t = some phase) (busy : phase ≠ .done) (phases : next.phase = update state.phase t moved)
    (main : next.main = state.main) : Joined search next := by
  have others (i : Nat) (entry : Option Phase) (at_i : state.phase i = entry) (apart : entry ≠ some phase) :
      next.phase i = entry := by
    have elsewhere : i ≠ t := by
      rintro rfl
      exact apart (at_i.symm.trans now)
    rw [phases, update_of_ne elsewhere, at_i]
  have working : some Phase.done ≠ some phase := fun same => busy (some.inj same).symm
  rw [Joined, main]
  rw [Joined] at joined
  cases at_main : state.main with
  | starting k =>
    rw [at_main] at joined
    exact ⟨joined.1, fun i above => others i none (joined.2 i above) nofun⟩
  | joining k =>
    rw [at_main] at joined
    exact ⟨fun i above => others i none (joined.1 i above) nofun, fun i below => others i _ (joined.2 i below) working⟩
  | reading =>
    rw [at_main] at joined
    exact absurd (joined.1 t phase now) busy
  | returned result =>
    rw [at_main] at joined
    exact joined

theorem advance_sound {t : Nat} {phase : Phase} (sound : Sound search state) (now : state.phase t = some phase)
    (stepped : advance search state t phase = some next) : Sound search next := by
  obtain ⟨moved, tried, phases, tries, main, follows, shared⟩ := advance_moves stepped
  have tracked := sound.tracked t phase now
  have busy : phase ≠ .done := by
    rintro rfl
    cases stepped
  refine ⟨fun i other at_i => ?_, fun i off => ?_, fun raised => ?_, ?_⟩
  · rw [tries]
    rw [phases] at at_i
    obtain ⟨rfl, same⟩ | ⟨apart, at_i⟩ := Machine.update_eq_some at_i
    · obtain rfl := some.inj same
      rw [update_self]
      exact follows tracked
    · rw [update_of_ne apart]
      exact sound.tracked i other at_i
  · rw [phases] at off
    by_cases same : i = t
    · rw [same, update_self] at off
      cases off
    · rw [update_of_ne same] at off
      rw [tries, update_of_ne same]
      exact sound.idle i off
  · obtain ⟨flag, kept, quiet⟩ | ⟨⟨nonce, rfl⟩, -⟩ | ⟨nonce, rfl, written⟩ := shared
    · rw [flag] at raised
      rw [kept]
      refine (sound.claimed raised).imp_left ?_
      rintro ⟨i, nonce, writing⟩
      have apart : i ≠ t := by
        rintro rfl
        exact quiet nonce (some.inj (now.symm.trans writing))
      exact ⟨i, nonce, by rw [phases, update_of_ne apart, writing]⟩
    · exact .inl ⟨t, nonce, by rw [phases, update_self]⟩
    · rw [written]
      exact .inr tracked.2
  · exact joined_of_worker sound.joined now busy phases main

theorem advanceMain_sound (sound : Sound search state) (stepped : advanceMain search state = some next) :
    Sound search next := by
  have joined := sound.joined
  unfold advanceMain at stepped
  rw [Joined] at joined
  cases at_main : state.main with
  | starting t =>
    simp only [at_main] at stepped joined
    obtain ⟨most, unstarted⟩ := joined
    split at stepped
    next below =>
      obtain rfl := some.inj stepped
      have fresh := sound.idle t (unstarted t (Nat.le_refl t))
      refine ⟨fun i phase at_i => ?_, fun i off => ?_, fun raised => ?_, below, fun i above => ?_⟩
      · obtain ⟨rfl, same⟩ | ⟨-, at_i⟩ := Machine.update_eq_some at_i
        · obtain rfl := some.inj same
          exact ⟨by rw [fresh]; rfl, by rw [fresh]; rfl⟩
        · exact sound.tracked i phase at_i
      · by_cases same : i = t
        · exact same ▸ fresh
        · exact sound.idle i ((update_of_ne same _ _).symm.trans off)
      · refine (sound.claimed raised).imp_left ?_
        rintro ⟨i, nonce, writing⟩
        have apart : i ≠ t := by
          rintro rfl
          rw [unstarted i (Nat.le_refl i)] at writing
          cases writing
        exact ⟨i, nonce, (update_of_ne apart _ _).trans writing⟩
      · exact (update_of_ne (by omega) _ _).trans (unstarted i (by omega))
    next enough =>
      obtain rfl := some.inj stepped
      exact ⟨sound.tracked, sound.idle, sound.claimed, fun i above => unstarted i (by omega),
        fun i below => absurd below (Nat.not_lt_zero i)⟩
  | joining t =>
    simp only [at_main] at stepped joined
    obtain ⟨beyond, finished⟩ := joined
    split at stepped
    next below =>
      split at stepped
      next ended =>
        obtain rfl := some.inj stepped
        refine ⟨sound.tracked, sound.idle, sound.claimed, beyond, fun i below => ?_⟩
        obtain earlier | rfl : i < t ∨ i = t := by omega
        · exact finished i earlier
        · exact ended
      next => cases stepped
    next all =>
      obtain rfl := some.inj stepped
      -- nobody is left who could still have to write
      have ended (i : Nat) (phase : Phase) (at_i : state.phase i = some phase) : phase = .done := by
        by_cases inside : i < search.threads
        · exact some.inj (at_i.symm.trans (finished i (by omega)))
        · rw [beyond i (by omega)] at at_i
          cases at_i
      refine ⟨sound.tracked, sound.idle, sound.claimed, ?_⟩
      rw [Joined]
      dsimp only
      cases raised : state.foundFlag with
      | false => exact fun nonce none => by cases none
      | true =>
        refine ⟨ended, (sound.claimed raised).resolve_left ?_⟩
        rintro ⟨i, nonce, writing⟩
        cases ended i _ writing
  | reading =>
    simp only [at_main] at stepped joined
    obtain rfl := some.inj stepped
    refine ⟨sound.tracked, sound.idle, sound.claimed, fun nonce read => ?_⟩
    obtain rfl := some.inj read
    exact joined.2
  | returned result =>
    simp only [at_main] at stepped
    cases stepped

theorem step_sound {event : Event} (sound : Sound search state) (stepped : step search state event = some next) :
    Sound search next := by
  cases event with
  | main => exact advanceMain_sound sound stepped
  | worker t =>
    obtain ⟨phase, now, moved⟩ := bind_eq_some_iff.mp stepped
    exact advance_sound sound now moved
  | cancel =>
    obtain rfl := some.inj stepped
    exact ⟨sound.tracked, sound.idle, sound.claimed, sound.joined⟩

end run

/-- The search and the check agree on every nonce. Before the scans wrap around they visit every nonce once, in whatever
order the threads run; what the call returns passes the check. -/
theorem solve_agrees_with_verify {seed : List UInt8} {difficulty processorCount : Int} (seedLength : seed.length = 32)
    (lowest : 0 ≤ difficulty) (highest : difficulty ≤ 255) :
    ∃ search start, solve seed difficulty processorCount = .ok (search, start) ∧
      (∀ nonce, verify seed nonce difficulty = .ok (tryNonce (seedWords search.seed) nonce difficulty)) ∧
      (∀ nonce, ∃! turn : Nat × Nat, turn.1 < search.threads ∧ turn.1 + turn.2 * search.threads < 2 ^ 64 ∧
        scan search.threads turn.1 turn.2 = nonce) ∧
      ∀ events final, Machine.run (step search) start events = some final →
        (∀ t, final.tried t = (range (final.tried t).length).map (scan search.threads t)) ∧
        ∀ nonce, final.main = .returned (some nonce) → verify seed nonce difficulty = .ok true := by
  have called : solve seed difficulty processorCount = .ok (⟨⟨seed.toArray, seedLength⟩, difficulty,
      (max 1 processorCount).toNat⟩, ⟨.starting 0, fun _ => none, false, 0, false, fun _ => []⟩) := by
    rw [solve, dif_pos seedLength, if_neg (by omega)]
  have agrees := fun nonce => verify_tryNonce ⟨seed.toArray, seedLength⟩ nonce difficulty
  refine ⟨_, _, called, agrees, scan_existsUnique (by dsimp only; omega), fun events final ran => ?_⟩
  have sound := Machine.run_history (motive := fun _ state => Sound _ state)
    (by exact ⟨fun _ _ off => (by cases off), fun _ _ => rfl, fun raised => (by cases raised), Nat.zero_le _, fun _ _ => rfl⟩)
    step_sound ran
  constructor
  · intro t
    cases now : final.phase t with
    | none => rw [sound.idle t now, length_nil, range_zero, map_nil]
    | some phase => exact (sound.tracked t phase now).tried_eq
  · intro nonce returned
    have joined := sound.joined
    rw [Joined, returned] at joined
    have accepted := joined nonce rfl
    exact (agrees nonce).trans (congrArg ok accepted)

theorem solve_agrees_with_verify_zeros : ∃ search start final, solve (replicate 32 0) 0 1 = .ok (search, start) ∧
      Machine.run (step search) start [.main, .worker 0, .worker 0, .worker 0, .main, .worker 0, .worker 0, .main, .main,
        .main] = some final ∧
      final.main = .returned (some 0) ∧ verify (replicate 32 0) 0 0 = .ok true := by
  have called : solve (replicate 32 0) 0 1 = .ok (⟨⟨(replicate 32 0).toArray, rfl⟩, 0, 1⟩,
      ⟨.starting 0, fun _ => none, false, 0, false, fun _ => []⟩) := rfl
  obtain ⟨search, start, same, -, -, runs⟩ := @solve_agrees_with_verify (replicate 32 0) 0 1 rfl (by decide) (by decide)
  obtain ⟨rfl, rfl⟩ := Prod.mk.inj (ok.inj (called.symm.trans same))
  have reached : (Machine.run (step ⟨⟨(replicate 32 0).toArray, rfl⟩, 0, 1⟩)
      ⟨.starting 0, fun _ => none, false, 0, false, fun _ => []⟩
      [.main, .worker 0, .worker 0, .worker 0, .main, .worker 0, .worker 0, .main, .main, .main]).map State.main =
        some (.returned (some 0)) := by decide +kernel
  obtain ⟨final, ran, returned⟩ := map_eq_some_iff.mp reached
  exact ⟨_, _, final, called, ran, returned, (runs _ final ran).2 0 returned⟩

end ArcMiner.AkoyaCrypto.ChallengeSolver
