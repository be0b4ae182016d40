import ArcMiner.Library.Kernel

/-! A race for one report.

Some participants check whether they have something to report. Those that do try to
claim a flag with one atomic compare-and-swap, and the one that gets it writes its
report, store by store. The steps of all participants interleave in any order.
-/

namespace ArcMiner.Library.Race

open Function

variable {ι α : Type} [DecidableEq ι]

inductive Phase (α : Type) where
  | checking
  | claiming
  | writing (rest : List (Nat × α))
  | done

structure State (ι α : Type) where
  claimed : Bool
  memory : Nat → α
  phase : ι → Phase α

section race
variable (eligible : ι → Bool) (report : ι → List (Nat × α))

def step (i : ι) (state : State ι α) : State ι α :=
  match state.phase i with
  | .checking => { state with phase := update state.phase i (if eligible i then .claiming else .done) }
  | .claiming =>
    if state.claimed then { state with phase := update state.phase i .done }
    else { state with claimed := true, phase := update state.phase i (.writing (report i)) }
  | .writing [] => { state with phase := update state.phase i .done }
  | .writing (store :: rest) =>
    { state with
      memory := update state.memory store.1 store.2
      phase := update state.phase i (.writing rest) }
  | .done => state

def start (memory : Nat → α) : State ι α := ⟨false, memory, fun _ => .checking⟩

def run (order : List ι) (state : State ι α) : State ι α :=
  order.foldl (fun state i => step eligible report i state) state

/-- The steps that participant `i` still has, at most. -/
def remaining (i : ι) : Phase α → Nat
  | .checking => (report i).length + 3
  | .claiming => (report i).length + 2
  | .writing rest => rest.length + 1
  | .done => 0

theorem step_remaining_self (i : ι) (state : State ι α) :
    remaining report i ((step eligible report i state).phase i) ≤ remaining report i (state.phase i) - 1 := by
  unfold step
  split
  next now =>
    rw [now]
    dsimp only
    rw [update_self]
    split <;> simp [remaining]
  next now =>
    rw [now]
    split <;> simp [remaining]
  next now =>
    rw [now]
    simp [remaining]
  next store rest now =>
    rw [now]
    simp [remaining]
  next now => simp [now, remaining]

theorem step_phase_of_ne {i j : ι} (other : j ≠ i) (state : State ι α) :
    (step eligible report i state).phase j = state.phase j := by
  unfold step
  split
  next => exact update_of_ne other _ _
  next =>
    split
    · exact update_of_ne other _ _
    · exact update_of_ne other _ _
  next => exact update_of_ne other _ _
  next => exact update_of_ne other _ _
  next => rfl

theorem run_done {order : List ι} {i : ι} {state : State ι α}
    (turns : remaining report i (state.phase i) ≤ order.count i) :
    (run eligible report order state).phase i = .done := by
  induction order generalizing state with
  | nil =>
    have none : remaining report i (state.phase i) = 0 := by simpa using turns
    show state.phase i = .done
    cases now : state.phase i with
    | done => rfl
    | checking => simp [now, remaining] at none
    | claiming => simp [now, remaining] at none
    | writing rest => simp [now, remaining] at none
  | cons j rest ih =>
    refine ih ?_
    change remaining report i ((step eligible report j state).phase i) ≤ rest.count i
    by_cases own : j = i
    · subst own
      have less := step_remaining_self eligible report j state
      rw [List.count_cons_self] at turns
      omega
    · rw [step_phase_of_ne eligible report (Ne.symm own)]
      rwa [List.count_cons_of_ne own] at turns

/-- What holds between any two steps: before the claim nothing is written, and after it only the
winner writes, and it has written a part of its report. -/
inductive Reached (memory : Nat → α) (state : State ι α) : Prop where
  | unclaimed (free : state.claimed = false) (clean : state.memory = memory)
      (quiet : ∀ i rest, state.phase i ≠ .writing rest)
      (checked : ∀ i, state.phase i = .claiming → eligible i = true)
      (lost : ∀ i, state.phase i = .done → eligible i = false)
  | won (winner : ι) (written rest : List (Nat × α)) (taken : state.claimed = true)
      (able : eligible winner = true) (parts : report winner = written ++ rest)
      (partly : state.memory = storeAll written memory)
      (own : state.phase winner = .writing rest ∨ state.phase winner = .done ∧ rest = [])
      (quiet : ∀ i, i ≠ winner → ∀ rest, state.phase i ≠ .writing rest)
      (checked : ∀ i, state.phase i = .claiming → eligible i = true)

section
variable {eligible report} {memory : Nat → α} {state : State ι α}

omit [DecidableEq ι] in
theorem start_reached (memory : Nat → α) : Reached eligible report memory (start memory) :=
  .unclaimed rfl rfl (fun _ _ busy => by cases busy) (fun _ busy => by cases busy) (fun _ busy => by cases busy)

theorem step_reached_unclaimed (i : ι) (free : state.claimed = false) (clean : state.memory = memory)
    (quiet : ∀ i rest, state.phase i ≠ .writing rest) (checked : ∀ i, state.phase i = .claiming → eligible i = true)
    (lost : ∀ i, state.phase i = .done → eligible i = false) :
    Reached eligible report memory (step eligible report i state) := by
  unfold step
  split
  next now =>
    refine .unclaimed free clean (fun j rest => ?_) (fun j => ?_) (fun j => ?_) <;> dsimp only <;>
      rcases eq_or_ne j i with rfl | other
    · rw [update_self]
      split <;> simp
    · rw [update_of_ne other]
      exact quiet j rest
    · rw [update_self]
      split <;> simp_all
    · rw [update_of_ne other]
      exact checked j
    · rw [update_self]
      split <;> simp_all
    · rw [update_of_ne other]
      exact lost j
  -- nobody holds the flag, so the exchange succeeds and this item is the winner
  next now =>
    rw [if_neg (by simp [free])]
    refine .won i [] (report i) rfl (checked i now) rfl clean (Or.inl (update_self ..)) (fun j other => ?_)
      (fun j => ?_) <;> dsimp only
    · rw [update_of_ne other]
      exact quiet j
    · rcases eq_or_ne j i with rfl | other
      · rw [update_self]
        intro busy
        cases busy
      · rw [update_of_ne other]
        exact checked j
  next now => exact absurd now (quiet i [])
  next store rest now => exact absurd now (quiet i _)
  next now => exact .unclaimed free clean quiet checked lost

theorem step_reached_won (i winner : ι) (written rest : List (Nat × α)) (taken : state.claimed = true)
    (able : eligible winner = true) (parts : report winner = written ++ rest)
    (partly : state.memory = storeAll written memory)
    (own : state.phase winner = .writing rest ∨ state.phase winner = .done ∧ rest = [])
    (quiet : ∀ i, i ≠ winner → ∀ rest, state.phase i ≠ .writing rest)
    (checked : ∀ i, state.phase i = .claiming → eligible i = true) :
    Reached eligible report memory (step eligible report i state) := by
  -- a participant that leaves the race changes nothing for the others
  have leave (phase : Phase α) (loser : i ≠ winner) (idle : ∀ rest, phase ≠ .writing rest)
      (able' : phase = .claiming → eligible i = true) :
      Reached eligible report memory { state with phase := update state.phase i phase } := by
    refine .won winner written rest taken able parts partly ?_ (fun j other => ?_) (fun j => ?_) <;> dsimp only
    · rwa [update_of_ne (Ne.symm loser)]
    · rcases eq_or_ne j i with rfl | apart
      · rw [update_self]
        exact idle
      · rw [update_of_ne apart]
        exact quiet j other
    · rcases eq_or_ne j i with rfl | apart
      · rw [update_self]
        exact able'
      · rw [update_of_ne apart]
        exact checked j
  unfold step
  split
  next now =>
    refine leave _ ?_ (fun rest => ?_) ?_
    · rintro rfl
      simp [now] at own
    · split <;> simp
    · split <;> simp_all
  next now =>
    rw [if_pos taken]
    refine leave _ ?_ (fun rest => by simp) (by simp)
    rintro rfl
    simp [now] at own
  next now =>
    obtain rfl : i = winner := by
      by_contra loser
      exact quiet i loser _ now
    obtain rfl : rest = [] := by simpa [now, eq_comm] using own
    refine .won i written [] taken able parts partly (Or.inr ⟨update_self .., rfl⟩) (fun j other => ?_)
      (fun j => ?_) <;> dsimp only
    · rw [update_of_ne other]
      exact quiet j other
    · rcases eq_or_ne j i with rfl | apart
      · rw [update_self]
        intro busy
        cases busy
      · rw [update_of_ne apart]
        exact checked j
  next store tail now =>
    obtain rfl : i = winner := by
      by_contra loser
      exact quiet i loser _ now
    obtain rfl : rest = store :: tail := by simpa [now, eq_comm] using own
    refine .won i (written ++ [store]) tail taken able (by rw [parts, List.append_assoc]; rfl) ?_
      (Or.inl (update_self ..)) (fun j other => ?_) (fun j => ?_) <;> dsimp only
    · rw [partly, storeAll, storeAll, List.foldl_append, List.foldl_cons, List.foldl_nil]
    · rw [update_of_ne other]
      exact quiet j other
    · rcases eq_or_ne j i with rfl | apart
      · rw [update_self]
        intro busy
        cases busy
      · rw [update_of_ne apart]
        exact checked j
  next now => exact .won winner written rest taken able parts partly own quiet checked

theorem step_reached (i : ι) (before : Reached eligible report memory state) :
    Reached eligible report memory (step eligible report i state) := by
  cases before with
  | unclaimed free clean quiet checked lost => exact step_reached_unclaimed i free clean quiet checked lost
  | won winner written rest taken able parts partly own quiet checked =>
    exact step_reached_won i winner written rest taken able parts partly own quiet checked

theorem run_reached (order : List ι) (before : Reached eligible report memory state) :
    Reached eligible report memory (run eligible report order state) := by
  induction order generalizing state with
  | nil => exact before
  | cons i rest ih => exact ih (step_reached i before)

/-- Whatever the order, when all are done exactly one report is written if some participant has one, and
none otherwise. -/
theorem run_result {order : List ι} {memory : Nat → α}
    (finished : ∀ i, (run eligible report order (start memory)).phase i = .done) :
    ((∀ i, eligible i = false) ∧ (run eligible report order (start memory)).memory = memory) ∨
      ∃ winner, eligible winner = true ∧
        (run eligible report order (start memory)).memory = storeAll (report winner) memory := by
  have begun : Reached eligible report memory (start memory) := start_reached memory
  cases run_reached order begun with
  | unclaimed free clean quiet checked lost => exact Or.inl ⟨fun i => lost i (finished i), clean⟩
  | won winner written rest taken able parts partly own quiet checked =>
    obtain rfl : rest = [] := by simpa [finished winner] using own
    exact Or.inr ⟨winner, able, by rw [partly, parts, List.append_nil]⟩

end
end race
end ArcMiner.Library.Race
