import Mathlib.Logic.Basic

/-! While loops executed with an explicit measure.

A loop runs for at most `measure` iterations. Whenever the body lowers the
measure, the bound is never reached and the loop obeys the usual unrolling
equation, in every lawful monad.
-/

namespace ArcMiner.Library

variable {σ : Type} {m : Type → Type} [Monad m]

def whileFuel (cond : σ → Bool) (body : σ → m σ) : Nat → σ → m σ
  | 0, state => pure state
  | fuel + 1, state => if cond state then body state >>= whileFuel cond body fuel else pure state

def whileLoop (measure : σ → Nat) (cond : σ → Bool) (body : σ → m σ) (state : σ) : m σ :=
  whileFuel cond body (measure state) state

structure Decreases (measure : σ → Nat) (cond : σ → Bool) (body : σ → m σ) : Prop where
  positive : ∀ state, cond state = true → 0 < measure state
  step : ∀ state, cond state = true →
    ∃ next : m { after : σ // measure after < measure state }, body state = Subtype.val <$> next

section
variable {measure : σ → Nat} {cond : σ → Bool} {body : σ → m σ}

theorem whileFuel_stable [LawfulMonad m] (decreases : Decreases measure cond body) (fuel other : Nat)
    (state : σ) (enough : measure state ≤ fuel) (alsoEnough : measure state ≤ other) :
    whileFuel cond body fuel state = whileFuel cond body other state := by
  induction fuel generalizing other state with
  | zero =>
    have stopped : cond state = false := by
      apply Bool.eq_false_iff.mpr
      intro running
      have positive := decreases.positive state running
      omega
    cases other <;> simp [whileFuel, stopped]
  | succ fuel ih =>
    by_cases running : cond state = true
    · have positive := decreases.positive state running
      obtain ⟨next, same⟩ := decreases.step state running
      cases other with
      | zero => omega
      | succ other =>
        simp only [whileFuel, running, ↓reduceIte, same, map_eq_pure_bind, bind_assoc, pure_bind]
        congr 1
        funext after
        have smaller := after.property
        exact ih other after.val (by omega) (by omega)
    · cases other <;> simp [whileFuel, running]

theorem whileLoop_unroll [LawfulMonad m] (decreases : Decreases measure cond body) (state : σ) :
    whileLoop measure cond body state =
      if cond state then body state >>= whileLoop measure cond body else pure state := by
  by_cases running : cond state = true
  · have positive := decreases.positive state running
    obtain ⟨fuel, enough⟩ := Nat.exists_eq_add_one.mpr positive
    obtain ⟨next, same⟩ := decreases.step state running
    rw [whileLoop, enough, whileFuel]
    simp only [running, ↓reduceIte, same, map_eq_pure_bind, bind_assoc, pure_bind]
    congr 1
    funext after
    have smaller := after.property
    exact whileFuel_stable decreases _ _ _ (by omega) (by omega)
  · cases fuel : measure state <;> simp [whileLoop, whileFuel, fuel, running]

theorem whileLoop_stop (state : σ) (stopped : cond state = false) :
    whileLoop measure cond body state = pure state := by
  cases fuel : measure state <;> simp [whileLoop, whileFuel, fuel, stopped]

theorem whileLoop_step [LawfulMonad m] (decreases : Decreases measure cond body) (state : σ)
    (running : cond state = true) :
    whileLoop measure cond body state = body state >>= whileLoop measure cond body := by
  rw [whileLoop_unroll decreases, if_pos running]

end

/-- An invariant under which the body lowers the measure holds when the loop ends. -/
theorem whileFuel_rule (Inv : σ → Prop) {measure : σ → Nat} {cond : σ → Bool} {body : σ → Id σ}
    (step : ∀ state, Inv state → cond state = true → Inv (body state) ∧ measure (body state) < measure state)
    (fuel : Nat) {state : σ} (enough : measure state ≤ fuel) (initial : Inv state) :
    Inv (whileFuel cond body fuel state) ∧ cond (whileFuel cond body fuel state) = false := by
  induction fuel generalizing state with
  | zero =>
    refine ⟨initial, Bool.eq_false_iff.mpr fun running => ?_⟩
    have smaller := (step state initial running).2
    omega
  | succ fuel ih =>
    rw [whileFuel]
    by_cases running : cond state = true
    · obtain ⟨kept, smaller⟩ := step state initial running
      rw [if_pos running]
      exact ih (by omega) kept
    · rw [if_neg running]
      exact ⟨initial, Bool.eq_false_iff.mpr running⟩

theorem whileLoop_rule (Inv : σ → Prop) (measure : σ → Nat) (cond : σ → Bool) (body : σ → Id σ)
    (step : ∀ state, Inv state → cond state = true → Inv (body state) ∧ measure (body state) < measure state)
    {state : σ} (initial : Inv state) :
    Inv (whileLoop measure cond body state) ∧ cond (whileLoop measure cond body state) = false :=
  whileFuel_rule Inv step _ (Nat.le_refl _) initial

theorem whileFuel_map [LawfulMonad m] {τ : Type} (φ : σ → τ) {cond : σ → Bool} {body : σ → m σ} {cond' : τ → Bool}
    {body' : τ → m τ} (sameCond : ∀ state, cond' (φ state) = cond state)
    (sameBody : ∀ state, body' (φ state) = φ <$> body state) (fuel : Nat) (state : σ) :
    whileFuel cond' body' fuel (φ state) = φ <$> whileFuel cond body fuel state := by
  induction fuel generalizing state with
  | zero => simp [whileFuel]
  | succ fuel ih =>
    simp only [whileFuel, sameCond, sameBody]
    by_cases running : cond state = true
    · simp only [running, ↓reduceIte, map_eq_pure_bind, bind_assoc, pure_bind]
      congr 1
      funext after
      rw [ih, map_eq_pure_bind]
    · simp [running]

theorem whileLoop_map [LawfulMonad m] {τ : Type} (φ : σ → τ) {measure : σ → Nat} {cond : σ → Bool}
    {body : σ → m σ} {measure' : τ → Nat} {cond' : τ → Bool} {body' : τ → m τ}
    (sameMeasure : ∀ state, measure' (φ state) = measure state) (sameCond : ∀ state, cond' (φ state) = cond state)
    (sameBody : ∀ state, body' (φ state) = φ <$> body state) (state : σ) :
    whileLoop measure' cond' body' (φ state) = φ <$> whileLoop measure cond body state := by
  rw [whileLoop, sameMeasure]
  exact whileFuel_map φ sameCond sameBody _ state

def recording {α : Type} (observe : σ → α) (body : σ → m σ) (state : σ × List α) : m (σ × List α) := do
  let after ← body state.1
  return (after, state.2 ++ [observe after])

theorem whileFuel_recording [LawfulMonad m] {α : Type} (observe : σ → α) (cond : σ → Bool) (body : σ → m σ) (fuel : Nat)
    (state : σ × List α) : Prod.fst <$> whileFuel (fun state => cond state.1) (recording observe body) fuel state =
      whileFuel cond body fuel state.1 :=
  (whileFuel_map Prod.fst (fun _ => rfl) (fun state => by simp [recording]) fuel state).symm

theorem whileFuel_ok {τ ε ε' : Type} (φ : σ → τ) {cond : σ → Bool} {body : σ → Except ε σ} {cond' : τ → Bool}
    {body' : τ → Except ε' τ} (sameCond : ∀ state, cond' (φ state) = cond state)
    (step : ∀ state after, body state = .ok after → body' (φ state) = .ok (φ after)) {fuel : Nat} {state last : σ}
    (run : whileFuel cond body fuel state = .ok last) : whileFuel cond' body' fuel (φ state) = .ok (φ last) := by
  induction fuel generalizing state with
  | zero =>
    cases run
    rfl
  | succ fuel ih =>
    rw [whileFuel] at run ⊢
    rw [sameCond]
    split at run
    next running =>
      rw [if_pos running]
      cases next : body state with
      | error why =>
        rw [next] at run
        cases run
      | ok after =>
        rw [next] at run
        rw [step state after next]
        exact ih run
    next stopped =>
      rw [if_neg stopped]
      cases run
      rfl

theorem whileLoop_ok {τ ε ε' : Type} (φ : σ → τ) {measure : σ → Nat} {cond : σ → Bool} {body : σ → Except ε σ}
    {measure' : τ → Nat} {cond' : τ → Bool} {body' : τ → Except ε' τ}
    (sameMeasure : ∀ state, measure' (φ state) = measure state) (sameCond : ∀ state, cond' (φ state) = cond state)
    (step : ∀ state after, body state = .ok after → body' (φ state) = .ok (φ after)) {state last : σ}
    (run : whileLoop measure cond body state = .ok last) :
    whileLoop measure' cond' body' (φ state) = .ok (φ last) := by
  rw [whileLoop, sameMeasure]
  exact whileFuel_ok φ sameCond step run

section decreases
variable {measure : σ → Nat} {cond : σ → Bool} (positive : ∀ state, cond state = true → 0 < measure state)
include positive

theorem Decreases.of_pure {body : σ → Id σ}
    (smaller : ∀ state, cond state = true → measure (body state) < measure state) : Decreases measure cond body :=
  ⟨positive, fun state running =>
    ⟨(⟨body state, smaller state running⟩ : { after : σ // measure after < measure state }), rfl⟩⟩

theorem Decreases.of_option {body : σ → Option σ}
    (smaller : ∀ state after, cond state = true → body state = some after → measure after < measure state) :
    Decreases measure cond body := by
  refine ⟨positive, fun state running => ?_⟩
  cases result : body state with
  | none => exact ⟨none, rfl⟩
  | some after => exact ⟨some ⟨after, smaller state after running result⟩, rfl⟩

theorem Decreases.of_except {ε : Type} {body : σ → Except ε σ}
    (smaller : ∀ state after, cond state = true → body state = .ok after → measure after < measure state) :
    Decreases measure cond body := by
  refine ⟨positive, fun state running => ?_⟩
  cases result : body state with
  | error why => exact ⟨.error why, rfl⟩
  | ok after => exact ⟨.ok ⟨after, smaller state after running result⟩, rfl⟩

end decreases
end ArcMiner.Library
