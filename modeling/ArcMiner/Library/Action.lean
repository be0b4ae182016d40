import Mathlib.Tactic.Common

/-! Actions that keep what they did when they throw.

An action takes a state to a result or an exception, and to the state it leaves behind
in either case. The weakest precondition of an action is computed along its text.
-/

namespace ArcMiner.Library

variable {σ ε α β τ : Type}

abbrev Action (σ ε α : Type) := ExceptT ε (StateM σ) α

namespace Action

def exec (action : Action σ ε α) (state : σ) : Except ε α × σ := action state

def wp (action : Action σ ε α) (post : α → σ → Prop) (thrown : σ → Prop) (state : σ) : Prop :=
  match exec action state with
  | (.ok a, after) => post a after
  | (.error _, after) => thrown after

/-- The states from which an action returns into `returned` or throws into `threw`, which sees the exception. -/
def ends (action : Action σ ε α) (returned : α → σ → Prop) (threw : ε → σ → Prop) (state : σ) : Prop :=
  match exec action state with
  | (.ok a, after) => returned a after
  | (.error why, after) => threw why after

def ofResult (result : Except ε α) : Action σ ε α := fun state => (result, state)

section rules
variable {post : α → σ → Prop} {post' : β → σ → Prop} {thrown thrown' : σ → Prop} {threw : ε → σ → Prop} {state : σ}

@[simp] theorem ends_pure (a : α) : ends (pure a : Action σ ε α) post threw state ↔ post a state := Iff.rfl

@[simp] theorem ends_bind (action : Action σ ε α) (rest : α → Action σ ε β) :
    ends (action >>= rest) post' threw state ↔
      ends action (fun a after => ends (rest a) post' threw after) threw state := by
  unfold ends exec
  show (match (ExceptT.bindCont rest (action state).1 : StateM σ (Except ε β)) (action state).2 with
    | (.ok a, after) => post' a after
    | (.error why, after) => threw why after) ↔ _
  rcases action state with ⟨_ | _, after⟩ <;> rfl

@[simp] theorem ends_map (f : α → β) (action : Action σ ε α) :
    ends (f <$> action) post' threw state ↔ ends action (fun a => post' (f a)) threw state := by
  rw [map_eq_pure_bind, ends_bind]
  rfl

@[simp] theorem ends_get (post : σ → σ → Prop) : ends (get : Action σ ε σ) post threw state ↔ post state state := Iff.rfl

@[simp] theorem ends_modify (f : σ → σ) (post : PUnit → σ → Prop) :
    ends (modify f : Action σ ε PUnit) post threw state ↔ post ⟨⟩ (f state) := Iff.rfl

@[simp] theorem ends_throw (why : ε) : ends (throw why : Action σ ε α) post threw state ↔ threw why state := Iff.rfl

@[simp] theorem ends_tryCatch (action : Action σ ε α) (handler : ε → Action σ ε α) :
    ends (tryCatch action handler) post threw state ↔
      ends action post (fun why after => ends (handler why) post threw after) state := by
  unfold ends exec
  show (match (match (action state).1 with
      | .ok a => pure (.ok a)
      | .error why => handler why : StateM σ (Except ε α)) (action state).2 with
    | (.ok a, after) => post a after
    | (.error why, after) => threw why after) ↔ _
  rcases action state with ⟨_ | _, after⟩ <;> rfl

@[simp] theorem ends_ite (condition : Prop) [Decidable condition] (yes no : Action σ ε α) :
    ends (if condition then yes else no) post threw state ↔
      if condition then ends yes post threw state else ends no post threw state := by
  split <;> rfl

@[simp] theorem ends_ofResult (result : Except ε α) :
    ends (ofResult result) post threw state ↔ match result with
      | .ok a => post a state
      | .error why => threw why state := by
  cases result <;> rfl

theorem wp_iff_ends (action : Action σ ε α) : wp action post thrown state ↔ ends action post (fun _ => thrown) state := by
  unfold wp ends
  rcases exec action state with ⟨_ | _, after⟩ <;> rfl

@[simp] theorem wp_pure (a : α) : wp (pure a : Action σ ε α) post thrown state ↔ post a state := Iff.rfl

@[simp] theorem wp_bind (action : Action σ ε α) (rest : α → Action σ ε β) : wp (action >>= rest) post' thrown state ↔
      wp action (fun a after => wp (rest a) post' thrown after) thrown state := by
  simp only [wp_iff_ends, ends_bind]

@[simp] theorem wp_get (post : σ → σ → Prop) : wp (get : Action σ ε σ) post thrown state ↔ post state state := Iff.rfl

@[simp] theorem wp_set (next : σ) (post : PUnit → σ → Prop) :
    wp (set next : Action σ ε PUnit) post thrown state ↔ post ⟨⟩ next := Iff.rfl

@[simp] theorem wp_modify (f : σ → σ) (post : PUnit → σ → Prop) :
    wp (modify f : Action σ ε PUnit) post thrown state ↔ post ⟨⟩ (f state) := Iff.rfl

@[simp] theorem wp_throw (why : ε) : wp (throw why : Action σ ε α) post thrown state ↔ thrown state := Iff.rfl

@[simp] theorem wp_tryCatch (action handler : Action σ ε α) :
    wp (tryCatch action fun _ => handler) post thrown state ↔
      wp action post (fun after => wp handler post thrown after) state := by
  simp only [wp_iff_ends, ends_tryCatch]

@[simp] theorem wp_ite (condition : Prop) [Decidable condition] (yes no : Action σ ε α) :
    wp (if condition then yes else no) post thrown state ↔
      if condition then wp yes post thrown state else wp no post thrown state := by
  split <;> rfl

@[simp] theorem wp_ofResult (result : Except ε α) :
    wp (ofResult result) post thrown state ↔ match result with
      | .ok a => post a state
      | .error _ => thrown state := by
  cases result <;> rfl

theorem ends_state_iff {action : Action σ ε α} {holds : σ → Prop} :
    ends action (fun _ => holds) (fun _ => holds) state ↔ holds (exec action state).2 := by
  unfold ends
  rcases exec action state with ⟨_ | _, after⟩ <;> rfl

theorem exec_state {action : Action σ ε α} {holds : σ → Prop} (known : wp action (fun _ => holds) holds state) :
    holds (exec action state).2 := ends_state_iff.mp ((wp_iff_ends action).mp known)

theorem exec_bind (action : Action σ ε α) (rest : α → Action σ ε β) (state : σ) :
    exec (action >>= rest) state = match exec action state with
      | (.ok a, after) => exec (rest a) after
      | (.error why, after) => (.error why, after) := by
  unfold exec
  show (ExceptT.bindCont rest (action state).1 : StateM σ (Except ε β)) (action state).2 = _
  rcases action state with ⟨_ | _, after⟩ <;> rfl

theorem exec_get : exec (get : Action σ ε σ) state = (.ok state, state) := rfl

theorem exec_ofResult (result : Except ε α) : exec (ofResult result) state = (result, state) := rfl

theorem exec_tryCatch (action : Action σ ε α) (handler : ε → Action σ ε α) (state : σ) :
    exec (tryCatch action handler) state = match exec action state with
      | (.ok a, after) => (.ok a, after)
      | (.error why, after) => exec (handler why) after := by
  unfold exec
  show (match (action state).1 with
      | .ok a => pure (.ok a)
      | .error why => handler why : StateM σ (Except ε α)) (action state).2 = _
  rcases action state with ⟨_ | _, after⟩ <;> rfl

theorem ends_returns_iff {action : Action σ ε α} {holds : σ → Prop} :
    ends action (fun _ => holds) (fun _ _ => False) state ↔
      ends action (fun _ _ => True) (fun _ _ => False) state ∧ holds (exec action state).2 := by
  unfold ends
  rcases exec action state with ⟨_ | _, after⟩ <;> simp

theorem exec_ok_iff {action : Action σ ε Unit} :
    (exec action state).1 = .ok () ↔ ends action (fun _ _ => True) (fun _ _ => False) state := by
  unfold ends
  rcases exec action state with ⟨_ | _, after⟩ <;> simp

theorem ends_mono {action : Action σ ε α} {post post' : α → σ → Prop} {threw threw' : ε → σ → Prop}
    (known : ends action post threw state) (returns : ∀ a after, post a after → post' a after)
    (throws : ∀ why after, threw why after → threw' why after) : ends action post' threw' state := by
  unfold ends at known ⊢
  cases result : exec action state with
  | mk outcome after =>
    rw [result] at known
    cases outcome with
    | error why => exact throws why after known
    | ok a => exact returns a after known

theorem wp_mono {action : Action σ ε α} {post post' : α → σ → Prop} (known : wp action post thrown state)
    (returns : ∀ a after, post a after → post' a after) (throws : ∀ after, thrown after → thrown' after) :
    wp action post' thrown' state :=
  (wp_iff_ends action).mpr (ends_mono ((wp_iff_ends action).mp known) returns fun _ => throws)

end rules

def Keeps (view : σ → τ) (action : Action σ ε α) : Prop := ∀ state, view (exec action state).2 = view state

section keeps
variable {view : σ → τ}

theorem keeps_pure (a : α) : Keeps view (pure a : Action σ ε α) := fun _ => rfl

theorem keeps_get : Keeps view (get : Action σ ε σ) := fun _ => rfl

theorem keeps_ofResult (result : Except ε α) : Keeps view (ofResult result : Action σ ε α) := fun _ => rfl

theorem keeps_modify {f : σ → σ} (same : ∀ state, view (f state) = view state) :
    Keeps view (modify f : Action σ ε PUnit) := same

theorem keeps_bind {action : Action σ ε α} {rest : α → Action σ ε β} (first : Keeps view action)
    (second : ∀ a, Keeps view (rest a)) : Keeps view (action >>= rest) := by
  intro state
  have here := first state
  rw [exec_bind]
  cases ran : exec action state with
  | mk outcome after =>
    rw [ran] at here
    cases outcome with
    | error why => exact here
    | ok a => exact (second a after).trans here

theorem keeps_tryCatch {action : Action σ ε α} {handler : ε → Action σ ε α} (first : Keeps view action)
    (second : ∀ why, Keeps view (handler why)) : Keeps view (tryCatch action handler) := by
  intro state
  have here := first state
  rw [exec_tryCatch]
  cases ran : exec action state with
  | mk outcome after =>
    rw [ran] at here
    cases outcome with
    | error why => exact (second why after).trans here
    | ok a => exact here

theorem keeps_ite {condition : Prop} [Decidable condition] {yes no : Action σ ε α} (first : Keeps view yes)
    (second : Keeps view no) : Keeps view (if condition then yes else no) := by
  split
  · exact first
  · exact second

end keeps
end Action
end ArcMiner.Library
