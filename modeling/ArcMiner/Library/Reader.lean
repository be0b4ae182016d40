/-! Readers that take a value from the front of their input. -/

namespace ArcMiner.Library

/-- A reader takes tokens from the front of the input, or fails. -/
abbrev Reader (τ : Type) := StateT (List τ) Option

namespace Reader

variable {τ α β : Type}

def token : Reader τ τ
  | [] => none
  | first :: rest => some (first, rest)

def many (item : Reader τ α) : Nat → Reader τ (List α)
  | 0 => pure []
  | count + 1 => do
    let first ← item
    let rest ← many item count
    pure (first :: rest)

/-- The reader takes these tokens for the value, whatever follows them. -/
def Reads (reader : Reader τ α) (front : List τ) (value : α) : Prop :=
  ∀ rest, reader (front ++ rest) = some (value, rest)

theorem Reads.pure (value : α) : Reads (pure value : Reader τ α) [] value := fun _ => rfl

theorem bind_eq (reader : Reader τ α) (next : α → Reader τ β) (input : List τ) :
    (reader >>= next) input = (reader input).bind (fun (value, rest) => next value rest) := rfl

theorem Reads.bind {reader : Reader τ α} {next : α → Reader τ β} {front back : List τ} {x : α} {y : β}
    (first : Reads reader front x) (second : Reads (next x) back y) : Reads (reader >>= next) (front ++ back) y := by
  intro rest
  rw [List.append_assoc, bind_eq, first]
  exact second rest

theorem Reads.map {reader : Reader τ α} {front : List τ} {x : α} (f : α → β) (first : Reads reader front x) :
    Reads (reader >>= fun x => Pure.pure (f x)) front (f x) := by
  have done : Reads (reader >>= fun x => Pure.pure (f x)) (front ++ []) (f x) := first.bind (Reads.pure (f x))
  rwa [List.append_nil] at done

theorem Reads.delimits {reader : Reader τ α} {front other rest rest' : List τ} {x y : α} (first : Reads reader front x)
    (second : Reads reader other y) (same : front ++ rest = other ++ rest') : front = other ∧ x = y ∧ rest = rest' := by
  have read := first rest
  rw [same, second rest'] at read
  obtain ⟨rfl, rfl⟩ := Prod.mk.inj (Option.some.inj read)
  exact ⟨List.append_cancel_right same, rfl, rfl⟩

theorem flatten_delimits {reader : Reader τ α} {xs ys : List (List τ)} (first : ∀ x ∈ xs, ∃ value, Reads reader x value)
    (second : ∀ y ∈ ys, ∃ value, Reads reader y value) (count : xs.length = ys.length)
    (same : xs.flatten = ys.flatten) : xs = ys := by
  induction xs generalizing ys with
  | nil => exact (List.length_eq_zero_iff.mp count.symm).symm
  | cons x xs ih =>
    cases ys with
    | nil => nomatch count
    | cons y ys =>
      obtain ⟨⟨_, readX⟩, restX⟩ := List.forall_mem_cons.mp first
      obtain ⟨⟨_, readY⟩, restY⟩ := List.forall_mem_cons.mp second
      obtain ⟨rfl, -, rest⟩ := readX.delimits readY same
      rw [ih restX restY (Nat.succ.inj count) rest]

theorem reads_token (first : τ) : Reads token [first] first := fun _ => rfl

theorem reads_many {γ : Type} {item : Reader τ β} {write : γ → List τ} {value : γ → β} {xs : List γ}
    (each : ∀ x ∈ xs, Reads item (write x) (value x)) : Reads (many item xs.length) (xs.flatMap write) (xs.map value) := by
  induction xs with
  | nil => exact Reads.pure []
  | cons x xs ih =>
    have later := ih (fun y member => each y (List.mem_cons_of_mem x member))
    exact (each x List.mem_cons_self).bind (later.map (value x :: ·))

theorem reads_tokens (tokens : List τ) : Reads (many token tokens.length) tokens tokens := by
  have read : Reads (many token tokens.length) (tokens.flatMap ([·])) (tokens.map id) :=
    reads_many fun first _ => reads_token first
  rwa [List.flatMap_singleton', List.map_id] at read

end Reader
end ArcMiner.Library
