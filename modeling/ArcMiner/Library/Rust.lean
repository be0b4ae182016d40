import ArcMiner.Library.Except

/-! Values and results of Rust code.

A call ends with a value, with an error message, or in a panic. Slices are never
longer than `isize::MAX` bytes.
-/

namespace ArcMiner.Library.Rust

inductive Failure where
  | error (message : String)
  | panic (message : String)
deriving DecidableEq

abbrev Result := Except Failure

structure Slice where
  bytes : List UInt8
  fits : bytes.length < 2 ^ 63

def Slice.zeros (len : Nat) (fits : len < 2 ^ 63) : Slice := ⟨List.replicate len 0, by rwa [List.length_replicate]⟩

theorem Slice.length_zeros (len : Nat) (fits : len < 2 ^ 63) : (Slice.zeros len fits).bytes.length = len :=
  List.length_replicate

section
variable {α : Type}

def index (xs : List α) (i : Nat) : Result α :=
  match xs[i]? with
  | some x => .ok x
  | none => .error (.panic "index out of bounds")

def ensure (condition : Bool) (message : String) : Result Unit :=
  if condition then .ok () else .error (.error message)

/-- `if bad { return Err(message) }`. -/
def reject (bad : Bool) (message : String) : Result Unit :=
  if bad then .error (.error message) else .ok ()

/-- `if let Some(bad) = found { return Err(message(bad)) }`. -/
def rejectSome (found : Option α) (message : α → String) : Result Unit :=
  match found with
  | some bad => .error (.error (message bad))
  | none => .ok ()

def require (value : Option α) (message : String) : Result α :=
  match value with
  | some value => .ok value
  | none => .error (.error message)

def assert (condition : Bool) (message : String) : Result Unit :=
  if condition then .ok () else .error (.panic message)

theorem index_eq_ok {xs : List α} {i : Nat} {x : α} (found : xs[i]? = some x) : index xs i = .ok x := by
  simp [index, found]

theorem ensure_eq_ok {condition : Bool} {message : String} {result : Unit} :
    ensure condition message = .ok result ↔ condition = true := by
  cases condition <;> simp [ensure]

theorem reject_eq_ok {bad : Bool} {message : String} {result : Unit} :
    reject bad message = .ok result ↔ bad = false := by
  cases bad <;> simp [reject]

theorem rejectSome_eq_ok {found : Option α} {message : α → String} {result : Unit} :
    rejectSome found message = .ok result ↔ found = none := by
  cases found <;> simp [rejectSome]

theorem require_eq_ok {value : Option α} {message : String} {result : α} :
    require value message = .ok result ↔ value = some result := by
  cases value <;> simp [require]

theorem ensure_eq_reject (condition : Bool) (message : String) : ensure condition message = reject (!condition) message := by
  cases condition <;> rfl

theorem find?_bound_eq_none {xs : List Nat} {bound : Nat} :
    xs.find? (fun i => decide (bound ≤ i)) = none ↔ ∀ i ∈ xs, i < bound := by
  rw [List.find?_eq_none]
  simp only [decide_eq_true_eq, Nat.not_le]

theorem assert_eq_ok {condition : Bool} {message : String} {result : Unit} :
    assert condition message = .ok result ↔ condition = true := by
  cases condition <;> simp [assert]

end
end ArcMiner.Library.Rust
