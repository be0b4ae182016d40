import Mathlib.Algebra.Group.Nat.Defs
import Mathlib.Logic.Basic

/-! Computations that end with a value or an error. -/

namespace ArcMiner.Library

variable {ε α β : Type}

@[simp] theorem ok_bind (x : α) (f : α → Except ε β) : (Except.ok x >>= f) = f x := rfl

@[simp] theorem error_bind (why : ε) (f : α → Except ε β) : ((Except.error why : Except ε α) >>= f) = .error why := rfl

theorem bind_eq_ok {x : Except ε α} {f : α → Except ε β} {result : β} :
    (x >>= f) = .ok result ↔ ∃ value, x = .ok value ∧ f value = .ok result := by
  cases x <;> simp

theorem exists_bind_ok_iff {x : Except ε α} {f : α → Except ε β} (total : ∀ value, ∃ result, f value = .ok result) :
    (∃ result, (x >>= f) = .ok result) ↔ ∃ value, x = .ok value := by
  constructor
  · rintro ⟨result, isOk⟩
    obtain ⟨value, found, -⟩ := bind_eq_ok.mp isOk
    exact ⟨value, found⟩
  · rintro ⟨value, rfl⟩
    exact total value

theorem toOption_eq_none {x : Except ε α} (refused : ∀ value, x ≠ .ok value) : x.toOption = none := by
  cases x with
  | error why => rfl
  | ok value => exact absurd rfl (refused value)

theorem mapM_eq_ok {f : α → Except ε β} {g : α → β} {xs : List α} (total : ∀ x ∈ xs, f x = .ok (g x)) :
    xs.mapM f = .ok (xs.map g) := by
  induction xs with
  | nil => rfl
  | cons x xs ih =>
    rw [List.mapM_cons, total x (by simp), ok_bind, ih (fun y member => total y (by simp [member])), ok_bind]
    rfl

theorem forM_eq_ok {f : α → Except ε Unit} {xs : List α} {result : Unit} :
    xs.forM f = .ok result ↔ ∀ x ∈ xs, f x = .ok () := by
  induction xs with
  | nil => simp [pure, Except.pure]
  | cons x xs ih =>
    change (f x >>= fun _ => xs.forM f) = .ok result ↔ _
    rw [bind_eq_ok, List.forall_mem_cons, ← ih]
    exact ⟨fun ⟨_, first, rest⟩ => ⟨first, rest⟩, fun ⟨first, rest⟩ => ⟨(), first, rest⟩⟩

theorem foldlM_ok {ε' : Type} {f : β → α → Except ε β} {g : β → α → Except ε' β}
    (step : ∀ state x after, f state x = .ok after → g state x = .ok after) {xs : List α} {state last : β}
    (run : xs.foldlM f state = .ok last) : xs.foldlM g state = .ok last := by
  induction xs generalizing state with
  | nil =>
    cases run
    rfl
  | cons x xs ih =>
    obtain ⟨after, first, rest⟩ := bind_eq_ok.mp run
    rw [List.foldlM_cons, step state x after first]
    exact ih rest

variable {f : α → Except ε β} {xs : List α} {ys : List β}

theorem mapM_ok (run : xs.mapM f = .ok ys) : ∀ x ∈ xs, ∃ y, f x = .ok y := by
  induction xs generalizing ys with
  | nil => simp
  | cons x xs ih =>
    rw [List.mapM_cons] at run
    obtain ⟨y, first, run⟩ := bind_eq_ok.mp run
    obtain ⟨rest, later, -⟩ := bind_eq_ok.mp run
    exact List.forall_mem_cons.mpr ⟨⟨y, first⟩, ih later⟩

theorem length_mapM_ok (run : xs.mapM f = .ok ys) : ys.length = xs.length := by
  induction xs generalizing ys with
  | nil =>
    obtain rfl := Except.ok.inj run
    rfl
  | cons x xs ih =>
    rw [List.mapM_cons] at run
    obtain ⟨y, -, run⟩ := bind_eq_ok.mp run
    obtain ⟨rest, later, same⟩ := bind_eq_ok.mp run
    obtain rfl := Except.ok.inj same
    rw [List.length_cons, List.length_cons, ih later]

theorem mem_mapM_ok (run : xs.mapM f = .ok ys) : ∀ y ∈ ys, ∃ x ∈ xs, f x = .ok y := by
  induction xs generalizing ys with
  | nil =>
    obtain rfl := Except.ok.inj run
    simp
  | cons x xs ih =>
    rw [List.mapM_cons] at run
    obtain ⟨y, first, run⟩ := bind_eq_ok.mp run
    obtain ⟨rest, later, same⟩ := bind_eq_ok.mp run
    obtain rfl := Except.ok.inj same
    refine List.forall_mem_cons.mpr ⟨⟨x, by simp, first⟩, fun z member => ?_⟩
    obtain ⟨w, inside, own⟩ := ih later z member
    exact ⟨w, List.mem_cons_of_mem x inside, own⟩

end ArcMiner.Library
