import Mathlib.Data.List.Perm.Basic
import Mathlib.Data.List.Nodup
import Mathlib.Data.List.Induction

/-! Lists ordered by a natural key, with at most one entry of each key.

They serve as ordered sets (the key is the entry) and ordered maps (the key is
the first component): insertion replaces an entry of the same key, and
iteration follows the keys.
-/

namespace ArcMiner.Library

open List Prod

variable {α : Type} {key : α → Nat}

def insertBy (key : α → Nat) (x : α) : List α → List α
  | [] => [x]
  | y :: rest =>
    if key x < key y then x :: y :: rest
    else if key x = key y then x :: rest
    else y :: insertBy key x rest

theorem mem_insertBy {x y : α} {xs : List α} (ordered : xs.Pairwise (fun a b => key a < key b)) :
    y ∈ insertBy key x xs ↔ y = x ∨ y ∈ xs ∧ key y ≠ key x := by
  induction xs with
  | nil => simp [insertBy]
  | cons head rest ih =>
    obtain ⟨before, ordered⟩ := pairwise_cons.mp ordered
    simp only [insertBy]
    split
    next lower =>
      have apart : ∀ z ∈ head :: rest, key z ≠ key x := by
        intro z member
        rcases mem_cons.mp member with rfl | member
        · omega
        · have := before z member
          omega
      simp only [mem_cons] at apart ⊢
      grind
    next =>
      split
      next same =>
        have apart : ∀ z ∈ rest, key z ≠ key x := fun z member => by
          have := before z member
          omega
        simp only [mem_cons]
        grind
      next apart =>
        simp only [mem_cons, ih ordered]
        grind

theorem ordered_insertBy (x : α) {xs : List α} (ordered : xs.Pairwise (fun a b => key a < key b)) :
    (insertBy key x xs).Pairwise (fun a b => key a < key b) := by
  induction xs with
  | nil => simp [insertBy]
  | cons head rest ih =>
    obtain ⟨before, tail⟩ := pairwise_cons.mp ordered
    simp only [insertBy]
    split
    next lower =>
      refine pairwise_cons.mpr ⟨fun z member => ?_, ordered⟩
      rcases mem_cons.mp member with rfl | member
      · exact lower
      · exact Nat.lt_trans lower (before z member)
    next =>
      split
      next same =>
        exact pairwise_cons.mpr ⟨fun z member => same ▸ before z member, tail⟩
      next apart =>
        refine pairwise_cons.mpr ⟨fun z member => ?_, ih tail⟩
        rcases (mem_insertBy tail).mp member with rfl | ⟨member, -⟩
        · omega
        · exact before z member

theorem insertBy_last {x : α} {xs : List α} (after : ∀ y ∈ xs, key y < key x) : insertBy key x xs = xs ++ [x] := by
  induction xs with
  | nil => rfl
  | cons head rest ih =>
    have below := after head (by simp)
    simp only [insertBy, cons_append]
    rw [if_neg (by omega), if_neg (by omega), ih (fun y member => after y (by simp [member]))]

structure OrderedList (key : α → Nat) where
  entries : List α
  ordered : entries.Pairwise (fun a b => key a < key b)

namespace OrderedList

def empty : OrderedList key := ⟨[], .nil⟩

def insert (x : α) (xs : OrderedList key) : OrderedList key :=
  ⟨insertBy key x xs.entries, ordered_insertBy x xs.ordered⟩

def collect (key : α → Nat) (xs : List α) : OrderedList key := xs.foldl (fun acc x => acc.insert x) empty

def find? (xs : OrderedList key) (i : Nat) : Option α := xs.entries.find? (fun x => key x == i)

def contains (xs : OrderedList key) (i : Nat) : Bool := xs.entries.any (fun x => key x == i)

@[simp] theorem entries_empty : (empty : OrderedList key).entries = [] := rfl

theorem mem_insert {x y : α} {xs : OrderedList key} :
    y ∈ (xs.insert x).entries ↔ y = x ∨ y ∈ xs.entries ∧ key y ≠ key x := mem_insertBy xs.ordered

theorem entries_insert_last {x : α} {xs : OrderedList key} (after : ∀ y ∈ xs.entries, key y < key x) :
    (xs.insert x).entries = xs.entries ++ [x] := insertBy_last after

theorem key_injective (xs : OrderedList key) {x y : α} (hx : x ∈ xs.entries) (hy : y ∈ xs.entries)
    (same : key x = key y) : x = y := by
  obtain ⟨i, hi, rfl⟩ := getElem_of_mem hx
  obtain ⟨j, hj, rfl⟩ := getElem_of_mem hy
  have order := pairwise_iff_getElem.mp xs.ordered
  rcases Nat.lt_trichotomy i j with before | rfl | after
  · have := order i j hi hj before
    omega
  · rfl
  · have := order j i hj hi after
    omega

theorem nodup (xs : OrderedList key) : xs.entries.Nodup := xs.ordered.imp (fun below same => by subst same; omega)

theorem ext_mem {xs ys : OrderedList key} (same : ∀ x, x ∈ xs.entries ↔ x ∈ ys.entries) : xs = ys := by
  have permuted := (perm_ext_iff_of_nodup xs.nodup ys.nodup).mpr same
  have equal := permuted.eq_of_pairwise (fun a b _ _ below above => by omega) xs.ordered ys.ordered
  cases xs
  cases ys
  simpa using equal

theorem find?_eq_some {xs : OrderedList key} {i : Nat} {x : α} :
    xs.find? i = some x ↔ x ∈ xs.entries ∧ key x = i := by
  constructor
  · intro found
    exact ⟨mem_of_find?_eq_some found, by simpa using List.find?_some found⟩
  · rintro ⟨member, rfl⟩
    cases found : xs.find? (key x) with
    | none =>
      have absent := List.find?_eq_none.mp found x member
      simp at absent
    | some y =>
      have here := mem_of_find?_eq_some found
      have same : key y = key x := by simpa using List.find?_some found
      rw [xs.key_injective here member same]

theorem find?_eq_none {xs : OrderedList key} {i : Nat} : xs.find? i = none ↔ ∀ x ∈ xs.entries, key x ≠ i := by
  simp [find?]

theorem contains_iff {xs : OrderedList key} {i : Nat} : xs.contains i = true ↔ ∃ x ∈ xs.entries, key x = i := by
  simp [contains]

theorem contains_eq_decide (xs : OrderedList (fun i : Nat => i)) (i : Nat) :
    xs.contains i = decide (i ∈ xs.entries) := by
  apply Bool.eq_iff_iff.mpr
  rw [contains_iff, decide_eq_true_iff]
  exact exists_eq_right

private theorem entries_foldl (xs : List α) (start : OrderedList key)
    (ordered : (start.entries ++ xs).Pairwise (fun a b => key a < key b)) :
    (xs.foldl (fun acc x => acc.insert x) start).entries = start.entries ++ xs := by
  induction xs generalizing start with
  | nil => simp
  | cons x xs ih =>
    have after : ∀ y ∈ start.entries, key y < key x := fun y member =>
      (pairwise_append.mp ordered).2.2 y member x (by simp)
    have next := entries_insert_last after
    rw [foldl_cons, ih (start.insert x) (by simpa [next] using ordered), next]
    simp

theorem entries_collect {xs : List α} (ordered : xs.Pairwise (fun a b => key a < key b)) :
    (collect key xs).entries = xs := by
  simpa [collect] using entries_foldl xs (empty : OrderedList key) (by simpa using ordered)

theorem collect_append (xs : List α) (x : α) : collect key (xs ++ [x]) = (collect key xs).insert x := by
  simp [collect]

theorem insert_of_mem {x : α} {xs : OrderedList key} (member : x ∈ xs.entries) : xs.insert x = xs := by
  apply ext_mem
  intro y
  rw [mem_insert]
  constructor
  · rintro (rfl | ⟨here, -⟩)
    · exact member
    · exact here
  · intro here
    by_cases same : key y = key x
    · exact Or.inl (xs.key_injective here member same)
    · exact Or.inr ⟨here, same⟩

theorem mem_collect {xs : List α} (functional : ∀ x ∈ xs, ∀ y ∈ xs, key x = key y → x = y) {y : α} :
    y ∈ (collect key xs).entries ↔ y ∈ xs := by
  induction xs using reverseRecOn with
  | nil => simp [collect]
  | append_singleton xs x ih =>
    have before := ih (fun a ha b hb => functional a (by simp [ha]) b (by simp [hb]))
    rw [collect_append, mem_insert, before, mem_append, mem_singleton]
    constructor
    · rintro (rfl | ⟨member, -⟩)
      · exact Or.inr rfl
      · exact Or.inl member
    · rintro (member | rfl)
      · by_cases same : key y = key x
        · exact Or.inl (functional y (by simp [member]) x (by simp) same)
        · exact Or.inr ⟨member, same⟩
      · exact Or.inl rfl

abbrev toSet (xs : List Nat) : OrderedList (fun i : Nat => i) := collect _ xs

theorem mem_toSet {xs : List Nat} {y : Nat} : y ∈ (toSet xs).entries ↔ y ∈ xs :=
  mem_collect (fun _ _ _ _ same => same)

theorem toSet_nonempty {xs : List Nat} (nonempty : xs ≠ []) : (toSet xs).entries ≠ [] := by
  obtain ⟨x, member⟩ := exists_mem_of_ne_nil _ nonempty
  exact ne_nil_of_mem (mem_toSet.mpr member)

theorem collect_entries (xs : OrderedList key) : collect key xs.entries = xs :=
  ext_mem (fun x => by rw [entries_collect xs.ordered])

section graph
variable {β : Type} (g : Nat → β)

def graph (set : OrderedList (fun i : Nat => i)) : OrderedList (fst : Nat × β → Nat) :=
  ⟨set.entries.map (fun i => (i, g i)), pairwise_map.mpr set.ordered⟩

@[simp] theorem entries_graph (set : OrderedList (fun i : Nat => i)) :
    (graph g set).entries = set.entries.map (fun i => (i, g i)) := rfl

theorem find?_graph_of_mem {set : OrderedList (fun i : Nat => i)} {i : Nat} (member : i ∈ set.entries) :
    (graph g set).find? i = some (i, g i) := find?_eq_some.mpr ⟨mem_map.mpr ⟨i, member, rfl⟩, rfl⟩

theorem find?_graph_of_not_mem {set : OrderedList (fun i : Nat => i)} {i : Nat} (absent : i ∉ set.entries) :
    (graph g set).find? i = none := by
  apply find?_eq_none.mpr
  rintro _ member rfl
  obtain ⟨j, here, rfl⟩ := mem_map.mp member
  exact absent here

theorem contains_graph (set : OrderedList (fun i : Nat => i)) (i : Nat) :
    (graph g set).contains i = set.contains i := by
  simp [contains, graph, Function.comp_def]

theorem collect_graph (xs : List Nat) : collect fst (xs.map fun i => (i, g i)) = graph g (toSet xs) := by
  apply ext_mem
  intro entry
  rw [mem_collect]
  · simp only [entries_graph, mem_map, mem_toSet]
  · intro x hx y hy same
    obtain ⟨i, -, rfl⟩ := mem_map.mp hx
    obtain ⟨j, -, rfl⟩ := mem_map.mp hy
    simp only at same
    rw [same]

end graph

section values
variable {β γ : Type} (φ : β → γ)

def mapValues (xs : OrderedList (fst : Nat × β → Nat)) : OrderedList (fst : Nat × γ → Nat) :=
  ⟨xs.entries.map (map id φ), pairwise_map.mpr xs.ordered⟩

variable (xs : OrderedList (fst : Nat × β → Nat))

@[simp] theorem entries_mapValues : (mapValues φ xs).entries = xs.entries.map (map id φ) := rfl

theorem insertBy_map (x : Nat × β) (xs : List (Nat × β)) :
    insertBy fst (map id φ x) (xs.map (map id φ)) = (insertBy fst x xs).map (map id φ) := by
  induction xs with
  | nil => rfl
  | cons y xs ih =>
    simp only [map_cons, insertBy, map_fst, id_eq, ih]
    split
    · rfl
    · split <;> rfl

theorem mapValues_insert (x : Nat × β) (xs : OrderedList (fst : Nat × β → Nat)) :
    mapValues φ (xs.insert x) = (mapValues φ xs).insert (map id φ x) := by
  simp only [mapValues, insert, insertBy_map]

theorem mapValues_collect (xs : List (Nat × β)) :
    mapValues φ (collect fst xs) = collect fst (xs.map (map id φ)) := by
  induction xs using reverseRecOn with
  | nil => rfl
  | append_singleton xs x ih =>
    rw [collect_append, mapValues_insert, ih, map_append, map_singleton, collect_append]

theorem find?_mapValues (i : Nat) : (mapValues φ xs).find? i = (xs.find? i).map (map id φ) := by
  rw [find?, mapValues, List.find?_map]
  rfl

theorem contains_mapValues (i : Nat) : (mapValues φ xs).contains i = xs.contains i := by
  simp [contains, mapValues, Function.comp_def]

end values
end OrderedList
end ArcMiner.Library
