import Mathlib.Data.Finmap

/-! A map that keeps the keys it holds in a queue and drops the oldest when it grows too large. -/

namespace ArcMiner.Library

open List

structure FifoStore (κ ν : Type) where
  values : Finmap (fun _ : κ => ν)
  order : List κ

namespace FifoStore

variable {κ ν : Type} [DecidableEq κ] (capacity : Nat)

def empty : FifoStore κ ν := ⟨∅, []⟩

def evict (values : Finmap (fun _ : κ => ν)) : List κ → FifoStore κ ν
  | [] => ⟨values, []⟩
  | oldest :: rest =>
    if capacity < values.keys.card then evict (values.erase oldest) rest else ⟨values, oldest :: rest⟩

def record (store : FifoStore κ ν) (key : κ) (value : ν) : FifoStore κ ν :=
  evict capacity (store.values.insert key value) (if key ∈ store.values then store.order else store.order ++ [key])

def recordAll (store : FifoStore κ ν) (log : List (κ × ν)) : FifoStore κ ν :=
  log.foldl (fun store pair => record capacity store pair.1 pair.2) store

def entered : FifoStore κ ν → List (κ × ν) → List κ
  | _, [] => []
  | store, (key, value) :: rest =>
    (if key ∈ store.values then [] else [key]) ++ entered (record capacity store key value) rest

def latest (log : List (κ × ν)) (key : κ) : Option ν := (log.reverse.find? fun pair => pair.1 = key).map Prod.snd

/-- The queue lists the keys of the map, each once, and there are not too many. -/
structure Coherent (store : FifoStore κ ν) : Prop where
  nodup : store.order.Nodup
  keys : ∀ key, key ∈ store.order ↔ key ∈ store.values
  count : store.order.length ≤ capacity

variable {capacity} {store : FifoStore κ ν}

theorem card_keys {values : Finmap (fun _ : κ => ν)} {order : List κ} (nodup : order.Nodup)
    (keys : ∀ key, key ∈ order ↔ key ∈ values) : values.keys.card = order.length := by
  have same : values.keys = order.toFinset := by
    ext key
    rw [Finmap.mem_keys, mem_toFinset, keys]
  rw [same, toFinset_card_of_nodup nodup]

theorem evict_of_le {values : Finmap (fun _ : κ => ν)} {order : List κ} (fits : values.keys.card ≤ capacity) :
    evict capacity values order = ⟨values, order⟩ := by
  cases order with
  | nil => rfl
  | cons oldest rest => exact if_neg (Nat.not_lt.mpr fits)

section record
variable (known : Coherent capacity store)
include known

theorem record_present {key : κ} (present : key ∈ store.values) (value : ν) :
    record capacity store key value = ⟨store.values.insert key value, store.order⟩ := by
  rw [record, if_pos present]
  refine evict_of_le ?_
  have keys : ∀ other, other ∈ store.order ↔ other ∈ store.values.insert key value := by
    intro other
    rw [known.keys, Finmap.mem_insert]
    exact ⟨.inr, fun h => h.elim (fun same => same ▸ present) id⟩
  rw [card_keys known.nodup keys]
  exact known.count

theorem queued {key : κ} (absent : key ∉ store.values) (value : ν) :
    (store.order ++ [key]).Nodup ∧ ∀ other, other ∈ store.order ++ [key] ↔ other ∈ store.values.insert key value := by
  constructor
  · refine nodup_append.mpr ⟨known.nodup, nodup_singleton key, ?_⟩
    intro other member last here same
    rw [same, mem_singleton.mp here] at member
    exact absent ((known.keys key).mp member)
  · intro other
    rw [mem_append, mem_singleton, known.keys, Finmap.mem_insert, or_comm]

theorem record_new {key : κ} (absent : key ∉ store.values) (value : ν) (room : store.order.length < capacity) :
    record capacity store key value = ⟨store.values.insert key value, store.order ++ [key]⟩ := by
  obtain ⟨nodup, keys⟩ := queued known absent value
  rw [record, if_neg absent]
  refine evict_of_le ?_
  rw [card_keys nodup keys, length_append]
  exact room

theorem record_full {key oldest : κ} {rest : List κ} (absent : key ∉ store.values)
    (value : ν) (full : store.order.length = capacity) (queue : store.order = oldest :: rest) :
    record capacity store key value = ⟨(store.values.insert key value).erase oldest, rest ++ [key]⟩ := by
  obtain ⟨nodup, keys⟩ := queued known absent value
  have card := card_keys nodup keys
  simp only [length_append, length_singleton, full] at card
  have member : oldest ∈ (store.values.insert key value).keys := by
    rw [Finmap.mem_keys, ← keys, queue]
    simp
  rw [record, if_neg absent, queue, cons_append, evict, if_pos (by omega)]
  refine evict_of_le ?_
  rw [Finmap.keys_erase, Finset.card_erase_of_mem member, card]
  omega

variable (positive : 0 < capacity)
include positive

/-- The three ways to record: over an old value, in a free place, or in place of the oldest. -/
theorem record_cases (key : κ) (value : ν) :
    (key ∈ store.values ∧ record capacity store key value = ⟨store.values.insert key value, store.order⟩) ∨
      (key ∉ store.values ∧ store.order.length < capacity ∧
        record capacity store key value = ⟨store.values.insert key value, store.order ++ [key]⟩) ∨
      ∃ oldest rest, key ∉ store.values ∧ store.order.length = capacity ∧ store.order = oldest :: rest ∧
        record capacity store key value = ⟨(store.values.insert key value).erase oldest, rest ++ [key]⟩ := by
  by_cases present : key ∈ store.values
  · exact .inl ⟨present, record_present known present value⟩
  · refine .inr ?_
    by_cases room : store.order.length < capacity
    · exact .inl ⟨present, room, record_new known present value room⟩
    · have full := Nat.le_antisymm known.count (Nat.not_lt.mp room)
      obtain ⟨oldest, rest, queue⟩ := exists_cons_of_length_pos (full ▸ positive)
      exact .inr ⟨oldest, rest, present, full, queue, record_full known present value full queue⟩

theorem record_coherent (key : κ) (value : ν) : Coherent capacity (record capacity store key value) := by
  rcases record_cases known positive key value with ⟨present, same⟩ | ⟨absent, room, same⟩ |
    ⟨oldest, rest, absent, full, queue, same⟩
  · rw [same]
    refine ⟨known.nodup, fun other => ?_, known.count⟩
    rw [known.keys, Finmap.mem_insert]
    exact ⟨.inr, fun h => h.elim (fun same => same ▸ present) id⟩
  · obtain ⟨nodup, keys⟩ := queued known absent value
    rw [same]
    exact ⟨nodup, keys, by rw [length_append]; exact room⟩
  · obtain ⟨nodup, keys⟩ := queued known absent value
    rw [queue, cons_append, nodup_cons] at nodup
    rw [same]
    refine ⟨nodup.2, fun other => ?_, ?_⟩
    · rw [Finmap.mem_erase, ← keys, queue, cons_append, mem_cons]
      constructor
      · intro member
        refine ⟨?_, .inr member⟩
        rintro rfl
        exact nodup.1 member
      · exact fun ⟨other, member⟩ => member.resolve_left other
    · rw [queue, length_cons] at full
      rw [length_append, length_singleton, full]

/-- The queue goes on from what it was, without some of its front. -/
theorem record_order (key : κ) (value : ν) :
    ∃ evicted, store.order ++ (if key ∈ store.values then [] else [key]) =
      evicted ++ (record capacity store key value).order := by
  rcases record_cases known positive key value with ⟨present, same⟩ | ⟨absent, room, same⟩ |
    ⟨oldest, rest, absent, full, queue, same⟩
  · exact ⟨[], by rw [same, if_pos present, append_nil]; rfl⟩
  · exact ⟨[], by rw [same, if_neg absent]; rfl⟩
  · exact ⟨[oldest], by rw [same, if_neg absent, queue]; rfl⟩

theorem lookup_record_self (key : κ) (value : ν) :
    (record capacity store key value).values.lookup key = some value := by
  rcases record_cases known positive key value with ⟨present, same⟩ | ⟨absent, room, same⟩ |
    ⟨oldest, rest, absent, full, queue, same⟩
  · rw [same, Finmap.lookup_insert]
  · rw [same, Finmap.lookup_insert]
  · have other : key ≠ oldest := by
      rintro rfl
      exact absent ((known.keys key).mp (queue ▸ mem_cons_self))
    rw [same]
    exact (Finmap.lookup_erase_ne other).trans (Finmap.lookup_insert _)

theorem lookup_record_of_ne {key other : κ} (value : ν)
    (different : other ≠ key) (kept : other ∈ (record capacity store key value).values) :
    (record capacity store key value).values.lookup other = store.values.lookup other := by
  rcases record_cases known positive key value with ⟨present, same⟩ | ⟨absent, room, same⟩ |
    ⟨oldest, rest, absent, full, queue, same⟩
  · rw [same, Finmap.lookup_insert_of_ne _ different]
  · rw [same, Finmap.lookup_insert_of_ne _ different]
  · rw [same, Finmap.mem_erase] at kept
    rw [same]
    exact (Finmap.lookup_erase_ne kept.1).trans (Finmap.lookup_insert_of_ne _ different)

theorem record_again (key : κ) (value : ν) :
    record capacity (record capacity store key value) key value = record capacity store key value := by
  have here := lookup_record_self known positive key value
  have present : key ∈ (record capacity store key value).values := Finmap.mem_iff.mpr ⟨value, here⟩
  rw [record_present (record_coherent known positive key value) present]
  have same : (record capacity store key value).values.insert key value = (record capacity store key value).values := by
    refine Finmap.ext_lookup (fun other => ?_)
    by_cases self : other = key
    · rw [self, Finmap.lookup_insert, here]
    · rw [Finmap.lookup_insert_of_ne _ self]
  rw [same]

end record

omit [DecidableEq κ] in
theorem coherent_empty : Coherent capacity (empty : FifoStore κ ν) :=
  ⟨nodup_nil, fun _ => iff_of_false not_mem_nil Finmap.notMem_empty, Nat.zero_le capacity⟩

theorem recordAll_coherent (positive : 0 < capacity) (known : Coherent capacity store) (log : List (κ × ν)) :
    Coherent capacity (recordAll capacity store log) := by
  induction log generalizing store with
  | nil => exact known
  | cons pair log ih => exact ih (record_coherent known positive pair.1 pair.2)

theorem recordAll_order (positive : 0 < capacity) (known : Coherent capacity store) (log : List (κ × ν)) :
    ∃ evicted, store.order ++ entered capacity store log = evicted ++ (recordAll capacity store log).order := by
  induction log generalizing store with
  | nil => exact ⟨[], append_nil _⟩
  | cons pair log ih =>
    obtain ⟨first, here⟩ := record_order known positive pair.1 pair.2
    obtain ⟨later, there⟩ := ih (record_coherent known positive pair.1 pair.2)
    refine ⟨first ++ later, ?_⟩
    rw [entered, ← append_assoc, here, append_assoc, there, append_assoc]
    rfl

theorem recordAll_append (log more : List (κ × ν)) :
    recordAll capacity store (log ++ more) = recordAll capacity (recordAll capacity store log) more := foldl_append

theorem recordAll_concat (log : List (κ × ν)) (key : κ) (value : ν) :
    recordAll capacity store (log ++ [(key, value)]) = record capacity (recordAll capacity store log) key value :=
  recordAll_append log [(key, value)]

theorem latest_concat (log : List (κ × ν)) (key other : κ) (value : ν) :
    latest (log ++ [(key, value)]) other = if key = other then some value else latest log other := by
  unfold latest
  rw [reverse_append, reverse_singleton, singleton_append, find?_cons]
  by_cases same : key = other <;> simp [same]

theorem lookup_recordAll (positive : 0 < capacity) (log : List (κ × ν)) {key : κ}
    (kept : key ∈ (recordAll capacity empty log).values) :
    (recordAll capacity empty log).values.lookup key = latest log key := by
  induction log using reverseRecOn with
  | nil => exact absurd kept Finmap.notMem_empty
  | append_singleton log pair ih =>
    have known := recordAll_coherent positive (coherent_empty (κ := κ) (ν := ν)) log
    obtain ⟨recorded, value⟩ := pair
    rw [recordAll_concat] at kept ⊢
    rw [latest_concat]
    by_cases same : recorded = key
    · rw [if_pos same, ← same, lookup_record_self known positive]
    · rw [if_neg same, lookup_record_of_ne known positive value (Ne.symm same) kept]
      refine ih (Finmap.mem_iff.mpr ?_)
      have unchanged := lookup_record_of_ne known positive value (Ne.symm same) kept
      obtain ⟨found, lookup⟩ := Finmap.mem_iff.mp kept
      exact ⟨found, unchanged ▸ lookup⟩

theorem last_recorded (positive : 0 < capacity) (log : List (κ × ν)) (key : κ) (value : ν) :
    key ∈ (recordAll capacity empty (log ++ [(key, value)])).values := by
  rw [recordAll_concat]
  have known := recordAll_coherent positive (coherent_empty (κ := κ) (ν := ν)) log
  exact Finmap.mem_iff.mpr ⟨value, lookup_record_self known positive key value⟩

end FifoStore
end ArcMiner.Library
