import ArcMiner.Library.Kernel
import ArcMiner.Library.MachineInt
import ArcMiner.Library.XorFold
import ArcMiner.PearlGemm.Blake3Device
import ArcMiner.Spec.Noise

/-! `launch_commitment_hash` and `launch_noise_gen`: noise seeds and noise factors on the device.

Sizes are non-negative `int` arguments. The half-precision copies of the uniform
factors are not modelled; no kernel reads them.
-/

namespace ArcMiner.PearlGemm

open Library Spec Nat UInt32 Vector B3

def saltA : B3.Node :=
  #v[0x6C404982, 0x1615EDA0, 0x92F61696, 0xF876F0FC, 0x2ADBDB92, 0x52B82370, 0x1977D4F0, 0x7B0190C3]

def saltB : B3.Node :=
  #v[0x32063011, 0xCA0163EC, 0x71AFE22B, 0x4F4D3F8B, 0x39C6E91A, 0x04CCE888, 0x1D304448, 0xA99AB871]

/-- A root in the first half of `msg`, the dimension in word 8 and zeros. -/
def boundBlock (root : Digest) (dim : Int32) : Vector UInt32 16 :=
  ofFn fun i =>
    if i.val < 8 then leWordAt root.toList (i.val * 4) else if i.val = 8 then dim.toUInt32 else 0

def pairBlock (left right : Digest) : Vector UInt32 16 :=
  ofFn fun i =>
    if i.val < 8 then leWordAt left.toList (i.val * 4) else leWordAt right.toList ((i.val - 8) * 4)

def launchCommitmentHash (aHash bHash key : Digest) (m n : Int32) (salted : Bool) : Seeds :=
  let aRoot := if salted then hashBlock (boundBlock aHash m) (some saltA) else aHash
  let bRoot := if salted then hashBlock (boundBlock bHash n) (some saltB) else bHash
  let commitB := hashBlock (pairBlock key bRoot) none
  let commitA := hashBlock (pairBlock commitB aRoot) none
  ⟨commitA, commitB⟩

abbrev Buffer := Nat → Int8

/-- `msg` with a counter in one word and the tag in words 8 and 9. -/
def noiseBlock (slot : Nat) (counter tag0 tag1 : UInt32) : Vector UInt32 16 :=
  ofFn fun j =>
    if j.val = slot then counter else if j.val = 8 then tag0 else if j.val = 9 then tag1 else 0

section uniform
variable (tag0 tag1 : UInt32) (key : Digest)

/-- Work item `id` of `KUniformA` and `KUniformB`: the entries of one hash. -/
def uniformStores (nb nh : Int) (id : Nat) : List (Nat × Int8) :=
  let i := int32 id
  if nh ≤ i then []
  else
    let h := hashBlock (noiseBlock 0 (ofInt (int32 (1 + i))) tag0 tag1) (some (keyWords key))
    (List.range 32).filterMap fun (j : Nat) =>
      let idx := int32 (i * 32 + j)
      if idx < nb then some (sizeT idx, Int8.ofInt ((h.toList.getD j 0 &&& 63).toNat - 32)) else none

def launchUniform (schedule : Schedule) (rows rank : Nat) (out : Buffer) : Buffer :=
  let nb := int32 (rows * rank)
  let nh := (int32 (nb + 31)).tdiv 32
  parallelFor schedule (launchSize nh 64) (fun id => storeAll (uniformStores tag0 tag1 key nb nh id)) out

end uniform

def permIndices (rank : Nat) (u : UInt32) : Int32 × Int32 :=
  let fi := (u &&& (rank - 1).toUInt32).toInt32
  let prod := (rank - 1).toUInt32.toUInt64 * u.toUInt64
  (fi, fi ^^^ ((1 : Int32) + (prod >>> 32).toUInt32.toInt32))

section perm
variable (tag0 tag1 : UInt32) (key : Digest) (rank req : Nat)

/-- Work item `id` of `KPerm`, on the buffer that keeps entry `index` of column `L` at `place index L`. -/
def permStores (place : Int → Int → Nat) (draws : Int) (id : Nat) : List (Nat × Int8) :=
  let i := int32 id
  if draws ≤ i then []
  else
    let h := hashBlockU32 (noiseBlock 1 (ofInt (int32 (1 + i))) tag0 tag1) (some (keyWords key))
    -- the columns after the first one past the end are past it too, so that `break` and `continue` agree
    ((List.range 8).filter fun (kk : Nat) => int32 (i * 8 + kk) < req).flatMap fun (kk : Nat) =>
      let column := int32 (i * 8 + kk)
      let indices := permIndices rank (h.toList.getD kk 0)
      [(place indices.1.toInt column, 1), (place indices.2.toInt column, -1)]

def zeroed (size : Nat) (buffer : Buffer) : Buffer := fun p => if p < size then 0 else buffer p

/-- `launch_perm` on one of its two buffers; an item stores to both and reads neither. -/
def launchPerm (schedule : Schedule) (place : Int → Int → Nat) (buffer : Buffer) : Buffer :=
  let draws := (int32 (int32 (req * 4) + 31)).tdiv 32
  parallelFor schedule (launchSize draws 64) (fun id => storeAll (permStores tag0 tag1 key rank req place draws id))
    (zeroed (rank * req) buffer)

def launchPermK (schedule : Schedule) (km : Buffer) : Buffer :=
  launchPerm tag0 tag1 key rank req schedule (fun index column => sizeT (index * req + column)) km

def launchPermR (schedule : Schedule) (rm : Buffer) : Buffer :=
  launchPerm tag0 tag1 key rank req schedule (fun index column => sizeT (column * rank + index)) rm

end perm

/-- The output buffers; a null pointer skips its factor. -/
structure NoiseBuffers where
  eal : Option Buffer
  earR : Option Buffer
  earK : Option Buffer
  eblR : Option Buffer
  eblK : Option Buffer
  ebr : Option Buffer

def launchNoiseGen (schedule : Schedule) (rank m n k : Nat) (keyA keyB : Digest) (buffers : NoiseBuffers) :
    NoiseBuffers where
  eal := buffers.eal.map (launchUniform 0x65745F41 0x726F736E keyA schedule m rank)
  earR := buffers.earR.map (launchPermR 0x65745F41 0x726F736E keyA rank k schedule)
  earK := buffers.earK.map (launchPermK 0x65745F41 0x726F736E keyA rank k schedule)
  eblR := buffers.eblR.map (launchPermR 0x65745F42 0x726F736E keyB rank k schedule)
  eblK := buffers.eblK.map (launchPermK 0x65745F42 0x726F736E keyB rank k schedule)
  ebr := buffers.ebr.map (launchUniform 0x65745F42 0x726F736E keyB schedule n rank)

theorem boundBlock_eq (root : Digest) (dim : Int32) : boundBlock root dim = loadBlock (boundMessage root dim.toUInt32) := by
  apply Vector.ext
  intro j bound
  rw [boundBlock, loadBlock, getElem_ofFn, getElem_ofFn, Nat.mul_comm, leWordAt_boundMessage _ _ bound]

theorem pairBlock_eq (left right : Digest) : pairBlock left right = loadBlock (left.toList ++ right.toList) := by
  apply Vector.ext
  intro j bound
  rw [pairBlock, loadBlock, getElem_ofFn, getElem_ofFn, Nat.mul_comm, leWordAt_pair _ _ bound,
    Nat.mul_comm (j - 8)]

theorem launchCommitmentHash_eq {a b : Digest} (sameA : keyWords a = saltA) (sameB : keyWords b = saltB)
    (aHash bHash key : Digest) (m n : Int32) (salted : Bool) : launchCommitmentHash aHash bHash key m n salted =
      noiseSeeds a b key aHash bHash m.toUInt32 n.toUInt32 salted := by
  unfold launchCommitmentHash noiseSeeds
  rw [← sameA, ← sameB]
  cases salted with
  | false =>
    simp only [Bool.false_eq_true, if_false, pairBlock_eq, hashBlock_unkeyed (length_pair _ _)]
    rfl
  | true =>
    simp only [if_true, boundBlock_eq, pairBlock_eq, hashBlock_unkeyed (length_pair _ _),
      hashBlock_keyed _ (length_boundMessage _ _)]
    rfl

def Tagged (label : List UInt8) (tag0 tag1 : UInt32) : Prop :=
  ∀ j < 8, leWordAt label (4 * j) = if j = 0 then tag0 else if j = 1 then tag1 else 0

theorem noiseBlock_eq {label : List UInt8} {tag0 tag1 : UInt32} (tagged : Tagged label tag0 tag1) {slot : Nat}
    (first : slot < 8) (counter : UInt32) :
    noiseBlock slot counter tag0 tag1 = loadBlock (noiseMessage slot counter label) := by
  apply Vector.ext
  intro j bound
  simp only [noiseBlock, loadBlock, getElem_ofFn, Nat.mul_comm _ 4, leWordAt_noiseMessage _ _ bound]
  by_cases half : 8 ≤ j
  · rw [if_pos half, if_neg (by omega), tagged (j - 8) (by omega)]
    split_ifs <;> first | rfl | omega
  · rw [if_neg half]
    split_ifs <;> first | rfl | omega

theorem counter_eq {i : Nat} (fits : i + 1 < 2 ^ 31) : ofInt (int32 (1 + (i : Int))) = (i + 1).toUInt32 := by
  rw [int32_of_fits (by omega) (by omega), ofInt]
  exact congrArg ofNat (by omega)

theorem hashBlock_noise {label : List UInt8} {tag0 tag1 : UInt32} (tagged : Tagged label tag0 tag1) (key : Digest)
    {slot : Nat} (first : slot < 8) {i : Nat} (fits : i + 1 < 2 ^ 31) :
    hashBlock (noiseBlock slot (ofInt (int32 (1 + (i : Int)))) tag0 tag1) (some (keyWords key)) =
      noiseHash key slot i label := by
  rw [counter_eq fits, noiseBlock_eq tagged first, hashBlock_keyed key (length_noiseMessage _ _ _), noiseHash]

section uniform
variable {label : List UInt8} {tag0 tag1 : UInt32} (tagged : Tagged label tag0 tag1) (key : Digest)
include tagged

theorem mem_uniformStores {nb nh id place : Nat} {value : Int8} (fits : nb < 2 ^ 31) (blocks : nh = (nb + 31) / 32)
    (small : id + 1 < 2 ^ 31) : (place, value) ∈ uniformStores tag0 tag1 key nb nh id ↔
      place / 32 = id ∧ place < nb ∧ value = uniform key label place := by
  have item : int32 (id : Int) = id := int32_of_fits (by omega) (by omega)
  unfold uniformStores
  simp only [item, hashBlock_noise tagged key (show 0 < 8 by decide) small]
  by_cases past : nh ≤ id
  -- the launch is rounded up to whole groups, and the items behind the last hash do nothing
  · rw [if_pos (by omega)]
    constructor
    · intro member
      cases member
    · rintro ⟨own, inside, -⟩
      omega
  · rw [if_neg (by omega), List.mem_filterMap]
    have entry : ∀ j < 32, int32 ((id : Int) * 32 + (j : Nat)) = ((id * 32 + j : Nat) : Int) := by
      intro j within
      rw [int32_of_fits (by omega) (by omega)]
      omega
    constructor
    · rintro ⟨j, member, stored⟩
      have within := List.mem_range.mp member
      rw [entry j within] at stored
      by_cases inside : id * 32 + j < nb
      · rw [if_pos (by omega), Option.some.injEq, Prod.mk.injEq, sizeT_natCast (by omega)] at stored
        obtain ⟨rfl, rfl⟩ := stored
        have quotient : (id * 32 + j) / 32 = id := by omega
        have rest : (id * 32 + j) % 32 = j := by omega
        exact ⟨quotient, inside, by rw [uniform, quotient, rest]⟩
      · rw [if_neg (by omega)] at stored
        cases stored
    · rintro ⟨rfl, inside, rfl⟩
      have place_eq := div_add_mod' place 32
      refine ⟨place % 32, List.mem_range.mpr (by omega), ?_⟩
      rw [entry _ (by omega), place_eq, if_pos (by omega), sizeT_natCast (by omega), uniform]

theorem launchUniform_eq {rows rank : Nat} (fits : rows * rank + 31 < 2 ^ 31) (schedule : Schedule) (out : Buffer)
    {idx : Nat} (inside : idx < rows * rank) :
    launchUniform tag0 tag1 key schedule rows rank out idx = uniform key label idx := by
  unfold launchUniform
  rw [← cast_mul]
  generalize rows * rank = nb at fits inside
  have whole : int32 (nb : Int) = nb := int32_of_fits (by omega) (by omega)
  have blocks : (int32 ((nb : Int) + 31)).tdiv 32 = ((nb + 31) / 32 : Nat) := by
    rw [int32_of_fits (by omega) (by omega), Int.tdiv_eq_ediv_of_nonneg (by omega)]
    omega
  simp only [whole, blocks]
  have size := le_launchSize ((nb + 31) / 32) (show 0 < 64 by decide) (by omega)
  refine parallelFor_storeAll_of_agree (i := idx / 32) (by omega)
    ((mem_uniformStores tagged key (by omega) rfl (by omega)).mpr ⟨rfl, inside, rfl⟩) (fun j launched other stored => ?_)
    schedule out
  exact ((mem_uniformStores tagged key (by omega) rfl (by omega)).mp stored).2.2

end uniform

section perm
variable {label : List UInt8} {tag0 tag1 : UInt32} (tagged : Tagged label tag0 tag1) (key : Digest)
  {rank e : Nat} (power : rank = 2 ^ e) (proper : 2 ≤ rank)

section
variable (fits : rank < 2 ^ 31)
include power proper fits

theorem permIndices_eq (u : UInt32) :
    (permIndices rank u).1.toInt = (firstIndex rank u).toNat ∧ (permIndices rank u).2.toInt = (secondIndex rank u).toNat := by
  have first := firstIndex_lt power fits u
  have second := secondIndex_lt power fits proper u
  refine ⟨toInt_toInt32 (u := firstIndex rank u) (by omega), ?_⟩
  have same : (permIndices rank u).2 = (secondIndex rank u).toInt32 := by
    rw [secondIndex, toInt32_xor, toInt32_add]
    rfl
  rw [same, toInt_toInt32 (by omega)]

end

include tagged in
theorem hashBlockU32_draw {i kk : Nat} (within : kk < 8) (fits : i + 1 < 2 ^ 31) :
    (hashBlockU32 (noiseBlock 1 (ofInt (int32 (1 + (i : Int)))) tag0 tag1) (some (keyWords key))).toList.getD
      kk 0 = draw key label (i * 8 + kk) := by
  have quotient : (i * 8 + kk) / 8 = i := by omega
  have rest : (i * 8 + kk) % 8 = kk := by omega
  rw [draw, quotient, rest, ← hashBlock_noise tagged key (show 1 < 8 by decide) fits, hashBlock,
    leWordAt_cvToBytes _ within, List.getD_eq_getElem _ _ (by rw [length_toList]; exact within), getElem_toList]

variable {req : Nat} (room : req * 4 + 31 < 2 ^ 31)
include tagged power proper room

theorem mem_permStores (bounded : rank < 2 ^ 31) (place : Int → Int → Nat) (p : Nat) (value : Int8) {draws id : Nat}
    (blocks : draws = (req * 4 + 31) / 32) (small : id + 1 < 2 ^ 31) :
    (p, value) ∈ permStores tag0 tag1 key rank req place draws id ↔ ∃ column, column / 8 = id ∧ column < req ∧
      ((p = place (firstIndex rank (draw key label column)).toNat column ∧ value = 1) ∨
        (p = place (secondIndex rank (draw key label column)).toNat column ∧ value = -1)) := by
  have item : int32 (id : Int) = id := int32_of_fits (by omega) (by omega)
  unfold permStores
  simp only [item]
  by_cases past : draws ≤ id
  · rw [if_pos (by omega)]
    constructor
    · intro member
      cases member
    · rintro ⟨column, own, inside, -⟩
      omega
  · rw [if_neg (by omega), List.mem_flatMap]
    have entry : ∀ kk < 8, int32 ((id : Int) * 8 + (kk : Nat)) = ((id * 8 + kk : Nat) : Int) := by
      intro kk within
      rw [int32_of_fits (by omega) (by omega)]
      omega
    -- the eight words of the hash are the draws of eight neighbouring columns
    have indices := permIndices_eq power proper bounded
    have column : ∀ kk < 8, _ := fun kk within => hashBlockU32_draw tagged key within small
    generalize (hashBlockU32 _ _).toList = h at column ⊢
    constructor
    · rintro ⟨kk, member, stored⟩
      rw [List.mem_filter, List.mem_range, decide_eq_true_eq] at member
      obtain ⟨within, inside⟩ := member
      rw [entry kk within] at inside
      refine ⟨id * 8 + kk, by omega, by omega, ?_⟩
      simp only [entry kk within, column kk within, (indices _).1, (indices _).2, List.mem_cons, List.not_mem_nil,
        or_false, Prod.mk.injEq] at stored
      exact stored
    · rintro ⟨l, rfl, inside, stored⟩
      have within : l % 8 < 8 := mod_lt l (by decide)
      have whole : l / 8 * 8 + l % 8 = l := div_add_mod' l 8
      refine ⟨l % 8, ?_, ?_⟩
      · rw [List.mem_filter, List.mem_range, decide_eq_true_eq, entry _ within, whole]
        exact ⟨within, by omega⟩
      · simp only [entry _ within, column _ within, (indices _).1, (indices _).2, List.mem_cons, List.not_mem_nil,
          or_false, Prod.mk.injEq, whole]
        exact stored

variable (fits : req * rank < 2 ^ 31)
include fits

theorem launchPerm_eq {place : Int → Int → Nat} (cell : Nat → Nat → Nat)
    (kept : ∀ a < rank, ∀ l < req, place a l = cell a l)
    (apart : ∀ a < rank, ∀ l < req, ∀ b < rank, ∀ n < req, cell a l = cell b n → a = b ∧ l = n)
    (inside : ∀ a < rank, ∀ l < req, cell a l < rank * req) (schedule : Schedule) (buffer : Buffer)
    {a l : Nat} (row : a < rank) (col : l < req) :
    launchPerm tag0 tag1 key rank req schedule place buffer (cell a l) = factor key label rank a l := by
  have bounded : rank < 2 ^ 31 := lt_of_le_of_lt (Nat.le_mul_of_pos_left rank (zero_lt_of_lt col)) fits
  have blocks : (int32 (int32 ((req : Int) * 4) + 31)).tdiv 32 = ((req * 4 + 31) / 32 : Nat) := by
    rw [int32_of_fits (x := (req : Int) * 4) (by omega) (by omega), int32_of_fits (by omega) (by omega),
      Int.tdiv_eq_ediv_of_nonneg (by omega)]
    omega
  have size := le_launchSize ((req * 4 + 31) / 32) (show 0 < 64 by decide) (by omega)
  have stores {id : Nat} {value : Int8} (launched : id < launchSize ((req * 4 + 31) / 32 : Nat) 64) :=
    mem_permStores tagged key power proper room bounded place (cell a l) value rfl (show id + 1 < 2 ^ 31 by omega)
  have first := firstIndex_lt power bounded
  have second := secondIndex_lt power bounded proper
  have distinct := firstIndex_ne power bounded proper
  unfold launchPerm factor
  simp only [blocks]
  -- every store to this cell belongs to column `l`
  have agree : ∀ id < launchSize ((req * 4 + 31) / 32 : Nat) 64, ∀ value,
      (cell a l, value) ∈ permStores tag0 tag1 key rank req place ((req * 4 + 31) / 32 : Nat) id →
      (a = (firstIndex rank (draw key label l)).toNat ∧ value = 1) ∨
        (a = (secondIndex rank (draw key label l)).toNat ∧ value = -1) := by
    intro id launched value stored
    obtain ⟨column, -, inRange, found | found⟩ := (stores launched).mp stored
    · obtain ⟨same, rfl⟩ := found
      rw [kept _ (first _) _ inRange] at same
      obtain ⟨sameRow, rfl⟩ := apart a row l col _ (first _) column inRange same
      exact Or.inl ⟨sameRow, rfl⟩
    · obtain ⟨same, rfl⟩ := found
      rw [kept _ (second _) _ inRange] at same
      obtain ⟨sameRow, rfl⟩ := apart a row l col _ (second _) column inRange same
      exact Or.inr ⟨sameRow, rfl⟩
  have own : l / 8 < launchSize ((req * 4 + 31) / 32 : Nat) 64 := by omega
  split_ifs with isFirst isSecond
  · refine parallelFor_storeAll_of_agree own ((stores own).mpr ⟨l, rfl, col, Or.inl ⟨?_, rfl⟩⟩)
      (fun id launched other stored => ?_) schedule _
    · rw [kept _ (first _) l col, isFirst]
    · rcases agree id launched other stored with ⟨-, same⟩ | ⟨isSecond, -⟩
      · exact same
      · exact absurd (isFirst.symm.trans isSecond) (distinct _)
  · refine parallelFor_storeAll_of_agree own ((stores own).mpr ⟨l, rfl, col, Or.inr ⟨?_, rfl⟩⟩)
      (fun id launched other stored => ?_) schedule _
    · rw [kept _ (second _) l col, isSecond]
    · rcases agree id launched other stored with ⟨same, -⟩ | ⟨-, same⟩
      · exact absurd same isFirst
      · exact same
  · rw [parallelFor_storeAll_of_free (fun id launched value stored => ?_), zeroed, if_pos (inside a row l col)]
    rcases agree id launched value stored with ⟨same, -⟩ | ⟨same, -⟩
    · exact isFirst same
    · exact isSecond same

theorem launchPermK_eq (schedule : Schedule) (km : Buffer) {a l : Nat} (row : a < rank) (col : l < req) :
    launchPermK tag0 tag1 key rank req schedule km (a * req + l) = factor key label rank a l := by
  have inside : ∀ a < rank, ∀ l < req, a * req + l < rank * req := fun a row l col => segment_lt col row
  refine launchPerm_eq tagged key power proper room fits (fun a l => a * req + l) (fun a row l col => ?_)
    (fun a _ l col b _ n bound same => ?_) inside schedule km row col
  · have bound := inside a row l col
    rw [Nat.mul_comm rank] at bound
    exact sizeT_natCast (n := a * req + l) (by omega)
  · exact segment_inj col bound same

theorem launchPermR_eq (schedule : Schedule) (rm : Buffer) {a l : Nat} (row : a < rank) (col : l < req) :
    launchPermR tag0 tag1 key rank req schedule rm (l * rank + a) = factor key label rank a l := by
  have inside : ∀ a < rank, ∀ l < req, l * rank + a < req * rank := fun a row l col => segment_lt row col
  refine launchPerm_eq tagged key power proper room fits (fun a l => l * rank + a) (fun a row l col => ?_)
    (fun a row l _ b bound n _ same => ?_) (fun a row l col => Nat.mul_comm rank req ▸ inside a row l col) schedule rm
    row col
  · have bound := inside a row l col
    exact sizeT_natCast (n := l * rank + a) (by omega)
  · exact (segment_inj row bound same).symm

end perm
end ArcMiner.PearlGemm
