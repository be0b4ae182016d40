import ArcMiner.AkoyaCrypto.CommitmentHasher
import ArcMiner.AkoyaCrypto.NoiseGenerator
import ArcMiner.PearlGemm.GemmI8
import ArcMiner.PearlGemm.NoiseGen

/-! The noised matrices of the search: `pearl_capi_iter` for A and `pearl_capi_noise_B` for B. -/

namespace ArcMiner.PearlGemm

open Library Spec AkoyaCrypto Nat Option CommitmentHasher
open Blake3 (zeroKey)
open NoiseGenerator (noiseRows seedLabelA seedLabelB uniformFactor)

structure IterBuffers where
  eal : Buffer
  earR : Buffer
  earK : Buffer
  gemmScratch : Nat → Int32
  apEA : Buffer

section device
variable (xmx : Xmx) (schedule : Schedule) (hpg : Bool)

/-- Steps 4 to 6 of `pearl_capi_iter` on the `sm` rows of the search window; the B side is null. -/
def noiseA (sm n k r : Nat) (commitA : Digest) (a : Buffer) (w : IterBuffers) : IterBuffers :=
  let noise := launchNoiseGen schedule r sm n k commitA commitA ⟨some w.eal, some w.earR, some w.earK, none, none, none⟩
  let eal := noise.eal.getD w.eal
  let earR := noise.earR.getD w.earR
  let earK := noise.earK.getD w.earK
  let gemmScratch := launchGemmI8 eal earK sm k r xmx schedule hpg w.gemmScratch
  { eal, earR, earK, gemmScratch, apEA := launchAddI8 a gemmScratch schedule (int32 (sm * k)) w.apEA }

structure NoiseBBuffers where
  ebrT : Buffer
  bkn : Buffer
  bnoi : Buffer
  eb : Nat → Int32
  bpEB : Buffer

/-- `cn`, the columns of one block; `ntile` is what the environment asks for. -/
def noiseBTile (ntile n : Nat) : Nat :=
  let cn := min ntile n
  let cn := cn / 128 * 128
  let cn := if cn < 128 then 128 else cn
  min cn n

def noiseBBlock (k r n0 cb : Nat) (b ebr eblR : Buffer) (w : NoiseBBuffers) : NoiseBBuffers :=
  let ebrT := launchTransposeI8 schedule (fun p => ebr (n0 * r + p)) 0 cb r w.ebrT
  let eb := launchGemmI8 eblR ebrT k cb r xmx schedule hpg w.eb
  let bkn := launchTransposeI8 schedule (fun p => b (n0 * k + p)) 0 cb k w.bkn
  let bnoi := launchAddI8 bkn eb schedule (int32 (k * cb)) w.bnoi
  { ebrT, bkn, bnoi, eb, bpEB := launchTransposeI8 schedule bnoi (n0 * k) k cb w.bpEB }

def noiseB (n k r cn : Nat) (b ebr eblR : Buffer) (w : NoiseBBuffers) : NoiseBBuffers :=
  (List.range ((n + cn - 1) / cn)).foldl (fun w j =>
    let n0 := j * cn
    let cb := if n0 + cn ≤ n then cn else n - n0
    noiseBBlock xmx schedule hpg k r n0 cb b ebr eblR w) w

structure InstallBuffers where
  earK : Buffer
  eblR : Buffer
  eblK : Buffer
  ebr : Buffer
  blocks : NoiseBBuffers

def installB (m n k r ntile : Nat) (commit : Seeds) (b : Buffer) (w : InstallBuffers) : InstallBuffers :=
  let noise := launchNoiseGen schedule r m n k commit.a commit.b ⟨none, none, some w.earK, some w.eblR, some w.eblK, some w.ebr⟩
  let earK := noise.earK.getD w.earK
  let eblR := noise.eblR.getD w.eblR
  let eblK := noise.eblK.getD w.eblK
  let ebr := noise.ebr.getD w.ebr
  { earK, eblR, eblK, ebr, blocks := noiseB xmx schedule hpg n k r (noiseBTile ntile n) b ebr eblR w.blocks }

end device

theorem tagged_seedLabelA : Tagged seedLabelA 0x65745F41 0x726F736E := by
  unfold Tagged
  decide

theorem tagged_seedLabelB : Tagged seedLabelB 0x65745F42 0x726F736E := by
  unfold Tagged
  decide

theorem keyWords_seedSaltA : B3.keyWords seedSaltA = saltA := by decide

theorem keyWords_seedSaltB : B3.keyWords seedSaltB = saltB := by decide

section products
variable {r e : Nat} (power : r = 2 ^ e) (proper : 2 ≤ r) (fits : r < 2 ^ 31)
include power proper fits

theorem toInt8_dot_factor (key : Digest) (label : List UInt8) (row : Nat → Int8) (l : Nat) :
    (dot (fun a => (row a).toInt) (fun a => (factor key label r a l).toInt) r).toInt8 = noise key label r row l := by
  rw [dot, sum_factor power fits proper key label (fun a => (row a).toInt) l, Int32.toInt8_ofInt, Int8.ofInt_sub,
    Int8.ofInt_toInt, Int8.ofInt_toInt, noise]

end products

theorem dot_comm (a b : Nat → Int) (n : Nat) : dot a b n = dot b a n := by
  simp only [dot, Int.mul_comm]

theorem noiseBTile_pos (ntile : Nat) {n : Nat} (nonempty : 0 < n) : 0 < noiseBTile ntile n := by
  simp only [noiseBTile]
  split_ifs <;> omega

/-- Row `v` of B plus its noise, the product of the two factors: all of `BpEB` at once. -/
def noisedEntry (b ebr eblR : Buffer) (k r p : Nat) : Int8 :=
  b p + (dot (fun a => (ebr (p / k * r + a)).toInt) (fun a => (eblR (p % k * r + a)).toInt) r).toInt8

section blocks
variable {xmx : Xmx} {hpg : Bool} (exact : xmx.Exact (if hpg then 8 else 16)) (schedule : Schedule) {k r : Nat}
  (b ebr eblR : Buffer)
include exact

theorem noiseBBlock_eq {n0 cb : Nat} (uniform : cb * r + 256 ≤ 2 ^ 31) (window : k * cb + 1024 ≤ 2 ^ 31)
    (fits : ¬TakesXmx hpg k cb r → k * r ≤ 2 ^ 31) (w : NoiseBBuffers) (p : Nat) :
    (noiseBBlock xmx schedule hpg k r n0 cb b ebr eblR w).bpEB p =
      if n0 * k ≤ p ∧ p < n0 * k + cb * k then noisedEntry b ebr eblR k r p else w.bpEB p := by
  have rowFits : cb * k + 256 ≤ 2 ^ 31 := by rw [Nat.mul_comm]; omega
  have colFits : k * cb + 256 ≤ 2 ^ 31 := by omega
  have indices (scalar : ¬TakesXmx hpg k cb r) : k * r ≤ 2 ^ 31 ∧ r * cb ≤ 2 ^ 31 ∧ k * cb ≤ 2 ^ 31 :=
    ⟨fits scalar, by rw [Nat.mul_comm]; omega, by omega⟩
  simp only [noiseBBlock, int32_area colFits]
  split_ifs with inside
  -- the block is multiplied in transposed form, as row `u` of the window that starts at `n0`
  · obtain ⟨q, rfl⟩ := Nat.exists_eq_add_of_le inside.1
    have within : q < cb * k := by omega
    have nonempty : 0 < k := Nat.pos_of_mul_pos_left (zero_lt_of_lt within)
    have inRow : q / k < cb := (Nat.div_lt_iff_lt_mul nonempty).mpr within
    have inCol : q % k < k := mod_lt q nonempty
    have row : (n0 * k + q) / k = n0 + q / k := by
      rw [Nat.mul_comm, mul_add_div nonempty]
    have col : (n0 * k + q) % k = q % k := by
      rw [Nat.mul_comm, mul_add_mod]
    have secret := launchTransposeI8_eq (fun p => b (n0 * k + p)) 0 rowFits schedule w.bkn inRow inCol
    have uniformT {x : Nat} (column : x < r) :=
      launchTransposeI8_eq (fun p => ebr (n0 * r + p)) 0 uniform schedule w.ebrT inRow column
    simp only [Nat.zero_add, div_add_mod'] at secret uniformT
    have place := launchTransposeI8_eq (launchAddI8 (launchTransposeI8 schedule (fun p => b (n0 * k + p)) 0 cb k w.bkn)
      (launchGemmI8 eblR (launchTransposeI8 schedule (fun p => ebr (n0 * r + p)) 0 cb r w.ebrT) k cb r xmx schedule hpg
        w.eb) schedule (k * cb : Nat) w.bnoi) (n0 * k) colFits schedule w.bpEB inCol inRow
    rw [div_add_mod'] at place
    rw [place, launchAddI8_eq window schedule _ (segment_lt inRow inCol), secret,
      launchGemmI8_eq exact indices schedule _ inCol inRow, product, noisedEntry, row, col]
    refine congrArg (fun sum : Int32 => b (n0 * k + q) + sum.toInt8) ?_
    rw [dot_comm]
    refine dot_congr (fun x column => ?_) fun _ _ => rfl
    rw [uniformT column, Nat.add_mul, Nat.add_assoc]
  · refine launchTransposeI8_frame _ _ colFits schedule _ fun covered => inside ?_
    exact covered

/-- The blocks one after the other fill all of `BpEB` and leave what lies behind it. -/
theorem noiseB_eq {n cn : Nat} (positive : 0 < cn) (uniform : ∀ cb ≤ cn, cb ≤ n → cb * r + 256 ≤ 2 ^ 31)
    (window : k * cn + 1024 ≤ 2 ^ 31)
    (fits : ∀ j < (n + cn - 1) / cn,
      ¬TakesXmx hpg k (if j * cn + cn ≤ n then cn else n - j * cn) r → k * r ≤ 2 ^ 31) (w : NoiseBBuffers) (p : Nat) :
    (noiseB xmx schedule hpg n k r cn b ebr eblR w).bpEB p =
      if p < n * k then noisedEntry b ebr eblR k r p else w.bpEB p := by
  -- after `count` blocks the rows below `count * cn` are done
  have blocks : ∀ count ≤ (n + cn - 1) / cn, ((List.range count).foldl (fun w j =>
      noiseBBlock xmx schedule hpg k r (j * cn) (if j * cn + cn ≤ n then cn else n - j * cn) b ebr eblR w) w).bpEB p =
      if p < min (count * cn) n * k then noisedEntry b ebr eblR k r p else w.bpEB p := by
    intro count bound
    induction count with
    | zero => rw [if_neg (by simp)]; rfl
    | succ count ih =>
      have started : count * cn < n := by
        have whole := (Nat.le_div_iff_mul_le positive).mp bound
        rw [succ_mul] at whole
        omega
      rw [List.range_succ, List.foldl_append, List.foldl_cons, List.foldl_nil]
      have scalar := fits count (by omega)
      generalize width : (if count * cn + cn ≤ n then cn else n - count * cn) = cb at scalar ⊢
      have narrow : cb ≤ cn ∧ cb ≤ n ∧ min ((count + 1) * cn) n = count * cn + cb := by
        rw [succ_mul]
        split_ifs at width <;> omega
      have windowBlock : k * cb + 1024 ≤ 2 ^ 31 := by
        have smaller := Nat.mul_le_mul_left k narrow.1
        omega
      rw [noiseBBlock_eq exact schedule b ebr eblR (uniform cb narrow.1 narrow.2.1) windowBlock scalar, ih (by omega),
        narrow.2.2, Nat.min_eq_left started.le, Nat.add_mul]
      generalize noisedEntry b ebr eblR k r p = value
      split_ifs <;> first | rfl | omega
  have last : n ≤ (n + cn - 1) / cn * cn := by
    have parts := div_add_mod' (n + cn - 1) cn
    have rest := mod_lt (n + cn - 1) positive
    omega
  have final := blocks _ (Nat.le_refl _)
  rw [Nat.min_eq_right last] at final
  exact final

end blocks

section rows
variable {xmx : Xmx} {hpg : Bool} (exact : xmx.Exact (if hpg then 8 else 16)) (schedule : Schedule)
  {k r e : Nat} (power : r = 2 ^ e) (proper : 2 ≤ r) (rank : k * r < 2 ^ 31)
include exact power proper rank

theorem noiseA_eq {sm : Nat} (draws : k * 4 + 31 < 2 ^ 31) (uniform : sm * r + 31 < 2 ^ 31) (window : sm * k + 1024 ≤ 2 ^ 31) (n : Nat)
    (commitA : Digest) (a : Buffer) (w : IterBuffers) {row l : Nat} (inRow : row < sm) (inCol : l < k) :
    (noiseA xmx schedule hpg sm n k r commitA a w).apEA (row * k + l) =
      a (row * k + l) + noise commitA seedLabelA r
        (uniformFactor commitA seedLabelA r row) l := by
  have bounded : r < 2 ^ 31 := lt_of_le_of_lt (Nat.le_mul_of_pos_left r (zero_lt_of_lt inCol)) rank
  have place : row * k + l < sm * k := segment_lt inCol inRow
  have indices : sm * r ≤ 2 ^ 31 ∧ r * k ≤ 2 ^ 31 ∧ sm * k ≤ 2 ^ 31 :=
    ⟨by omega, by rw [Nat.mul_comm]; omega, by omega⟩
  have count : int32 ((sm : Int) * k) = (sm * k : Nat) := by
    rw [← cast_mul, int32_of_fits (by omega) (by omega)]
  simp only [noiseA, launchNoiseGen, map_some, getD_some, count]
  rw [launchAddI8_eq window schedule _ place,
    launchGemmI8_eq exact (fun _ => indices) schedule _ inRow inCol,
    ← toInt8_dot_factor power proper bounded, product]
  refine congrArg (fun sum : Int32 => a (row * k + l) + sum.toInt8)
    (dot_congr (fun x inside => ?_) (fun x inside => ?_))
  · exact congrArg Int8.toInt (launchUniform_eq tagged_seedLabelA commitA uniform schedule w.eal (segment_lt inside inRow))
  · exact congrArg Int8.toInt (launchPermK_eq tagged_seedLabelA commitA power proper draws rank schedule w.earK inside inCol)

theorem installB_eq {n ntile : Nat} (draws : k * 4 + 31 < 2 ^ 31) (uniform : n * r + 256 ≤ 2 ^ 31)
    (window : k * noiseBTile ntile n + 1024 ≤ 2 ^ 31) (m : Nat) (commit : Seeds) (b : Buffer) (w : InstallBuffers)
    {v l : Nat} (inRow : v < n) (inCol : l < k) :
    (installB xmx schedule hpg m n k r ntile commit b w).blocks.bpEB (v * k + l) =
      b (v * k + l) + noise commit.b seedLabelB r
        (uniformFactor commit.b seedLabelB r v) l := by
  have bounded : r < 2 ^ 31 := lt_of_le_of_lt (Nat.le_mul_of_pos_left r (zero_lt_of_lt inCol)) rank
  have uniformFits : n * r + 31 < 2 ^ 31 := by omega
  have narrow : ∀ cb ≤ noiseBTile ntile n, cb ≤ n → cb * r + 256 ≤ 2 ^ 31 := fun cb _ inside => by
    have := Nat.mul_le_mul_right r inside
    omega
  simp only [installB, launchNoiseGen, map_some, getD_some]
  rw [noiseB_eq exact schedule _ _ _ (noiseBTile_pos ntile (by omega)) narrow window (fun _ _ _ => rank.le),
    if_pos (segment_lt inCol inRow), noisedEntry, segment_div inCol, segment_mod inCol,
    ← toInt8_dot_factor power proper bounded]
  refine congrArg (fun sum : Int32 => b (v * k + l) + sum.toInt8) (dot_congr (fun a inside => ?_) (fun a inside => ?_))
  · exact congrArg Int8.toInt (launchUniform_eq tagged_seedLabelB commit.b uniformFits schedule w.ebr (segment_lt inside inRow))
  · exact congrArg Int8.toInt (launchPermR_eq tagged_seedLabelB commit.b power proper draws rank schedule w.eblR inside inCol)

end rows

theorem toInt_add_noise (key : Digest) (label : List UInt8) (r row l : Nat) {secret : Int8} (low : -64 ≤ secret.toInt)
    (high : secret.toInt ≤ 63) : (secret + noise key label r (uniformFactor key label r row) l).toInt =
      secret.toInt + (noise key label r (uniformFactor key label r row) l).toInt := by
  have first := uniform_range key label (row * r + (firstIndex r (draw key label l)).toNat)
  have second := uniform_range key label (row * r + (secondIndex r (draw key label l)).toNat)
  unfold noise uniformFactor
  generalize uniform key label (row * r + (firstIndex r (draw key label l)).toNat) = x at first
  generalize uniform key label (row * r + (secondIndex r (draw key label l)).toNat) = y at second
  have difference : (x - y).toInt = x.toInt - y.toInt := by
    rw [Int8.toInt_sub, Int.bmod_eq_of_le] <;> omega
  rw [Int8.toInt_add, difference, Int.bmod_eq_of_le] <;> omega

/-- Row `row` of `out` is the secret row plus the noise that the host computes for it, also as
integers when the secrets have seven bits. -/
def NoisedRow (label : List UInt8) (seed : Digest) (k r : Nat) (secret out : Buffer) (row : Nat) : Prop :=
  ∃ noise, noiseRows label seed [row] k r = .ok [noise] ∧ noise.length = k ∧
    ∀ l < k, out (row * k + l) = secret (row * k + l) + noise.getD l 0 ∧
      (-64 ≤ (secret (row * k + l)).toInt → (secret (row * k + l)).toInt ≤ 63 →
        (out (row * k + l)).toInt = (secret (row * k + l)).toInt + (noise.getD l 0).toInt)

theorem noisedRow_of_eq {label : List UInt8} {seed : Digest} {k r e row rows : Nat} (power : r = 2 ^ e) (proper : 2 ≤ r)
    (columns : k < 2 ^ 31) (fits : rows * r < 2 ^ 31) (inRow : row < rows) {secret out : Buffer}
    (entries : ∀ l < k, out (row * k + l) =
      secret (row * k + l) + noise seed label r (uniformFactor seed label r row) l) :
    NoisedRow label seed k r secret out row := by
  have bound : (row + 1) * r ≤ rows * r := Nat.mul_le_mul_right r inRow
  rw [succ_mul] at bound
  refine ⟨tabulate (noise seed label r (uniformFactor seed label r row)) k, ?_, length_tabulate _ _,
    fun l inCol => ?_⟩
  · refine NoiseGenerator.noiseRows_eq label seed power proper columns (by omega) fun other member => ?_
    obtain rfl : other = row := List.mem_singleton.mp member
    omega
  · have entry : (tabulate (noise seed label r (uniformFactor seed label r row)) k).getD l 0 =
        noise seed label r (uniformFactor seed label r row) l := by
      rw [List.getD_eq_getElem?_getD, getElem?_tabulate _ inCol]
      rfl
    rw [entry, entries l inCol]
    exact ⟨rfl, toInt_add_noise seed label r row l⟩

/-- Host and device derive the same seeds, and every row the device noises is the host's row. -/
theorem noised_rows_agree (xmx : Xmx) (schedule : Schedule) (hpg : Bool) (exact : xmx.Exact (if hpg then 8 else 16))
    (jobKey rootA rootB : Digest) (salted : Bool) {m n sm k r e ntile : Nat} (power : r = 2 ^ e) (proper : 2 ≤ r)
    (rank : k * r < 2 ^ 31) (draws : k * 4 + 31 < 2 ^ 31) (uniformA : sm * r + 31 < 2 ^ 31)
    (uniformB : n * r + 256 ≤ 2 ^ 31) (windowA : sm * k + 1024 ≤ 2 ^ 31)
    (windowB : k * noiseBTile ntile n + 1024 ≤ 2 ^ 31) (a b : Buffer) (iter : IterBuffers) (install : InstallBuffers) :
    let seeds := launchCommitmentHash rootA rootB jobKey (Int32.ofNat m) (Int32.ofNat n) salted
    deriveNoiseSeeds jobKey rootA rootB (Int32.ofNat m) (Int32.ofNat n) salted = .ok seeds ∧
    (∀ row < sm, NoisedRow seedLabelA seeds.a k r a
      (noiseA xmx schedule hpg sm n k r seeds.a a iter).apEA row) ∧
    ∀ row < n, NoisedRow seedLabelB seeds.b k r b
      (installB xmx schedule hpg m n k r ntile seeds b install).blocks.bpEB row := by
  intro seeds
  have columns : k < 2 ^ 31 := by omega
  refine ⟨?_, fun row inRow => ?_, fun row inRow => ?_⟩
  · rw [deriveNoiseSeeds_eq, ← launchCommitmentHash_eq keyWords_seedSaltA keyWords_seedSaltB]
  · exact noisedRow_of_eq power proper columns (by omega) inRow fun l inCol =>
      noiseA_eq exact schedule power proper rank draws uniformA windowA n seeds.a a iter inRow inCol
  · exact noisedRow_of_eq power proper columns (by omega) inRow fun l inCol =>
      installB_eq exact schedule power proper rank draws uniformB windowB m seeds b install inRow inCol

section zeros

def zeroBuffer : Buffer := fun _ => 0

def emptyIter : IterBuffers := ⟨zeroBuffer, zeroBuffer, zeroBuffer, fun _ => 0, zeroBuffer⟩

def emptyInstall : InstallBuffers :=
  ⟨zeroBuffer, zeroBuffer, zeroBuffer, zeroBuffer, zeroBuffer, zeroBuffer, zeroBuffer, fun _ => 0, zeroBuffer⟩

theorem noised_rows_agree_zeros : let seeds := launchCommitmentHash zeroKey zeroKey zeroKey 32 48 true
    deriveNoiseSeeds zeroKey zeroKey zeroKey 32 48 true = .ok seeds ∧
    (∀ row < 16, NoisedRow seedLabelA seeds.a 192 64 zeroBuffer
      (noiseA .reference .ascending true 16 48 192 64 seeds.a zeroBuffer emptyIter).apEA row) ∧
    ∀ row < 48, NoisedRow seedLabelB seeds.b 192 64 zeroBuffer
      (installB .reference .ascending true 32 48 192 64 16384 seeds zeroBuffer emptyInstall).blocks.bpEB row :=
  noised_rows_agree (m := 32) (n := 48) (k := 192) (r := 64) (e := 6) .reference .ascending true
    (Xmx.reference_exact 8) zeroKey zeroKey zeroKey true rfl (by decide) (by decide) (by decide) (by decide)
    (by decide) (by decide) (by decide) zeroBuffer zeroBuffer emptyIter emptyInstall

/-- The rank one is a power of two, and the host has no row for it. -/
theorem noised_rows_rank_one : let seeds := launchCommitmentHash zeroKey zeroKey zeroKey 1 1 false
    deriveNoiseSeeds zeroKey zeroKey zeroKey 1 1 false = .ok seeds ∧
    noiseRows seedLabelA seeds.a [0] 1 1 = .error .indexOutOfRange ∧
    ¬NoisedRow seedLabelA seeds.a 1 1 zeroBuffer
      (noiseA .reference .ascending true 1 1 1 1 seeds.a zeroBuffer emptyIter).apEA 0 := by
  intro seeds
  have thrown := NoiseGenerator.noiseRows_rank_one seedLabelA seeds.a
  refine ⟨?_, thrown, ?_⟩
  · rw [deriveNoiseSeeds_eq, ← launchCommitmentHash_eq keyWords_seedSaltA keyWords_seedSaltB]
  · rintro ⟨noise, found, -⟩
    rw [thrown] at found
    cases found

end zeros
end ArcMiner.PearlGemm
