import ArcMiner.PearlGemm.TgemmTranscript

/-! The accumulator states that host and device fold into a transcript.

`JackpotComputer.Compute` folds after each whole block of `R` products; its loop ends with
the last block that fits into `k`. The loop of the device starts a block wherever one begins
below `k`, and the block that begins last may reach past the end of the rows.
-/

namespace ArcMiner.PearlGemm

open Library Spec Nat

section group
variable (xmx : Xmx) (blocking : Blocking) (viaMem : Bool) (args : TgemmArgs) (grpRow grpCol : Nat)

def tileOf (mC : Accumulators) (tile : Nat × Nat) : List (List Int32) :=
  tabulate (fun u => tabulate (fun v =>
    mC (2 * tile.1 + u / 8) (tile.2 * blocking.nhalf + v / blocking.sg) (u % 8) (v % blocking.sg)) 16) 16

def recordedBlocks (tile : Nat × Nat) : GroupState × List (List (List Int32)) :=
  let step := rVal blocking args
  (List.range ((args.k + step - 1) / step)).foldl
    (fun seen j =>
      let after := snapBlock xmx blocking viaMem args grpRow grpCol seen.1 (j * step)
      (after, seen.2 ++ [tileOf blocking after.mC tile]))
    (⟨fun _ _ _ _ => 0, fun _ => 0, 0⟩, [])

theorem recordedBlocks_state (tile : Nat × Nat) :
    (recordedBlocks xmx blocking viaMem args grpRow grpCol tile).1 = runBlocks xmx blocking viaMem args grpRow grpCol :=
  (List.foldl_hom Prod.fst fun _ _ => rfl).symm

def foldedTiles (tile : Nat × Nat) : List (List (List Int32)) :=
  (recordedBlocks xmx blocking viaMem args grpRow grpCol tile).2

end group

def tileAfter (a b : Nat → Nat → Int) (n : Nat) : List (List Int32) :=
  tabulate (fun u => tabulate (fun v => dot (a u) (b v) n) 16) 16

section device
variable {xmx : Xmx} {blocking : Blocking} {viaMem : Bool} {args : TgemmArgs} {grpRow grpCol : Nat}

theorem tileOf_accumulated {mC : Accumulators} {n : Nat} (held : Accumulated blocking args grpRow grpCol n mC)
    (tile : Nat × Nat) :
    tileOf blocking mC tile = tileAfter (fun u => rowEntries args ((grpRow * blocking.rm + tile.1) * 16 + u))
      (fun v => colEntries args ((grpCol * blocking.rn + tile.2) * 16 + v)) n := by
  have width : blocking.nhalf * blocking.sg = 16 := blocking.width
  have lanes : 0 < blocking.sg := Nat.pos_of_ne_zero fun none => by simp [none] at width
  refine tabulate_congr fun u row => tabulate_congr fun v col => ?_
  have half : v / blocking.sg < blocking.nhalf := by
    rw [Nat.div_lt_iff_lt_mul lanes, width]
    exact col
  rw [held _ _ _ _ (mod_lt u (by decide)) (mod_lt v lanes), fragmentRow_half blocking tile.1 (by omega),
    fragmentCol_half blocking tile.2 half, Nat.add_assoc _ (u / 8 * 8), div_add_mod', Nat.add_assoc _ (_ * blocking.sg),
    div_add_mod']

theorem foldedTiles_eq (exact : xmx.Exact blocking.sg) (rank : rVal blocking args = args.r) (multiple : 32 ∣ args.r)
    (tile : Nat × Nat) : foldedTiles xmx blocking viaMem args grpRow grpCol tile =
      tabulate (fun b => tileAfter (fun u => rowEntries args ((grpRow * blocking.rm + tile.1) * 16 + u))
        (fun v => colEntries args ((grpCol * blocking.rn + tile.2) * 16 + v)) ((b + 1) * args.r))
        ((args.k + args.r - 1) / args.r) := by
  unfold foldedTiles recordedBlocks
  simp only [rank]
  generalize (args.k + args.r - 1) / args.r = count
  -- after `blocks` blocks the accumulators hold the products of all of them
  have run : ∀ blocks, ∃ state seen, (List.range blocks).foldl
      (fun seen j =>
        (snapBlock xmx blocking viaMem args grpRow grpCol seen.1 (j * args.r),
          seen.2 ++ [tileOf blocking (snapBlock xmx blocking viaMem args grpRow grpCol seen.1 (j * args.r)).mC tile]))
      ((⟨fun _ _ _ _ => 0, fun _ => 0, 0⟩, []) : GroupState × List (List (List Int32))) = (state, seen) ∧
      Accumulated blocking args grpRow grpCol (blocks * args.r) state.mC ∧
      seen = tabulate (fun b => tileAfter (fun u => rowEntries args ((grpRow * blocking.rm + tile.1) * 16 + u))
        (fun v => colEntries args ((grpCol * blocking.rn + tile.2) * 16 + v)) ((b + 1) * args.r)) blocks := by
    intro blocks
    induction blocks with
    | zero => exact ⟨_, _, rfl, fun r t i c _ _ => by simp [dot], rfl⟩
    | succ blocks ih =>
      obtain ⟨state, seen, same, held, record⟩ := ih
      have after : Accumulated blocking args grpRow grpCol ((blocks + 1) * args.r)
          (snapBlock xmx blocking viaMem args grpRow grpCol state (blocks * args.r)).mC := by
        have next := blockSteps_accumulated exact (rank ▸ multiple) held
        rwa [rank, ← succ_mul] at next
      refine ⟨_, _, by rw [List.range_succ, List.foldl_append, same]; rfl, after, ?_⟩
      rw [tileOf_accumulated after, record, tabulate_add]
      rfl
  obtain ⟨state, seen, same, -, record⟩ := run count
  rw [same, record]

end device

open AkoyaCrypto CSharp

theorem host_foldedTiles_eq {rows : JackpotComputer.Rows} {k r : Nat} (aShaped : JackpotComputer.Shaped rows.secretA 16 k)
    (bShaped : JackpotComputer.Shaped rows.secretB 16 k) (aNoise : JackpotComputer.Shaped rows.noiseA 16 k)
    (bNoise : JackpotComputer.Shaped rows.noiseB 16 k) (positive : 0 < r) (int : k < 2 ^ 31)
    (fits : (k / r + 1) * r < 2 ^ 31) : JackpotComputer.foldedTiles 16 16 k r rows =
      .ok (tabulate (fun b => tileAfter (JackpotComputer.noised rows.secretA rows.noiseA)
        (JackpotComputer.noised rows.secretB rows.noiseB) ((b + 1) * r)) (k / r)) := by
  rw [JackpotComputer.foldedTiles, JackpotComputer.recordedLoop_eq aShaped bShaped aNoise bNoise positive (fun _ => int)
    (fun _ => fits)]
  rfl

/-- For every tile, host and device fold the same accumulator states in the same order exactly when the rank divides
the length of the rows and the loop counter of the host stays an `int`. -/
theorem folds_agree_iff (xmx : Xmx) (viaMem : Bool) (tuning : Tuning) (args : TgemmArgs) (exact : xmx.Exact tuning.sg)
    (int : args.k < 2 ^ 31) (shorter : args.r ≤ args.k) (multiple : 32 ∣ args.r) (grpRow grpCol : Nat) (tile : Nat × Nat)
    (rows : JackpotComputer.Rows) (aShaped : JackpotComputer.Shaped rows.secretA 16 args.k)
    (bShaped : JackpotComputer.Shaped rows.secretB 16 args.k) (aNoise : JackpotComputer.Shaped rows.noiseA 16 args.k)
    (bNoise : JackpotComputer.Shaped rows.noiseB 16 args.k)
    (left : ∀ u < 16, ∀ l < args.k, rowEntries args ((grpRow * (dispatch tuning args).rm + tile.1) * 16 + u) l =
      JackpotComputer.noised rows.secretA rows.noiseA u l)
    (right : ∀ v < 16, ∀ l < args.k, colEntries args ((grpCol * (dispatch tuning args).rn + tile.2) * 16 + v) l =
      JackpotComputer.noised rows.secretB rows.noiseB v l) : JackpotComputer.foldedTiles 16 16 args.k args.r rows =
        .ok (foldedTiles xmx (dispatch tuning args) viaMem args grpRow grpCol tile) ↔
      0 < args.r ∧ args.r ∣ args.k ∧ args.k + args.r < 2 ^ 31 := by
  obtain ⟨sg, rank, -, -⟩ := dispatch_spec tuning args
  have covered : args.r ∣ args.k → (args.k / args.r + 1) * args.r = args.k + args.r := by
    intro divides
    rw [succ_mul, Nat.div_mul_cancel divides]
  rcases Nat.eq_zero_or_pos args.r with zero | positive
  · obtain ⟨why, failed⟩ := JackpotComputer.recordedLoop_zero 16 16 args.k rows
    refine iff_of_false ?_ (by omega)
    rw [zero, JackpotComputer.foldedTiles, cast_zero, failed]
    exact nofun
  rcases Nat.lt_or_ge ((args.k / args.r + 1) * args.r) (2 ^ 31) with fits | wraps
  · rw [host_foldedTiles_eq aShaped bShaped aNoise bNoise positive int fits, Except.ok.injEq,
      foldedTiles_eq (sg ▸ exact) rank multiple]
    constructor
    · intro same
      have count := congrArg List.length same
      rw [length_tabulate, length_tabulate] at count
      have divides := (begun_blocks_iff positive).mp count.symm
      exact ⟨positive, divides, covered divides ▸ fits⟩
    · rintro ⟨-, divides, -⟩
      rw [(begun_blocks_iff positive).mpr divides]
      refine tabulate_congr fun b before => ?_
      have inside : (b + 1) * args.r ≤ args.k := by
        have := Nat.mul_le_mul_right args.r (show b + 1 ≤ args.k / args.r from before)
        rwa [Nat.div_mul_cancel divides] at this
      exact tabulate_congr fun u row => tabulate_congr fun v col => dot_congr
        (fun l bound => (left u row l (by omega)).symm) fun l bound => (right v col l (by omega)).symm
  · -- the counter wraps, and the host throws
    obtain ⟨why, failed⟩ := JackpotComputer.recordedLoop_wraps aShaped bShaped aNoise bNoise positive shorter int wraps
    refine iff_of_false ?_ fun ⟨_, divides, small⟩ => ?_
    · rw [JackpotComputer.foldedTiles, failed]
      exact nofun
    · rw [covered divides] at wraps
      omega

section zeros

theorem folds_agree_block : JackpotComputer.foldedTiles 16 16 192 64 (zeroInputs 192) =
    .ok (foldedTiles .reference (dispatch ⟨false, 0, 0⟩ (zeroArgs 192 64)) false (zeroArgs 192 64) 0 0 (0, 0)) := by
  have shaped := zeroRows_shaped 192
  exact (folds_agree_iff .reference false ⟨false, 0, 0⟩ (zeroArgs 192 64) (Xmx.reference_exact 16) (by decide) (by decide)
    (by decide) 0 0 (0, 0) (zeroInputs 192) shaped shaped shaped shaped (fun u _ l _ => (noised_zeroRows 192 u l).symm)
    fun v _ l _ => (noised_zeroRows 192 v l).symm).mpr (by decide)

/-- One and a half blocks. -/
theorem folds_differ : JackpotComputer.foldedTiles 16 16 96 64 (zeroInputs 96) ≠
    .ok (foldedTiles .reference (dispatch ⟨false, 0, 0⟩ (zeroArgs 96 64)) false (zeroArgs 96 64) 0 0 (0, 0)) := by
  have rank := (dispatch_spec ⟨false, 0, 0⟩ (zeroArgs 96 64)).2.1
  have shaped := zeroRows_shaped 96
  intro same
  have host := @host_foldedTiles_eq (zeroInputs 96) 96 64 shaped shaped shaped shaped (by decide) (by decide) (by decide)
  have device := @foldedTiles_eq .reference _ false _ 0 0 (Xmx.reference_exact _) rank (by decide) (0, 0)
  have count := congrArg List.length (Except.ok.inj (host.symm.trans same))
  rw [device, length_tabulate, length_tabulate] at count
  revert count
  decide

end zeros
end ArcMiner.PearlGemm
