import ArcMiner.Prl.SaltedSeedFork

/-! Calls of `SaltedSeedFork.Apply`: one after the other, and at the same time. -/

namespace ArcMiner.Prl.SaltedSeedFork

open Library Library.Machine Function Option

section calls
variable (settings : Settings)

/-- The rest of a call that nothing interrupts, for as many accesses as it may still make. -/
def applyFrom (exported : Bool) (height : Int) : Nat → Flags → ApplyStage → Flags
  | 0, flags, _ => flags
  | accesses + 1, flags, stage =>
    match applyStep settings exported height flags stage with
    | (flags, none) => flags
    | (flags, some next) => applyFrom exported height accesses flags next

/-- A whole call: it reads, sets and writes at most once each. -/
def apply (exported : Bool) (height : Int) (flags : Flags) : Flags := applyFrom settings exported height 3 flags .read

structure Call where
  height : Int
  exported : Bool
deriving DecidableEq

def applyAll (flags : Flags) (calls : List Call) : Flags :=
  calls.foldl (fun flags call => apply settings call.exported call.height flags) flags

def cold : Flags := ⟨false, false⟩

variable {settings}

theorem apply_eq (exported : Bool) (height : Int) (flags : Flags) :
    apply settings exported height flags =
      if flags.active = isActive settings height ∨ exported = false then flags
      else ⟨isActive settings height, isActive settings height⟩ := by
  unfold apply applyFrom applyStep
  by_cases same : flags.active = isActive settings height
  · simp [same]
  · cases exported <;> simp [same, applyFrom, applyStep]

theorem isActive_unknown (unforced : settings.forcedActive = false) {height : Int} (unknown : height ≤ 0) :
    isActive settings height = false := by
  simp [isActive, unforced, show ¬ 0 < height by omega]

theorem apply_unknown (unforced : settings.forcedActive = false) {height : Int} (unknown : height ≤ 0)
    (exported : Bool) (flags : Flags) :
    apply settings exported height flags = if flags.active = false ∨ exported = false then flags else cold := by
  rw [apply_eq, isActive_unknown unforced unknown]
  rfl

theorem applyAll_unknown_inactive (unforced : settings.forcedActive = false) {flags : Flags}
    (inactive : flags.active = false) {calls : List Call} (unknown : ∀ call ∈ calls, call.height ≤ 0) :
    applyAll settings flags calls = flags := by
  induction calls with
  | nil => rfl
  | cons call calls ih =>
    rw [applyAll, List.foldl_cons, apply_unknown unforced (unknown call (by simp)), if_pos (.inl inactive)]
    exact ih (fun later member => unknown later (by simp [member]))

/-- Calls without a height switch the fork off at the first of them whose native setter works. -/
theorem applyAll_unknown (unforced : settings.forcedActive = false) (flags : Flags) {calls : List Call}
    (unknown : ∀ call ∈ calls, call.height ≤ 0) :
    applyAll settings flags calls =
      if flags.active = false ∨ ∀ call ∈ calls, call.exported = false then flags else cold := by
  induction calls with
  | nil => simp [applyAll]
  | cons call calls ih =>
    have later : ∀ call ∈ calls, call.height ≤ 0 := fun later member => unknown later (by simp [member])
    rw [applyAll, List.foldl_cons, apply_unknown unforced (unknown call (by simp))]
    by_cases kept : flags.active = false ∨ call.exported = false
    · rw [if_pos kept]
      refine (ih later).trans ?_
      rcases kept with inactive | failed
      · simp [inactive]
      · simp [failed]
    -- once it is off, later calls find the flag as they want it
    · rw [if_neg kept, if_neg (by simp_all)]
      exact applyAll_unknown_inactive unforced rfl later

/-- Calls without a height leave the two flags as the history before them did, unless the fork is active by then: such a
call takes an unknown height for one before the fork, and switches it off on both sides. -/
theorem unknown_heights_keep_iff (unforced : settings.forcedActive = false) (history : List Call) {calls : List Call}
    (unknown : ∀ call ∈ calls, call.height ≤ 0) :
    applyAll settings cold (history ++ calls) = applyAll settings cold history ↔
      (applyAll settings cold history).active = false ∨ ∀ call ∈ calls, call.exported = false := by
  have parted : applyAll settings cold (history ++ calls) = applyAll settings (applyAll settings cold history) calls :=
    List.foldl_append
  rw [parted, applyAll_unknown unforced _ unknown]
  split
  · next kept => exact iff_of_true rfl kept
  · next changed =>
    refine iff_of_false (fun same => ?_) changed
    exact changed (.inl (congrArg Flags.active same.symm))

theorem unknown_heights_keep_before_fork :
    applyAll mainnet cold ([⟨98999, true⟩] ++ [⟨0, true⟩, ⟨-1, true⟩]) = applyAll mainnet cold [⟨98999, true⟩] :=
  (unknown_heights_keep_iff rfl [⟨98999, true⟩] (by decide)).mpr (.inl (by decide))

theorem unknown_height_switches_off : applyAll mainnet cold [⟨99000, true⟩] = ⟨true, true⟩ ∧
      applyAll mainnet cold [⟨99000, true⟩, ⟨0, true⟩] = ⟨false, false⟩ := by
  decide

end calls

structure Calls (ι : Type) where
  flags : Flags
  inProgress : ι → Option (Int × ApplyStage)

inductive CallEvent (ι : Type) where
  | enter (caller : ι) (height : Int)
  /-- The next access of a call; the native setter works in it or throws. -/
  | access (caller : ι) (exported : Bool)

section interleaving
variable {ι : Type} [DecidableEq ι] (settings : Settings)

def callStep (state : Calls ι) : CallEvent ι → Option (Calls ι)
  | .enter caller height =>
    match state.inProgress caller with
    | none => some { state with inProgress := update state.inProgress caller (some (height, .read)) }
    | some _ => none
  | .access caller exported =>
    match state.inProgress caller with
    | none => none
    | some (height, stage) =>
      let (flags, next) := applyStep settings exported height state.flags stage
      some ⟨flags, update state.inProgress caller (next.map (height, ·))⟩

def atRest : Calls ι := ⟨cold, fun _ => none⟩

def SameSide (state : Calls ι) : CallEvent ι → Prop
  | .enter _ height => ∀ caller, ∀ call ∈ state.inProgress caller, isActive settings call.1 = isActive settings height
  | .access _ _ => True

instance [Fintype ι] (state : Calls ι) : ∀ event, Decidable (SameSide settings state event)
  | .enter _ height => inferInstanceAs (Decidable (∀ caller, ∀ call ∈ state.inProgress caller, _ = isActive settings height))
  | .access _ _ => inferInstanceAs (Decidable True)

structure Agree (state : Calls ι) : Prop where
  side : ∀ caller other height height' stage stage', state.inProgress caller = some (height, stage) →
    state.inProgress other = some (height', stage') → isActive settings height = isActive settings height'
  set : ∀ caller height, state.inProgress caller = some (height, .write) → state.flags.native = isActive settings height
  agree : state.flags.active = state.flags.native ∨ ∃ caller height, state.inProgress caller = some (height, .write)

variable {settings}

variable {state : Calls ι} {caller : ι}

theorem still_agree (known : Agree settings state)
    (silent : ∀ height, state.inProgress caller ≠ some (height, .write)) (call : Option (Int × ApplyStage)) :
    state.flags.active = state.flags.native ∨
      ∃ c h, update state.inProgress caller call c = some (h, .write) := by
  rcases known.agree with same | ⟨c, h, writing⟩
  · exact .inl same
  -- the call that still has to write the host flag is another one, and not moved
  · have other : c ≠ caller := by
      rintro rfl
      exact silent h writing
    exact .inr ⟨c, h, by rw [update_of_ne other, writing]⟩

theorem enter_agree {height : Int} (sameSide : SameSide settings state (.enter caller height))
    (known : Agree settings state) (free : state.inProgress caller = none) :
    Agree settings { state with inProgress := update state.inProgress caller (some (height, .read)) } where
  side := by
    intro c c' h h' stage stage' now now'
    rcases update_eq_some now with ⟨-, ⟨⟩⟩ | ⟨-, before⟩ <;> rcases update_eq_some now' with ⟨-, ⟨⟩⟩ | ⟨-, before'⟩
    · rfl
    · exact (sameSide c' (h', stage') before').symm
    · exact sameSide c (h, stage) before
    · exact known.side c c' h h' stage stage' before before'
  set := by
    intro c h now
    rcases update_eq_some now with ⟨-, ⟨⟩⟩ | ⟨-, before⟩
    exact known.set c h before
  agree := still_agree known (by simp [free]) _

theorem access_side {height : Int} {stage : ApplyStage} (known : Agree settings state)
    (before : state.inProgress caller = some (height, stage)) (next : Option ApplyStage)
    {c c' : ι} {h h' : Int} {s s' : ApplyStage}
    (now : update state.inProgress caller (next.map (height, ·)) c = some (h, s))
    (now' : update state.inProgress caller (next.map (height, ·)) c' = some (h', s')) :
    isActive settings h = isActive settings h' := by
  have earlier : ∀ {c h s}, update state.inProgress caller (next.map (height, ·)) c = some (h, s) →
      ∃ s, state.inProgress c = some (h, s) := by
    intro c h s now
    rcases update_eq_some now with ⟨rfl, called⟩ | ⟨-, found⟩
    · obtain ⟨_, -, ⟨⟩⟩ := map_eq_some_iff.mp called
      exact ⟨stage, before⟩
    · exact ⟨s, found⟩
  obtain ⟨stage, was⟩ := earlier now
  obtain ⟨stage', was'⟩ := earlier now'
  exact known.side c c' h h' stage stage' was was'

theorem quiet_agree {height : Int} {stage : ApplyStage} (known : Agree settings state)
    (before : state.inProgress caller = some (height, stage)) (silent : stage ≠ .write) {next : Option ApplyStage}
    (goesOn : next ≠ some .write) :
    Agree settings { state with inProgress := update state.inProgress caller (next.map (height, ·)) } where
  side := fun _ _ _ _ _ _ now now' => access_side known before next now now'
  set := by
    intro c h now
    rcases update_eq_some now with ⟨-, called⟩ | ⟨-, found⟩
    · obtain ⟨_, found, ⟨⟩⟩ := map_eq_some_iff.mp called
      exact absurd found goesOn
    · exact known.set c h found
  agree := still_agree known (by simp [before, silent]) _

theorem callStep_agree {state next : Calls ι} {event : CallEvent ι} (sameSide : SameSide settings state event)
    (known : Agree settings state) (stepped : callStep settings state event = some next) : Agree settings next := by
  cases event with
  | enter caller height =>
    cases free : state.inProgress caller with
    | none =>
      simp only [callStep, free, Option.some.injEq] at stepped
      subst stepped
      exact enter_agree sameSide known free
    | some call => simp [callStep, free] at stepped
  | access caller exported =>
    cases before : state.inProgress caller with
    | none => simp [callStep, before] at stepped
    | some call =>
      obtain ⟨height, stage⟩ := call
      simp only [callStep, before, Option.some.injEq] at stepped
      subst stepped
      cases stage with
      | read => exact quiet_agree known before (nofun) (by simp only [applyStep]; split <;> nofun)
      | setNative =>
        cases exported with
        | false => exact quiet_agree known before (nofun) (nofun)
        | true =>
          have now := update_self caller ((some ApplyStage.write).map (height, ·)) state.inProgress
          exact ⟨fun _ _ _ _ _ _ => access_side known before _, fun _ _ => access_side known before (some .write) now,
            .inr ⟨caller, height, now⟩⟩
      | write =>
        refine ⟨fun _ _ _ _ _ _ => access_side known before _, fun c h now => ?_, .inl (known.set caller height before).symm⟩
        rcases update_eq_some now with ⟨-, ⟨⟩⟩ | ⟨-, found⟩
        exact known.set c h found

omit [DecidableEq ι] in
theorem agree_atRest : Agree settings (atRest : Calls ι) := ⟨nofun, nofun, .inl rfl⟩

/-- Once no call is in progress the host flag is the one last set on the device, as long as calls that overlap are on the
same side of the fork. -/
theorem flags_agree_at_rest {events : List (CallEvent ι)} {final : Calls ι}
    (sameSide : Along (callStep settings) (SameSide settings) atRest events)
    (ran : run (callStep settings) atRest events = some final) (rest : ∀ caller, final.inProgress caller = none) :
    final.flags.active = final.flags.native := by
  have known : Agree settings final := run_invariant (Agree settings) callStep_agree sameSide agree_atRest ran
  rcases known.agree with same | ⟨caller, height, writing⟩
  · exact same
  · rw [rest caller] at writing
    nomatch writing

/-- Two workers see the first job after the fork at the same time, and one of them cannot reach the device. -/
theorem flags_agree_at_fork : ∃ final : Calls (Fin 2),
    run (callStep mainnet) atRest [.enter 0 99000, .enter 1 99001, .access 0 true, .access 1 true, .access 1 false,
      .access 0 true, .access 0 true] = some final ∧ final.flags.active = true ∧ final.flags.native = true := by
  obtain ⟨final, ran, seen⟩ := map_eq_some_iff.mp (by decide +kernel :
    (run (callStep mainnet) (atRest : Calls (Fin 2)) [.enter 0 99000, .enter 1 99001, .access 0 true, .access 1 true,
      .access 1 false, .access 0 true, .access 0 true]).map
        (fun final => (final.flags.active, final.inProgress 0, final.inProgress 1)) = some (true, none, none))
  simp only [Prod.mk.injEq] at seen
  obtain ⟨active, first, second⟩ := seen
  have agree := flags_agree_at_rest (by decide +kernel) ran (Fin.forall_fin_two.mpr ⟨first, second⟩)
  exact ⟨final, ran, active, agree.symm.trans active⟩

/-- Two workers switch the fork on. The second of them sets the device after a third, whose job carries no height, has
set it the other way, and before that one writes the flag. -/
theorem flags_disagree_at_rest : ∃ final : Calls (Fin 3),
    run (callStep mainnet) atRest [.enter 0 99000, .enter 1 99000, .access 0 true, .access 1 true, .access 0 true,
      .access 0 true, .enter 2 0, .access 2 true, .access 2 true, .access 1 true, .access 1 true, .access 2 true] =
        some final ∧
      (∀ caller, final.inProgress caller = none) ∧ final.flags.active = false ∧ final.flags.native = true := by
  obtain ⟨final, ran, seen⟩ := map_eq_some_iff.mp (by decide +kernel :
    (run (callStep mainnet) (atRest : Calls (Fin 3)) [.enter 0 99000, .enter 1 99000, .access 0 true, .access 1 true,
      .access 0 true, .access 0 true, .enter 2 0, .access 2 true, .access 2 true, .access 1 true, .access 1 true,
      .access 2 true]).map (fun final => (decide (∀ caller, final.inProgress caller = none), final.flags)) =
        some (true, ⟨false, true⟩))
  simp only [Prod.mk.injEq, decide_eq_true_eq] at seen
  obtain ⟨rest, flags⟩ := seen
  exact ⟨final, ran, rest, by rw [flags], by rw [flags]⟩

end interleaving
end ArcMiner.Prl.SaltedSeedFork
