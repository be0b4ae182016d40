import ArcMiner.Prl.GpuWorker

/-! What each part of the mining loop does to the state of the worker.

One result for every function: the state in which it returns and those in which it
may throw. The number of native calls is all that is not said.
-/

namespace ArcMiner.Prl.GpuWorker

open Library Library.Action Option BatchState TreeState

section primitives
variable {post : Unit → WorkerState → Prop} {thrown : WorkerState → Prop} {s : WorkerState}

@[simp] theorem wp_modifySigma (f : SigmaState → SigmaState) :
    wp (modifySigma f) post thrown s ↔ post () { s with sigma := f s.sigma } := Iff.rfl

@[simp] theorem wp_modifyTrees (f : TreeState → TreeState) :
    wp (modifyTrees f) post thrown s ↔ post () { s with trees := f s.trees } := Iff.rfl

@[simp] theorem wp_modifyBatches (f : BatchState → BatchState) :
    wp (modifyBatches f) post thrown s ↔ post () { s with batches := f s.batches } := Iff.rfl

theorem wp_check {env : Env} {op : String} (throws : ∀ n, thrown { s with nativeCalls := n })
    (returns : ∀ n, post () { s with nativeCalls := n }) : wp (check env op) post thrown s := by
  simp only [check, wp_bind, wp_get, wp_set, wp_ite, wp_throw, wp_pure]
  split
  · exact throws _
  · exact returns _

end primitives

variable (env : Env)

/-- Nothing but the installed state has changed. -/
def OnlySigma (s after : WorkerState) : Prop := ∃ g n, after = { s with sigma := g, nativeCalls := n }

def SigmaState.withResidentB (g : SigmaState) (ctx : SigmaContext) : SigmaState :=
  if g.bUploaded then { g with deviceKey := some ctx.jobKey }
  else { g with deviceKey := some ctx.jobKey, deviceBSeed := some ctx.bSeed, bUploaded := true }

theorem installResidentBState_spec (ctx : SigmaContext) (s : WorkerState) : wp (installResidentBState env ctx)
      (fun _ after => ∃ n, after = { s with sigma := s.sigma.withResidentB ctx, nativeCalls := n }) (OnlySigma s) s := by
  simp only [installResidentBState, wp_bind, wp_modifySigma]
  refine wp_check (fun n => ⟨_, n, rfl⟩) fun _ => ?_
  refine wp_check (fun n => ⟨_, n, rfl⟩) fun _ => ?_
  refine wp_check (fun n => ⟨_, n, rfl⟩) fun n => ⟨n, ?_⟩
  simp only [SigmaState.withResidentB]

def SigmaState.withPowTarget (g : SigmaState) (half : Half) (nbits : UInt32) : SigmaState :=
  { g with powTargetNbits := Function.update g.powTargetNbits half nbits }

theorem installSigmaHalf_spec (half : Half) (ctx : SigmaContext) (s : WorkerState) :
    wp (installSigmaHalf env half ctx)
      (fun _ after => ∃ n, after = { s with sigma := s.sigma.withPowTarget half ctx.targetNbits, nativeCalls := n })
      (OnlySigma s) s := by
  simp only [installSigmaHalf, wp_bind, wp_modifySigma]
  refine wp_check (fun n => ⟨_, n, rfl⟩) fun _ => ?_
  refine wp_check (fun n => ⟨_, n, rfl⟩) fun _ => ?_
  exact wp_check (fun n => ⟨_, n, rfl⟩) fun n => ⟨n, rfl⟩

theorem retarget_spec (half : Half) (ctx : SigmaContext) (s : WorkerState) : wp (retarget env half ctx)
      (fun _ after => ∃ n, after = { s with sigma := s.sigma.withPowTarget half ctx.targetNbits, nativeCalls := n })
      (OnlySigma s) s := by
  simp only [retarget, wp_bind, wp_modifySigma]
  exact wp_check (fun n => ⟨_, n, rfl⟩) fun n => ⟨n, rfl⟩

theorem update_both {α : Type} (f : Half → α) (half : Half) (a : α) :
    Function.update (Function.update f half a) half.other a = fun _ => a := by
  funext h
  cases half <;> cases h <;> rfl

def SigmaState.install (g : SigmaState) (ctx : SigmaContext) : SigmaState :=
  if g.sameAsInstalled ctx then
    if g.installedTargetNbits = ctx.targetNbits then g
    else { g with powTargetNbits := fun _ => ctx.targetNbits, installedTargetNbits := ctx.targetNbits }
  else
    { (if g.installedBSeed = some ctx.bSeed then g
        else { g with installedBSeed := some ctx.bSeed, bUploaded := false }).withResidentB ctx with
      powTargetNbits := fun _ => ctx.targetNbits
      installedSigma := ctx.sigma
      installedJobKey := some ctx.jobKey
      installedAuditK := ctx.auditK
      installedTargetNbits := ctx.targetNbits }

def TreeState.install (t : TreeState) (g : SigmaState) (ctx : SigmaContext) : TreeState :=
  if g.sameAsInstalled ctx then t else retireBMerkleState env false t

theorem installSigma_spec (ctx : SigmaContext) (s : WorkerState) : wp (installSigma env ctx)
      (fun _ after => ∃ n, after =
        { s with sigma := s.sigma.install ctx, trees := s.trees.install env s.sigma ctx, nativeCalls := n })
      (fun after => ∃ g n, after = { s with sigma := g, trees := s.trees.install env s.sigma ctx, nativeCalls := n }) s := by
  simp only [installSigma, wp_bind, wp_get, wp_ite, wp_modifySigma, wp_modifyTrees, wp_pure, install]
  by_cases same : s.sigma.sameAsInstalled ctx = true
  · simp only [if_pos same]
    by_cases target : s.sigma.installedTargetNbits = ctx.targetNbits
    · simp only [if_pos target, SigmaState.install, if_pos same]
      exact ⟨s.nativeCalls, rfl⟩
    · simp only [if_neg target]
      refine wp_mono (retarget_spec env _ ctx s) ?_ fun _ thrown => thrown
      rintro _ _ ⟨_, rfl⟩
      refine wp_mono (retarget_spec env _ ctx _) ?_ ?_
      · rintro _ _ ⟨n, rfl⟩
        refine ⟨n, ?_⟩
        simp only [SigmaState.install, if_pos same, if_neg target, SigmaState.withPowTarget, update_both]
      · rintro _ ⟨g, n, rfl⟩
        exact ⟨g, n, rfl⟩
  -- a throw on the way leaves what was installed so far; the trees of the old sigma are gone by then
  · simp only [if_neg same]
    refine wp_mono (installResidentBState_spec env ctx _) ?_ ?_
    · rintro _ _ ⟨_, rfl⟩
      refine wp_mono (installSigmaHalf_spec env _ ctx _) ?_ ?_
      · rintro _ _ ⟨_, rfl⟩
        refine wp_mono (installSigmaHalf_spec env _ ctx _) ?_ ?_
        · rintro _ _ ⟨_, rfl⟩
          refine wp_check (fun n => ⟨_, n, rfl⟩) fun _ => ?_
          refine wp_check (fun n => ⟨_, n, rfl⟩) fun _ => ?_
          refine wp_check (fun n => ⟨_, n, rfl⟩) fun n => ⟨n, ?_⟩
          simp only [SigmaState.install, if_neg same, SigmaState.withPowTarget, update_both]
        · rintro _ ⟨g, n, rfl⟩
          exact ⟨g, n, rfl⟩
      · rintro _ ⟨g, n, rfl⟩
        exact ⟨g, n, rfl⟩
    · rintro _ ⟨g, n, rfl⟩
      exact ⟨g, n, rfl⟩

theorem startBMerkleBuild_spec (bSeed jobKey : Digest) (s : WorkerState) : wp (startBMerkleBuild env bSeed jobKey)
      (fun _ after => ∃ n, after = { s with trees := s.trees.start bSeed jobKey, nativeCalls := n })
      (fun after => ∃ n, after = { s with nativeCalls := n }) s := by
  simp only [startBMerkleBuild, wp_bind, wp_modifyTrees]
  exact wp_check (fun n => ⟨n, rfl⟩) fun n => ⟨n, rfl⟩

def queuedSlots (half : Half) (batchStart : UInt64) (batch : Nat) : List SlotEvent :=
  (List.range batch).map fun k => .queued half k (batchStart + k.toUInt64)

def scannedSlots (half : Half) (batchStart : UInt64) (k count : Nat) : List SlotEvent :=
  (List.range' k count).map fun k => .scanned half k (batchStart + k.toUInt64)

def BatchState.log (b : BatchState) (events : List SlotEvent) : BatchState := { b with slots := b.slots ++ events }

@[simp] theorem BatchState.log_nil (b : BatchState) : b.log [] = b := by simp [log]

@[simp] theorem BatchState.log_log (b : BatchState) (first second : List SlotEvent) :
    (b.log first).log second = b.log (first ++ second) := by simp [log]

theorem queueBatch_spec (half : Half) (batch : Nat) (batchStart : UInt64) (s : WorkerState) :
    wp (queueBatch env half batch batchStart) (fun _ after => ∃ n, after =
        { s with batches := s.batches.log (queuedSlots half batchStart batch), nativeCalls := n })
      (fun after => ∃ n, after = { s with nativeCalls := n }) s := by
  simp only [queueBatch, wp_bind, wp_modifyBatches]
  refine wp_check (fun n => ⟨n, rfl⟩) fun _ => ?_
  exact wp_check (fun n => ⟨n, rfl⟩) fun n => ⟨n, rfl⟩

def TreeState.ensured (t : TreeState) : TreeState :=
  match t.bMerkleTree, t.bMerkleTreeBuildTask with
  | none, some pending =>
    let settled := t.update pending (Build.settle (env.succeeds pending))
    if (settled.builds pending).status = .completed then
      { settled with bMerkleTreeBuildTask := none, bMerkleTree := some pending }
    else settled
  | _, _ => t

theorem ensureBMerkleTreeReady_spec (s : WorkerState) : wp (ensureBMerkleTreeReady env)
      (fun tree after => after = { s with trees := s.trees.ensured env } ∧ after.trees.bMerkleTree = some tree)
      (fun after => after = { s with trees := s.trees.ensured env }) s := by
  simp only [ensureBMerkleTreeReady, wp_bind, wp_get]
  unfold ensured
  cases ready : s.trees.bMerkleTree with
  | some tree => simp [ready]
  | none =>
    simp only [wp_bind, wp_get]
    cases task : s.trees.bMerkleTreeBuildTask with
    | none => simp
    | some pending =>
      simp only [wp_bind, wp_modifyTrees, wp_get, wp_ite, wp_pure, wp_throw]
      split <;> simp

def Ensures (t t' : TreeState) : Prop := t' = t ∨ t' = t.ensured env

theorem settle_settle (ok : Bool) (build : Build) : (build.settle ok).settle ok = build.settle ok := by
  cases status : build.status with
  | running =>
    cases ok <;> cases continuation : build.releaseOnCompletion <;>
      simp [Build.settle, status, continuation, Build.release]
  | completed | faulted => simp [Build.settle, status]

theorem ensured_ensured (t : TreeState) : (t.ensured env).ensured env = t.ensured env := by
  cases ready : t.bMerkleTree with
  | some tree => simp [ensured, ready]
  | none =>
    cases task : t.bMerkleTreeBuildTask with
    | none => simp [ensured, ready, task]
    | some pending =>
      by_cases completed : ((t.builds pending).settle (env.succeeds pending)).status = .completed
      · simp [ensured, ready, task, update, completed]
      · simp [ensured, ready, task, update, completed, settle_settle]

theorem Ensures.trans {t t' t'' : TreeState} (first : Ensures env t t') (second : Ensures env t' t'') : Ensures env t t'' := by
  rcases first with rfl | rfl
  · exact second
  · rcases second with rfl | rfl
    · exact .inr rfl
    · exact .inr (ensured_ensured env t)

/-- A trigger at most takes the tree over and hands a share over. -/
def Triggered (s after : WorkerState) : Prop :=
  ∃ t p n, Ensures env s.trees t ∧ after = { s with trees := t, payloads := p, nativeCalls := n }

theorem handleTrigger_spec (winSeed : UInt64) (s : WorkerState) :
    wp (handleTrigger env winSeed) (fun _ => Triggered env s) (Triggered env s) s := by
  simp only [handleTrigger, wp_bind, wp_modify]
  refine wp_check (fun n => ⟨_, _, n, .inl rfl, rfl⟩) fun _ => ?_
  refine wp_check (fun n => ⟨_, _, n, .inl rfl, rfl⟩) fun _ => ?_
  refine wp_mono (ensureBMerkleTreeReady_spec env _) ?_ ?_
  · rintro tree _ ⟨rfl, -⟩
    exact wp_check (fun n => ⟨_, _, n, .inr rfl, rfl⟩) fun n => ⟨_, _, n, .inr rfl, rfl⟩
  · rintro _ rfl
    exact ⟨_, _, _, .inr rfl, rfl⟩

section scan
variable (half : Half) (batchStart : UInt64) (hit : Nat → Bool)

theorem scannedSlots_succ (k count : Nat) : scannedSlots half batchStart k (count + 1) =
    .scanned half k (batchStart + k.toUInt64) :: scannedSlots half batchStart (k + 1) count := by
  simp [scannedSlots, List.range'_succ]

theorem scannedSlots_append (k m n : Nat) : scannedSlots half batchStart k (m + n) =
    scannedSlots half batchStart k m ++ scannedSlots half batchStart (k + m) n := by
  rw [scannedSlots, scannedSlots, scannedSlots, ← List.map_append, List.range'_append_1]

theorem scanHeaders_spec (count k : Nat) (s : WorkerState) : wp (scanHeaders half batchStart hit count k)
      (fun found after => ∃ seen ≤ count, after = { s with batches := s.batches.log (scannedSlots half batchStart k seen) } ∧
        (found = none ∧ seen = count ∨ found = some (k + seen - 1) ∧ 0 < seen)) (fun _ => False) s := by
  induction count generalizing k s with
  | zero =>
    refine ⟨0, le_refl 0, ?_, .inl ⟨rfl, rfl⟩⟩
    simp [scannedSlots]
  | succ count ih =>
    simp only [scanHeaders, wp_bind, wp_modifyBatches, wp_ite, wp_pure]
    split
    · exact ⟨1, by omega, by simp [scannedSlots, log], .inr ⟨rfl, by omega⟩⟩
    · refine wp_mono (ih (k + 1) _) ?_ fun _ no => no
      rintro found _ ⟨seen, bound, rfl, result⟩
      refine ⟨seen + 1, by omega, ?_, ?_⟩
      · rw [scannedSlots_succ]
        simp [log]
      · rcases result with ⟨rfl, rfl⟩ | ⟨rfl, positive⟩
        · exact .inl ⟨rfl, rfl⟩
        · exact .inr ⟨congrArg some (by omega), by omega⟩

theorem handleTriggersFrom_spec (batch rounds k : Nat) (enough : batch < k + rounds) (inside : k ≤ batch) (s : WorkerState) :
    wp (handleTriggersFrom env half batchStart hit batch rounds k)
      (fun _ => Triggered env { s with batches := s.batches.log (scannedSlots half batchStart k (batch - k)) })
      (fun _ => False) s := by
  induction rounds generalizing k s with
  | zero => omega
  | succ rounds ih =>
    simp only [handleTriggersFrom, wp_bind]
    refine wp_mono (scanHeaders_spec half batchStart hit (batch - k) k s) ?_ fun _ no => no
    rintro found _ ⟨seen, bound, rfl, ⟨rfl, rfl⟩ | ⟨rfl, positive⟩⟩
    · exact ⟨_, _, _, .inl rfl, rfl⟩
    · simp only [wp_bind, wp_tryCatch, wp_pure]
      -- whether the share is handed over or dropped, the scan goes on behind its slot
      have goesOn : ∀ after, Triggered env { s with batches := s.batches.log (scannedSlots half batchStart k seen) } after →
          wp (handleTriggersFrom env half batchStart hit batch rounds (k + seen - 1 + 1))
            (fun _ => Triggered env { s with batches := s.batches.log (scannedSlots half batchStart k (batch - k)) })
            (fun _ => False) after := by
        rintro after triggered
        rw [Nat.sub_add_cancel (by omega)]
        refine wp_mono (ih (k + seen) (by omega) (by omega) after) ?_ fun _ no => no
        intro _ final rest
        obtain ⟨t, p, n, ensures, rfl⟩ := triggered
        obtain ⟨t', p', n', ensures', rfl⟩ := rest
        refine ⟨t', p', n', ensures.trans env ensures', ?_⟩
        have split : batch - k = seen + (batch - (k + seen)) := by omega
        rw [split, scannedSlots_append]
        simp
      exact wp_mono (handleTrigger_spec env _ _) (fun _ => goesOn) goesOn

end scan

namespace BatchState

def drained (b : BatchState) : BatchState :=
  { b with globalIterIdx := b.globalIterIdx + b.inflight.toUInt64 }.log (scannedSlots b.ping b.globalIterIdx 0 b.inflight)

def requeued (b : BatchState) (size : Nat) : BatchState :=
  { b with inflight := size }.log (queuedSlots b.ping b.globalIterIdx size)

def pongSize : Nat := if env.disablePong then 0 else env.matmulsPerPoll

def pongQueued (b : BatchState) : BatchState :=
  b.log (queuedSlots b.ping.other (b.globalIterIdx + b.inflight.toUInt64) (pongSize env))

def mined (b : BatchState) : BatchState :=
  if pongSize env = 0 then b.drained.requeued b.inflight
  else { (b.pongQueued env).drained with ping := b.ping.other, inflight := pongSize env }

end BatchState

theorem drainPing_spec (hit : Nat → Bool) (s : WorkerState) :
    wp (drainPing env hit) (fun _ => Triggered env { s with batches := s.batches.drained })
      (fun after => ∃ n, after = { s with nativeCalls := n }) s := by
  simp only [drainPing, wp_bind, wp_get, wp_modifyBatches]
  refine wp_check (fun n => ⟨n, rfl⟩) fun _ => ?_
  refine wp_mono (handleTriggersFrom_spec env _ _ _ _ _ 0 (by omega) (by omega) _) ?_ fun _ no => no.elim
  rintro _ _ ⟨t, p, n, ensures, rfl⟩
  exact ⟨t, p, n, ensures, rfl⟩

theorem installAndQueue_spec (ctx : SigmaContext) (s : WorkerState) : wp (installAndQueue env ctx)
      (fun _ after => ∃ n, after = { s with
        sigma := s.sigma.install ctx
        trees := (s.trees.install env s.sigma ctx).start ctx.bSeed ctx.jobKey
        batches := s.batches.requeued env.matmulsPerPoll
        nativeCalls := n }) (fun after => ∃ g b n,
        (b.slots = s.batches.slots ∨ b.slots = (s.batches.requeued env.matmulsPerPoll).slots) ∧
        after = { s with sigma := g, trees := s.trees.install env s.sigma ctx, batches := b, nativeCalls := n }) s := by
  simp only [installAndQueue, startBMerkleForInstalledSigma, wp_bind, wp_get, wp_modifyBatches]
  refine wp_mono (installSigma_spec env ctx s) ?_ ?_
  · rintro _ _ ⟨_, rfl⟩
    refine wp_mono (queueBatch_spec env _ _ _ _) ?_ ?_
    · rintro _ _ ⟨_, rfl⟩
      refine wp_mono (startBMerkleBuild_spec env _ _ _) ?_ ?_
      · rintro _ _ ⟨n, rfl⟩
        exact ⟨n, rfl⟩
      · rintro _ ⟨n, rfl⟩
        exact ⟨_, _, n, .inr rfl, rfl⟩
    · rintro _ ⟨n, rfl⟩
      exact ⟨_, { s.batches with inflight := env.matmulsPerPoll }, n, .inl rfl, rfl⟩
  · rintro _ ⟨g, n, rfl⟩
    exact ⟨g, _, n, .inl rfl, rfl⟩

theorem rotate_spec (ctx : SigmaContext) (hit : Nat → Bool) (s : WorkerState) : wp (rotate env ctx hit)
      (fun _ after => ∃ t p n, Ensures env s.trees t ∧ after = { s with
        sigma := { s.sigma with seenJob := some ctx }.install ctx
        trees := (t.install env s.sigma ctx).start ctx.bSeed ctx.jobKey
        batches := s.batches.drained.requeued env.matmulsPerPoll
        payloads := p
        nativeCalls := n })
      (fun after => ∃ g t b p n, (t = s.trees ∨ ∃ ready, Ensures env s.trees ready ∧ t = ready.install env s.sigma ctx) ∧
        (b.slots = s.batches.slots ∨ b.slots = s.batches.drained.slots ∨
          b.slots = (s.batches.drained.requeued env.matmulsPerPoll).slots) ∧
        after = { s with sigma := g, trees := t, batches := b, payloads := p, nativeCalls := n }) s := by
  simp only [rotate, wp_bind, wp_modifySigma]
  refine wp_mono (drainPing_spec env hit _) ?_ ?_
  · rintro _ _ ⟨ready, p, _, ensures, rfl⟩
    refine wp_mono (installAndQueue_spec env ctx _) ?_ ?_
    · rintro _ _ ⟨n, rfl⟩
      exact ⟨ready, p, n, ensures, rfl⟩
    · rintro _ ⟨g, b, n, slots, rfl⟩
      exact ⟨g, _, b, p, n, .inr ⟨ready, ensures, rfl⟩, .inr slots, rfl⟩
  · rintro _ ⟨n, rfl⟩
    exact ⟨_, _, _, _, n, .inl rfl, .inl rfl, rfl⟩

theorem mine_spec (hit : Nat → Bool) (s : WorkerState) : wp (mine env hit)
      (fun _ after => ∃ t p n, Ensures env s.trees t ∧
        after = { s with trees := t, batches := s.batches.mined env, payloads := p, nativeCalls := n })
      (fun after => ∃ t b p n, Ensures env s.trees t ∧
        (b.slots = s.batches.slots ∨ b.slots = (s.batches.pongQueued env).slots ∨
          b.slots = (s.batches.pongQueued env).drained.slots) ∧
        after = { s with trees := t, batches := b, payloads := p, nativeCalls := n }) s := by
  have size : (if env.disablePong = true then 0 else env.matmulsPerPoll) = pongSize env := rfl
  simp only [mine, size, wp_bind, wp_get, wp_ite, wp_modifyBatches]
  by_cases some : 0 < pongSize env
  · simp only [if_pos some, if_neg (Nat.pos_iff_ne_zero.mp some)]
    refine wp_mono (queueBatch_spec env _ _ _ s) ?_ ?_
    · rintro _ _ ⟨_, rfl⟩
      refine wp_mono (drainPing_spec env hit _) ?_ ?_
      · rintro _ _ ⟨t, p, n, ensures, rfl⟩
        refine ⟨t, p, n, ensures, ?_⟩
        simp only [mined, if_neg (Nat.pos_iff_ne_zero.mp some), pongQueued]
        rfl
      · rintro _ ⟨n, rfl⟩
        exact ⟨_, _, _, n, .inl rfl, .inr (.inl rfl), rfl⟩
    · rintro _ ⟨n, rfl⟩
      exact ⟨_, _, _, n, .inl rfl, .inl rfl, rfl⟩
  -- without pong the next batch can only be queued after the ping has been drained
  · have zero : pongSize env = 0 := by omega
    have idle : s.batches.pongQueued env = s.batches := by simp [pongQueued, zero, queuedSlots]
    simp only [if_neg some, if_pos zero, idle]
    refine wp_mono (drainPing_spec env hit s) ?_ ?_
    · rintro _ _ ⟨t, p, _, ensures, rfl⟩
      refine wp_mono (queueBatch_spec env _ _ _ _) ?_ ?_
      · rintro _ _ ⟨n, rfl⟩
        refine ⟨t, p, n, ensures, ?_⟩
        simp only [mined, if_pos zero]
        rfl
      · rintro _ ⟨n, rfl⟩
        exact ⟨t, _, p, n, ensures, .inr (.inr rfl), rfl⟩
    · rintro _ ⟨n, rfl⟩
      exact ⟨_, _, _, n, .inl rfl, .inl rfl, rfl⟩

def TreesLeft (t t' : TreeState) : Prop :=
  ∃ ready, Ensures env t ready ∧ (t' = ready ∨ t' = retireBMerkleState env false ready)

theorem install_left {t ready : TreeState} (ensures : Ensures env t ready) (g : SigmaState) (ctx : SigmaContext) :
    TreesLeft env t (ready.install env g ctx) := by
  refine ⟨ready, ensures, ?_⟩
  unfold install
  split
  · exact .inl rfl
  · exact .inr rfl

inductive Stepped (s : WorkerState) : Event → WorkerState → Prop where
  | started {ctx : SigmaContext} {n : Nat} : s.phase = .fresh → Stepped s (.start ctx) { s with
      phase := .mining
      sigma := { s.sigma with seenJob := some ctx }.install ctx
      trees := (s.trees.install env s.sigma ctx).start ctx.bSeed ctx.jobKey
      batches := s.batches.requeued env.matmulsPerPoll
      nativeCalls := n }
  | rotated {ctx : SigmaContext} {hit : Nat → Bool} {t : TreeState} {p : List SharePayload} {n : Nat} :
      s.phase = .mining → Ensures env s.trees t → Stepped s (.rotate ctx hit) { s with
        phase := .mining
        sigma := { s.sigma with seenJob := some ctx }.install ctx
        trees := (t.install env s.sigma ctx).start ctx.bSeed ctx.jobKey
        batches := s.batches.drained.requeued env.matmulsPerPoll
        payloads := p
        nativeCalls := n }
  | mined {hit : Nat → Bool} {t : TreeState} {p : List SharePayload} {n : Nat} :
      s.phase = .mining → Ensures env s.trees t → Stepped s (.mine hit) { s with
        phase := .mining, trees := t, batches := s.batches.mined env, payloads := p, nativeCalls := n }
  | startFailed {ctx : SigmaContext} {g : SigmaState} {t : TreeState} {b : BatchState} {p : List SharePayload} {n : Nat} {why : Fault} :
      s.phase = .fresh → TreesLeft env s.trees t →
      (b.slots = s.batches.slots ∨ b.slots = (s.batches.requeued env.matmulsPerPoll).slots) →
      Stepped s (.start ctx) (stop env { s with
        lastFatal := some why, sigma := g, trees := t, batches := b, payloads := p, nativeCalls := n })
  | rotateFailed {ctx : SigmaContext} {hit : Nat → Bool} {g : SigmaState} {t : TreeState} {b : BatchState}
      {p : List SharePayload} {n : Nat} {why : Fault} : s.phase = .mining → TreesLeft env s.trees t →
      (b.slots = s.batches.slots ∨ b.slots = s.batches.drained.slots ∨
        b.slots = (s.batches.drained.requeued env.matmulsPerPoll).slots) →
      Stepped s (.rotate ctx hit) (stop env { s with
        lastFatal := some why, sigma := g, trees := t, batches := b, payloads := p, nativeCalls := n })
  | mineFailed {hit : Nat → Bool} {t : TreeState} {b : BatchState} {p : List SharePayload} {n : Nat} {why : Fault} :
      s.phase = .mining → TreesLeft env s.trees t →
      (b.slots = s.batches.slots ∨ b.slots = (s.batches.pongQueued env).slots ∨
        b.slots = (s.batches.pongQueued env).drained.slots) →
      Stepped s (.mine hit) (stop env { s with
        lastFatal := some why, trees := t, batches := b, payloads := p, nativeCalls := n })
  | cancelled : s.phase = .mining → Stepped s .cancel (stop env s)
  | settled {build : Nat} : build < s.trees.started → Stepped s (.settle build)
      { s with trees := s.trees.update build (Build.settle (env.succeeds build)) }

theorem finish_cases {action : Worker Unit} {post : Unit → WorkerState → Prop} {thrown : WorkerState → Prop}
    {s : WorkerState} (spec : wp action post thrown s) :
    (∃ after, post () after ∧ finish env action s = { after with phase := .mining }) ∨
      ∃ after why, thrown after ∧ finish env action s = stop env { after with lastFatal := some why } := by
  unfold wp at spec
  unfold finish
  cases result : exec action s with
  | mk outcome after =>
    rw [result] at spec
    cases outcome with
    | ok => exact .inl ⟨after, spec, rfl⟩
    | error why => exact .inr ⟨after, why, spec, rfl⟩

theorem step_cases {s next : WorkerState} {event : Event} (stepped : step env s event = some next) :
    Stepped env s event next := by
  cases event with
  | start ctx =>
    obtain ⟨fresh, stepped⟩ := ite_none_right_eq_some.mp stepped
    cases stepped
    have spec : wp (do modifySigma fun g => { g with seenJob := some ctx }; installAndQueue env ctx) _ _ s :=
      (wp_bind _ _).mpr ((wp_modifySigma _).mpr (installAndQueue_spec env ctx _))
    obtain ⟨_, ⟨n, rfl⟩, final⟩ | ⟨_, why, ⟨g, b, n, slots, rfl⟩, final⟩ := finish_cases env spec
    · rw [final]
      exact .started fresh
    · rw [final]
      exact .startFailed fresh (install_left env (.inl rfl) _ ctx) slots
  | rotate ctx hit =>
    obtain ⟨mining, stepped⟩ := ite_none_right_eq_some.mp stepped
    cases stepped
    obtain ⟨_, ⟨t, p, n, ensures, rfl⟩, final⟩ | ⟨_, why, ⟨g, t, b, p, n, trees, slots, rfl⟩, final⟩ :=
      finish_cases env (rotate_spec env ctx hit s)
    · rw [final]
      exact .rotated mining ensures
    · rw [final]
      refine .rotateFailed mining ?_ slots
      rcases trees with rfl | ⟨ready, ensures, rfl⟩
      · exact ⟨_, .inl rfl, .inl rfl⟩
      · exact install_left env ensures _ ctx
  | mine hit =>
    obtain ⟨mining, stepped⟩ := ite_none_right_eq_some.mp stepped
    cases stepped
    obtain ⟨_, ⟨t, p, n, ensures, rfl⟩, final⟩ | ⟨_, why, ⟨t, b, p, n, ensures, slots, rfl⟩, final⟩ :=
      finish_cases env (mine_spec env hit s)
    · rw [final]
      exact .mined mining ensures
    · rw [final]
      exact .mineFailed mining ⟨t, ensures, .inl rfl⟩ slots
  | cancel =>
    obtain ⟨mining, stepped⟩ := ite_none_right_eq_some.mp stepped
    cases stepped
    exact .cancelled mining
  | settle build =>
    obtain ⟨inside, stepped⟩ := ite_none_right_eq_some.mp stepped
    cases stepped
    exact .settled inside

def Env.smooth (matmulsPerPoll : Nat) : Env := ⟨matmulsPerPoll, false, fun _ => false, fun _ => true⟩

def zeroJob : SigmaContext where
  sigma := List.replicate 76 0
  commonDim := 4096
  rank := 128
  jobKey := Blake3.zeroKey
  bSeed := Blake3.zeroKey
  auditK := 1
  targetNbits := 0x207fffff
  blockHeight := 1

end ArcMiner.Prl.GpuWorker
