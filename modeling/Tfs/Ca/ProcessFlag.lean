import Tfs.Ca.HelperProcess
import Tfs.Lib.EarlyExit

/-! The flag of `BlockHelper::Process` (`ca/block_helper.cpp`), with every way out of the function.

    A call sets the flag and resets it in a guard on its scope, which is put there only after the height of the
    node has been read. A call that cannot read it leaves the flag set, and no later call does anything. -/

namespace Tfs.Ca
open EarlyExit

/-! ### The ways out -/

/-- The loop over `_syncBlocks` returns from `Process`: `_stopBlocking` is not set before one of its calls of
    `SaveBlock`. -/
def syncReturns (p : ProcessMeets) (syncType : SaveType) : ℕ → List CBlock → Bool
  | _, [] => false
  | i, block :: blocks =>
    if ! p.stopBlocking i then true
    else if (saveBlock (p.sync i) block syncType .normal).ret ≠ 0 then false
    else syncReturns p syncType (i + 1) blocks

/-- The statements of `Process` before `ON_SCOPE_EXIT`. -/
def beforeGuard (p : ProcessMeets) : List (HelperState → HelperState × Bool) :=
  [fun s => (s, s.processing),
    fun s => ({ s with processing := true }, false),
    fun s => (s, p.top.isNone)]

/-- `ON_SCOPE_EXIT`. -/
def onScopeExit (s : HelperState) : HelperState :=
  { s with toWaitingSets := .empty, rollbackBlocks := .empty, processing := false }

/-- The statements behind it. The loops over the broadcast and the pending blocks, which come last, return
    nowhere. -/
def behindGuard (info : ContractInfo) (p : ProcessMeets) : List (Stmt HelperState) :=
  [.set fun s => { s with rollbackBlocks := dropNoTimeout p.nowTime s.rollbackBlocks },
    .returnIf fun s => ! (info.rollbackBlocks p s.rollbackBlocks).2,
    .returnIf fun _ => ! p.chainHeight,
    .returnIf fun s => (saveFast p (p.top.getD 0) s.syncType 0 s.fastSyncBlocks.elems).2,
    .set fun s => { s with utxoMissingBlocks := [] },
    .returnIf fun s => syncReturns p s.syncType 0 s.syncBlocks.elems]

/-- `BlockHelper::Process`, statement by statement. -/
def processScope (info : ContractInfo) (p : ProcessMeets) : List (Stmt HelperState) :=
  (beforeGuard p).map .run ++ .guard onScopeExit :: behindGuard info p

variable {info : ContractInfo} {p : ProcessMeets}

/-- Statement by statement, a call leaves the helper as described for it as a whole. -/
theorem runScope_processScope (s : HelperState) : runScope (processScope info p) s = (s.process info p).1 := by
  rw [processScope, runScope_map_run, HelperState.process]
  rcases hproc : s.processing with _ | _
  · rcases htop : p.top with _ | nodeHeight
    · simp [beforeGuard, runAll, hproc, htop]
    · -- the guard overwrites all that the statements behind it leave, except the missing blocks
      rcases hrollback : (info.rollbackBlocks p (dropNoTimeout p.nowTime s.rollbackBlocks)).2 with _ | _
      · simp [beforeGuard, runAll, behindGuard, HelperState.processCalls, onScopeExit, hproc, htop, hrollback]
      · rcases hchain : p.chainHeight with _ | _
        · simp [beforeGuard, runAll, behindGuard, HelperState.processCalls, onScopeExit, hproc, htop, hrollback, hchain]
        · rcases hfast : (saveFast p nodeHeight s.syncType 0 s.fastSyncBlocks.elems).2 with _ | _
          · simp [beforeGuard, runAll, behindGuard, HelperState.processCalls, onScopeExit, hproc, htop, hrollback, hchain,
              hfast]
          · simp [beforeGuard, runAll, behindGuard, HelperState.processCalls, onScopeExit, hproc, htop, hrollback, hchain,
              hfast]
  · simp [beforeGuard, runAll, hproc]

/-- A call leaves the flag reset when it found it so and could read the height of the node. -/
theorem processing_processScope (s : HelperState) :
    (runScope (processScope info p) s).processing = false ↔ s.processing = false ∧ p.top.isSome := by
  rw [processScope, runScope_behind_guard (P := fun s : HelperState => s.processing = false) fun _ => rfl]
  rcases hproc : s.processing with _ | _
  · rcases htop : p.top with _ | nodeHeight
    · simp [beforeGuard, runAll, hproc, htop]
    · simp [beforeGuard, runAll, hproc, htop]
  · simp [beforeGuard, runAll, hproc]

/-! ### Runs -/

/-- The step of a run that calls `Process` runs its statements. -/
theorem HelperRun.step_process_helper (r : HelperRun) :
    (r.step info (.process p)).helper = runScope (processScope info p) r.helper := by
  rw [runScope_processScope, step]
  split
  · next helper hproc => rw [hproc]
  · next helper calls hproc => rw [hproc]

/-- One step keeps the flag reset unless it is a call that cannot read the height of the node. -/
theorem HelperRun.processing_step (r : HelperRun) (a : HelperAction) (h : r.helper.processing = false) :
    (r.step info a).helper.processing = false ↔ ∀ p, a = .process p → p.top.isSome := by
  cases a with
  | process p =>
    rw [step_process_helper, processing_processScope, and_iff_right h]
    exact ⟨fun htop p' heq => by cases heq; exact htop, fun hall => hall p rfl⟩
  | addSyncBlock data type => exact iff_of_true h fun p heq => by cases heq
  | addFastSyncBlock data type => exact iff_of_true h fun p heq => by cases heq
  | addRollbackBlock data => exact iff_of_true h fun p heq => by cases heq
  | addMissingBlock block => exact iff_of_true h fun p heq => by cases heq

/-- Once a call has left the flag set, it stays set. -/
theorem HelperRun.stays_wedged {r : HelperRun} (h : r.helper.processing = true) : ∀ acts : List HelperAction,
    (acts.foldl (HelperRun.step info) r).helper.processing = true
  | [] => h
  | a :: acts => by
    refine stays_wedged ?_ acts
    cases a with
    | process p => simp [step, HelperState.process, h]
    | addSyncBlock data type => exact h
    | addFastSyncBlock data type => exact h
    | addRollbackBlock data => exact h
    | addMissingBlock block => exact h

/-- The flag is reset whenever no call of `Process` is under way, so that the next call does its work. -/
def NeverWedged (info : ContractInfo) (acts : List HelperAction) : Prop :=
  ∀ done, done <+: acts → (HelperRun.run info done).helper.processing = false

/-- A run never wedges `Process` when each call of it can read the height of the node. -/
theorem never_wedged_iff (info : ContractInfo) (acts : List HelperAction) :
    NeverWedged info acts ↔ ∀ p, HelperAction.process p ∈ acts → p.top.isSome := by
  have hiff : NeverWedged info acts ↔ EveryStep (HelperRun.step info) (fun _ a => ∀ p, a = .process p → p.top.isSome) .start acts :=
    always_iff_everyStep (P := fun r : HelperRun => r.helper.processing = false) HelperRun.processing_step rfl
  rw [hiff, everyStep_const]
  exact ⟨fun hall p hp => hall _ hp p rfl, fun hall a ha p heq => hall p (heq ▸ ha)⟩

/-- The height of the node cannot be read once, and the flag is left set. -/
theorem wedged_by_failed_read :
    ¬ NeverWedged noContracts [.process { processMeets savesUnverified 0 with top := none }] := by
  intro h
  cases h _ List.prefix_rfl

end Tfs.Ca
