import Tfs.Ca.TransactionCache
import Tfs.Ca.BroadcastPool

/-! What a saved block sets going (`BlockHelper::PostSaveProcess`).

    Two kinds of blocks wait for a block: those that name it as predecessor, in `_pendingBlocks`, and
    contract blocks that build on one of its contract transactions, in `_contractBlocks`. The loop for
    the second kind goes on only with a transaction that is a call and a deployment at once, so it
    always stops at the first one. -/

namespace Tfs.Ca

/-! ### The calls -/

/-- The calls of `PostSaveProcess` for a block that waits. -/
inductive PostSaveCall where
  | saveBlock (block : CBlock)
  | addPendingBlock (block : CBlock)
  deriving DecidableEq

/-- Where `PostSaveProcess` is: the database, the waiting blocks, and the calls made so far. -/
structure PostSave (δ : Type) where
  db : δ
  pendingBlocks : SortedMap ℕ (List (Str × CBlock))
  contractBlocks : List (Str × CBlock)
  calls : List PostSaveCall

/-- At its start. -/
def PostSave.start {δ : Type} (db : δ) (h : BlockHelper) : PostSave δ :=
  ⟨db, h.pendingBlocks, h.contractBlocks, []⟩

variable {δ : Type} (env : HelperEnv δ) (saveBlock : δ → CBlock → δ)

/-- `SaveBlock` as `Broadcast`: what it leaves of the database is given. It changes neither of the two
    containers, unless its own call of `PostSaveProcess` does. -/
def PostSave.save (s : PostSave δ) (block : CBlock) : PostSave δ :=
  { s with db := saveBlock s.db block, calls := s.calls ++ [.saveBlock block] }

/-- The blocks in `_pendingBlocks` that name the block as predecessor. -/
def successors (pendingBlocks : SortedMap ℕ (List (Str × CBlock))) (block : CBlock) : List CBlock :=
  (((pendingBlocks.find (block.height + 1).toUInt64.toNat).getD []).filter fun e => e.1 = block.hash).map
    Prod.snd

/-- The loop over the transactions; the flag is unset where it makes `PostSaveProcess` return. -/
def wakeContractBlocks : List CTransaction → PostSave δ → PostSave δ × Bool
  | [], s => (s, true)
  | tx :: txs, s =>
    if tx.txType ≠ kTxTypeCallContract ∨ tx.txType ≠ kTxTypeDeployContract then (s, true)
    else match s.contractBlocks.find? fun e => e.1 = tx.hash with
      | none => wakeContractBlocks txs s
      | some (_, contractBlock) =>
        let r := checkContractBlock env s.db s.contractBlocks contractBlock
        let s := { s with db := r.db, contractBlocks := r.contractBlocks }
        if r.ret < 0 then (s, true)
        else if r.ret = 0 then
          if r.contractTxPreHash ≠ [] then (s, true)
          else match env.getBlockByBlockHash s.db contractBlock.prevHash with
            | none =>
              ({ s with
                  pendingBlocks := addPendingBlock env s.db s.pendingBlocks contractBlock
                  calls := s.calls ++ [.addPendingBlock contractBlock] }, false)
            | some _ => wakeContractBlocks txs (s.save saveBlock contractBlock)
        else wakeContractBlocks txs s

/-- `BlockHelper::PostSaveProcess`, up to `PostMembershipCancellationProcess`, which calls neither of
    the two; the flag says whether it gets there. -/
def postSaveProcess (db : δ) (h : BlockHelper) (block : CBlock) : PostSave δ × Bool :=
  wakeContractBlocks env saveBlock block.txs
    ((successors h.pendingBlocks block).foldl (PostSave.save saveBlock) (.start db h))

/-! ### Which blocks are woken -/

variable {env saveBlock}

/-- No transaction is a call and a deployment at once. -/
theorem wakeContractBlocks_eq (txs : List CTransaction) (s : PostSave δ) :
    wakeContractBlocks env saveBlock txs s = (s, true) := by
  cases txs with
  | nil => rfl
  | cons tx txs =>
    rw [wakeContractBlocks, if_pos]
    by_contra hno
    rw [not_or, not_not, not_not] at hno
    exact absurd (hno.1.symm.trans hno.2) (by decide)

theorem foldl_save_calls : ∀ (blocks : List CBlock) (s : PostSave δ),
    (blocks.foldl (PostSave.save saveBlock) s).calls = s.calls ++ blocks.map .saveBlock
  | [], s => (List.append_nil _).symm
  | block :: blocks, s => by
    rw [List.foldl_cons, foldl_save_calls blocks, PostSave.save, List.map_cons, List.append_assoc]
    rfl

/-- The calls are those for the blocks that name the saved one as predecessor. -/
theorem postSaveProcess_calls (db : δ) (h : BlockHelper) (block : CBlock) :
    (postSaveProcess env saveBlock db h block).1.calls = (successors h.pendingBlocks block).map .saveBlock := by
  rw [postSaveProcess, wakeContractBlocks_eq, foldl_save_calls]
  rfl

/-- The contract block waits for a contract transaction of the block, and no longer has to: the check
    finds no previous hash missing. -/
def ReadyAfter (env : HelperEnv δ) (db : δ) (h : BlockHelper) (block waiting : CBlock) : Prop :=
  (∃ tx ∈ block.txs, (tx.txType = kTxTypeCallContract ∨ tx.txType = kTxTypeDeployContract) ∧
    (tx.hash, waiting) ∈ h.contractBlocks) ∧
  (checkContractBlock env db h.contractBlocks waiting).ret = 0 ∧
  (checkContractBlock env db h.contractBlocks waiting).contractTxPreHash = []

/-- `PostSaveProcess` calls `SaveBlock` or `AddPendingBlock` for every contract block that is ready. -/
def WakesReady (env : HelperEnv δ) (saveBlock : δ → CBlock → δ) (db : δ) (h : BlockHelper)
    (block : CBlock) : Prop :=
  ∀ waiting, ReadyAfter env db h block waiting →
    .saveBlock waiting ∈ (postSaveProcess env saveBlock db h block).1.calls ∨
      .addPendingBlock waiting ∈ (postSaveProcess env saveBlock db h block).1.calls

/-- Every contract block that is ready is woken exactly when each of them also waits for the saved block
    as its predecessor. -/
theorem wakes_ready_iff (env : HelperEnv δ) (saveBlock : δ → CBlock → δ) (db : δ) (h : BlockHelper)
    (block : CBlock) : WakesReady env saveBlock db h block ↔
      ∀ waiting, ReadyAfter env db h block waiting →
        (block.hash, waiting) ∈ (h.pendingBlocks.find (block.height + 1).toUInt64.toNat).getD [] := by
  have hwoken (waiting : CBlock) : (.saveBlock waiting ∈ (postSaveProcess env saveBlock db h block).1.calls ∨
      .addPendingBlock waiting ∈ (postSaveProcess env saveBlock db h block).1.calls) ↔
      (block.hash, waiting) ∈ (h.pendingBlocks.find (block.height + 1).toUInt64.toNat).getD [] := by
    rw [postSaveProcess_calls]
    simp [successors]
  rw [WakesReady]
  exact forall_congr' fun waiting => imp_congr_right fun _ => hwoken waiting

/-- A contract block waits for the only transaction of the saved block, and nothing is missing any more:
    it is not woken. -/
theorem contract_block_not_woken :
    let env : HelperEnv Unit := { sampleHelperEnv with parseData := fun _ => some [] }
    let waiting := sampleBlock "w" 7 200
    let saved : CBlock := { sampleBlock "b" 6 100 with
      txs := [{ CTransaction.cleared with hash := str "t", txType := kTxTypeCallContract }] }
    let h : BlockHelper := { BlockHelper.fresh with contractBlocks := addContractBlock [] waiting (str "t") }
    ReadyAfter env () h saved waiting ∧ ¬ WakesReady env (fun _ _ => ()) () h saved := by
  intro env waiting saved h
  have hready : ReadyAfter env () h saved waiting := by
    refine ⟨⟨_, List.mem_singleton_self _, .inl rfl, ?_⟩, by decide, by decide⟩
    exact List.mem_singleton_self _
  refine ⟨hready, fun hwakes => ?_⟩
  have hcalls : (postSaveProcess env (fun _ _ => ()) () h saved).1.calls = [] := by decide
  rcases hwakes waiting hready with hcall | hcall <;> rw [hcalls] at hcall <;> cases hcall

end Tfs.Ca
