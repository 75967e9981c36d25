import Tfs.Ca.BlockHelper
import Tfs.Lib.Runs

/-! The transactions that wait to be packaged (`TransactionCache::AddCache` in `ca/transaction_cache.cpp`,
    `Checker::CheckConflict` in `ca/checker.cpp`).

    Contract transactions wait in one cache and all others in another one. A transaction that arrives
    is compared with the cache it goes to, and only with that one: so two transactions that spend the
    same input are never both held in one cache, but one of each kind may be. -/

namespace Tfs.Ca

/-- `TransactionEntity`: a transaction and the height that came with it (`_height` of a contract
    transaction, `_txUtxoHeight` of any other). -/
structure TransactionEntity where
  transaction : CTransaction
  height : UInt64
  deriving DecidableEq

/-- `kTxTypeDeployContract` and `kTxTypeCallContract`. -/
def kTxTypeDeployContract : UInt32 := 7
def kTxTypeCallContract : UInt32 := 8

/-- `isContractTransaction` in `AddCache`. -/
def isContractTransaction (transaction : CTransaction) : Bool :=
  transaction.txType = kTxTypeCallContract ∨ transaction.txType = kTxTypeDeployContract

/-- The two caches of `TransactionCache`, each with transactions of its kind only. -/
structure TransactionCache where
  transactionCache : List TransactionEntity
  contractCache : List TransactionEntity
  ordinary : ∀ e ∈ transactionCache, isContractTransaction e.transaction = false
  contract : ∀ e ∈ contractCache, isContractTransaction e.transaction = true

/-- Both caches at the start. -/
def TransactionCache.empty : TransactionCache := ⟨[], [], by simp, by simp⟩

/-- The heights in a `TxMsgInfo`. -/
structure TxMsgHeights where
  nodeHeight : UInt64
  txUtxoHeight : UInt64
  deriving DecidableEq

section

variable {δ : Type} (env : HelperEnv δ)

/-- `Checker::CheckConflict(tx, cache)`. -/
def checkConflictCache (tx : CTransaction) (cache : List TransactionEntity) : Bool :=
  cache.any fun txEntity => checkConflictTx env txEntity.transaction tx

/-- `TransactionCache::AddCache`; waking the thread that builds blocks is left out. -/
def TransactionCache.addCache (c : TransactionCache) (transaction : CTransaction) (msg : TxMsgHeights) :
    ℤ × TransactionCache :=
  if hkind : isContractTransaction transaction = true then
    if checkConflictCache env transaction c.contractCache then (-1, c)
    else (0, { c with
      contractCache := c.contractCache ++ [⟨transaction, msg.nodeHeight⟩]
      contract := by simpa [or_imp, forall_and, hkind] using c.contract })
  else
    if checkConflictCache env transaction c.transactionCache then (-2, c)
    else (0, { c with
      transactionCache := c.transactionCache ++ [⟨transaction, msg.txUtxoHeight⟩]
      ordinary := by simpa [or_imp, forall_and, hkind] using c.ordinary })

/-- What happens to the caches: a transaction arrives, the thread that builds blocks or
    `ProcessContract` clears its cache, or `RemoveContractsCacheTransaction` takes transactions out. -/
inductive CacheAction where
  | addCache (transaction : CTransaction) (msg : TxMsgHeights)
  | clearTransactions
  | clearContracts
  | removeContractsCacheTransaction (contractTxs : List Str)

/-- One step. -/
def TransactionCache.step (c : TransactionCache) : CacheAction → TransactionCache
  | .addCache transaction msg => (c.addCache env transaction msg).2
  | .clearTransactions => { c with transactionCache := [], ordinary := by simp }
  | .clearContracts => { c with contractCache := [], contract := by simp }
  | .removeContractsCacheTransaction contractTxs =>
    { c with
      contractCache := c.contractCache.filter fun e => e.transaction.hash ∉ contractTxs
      contract := fun e he => c.contract e (List.mem_filter.mp he).1 }

/-! ### What is held -/

/-- The inputs of a transaction: previous hash and signer. -/
def spentInputs (tx : CTransaction) : List (Str × Str) :=
  tx.utxo.vin.flatMap fun vin => vin.prevOut.map fun prevout =>
    (prevout.hash, env.generateAddr (vinPub vin))

/-- Two transactions spend the same input. -/
def SpendSameInput (tx1 tx2 : CTransaction) : Prop := ∃ input ∈ spentInputs env tx1, input ∈ spentInputs env tx2

instance (tx1 tx2 : CTransaction) : Decidable (SpendSameInput env tx1 tx2) :=
  inferInstanceAs (Decidable (∃ _ ∈ _, _))

/-- The transactions of both caches. -/
def TransactionCache.held (c : TransactionCache) : List CTransaction :=
  (c.transactionCache ++ c.contractCache).map TransactionEntity.transaction

/-- No two of the transactions held spend the same input. -/
def NoneSpendSameInput (c : TransactionCache) : Prop :=
  ∀ tx1 ∈ c.held, ∀ tx2 ∈ c.held, tx1 ≠ tx2 → ¬ SpendSameInput env tx1 tx2

instance (c : TransactionCache) : Decidable (NoneSpendSameInput env c) :=
  inferInstanceAs (Decidable (∀ _ ∈ _, _))

/-- The cache a transaction goes to, and the other one. -/
def TransactionCache.own (c : TransactionCache) (tx : CTransaction) : List TransactionEntity :=
  if isContractTransaction tx then c.contractCache else c.transactionCache
def TransactionCache.other (c : TransactionCache) (tx : CTransaction) : List TransactionEntity :=
  if isContractTransaction tx then c.transactionCache else c.contractCache

/-- A transaction that its own cache lets in spends no input of a transaction in the other cache. -/
def ApartFromOther (c : TransactionCache) : CacheAction → Prop
  | .addCache tx _ =>
    checkConflictCache env tx (c.own tx) = false →
      ∀ txEntity ∈ c.other tx, ¬ SpendSameInput env txEntity.transaction tx
  | _ => True

variable {env}

theorem spentUtxos_eq (tx : CTransaction) :
    spentUtxos env tx = (spentInputs env tx).map fun input => input.1 ++ str "_" ++ input.2 := by
  simp [spentUtxos, spentInputs, List.map_flatMap, Function.comp_def]

/-- `CheckConflict` misses no common input. -/
theorem not_spendSameInput {tx1 tx2 : CTransaction} (h : checkConflictTx env tx1 tx2 = false) :
    ¬ SpendSameInput env tx1 tx2 := by
  rintro ⟨input, h1, h2⟩
  have hnone : ∀ utxo ∈ spentUtxos env tx1, utxo ∉ spentUtxos env tx2 := by
    simpa [checkConflictTx] using h
  refine hnone (input.1 ++ str "_" ++ input.2) ?_ ?_
  · rw [spentUtxos_eq]
    exact List.mem_map_of_mem h1
  · rw [spentUtxos_eq]
    exact List.mem_map_of_mem h2

theorem not_spendSameInput_of_cache {tx : CTransaction} {cache : List TransactionEntity}
    (h : checkConflictCache env tx cache = false) :
    ∀ e ∈ cache, ¬ SpendSameInput env e.transaction tx := by
  rw [checkConflictCache, List.any_eq_false] at h
  exact fun e he => not_spendSameInput (by simpa using h e he)

theorem SpendSameInput.symm {tx1 tx2 : CTransaction} (h : SpendSameInput env tx1 tx2) :
    SpendSameInput env tx2 tx1 := by
  obtain ⟨input, h1, h2⟩ := h
  exact ⟨input, h2, h1⟩

namespace TransactionCache

/-- What is held is held in one cache or in the other. -/
theorem mem_held (c : TransactionCache) (tx : CTransaction) {tx' : CTransaction} :
    tx' ∈ c.held ↔ (∃ e ∈ c.own tx, e.transaction = tx') ∨ ∃ e ∈ c.other tx, e.transaction = tx' := by
  unfold held own other
  split_ifs <;> simp [or_comm]

/-- A transaction in the other cache is another one. -/
theorem ne_of_mem_other {c : TransactionCache} {tx : CTransaction} {e : TransactionEntity}
    (he : e ∈ c.other tx) : e.transaction ≠ tx := by
  rintro rfl
  unfold other at he
  split_ifs at he with hkind
  · cases (c.ordinary e he).symm.trans hkind
  · exact hkind (c.contract e he)

variable (env) in
/-- A call that is refused changes nothing; any other one adds the transaction. -/
theorem addCache_held (c : TransactionCache) (tx : CTransaction) (msg : TxMsgHeights) :
    (checkConflictCache env tx (c.own tx) = true ∧ (c.addCache env tx msg).2 = c) ∨
    checkConflictCache env tx (c.own tx) = false ∧
      ∀ tx', tx' ∈ (c.addCache env tx msg).2.held ↔ tx' ∈ c.held ∨ tx' = tx := by
  unfold addCache own
  split_ifs with hkind hconf hconf
  · exact .inl ⟨hconf, rfl⟩
  · refine .inr ⟨by simpa using hconf, fun tx' => ?_⟩
    simp [held, or_assoc, eq_comm]
  · exact .inl ⟨hconf, rfl⟩
  · refine .inr ⟨by simpa using hconf, fun tx' => ?_⟩
    simp only [held, List.map_append, List.mem_append, List.map_cons, List.map_nil, List.mem_singleton]
    tauto

/-- Taking transactions out brings no two together. -/
theorem noneSpendSameInput_of_sublist {c c' : TransactionCache} (h : NoneSpendSameInput env c)
    (htransactions : c'.transactionCache.Sublist c.transactionCache)
    (hcontracts : c'.contractCache.Sublist c.contractCache) : NoneSpendSameInput env c' := by
  have hsub : c'.held ⊆ c.held :=
    ((htransactions.append hcontracts).map TransactionEntity.transaction).subset
  exact fun tx1 h1 tx2 h2 => h tx1 (hsub h1) tx2 (hsub h2)

/-- Only a transaction that shares an input with one in the other cache brings two together. -/
theorem addCache_noneSpendSameInput_iff {c : TransactionCache} (h : NoneSpendSameInput env c)
    (tx : CTransaction) (msg : TxMsgHeights) :
    NoneSpendSameInput env (c.addCache env tx msg).2 ↔ ApartFromOther env c (.addCache tx msg) := by
  rcases c.addCache_held env tx msg with ⟨hconf, hsame⟩ | ⟨hconf, hheld⟩
  · rw [hsame]
    exact iff_of_true h fun hfree => by cases hconf.symm.trans hfree
  · constructor
    · rintro hnone - e he
      have hin : e.transaction ∈ c.held := (c.mem_held tx).mpr (.inr ⟨e, he, rfl⟩)
      exact hnone e.transaction ((hheld _).mpr (.inl hin)) tx ((hheld _).mpr (.inr rfl)) (ne_of_mem_other he)
    · intro hapart
      have hnew : ∀ tx' ∈ c.held, ¬ SpendSameInput env tx' tx := by
        intro tx' htx'
        rcases (c.mem_held tx).mp htx' with ⟨e, he, rfl⟩ | ⟨e, he, rfl⟩
        · exact not_spendSameInput_of_cache hconf e he
        · exact hapart hconf e he
      intro tx1 h1 tx2 h2 hne
      rcases (hheld tx1).mp h1 with hold1 | rfl <;> rcases (hheld tx2).mp h2 with hold2 | rfl
      · exact h tx1 hold1 tx2 hold2 hne
      · exact hnew tx1 hold1
      · exact fun hs => hnew tx2 hold2 hs.symm
      · exact absurd rfl hne

/-- One step brings no two transactions together exactly when it keeps the caches apart. -/
theorem step_noneSpendSameInput_iff (c : TransactionCache) (a : CacheAction) (h : NoneSpendSameInput env c) :
    NoneSpendSameInput env (c.step env a) ↔ ApartFromOther env c a := by
  cases a with
  | addCache tx msg => exact addCache_noneSpendSameInput_iff h tx msg
  | clearTransactions =>
    exact iff_of_true (noneSpendSameInput_of_sublist h (List.nil_sublist _) (.refl _)) trivial
  | clearContracts =>
    exact iff_of_true (noneSpendSameInput_of_sublist h (.refl _) (List.nil_sublist _)) trivial
  | removeContractsCacheTransaction contractTxs =>
    exact iff_of_true (noneSpendSameInput_of_sublist h (.refl _) List.filter_sublist) trivial

end TransactionCache

/-- All along a run, no two transactions held spend the same input exactly when no transaction that its
    own cache lets in spends an input of a transaction in the other cache. -/
theorem noneSpendSameInput_iff_apartFromOther (env : HelperEnv δ) (acts : List CacheAction) :
    (∀ done, done <+: acts → NoneSpendSameInput env (done.foldl (TransactionCache.step env) .empty)) ↔
      EveryStep (TransactionCache.step env) (ApartFromOther env) .empty acts :=
  always_iff_everyStep (fun c a h => c.step_noneSpendSameInput_iff a h) fun tx1 h1 => by cases h1

end

/-! Two transactions of one signer that spend the same output, one of them a contract call. -/

/-- A transaction of type `txType` that spends the output `prevHash`. -/
def spendingTx (txType : UInt32) (hash prevHash : String) : CTransaction :=
  { CTransaction.cleared with
    hash := str hash
    txType := txType
    utxo := { CTxUtxo.cleared with vin := [⟨[⟨str prevHash, 0⟩], some ⟨[], str "pub"⟩, 0, []⟩] } }

/-- Nothing but the address of the signer matters. -/
def cacheEnv : HelperEnv Unit where
  getTransactionType _ := .tx
  isContractBlock _ := false
  generateAddr _ := str "5b38da6a701c568545dcfcb03fcb875f56beddc4"
  parseBlock _ := none
  parseData _ := none
  getBlockTop _ := none
  getBlockByBlockHash _ _ := none
  getLatestUtxoByContractAddr _ _ := none
  getBlockHashByTransactionHash _ _ := none
  getBlockHashesByBlockHeight _ _ _ := none
  getBlocksByBlockHash _ _ := none
  rollBackByHash _ _ := (0, ())

/-- Both are held at the same time. -/
theorem caches_hold_same_input :
    ¬ NoneSpendSameInput cacheEnv
      ([CacheAction.addCache (spendingTx 1 "pay" "utxo") ⟨9, 8⟩,
        .addCache (spendingTx kTxTypeCallContract "call" "utxo") ⟨9, 8⟩].foldl
          (TransactionCache.step cacheEnv) .empty) := by decide

end Tfs.Ca
