import Tfs.Ca.DeployAddress

/-! The chain of transactions of a contract (`TransactionCache::_ExecuteContracts`,
    `Evmone::ContractInfoAdd`).

    A call records, for every contract it has written to, the transaction that wrote to the contract
    before: the last one in the database, or an earlier call of its group. The local cache of the group
    holds that transaction for every contract; deployments neither record nor enter themselves. -/

namespace Tfs.Ca
open Tfs.Db Tfs.Evm

variable {φ : Type} (env : ExecEnv φ)

/-- The machine changes a host through its operations only, and calls a recipient's own code. -/
def RunsHost : Prop :=
  ∀ henv ctx code message host host' result,
    env.machine.execute henv ctx code message host = some (host', result) →
      ∃ ops, runOps henv ops host.host = some host'.host ∧ ∀ e ∈ opsEvents henv ops host.host, e.CallsOwn

/-- The executions of a group, as far as they succeed. -/
def executions (blockNumber : Int64) : ExecCaches → List CTransaction → List Execution
  | _, [] => []
  | caches, tx :: rest =>
    if ! isContractTransaction tx then []
    else
      match executeTx env blockNumber caches tx with
      | .error _ => []
      | .ok (execution, caches) => execution :: executions blockNumber caches rest

/-- The loop of `_ExecuteContracts` with `_AddContractInfoCache`; an exception ends it like an error. -/
def contractVm (blockNumber : Int64) : ContractVm ExecCaches ContractRecord where
  start := .start
  addContractInfo caches tx :=
    match executeTx env blockNumber caches tx with
    | .error (.ret ret) => .error ret
    | .error .exception => .error (-1)
    | .ok (execution, caches) => .ok (execution.record, caches)

/-- The contracts an execution wrote to and did not create. -/
def Execution.dirtied (e : Execution) : List Str :=
  match e.host with
  | none => []
  | some host =>
    match savedTries env host with
    | .error _ => []
    | .ok saved => calledContracts host.host saved

/-- The last of some executions that wrote to a contract, of those that count. -/
def lastDirtied (counts : CTransaction → Bool) (c : Str) (done : List Execution) : Option Str :=
  ((done.filter fun x => counts x.tx ∧ c ∈ x.dirtied env).getLast?).map fun x => x.tx.hash

/-- The entry of a contract that was written to after `last`. -/
def LinksTo (c prev : Str) : Option Str → Prop
  | none => env.db.getLatestUtxoByContractAddr c = .ok prev
  | some last => prev = last

/-- Every call records exactly the contracts it has written to, each with the transaction that wrote to it
    before. -/
def IsChain (counts : CTransaction → Bool) (es : List Execution) : Prop :=
  ∀ done e rest, es = done ++ e :: rest → e.tx.txType = kTxTypeCallContract → ∀ c,
    (c ∈ e.dirtied env → ∃ info prev, e.record.info = some info ∧ info.preHash c = some prev
      ∧ LinksTo env c prev (lastDirtied env counts c done))
    ∧ (c ∉ e.dirtied env → ∀ info, e.record.info = some info → info.preHash c = none)

/-- A call. -/
def isCall (tx : CTransaction) : Bool := tx.txType = kTxTypeCallContract

/-! ### One execution -/

variable {env} {blockNumber : Int64} {caches caches' : ExecCaches} {tx : CTransaction}

theorem makeListedHost_named {henv : HostEnv} {contractType : ContractType} {sender recipient : Str}
    {transferAmount : UInt64} {code : Str} {host : ListedHost}
    (h : makeListedHost henv contractType sender recipient transferAmount code = .ok host) :
    host.host.Named := by
  rw [makeListedHost] at h
  split at h
  · cases h
  · rename_i h₀ hmake
    cases h
    exact makeHost_named hmake

theorem executeByEvmone_named (hmachine : RunsHost env) {henv : HostEnv} {ctx : TxContext} {code : Str}
    {message : Message} {host : ListedHost} {r : ListedHost × Str} (hnamed : host.host.Named)
    (h : executeByEvmone env henv ctx code message host = .ok r) : r.1.host.Named := by
  rw [executeByEvmone] at h
  split at h
  · cases h
  · cases h
  · split at h
    · cases h
    · rename_i host' result hrun
      split_ifs at h
      cases h
      obtain ⟨ops, hops, hown⟩ := hmachine _ _ _ _ _ _ _ hrun
      exact run_named hnamed hown (runOps_events ops _ _ hops)

/-- The tries of the host the machine leaves are named after their addresses. -/
theorem runPrepared_named (hmachine : RunsHost env) {henv : HostEnv} {prepared : Prepared}
    {r : ListedHost × Str} (h : runPrepared env henv blockNumber prepared = .ok (some r)) :
    r.1.host.Named := by
  cases prepared with
  | notEvm => cases h
  | deploy fromAddr code contractAddress blockTimestamp blockPrevRandao =>
    obtain ⟨r', h, hr⟩ := map_eq_ok.mp h
    cases hr
    rw [Exit.recode_eq_ok] at h
    obtain ⟨host, hmake, h⟩ := bind_eq_ok.mp h
    obtain ⟨message, -, h⟩ := bind_eq_ok.mp h
    obtain ⟨r', hrun, h⟩ := bind_eq_ok.mp h
    obtain ⟨_, -, h⟩ := bind_eq_ok.mp h
    cases h
    exact executeByEvmone_named hmachine (makeListedHost_named (Exit.recode_eq_ok.mp hmake))
      (Exit.recode_eq_ok.mp hrun)
  | call fromAddr input contractTransfer contractAddress contractCode blockTimestamp blockPrevRandao =>
    obtain ⟨r', h, hr⟩ := map_eq_ok.mp h
    cases hr
    rw [Exit.recode_eq_ok] at h
    obtain ⟨host, hmake, h⟩ := bind_eq_ok.mp h
    obtain ⟨_, -, h⟩ := bind_eq_ok.mp h
    obtain ⟨message, -, h⟩ := bind_eq_ok.mp h
    exact executeByEvmone_named hmachine (makeListedHost_named (Exit.recode_eq_ok.mp hmake))
      (Exit.recode_eq_ok.mp h)

/-- The contracts that are called are among the names of the accounts. -/
theorem savedTries_names {host : ListedHost} {saved : List (Str × Tfs.Mpt.BlockStorage)}
    (h : savedTries env host = .ok saved) :
    saved.map Prod.fst = host.accounts.map fun e => e.2.storageRoot.contractAddr := by
  have hlist : ∀ (l : List (Address × TfsAccount)) {saved : List (Str × Tfs.Mpt.BlockStorage)},
      (l.mapM fun account => do
        let saved ← savedTrie env account.2
        (.ok (account.2.storageRoot.contractAddr, saved) : Except Exit _)) = .ok saved →
      saved.map Prod.fst = l.map fun e => e.2.storageRoot.contractAddr := by
    intro l
    induction l with
    | nil =>
      intro saved h
      cases h
      rfl
    | cons account l ih =>
      intro saved h
      rw [List.mapM_cons] at h
      obtain ⟨entry, hentry, h⟩ := bind_eq_ok.mp h
      obtain ⟨rest, hrest, h⟩ := bind_eq_ok.mp h
      obtain ⟨s, -, hentry⟩ := bind_eq_ok.mp hentry
      cases h
      cases hentry
      rw [List.map_cons, List.map_cons, ih hrest]
  exact hlist _ h

/-- The link of a contract comes from the cache, or else from the database, and the transaction takes its
    place in the cache. -/
theorem getAndUpdateContractPreHash_spec {db : DBReader} {c hash prev : Str}
    {preHashes preHashes' : StdMap Str Str}
    (h : getAndUpdateContractPreHash db c hash preHashes = (prev, preHashes')) (hne : prev ≠ []) :
    preHashes' = preHashes.set c hash ∧ match preHashes c with
      | none => db.getLatestUtxoByContractAddr c = .ok prev
      | some last => prev = last := by
  rw [getAndUpdateContractPreHash] at h
  cases hcached : preHashes c with
  | some last =>
    rw [hcached] at h
    cases h
    exact ⟨rfl, rfl⟩
  | none =>
    rw [hcached] at h
    cases hdb : db.getLatestUtxoByContractAddr c with
    | error e =>
      rw [hdb] at h
      cases h
      exact absurd rfl hne
    | ok latest =>
      rw [hdb] at h
      simp only at h
      split_ifs at h
      · cases h
        exact absurd rfl hne
      · cases h
        exact ⟨rfl, rfl⟩

/-- One turn of the loop. -/
theorem addPreHashes_cons {c : Str} {rest : List Str} {items preHashes : StdMap Str Str}
    {r : StdMap Str Str × StdMap Str Str} (h : addPreHashes env tx (c :: rest) items preHashes = .ok r) :
    c ≠ [] ∧ ∃ prev, LinksTo env c prev (preHashes c)
      ∧ addPreHashes env tx rest (items.set c prev) (preHashes.set c tx.hash) = .ok r := by
  rw [addPreHashes] at h
  by_cases hempty : c = []
  · rw [if_pos hempty] at h
    cases h
  rw [if_neg hempty] at h
  by_cases hversion : tx.version = env.kCurrentTransactionVersion
  · rw [if_pos hversion] at h
    rcases hget : getAndUpdateContractPreHash env.db c tx.hash preHashes with ⟨prev, preHashes'⟩
    rw [hget] at h
    simp only at h
    by_cases hnone : prev = []
    · rw [if_pos hnone] at h
      cases h
    · rw [if_neg hnone] at h
      obtain ⟨rfl, hlink⟩ := getAndUpdateContractPreHash_spec hget hnone
      refine ⟨hempty, prev, ?_, h⟩
      cases hcached : preHashes c <;> rw [hcached] at hlink <;> exact hlink
  · rw [if_neg hversion] at h
    cases h

/-- The loop links every contract once, and leaves the others alone. -/
theorem addPreHashes_spec : ∀ {addresses : List Str} {items preHashes : StdMap Str Str}
    {r : StdMap Str Str × StdMap Str Str}, addPreHashes env tx addresses items preHashes = .ok r →
      (∀ c ∈ addresses, c ≠ []) ∧ (addresses.Nodup → ∀ c,
        (c ∈ addresses → r.2 c = some tx.hash ∧ ∃ prev, r.1 c = some prev ∧ LinksTo env c prev (preHashes c))
        ∧ (c ∉ addresses → r.2 c = preHashes c ∧ r.1 c = items c))
  | [], items, preHashes, r, h => by
    cases h
    exact ⟨by simp, fun _ c => ⟨fun hc => absurd hc List.not_mem_nil, fun _ => ⟨rfl, rfl⟩⟩⟩
  | a :: rest, items, preHashes, r, h => by
    obtain ⟨hne, prev, hlink, h⟩ := addPreHashes_cons h
    obtain ⟨hnes, hspec⟩ := addPreHashes_spec h
    refine ⟨fun c hc => ?_, fun hnodup c => ?_⟩
    · rcases List.mem_cons.mp hc with rfl | hc
      · exact hne
      · exact hnes c hc
    · obtain ⟨ha, hnodup⟩ := List.nodup_cons.mp hnodup
      obtain ⟨hin, hout⟩ := hspec hnodup c
      by_cases hca : c = a
      · subst hca
        obtain ⟨hpre, hitem⟩ := hout ha
        rw [StdMap.set_self] at hpre hitem
        exact ⟨fun _ => ⟨hpre, prev, hitem, hlink⟩, fun hc => absurd List.mem_cons_self hc⟩
      · rw [StdMap.set_ne _ _ hca] at hin hout
        rw [StdMap.set_ne _ _ hca] at hout
        rw [List.mem_cons, or_iff_right hca]
        exact ⟨hin, hout⟩

theorem executeTx_tx {e : Execution} (h : executeTx env blockNumber caches tx = .ok (e, caches')) :
    e.tx = tx := by
  obtain ⟨prepared, -, h⟩ := bind_eq_ok.mp h
  obtain ⟨run, -, h⟩ := bind_eq_ok.mp h
  cases run with
  | none =>
    obtain ⟨_, -, h⟩ := bind_eq_ok.mp h
    cases h
    rfl
  | some r =>
    obtain ⟨added, -, h⟩ := bind_eq_ok.mp h
    obtain ⟨_, -, h⟩ := bind_eq_ok.mp h
    cases h
    rfl

/-- What an execution does to the links. -/
structure Executed (env : ExecEnv φ) (caches : ExecCaches) (tx : CTransaction) (e : Execution)
    (caches' : ExecCaches) : Prop where
  linked : isCall tx = true → ∀ c,
    (c ∈ e.dirtied env → caches'.contractPreHashCache c = some tx.hash
      ∧ ∃ info prev, e.record.info = some info ∧ info.preHash c = some prev
        ∧ LinksTo env c prev (caches.contractPreHashCache c))
    ∧ (c ∉ e.dirtied env → caches'.contractPreHashCache c = caches.contractPreHashCache c
      ∧ ∀ info, e.record.info = some info → info.preHash c = none)
  kept : isCall tx = false → caches'.contractPreHashCache = caches.contractPreHashCache

/-- The names of the accounts that were written to are different when the loop comes to its end. -/
theorem calledContracts_nodup {host : ListedHost} {saved : List (Str × Tfs.Mpt.BlockStorage)}
    (hnamed : host.host.Named) (hsaved : savedTries env host = .ok saved)
    (hne : ∀ c ∈ calledContracts host.host saved, c ≠ []) : (calledContracts host.host saved).Nodup := by
  have hsub : (calledContracts host.host saved).Sublist
      (host.accounts.map fun e => e.2.storageRoot.contractAddr) := by
    rw [← savedTries_names hsaved]
    exact List.filter_sublist.map _
  have hall : (calledContracts host.host saved).filter (fun c => c ≠ [])
      = calledContracts host.host saved := List.filter_eq_self.mpr fun c hc => by simpa using hne c hc
  rw [← hall]
  refine (hsub.filter fun c => c ≠ []).nodup ?_
  have hnodup := host.names_nodup hnamed
  rwa [List.filter_map]

/-- One execution. -/
theorem executeTx_spec (hmachine : RunsHost env) (hkind : isContractTransaction tx = true) {e : Execution}
    (h : executeTx env blockNumber caches tx = .ok (e, caches')) : Executed env caches tx e caches' := by
  obtain ⟨prepared, -, h⟩ := bind_eq_ok.mp h
  obtain ⟨run, hrun, h⟩ := bind_eq_ok.mp h
  cases run with
  | none =>
    obtain ⟨_, -, h⟩ := bind_eq_ok.mp h
    cases h
    exact ⟨fun _ c => ⟨fun hc => absurd hc List.not_mem_nil, fun _ => ⟨rfl, by simp⟩⟩, fun _ => rfl⟩
  | some r =>
    obtain ⟨host, output⟩ := r
    have hnamed := runPrepared_named hmachine hrun
    obtain ⟨⟨info, preHashes⟩, hadd, h⟩ := bind_eq_ok.mp h
    obtain ⟨_, -, h⟩ := bind_eq_ok.mp h
    cases h
    rw [Exit.recode_eq_ok] at hadd
    obtain ⟨saved, hsaved, hadd⟩ := bind_eq_ok.mp hadd
    obtain ⟨⟨items, preHashes'⟩, hitems, hadd⟩ := bind_eq_ok.mp hadd
    obtain ⟨destruction, -, hadd⟩ := bind_eq_ok.mp hadd
    cases hadd
    refine ⟨fun hcall c => ?_, fun hdeploy => ?_⟩
    · have hnot : tx.txType ≠ kTxTypeDeployContract := by
        intro hd
        rw [isCall, hd] at hcall
        exact absurd hcall (by decide)
      rw [preHashItems, if_neg hnot] at hitems
      have hdirtied : ∀ record, (⟨tx, some host, record⟩ : Execution).dirtied env
          = calledContracts host.host saved := fun record => by
        simp only [Execution.dirtied, hsaved]
      rw [hdirtied]
      obtain ⟨hne, hspec⟩ := addPreHashes_spec hitems
      obtain ⟨hin, hout⟩ := hspec (calledContracts_nodup hnamed hsaved hne) c
      refine ⟨fun hc => ?_, fun hc => ?_⟩
      · obtain ⟨hpre, prev, hprev, hlink⟩ := hin hc
        exact ⟨hpre, _, prev, rfl, hprev, hlink⟩
      · obtain ⟨hpre, hnone⟩ := hout hc
        refine ⟨hpre, fun info hinfo => ?_⟩
        cases hinfo
        exact hnone
    · have hd : tx.txType = kTxTypeDeployContract := by
        simp only [isContractTransaction, decide_eq_true_eq] at hkind
        exact hkind.resolve_left (by simpa [isCall] using hdeploy)
      rw [preHashItems, if_pos hd] at hitems
      cases hitems
      rfl

/-! ### A group -/

variable (env) in
theorem lastDirtied_concat (counts : CTransaction → Bool) (c : Str) (done : List Execution) (e : Execution) :
    lastDirtied env counts c (done ++ [e])
      = if counts e.tx ∧ c ∈ e.dirtied env then some e.tx.hash else lastDirtied env counts c done := by
  by_cases h : counts e.tx = true ∧ c ∈ e.dirtied env
  · simp [lastDirtied, List.filter_append, h]
  · rw [lastDirtied, List.filter_append, List.filter_singleton, if_neg h]
    have hfalse : decide (counts e.tx = true ∧ c ∈ e.dirtied env) = false := by simpa using h
    rw [hfalse, lastDirtied]
    simp

/-- Once the cache holds the last call of every contract, it goes on to do so, and the links are right. -/
theorem executions_isChain (hmachine : RunsHost env) : ∀ {txs : List CTransaction} {caches : ExecCaches}
    {before : List Execution}, (∀ c, caches.contractPreHashCache c = lastDirtied env isCall c before) →
    ∀ done e rest, executions env blockNumber caches txs = done ++ e :: rest →
      e.tx.txType = kTxTypeCallContract → ∀ c,
        (c ∈ e.dirtied env → ∃ info prev, e.record.info = some info ∧ info.preHash c = some prev
          ∧ LinksTo env c prev (lastDirtied env isCall c (before ++ done)))
        ∧ (c ∉ e.dirtied env → ∀ info, e.record.info = some info → info.preHash c = none)
  | [], caches, before, _, done, e, rest, hsplit, _ => by
    rw [executions] at hsplit
    exact absurd hsplit.symm (by simp)
  | tx :: txs, caches, before, hcache, done, e, rest, hsplit, hcall => by
    rw [executions] at hsplit
    split at hsplit
    · exact absurd hsplit.symm (by simp)
    rename_i hkind
    split at hsplit
    · exact absurd hsplit.symm (by simp)
    rename_i execution caches' hexec
    have hspec := executeTx_spec hmachine (by simpa using hkind) hexec
    have htx := executeTx_tx hexec
    cases done with
    | nil =>
      obtain ⟨rfl, -⟩ := List.cons.inj hsplit
      intro c
      rw [List.append_nil, ← hcache c]
      rw [htx] at hcall
      obtain ⟨hin, hout⟩ := hspec.linked (by simp [isCall, hcall]) c
      exact ⟨fun hc => (hin hc).2, fun hc => (hout hc).2⟩
    | cons first done =>
      obtain ⟨rfl, hafter⟩ := List.cons.inj hsplit
      have hnext : ∀ c, caches'.contractPreHashCache c = lastDirtied env isCall c (before ++ [execution]) := by
        intro c
        rw [lastDirtied_concat, htx]
        by_cases hcalls : isCall tx = true
        · obtain ⟨hin, hout⟩ := hspec.linked hcalls c
          by_cases hc : c ∈ execution.dirtied env
          · rw [if_pos ⟨hcalls, hc⟩, (hin hc).1]
          · rw [if_neg fun h => hc h.2, (hout hc).1, hcache c]
        · rw [if_neg fun h => hcalls h.1, hspec.kept (by simpa using hcalls), hcache c]
      have hrest := executions_isChain hmachine hnext done e rest hafter hcall
      rwa [List.append_assoc, List.singleton_append] at hrest

/-- The entry of an execution. -/
def Execution.entry (e : Execution) : Str × ContractInfoEntry ContractRecord := (e.tx.hash, (e.record, e.tx.time))

/-- What a group leaves in the cache are the entries of its executions. -/
theorem executeContracts_cache : ∀ (txs : List CTransaction) (caches : ExecCaches)
    (cache : StdMap Str (ContractInfoEntry ContractRecord)),
    (executeContracts (contractVm env blockNumber) caches txs cache).2
      = addEntries cache ((executions env blockNumber caches txs).map Execution.entry)
  | [], _, _ => rfl
  | tx :: rest, caches, cache => by
    rw [executeContracts, executions]
    split_ifs
    · rfl
    · cases hexec : executeTx env blockNumber caches tx with
      | error e => cases e <;> simp [contractVm, hexec, addEntries]
      | ok r =>
        obtain ⟨execution, caches'⟩ := r
        have htx : execution.tx = tx := executeTx_tx hexec
        simp only [contractVm, hexec, List.map_cons, addEntries, List.foldl_cons]
        rw [← contractVm, executeContracts_cache rest caches', Execution.entry, htx]
        rfl

/-- The executions are of transactions of the group, in its order. -/
theorem executions_sublist : ∀ (txs : List CTransaction) (caches : ExecCaches),
    ((executions env blockNumber caches txs).map Execution.tx).Sublist txs
  | [], _ => List.Sublist.refl _
  | tx :: rest, caches => by
    rw [executions]
    split
    · exact List.nil_sublist _
    · split
      · exact List.nil_sublist _
      · rename_i execution caches' hexec
        rw [List.map_cons, executeTx_tx hexec]
        exact (executions_sublist rest caches').cons_cons tx

/-- What a group of contract transactions records is in the cache, and links every contract a call has
    written to to the call that wrote to it before. -/
theorem preHashes_isChain (env : ExecEnv φ) (hmachine : RunsHost env) (blockNumber : Int64) (txs : ContractTxs)
    (contractInfoCache : StdMap Str (ContractInfoEntry ContractRecord)) :
    (∀ e ∈ executions env (blockNumber + 1) .start txs.elems,
      (executeContracts (contractVm env (blockNumber + 1)) .start txs.elems contractInfoCache).2 e.tx.hash
        = some (e.record, e.tx.time))
    ∧ IsChain env isCall (executions env (blockNumber + 1) .start txs.elems) := by
  constructor
  · intro e he
    rw [executeContracts_cache]
    refine @addEntries_of_mem _ e.entry _ _ ?_ (List.mem_map_of_mem he)
    have hsub : ((executions env (blockNumber + 1) .start txs.elems).map Execution.tx).Sublist txs.elems :=
      executions_sublist txs.elems .start
    replace hsub := hsub.map CTransaction.hash
    rw [List.map_map] at hsub ⊢
    exact hsub.nodup (nodup_hashes txs)
  · intro done e rest hsplit hcall c
    have hstart : ∀ c, ExecCaches.start.contractPreHashCache c = lastDirtied env isCall c [] := fun _ => rfl
    have h := executions_isChain hmachine hstart done e rest hsplit hcall c
    rwa [List.nil_append] at h

/-! A call, a deployment whose constructor calls, and another call, all of one contract. -/

/-- The contract that stores its input in its first slot, and its code. -/
def storeContract : Str := List.replicate 40 49
def storeCode : Str := str "60003560005500"

/-- A word. -/
def storeWord (b : UInt8) : Str := List.replicate 31 0 ++ [b]

/-- A constructor that calls the contract with the word 2 and returns a byte. -/
def callerCode : Str :=
  str "60026000526000600060206000600073" ++ storeContract ++ str "5af15060016000f3"

/-- What the machine does for the two codes: a store, and a call that runs the first code. -/
def storeOps (addr : Address) (input : Str) : List HostOp :=
  let value := wordOf (Rlp.toHex input)
  [.accessStorage addr Bytes32.zero, .setStorage addr Bytes32.zero value]
def callerOps (self : Address) : List HostOp :=
  let addr := stringToEvmAddr storeContract
  let input := storeWord 2
  [.accountAccess addr,
    .call ⟨.call, addr, self, input, 0, Bytes32.zero, addr⟩ (storeOps addr input) ⟨.success, []⟩]

/-- A run of operations at one account. -/
def runAt (henv : HostEnv) (addr : Address) (ops : List HostOp) (host : ListedHost) : Option ListedHost :=
  match hrun : runOps henv ops host.host with
  | none => none
  | some h' =>
    if hat : (∀ e ∈ opsEvents henv ops host.host, e.OnlyAt addr)
        ∧ ∀ e ∈ opsEvents henv ops host.host, e.CallsOwn then
      some (host.add addr h' (run_adds hat.1 (runOps_events ops _ _ hrun)))
    else none

/-- The machine, as far as these codes go. -/
def storeMachine : Machine where
  created := some true
  execute henv _ code message host :=
    if code = stringTobytes storeCode then
      (runAt henv message.recipient (storeOps message.recipient message.input) host).map
        fun host => (host, ⟨.success, []⟩)
    else if code = stringTobytes callerCode then
      (runAt henv (stringToEvmAddr storeContract) (callerOps message.recipient) host).map
        fun host => (host, ⟨.success, [0]⟩)
    else none

theorem runAt_runs {henv : HostEnv} {addr : Address} {ops : List HostOp} {host host' : ListedHost}
    (h : runAt henv addr ops host = some host') :
    runOps henv ops host.host = some host'.host ∧ ∀ e ∈ opsEvents henv ops host.host, e.CallsOwn := by
  rw [runAt] at h
  split at h
  · cases h
  · rename_i h' hrun
    split_ifs at h with hat
    cases h
    rw [ListedHost.add_host]
    exact ⟨hrun, hat.2⟩

/-- What the two calls and the deployment say. -/
def txInfoText (input recipient : Str) (randao : ℕ) : Str :=
  str "\x7b\"TxInfo\":\x7b\"blockPrevRandao\":" ++ decimal randao
    ++ str ",\"blockTimestamp\":1700000000,\"input\":\"" ++ input ++ str "\",\"recipient\":\"" ++ recipient
    ++ str "\",\"sender\":\"" ++ deployerText ++ str "\",\"transfer\":0,\"virtualMachine\":0\x7d\x7d"

def txInfoJson (input recipient : Str) (randao : ℕ) : Json ℚ :=
  .object [(str "TxInfo", .object [(str "blockPrevRandao", .number randao),
    (str "blockTimestamp", .number 1700000000), (str "input", .string input),
    (str "recipient", .string recipient), (str "sender", .string deployerText),
    (str "transfer", .number 0), (str "virtualMachine", .number 0)])]

/-- Input, recipient and random number of the three. -/
def groupInputs : List (Str × Str × ℕ) :=
  [(Rlp.toHex (storeWord 1), storeContract, 195), (callerCode, firstContract, 199),
    (Rlp.toHex (storeWord 3), storeContract, 203)]

/-- A transaction of the deployer that spends one output. -/
def groupTx (hash : String) (txType : UInt32) (output : String) (info : Str × Str × ℕ) : CTransaction :=
  { CTransaction.cleared with
    version := 1
    hash := str hash
    txType := txType
    data := txInfoText info.1 info.2.1 info.2.2
    utxo := { CTxUtxo.cleared with vin := [⟨[⟨str output, 0⟩], some ⟨[], str "pub"⟩, 0, []⟩] } }

/-- The group. -/
def storeGroup : ContractTxs where
  elems := [groupTx "1" kTxTypeCallContract "ab" (groupInputs.getD 0 default),
    groupTx "2" kTxTypeDeployContract "cd" (groupInputs.getD 1 default),
    groupTx "3" kTxTypeCallContract "ef" (groupInputs.getD 2 default)]
  sorted := by decide

/-- The text of the leaf that holds a word in the first slot. -/
def leafText (b : UInt8) : Str :=
  Mpt.hexEncode Rlp.rlp (.short (Mpt.wapperKey (Rlp.toHex Bytes32.zero.1)) (.value (Rlp.toHex (storeWord b)))
    Mpt.newFlag)

/-- The deployer's world with the contract, which transaction `0` has called last, and SHA-256 of the leaves. -/
def storeEnv : ExecEnv ℚ :=
  { deployEnv with
    db := ⟨fun key =>
      if key = kAddress2BalanceKey ++ deployerText then .found (str "100000")
      else if key = kContractAddr2ContractCode ++ storeContract then .found storeCode
      else if key = kContractAddr2LatestUtxo ++ storeContract then .found (str "0")
      else .notFound⟩
    machine := storeMachine
    getsha256hash text :=
      if text = leafText 1 then str "c01239305328283aac3ad1e23665c13e98fd16b0b05c492b209a439da928da18"
      else if text = leafText 2 then str "f44ea78efc2f1e1c96823f0e5d27095705cd52e4cc5a58c3bb470cedf4b1be8e"
      else str "237f2d638d8884da034e484c51936c7b09620604d570bbe38df0a327ce2fbbe5"
    keccak256Crypt s :=
      if s = storeContract then str "2d6ca42d0b5f46b311277710cd2dcf95bd59948e0957e7e167ebbf11ac592fc3"
      else if s = firstContract.map toLower then
        str "38b962879cbdf3780c54741e40ba180f7ef54cf922b09d1300f911a1bc0d024d"
      else str "8a0d5e01dcac053a0d5c5ffdcc487e89a18e5c476a45904b01443b2ecc644825"
    contractRootHash contractDataCache := fun contractAddr =>
      some ((contractDataCache (Mpt.mptKey contractAddr (str "rootHash"))).getD [])
    parse s := (groupInputs.find? fun e => txInfoText e.1 e.2.1 e.2.2 = s).map
      fun e => txInfoJson e.1 e.2.1 e.2.2
    dirtyContractMap := ((StdMap.empty.set (str "1") [storeContract]).set (str "2")
      [storeContract, firstContract]).set (str "3") [storeContract] }

theorem storeEnv_runsHost : RunsHost storeEnv := by
  intro henv ctx code message host host' result h
  simp only [storeEnv, storeMachine] at h
  split_ifs at h
  · obtain ⟨host₁, hrun, heq⟩ := Option.map_eq_some_iff.mp h
    cases heq
    exact ⟨_, runAt_runs hrun⟩
  · obtain ⟨host₁, hrun, heq⟩ := Option.map_eq_some_iff.mp h
    cases heq
    exact ⟨_, runAt_runs hrun⟩

/-- Of an execution: the transaction, what it wrote to, and the link of the contract. -/
def summary (e : Execution) : Str × UInt32 × List Str × Option (Option Str) :=
  (e.tx.hash, e.tx.txType, e.dirtied storeEnv, e.record.info.map fun info => info.preHash storeContract)

/-- All three are executed; the second call is linked to the first. -/
theorem storeGroup_run : (executions storeEnv (0 + 1) .start storeGroup.elems).map summary
    = [(str "1", kTxTypeCallContract, [storeContract], some (some (str "0"))),
      (str "2", kTxTypeDeployContract, [storeContract], some none),
      (str "3", kTxTypeCallContract, [storeContract], some (some (str "1")))] := by decide +kernel

theorem preHashes_isChain_group :
    IsChain storeEnv isCall (executions storeEnv (0 + 1) .start storeGroup.elems)
      ∧ (executions storeEnv (0 + 1) .start storeGroup.elems).length = 3 :=
  ⟨(preHashes_isChain storeEnv storeEnv_runsHost 0 storeGroup .empty).2,
    (List.length_map _).symm.trans (congrArg List.length storeGroup_run)⟩

/-- The deployment has written to the contract after the first call. -/
theorem deployment_not_linked :
    ¬ IsChain storeEnv (fun _ => true) (executions storeEnv (0 + 1) .start storeGroup.elems) := by
  intro hchain
  obtain ⟨e₁, es, hes, -, hrun⟩ := List.map_eq_cons_iff.mp storeGroup_run
  obtain ⟨e₂, es', rfl, h₂, hrun⟩ := List.map_eq_cons_iff.mp hrun
  obtain ⟨e₃, es'', rfl, h₃, -⟩ := List.map_eq_cons_iff.mp hrun
  simp only [summary, Prod.mk.injEq] at h₂ h₃
  obtain ⟨hhash₂, -, hdirtied₂, -⟩ := h₂
  obtain ⟨-, htype₃, hdirtied₃, hlink₃⟩ := h₃
  have hmem : ∀ {l : List Str}, l = [storeContract] → storeContract ∈ l := fun h => by simp [h]
  obtain ⟨info, prev, hinfo, hprev, hlink⟩ :=
    (hchain [e₁, e₂] e₃ es'' hes htype₃ storeContract).1 (hmem hdirtied₃)
  have hlast : lastDirtied storeEnv (fun _ => true) storeContract [e₁, e₂] = some (str "2") := by
    have h := lastDirtied_concat storeEnv (fun _ => true) storeContract [e₁] e₂
    rw [if_pos ⟨rfl, hmem hdirtied₂⟩, hhash₂] at h
    exact h
  rw [hlast] at hlink
  rw [hinfo, Option.map_some, hprev, Option.some_inj, Option.some_inj] at hlink₃
  rw [hlink] at hlink₃
  exact absurd hlink₃ (by decide)

end Tfs.Ca
