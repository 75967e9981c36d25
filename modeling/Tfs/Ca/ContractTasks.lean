import Tfs.Ca.TransactionCache

/-! The executions a packager starts (`TransactionCache::DealContractTransaction`, `_ExecuteContracts`,
    `AddContractInfoCache` and `RemoveContractInfoCacheTransaction` in `ca/transaction_cache.cpp`).

    The transactions of a group are executed one after the other by a task of their own, while other
    tasks verify them. Once the results of all verifications are there, the results of every group with
    a transaction that failed are erased, and what is left of the group is executed again. Nobody waits
    for the first execution of such a group, which may go on writing results meanwhile.

    The verifications write nothing that is modelled here, so their results are given; a step is one
    transaction executed by a task, or one call made by the thread that started them. -/

namespace Tfs.Ca

/-! ### Executions -/

/-- `std::map<std::string, CTransaction>`, from the hash of a transaction to it. -/
abbrev ContractTxs := StdSet fun a b : CTransaction => a.hash < b.hash

/-- The entry of `_contractInfoCache` for a transaction: the JSON and the time. -/
abbrev ContractInfoEntry (ι : Type) := ι × UInt64

/-- What `_AddContractInfoCache` computes for a transaction before it adds its result to the cache, given
    and leaving the two local caches of `_ExecuteContracts`, and these caches at the start. -/
structure ContractVm (ε ι : Type) where
  start : ε
  addContractInfo : ε → CTransaction → Except ℤ (ι × ε)

variable {ε ι : Type} (vm : ContractVm ε ι)

/-- `TransactionCache::_ExecuteContracts`, from any point on: what it returns and the cache afterwards. -/
def executeContracts : ε → List CTransaction → StdMap Str (ContractInfoEntry ι) →
    (ℤ × Str) × StdMap Str (ContractInfoEntry ι)
  | _, [], cache => ((0, []), cache)
  | caches, tx :: rest, cache =>
    if ! isContractTransaction tx then ((-1, tx.hash), cache)
    else match vm.addContractInfo caches tx with
      | .error _ => ((-1, tx.hash), cache)
      | .ok (info, caches') => executeContracts caches' rest (cache.set tx.hash (info, tx.time))

/-- The result of executing transactions, and no others. -/
def executionResult (txs : ContractTxs) : StdMap Str (ContractInfoEntry ι) :=
  (executeContracts vm vm.start txs.elems .empty).2

/-- An execution under way: its transactions, those still to be executed, its local caches, what it has
    written so far, and what it has returned. -/
structure ExecTask (ε ι : Type) where
  txs : ContractTxs
  rest : List CTransaction
  caches : ε
  written : List (Str × ContractInfoEntry ι)
  ret : Option (ℤ × Str)

/-- An execution that has not begun yet. -/
def ExecTask.fresh (txs : ContractTxs) : ExecTask ε ι := ⟨txs, txs.elems, vm.start, [], none⟩

/-- The next step of an execution, and what it writes. -/
def ExecTask.advance (t : ExecTask ε ι) : ExecTask ε ι × Option (Str × ContractInfoEntry ι) :=
  if t.ret.isSome then (t, none)
  else match t.rest with
    | [] => ({ t with ret := some (0, []) }, none)
    | tx :: rest =>
      if ! isContractTransaction tx then ({ t with ret := some (-1, tx.hash) }, none)
      else match vm.addContractInfo t.caches tx with
        | .error _ => ({ t with ret := some (-1, tx.hash) }, none)
        | .ok (info, caches') =>
          let entry := (tx.hash, (info, tx.time))
          ({ t with rest := rest, caches := caches', written := t.written ++ [entry] }, some entry)

/-! ### What the thread that starts them does -/

/-- The executions: the first one of a group, its repetition, the one of a transaction without a group,
    and those of earlier calls that nobody has waited for. -/
inductive TaskId where
  | first (n : ℕ)
  | again (n : ℕ)
  | alone (hash : Str)
  | earlier (i : ℕ)
  deriving DecidableEq, Repr

/-- A call made by the thread: an execution is handed over to the pool, or results are erased. -/
inductive MainCall where
  | commit (id : TaskId) (txs : ContractTxs)
  | removeContractInfoCacheTransaction (hashes : List Str)

/-- What a call of `DealContractTransaction` has to deal with: the groups, the transactions without a
    group, and the results of the verifications. -/
structure DealInput where
  dependentContractTxMap : SortedMap ℕ ContractTxs
  nondependentContractTxMap : ContractTxs
  txRes : SortedMap Str ℤ

/-- `contractTxs.find(hash) != end()`. -/
def hasTx (txs : ContractTxs) (hash : Str) : Bool := txs.elems.any fun tx => tx.hash = hash

/-- The state of the loop over the transactions that failed: the groups, `failDependent`, and the
    arguments of `RemoveContractInfoCacheTransaction` so far. -/
structure FailLoop where
  groups : SortedMap ℕ ContractTxs
  failDependent : StdSet fun a b : ℕ => a < b
  removals : List (List Str)

/-- A group without a transaction; an empty group is erased. -/
def eraseTx (hash : Str) (txs : ContractTxs) : Option ContractTxs :=
  let left := if hasTx txs hash then txs.filter fun tx => tx.hash ≠ hash else txs
  if left.elems = [] then none else some left

/-- The body of the loop. -/
def FailLoop.failTx (nondependent : ContractTxs) (f : FailLoop) (hash : Str) : FailLoop :=
  let hit := f.groups.entries.filter fun e => hasTx e.2 hash
  { groups := f.groups.filterMap (eraseTx hash)
    failDependent := f.failDependent.insertAll (hit.map Prod.fst)
    removals := f.removals ++ hit.map (fun e => e.2.elems.map CTransaction.hash)
      ++ if hasTx nondependent hash then [[hash]] else [] }

namespace DealInput

variable (d : DealInput)

/-- The transactions that failed, in the order of their hashes. -/
def failing : List Str := (d.txRes.entries.filter fun res => res.2 ≠ 0).map Prod.fst

/-- The loop. -/
def failLoop : FailLoop :=
  d.failing.foldl (FailLoop.failTx d.nondependentContractTxMap) ⟨d.dependentContractTxMap, .empty, []⟩

/-- The execution of a group that counts. -/
def lastId (n : ℕ) : TaskId := if n ∈ d.failLoop.failDependent.elems then .again n else .first n

/-- All calls, in their order; then the thread waits for the executions it still has the futures of. -/
def mainCalls : List MainCall :=
  d.dependentContractTxMap.entries.map (fun e => .commit (.first e.1) e.2) ++
  d.nondependentContractTxMap.elems.map
    (fun tx => .commit (.alone tx.hash) ⟨[tx], List.pairwise_singleton _ _⟩) ++
  d.failLoop.removals.map .removeContractInfoCacheTransaction ++
  d.failLoop.failDependent.elems.map fun n => .commit (.again n) ((d.failLoop.groups.find n).getD .empty)

/-- What is left of a group when the transactions that failed are taken out. -/
def surviving (txs : ContractTxs) : ContractTxs := txs.filter fun tx => tx.hash ∉ d.failing

end DealInput

/-! ### Runs -/

/-- The calls the thread has still to make, the executions, and `_contractInfoCache`. -/
structure Deal (ε ι : Type) where
  calls : List MainCall
  tasks : StdMap TaskId (ExecTask ε ι)
  contractInfoCache : StdMap Str (ContractInfoEntry ι)

/-- The start of a run, with any cache, and any executions left over from earlier calls. -/
def Deal.start (d : DealInput) (earlier : ℕ → Option (ExecTask ε ι))
    (contractInfoCache : StdMap Str (ContractInfoEntry ι)) : Deal ε ι where
  calls := d.mainCalls
  tasks id := match id with
    | .earlier i => earlier i
    | _ => none
  contractInfoCache := contractInfoCache

/-- Who makes the next step. -/
inductive DealAction where
  | main
  | task (id : TaskId)
  deriving DecidableEq, Repr

/-- What the next step of an execution writes. -/
def Deal.nextWrite (s : Deal ε ι) (id : TaskId) : Option (Str × ContractInfoEntry ι) :=
  (s.tasks id).bind fun t => (t.advance vm).2

/-- The entries the next call of the thread erases. -/
def Deal.nextErased (s : Deal ε ι) : List Str :=
  match s.calls with
  | .removeContractInfoCacheTransaction hashes :: _ => hashes
  | _ => []

/-- What an execution has written so far. -/
def Deal.writtenBy (s : Deal ε ι) (id : TaskId) : List (Str × ContractInfoEntry ι) :=
  match s.tasks id with
  | none => []
  | some t => t.written

/-- `TransactionCache::AddContractInfoCache`, where there is something to add. -/
def addContractInfoCache (cache : StdMap Str (ContractInfoEntry ι)) :
    Option (Str × ContractInfoEntry ι) → StdMap Str (ContractInfoEntry ι)
  | none => cache
  | some entry => cache.set entry.1 entry.2

/-- One step. -/
def Deal.step (s : Deal ε ι) : DealAction → Deal ε ι
  | .main => match s.calls with
    | [] => s
    | .commit id txs :: calls => { s with calls := calls, tasks := s.tasks.set id (.fresh vm txs) }
    | .removeContractInfoCacheTransaction hashes :: calls =>
      { s with
        calls := calls
        contractInfoCache := fun hash => if hash ∈ hashes then none else s.contractInfoCache hash }
  | .task id => match s.tasks id with
    | none => s
    | some t =>
      { s with
        tasks := s.tasks.set id (t.advance vm).1
        contractInfoCache := addContractInfoCache s.contractInfoCache (t.advance vm).2 }

/-- An execution has returned. -/
def Deal.Returned (s : Deal ε ι) (id : TaskId) : Prop := ∃ t ∈ s.tasks id, t.ret.isSome = true

instance (s : Deal ε ι) (id : TaskId) : Decidable (s.Returned id) := inferInstanceAs (Decidable (∃ _ ∈ _, _))

/-- The thread has made all calls, and the executions it waits for have returned. -/
def Deal.ProcessContractStarts (d : DealInput) (s : Deal ε ι) : Prop :=
  s.calls = [] ∧ (∀ e ∈ d.dependentContractTxMap.entries, s.Returned (d.lastId e.1)) ∧
    ∀ tx ∈ d.nondependentContractTxMap.elems, s.Returned (.alone tx.hash)

instance (d : DealInput) (s : Deal ε ι) : Decidable (s.ProcessContractStarts d) :=
  have : Decidable (s.calls = []) := decidable_of_iff _ List.isEmpty_iff
  inferInstanceAs (Decidable (_ ∧ _ ∧ _))

/-- An execution has returned with success. -/
def Deal.Succeeded (s : Deal ε ι) (id : TaskId) : Prop := ∃ t ∈ s.tasks id, ∃ ret ∈ t.ret, ret.1 = 0

instance (s : Deal ε ι) (id : TaskId) : Decidable (s.Succeeded id) := inferInstanceAs (Decidable (∃ _ ∈ _, _))

/-- The entries of the transactions that survive in a group whose last execution has succeeded are those
    of an execution of these transactions and no others. -/
def Deal.ResultsOfSurviving (d : DealInput) (s : Deal ε ι) : Prop :=
  ∀ e ∈ d.dependentContractTxMap.entries, s.Succeeded (d.lastId e.1) →
    ∀ tx ∈ (d.surviving e.2).elems,
      s.contractInfoCache tx.hash = executionResult vm (d.surviving e.2) tx.hash

instance [DecidableEq ι] (d : DealInput) (s : Deal ε ι) : Decidable (s.ResultsOfSurviving vm d) :=
  inferInstanceAs (Decidable (∀ _ ∈ _, _))

/-- The step writes or erases no entry that the last execution of a group, if it is another one, has
    written already. -/
def KeepsResults (d : DealInput) (s : Deal ε ι) : DealAction → Prop
  | .main => ∀ e ∈ d.dependentContractTxMap.entries, ∀ entry ∈ s.writtenBy (d.lastId e.1),
    entry.1 ∉ s.nextErased
  | .task id => ∀ entry ∈ s.nextWrite vm id, ∀ e ∈ d.dependentContractTxMap.entries, d.lastId e.1 ≠ id →
    ∀ entry' ∈ s.writtenBy (d.lastId e.1), entry'.1 ≠ entry.1

instance (d : DealInput) (s : Deal ε ι) : (a : DealAction) → Decidable (KeepsResults vm d s a)
  | .main => inferInstanceAs (Decidable (∀ _ ∈ _, _))
  | .task _ => inferInstanceAs (Decidable (∀ _ ∈ _, _))

/-! ### The groups that are executed again -/

theorem hasTx_eq_false {txs : ContractTxs} {hash : Str} :
    hasTx txs hash = false ↔ ∀ tx ∈ txs.elems, tx.hash ≠ hash := by
  simp [hasTx]

/-- Erasing a transaction leaves the others. -/
theorem eraseTx_getD (hash : Str) (txs : ContractTxs) :
    (eraseTx hash txs).getD .empty = txs.filter fun tx => tx.hash ≠ hash := by
  have hleft : (if hasTx txs hash then txs.filter fun tx => tx.hash ≠ hash else txs)
      = txs.filter fun tx => tx.hash ≠ hash := by
    split_ifs with hhas
    · rfl
    · have hnone := hasTx_eq_false.mp (Bool.eq_false_iff.mpr hhas)
      exact StdSet.eq_of_elems (List.filter_eq_self.mpr fun tx htx => by simpa using hnone tx htx).symm
  unfold eraseTx
  rw [hleft]
  dsimp only
  split_ifs with hempty
  · exact StdSet.eq_of_elems hempty.symm
  · rfl

namespace FailLoop

variable {nondependent : ContractTxs}

theorem failTx_groups (f : FailLoop) (hash : Str) (n : ℕ) :
    ((f.failTx nondependent hash).groups.find n).getD .empty
      = ((f.groups.find n).getD .empty).filter fun tx => tx.hash ≠ hash := by
  rw [failTx, SortedMap.find_filterMap]
  rcases f.groups.find n with _ | txs
  · rfl
  · exact eraseTx_getD hash txs

/-- The loop takes the transactions that failed out of every group. -/
theorem foldl_groups (n : ℕ) : ∀ (hashes : List Str) (f : FailLoop),
    ((hashes.foldl (failTx nondependent) f).groups.find n).getD .empty
      = ((f.groups.find n).getD .empty).filter fun tx => tx.hash ∉ hashes
  | [], f => StdSet.eq_of_elems (List.filter_eq_self.mpr fun tx _ => by simp).symm
  | hash :: hashes, f => by
    rw [List.foldl_cons, foldl_groups n hashes, failTx_groups]
    refine StdSet.eq_of_elems ?_
    rw [StdSet.filter_elems, StdSet.filter_elems, StdSet.filter_elems, List.filter_filter]
    refine List.filter_congr fun tx _ => ?_
    simp [Bool.and_comm]

/-- A group that a transaction is taken out of is in `failDependent`. -/
theorem failTx_untouched {f : FailLoop} {hash : Str} {n : ℕ}
    (h : n ∉ (f.failTx nondependent hash).failDependent) :
    n ∉ f.failDependent ∧ ∀ tx ∈ ((f.groups.find n).getD .empty).elems, tx.hash ≠ hash := by
  refine ⟨fun hn => h (StdSet.mem_insertAll_of_mem hn), ?_⟩
  rcases hfind : f.groups.find n with _ | txs
  · intro tx htx
    cases htx
  · refine hasTx_eq_false.mp (Bool.eq_false_iff.mpr fun hhas => h ?_)
    have hin : n ∈ (f.groups.entries.filter fun e => hasTx e.2 hash).map Prod.fst :=
      List.mem_map.mpr ⟨(n, txs), List.mem_filter.mpr ⟨SortedMap.mem_iff_find.mpr hfind, hhas⟩, rfl⟩
    exact StdSet.insertAll_complete.mpr (fun x _ y _ heq => by
      obtain ⟨h1, h2⟩ := heq
      omega) n hin

theorem foldl_untouched {n : ℕ} : ∀ {hashes : List Str} {f : FailLoop},
    n ∉ (hashes.foldl (failTx nondependent) f).failDependent →
      n ∉ f.failDependent ∧ ∀ tx ∈ ((f.groups.find n).getD .empty).elems, tx.hash ∉ hashes
  | [], _, h => ⟨h, fun _ _ => List.not_mem_nil⟩
  | hash :: hashes, f, h => by
    obtain ⟨hnext, hrest⟩ := foldl_untouched (f := f.failTx nondependent hash) h
    obtain ⟨hn, hhash⟩ := failTx_untouched hnext
    refine ⟨hn, fun tx htx => List.not_mem_cons_of_ne_of_not_mem (hhash tx htx) (hrest tx ?_)⟩
    rw [failTx_groups]
    exact StdSet.mem_filter.mpr ⟨htx, by simpa using hhash tx htx⟩

end FailLoop

namespace DealInput

variable (d : DealInput) {e : ℕ × ContractTxs}

theorem failLoop_groups (he : e ∈ d.dependentContractTxMap.entries) :
    (d.failLoop.groups.find e.1).getD .empty = d.surviving e.2 := by
  have hfind : d.dependentContractTxMap.find e.1 = some e.2 := SortedMap.mem_iff_find.mp he
  rw [failLoop, FailLoop.foldl_groups, hfind]
  rfl

theorem surviving_eq_self (he : e ∈ d.dependentContractTxMap.entries)
    (hn : e.1 ∉ d.failLoop.failDependent.elems) : d.surviving e.2 = e.2 := by
  have hfind : d.dependentContractTxMap.find e.1 = some e.2 := SortedMap.mem_iff_find.mp he
  obtain ⟨-, hnone⟩ := FailLoop.foldl_untouched hn
  rw [hfind] at hnone
  exact StdSet.eq_of_elems (List.filter_eq_self.mpr fun tx htx => by simpa using hnone tx htx)

/-- The last execution of a group is started with what survives of it. -/
theorem commit_lastId {txs : ContractTxs} (he : e ∈ d.dependentContractTxMap.entries)
    (hcommit : MainCall.commit (d.lastId e.1) txs ∈ d.mainCalls) : txs = d.surviving e.2 := by
  simp only [mainCalls, List.mem_append, List.mem_map, reduceCtorEq, and_false, exists_false, or_false,
    MainCall.commit.injEq] at hcommit
  unfold lastId at hcommit
  split_ifs at hcommit with hn
  · simp only [false_and, and_false, exists_false, false_or, TaskId.again.injEq] at hcommit
    obtain ⟨n, -, rfl, rfl⟩ := hcommit
    exact d.failLoop_groups he
  · simp only [false_and, and_false, exists_false, or_false, TaskId.first.injEq] at hcommit
    obtain ⟨e', he', heq, rfl⟩ := hcommit
    rw [SortedMap.eq_of_key_eq he' he heq]
    exact (d.surviving_eq_self he hn).symm

end DealInput

/-! ### One execution -/

/-- Entries added to a cache one after the other. -/
def addEntries (cache : StdMap Str (ContractInfoEntry ι)) (entries : List (Str × ContractInfoEntry ι)) :
    StdMap Str (ContractInfoEntry ι) := entries.foldl (fun cache entry => cache.set entry.1 entry.2) cache

theorem addEntries_of_notMem {hash : Str} : ∀ {entries : List (Str × ContractInfoEntry ι)}
    {cache : StdMap Str (ContractInfoEntry ι)}, hash ∉ entries.map Prod.fst →
      addEntries cache entries hash = cache hash
  | [], _, _ => rfl
  | entry :: entries, cache, h => by
    rw [List.map_cons, List.mem_cons, not_or] at h
    rw [addEntries, List.foldl_cons, ← addEntries, addEntries_of_notMem h.2, StdMap.set_ne _ _ h.1]

theorem addEntries_of_mem {entry : Str × ContractInfoEntry ι} :
    ∀ {entries : List (Str × ContractInfoEntry ι)} {cache : StdMap Str (ContractInfoEntry ι)},
      (entries.map Prod.fst).Nodup → entry ∈ entries → addEntries cache entries entry.1 = some entry.2
  | entry' :: entries, cache, hnodup, h => by
    rw [List.map_cons, List.nodup_cons] at hnodup
    rw [addEntries, List.foldl_cons, ← addEntries]
    rcases List.mem_cons.mp h with rfl | h
    · rw [addEntries_of_notMem hnodup.1, StdMap.set_self]
    · exact addEntries_of_mem hnodup.2 h

/-- The hashes of the transactions of a map are distinct. -/
theorem nodup_hashes (txs : ContractTxs) : (txs.elems.map CTransaction.hash).Nodup := by
  refine List.pairwise_map.mpr (txs.sorted.imp fun {a b} hab heq => ?_)
  rw [heq] at hab
  exact absurd hab (List.lt_irrefl b.hash)

variable {vm}

/-- What the next step of an execution can be: it returns, with success only when all transactions have
    been executed, or it executes one more. -/
theorem ExecTask.advance_cases (t : ExecTask ε ι) :
    (∃ ret, t.advance vm = ({ t with ret := ret }, none) ∧
      ∀ hash, ret = some (0, hash) → t.ret = some (0, hash) ∨ t.rest = []) ∨
    ∃ tx rest info caches', t.ret = none ∧ t.rest = tx :: rest ∧ isContractTransaction tx = true ∧
      vm.addContractInfo t.caches tx = .ok (info, caches') ∧
      t.advance vm = ({ t with
        rest := rest, caches := caches', written := t.written ++ [(tx.hash, (info, tx.time))] },
        some (tx.hash, (info, tx.time))) := by
  rcases hret : t.ret with _ | ret
  · rcases hrest : t.rest with _ | ⟨tx, rest⟩
    · refine .inl ⟨some (0, []), ?_, fun _ _ => .inr rfl⟩
      simp [advance, hret, hrest]
    · rcases hkind : isContractTransaction tx with _ | _
      · refine .inl ⟨some (-1, tx.hash), ?_, fun hash h => by cases h⟩
        simp [advance, hret, hrest, hkind]
      · rcases hvm : vm.addContractInfo t.caches tx with err | ⟨info, caches'⟩
        · refine .inl ⟨some (-1, tx.hash), ?_, fun hash h => by cases h⟩
          simp [advance, hret, hrest, hkind, hvm]
        · refine .inr ⟨tx, rest, info, caches', rfl, rfl, hkind, hvm, ?_⟩
          simp [advance, hret, hrest, hkind, hvm]
  · refine .inl ⟨some ret, ?_, fun hash h => .inl h⟩
    rw [advance, if_pos (by rw [hret]; rfl), ← hret]

variable (vm) in
theorem ExecTask.advance_written (t : ExecTask ε ι) :
    (t.advance vm).1.txs = t.txs ∧ (t.advance vm).1.written = t.written ++ (t.advance vm).2.toList := by
  rcases t.advance_cases with ⟨ret, hadv, -⟩ | ⟨tx, rest, info, caches', -, -, -, -, hadv⟩
  · rw [hadv]
    exact ⟨rfl, (List.append_nil _).symm⟩
  · rw [hadv]
    exact ⟨rfl, rfl⟩

/-- An execution under way has done what `_ExecuteContracts` does with its transactions up to the first
    of those that are left. -/
structure ExecTask.Follows (vm : ContractVm ε ι) (t : ExecTask ε ι) : Prop where
  executes : executeContracts vm vm.start t.txs.elems .empty
    = executeContracts vm t.caches t.rest (addEntries .empty t.written)
  hashes : t.txs.elems.map CTransaction.hash = t.written.map Prod.fst ++ t.rest.map CTransaction.hash
  success : ∀ hash, t.ret = some (0, hash) → t.rest = []

theorem ExecTask.Follows.fresh (txs : ContractTxs) : (ExecTask.fresh vm txs).Follows vm :=
  ⟨rfl, rfl, fun hash h => by cases h⟩

theorem ExecTask.Follows.advance {t : ExecTask ε ι} (h : t.Follows vm) : (t.advance vm).1.Follows vm := by
  rcases t.advance_cases with ⟨ret, hadv, hret⟩ | ⟨tx, rest, info, caches', hnone, hrest, hkind, hvm, hadv⟩
  · rw [hadv]
    exact ⟨h.executes, h.hashes, fun hash heq => (hret hash heq).elim (h.success hash) id⟩
  · rw [hadv]
    refine ⟨?_, ?_, fun hash heq => by cases hnone.symm.trans heq⟩
    · rw [h.executes, hrest, executeContracts, if_neg (by simp [hkind]), hvm]
      simp [addEntries]
    · rw [h.hashes, hrest]
      simp

/-- What an execution writes next, it has not written before. -/
theorem ExecTask.Follows.fresh_write {t : ExecTask ε ι} (h : t.Follows vm)
    {entry : Str × ContractInfoEntry ι} (hwrite : (t.advance vm).2 = some entry) :
    ∀ entry' ∈ t.written, entry'.1 ≠ entry.1 := by
  rcases t.advance_cases with ⟨ret, hadv, -⟩ | ⟨tx, rest, info, caches', -, hrest, -, -, hadv⟩
  · rw [hadv] at hwrite
    cases hwrite
  · rw [hadv] at hwrite
    cases hwrite
    have hnodup := nodup_hashes t.txs
    rw [h.hashes, hrest, List.map_cons] at hnodup
    intro entry' hentry' heq
    exact (List.nodup_append.mp hnodup).2.2 _ (List.mem_map_of_mem hentry') _ List.mem_cons_self heq

/-- An execution that has succeeded has written the result of every transaction. -/
theorem ExecTask.Follows.result {t : ExecTask ε ι} (h : t.Follows vm) {hash : Str}
    (hret : t.ret = some (0, hash)) {tx : CTransaction} (htx : tx ∈ t.txs) :
    ∃ entry ∈ t.written, entry.1 = tx.hash ∧ executionResult vm t.txs tx.hash = some entry.2 := by
  have hrest := h.success hash hret
  have hhashes := h.hashes
  rw [hrest, List.map_nil, List.append_nil] at hhashes
  obtain ⟨entry, hentry, heq⟩ : ∃ entry ∈ t.written, entry.1 = tx.hash := by
    rw [← List.mem_map, ← hhashes]
    exact List.mem_map_of_mem htx
  refine ⟨entry, hentry, heq, ?_⟩
  rw [executionResult, h.executes, hrest, executeContracts, ← heq]
  refine addEntries_of_mem ?_ hentry
  rw [← hhashes]
  exact nodup_hashes t.txs

/-! ### All runs -/

/-- The last execution of every group is started with what survives of it and does what it should, and
    what it has written is in the cache. -/
structure Deal.LastWrites (vm : ContractVm ε ι) (d : DealInput) (s : Deal ε ι) : Prop where
  commits : ∀ e ∈ d.dependentContractTxMap.entries, ∀ txs,
    MainCall.commit (d.lastId e.1) txs ∈ s.calls → txs = d.surviving e.2
  tasks : ∀ e ∈ d.dependentContractTxMap.entries, ∀ t, s.tasks (d.lastId e.1) = some t →
    t.txs = d.surviving e.2 ∧ t.Follows vm ∧ ∀ entry ∈ t.written, s.contractInfoCache entry.1 = some entry.2

variable {d : DealInput} {s : Deal ε ι}

theorem Deal.writtenBy_of_task {id : TaskId} {t : ExecTask ε ι} (h : s.tasks id = some t) :
    s.writtenBy id = t.written := by
  rw [writtenBy, h]

theorem Deal.nextWrite_of_task {id : TaskId} {t : ExecTask ε ι} (h : s.tasks id = some t) :
    s.nextWrite vm id = (t.advance vm).2 := by
  rw [nextWrite, h]
  rfl

theorem Deal.LastWrites.start (earlier : ℕ → Option (ExecTask ε ι))
    (contractInfoCache : StdMap Str (ContractInfoEntry ι)) :
    (Deal.start d earlier contractInfoCache).LastWrites vm d := by
  refine ⟨fun e he txs hcommit => d.commit_lastId he hcommit, fun e _ t ht => ?_⟩
  unfold Deal.start DealInput.lastId at ht
  split_ifs at ht

/-- A call of the thread. -/
theorem Deal.LastWrites.main (hkeeps : KeepsResults vm d s .main) (h : s.LastWrites vm d) :
    (s.step vm .main).LastWrites vm d := by
  rcases hcalls : s.calls with _ | ⟨⟨id, txs⟩ | hashes, calls⟩
  · simpa only [step, hcalls] using h
  · simp only [step, hcalls]
    refine ⟨fun e he txs' hmem => h.commits e he txs' ?_, fun e he t ht => ?_⟩
    · rw [hcalls]
      exact List.mem_cons_of_mem _ hmem
    · dsimp only at ht
      by_cases hid : d.lastId e.1 = id
      · rw [hid, StdMap.set_self] at ht
        cases ht
        refine ⟨h.commits e he txs ?_, .fresh txs, fun entry hentry => by cases hentry⟩
        rw [hcalls, hid]
        exact List.mem_cons_self
      · rw [StdMap.set_ne _ _ hid] at ht
        exact h.tasks e he t ht
  · simp only [step, hcalls]
    refine ⟨fun e he txs' hmem => h.commits e he txs' ?_, fun e he t ht => ?_⟩
    · rw [hcalls]
      exact List.mem_cons_of_mem _ hmem
    · obtain ⟨htxs, hfollows, hcache⟩ := h.tasks e he t ht
      refine ⟨htxs, hfollows, fun entry hentry => ?_⟩
      have hkept : entry.1 ∉ s.nextErased := hkeeps e he entry (by
        rw [writtenBy_of_task (show s.tasks (d.lastId e.1) = some t from ht)]
        exact hentry)
      rw [nextErased, hcalls] at hkept
      dsimp only
      rw [if_neg hkept]
      exact hcache entry hentry

/-- Adding an entry leaves the others. -/
theorem addContractInfoCache_ne {cache : StdMap Str (ContractInfoEntry ι)}
    {write : Option (Str × ContractInfoEntry ι)} {hash : Str} (h : ∀ entry ∈ write, hash ≠ entry.1) :
    addContractInfoCache cache write hash = cache hash := by
  rcases write with _ | entry
  · rfl
  · exact StdMap.set_ne _ _ (h entry rfl)

/-- A step of an execution. -/
theorem Deal.LastWrites.task {id : TaskId} (hkeeps : KeepsResults vm d s (.task id))
    (h : s.LastWrites vm d) : (s.step vm (.task id)).LastWrites vm d := by
  rcases hid : s.tasks id with _ | t
  · simpa only [step, hid] using h
  · simp only [step, hid]
    refine ⟨h.commits, fun e he t' ht' => ?_⟩
    dsimp only at ht' ⊢
    by_cases hlast : d.lastId e.1 = id
    · rw [hlast, StdMap.set_self] at ht'
      cases ht'
      obtain ⟨htxs, hfollows, hcache⟩ := h.tasks e he t (by rw [hlast, hid])
      obtain ⟨htxs', hwritten⟩ := t.advance_written vm
      refine ⟨htxs'.trans htxs, hfollows.advance, fun entry hentry => ?_⟩
      rw [hwritten, List.mem_append, Option.mem_toList] at hentry
      rcases hentry with hentry | hentry
      · rw [addContractInfoCache_ne fun entry' hwrite => hfollows.fresh_write hwrite entry hentry]
        exact hcache entry hentry
      · rw [Option.mem_def.mp hentry]
        exact StdMap.set_self _ _ _
    · rw [StdMap.set_ne _ _ hlast] at ht'
      obtain ⟨htxs, hfollows, hcache⟩ := h.tasks e he t' ht'
      refine ⟨htxs, hfollows, fun entry hentry => ?_⟩
      rw [addContractInfoCache_ne fun entry' hwrite => ?_]
      · exact hcache entry hentry
      · exact hkeeps entry' (by rwa [nextWrite_of_task hid]) e he hlast entry
          (by rwa [writtenBy_of_task ht'])

/-- One step keeps what the last executions have written. -/
theorem Deal.LastWrites.step (s : Deal ε ι) (a : DealAction) (hkeeps : KeepsResults vm d s a)
    (h : s.LastWrites vm d) : (s.step vm a).LastWrites vm d := by
  cases a with
  | main => exact h.main hkeeps
  | task id => exact h.task hkeeps

/-- In every run in which no entry is written or erased any more once the last execution of a group has
    written it, the entries of the transactions that survive in a group whose last execution has
    succeeded, so in particular when `ProcessContract` starts, are those of an execution of these
    transactions and no others. -/
theorem results_of_surviving (vm : ContractVm ε ι) (d : DealInput) (earlier : ℕ → Option (ExecTask ε ι))
    (contractInfoCache : StdMap Str (ContractInfoEntry ι)) {acts : List DealAction}
    (hkeeps : EveryStep (Deal.step vm) (KeepsResults vm d) (.start d earlier contractInfoCache) acts) :
    (acts.foldl (Deal.step vm) (.start d earlier contractInfoCache)).ResultsOfSurviving vm d := by
  have hinv := hkeeps.invariant Deal.LastWrites.step (Deal.LastWrites.start earlier contractInfoCache)
  rintro e he ⟨t, ht, ⟨_, hash⟩, hret, rfl⟩ tx htx
  obtain ⟨htxs, hfollows, hcache⟩ := hinv.tasks e he t ht
  rw [← htxs] at htx ⊢
  obtain ⟨entry, hentry, heq, hresult⟩ := hfollows.result hret htx
  rw [hresult, ← heq]
  exact hcache entry hentry

/-! ### When nothing fails -/

/-- No transaction has failed, and none is in two groups, or in a group and without one. -/
structure DealInput.Apart (d : DealInput) : Prop where
  failing : d.failing = []
  groups : ∀ e ∈ d.dependentContractTxMap.entries, ∀ e' ∈ d.dependentContractTxMap.entries, e.1 ≠ e'.1 →
    ∀ tx ∈ e.2.elems, ∀ tx' ∈ e'.2.elems, tx.hash ≠ tx'.hash
  alone : ∀ e ∈ d.dependentContractTxMap.entries, ∀ tx ∈ e.2.elems,
    ∀ tx' ∈ d.nondependentContractTxMap.elems, tx.hash ≠ tx'.hash

/-- An execution is the first one of a group, or that of a transaction without a group. -/
inductive DealInput.Planned (d : DealInput) : TaskId → ContractTxs → Prop where
  | first (e : ℕ × ContractTxs) (he : e ∈ d.dependentContractTxMap.entries) : Planned d (.first e.1) e.2
  | alone (tx : CTransaction) (htx : tx ∈ d.nondependentContractTxMap.elems) :
      Planned d (.alone tx.hash) ⟨[tx], List.pairwise_singleton _ _⟩

theorem DealInput.Planned.eq_of_first {d : DealInput} {id : TaskId} {txs : ContractTxs}
    (h : d.Planned id txs) {e : ℕ × ContractTxs} (he : e ∈ d.dependentContractTxMap.entries)
    (hid : id = .first e.1) : txs = e.2 := by
  cases h with
  | first e' he' => rw [SortedMap.eq_of_key_eq he' he (TaskId.first.inj hid)]
  | alone tx htx => cases hid

/-- The thread has only such executions to start, and there are no others. -/
structure Deal.AsPlanned (vm : ContractVm ε ι) (d : DealInput) (s : Deal ε ι) : Prop where
  calls : ∀ call ∈ s.calls, ∃ id txs, call = .commit id txs ∧ d.Planned id txs
  tasks : ∀ id t, s.tasks id = some t → d.Planned id t.txs ∧ t.Follows vm

namespace DealInput.Apart

theorem failLoop (h : d.Apart) : d.failLoop = ⟨d.dependentContractTxMap, .empty, []⟩ := by
  rw [DealInput.failLoop, h.failing]
  rfl

theorem lastId (h : d.Apart) (n : ℕ) : d.lastId n = .first n := by
  rw [DealInput.lastId, h.failLoop]
  rfl

/-- The executions of two groups, or of a group and of a transaction without one, have no transaction in
    common. -/
theorem disjoint (h : d.Apart) {e : ℕ × ContractTxs} (he : e ∈ d.dependentContractTxMap.entries)
    {id : TaskId} {txs : ContractTxs} (hid : d.Planned id txs) (hne : .first e.1 ≠ id) :
    ∀ hash ∈ e.2.elems.map CTransaction.hash, hash ∉ txs.elems.map CTransaction.hash := by
  intro hash hin hin'
  obtain ⟨tx, htx, rfl⟩ := List.mem_map.mp hin
  obtain ⟨tx', htx', heq⟩ := List.mem_map.mp hin'
  cases hid with
  | first e' he' => exact h.groups e he e' he' (fun heq => hne (by rw [heq])) tx htx tx' htx' heq.symm
  | alone tx₁ htx₁ =>
    rw [List.mem_singleton.mp htx'] at heq
    exact h.alone e he tx htx tx₁ htx₁ heq.symm

theorem start (h : d.Apart) (contractInfoCache : StdMap Str (ContractInfoEntry ι)) :
    (Deal.start d (fun _ => none) contractInfoCache : Deal ε ι).AsPlanned vm d := by
  constructor
  · intro call hcall
    simp only [Deal.start, DealInput.mainCalls, h.failLoop, List.map_nil, List.append_nil, List.mem_append,
      List.mem_map, StdSet.empty] at hcall
    rcases hcall with ⟨e, he, rfl⟩ | ⟨tx, htx, rfl⟩
    · exact ⟨_, _, rfl, .first e he⟩
    · exact ⟨_, _, rfl, .alone tx htx⟩
  · intro id t ht
    cases id <;> cases ht

end DealInput.Apart

/-- The hashes an execution has written, and the one it writes next, are those of its transactions. -/
theorem ExecTask.Follows.hash_mem {t : ExecTask ε ι} (h : t.Follows vm) {entry : Str × ContractInfoEntry ι}
    (hentry : entry ∈ t.written ∨ (t.advance vm).2 = some entry) :
    entry.1 ∈ t.txs.elems.map CTransaction.hash := by
  rw [h.hashes, List.mem_append]
  rcases hentry with hentry | hentry
  · exact .inl (List.mem_map_of_mem hentry)
  · rcases t.advance_cases with ⟨ret, hadv, -⟩ | ⟨tx, rest, info, caches', -, hrest, -, -, hadv⟩
    · rw [hadv] at hentry
      cases hentry
    · rw [hadv] at hentry
      cases hentry
      rw [hrest]
      exact .inr List.mem_cons_self

/-- One step keeps to the plan. -/
theorem Deal.AsPlanned.step (h : s.AsPlanned vm d) (a : DealAction) : (s.step vm a).AsPlanned vm d := by
  have hset {s' : Deal ε ι} {id : TaskId} {t : ExecTask ε ι} (htasks : s'.tasks = s.tasks.set id t)
      (hcalls : ∀ call ∈ s'.calls, call ∈ s.calls) (ht : d.Planned id t.txs ∧ t.Follows vm) :
      s'.AsPlanned vm d := by
    refine ⟨fun call hcall => h.calls call (hcalls call hcall), fun id' t' ht' => ?_⟩
    rw [htasks] at ht'
    by_cases hid : id' = id
    · rw [hid, StdMap.set_self] at ht'
      cases ht'
      rw [hid]
      exact ht
    · rw [StdMap.set_ne _ _ hid] at ht'
      exact h.tasks id' t' ht'
  cases a with
  | main =>
    rcases hcalls : s.calls with _ | ⟨⟨id, txs⟩ | hashes, calls⟩
    · simpa only [Deal.step, hcalls] using h
    · obtain ⟨id', txs', heq, hplanned⟩ := h.calls _ (by rw [hcalls]; exact List.mem_cons_self)
      cases heq
      simp only [Deal.step, hcalls]
      refine hset rfl (fun call hcall => ?_) ⟨hplanned, .fresh txs⟩
      rw [hcalls]
      exact List.mem_cons_of_mem _ hcall
    · obtain ⟨id', txs', heq, -⟩ := h.calls _ (by rw [hcalls]; exact List.mem_cons_self)
      cases heq
  | task id =>
    rcases hid : s.tasks id with _ | t
    · simpa only [Deal.step, hid] using h
    · obtain ⟨hplanned, hfollows⟩ := h.tasks id t hid
      simp only [Deal.step, hid]
      refine hset rfl (fun call hcall => hcall) ⟨?_, hfollows.advance⟩
      rw [(t.advance_written vm).1]
      exact hplanned

/-- As long as there are no other executions, no entry is written or erased twice. -/
theorem Deal.AsPlanned.keepsResults (hapart : d.Apart) (h : s.AsPlanned vm d) (a : DealAction) :
    KeepsResults vm d s a := by
  cases a with
  | main =>
    intro e he entry hentry
    have hnone : s.nextErased = [] := by
      rcases hcalls : s.calls with _ | ⟨⟨id, txs⟩ | hashes, calls⟩
      · rw [nextErased, hcalls]
      · rw [nextErased, hcalls]
      · obtain ⟨id', txs', heq, -⟩ := h.calls _ (by rw [hcalls]; exact List.mem_cons_self)
        cases heq
    rw [hnone]
    exact List.not_mem_nil
  | task id =>
    intro entry hwrite e he hlast entry' hentry' heq
    rw [hapart.lastId] at hlast hentry'
    obtain ⟨t, hid, hadv⟩ := Option.bind_eq_some_iff.mp hwrite
    obtain ⟨hplanned, hfollows⟩ := h.tasks id t hid
    rcases hfirst : s.tasks (.first e.1) with _ | t'
    · rw [writtenBy, hfirst] at hentry'
      cases hentry'
    · rw [writtenBy_of_task hfirst] at hentry'
      obtain ⟨hplanned', hfollows'⟩ := h.tasks _ t' hfirst
      have htxs : t'.txs = e.2 := hplanned'.eq_of_first he rfl
      refine hapart.disjoint he hplanned hlast entry'.1 ?_ ?_
      · rw [← htxs]
        exact hfollows'.hash_mem (.inl hentry')
      · rw [heq]
        exact hfollows.hash_mem (.inr hadv)

/-- When no transaction fails and none is in two groups, every run is one of those above, whatever the
    order of its steps. -/
theorem everyStep_keepsResults (vm : ContractVm ε ι) (h : d.Apart)
    (contractInfoCache : StdMap Str (ContractInfoEntry ι)) (acts : List DealAction) :
    EveryStep (Deal.step vm) (KeepsResults vm d) (.start d (fun _ => none) contractInfoCache) acts :=
  everyStep_of_invariant (P := Deal.AsPlanned vm d) (fun _ a hs => ⟨hs.keepsResults h a, hs.step a⟩) acts
    (h.start contractInfoCache)

/-! Two calls of a contract that counts how often it is called, of which the first one fails its
    verification. -/

/-- The contract: the result of a call is the number of calls before it. -/
def countingVm : ContractVm ℕ ℕ := ⟨0, fun count _ => .ok (count, count + 1)⟩

/-- A call. -/
def callTx (hash : String) : CTransaction :=
  { CTransaction.cleared with hash := str hash, txType := kTxTypeCallContract }

/-- Both calls are in one group. -/
def twoCalls : DealInput where
  dependentContractTxMap := ⟨[(1, ⟨[callTx "a", callTx "b"], by decide⟩)], List.pairwise_singleton _ _⟩
  nondependentContractTxMap := .empty
  txRes := ⟨[(str "a", -1), (str "b", 0)], by decide⟩

/-- The start. -/
def twoCallsStart : Deal ℕ ℕ := .start twoCalls (fun _ => none) .empty

/-- The first execution comes to its end before the second call is executed again. -/
def inOrder : List DealAction :=
  [.main, .task (.first 1), .task (.first 1), .task (.first 1), .main, .main, .task (.again 1), .task (.again 1)]

/-- The first execution goes on after the second call has been executed again. -/
def overtaken : List DealAction :=
  [.main, .task (.first 1), .main, .main, .task (.again 1), .task (.again 1), .task (.first 1)]

theorem results_of_surviving_sample :
    EveryStep (Deal.step countingVm) (KeepsResults countingVm twoCalls) twoCallsStart inOrder ∧
      (inOrder.foldl (Deal.step countingVm) twoCallsStart).ProcessContractStarts twoCalls ∧
      (inOrder.foldl (Deal.step countingVm) twoCallsStart).Succeeded (.again 1) ∧
      (inOrder.foldl (Deal.step countingVm) twoCallsStart).ResultsOfSurviving countingVm twoCalls :=
  ⟨by decide, by decide, by decide,
    results_of_surviving countingVm twoCalls (fun _ => none) .empty (by decide)⟩

/-- The entry of the second call counts the first one, which has failed, when `ProcessContract` starts. -/
theorem overtaken_results_mixed :
    (overtaken.foldl (Deal.step countingVm) twoCallsStart).ProcessContractStarts twoCalls ∧
      ¬ (overtaken.foldl (Deal.step countingVm) twoCallsStart).ResultsOfSurviving countingVm twoCalls := by
  decide

end Tfs.Ca
