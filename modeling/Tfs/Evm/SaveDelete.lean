import Tfs.Evm.Deploy

/-! Saving a contract and deleting it again (`ca/evm/evm_manager.cpp`).

    `saveContract` writes five tables and `deleteContract` takes its entries out of the same five. Two
    of the tables are lists of texts, and the deployer goes on the list of all deployers, and off it,
    by different tests: on it when it is not there, off it when it has no contract left. Whether the
    two tests undo each other depends on the database they start from. -/

namespace Tfs.Evm
open Tfs.Db

/-! ### The tables of a contract -/

/-- The entries the two calls are about. -/
def contractKeys (deployer contract : AddressText) : List DbKey :=
  [⟨.contractDeployUtxoByContractAddr, .address contract⟩,
    ⟨.contractCodeByContractAddr, .address contract⟩,
    ⟨.latestUtxoByContractAddr, .address contract⟩,
    ⟨.contractAddrByDeployerAddr, .address deployer⟩, ⟨.evmDeployerAddr, .nothing⟩]

/-- The deployers on the list of all of them. -/
def deployers (data : Store) : List Str := listOf (data kEvmAllDeployerAddr)

/-- The contract is in none of the tables. -/
structure NotRecorded (data : Store) (deployer contract : AddressText) : Prop where
  deployUtxo : data (kContractAddr2DeployUtxo ++ contract.1) = none
  code : data (kContractAddr2ContractCode ++ contract.1) = none
  latestUtxo : data (kContractAddr2LatestUtxo ++ contract.1) = none
  notListed : contract.1 ∉ recorded data deployer

/-- A value stands for a list that is not empty: with no members there is no value. -/
def NoEmptyList (content : Option Str) : Prop := content = none ↔ listOf content = []

/-- The lists are kept as the calls keep them: no empty list is stored, and the deployer is on the
    list of all deployers exactly when it has a contract. -/
structure ListsKept (data : Store) (deployer : AddressText) : Prop where
  contracts : NoEmptyList (data (contractsKey deployer))
  allDeployers : NoEmptyList (data kEvmAllDeployerAddr)
  listed : deployer.1 ∈ deployers data ↔ recorded data deployer ≠ []

/-- The same answer to a query; the list of all deployers counts as a set. -/
def SameAnswer (before after : Reads) : Getter → Prop
  | .getAllEvmDeployerAddr => (after.getTexts kEvmAllDeployerAddr).map List.toFinset
      = (before.getTexts kEvmAllDeployerAddr).map List.toFinset
  | g => g.call after = g.call before

/-- Every query has the same answer, whatever memory given back shows those that read it. -/
def SameAnswers (data data' : Store) : Prop :=
  ∀ freed g, SameAnswer (readsOf freed (some data)) (readsOf freed (some data')) g

/-! ### What the two calls leave -/

theorem noEmptyList_of_mem {content : Option Str} {v : Str} (h : v ∈ listOf content) :
    NoEmptyList content := by
  have hne := List.ne_nil_of_mem h
  refine ⟨fun hnone => ?_, fun hnil => absurd hnil hne⟩
  rw [hnone]
  rfl

/-- An action that returns true was granted its key. -/
theorem accepts_of_returned {w : RocksDBReadWriter} {a : Action} (h : (a.perform w).returned = true) :
    w.accepts a.key := by
  by_contra hrefused
  rw [Bool.not_eq_true] at hrefused
  have hfalse : (a.perform w).returned = false := by
    cases a with
    | writeData key value => exact (RocksDBReadWriter.writeData_of_refused hrefused).1
    | deleteData key => exact (RocksDBReadWriter.deleteData_of_refused hrefused).1
    | mergeValue key value firstOrLast =>
      exact (RocksDBReadWriter.mergeValue_of_refused hrefused firstOrLast).1
    | removeMergeValue key value => exact (RocksDBReadWriter.removeMergeValue_of_refused hrefused).1
  rw [hfalse] at h
  cases h

section Attempts
variable {w w' : RocksDBReadWriter} {s : Setter} {code : ℤ}

theorem attempt_accepts (h : attempt w s code = .ok w') : w.accepts s.action.key :=
  accepts_of_returned (attempt_eq_ok.mp h).1

/-- Everything else in the database stays. -/
theorem attempt_frame {key : Str} (h : attempt w s code = .ok w') (hkey : key ≠ s.key.text) :
    w'.stored key = w.stored key := by
  obtain ⟨-, rfl⟩ := attempt_eq_ok.mp h
  exact (s.call_frame w).1 key (s.action_key ▸ hkey)

/-- Every other entry stays. -/
theorem attempt_other {k : DbKey} (h : attempt w s code = .ok w') (hk : k ≠ s.key) :
    w'.stored k.text = w.stored k.text :=
  attempt_frame h fun htext => hk (DbKey.text_injective htext)

/-- A removal leaves no value. -/
theorem attempt_deleted {key : Str} (hs : s.action = .deleteData key)
    (h : attempt w s code = .ok w') : w'.stored key = none := by
  have ha : w.accepts key := by simpa only [hs, Action.key] using attempt_accepts h
  obtain ⟨-, rfl⟩ := attempt_eq_ok.mp h
  rw [hs, Action.perform, RocksDBReadWriter.deleteData_of_accepts ha,
    RocksDBReadWriter.stored_put ha]

/-- A value joins a list at the end. -/
theorem attempt_merged {key value : Str} (hs : s.action = .mergeValue key value false)
    (hv : PlainValue value) (h : attempt w s code = .ok w') :
    listOf (w'.stored key) = insertAbsent value false (listOf (w.stored key)) := by
  have ha : w.accepts key := by simpa only [hs, Action.key] using attempt_accepts h
  obtain ⟨-, rfl⟩ := attempt_eq_ok.mp h
  obtain ⟨content, hmerge, hlist⟩ := RocksDBReadWriter.mergeValue_listOf ha hv false
  rw [hs, Action.perform, hmerge, RocksDBReadWriter.stored_put ha, hlist]

/-- All copies of a value leave a list, and the empty list leaves no value. -/
theorem attempt_removed {key value : Str} (hs : s.action = .removeMergeValue key value)
    (hv : value ≠ []) (h : attempt w s code = .ok w') :
    listOf (w'.stored key) = eraseValues value (listOf (w.stored key))
      ∧ NoEmptyList (w'.stored key) := by
  have ha : w.accepts key := by simpa only [hs, Action.key] using attempt_accepts h
  obtain ⟨-, rfl⟩ := attempt_eq_ok.mp h
  obtain ⟨status, content, hremove, hlist, habsent⟩ := RocksDBReadWriter.removeMergeValue_listOf ha hv
  rw [hs, Action.perform, hremove, RocksDBReadWriter.stored_put ha]
  exact ⟨hlist, habsent⟩

/-- A writer that was granted a key reads its own transaction. -/
theorem attempt_reads (h : attempt w s code = .ok w') : w'.dbReader = dbReaderOf (some w'.stored) := by
  have ha : w'.accepts s.action.key := by
    have hbefore := attempt_accepts h
    obtain ⟨-, rfl⟩ := attempt_eq_ok.mp h
    exact (s.call_frame w).2 _ ▸ hbefore
  obtain ⟨txn, htxn, hchk, -⟩ := RocksDBReadWriter.exists_txn ha
  have hinit : w'.isInitSuccess = true := by
    by_contra hinit
    simp [RocksDBReadWriter.checked, hinit] at hchk
  have hstored : w'.stored = txn.data := funext fun key => by simp [RocksDBReadWriter.stored, htxn]
  simp [RocksDBReadWriter.dbReader, RocksDBReadWriter.contents, hinit, htxn, hstored]

end Attempts

/-- What a getter of texts answers. -/
theorem getTexts_eq (data : Store) {key : Str} (hkey : key ≠ []) :
    (dbReaderOf (some data)).getTexts key
      = if data key = none then .error .notFound else .ok (listOf (data key)) := by
  cases hv : data key with
  | none => simp [DBReader.getTexts, DBReader.readData, dbReaderOf, hv, hkey, Except.map]
  | some value => simp [DBReader.getTexts, DBReader.readData, dbReaderOf, hv, hkey, Except.map, listOf]

theorem kEvmAllDeployerAddr_ne_nil : kEvmAllDeployerAddr ≠ [] := by decide

/-- What saving changes: the entries of the contract, and the two lists, which it joins. -/
structure Saved (data data' : Store) (d c : AddressText) : Prop where
  others : ∀ key ∉ (contractKeys d c).map DbKey.text, data' key = data key
  contracts : recorded data' d = insertAbsent c.1 false (recorded data d)
  allDeployers : deployers data' = insertAbsent d.1 false (deployers data)
  kept : d.1 ∈ deployers data → data' kEvmAllDeployerAddr = data kEvmAllDeployerAddr

/-- What deleting changes: the entries of the contract are gone, the contract is off its deployer's
    list, and a deployer without contracts is off the list of all. -/
structure Deleted (data data' : Store) (d c : AddressText) : Prop where
  others : ∀ key ∉ (contractKeys d c).map DbKey.text, data' key = data key
  deployUtxo : data' (kContractAddr2DeployUtxo ++ c.1) = none
  code : data' (kContractAddr2ContractCode ++ c.1) = none
  latestUtxo : data' (kContractAddr2LatestUtxo ++ c.1) = none
  contracts : recorded data' d = eraseValues c.1 (recorded data d)
  noEmptyList : NoEmptyList (data' (contractsKey d))
  last : recorded data' d = [] →
    deployers data' = eraseValues d.1 (deployers data) ∧ NoEmptyList (data' kEvmAllDeployerAddr)
  notLast : recorded data' d ≠ [] → data' kEvmAllDeployerAddr = data kEvmAllDeployerAddr

/-- The text of an entry of the deployer's contracts, and of the list of all deployers. -/
theorem text_contracts (d : AddressText) :
    DbKey.text ⟨.contractAddrByDeployerAddr, .address d⟩ = contractsKey d := rfl

theorem text_deployers : DbKey.text ⟨.evmDeployerAddr, .nothing⟩ = kEvmAllDeployerAddr :=
  List.append_nil _

section Calls
variable {w w₁ w₂ w₃ w' : RocksDBReadWriter} {d c : AddressText}

/-- Three calls in a row leave an entry alone that is none of theirs. -/
theorem attempts_other {s₁ s₂ s₃ : Setter} {code₁ code₂ code₃ : ℤ} {k : DbKey}
    (h₁ : attempt w s₁ code₁ = .ok w₁) (h₂ : attempt w₁ s₂ code₂ = .ok w₂)
    (h₃ : attempt w₂ s₃ code₃ = .ok w₃) (hk₁ : k ≠ s₁.key) (hk₂ : k ≠ s₂.key) (hk₃ : k ≠ s₃.key) :
    w₃.stored k.text = w.stored k.text := by
  rw [attempt_other h₃ hk₃, attempt_other h₂ hk₂, attempt_other h₁ hk₁]

/-- The list `saveContract` looks the deployer up in. -/
theorem allDeployers_eq {vecDeployerAddrs : List Str} (hr : w.dbReader = dbReaderOf (some w.stored))
    (h : allDeployers w = .ok vecDeployerAddrs) : vecDeployerAddrs = deployers w.stored := by
  rw [allDeployers, hr, getTexts_eq _ kEvmAllDeployerAddr_ne_nil] at h
  by_cases hnone : w.stored kEvmAllDeployerAddr = none
  · rw [if_pos hnone] at h
    cases h
    rw [deployers, hnone]
    rfl
  · rw [if_neg hnone] at h
    cases h
    rfl

theorem notMem_contractTexts {key : Str} : key ∉ (contractKeys d c).map DbKey.text ↔
    key ≠ DbKey.text ⟨.contractDeployUtxoByContractAddr, .address c⟩
      ∧ key ≠ DbKey.text ⟨.contractCodeByContractAddr, .address c⟩
      ∧ key ≠ DbKey.text ⟨.latestUtxoByContractAddr, .address c⟩
      ∧ key ≠ DbKey.text ⟨.contractAddrByDeployerAddr, .address d⟩
      ∧ key ≠ DbKey.text ⟨.evmDeployerAddr, .nothing⟩ := by
  simp only [contractKeys, List.map_cons, List.map_nil, List.mem_cons, List.not_mem_nil, or_false,
    not_or, ne_eq]

theorem saveContract_saved {deployHash contractCode : Str}
    (h : saveContract w d deployHash c contractCode = .ok w') : Saved w.stored w'.stored d c := by
  simp only [saveContract, bind_eq_ok] at h
  obtain ⟨w₁, h₁, w₂, h₂, w₃, h₃, w₄, h₄, vecDeployerAddrs, hall, h₅⟩ := h
  -- the first three calls leave the two lists alone, the fourth that of all deployers
  have hcontracts : w₃.stored (contractsKey d) = w.stored (contractsKey d) := by
    rw [← text_contracts]
    exact attempts_other h₁ h₂ h₃ (by rintro ⟨⟩) (by rintro ⟨⟩) (by rintro ⟨⟩)
  have hdeployers : w₄.stored kEvmAllDeployerAddr = w.stored kEvmAllDeployerAddr := by
    rw [← text_deployers, attempt_other h₄ (by rintro ⟨⟩)]
    exact attempts_other h₁ h₂ h₃ (by rintro ⟨⟩) (by rintro ⟨⟩) (by rintro ⟨⟩)
  have hjoined : recorded w₄.stored d = insertAbsent c.1 false (recorded w.stored d) := by
    have hmerged := attempt_merged rfl (plainValue_address c) h₄
    rwa [← contractsKey, hcontracts] at hmerged
  have hothers : ∀ key ∉ (contractKeys d c).map DbKey.text, w₄.stored key = w.stored key := by
    intro key hkey
    obtain ⟨hk₁, hk₂, hk₃, hk₄, -⟩ := notMem_contractTexts.mp hkey
    rw [attempt_frame h₄ hk₄, attempt_frame h₃ hk₃, attempt_frame h₂ hk₂, attempt_frame h₁ hk₁]
  rw [allDeployers_eq (attempt_reads h₄) hall, deployers, hdeployers] at h₅
  split at h₅
  · rename_i hmem
    cases h₅
    refine ⟨hothers, hjoined, ?_, fun _ => hdeployers⟩
    rw [deployers, hdeployers, insertAbsent, deployers, if_pos hmem]
  · rename_i hmem
    refine ⟨fun k hk => ?_, ?_, ?_, fun h => absurd h hmem⟩
    · rw [attempt_frame h₅ (notMem_contractTexts.mp hk).2.2.2.2]
      exact hothers k hk
    · rw [← hjoined, recorded, ← contractsKey, ← text_contracts, attempt_other h₅ (by rintro ⟨⟩)]
      rfl
    · rw [deployers, attempt_merged rfl (plainValue_address d) h₅, hdeployers]
      rfl

theorem deleteContract_deleted (h : deleteContract w d c = .ok w') :
    Deleted w.stored w'.stored d c := by
  simp only [deleteContract, bind_eq_ok] at h
  obtain ⟨w₁, h₁, w₂, h₂, w₃, h₃, w₄, h₄, h₅⟩ := h
  have hcontracts : w₃.stored (contractsKey d) = w.stored (contractsKey d) := by
    rw [← text_contracts]
    exact attempts_other h₁ h₂ h₃ (by rintro ⟨⟩) (by rintro ⟨⟩) (by rintro ⟨⟩)
  have hdeployers : w₄.stored kEvmAllDeployerAddr = w.stored kEvmAllDeployerAddr := by
    rw [← text_deployers, attempt_other h₄ (by rintro ⟨⟩)]
    exact attempts_other h₁ h₂ h₃ (by rintro ⟨⟩) (by rintro ⟨⟩) (by rintro ⟨⟩)
  obtain ⟨hleft, hempty⟩ := attempt_removed rfl (plainValue_address c).1 h₄
  rw [← contractsKey, hcontracts] at hleft
  rw [← contractsKey] at hempty
  have hothers : ∀ key ∉ (contractKeys d c).map DbKey.text, w₄.stored key = w.stored key := by
    intro key hkey
    obtain ⟨hk₁, hk₂, hk₃, hk₄, -⟩ := notMem_contractTexts.mp hkey
    rw [attempt_frame h₄ hk₄, attempt_frame h₃ hk₃, attempt_frame h₂ hk₂, attempt_frame h₁ hk₁]
  have hdeploy : w₄.stored (kContractAddr2DeployUtxo ++ c.1) = none := by
    have hgone : w₁.stored (kContractAddr2DeployUtxo ++ c.1) = none := attempt_deleted rfl h₁
    rw [← hgone]
    exact attempts_other (k := ⟨.contractDeployUtxoByContractAddr, .address c⟩) h₂ h₃ h₄
      (by rintro ⟨⟩) (by rintro ⟨⟩) (by rintro ⟨⟩)
  have hcode : w₄.stored (kContractAddr2ContractCode ++ c.1) = none := by
    have hgone : w₂.stored (kContractAddr2ContractCode ++ c.1) = none := attempt_deleted rfl h₂
    have hk : w₃.stored (DbKey.text ⟨.contractCodeByContractAddr, .address c⟩) = _ :=
      attempt_other h₃ (by rintro ⟨⟩)
    have hk' : w₄.stored (DbKey.text ⟨.contractCodeByContractAddr, .address c⟩) = _ :=
      attempt_other h₄ (by rintro ⟨⟩)
    exact hk'.trans (hk.trans hgone)
  have hlatest : w₄.stored (kContractAddr2LatestUtxo ++ c.1) = none := by
    have hgone : w₃.stored (kContractAddr2LatestUtxo ++ c.1) = none := attempt_deleted rfl h₃
    have hk : w₄.stored (DbKey.text ⟨.latestUtxoByContractAddr, .address c⟩) = _ :=
      attempt_other h₄ (by rintro ⟨⟩)
    exact hk.trans hgone
  have hread : (w₄.dbReader.getTexts (contractsKey d)).toOption.getD [] = recorded w₄.stored d := by
    rw [attempt_reads h₄, getTexts_eq _ (contractsKey_ne_nil d), recorded, ← contractsKey]
    split
    · rename_i hnone
      rw [hnone]
      rfl
    · rfl
  rw [← contractsKey, hread] at h₅
  split at h₅
  · rename_i hlast
    -- the last contract is gone: the deployer leaves the list of all
    have hkept : ∀ k : DbKey, k ≠ ⟨.evmDeployerAddr, .nothing⟩ →
        w'.stored k.text = w₄.stored k.text := fun k hk => attempt_other h₅ hk
    have hcontracts₅ : w'.stored (contractsKey d) = w₄.stored (contractsKey d) :=
      hkept ⟨.contractAddrByDeployerAddr, .address d⟩ (by rintro ⟨⟩)
    obtain ⟨hall, hallEmpty⟩ := attempt_removed rfl (plainValue_address d).1 h₅
    rw [hdeployers] at hall
    refine ⟨fun k hk => ?_, ?_, ?_, ?_, ?_, hcontracts₅ ▸ hempty, fun _ => ⟨hall, hallEmpty⟩,
      fun hne => ?_⟩
    · rw [attempt_frame h₅ (notMem_contractTexts.mp hk).2.2.2.2]
      exact hothers k hk
    · exact (hkept ⟨.contractDeployUtxoByContractAddr, .address c⟩ (by rintro ⟨⟩)).trans hdeploy
    · exact (hkept ⟨.contractCodeByContractAddr, .address c⟩ (by rintro ⟨⟩)).trans hcode
    · exact (hkept ⟨.latestUtxoByContractAddr, .address c⟩ (by rintro ⟨⟩)).trans hlatest
    · exact (congrArg listOf hcontracts₅).trans hleft
    · exact absurd ((congrArg listOf hcontracts₅).trans hlast) hne
  · rename_i hne
    cases h₅
    exact ⟨hothers, hdeploy, hcode, hlatest, hleft, hempty, fun hlast => absurd hlast hne,
      fun _ => hdeployers⟩

end Calls

/-! ### Whether deleting undoes saving -/

section Inverse
variable {data data₁ data₂ : Store} {d c : AddressText} {freed : FreedMemory}

/-- An absent value that is put at the end and taken out again leaves the list as it was. -/
theorem eraseValues_insertAbsent {v : Str} {l : List Str} (h : v ∉ l) :
    eraseValues v (insertAbsent v false l) = l := by
  rw [insertAbsent, if_neg h, if_neg Bool.false_ne_true, eraseValues_eq_filter, List.filter_append,
    List.filter_eq_self.mpr fun x hx => ?_]
  · simp
  · rw [decide_eq_true_eq]
    rintro rfl
    exact h hx

theorem mem_eraseValues {v x : Str} {l : List Str} : x ∈ eraseValues v l ↔ x ∈ l ∧ x ≠ v := by
  simp [eraseValues_eq_filter]

/-- The contracts of the deployer are the same list as before. -/
theorem recorded_restored (hnew : NotRecorded data d c) (hs : Saved data data₁ d c)
    (hd : Deleted data₁ data₂ d c) : recorded data₂ d = recorded data d := by
  rw [hd.contracts, hs.contracts, eraseValues_insertAbsent hnew.notListed]

/-- Everything but the two lists is as before. -/
theorem text_restored (hnew : NotRecorded data d c) (hs : Saved data data₁ d c)
    (hd : Deleted data₁ data₂ d c) {key : Str} (hkey₁ : key ≠ contractsKey d)
    (hkey₂ : key ≠ kEvmAllDeployerAddr) : data₂ key = data key := by
  by_cases hkey : key ∈ (contractKeys d c).map DbKey.text
  · rw [← text_contracts] at hkey₁
    rw [← text_deployers] at hkey₂
    simp only [contractKeys, List.map_cons, List.map_nil, List.mem_cons, List.not_mem_nil, or_false,
      hkey₁, hkey₂] at hkey
    obtain rfl | rfl | rfl := hkey
    · exact hd.deployUtxo.trans hnew.deployUtxo.symm
    · exact hd.code.trans hnew.code.symm
    · exact hd.latestUtxo.trans hnew.latestUtxo.symm
  · rw [hd.others key hkey, hs.others key hkey]

/-- The keys of the two lists are too long to stand in the memory a getter reads after it is given
    back. -/
theorem ne_lists_of_short {key : Str} (d : AddressText) (h : key.length ≤ localCapacity) :
    key ≠ contractsKey d ∧ key ≠ kEvmAllDeployerAddr := by
  constructor <;> rintro rfl
  · rw [contractsKey, List.length_append, d.2.1] at h
    exact absurd h (by decide)
  · exact absurd h (by decide)

/-- A getter of other entries than the two lists. -/
theorem getter_keys_ne {g : Getter} (h₁ : g ≠ .getContractAddrByDeployerAddr d)
    (h₂ : g ≠ .getAllEvmDeployerAddr) : ∀ k ∈ g.keys,
      k.text ≠ contractsKey d ∧ k.text ≠ kEvmAllDeployerAddr := by
  intro k hk
  suffices hne : k ≠ ⟨.contractAddrByDeployerAddr, .address d⟩ ∧ k ≠ ⟨.evmDeployerAddr, .nothing⟩ by
    rw [← text_contracts, ← text_deployers]
    exact ⟨mt (@DbKey.text_injective k _) hne.1, mt (@DbKey.text_injective k _) hne.2⟩
  cases g with
  | getAllEvmDeployerAddr => exact absurd rfl h₂
  | getContractAddrByDeployerAddr deployerAddr =>
    rw [List.mem_singleton.mp hk]
    refine ⟨fun h => h₁ ?_, by nofun⟩
    cases h
    rfl
  | getBlockHashesByBlockHeight =>
    obtain ⟨height, -, rfl⟩ := List.mem_map.mp hk
    exact ⟨by nofun, by nofun⟩
  | getBlocksByBlockHash =>
    obtain ⟨hash, -, rfl⟩ := List.mem_map.mp hk
    exact ⟨by nofun, by nofun⟩
  | _ =>
    rw [List.mem_singleton.mp hk]
    exact ⟨by nofun, by nofun⟩

/-- Two texts of one list, the second never an empty one, read the same when the first is none
    either. -/
theorem getTexts_same_iff {α : Type} {key : Str} (f : List Str → α) (hkey : key ≠ [])
    (hlist : listOf (data₂ key) = listOf (data key)) (hempty : NoEmptyList (data₂ key)) :
    ((dbReaderOf (some data₂)).getTexts key).map f = ((dbReaderOf (some data)).getTexts key).map f
      ↔ NoEmptyList (data key) := by
  rw [getTexts_eq _ hkey, getTexts_eq _ hkey, hlist]
  rw [NoEmptyList, hlist] at hempty
  by_cases hnone : data key = none
  · simp [hnone, NoEmptyList, listOf, hempty]
  · by_cases hnil : listOf (data key) = []
    · simp [hnone, NoEmptyList, hempty.mpr hnil, hnil, Except.map]
    · simp [hnone, NoEmptyList, mt hempty.mp hnil, hnil]

/-- The same set of deployers is read, so the same deployers are on the list. -/
theorem mem_deployers_of_same
    (h : SameAnswer (readsOf freed (some data)) (readsOf freed (some data₂)) .getAllEvmDeployerAddr)
    (v : Str) :
    v ∈ deployers data₂ ↔ v ∈ deployers data := by
  rw [SameAnswer, readsOf_toDBReader, readsOf_toDBReader, getTexts_eq _ kEvmAllDeployerAddr_ne_nil,
    getTexts_eq _ kEvmAllDeployerAddr_ne_nil] at h
  have hnone : ∀ {content : Option Str}, content = none → v ∉ listOf content := by
    rintro _ rfl
    exact List.not_mem_nil
  split at h <;> split at h
  · rename_i h₂ h₁
    exact iff_of_false (hnone h₂) (hnone h₁)
  · cases h
  · cases h
  · rw [Except.map, Except.map, Except.ok.injEq] at h
    rw [deployers, deployers, ← List.mem_toFinset, h, List.mem_toFinset]

/-- The list of all deployers is the same set as before when the deployer was on it with contracts, or
    off it without. -/
theorem deployers_restored_iff (hnew : NotRecorded data d c) (hs : Saved data data₁ d c)
    (hd : Deleted data₁ data₂ d c) :
    SameAnswer (readsOf freed (some data)) (readsOf freed (some data₂)) .getAllEvmDeployerAddr
      ↔ NoEmptyList (data kEvmAllDeployerAddr)
        ∧ (d.1 ∈ deployers data ↔ recorded data d ≠ []) := by
  have hrec := recorded_restored hnew hs hd
  have hall := hs.allDeployers
  by_cases hmem : d.1 ∈ deployers data
  · by_cases hnil : recorded data d = []
    · -- listed without a contract: deleting takes it off
      refine iff_of_false (fun hsame => ?_) fun h => h.2.mp hmem hnil
      have herased := (hd.last (hrec.trans hnil)).1
      have hmem₂ := (mem_deployers_of_same hsame d.1).mpr hmem
      rw [herased, eraseValues_eq_filter] at hmem₂
      simpa using (List.mem_filter.mp hmem₂).2
    · -- listed with contracts: neither call touches the list
      have hsame : data₂ kEvmAllDeployerAddr = data kEvmAllDeployerAddr :=
        (hd.notLast (hrec ▸ hnil)).trans (hs.kept hmem)
      refine iff_of_true ?_ ⟨noEmptyList_of_mem hmem, iff_of_true hmem hnil⟩
      rw [SameAnswer, readsOf_toDBReader, readsOf_toDBReader, getTexts_eq _ kEvmAllDeployerAddr_ne_nil,
        getTexts_eq _ kEvmAllDeployerAddr_ne_nil, hsame]
  · by_cases hnil : recorded data d = []
    · -- neither: it joins the list and leaves it again
      obtain ⟨herased, hempty⟩ := hd.last (hrec.trans hnil)
      rw [hall, eraseValues_insertAbsent hmem] at herased
      rw [SameAnswer, readsOf_toDBReader, readsOf_toDBReader,
        getTexts_same_iff _ kEvmAllDeployerAddr_ne_nil herased hempty]
      exact ⟨fun h => ⟨h, iff_of_false hmem (not_not.mpr hnil)⟩, fun h => h.1⟩
    · -- contracts without being listed: saving puts it on, and there it stays
      refine iff_of_false (fun hsame => ?_) fun h => hmem (h.2.mpr hnil)
      refine hmem ((mem_deployers_of_same hsame d.1).mp ?_)
      rw [deployers, hd.notLast (hrec ▸ hnil), ← deployers, hall, insertAbsent, if_neg hmem]
      simp

/-- Deleting undoes saving exactly where the lists are kept. -/
theorem sameAnswers_iff (hnew : NotRecorded data d c) (hs : Saved data data₁ d c)
    (hd : Deleted data₁ data₂ d c) : SameAnswers data data₂ ↔ ListsKept data d := by
  have hcontracts : ∀ freed, SameAnswer (readsOf freed (some data)) (readsOf freed (some data₂))
      (.getContractAddrByDeployerAddr d) ↔ NoEmptyList (data (contractsKey d)) := by
    intro freed
    rw [← getTexts_same_iff id (contractsKey_ne_nil d) (recorded_restored hnew hs hd) hd.noEmptyList]
    simp [SameAnswer, Getter.call, Except.map_id, contractsKey, readsOf]
  constructor
  · intro h
    -- what the memory shows is all one to these two
    have hall := (deployers_restored_iff hnew hs hd).mp (h (showing []) .getAllEvmDeployerAddr)
    exact ⟨(hcontracts _).mp (h (showing []) (.getContractAddrByDeployerAddr d)), hall.1, hall.2⟩
  · intro h freed g
    by_cases h₁ : g = .getContractAddrByDeployerAddr d
    · rw [h₁]
      exact (hcontracts freed).mpr h.contracts
    by_cases h₂ : g = .getAllEvmDeployerAddr
    · rw [h₂]
      exact (deployers_restored_iff hnew hs hd).mpr ⟨h.allDeployers, h.listed⟩
    · have hsame : g.call (readsOf freed (some data₂)) = g.call (readsOf freed (some data)) := by
        refine g.call_congr freed (fun k hk => ?_) fun _ key hshort => ?_
        · obtain ⟨hk₁, hk₂⟩ := getter_keys_ne h₁ h₂ k hk
          exact text_restored hnew hs hd hk₁ hk₂
        · obtain ⟨hk₁, hk₂⟩ := ne_lists_of_short d hshort
          exact text_restored hnew hs hd hk₁ hk₂
      cases g with
      | getAllEvmDeployerAddr => exact absurd rfl h₂
      | _ => exact hsame

end Inverse

/-! ### The databases there are -/

/-- The databases the program can have: from one without contracts, saves and deletes in transactions of
    their own, and calls of the setters of other tables. -/
inductive Reached : Store → Prop
  | noContracts {data : Store} (hcontracts : ∀ d, data (contractsKey d) = none)
      (hdeployers : data kEvmAllDeployerAddr = none) : Reached data
  | contract {data : Store} (op : ContractOp) (h : Reached data) : Reached (op.step data)
  | other {data : Store} (s : Setter) (hcontracts : s.key.1 ≠ .contractAddrByDeployerAddr)
      (hdeployers : s.key.1 ≠ .evmDeployerAddr) (h : Reached data) :
      Reached (s.call (openWriter data)).2.stored

section Kept
variable {data data' : Store} {d c : AddressText}

theorem recorded_other (h : ∀ key ∉ (contractKeys d c).map DbKey.text, data' key = data key)
    {d' : AddressText} (hd : d' ≠ d) : data' (contractsKey d') = data (contractsKey d') := by
  refine h (DbKey.text ⟨.contractAddrByDeployerAddr, .address d'⟩) (notMem_contractTexts.mpr ?_)
  have hne : ∀ {k : DbKey}, (⟨.contractAddrByDeployerAddr, .address d'⟩ : DbKey) ≠ k →
      DbKey.text ⟨.contractAddrByDeployerAddr, .address d'⟩ ≠ k.text :=
    fun h htext => h (DbKey.text_injective htext)
  refine ⟨hne (by nofun), hne (by nofun), hne (by nofun), hne fun hk => hd ?_, hne (by nofun)⟩
  cases hk
  rfl

/-- Saving keeps the lists. -/
theorem Saved.listsKept (hs : Saved data data' d c) (h : ∀ d, ListsKept data d) (d' : AddressText) :
    ListsKept data' d' := by
  have hmem : d.1 ∈ deployers data' := by
    rw [hs.allDeployers, insertAbsent]
    split
    · assumption
    · simp
  by_cases hd : d' = d
  · subst hd
    have hne : recorded data' d' ≠ [] := hs.contracts ▸ insertAbsent_ne_nil _ _ _
    obtain ⟨v, hv⟩ := List.exists_mem_of_ne_nil _ hne
    exact ⟨noEmptyList_of_mem hv, noEmptyList_of_mem hmem, iff_of_true hmem hne⟩
  · have hsame := recorded_other hs.others hd
    refine ⟨hsame ▸ (h d').contracts, noEmptyList_of_mem hmem, ?_⟩
    rw [recorded, ← contractsKey, hsame, hs.allDeployers]
    refine Iff.trans ⟨fun hin => ?_, fun hin => ?_⟩ (h d').listed
    · exact (mem_insertAbsent hin).resolve_left fun heq => hd (Subtype.ext heq)
    · rw [insertAbsent]
      split
      · exact hin
      · exact List.mem_append_left _ hin

/-- Deleting keeps them too. -/
theorem Deleted.listsKept (hd : Deleted data data' d c) (h : ∀ d, ListsKept data d)
    (d' : AddressText) : ListsKept data' d' := by
  have hall : NoEmptyList (data' kEvmAllDeployerAddr) := by
    by_cases hlast : recorded data' d = []
    · exact (hd.last hlast).2
    · exact hd.notLast hlast ▸ (h d).allDeployers
  by_cases hdd : d' = d
  · subst hdd
    refine ⟨hd.noEmptyList, hall, ?_⟩
    by_cases hlast : recorded data' d' = []
    · rw [(hd.last hlast).1, mem_eraseValues]
      exact iff_of_false (fun hmem => hmem.2 rfl) (not_not.mpr hlast)
    · rw [deployers, hd.notLast hlast, ← deployers, (h d').listed]
      refine iff_of_true (fun hnil => hlast ?_) hlast
      rw [hd.contracts, hnil, eraseValues_eq_filter]
      rfl
  · have hsame := recorded_other hd.others hdd
    refine ⟨hsame ▸ (h d').contracts, hall, ?_⟩
    have hmem : d'.1 ∈ deployers data' ↔ d'.1 ∈ deployers data := by
      by_cases hlast : recorded data' d = []
      · rw [(hd.last hlast).1, mem_eraseValues]
        exact and_iff_left fun heq => hdd (Subtype.ext heq)
      · rw [deployers, hd.notLast hlast, ← deployers]
    rw [hmem, recorded, ← contractsKey, hsame]
    exact (h d').listed

/-- So the lists are kept in every database there is. -/
theorem Reached.listsKept (h : Reached data) : ∀ d, ListsKept data d := by
  induction h with
  | @noContracts data hcontracts hdeployers =>
    intro d
    have hnone : data (kDeployerAddr2ContractAddr ++ d.1) = none := hcontracts d
    refine ⟨?_, ?_, ?_⟩
    · rw [hcontracts d]
      exact composite_none.absent
    · rw [hdeployers]
      exact composite_none.absent
    · simp [deployers, recorded, hdeployers, hnone, listOf]
  | @contract data op _ ih =>
    cases hrun : op.call (openWriter data) with
    | error e => simpa only [ContractOp.step, hrun] using ih
    | ok w =>
      simp only [ContractOp.step, hrun]
      cases op with
      | saveContract => exact (saveContract_saved hrun).listsKept ih
      | deleteContract => exact (deleteContract_deleted hrun).listsKept ih
  | @other data s hcontracts hdeployers _ ih =>
    intro d
    have hframe : ∀ k : DbKey, k.1 ≠ s.key.1 →
        (s.call (openWriter data)).2.stored k.text = data k.text := by
      intro k hk
      refine (s.call_frame (openWriter data)).1 _ fun htext => hk ?_
      exact congrArg Sigma.fst (DbKey.text_injective (htext.trans s.action_key))
    have hown : (s.call (openWriter data)).2.stored (contractsKey d) = data (contractsKey d) :=
      hframe ⟨.contractAddrByDeployerAddr, .address d⟩ (Ne.symm hcontracts)
    have hall : (s.call (openWriter data)).2.stored kEvmAllDeployerAddr
        = data kEvmAllDeployerAddr := by
      rw [← text_deployers]
      exact hframe ⟨.evmDeployerAddr, .nothing⟩ (Ne.symm hdeployers)
    refine ⟨hown ▸ (ih d).contracts, hall ▸ (ih d).allDeployers, ?_⟩
    rw [deployers, hall, recorded, ← contractsKey, hown]
    exact (ih d).listed

end Kept

/-- From every database, a contract in none of the tables that is saved and then deleted leaves every
    query answered as before if and only if the lists were kept: no empty list was stored, and the
    deployer was on the list of all deployers exactly when it had a contract. The lists are kept in
    every database the program can have. -/
theorem deleteContract_undoes_saveContract :
    (∀ (dbReadWriter w₁ w₂ : RocksDBReadWriter) (deployer contract : AddressText)
        (deployHash contractCode : Str), NotRecorded dbReadWriter.stored deployer contract →
        saveContract dbReadWriter deployer deployHash contract contractCode = .ok w₁ →
        deleteContract w₁ deployer contract = .ok w₂ →
        (SameAnswers dbReadWriter.stored w₂.stored ↔ ListsKept dbReadWriter.stored deployer))
      ∧ ∀ data, Reached data → ∀ deployer, ListsKept data deployer :=
  ⟨fun _ _ _ _ _ _ _ hnew hsave hdelete =>
      sameAnswers_iff hnew (saveContract_saved hsave) (deleteContract_deleted hdelete),
    fun _ h => h.listsKept⟩

/-- The sample deployer's contract of this number comes and goes. -/
def comeAndGo (data : Store) (i : ℕ) : Except Exit RocksDBReadWriter := do
  let w₁ ← saveContract (openWriter data) sampleDeployer (str "h") (sampleContract i) (str "60")
  deleteContract w₁ sampleDeployer (sampleContract i)

theorem exists_calls {data : Store} {i : ℕ} (h : (comeAndGo data i).toBool) : ∃ w₁ w₂,
    saveContract (openWriter data) sampleDeployer (str "h") (sampleContract i) (str "60") = .ok w₁
      ∧ deleteContract w₁ sampleDeployer (sampleContract i) = .ok w₂ := by
  cases hrun : comeAndGo data i with
  | error e =>
    rw [hrun] at h
    cases h
  | ok w₂ =>
    rw [comeAndGo, bind_eq_ok] at hrun
    obtain ⟨w₁, h₁, h₂⟩ := hrun
    exact ⟨w₁, w₂, h₁, h₂⟩

/-- A database in which the sample deployer has one contract. -/
def oneContract : Store :=
  (ContractOp.saveContract sampleDeployer (str "h1") (sampleContract 1) (str "6001")).step
    StdMap.empty

/-- Its second contract comes and goes. -/
theorem deleteContract_undoes_saveContract_second : ∃ w₁ w₂,
    saveContract (openWriter oneContract) sampleDeployer (str "h") (sampleContract 2) (str "60")
        = .ok w₁
      ∧ deleteContract w₁ sampleDeployer (sampleContract 2) = .ok w₂
      ∧ SameAnswers oneContract w₂.stored := by
  have hnew : NotRecorded oneContract sampleDeployer (sampleContract 2) :=
    ⟨by decide, by decide, by decide, by decide⟩
  have hreached : Reached oneContract := .contract _ (.noContracts (fun _ => rfl) rfl)
  obtain ⟨w₁, w₂, hsave, hdelete⟩ := @exists_calls oneContract 2 (by decide +kernel)
  refine ⟨w₁, w₂, hsave, hdelete, ?_⟩
  exact (deleteContract_undoes_saveContract.1 (openWriter oneContract) w₁ w₂ sampleDeployer
    (sampleContract 2) (str "h") (str "60") hnew hsave hdelete).mpr
    (deleteContract_undoes_saveContract.2 oneContract hreached sampleDeployer)

/-- A database that has the sample deployer on the list of all, without a contract. -/
def listedOnly : Store := StdMap.empty.set kEvmAllDeployerAddr sampleDeployer.1

/-- There the deployer is taken off the list, which it was on before. -/
theorem deployer_taken_off : ¬ ∀ (dbReadWriter w₁ w₂ : RocksDBReadWriter)
    (deployer contract : AddressText) (deployHash contractCode : Str),
    NotRecorded dbReadWriter.stored deployer contract →
    saveContract dbReadWriter deployer deployHash contract contractCode = .ok w₁ →
    deleteContract w₁ deployer contract = .ok w₂ →
    SameAnswers dbReadWriter.stored w₂.stored := by
  intro h
  have hnew : NotRecorded listedOnly sampleDeployer (sampleContract 1) :=
    ⟨by decide, by decide, by decide, by decide⟩
  obtain ⟨w₁, w₂, hsave, hdelete⟩ := @exists_calls listedOnly 1 (by decide +kernel)
  have hsame := h (openWriter listedOnly) w₁ w₂ sampleDeployer (sampleContract 1) _ _ hnew hsave hdelete
  have hkept := (sameAnswers_iff hnew (saveContract_saved hsave) (deleteContract_deleted hdelete)).mp
    hsame
  have hlisted : sampleDeployer.1 ∈ deployers listedOnly := by decide
  exact hkept.listed.mp hlisted (by decide)

end Tfs.Evm
