import Tfs.Ca.AddContractInfo

/-! The address a contract is deployed to (`TransactionCache::_AddContractInfoCache`).

    Before a deployment the recipient of the transaction is compared with the address that is next for
    the sender. The comparison answers with a `bool`, and the caller looks for a negative number in it:
    so any recipient passes, and the contract is deployed to the address the transaction names. -/

namespace Tfs.Ca
open Tfs.Db Tfs.Evm

variable {φ : Type} (env : ExecEnv φ)

/-- The sender, as `GetCallContractFromAddr` finds it. -/
def callContractFromAddr (tx : CTransaction) : Str := (env.getCallContractFromAddr tx (env.isMultiSign tx)).2

/-- The recipient that the transaction names is the address that is next for its sender. -/
def RecipientIsLatest (tx : CTransaction) : Prop :=
  ∃ txInfo, readTxInfo env tx = some txInfo
    ∧ latestContractAddress env (callContractFromAddr env tx) = some txInfo.contractAddress

/-- The deployment is executed. -/
def ExecutesDeployment (tx : CTransaction) : Prop :=
  ∃ fromAddr code contractAddress blockTimestamp blockPrevRandao,
    prepare env tx = .ok (.deploy fromAddr code contractAddress blockTimestamp blockPrevRandao)

/-- A deployment is executed to the next address only, and for any other recipient there is an error and
    nothing is recorded. -/
def AddressIsChecked (blockNumber : Int64) (caches : ExecCaches) (tx : CTransaction)
    (contractInfoCache : StdMap Str (ContractInfoEntry ContractRecord)) : Prop :=
  (ExecutesDeployment env tx → RecipientIsLatest env tx) ∧
    (¬ RecipientIsLatest env tx → ∃ ret, ret ≠ 0
      ∧ addContractInfoOf env blockNumber caches tx contractInfoCache = (.error (.ret ret), contractInfoCache))

/-- A deployment that is refused whatever its recipient: there is no sender, the data cannot be read, they
    name another sender, their parameters are wrong or there is no code; and for another machine than the
    EVM, the transaction was not announced. -/
def RefusedAnyway (tx : CTransaction) : Prop :=
  (env.getCallContractFromAddr tx (env.isMultiSign tx)).1 ≠ 0 ∨
    match readTxInfo env tx with
    | none => True
    | some txInfo =>
      if txInfo.vmType ≠ vmTypeEVM then env.dirtyContractMap tx.hash = none
      else txInfo.ownerEvmAddr ≠ callContractFromAddr env tx ∨ verifyEvmParameters env tx < 0
        ∨ txInfo.input = []

variable {env} {tx : CTransaction}

/-- Parameters that were verified are there. -/
theorem parameters_of_verified (h : ¬ verifyEvmParameters env tx < 0) :
    ¬ getBlockTimestamp env tx < 0 ∧ ¬ getBlockPrevRandao env tx < 0 := by
  simp only [verifyEvmParameters] at h
  refine ⟨fun hneg => ?_, fun hneg => ?_⟩
  · rw [if_pos hneg] at h
    exact h (by decide)
  · rw [if_pos hneg] at h
    split_ifs at h <;> exact h (by decide)

variable (env) in
/-- How the preparation of a deployment ends: refused, with nothing to execute, or with the deployment. -/
theorem prepare_deploy (htype : tx.txType = kTxTypeDeployContract) :
    (RefusedAnyway env tx ∧ ∃ ret, ret ≠ 0 ∧ prepare env tx = .error (.ret ret))
    ∨ ((RefusedAnyway env tx ↔ env.dirtyContractMap tx.hash = none) ∧ prepare env tx = .ok .notEvm)
    ∨ (¬ RefusedAnyway env tx ∧ ∃ fromAddr code contractAddress blockTimestamp blockPrevRandao,
        prepare env tx = .ok (.deploy fromAddr code contractAddress blockTimestamp blockPrevRandao)) := by
  simp only [prepare, RefusedAnyway, callContractFromAddr]
  by_cases hfrom : (env.getCallContractFromAddr tx (env.isMultiSign tx)).1 = 0
  swap
  · exact .inl ⟨.inl hfrom, -1, by decide, by simp [Exit.when, hfrom, bind, Except.bind]⟩
  cases hread : readTxInfo env tx with
  | none => exact .inl ⟨.inr trivial, -2, by decide, by simp [Exit.when, hfrom, bind, Except.bind]⟩
  | some txInfo =>
    by_cases hvm : txInfo.vmType = vmTypeEVM
    swap
    · refine .inr (.inl ⟨by simp [hfrom, hvm], by simp [Exit.when, hfrom, hvm, bind, Except.bind]⟩)
    by_cases howner : txInfo.ownerEvmAddr = (env.getCallContractFromAddr tx (env.isMultiSign tx)).2
    swap
    · exact .inl ⟨.inr (by simp [hvm, howner]), -3, by decide,
        by simp [Exit.when, hfrom, hvm, howner, bind, Except.bind]⟩
    by_cases hverify : verifyEvmParameters env tx < 0
    · exact .inl ⟨.inr (by simp [hvm, hverify]), -99, by decide,
        by simp [Exit.when, hfrom, hvm, howner, hverify, bind, Except.bind]⟩
    -- a `bool` is never negative
    have hbool : ¬ (if verifyContractAddressOf env (env.getCallContractFromAddr tx (env.isMultiSign tx)).2
        txInfo.contractAddress then (1 : ℤ) else 0) < 0 := by split <;> decide
    by_cases hcode : txInfo.input = []
    · refine .inl ⟨.inr (by simp [hvm, hcode]), -21, by decide, ?_⟩
      simp [Exit.when, hfrom, hvm, howner, hverify, hcode, htype, hbool, bind, Except.bind]
    · obtain ⟨htime, hrandao⟩ := parameters_of_verified hverify
      refine .inr (.inr ⟨by simp [hfrom, hvm, howner, hverify, hcode],
        (env.getCallContractFromAddr tx (env.isMultiSign tx)).2, txInfo.input, txInfo.contractAddress,
        getBlockTimestamp env tx, getBlockPrevRandao env tx, ?_⟩)
      simp [Exit.when, hfrom, hvm, howner, hverify, hcode, htype, hbool, htime, hrandao, bind, Except.bind]

/-- The address is checked exactly if it is the right one or the deployment is refused anyway. -/
theorem addressIsChecked_iff (env : ExecEnv φ) (blockNumber : Int64) (caches : ExecCaches)
    (tx : CTransaction) (htype : tx.txType = kTxTypeDeployContract)
    (contractInfoCache : StdMap Str (ContractInfoEntry ContractRecord)) :
    AddressIsChecked env blockNumber caches tx contractInfoCache
      ↔ RecipientIsLatest env tx ∨ RefusedAnyway env tx := by
  have hkind : isContractTransaction tx = true := by simp [isContractTransaction, htype]
  by_cases hlatest : RecipientIsLatest env tx
  · exact iff_of_true ⟨fun _ => hlatest, fun h => absurd hlatest h⟩ (.inl hlatest)
  rw [AddressIsChecked, or_iff_right hlatest]
  rcases prepare_deploy env htype with ⟨hrefused, ret, hret, hprep⟩ | ⟨hiff, hprep⟩ | ⟨hnot, hexec⟩
  · refine iff_of_true ⟨fun ⟨_, _, _, _, _, h⟩ => ?_, fun _ => ⟨ret, hret, ?_⟩⟩ hrefused
    · cases hprep.symm.trans h
    · simp [addContractInfoOf, executeTx, hkind, hprep, bind, Except.bind]
  · rw [hiff]
    constructor
    · rintro ⟨-, h⟩
      obtain ⟨ret, -, h⟩ := h hlatest
      cases hdirty : env.dirtyContractMap tx.hash with
      | none => rfl
      | some found =>
        have hok : (addContractInfoOf env blockNumber caches tx contractInfoCache).1 = .ok () := by
          simp [addContractInfoOf, executeTx, hkind, hprep, execute, runPrepared, verifyDirtyContract, hdirty,
            Exit.when, bind, Except.bind]
        rw [h] at hok
        cases hok
    · intro hdirty
      refine ⟨fun ⟨_, _, _, _, _, h⟩ => ?_, fun _ => ⟨-7, by decide, ?_⟩⟩
      · cases hprep.symm.trans h
      · simp [addContractInfoOf, executeTx, hkind, hprep, execute, runPrepared, verifyDirtyContract, hdirty,
          Exit.when, bind, Except.bind]
  · exact iff_of_false (fun h => hlatest (h.1 hexec)) hnot

/-! A deployment by an address that has deployed nothing yet. -/

/-- The address of the public key `pub`, and the one its first contract gets. -/
def deployerText : Str := str "2A20063cD69Cf91D60e2c04557953801Fa762B07"
def firstContract : Str := str "3A64387226941f23fE71bae635E3b56Cf3D8514F"

/-- The data of the deployment of a code that returns one byte. -/
def deployData (recipient : Str) : Str :=
  str "\x7b\"TxInfo\":\x7b\"blockPrevRandao\":195,\"blockTimestamp\":1700000000,\"input\":\"600160005360016000f3\",\"recipient\":\""
    ++ recipient ++ str "\",\"sender\":\"" ++ deployerText ++ str "\",\"virtualMachine\":0\x7d\x7d"

/-- The JSON it stands for. -/
def deployJson (recipient : Str) : Json ℚ :=
  .object [(str "TxInfo", .object [(str "blockPrevRandao", .number 195),
    (str "blockTimestamp", .number 1700000000), (str "input", .string (str "600160005360016000f3")),
    (str "recipient", .string recipient), (str "sender", .string deployerText),
    (str "virtualMachine", .number 0)])]

/-- The transaction, which spends one output of the sender. -/
def deployTx (recipient : Str) : CTransaction :=
  { CTransaction.cleared with
    hash := str "d"
    txType := kTxTypeDeployContract
    data := deployData recipient
    utxo := { CTxUtxo.cleared with vin := [⟨[⟨str "ab", 0⟩], some ⟨[], str "pub"⟩, 0, []⟩] } }

/-- A contract of somebody else. -/
def otherContract : Str := List.replicate 40 49

/-- A database with the deployer's balance only, and a machine that returns the byte. -/
def deployEnv : ExecEnv ℚ where
  db := ⟨fun key => if key = kAddress2BalanceKey ++ deployerText then .found (str "100000") else .notFound⟩
  machine := ⟨some true, fun _ _ _ _ host => some (host, ⟨.success, [1]⟩)⟩
  codec := Rlp.rlp
  getsha256hash := id
  generateAddr s := if s = str "pub" then deployerText else firstContract
  keccak256Crypt s :=
    if s = otherContract then str "2d6ca42d0b5f46b311277710cd2dcf95bd59948e0957e7e167ebbf11ac592fc3"
    else str "8a0d5e01dcac053a0d5c5ffdcc487e89a18e5c476a45904b01443b2ecc644825"
  keccak256 := id
  balanceByUtxo _ := 0
  callPrecompile _ := none
  contractRootHash _ := .empty
  getChainId := 1
  kCurrentTransactionVersion := 1
  parse s := if s = deployData firstContract then some (deployJson firstContract)
    else if s = deployData otherContract then some (deployJson otherContract) else none
  toUInt32 _ := 0
  toUInt64 _ := 0
  toInt64 _ := 0
  isMultiSign _ := false
  getCallContractFromAddr _ _ := (0, deployerText)
  calculateBlockTimestamp _ := 1700000000
  dirtyContractMap := StdMap.empty.set (str "d") [otherContract]

/-- The first contract is deployed to the first address. -/
theorem addressIsChecked_iff_first :
    AddressIsChecked deployEnv 1 .start (deployTx firstContract) .empty :=
  (addressIsChecked_iff deployEnv 1 .start (deployTx firstContract) rfl .empty).mpr
    (.inl ⟨⟨deployerText, vmTypeEVM, str "600160005360016000f3", firstContract, 0⟩, by decide +kernel,
      by decide⟩)

/-- The recipient is another contract, and the deployment to it is executed and recorded. -/
theorem deploys_over_other_contract :
    ¬ AddressIsChecked deployEnv 1 .start (deployTx otherContract) .empty
      ∧ (addContractInfoOf deployEnv 1 .start (deployTx otherContract) .empty).1 = .ok () := by
  have hprepare : prepare deployEnv (deployTx otherContract) = .ok (.deploy deployerText
      (str "600160005360016000f3") otherContract 1700000000 195) := by decide +kernel
  have hread : readTxInfo deployEnv (deployTx otherContract) = some ⟨deployerText, vmTypeEVM,
      str "600160005360016000f3", otherContract, 0⟩ := by decide +kernel
  have hlatest : latestContractAddress deployEnv (callContractFromAddr deployEnv (deployTx otherContract))
      = some firstContract := by decide
  refine ⟨fun h => ?_, by decide +kernel⟩
  obtain ⟨txInfo, hinfo, haddr⟩ := h.1 ⟨_, _, _, _, _, hprepare⟩
  rw [hread] at hinfo
  cases hinfo
  rw [hlatest] at haddr
  exact absurd haddr (by decide)

end Tfs.Ca
