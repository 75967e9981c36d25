import Tfs.Db.Schema

/-! Recording and deleting contracts (`ca/evm/evm_manager.cpp`, `GetNonce` and `GetNextNonce` of
    `ca/evm/evm_environment.cpp`).

    A deployer's contracts are one list in the database. The address of the next contract is derived
    from the deployer's address and a nonce, and the nonce is the length of that list: deleting a
    contract takes the nonce back by one, whichever contract it was. -/

namespace Tfs.Evm
open Tfs.Db

/-! ### Addresses -/

/-- `evm_environment::GetNonce`: the number of contracts recorded for the deployer. -/
def getNonce (dbReader : DBReader) (address : AddressText) : ℤ :=
  match dbReader.getTexts (kDeployerAddr2ContractAddr ++ address.1) with
  | .ok contractAddresses => contractAddresses.length
  | .error .notFound => 0
  | .error _ => -1

/-- `evm_environment::GetNextNonce`. -/
def getNextNonce (dbReader : DBReader) (address : AddressText) : ℤ :=
  let nonce := getNonce dbReader address
  if nonce < 0 then -1 else nonce + 1

section Addresses
variable (generateAddr : Str → AddressText)

/-- `Evmone::GetLatestContractAddress`. -/
def getLatestContractAddress (dbReader : DBReader) (deployer : AddressText) : Option AddressText :=
  let nonce := getNextNonce dbReader deployer
  if nonce < 0 then none else some (generateAddr (deployer.1 ++ signedDecimal nonce))

/-- `Evmone::VerifyContractAddress`. -/
def verifyContractAddress (dbReader : DBReader) (deployer contractAddress : AddressText) : Bool :=
  match getLatestContractAddress generateAddr dbReader deployer with
  | none => false
  | some result => result == contractAddress

end Addresses

/-! ### Recording and deleting -/

/-- `if (DB_SUCCESS != dbReadWriter.Set…(…)) return code;` -/
def attempt (dbReadWriter : RocksDBReadWriter) (s : Setter) (code : ℤ) :
    Except Exit RocksDBReadWriter :=
  let (status, dbReadWriter) := s.call dbReadWriter
  if status = .success then .ok dbReadWriter else .error (.ret code)

/-- `GetAllEvmDeployerAddr` as `SaveContract` takes it: that there is none yet is no error. -/
def allDeployers (dbReadWriter : RocksDBReadWriter) : Except Exit (List Str) :=
  match dbReadWriter.dbReader.getTexts kEvmAllDeployerAddr with
  | .ok vecDeployerAddrs => .ok vecDeployerAddrs
  | .error .notFound => .ok []
  | .error _ => .error (.ret (-92))

/-- `Evmone::SaveContract`, for the one machine there is. An error leaves the transaction to be rolled
    back. -/
def saveContract (dbReadWriter : RocksDBReadWriter) (deployerAddress : AddressText) (deployHash : Str)
    (contractAddress : AddressText) (contractCode : Str) : Except Exit RocksDBReadWriter := do
  let dbReadWriter ← attempt dbReadWriter
    (.setContractDeployUtxoByContractAddr contractAddress deployHash) (-84)
  let dbReadWriter ← attempt dbReadWriter
    (.setContractCodeByContractAddr contractAddress contractCode) (-84)
  let dbReadWriter ← attempt dbReadWriter
    (.setLatestUtxoByContractAddr contractAddress deployHash) (-90)
  let dbReadWriter ← attempt dbReadWriter
    (.setContractAddrByDeployerAddr deployerAddress contractAddress.1) (-91)
  let vecDeployerAddrs ← allDeployers dbReadWriter
  if deployerAddress.1 ∈ vecDeployerAddrs then .ok dbReadWriter
  else attempt dbReadWriter (.setEvmDeployerAddr deployerAddress.1) (-93)

/-- `Evmone::DeleteContract`. A failed read of the deployer's contracts leaves `vecDeployUtxos` empty. -/
def deleteContract (dbReadWriter : RocksDBReadWriter) (deployerAddress contractAddress : AddressText) :
    Except Exit RocksDBReadWriter := do
  let dbReadWriter ← attempt dbReadWriter
    (.removeContractDeployUtxoByContractAddr contractAddress) (-88)
  let dbReadWriter ← attempt dbReadWriter (.removeContractCodeByContractAddr contractAddress) (-89)
  let dbReadWriter ← attempt dbReadWriter (.removeLatestUtxoByContractAddr contractAddress) (-92)
  let dbReadWriter ← attempt dbReadWriter
    (.removeContractAddrByDeployerAddr deployerAddress contractAddress.1) (-93)
  let vecDeployUtxos := (dbReadWriter.dbReader.getTexts
    (kDeployerAddr2ContractAddr ++ deployerAddress.1)).toOption.getD []
  if vecDeployUtxos = [] then attempt dbReadWriter (.removeEvmDeployerAddr deployerAddress.1) (-94)
  else .ok dbReadWriter

/-! ### Runs -/

/-- What is committed in the database. -/
abbrev Store := StdMap Str Str

/-- A writer opened on the store, with no other writer at work. -/
def openWriter (data : Store) : RocksDBReadWriter := ⟨true, some ⟨data, fun _ => false⟩⟩

/-- A call of one of the two functions. -/
inductive ContractOp where
  | saveContract (deployerAddress : AddressText) (deployHash : Str) (contractAddress : AddressText)
      (contractCode : Str)
  | deleteContract (deployerAddress contractAddress : AddressText)
  deriving DecidableEq

/-- The call on a writer. -/
def ContractOp.call (dbReadWriter : RocksDBReadWriter) : ContractOp → Except Exit RocksDBReadWriter
  | .saveContract deployerAddress deployHash contractAddress contractCode =>
    Evm.saveContract dbReadWriter deployerAddress deployHash contractAddress contractCode
  | .deleteContract deployerAddress contractAddress =>
    Evm.deleteContract dbReadWriter deployerAddress contractAddress

/-- One call in a transaction of its own: committed when the call succeeds, rolled back otherwise. -/
def ContractOp.step (data : Store) (op : ContractOp) : Store :=
  match op.call (openWriter data) with
  | .ok dbReadWriter => dbReadWriter.stored
  | .error _ => data

/-- The contracts recorded for the deployer, in the order they were recorded. -/
def recorded (data : Store) (deployer : AddressText) : List Str :=
  listOf (data (kDeployerAddr2ContractAddr ++ deployer.1))

section Runs
variable (generateAddr : Str → AddressText)

/-- The calls in question: a contract is recorded under the address that is next at that time, and
    only a recorded contract is deleted. -/
def ContractOp.Valid (data : Store) : ContractOp → Prop
  | .saveContract deployerAddress _ contractAddress _ =>
    verifyContractAddress generateAddr (dbReaderOf (some data)) deployerAddress contractAddress
  | .deleteContract deployerAddress contractAddress =>
    contractAddress.1 ∈ recorded data deployerAddress

/-- Every call is valid when it is made. -/
def ValidRun : Store → List ContractOp → Prop
  | _, [] => True
  | data, op :: ops => op.Valid generateAddr data ∧ ValidRun (op.step data) ops

/-- No deployer's next address is that of a contract recorded for it. -/
def Fresh (data : Store) : Prop :=
  ∀ deployer contractAddress,
    getLatestContractAddress generateAddr (dbReaderOf (some data)) deployer
      = some contractAddress → contractAddress.1 ∉ recorded data deployer

/-- The next address is fresh before and after every call. -/
def AlwaysFresh : Store → List ContractOp → Prop
  | data, [] => Fresh generateAddr data
  | data, op :: ops => Fresh generateAddr data ∧ AlwaysFresh (op.step data) ops

end Runs

/-- A deletion takes the contract its deployer recorded last. -/
def ContractOp.TakesLast (data : Store) : ContractOp → Prop
  | .saveContract .. => True
  | .deleteContract deployerAddress contractAddress =>
    (recorded data deployerAddress).getLast? = some contractAddress.1

/-- Every deletion of the run does. -/
def LastOut : Store → List ContractOp → Prop
  | _, [] => True
  | data, op :: ops => op.TakesLast data ∧ LastOut (op.step data) ops

/-! ### What the calls do to the lists -/

/-- An address is a value the lists may hold. -/
theorem plainValue_address (a : AddressText) : PlainValue a.1 := by
  refine ⟨fun h => ?_, fun h => ?_⟩
  · have hlen := a.2.1
    rw [h] at hlen
    cases hlen
  · have hhex := a.2.2 _ h
    rw [not_isHexByte_underline] at hhex
    cases hhex

/-- The key of a deployer's contracts. -/
def contractsKey (d : AddressText) : Str := kDeployerAddr2ContractAddr ++ d.1

theorem contractsKey_ne_nil (d : AddressText) : contractsKey d ≠ [] := by
  simp [contractsKey, kDeployerAddr2ContractAddr, str]

theorem contractsKey_injective {d d' : AddressText} (h : contractsKey d = contractsKey d') : d = d' :=
  Subtype.ext (List.append_cancel_left h)

/-- A setter of another table does not write a deployer's contracts. -/
theorem contractsKey_ne {s : Setter} (hs : s.key.1 ≠ .contractAddrByDeployerAddr) (d : AddressText) :
    contractsKey d ≠ s.action.key := by
  intro h
  have htext : DbKey.text ⟨.contractAddrByDeployerAddr, .address d⟩ = s.key.text :=
    h.trans s.action_key
  exact hs (congrArg Sigma.fst (DbKey.text_injective htext)).symm

theorem attempt_eq_ok {w w' : RocksDBReadWriter} {s : Setter} {code : ℤ} :
    attempt w s code = .ok w' ↔
      (s.action.perform w).returned = true ∧ (s.action.perform w).writer = w' := by
  cases hr : (s.action.perform w).returned <;> simp [attempt, Setter.call, hr]

/-- The writer goes through with every key, before and after, and the deployers' contracts are the
    same but for those in `changed`. -/
structure Keeps (changed : Set AddressText) (w w' : RocksDBReadWriter) : Prop where
  accepts : ∀ key, w'.accepts key = w.accepts key
  stored : ∀ d, d ∉ changed → w'.stored (contractsKey d) = w.stored (contractsKey d)

theorem Keeps.trans {changed : Set AddressText} {w₁ w₂ w₃ : RocksDBReadWriter}
    (h : Keeps changed w₁ w₂) (h' : Keeps changed w₂ w₃) : Keeps changed w₁ w₃ :=
  ⟨fun key => (h'.accepts key).trans (h.accepts key),
    fun d hd => (h'.stored d hd).trans (h.stored d hd)⟩

theorem Keeps.mono {changed : Set AddressText} {w w' : RocksDBReadWriter} (h : Keeps ∅ w w') :
    Keeps changed w w' :=
  ⟨h.accepts, fun d _ => h.stored d (Set.notMem_empty d)⟩

/-- A setter of another table keeps every deployer's contracts. -/
theorem attempt_keeps {w w' : RocksDBReadWriter} {s : Setter} {code : ℤ}
    (hs : s.key.1 ≠ .contractAddrByDeployerAddr) (h : attempt w s code = .ok w') : Keeps ∅ w w' := by
  obtain ⟨-, rfl⟩ := attempt_eq_ok.mp h
  exact ⟨(s.call_frame w).2, fun d _ => (s.call_frame w).1 _ (contractsKey_ne hs d)⟩

/-- The setter of a deployer's contracts keeps those of the others. -/
theorem attempt_keeps_others {w w' : RocksDBReadWriter} {s : Setter} {code : ℤ} {d : AddressText}
    (hs : s.action.key = contractsKey d) (h : attempt w s code = .ok w') : Keeps {d} w w' := by
  obtain ⟨-, rfl⟩ := attempt_eq_ok.mp h
  refine ⟨(s.call_frame w).2, fun d' hd => (s.call_frame w).1 _ fun hkey => hd ?_⟩
  exact contractsKey_injective (hkey.trans hs)

/-- A removal from a list goes through wherever the key is accepted. -/
theorem removeMergeValue_returned {w : RocksDBReadWriter} {key value : Str} (ha : w.accepts key)
    (hv : value ≠ []) : (w.removeMergeValue key value).returned = true := by
  obtain ⟨txn, -, hchk, -⟩ := RocksDBReadWriter.exists_txn ha
  have hguard : ¬ ((w.checked key).isNone ∨ value = []) := by simp [hchk, hv]
  rw [RocksDBReadWriter.removeMergeValue, if_neg hguard,
    RocksDBReadWriter.readForUpdate_of_accepts ha]
  cases w.stored key with
  | none => rfl
  | some old =>
    simp only [Option.elim_some]
    split
    · rw [RocksDBReadWriter.deleteData_of_accepts ha]
    · rename_i hne
      rw [RocksDBReadWriter.writeData_of_accepts ha hne]

section Calls
variable {w w' : RocksDBReadWriter} {d c : AddressText}

/-- A contract that is saved joins its deployer's list, at the end unless it is there already. -/
theorem saveContract_spec {deployHash contractCode : Str} (ha : w.accepts (contractsKey d))
    (hc : Composite (w.stored (contractsKey d)))
    (h : saveContract w d deployHash c contractCode = .ok w') :
    listOf (w'.stored (contractsKey d)) = insertAbsent c.1 false (listOf (w.stored (contractsKey d)))
      ∧ Composite (w'.stored (contractsKey d)) ∧ Keeps {d} w w' := by
  simp only [saveContract, bind_eq_ok] at h
  obtain ⟨w₁, h₁, w₂, h₂, w₃, h₃, w₄, h₄, vecDeployerAddrs, -, h₅⟩ := h
  have hbefore : Keeps ∅ w w₃ :=
    ((attempt_keeps (by nofun) h₁).trans (attempt_keeps (by nofun) h₂)).trans
      (attempt_keeps (by nofun) h₃)
  have hown : Keeps {d} w₃ w₄ := attempt_keeps_others rfl h₄
  have hafter : Keeps ∅ w₄ w' := by
    split at h₅
    · cases h₅
      exact ⟨fun _ => rfl, fun _ _ => rfl⟩
    · exact attempt_keeps (by nofun) h₅
  have hstored : w₃.stored (contractsKey d) = w.stored (contractsKey d) :=
    hbefore.stored d (Set.notMem_empty d)
  have ha₃ : w₃.accepts (contractsKey d) := by rw [hbefore.accepts]; exact ha
  obtain ⟨content, hmerge, hlist, hcomp⟩ := RocksDBReadWriter.mergeValue_spec ha₃
    (plainValue_address c) (hstored.symm ▸ hc) false
  have hw₄ : w₄ = w₃.put (contractsKey d) content :=
    (attempt_eq_ok.mp h₄).2.symm.trans (congrArg Reply.writer hmerge)
  have hfinal : w'.stored (contractsKey d) = content := by
    rw [hafter.stored d (Set.notMem_empty d), hw₄, RocksDBReadWriter.stored_put ha₃]
  rw [hfinal, hlist, hstored]
  exact ⟨rfl, hcomp, (hbefore.mono.trans hown).trans hafter.mono⟩

/-- A setter that returns true lets the function go on. -/
theorem exists_attempt_ok {s : Setter} (h : (s.action.perform w).returned = true) (code : ℤ) :
    ∃ w', attempt w s code = .ok w' :=
  ⟨_, attempt_eq_ok.mpr ⟨h, rfl⟩⟩

/-- Deleting goes through with every key accepted, and takes the contract off its deployer's list. -/
theorem deleteContract_spec (ha : ∀ key, key ≠ [] → w.accepts key)
    (hc : Composite (w.stored (contractsKey d))) :
    ∃ w', deleteContract w d c = .ok w'
      ∧ listOf (w'.stored (contractsKey d)) = (listOf (w.stored (contractsKey d))).erase c.1
      ∧ Composite (w'.stored (contractsKey d)) ∧ Keeps {d} w w' := by
  -- a deletion is granted by any writer that accepts the same keys
  have hdelete : ∀ (v : RocksDBReadWriter) (key : Str), Keeps ∅ w v → key ≠ [] →
      (v.deleteData key).returned = true := by
    intro v key hv hkey
    have hav : v.accepts key := by rw [hv.accepts]; exact ha key hkey
    rw [RocksDBReadWriter.deleteData_of_accepts hav]
  obtain ⟨w₁, h₁⟩ := exists_attempt_ok (s := .removeContractDeployUtxoByContractAddr c)
    (hdelete w _ ⟨fun _ => rfl, fun _ _ => rfl⟩ (by simp [kContractAddr2DeployUtxo, str])) (-88)
  have hk₁ : Keeps ∅ w w₁ := attempt_keeps (by rintro ⟨⟩) h₁
  obtain ⟨w₂, h₂⟩ := exists_attempt_ok (s := .removeContractCodeByContractAddr c)
    (hdelete w₁ _ hk₁ (by simp [kContractAddr2ContractCode, str])) (-89)
  have hk₂ : Keeps ∅ w w₂ := hk₁.trans (attempt_keeps (by rintro ⟨⟩) h₂)
  obtain ⟨w₃, h₃⟩ := exists_attempt_ok (s := .removeLatestUtxoByContractAddr c)
    (hdelete w₂ _ hk₂ (by simp [kContractAddr2LatestUtxo, str])) (-92)
  have hk₃ : Keeps ∅ w w₃ := hk₂.trans (attempt_keeps (by rintro ⟨⟩) h₃)
  have hstored : w₃.stored (contractsKey d) = w.stored (contractsKey d) :=
    hk₃.stored d (Set.notMem_empty d)
  have ha₃ : w₃.accepts (contractsKey d) := by
    rw [hk₃.accepts]; exact ha _ (contractsKey_ne_nil d)
  obtain ⟨status, content, hremove, hlist, hcomp⟩ := RocksDBReadWriter.removeMergeValue_spec ha₃
    (plainValue_address c).1 (hstored.symm ▸ hc)
  obtain ⟨w₄, h₄⟩ := exists_attempt_ok (s := .removeContractAddrByDeployerAddr d c.1)
    (congrArg Reply.returned hremove) (-93)
  have hk₄ : Keeps {d} w w₄ := hk₃.mono.trans (attempt_keeps_others rfl h₄)
  have hw₄ : w₄.stored (contractsKey d) = content := by
    rw [← (attempt_eq_ok.mp h₄).2]
    exact (congrArg (fun reply : Reply => reply.writer.stored (contractsKey d)) hremove).trans
      (RocksDBReadWriter.stored_put ha₃ content)
  -- the last call takes the deployer itself off when nothing is left
  have haAll : w₄.accepts kEvmAllDeployerAddr := by rw [hk₄.accepts]; exact ha _ (by decide)
  obtain ⟨w₅, h₅⟩ := exists_attempt_ok (s := .removeEvmDeployerAddr d.1)
    (removeMergeValue_returned haAll (plainValue_address d).1) (-94)
  have hk₅ : Keeps ∅ w₄ w₅ := attempt_keeps (by rintro ⟨⟩) h₅
  have hrun : deleteContract w d c = if (w₄.dbReader.getTexts (contractsKey d)).toOption.getD [] = []
      then .ok w₅ else .ok w₄ := by
    simp only [deleteContract, h₁, h₂, h₃, h₄, h₅, bind, Except.bind]
    rfl
  rw [hstored] at hlist
  split at hrun
  · refine ⟨w₅, hrun, ?_⟩
    rw [hk₅.stored d (Set.notMem_empty d), hw₄]
    exact ⟨hlist, hcomp, hk₄.trans hk₅.mono⟩
  · refine ⟨w₄, hrun, ?_⟩
    rw [hw₄]
    exact ⟨hlist, hcomp, hk₄⟩

end Calls

/-! ### The numbers of the contracts -/

section Numbers
variable {generateAddr : Str → AddressText} {data : Store} {d c : AddressText}

/-- The nonce is the length of the deployer's list. -/
theorem getNonce_eq (data : Store) (d : AddressText) :
    getNonce (dbReaderOf (some data)) d = (recorded data d).length := by
  have hkey : kDeployerAddr2ContractAddr ++ d.1 ≠ [] := contractsKey_ne_nil d
  cases hv : data (kDeployerAddr2ContractAddr ++ d.1) with
  | none => simp [getNonce, DBReader.getTexts, DBReader.readData, dbReaderOf, recorded, listOf, hv, hkey,
      Except.map]
  | some value => simp [getNonce, DBReader.getTexts, DBReader.readData, dbReaderOf, recorded, listOf, hv,
      hkey, Except.map]

/-- The address a deployer's contract of this number is given. -/
def numbered (generateAddr : Str → AddressText) (d : AddressText) (i : ℕ) : AddressText :=
  generateAddr (d.1 ++ decimal i)

theorem getLatestContractAddress_eq (data : Store) (d : AddressText) :
    getLatestContractAddress generateAddr (dbReaderOf (some data)) d
      = some (numbered generateAddr d ((recorded data d).length + 1)) := by
  have hnext : getNextNonce (dbReaderOf (some data)) d
      = ((recorded data d).length + 1 : ℕ) := by
    rw [getNextNonce, getNonce_eq, if_neg (by omega)]
    push_cast
    rfl
  simp only [getLatestContractAddress, hnext]
  rw [if_neg (by omega)]
  rfl

/-- Freshness, with the next address written out. -/
theorem fresh_iff : Fresh generateAddr data ↔
    ∀ d, (numbered generateAddr d ((recorded data d).length + 1)).1 ∉ recorded data d := by
  simp only [Fresh, getLatestContractAddress_eq, Option.some.injEq, forall_eq']

/-- The contracts of the numbers `1, …, k`. -/
def firstContracts (generateAddr : Str → AddressText) (d : AddressText) (k : ℕ) : List Str :=
  (List.range' 1 k).map fun i => (numbered generateAddr d i).1

/-- Every deployer's contracts carry the numbers `1, …, k` in order, for some `k` of at most `n`. -/
def Numbered (generateAddr : Str → AddressText) (n : ℕ) (data : Store) : Prop :=
  ∀ d, Composite (data (contractsKey d)) ∧ ∃ k ≤ n, recorded data d = firstContracts generateAddr d k

theorem length_firstContracts (k : ℕ) : (firstContracts generateAddr d k).length = k := by
  simp [firstContracts]

theorem firstContracts_succ (k : ℕ) : firstContracts generateAddr d (k + 1)
    = firstContracts generateAddr d k ++ [(numbered generateAddr d (k + 1)).1] := by
  rw [firstContracts, List.range'_1_concat, List.map_append, Nat.add_comm 1 k]
  rfl

/-- A number above those given out has an address of its own. -/
theorem numbered_notMem {n k i : ℕ} (hinj : Set.InjOn (numbered generateAddr d) (Set.Iic n))
    (hk : k < i) (hi : i ≤ n) :
    (numbered generateAddr d i).1 ∉ firstContracts generateAddr d k := by
  intro hmem
  obtain ⟨j, hj, heq⟩ := List.mem_map.mp hmem
  have hjk : j ≤ k := by
    have := List.mem_range'_1.mp hj
    omega
  have := hinj (Set.mem_Iic.mpr (by omega)) (Set.mem_Iic.mpr hi) (Subtype.ext heq)
  omega

/-! ### One call -/

theorem openWriter_accepts (data : Store) {key : Str} (h : key ≠ []) :
    (openWriter data).accepts key := by
  simp [openWriter, RocksDBReadWriter.accepts, RocksDBReadWriter.checked, h]

/-- Deletion never fails on an open writer, and acts on its deployer's list alone. -/
theorem step_deleteContract (hc : Composite (data (contractsKey d))) :
    let data' := ContractOp.step data (.deleteContract d c)
    recorded data' d = (recorded data d).erase c.1 ∧ Composite (data' (contractsKey d))
      ∧ ∀ d', d' ≠ d → data' (contractsKey d') = data (contractsKey d') := by
  obtain ⟨w', hrun, hlist, hcomp, hkeeps⟩ := deleteContract_spec (w := openWriter data) (c := c)
    (fun _ => openWriter_accepts data) hc
  have hstep : ContractOp.step data (.deleteContract d c) = w'.stored := by
    simp only [ContractOp.step, ContractOp.call, hrun]
  rw [hstep]
  exact ⟨hlist, hcomp, hkeeps.stored⟩

/-- Saving does nothing where the writer refuses (an empty hash or code), and acts on its deployer's
    list alone. -/
theorem step_saveContract {deployHash contractCode : Str} (hc : Composite (data (contractsKey d))) :
    let data' := ContractOp.step data (.saveContract d deployHash c contractCode)
    data' = data ∨ recorded data' d = insertAbsent c.1 false (recorded data d)
      ∧ Composite (data' (contractsKey d))
      ∧ ∀ d', d' ≠ d → data' (contractsKey d') = data (contractsKey d') := by
  cases hrun : Evm.saveContract (openWriter data) d deployHash c contractCode with
  | error e =>
    left
    simp only [ContractOp.step, ContractOp.call, hrun]
  | ok w' =>
    right
    obtain ⟨hlist, hcomp, hkeeps⟩ :=
      saveContract_spec (openWriter_accepts data (contractsKey_ne_nil d)) hc hrun
    have hstep : ContractOp.step data (.saveContract d deployHash c contractCode) = w'.stored := by
      simp only [ContractOp.step, ContractOp.call, hrun]
    rw [hstep]
    exact ⟨hlist, hcomp, hkeeps.stored⟩

/-- A contract saved under the next address carries the next number. -/
theorem Numbered.save {n : ℕ} {deployHash contractCode : Str}
    (hinj : ∀ d, Set.InjOn (numbered generateAddr d) (Set.Iic (n + 1)))
    (h : Numbered generateAddr n data)
    (hv : (ContractOp.saveContract d deployHash c contractCode).Valid generateAddr data) :
    Numbered generateAddr (n + 1)
      (ContractOp.step data (.saveContract d deployHash c contractCode)) := by
  obtain ⟨hcomp, k, hk, hlist⟩ := h d
  have hc : c = numbered generateAddr d (k + 1) := by
    rw [ContractOp.Valid, verifyContractAddress, getLatestContractAddress_eq, hlist,
      length_firstContracts] at hv
    exact (beq_iff_eq.mp hv).symm
  intro d'
  obtain ⟨hcomp₂, k₂, hk₂, hlist₂⟩ := h d'
  rcases step_saveContract hcomp with hsame | ⟨hlist', hcomp', hothers⟩
  · rw [hsame]
    exact ⟨hcomp₂, k₂, by omega, hlist₂⟩
  by_cases hd : d' = d
  · subst hd
    refine ⟨hcomp', k + 1, by omega, ?_⟩
    have habsent : c.1 ∉ firstContracts generateAddr d' k := by
      rw [hc]
      exact numbered_notMem (hinj d') k.lt_succ_self (by omega)
    rw [hlist', hlist, insertAbsent, if_neg habsent, if_neg Bool.false_ne_true, firstContracts_succ, hc]
  · exact ⟨hothers d' hd ▸ hcomp₂, k₂, by omega, (congrArg listOf (hothers d' hd)).trans hlist₂⟩

/-- Deleting the last contract gives its number back. -/
theorem Numbered.deleteLast {n : ℕ} (hinj : ∀ d, Set.InjOn (numbered generateAddr d) (Set.Iic n))
    (h : Numbered generateAddr n data)
    (hlast : (ContractOp.deleteContract d c).TakesLast data) :
    Numbered generateAddr n (ContractOp.step data (.deleteContract d c)) := by
  obtain ⟨hcomp, k, hk, hlist⟩ := h d
  obtain ⟨hlist', hcomp', hothers⟩ := step_deleteContract (c := c) hcomp
  intro d'
  by_cases hd : d' = d
  · subst hd
    rw [ContractOp.TakesLast, hlist] at hlast
    cases k with
    | zero => cases hlast
    | succ k =>
      rw [firstContracts_succ, List.getLast?_concat, Option.some.injEq] at hlast
      refine ⟨hcomp', k, by omega, ?_⟩
      rw [hlist', hlist, firstContracts_succ, ← hlast, List.erase_append_right, List.erase_cons_head,
        List.append_nil]
      exact numbered_notMem (hinj d') k.lt_succ_self hk
  · obtain ⟨hcomp₂, k₂, hk₂, hlist₂⟩ := h d'
    exact ⟨hothers d' hd ▸ hcomp₂, k₂, hk₂, (congrArg listOf (hothers d' hd)).trans hlist₂⟩

/-- Deleting another contract makes the last one's address the next. -/
theorem Numbered.not_fresh_of_delete {n : ℕ} (h : Numbered generateAddr n data)
    (hv : (ContractOp.deleteContract d c).Valid generateAddr data)
    (hlast : ¬ (ContractOp.deleteContract d c).TakesLast data) :
    ¬ Fresh generateAddr (ContractOp.step data (.deleteContract d c)) := by
  obtain ⟨hcomp, k, hk, hlist⟩ := h d
  obtain ⟨hlist', -, -⟩ := step_deleteContract (c := c) hcomp
  rw [ContractOp.Valid] at hv
  have hlen := List.length_erase_of_mem hv
  rw [ContractOp.TakesLast] at hlast
  rw [hlist] at hv hlen hlast
  rw [length_firstContracts] at hlen
  rw [fresh_iff, not_forall]
  refine ⟨d, fun hfresh => hfresh ?_⟩
  rw [hlist', hlist, hlen]
  cases k with
  | zero => cases hv
  | succ k =>
    rw [firstContracts_succ, List.getLast?_concat, Option.some.injEq] at hlast
    rw [firstContracts_succ, Nat.add_sub_cancel, List.mem_erase_of_ne hlast]
    exact List.mem_append_right _ (List.mem_singleton_self _)

/-- While the numbers run from one on, the next is not taken. -/
theorem Numbered.fresh {n : ℕ} (hinj : ∀ d, Set.InjOn (numbered generateAddr d) (Set.Iic (n + 1)))
    (h : Numbered generateAddr n data) : Fresh generateAddr data := by
  rw [fresh_iff]
  intro d
  obtain ⟨-, k, hk, hlist⟩ := h d
  rw [hlist, length_firstContracts]
  exact numbered_notMem (hinj d) k.lt_succ_self (by omega)

/-! ### All calls -/

theorem Numbered.alwaysFresh_iff : ∀ (ops : List ContractOp) {data : Store} {n : ℕ},
    (∀ d, Set.InjOn (numbered generateAddr d) (Set.Iic (n + ops.length + 1))) →
    Numbered generateAddr n data → ValidRun generateAddr data ops →
    (AlwaysFresh generateAddr data ops ↔ LastOut data ops)
  | [], data, n, hinj, h, _ => ⟨fun _ => trivial, fun _ => h.fresh hinj⟩
  | op :: ops, data, n, hinj, h, ⟨hv, hvs⟩ => by
    have hinj' : ∀ d, Set.InjOn (numbered generateAddr d) (Set.Iic (n + 1 + ops.length + 1)) := by
      simpa [Nat.add_assoc, Nat.add_comm 1] using hinj
    have hless : ∀ m ≤ n + 1, ∀ d, Set.InjOn (numbered generateAddr d) (Set.Iic m) :=
      fun m hm d => (hinj d).mono (Set.Iic_subset_Iic.mpr (by omega))
    have hfresh : Fresh generateAddr data := h.fresh (hless (n + 1) le_rfl)
    have hrest : Numbered generateAddr (n + 1) (op.step data) →
        (AlwaysFresh generateAddr (op.step data) ops ↔ LastOut (op.step data) ops) :=
      fun hnum => Numbered.alwaysFresh_iff ops hinj' hnum hvs
    cases op with
    | saveContract d deployHash c contractCode =>
      have hih := hrest (h.save (hless (n + 1) le_rfl) hv)
      exact ⟨fun hf => ⟨trivial, hih.mp hf.2⟩, fun hl => ⟨hfresh, hih.mpr hl.2⟩⟩
    | deleteContract d c =>
      by_cases hlast : (ContractOp.deleteContract d c).TakesLast data
      · have hnum := h.deleteLast (hless n (by omega)) hlast
        have hih := hrest fun d' => ⟨(hnum d').1, by
          obtain ⟨k, hk, hlist⟩ := (hnum d').2
          exact ⟨k, by omega, hlist⟩⟩
        exact ⟨fun hf => ⟨hlast, hih.mp hf.2⟩, fun hl => ⟨hfresh, hih.mpr hl.2⟩⟩
      · have hstale := h.not_fresh_of_delete hv hlast
        refine ⟨fun hf => absurd ?_ hstale, fun hl => absurd hl.1 hlast⟩
        cases ops with
        | nil => exact hf.2
        | cons op ops => exact hf.2.1

end Numbers

/-- From a database without contracts, along every sequence of valid calls, the next address of every
    deployer is fresh at every moment if and only if each deletion takes the contract its deployer
    recorded last (the addresses of one deployer's numbers being different). -/
theorem alwaysFresh_iff_lastOut (generateAddr : Str → AddressText) (data : Store)
    (ops : List ContractOp) (hempty : ∀ d : AddressText, data (kDeployerAddr2ContractAddr ++ d.1) = none)
    (hinj : ∀ d : AddressText,
      Set.InjOn (fun i => generateAddr (d.1 ++ decimal i)) (Set.Iic (ops.length + 1)))
    (hvalid : ValidRun generateAddr data ops) :
    AlwaysFresh generateAddr data ops ↔ LastOut data ops := by
  have hnum : Numbered generateAddr 0 data := by
    intro d
    have hnone : data (contractsKey d) = none := hempty d
    exact ⟨hnone ▸ composite_none, 0, le_rfl, congrArg listOf hnone⟩
  refine hnum.alwaysFresh_iff ops ?_ hvalid
  rw [Nat.zero_add]
  exact hinj

/-- Addresses that show the last digit of what they are generated from. -/
def sampleGenerateAddr (s : Str) : AddressText :=
  let b := s.getLastD 48
  ⟨List.replicate 39 48 ++ [if isHexByte b then b else 48], by simp, by
    intro x hx
    rcases List.mem_append.mp hx with hx | hx
    · rw [List.eq_of_mem_replicate hx]
      decide
    · rw [List.mem_singleton.mp hx]
      split
      · assumption
      · decide⟩

theorem sampleGenerateAddr_injOn (s : Str) :
    Set.InjOn (fun i => sampleGenerateAddr (s ++ decimal i)) (Set.Iic 4) := by
  have hlast : ∀ i ≤ 4, sampleGenerateAddr (s ++ decimal i) = sampleGenerateAddr (decimal i) := by
    intro i hi
    have hone : ∃ b, decimal i = [b] := by
      interval_cases i <;> exact ⟨_, rfl⟩
    obtain ⟨b, hb⟩ := hone
    simp [hb, sampleGenerateAddr]
  have hsmall : ∀ i ≤ 4, ∀ j ≤ 4,
      sampleGenerateAddr (decimal i) = sampleGenerateAddr (decimal j) → i = j := by decide
  intro i hi j hj h
  simp only [hlast i hi, hlast j hj] at h
  exact hsmall i hi j hj h

/-- The address `11…1`. -/
def sampleDeployer : AddressText := ⟨List.replicate 40 49, by decide +kernel⟩

/-- The address of the sample deployer's contract of this number. -/
def sampleContract (i : ℕ) : AddressText := sampleGenerateAddr (sampleDeployer.1 ++ decimal i)

/-- Two contracts are deployed, then one is deleted. -/
def sampleRun (deleted : AddressText) : List ContractOp :=
  [.saveContract sampleDeployer (str "h1") (sampleContract 1) (str "6001"),
    .saveContract sampleDeployer (str "h2") (sampleContract 2) (str "6002"),
    .deleteContract sampleDeployer deleted]

theorem sampleRun_valid : ∀ i ∈ [1, 2],
    ValidRun sampleGenerateAddr StdMap.empty (sampleRun (sampleContract i)) := by
  intro i hi
  refine ⟨?_, ?_, ?_, trivial⟩ <;> revert i <;> simp only [ContractOp.Valid] <;> decide

/-- With the second contract deleted, the next address is the one that was just given back. -/
theorem alwaysFresh_iff_lastOut_sample :
    AlwaysFresh sampleGenerateAddr StdMap.empty (sampleRun (sampleContract 2)) :=
  (alwaysFresh_iff_lastOut sampleGenerateAddr StdMap.empty (sampleRun (sampleContract 2))
    (fun _ => rfl) (fun d => sampleGenerateAddr_injOn d.1) (sampleRun_valid 2 (by decide))).mpr
    ⟨trivial, trivial, by simp only [ContractOp.TakesLast]; decide, trivial⟩

/-- With the first contract deleted, the next address is the second's, which is still recorded. -/
theorem next_address_recorded :
    (∀ d : AddressText, Set.InjOn (fun i => sampleGenerateAddr (d.1 ++ decimal i))
        (Set.Iic ((sampleRun (sampleContract 1)).length + 1)))
      ∧ ValidRun sampleGenerateAddr StdMap.empty (sampleRun (sampleContract 1))
      ∧ ¬ AlwaysFresh sampleGenerateAddr StdMap.empty (sampleRun (sampleContract 1)) := by
  refine ⟨fun d => sampleGenerateAddr_injOn d.1, sampleRun_valid 1 (by decide), fun h => ?_⟩
  refine h.2.2.2 sampleDeployer (sampleContract 2) ?_ ?_
  · decide +kernel
  · decide +kernel

end Tfs.Evm
