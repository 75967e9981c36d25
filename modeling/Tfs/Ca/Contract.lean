import Tfs.Ca.Utxo

/-! Settlement of a contract transaction (`ContractCommonInterface::fillingTransactions` with the
    transfer map, and `GenVin`).

    Every payer of the transfer map brings its selected outputs in as inputs, so does the sender;
    each payee gets an output, each payer but the sender its change, and the sender pays the gas
    cost, the tip and the gas out of what its own transfers left, and gets the rest. All of it is
    computed in unsigned 64-bit words and written into signed 64-bit fields. The theorem says
    exactly when the outputs add up to the inputs. -/

namespace Tfs.Ca
open Tfs.Db

/-- `std::map<std::string, std::map<std::string, uint64_t>>`, in key order. -/
structure TransfersMap where
  entries : List (Str × List (Str × UInt64))
  sorted : (entries.map Prod.fst).Pairwise (· < ·)
  innerSorted : ∀ e ∈ entries, (e.2.map Prod.fst).Pairwise (· < ·)

/-- `global::ca::TxType`, the kinds a contract transaction is checked for and the rest. -/
inductive TxType where
  | deployContract
  | callContract
  | other
  deriving DecidableEq, Repr

/-- What `fillingTransactions` uses from outside: the store, `GenerateGas` (`none` when it fails) and
    the virtual addresses of `global::ca`. -/
structure ContractEnv extends UtxoEnv where
  generateGas : CTransaction → ℕ → Option UInt64
  kVirtualDeployContractAddr : Str
  kVirtualCallContractAddr : Str
  kVirtualBurnGasAddr : Str

/-! ### `GenVin` -/

/-- The loop over the owners in `GenVin`: one owner and one input each, numbered from `n`. -/
def genVinLoop (utxos : List Utxo) (isSign : Bool) :
    List Str → UInt32 → CTxUtxo → List Str → CTxUtxo × List Str
  | [], _, txUtxo, utxoHashs => (txUtxo, utxoHashs)
  | owner :: rest, n, txUtxo, utxoHashs =>
    let prevOut := prevOutsOf utxos owner
    let vin : CTxInput := ⟨prevOut, none, n, if isSign then [] else owner⟩
    genVinLoop utxos isSign rest (n + 1)
      { txUtxo with owner := txUtxo.owner ++ [owner], vin := txUtxo.vin ++ [vin] }
      (utxoHashs ++ prevOut.map CTxPrevOutput.hash)

/-- `ContractCommonInterface::GenVin`: the inputs are added to `txUtxo` and `utxoHashs`, and the
    total is returned. The parameter `isFindUtxo` of the source is not passed on to `FindUtxo`. -/
def genVin (env : UtxoEnv) (fromAddr : List Str) (txUtxo : CTxUtxo) (utxoHashs : List Str)
    (isSign : Bool) : Except Exit (CTxUtxo × List Str × UInt64) := do
  let found ← Exit.recode (fun _ => -1) (findUtxo env fromAddr kMaxVinSize false)
  Exit.when found.2.isEmpty (-2)
  Exit.when (txOwners found.2).isEmpty (-3)
  let r := genVinLoop found.2 isSign (txOwners found.2) (UInt32.ofNat txUtxo.vin.length) txUtxo
    utxoHashs
  .ok (r.1, r.2, found.1)

/-! ### `fillingTransactions` -/

/-- The transaction under construction together with `utxoHashs` and `fromBalance`. -/
structure Filling where
  txUtxo : CTxUtxo
  utxoHashs : List Str
  fromBalance : StdMap Str UInt64

/-- `GenVin` for one address and its entry in `fromBalance`. -/
def Filling.addPayer (env : UtxoEnv) (code : ℤ) (addr : Str) (isSign : Bool) (f : Filling) :
    Except Exit Filling := do
  let r ← Exit.recode (fun _ => code) (genVin env [addr] f.txUtxo f.utxoHashs isSign)
  .ok ⟨r.1, r.2.1, f.fromBalance.set addr r.2.2⟩

/-- The first loop of `fillingTransactions`: inputs of every payer. A payer with a contract record
    is not signed for. -/
def addPayers (env : UtxoEnv) (isGenSign : Bool) :
    List (Str × List (Str × UInt64)) → Filling → Except Exit Filling
  | [], f => .ok f
  | iter :: rest, f => do
    let isContract := (env.db.getLatestUtxoByContractAddr iter.1).toOption.isSome
    let f' ← f.addPayer env (-1) iter.1 (!isContract && isGenSign)
    addPayers env isGenSign rest f'

/-- Inputs of the sender, unless it is a payer already. -/
def addSender (env : UtxoEnv) (isGenSign : Bool) (fromAddr : Str) (f : Filling) :
    Except Exit Filling :=
  if (f.fromBalance fromAddr).isSome then .ok f else f.addPayer env (-2) fromAddr isGenSign

/-- The outputs of one payer, paid out of `balance`. -/
def payTransfers : List (Str × UInt64) → CTxUtxo → UInt64 → Except Exit (CTxUtxo × UInt64)
  | [], txUtxo, balance => .ok (txUtxo, balance)
  | toaddr :: rest, txUtxo, balance =>
    let txUtxo' := txUtxo.addVout toaddr.1 toaddr.2.toInt64
    if balance < toaddr.2 then .error (.ret (-4))
    else payTransfers rest txUtxo' (balance - toaddr.2)

/-- The second loop: the outputs of every payer and, except for the sender, its change. -/
def payAll (fromAddr : Str) : List (Str × List (Str × UInt64)) → CTxUtxo → StdMap Str UInt64 →
    Except Exit (CTxUtxo × StdMap Str UInt64)
  | [], txUtxo, fromBalance => .ok (txUtxo, fromBalance)
  | iter :: rest, txUtxo, fromBalance => do
    let r ← payTransfers iter.2 txUtxo ((fromBalance iter.1).getD 0)
    let txUtxo' := if iter.1 = fromAddr then r.1 else r.1.addVout iter.1 r.2.toInt64
    payAll fromAddr rest txUtxo' (fromBalance.set iter.1 r.2)

/-- The address the gas cost is burnt to. -/
def contractBurner (env : ContractEnv) : TxType → Except Exit Str
  | .deployContract => .ok env.kVirtualDeployContractAddr
  | .callContract => .ok env.kVirtualCallContractAddr
  | .other => .error (.ret (-3))

/-- The outputs for the gas cost and the tip. -/
def addCosts (burner toAddr : Str) (gasCost : Int64) (contractTip : UInt64) (txUtxo : CTxUtxo) :
    CTxUtxo :=
  let txUtxo' := txUtxo.addVout burner gasCost
  if contractTip ≠ 0 ∧ toAddr ≠ [] then txUtxo'.addVout toAddr contractTip.toInt64 else txUtxo'

/-- `fillingTransactions` up to the call of `GenerateGas`. -/
def fillingDraft (env : ContractEnv) (fromAddr toAddr : Str) (txType : TxType)
    (transfersMap : TransfersMap) (gasCost : Int64) (outTx : CTransaction) (contractTip : UInt64)
    (utxoHashs : List Str) (isGenSign : Bool) : Except Exit Filling := do
  let f ← addPayers env.toUtxoEnv isGenSign transfersMap.entries ⟨outTx.utxo, utxoHashs, .empty⟩
  let f ← addSender env.toUtxoEnv isGenSign fromAddr f
  let burner ← contractBurner env txType
  let r ← payAll fromAddr transfersMap.entries (addCosts burner toAddr gasCost contractTip f.txUtxo)
    f.fromBalance
  .ok ⟨r.1, f.utxoHashs, r.2⟩

/-- The size of the multimap `targetAddrs`: one pair for every output added so far, and two more. -/
def targetAddrs (outTx : CTransaction) (f : Filling) : ℕ :=
  f.txUtxo.vout.length - outTx.utxo.vout.length + 2

/-- `ContractCommonInterface::fillingTransactions`, transfer map overload: the transaction and the
    hashes of the outputs used. -/
def fillingTransactions (env : ContractEnv) (fromAddr toAddr : Str) (txType : TxType)
    (transfersMap : TransfersMap) (gasCost : Int64) (outTx : CTransaction) (contractTip : UInt64)
    (utxoHashs : List Str) (isGenSign : Bool) : Except Exit (CTransaction × List Str) := do
  let f ← fillingDraft env fromAddr toAddr txType transfersMap gasCost outTx contractTip utxoHashs
    isGenSign
  match env.generateGas { outTx with utxo := f.txUtxo } (targetAddrs outTx f) with
  | none => .error (.ret (-5))
  | some gas =>
    Exit.when (contractTip != 0 && contractTip < gas) (-6)
    let expend := gasCost.toUInt64 + contractTip + gas
    let balance := (f.fromBalance fromAddr).getD 0
    Exit.when (balance < expend) (-7)
    let txUtxo := f.txUtxo.addVout fromAddr (balance - expend).toInt64
    let txUtxo := txUtxo.addVout env.kVirtualBurnGasAddr gas.toInt64
    .ok ({ outTx with utxo := txUtxo }, f.utxoHashs)

/-! ### When the settlement conserves value -/

/-- What `addr` can bring in: the value of the outputs `FindUtxo` selects for it. -/
def heldBy (env : UtxoEnv) (addr : Str) : ℕ :=
  match findUtxo env [addr] kMaxVinSize false with
  | .ok found => utxosValue found.2
  | .error _ => 0

/-- The sum of the amounts of some transfers. -/
def amountsOf (tos : List (Str × UInt64)) : ℕ := (tos.map fun t => t.2.toNat).sum

/-- What the transfer map takes from `addr`. -/
def TransfersMap.paidBy (m : TransfersMap) (addr : Str) : ℕ :=
  ((m.entries.filter fun e => e.1 = addr).map fun e => amountsOf e.2).sum

/-- The addresses that bring in inputs: the payers, and the sender if it is not one of them. -/
def TransfersMap.payers (m : TransfersMap) (fromAddr : Str) : List Str :=
  m.entries.map Prod.fst ++ if fromAddr ∈ m.entries.map Prod.fst then [] else [fromAddr]

/-- The amounts fit the words they are computed in: every output is below `2 ^ 63`, and the sender's
    costs wrap around exactly as often as the payers' totals do. -/
structure FitsWords (env : UtxoEnv) (fromAddr : Str) (m : TransfersMap) (gasCost : Int64)
    (contractTip gas : UInt64) : Prop where
  tipFits : contractTip.toNat < 2 ^ 63
  gasFits : gas.toNat < 2 ^ 63
  amounts : ∀ e ∈ m.entries, ∀ t ∈ e.2, t.2.toNat < 2 ^ 63
  changes : ∀ e ∈ m.entries, e.1 ≠ fromAddr → heldBy env e.1 % 2 ^ 64 - amountsOf e.2 < 2 ^ 63
  senderChange : heldBy env fromAddr % 2 ^ 64 - m.paidBy fromAddr
    - (gasCost.toUInt64.toNat + contractTip.toNat + gas.toNat) % 2 ^ 64 < 2 ^ 63
  wraps : (gasCost.toUInt64.toNat + contractTip.toNat + gas.toNat) / 2 ^ 64
    = ((m.payers fromAddr).map fun a => heldBy env a / 2 ^ 64).sum

/-! ### The inputs -/

/-- `txUtxo'` has the owners and inputs of `txUtxo` and some more, worth `value`; outputs are as
    before. -/
def AddsInputs (db : DBReader) (txUtxo txUtxo' : CTxUtxo) (value : ℕ) : Prop :=
  ∃ owners vins, owners.length = vins.length ∧ inputValue db owners vins = value ∧
    txUtxo' = { txUtxo with owner := txUtxo.owner ++ owners, vin := txUtxo.vin ++ vins }

theorem AddsInputs.refl (db : DBReader) (txUtxo : CTxUtxo) : AddsInputs db txUtxo txUtxo 0 :=
  ⟨[], [], rfl, rfl, by simp⟩

theorem AddsInputs.trans {db : DBReader} {u₁ u₂ u₃ : CTxUtxo} {v w : ℕ}
    (h : AddsInputs db u₁ u₂ v) (h' : AddsInputs db u₂ u₃ w) : AddsInputs db u₁ u₃ (v + w) := by
  obtain ⟨owners, vins, hlen, hval, rfl⟩ := h
  obtain ⟨owners', vins', hlen', hval', rfl⟩ := h'
  refine ⟨owners ++ owners', vins ++ vins', by simp [hlen, hlen'], ?_, by simp⟩
  rw [inputValue_append hlen, hval, hval']

theorem genVinLoop_eq (utxos : List Utxo) (isSign : Bool) :
    ∀ (owners : List Str) (n : UInt32) (txUtxo : CTxUtxo) (utxoHashs : List Str),
      ∃ vins, vins.map CTxInput.prevOut = owners.map (prevOutsOf utxos) ∧
        (genVinLoop utxos isSign owners n txUtxo utxoHashs).1
          = { txUtxo with owner := txUtxo.owner ++ owners, vin := txUtxo.vin ++ vins }
  | [], _, _, _ => ⟨[], rfl, by simp [genVinLoop]⟩
  | owner :: rest, n, txUtxo, utxoHashs => by
    obtain ⟨vins, hprev, heq⟩ := genVinLoop_eq utxos isSign rest (n + 1)
      { txUtxo with
        owner := txUtxo.owner ++ [owner]
        vin := txUtxo.vin ++ [⟨prevOutsOf utxos owner, none, n, if isSign then [] else owner⟩] }
      (utxoHashs ++ (prevOutsOf utxos owner).map CTxPrevOutput.hash)
    refine ⟨⟨prevOutsOf utxos owner, none, n, if isSign then [] else owner⟩ :: vins, ?_, ?_⟩
    · simp [hprev]
    · rw [genVinLoop, heq]; simp

/-- `GenVin` for one address adds inputs worth what the address holds, and returns that modulo
    `2 ^ 64`. -/
theorem genVin_spec {env : UtxoEnv} {addr : Str} {txUtxo : CTxUtxo} {utxoHashs : List Str}
    {isSign : Bool} {r : CTxUtxo × List Str × UInt64}
    (h : genVin env [addr] txUtxo utxoHashs isSign = .ok r) :
    AddsInputs env.db txUtxo r.1 (heldBy env addr) ∧ r.2.2.toNat = heldBy env addr % 2 ^ 64 := by
  obtain ⟨found, hfound, h⟩ := bind_eq_ok.mp h
  obtain ⟨-, -, h⟩ := bind_eq_ok.mp h
  obtain ⟨-, -, h⟩ := bind_eq_ok.mp h
  have hr := Except.ok.inj h
  rw [Exit.recode_eq_ok] at hfound
  obtain ⟨htotal, hsel⟩ := findUtxo_spec hfound
  have hheld : heldBy env addr = utxosValue found.2 := by rw [heldBy, hfound]
  obtain ⟨vins, hprev, heq⟩ := genVinLoop_eq found.2 isSign (txOwners found.2)
    (UInt32.ofNat txUtxo.vin.length) txUtxo utxoHashs
  rw [← hr, hheld]
  refine ⟨⟨txOwners found.2, vins, ?_, ?_, heq⟩, htotal⟩
  · simpa using (congrArg List.length hprev).symm
  · exact inputValue_of_selection (fun u hu => (hsel u hu).2) hprev

theorem addPayer_spec {env : UtxoEnv} {code : ℤ} {addr : Str} {isSign : Bool} {f f' : Filling}
    (h : f.addPayer env code addr isSign = .ok f') :
    AddsInputs env.db f.txUtxo f'.txUtxo (heldBy env addr) ∧
      ∃ t, t.toNat = heldBy env addr % 2 ^ 64 ∧ f'.fromBalance = f.fromBalance.set addr t := by
  obtain ⟨r, hr, h⟩ := bind_eq_ok.mp h
  have hf := Except.ok.inj h
  obtain ⟨hadd, htotal⟩ := genVin_spec (Exit.recode_eq_ok.mp hr)
  rw [← hf]
  exact ⟨hadd, r.2.2, htotal, rfl⟩

/-- After the first loop every payer has its inputs in and its total in `fromBalance`. -/
theorem addPayers_spec {env : UtxoEnv} {isGenSign : Bool} :
    ∀ (entries : List (Str × List (Str × UInt64))) {f f' : Filling},
      addPayers env isGenSign entries f = .ok f' →
      AddsInputs env.db f.txUtxo f'.txUtxo ((entries.map fun e => heldBy env e.1).sum) ∧
        ∀ a, (a ∈ entries.map Prod.fst →
            ∃ t, t.toNat = heldBy env a % 2 ^ 64 ∧ f'.fromBalance a = some t) ∧
          (a ∉ entries.map Prod.fst → f'.fromBalance a = f.fromBalance a)
  | [], f, f', h => by
    obtain rfl := Except.ok.inj h
    exact ⟨AddsInputs.refl _ _, by simp⟩
  | iter :: rest, f, f', h => by
    obtain ⟨f₁, h₁, h⟩ := bind_eq_ok.mp h
    obtain ⟨hadd, t, ht, hbal⟩ := addPayer_spec h₁
    obtain ⟨hadd', hrest⟩ := addPayers_spec rest h
    refine ⟨by simpa using hadd.trans hadd', fun a => ⟨fun ha => ?_, fun ha => ?_⟩⟩
    · by_cases har : a ∈ rest.map Prod.fst
      · exact (hrest a).1 har
      · obtain rfl : a = iter.1 := by
          rcases List.mem_cons.mp ha with rfl | ha
          · rfl
          · exact absurd ha har
        exact ⟨t, ht, by rw [(hrest _).2 har, hbal, StdMap.set_self]⟩
    · rw [List.map_cons, List.mem_cons, not_or] at ha
      rw [(hrest a).2 ha.2, hbal, StdMap.set_ne _ _ ha.1]

/-- After both input stages: every payer and the sender are in, with their totals. -/
theorem inputs_spec {env : UtxoEnv} {isGenSign : Bool} {fromAddr : Str} {m : TransfersMap}
    {txUtxo : CTxUtxo} {utxoHashs : List Str} {f₁ f₂ : Filling}
    (h₁ : addPayers env isGenSign m.entries ⟨txUtxo, utxoHashs, .empty⟩ = .ok f₁)
    (h₂ : addSender env isGenSign fromAddr f₁ = .ok f₂) :
    AddsInputs env.db txUtxo f₂.txUtxo (((m.payers fromAddr).map fun a => heldBy env a).sum) ∧
      ∀ a ∈ m.payers fromAddr, ∃ t, t.toNat = heldBy env a % 2 ^ 64 ∧ f₂.fromBalance a = some t := by
  obtain ⟨hadd, hbal⟩ := addPayers_spec m.entries h₁
  by_cases hfrom : fromAddr ∈ m.entries.map Prod.fst
  · obtain ⟨t, ht, hsome⟩ := (hbal fromAddr).1 hfrom
    rw [addSender, hsome, if_pos (by simp)] at h₂
    obtain rfl := Except.ok.inj h₂
    refine ⟨?_, fun a ha => (hbal a).1 ?_⟩
    · rw [TransfersMap.payers, if_pos hfrom, List.append_nil, List.map_map]; exact hadd
    · rwa [TransfersMap.payers, if_pos hfrom, List.append_nil] at ha
  · have hnone : f₁.fromBalance fromAddr = none := (hbal fromAddr).2 hfrom
    rw [addSender, hnone, if_neg (by simp)] at h₂
    obtain ⟨hadd', t, ht, hset⟩ := addPayer_spec h₂
    refine ⟨?_, fun a ha => ?_⟩
    · rw [TransfersMap.payers, if_neg hfrom, List.map_append, List.map_map, List.sum_append,
        List.map_singleton, List.sum_singleton]
      exact hadd.trans hadd'
    · rw [TransfersMap.payers, if_neg hfrom, List.mem_append, List.mem_singleton] at ha
      rcases ha with ha | rfl
      · obtain ⟨t', ht', hsome⟩ := (hbal a).1 ha
        refine ⟨t', ht', ?_⟩
        rw [hset, StdMap.set_ne _ _ (by rintro rfl; exact hfrom ha), hsome]
      · exact ⟨t, ht, by rw [hset, StdMap.set_self]⟩

/-! ### The outputs -/

/-- `txUtxo'` has the outputs of `txUtxo` and some more, written from the words `ws`. -/
def AddsOutputs (txUtxo txUtxo' : CTxUtxo) (ws : List UInt64) : Prop :=
  ∃ vouts, vouts.map CTxOutput.value = ws.map UInt64.toInt64 ∧
    txUtxo' = { txUtxo with vout := txUtxo.vout ++ vouts }

theorem AddsOutputs.refl (txUtxo : CTxUtxo) : AddsOutputs txUtxo txUtxo [] := ⟨[], rfl, by simp⟩

theorem AddsOutputs.trans {u₁ u₂ u₃ : CTxUtxo} {ws ws' : List UInt64}
    (h : AddsOutputs u₁ u₂ ws) (h' : AddsOutputs u₂ u₃ ws') : AddsOutputs u₁ u₃ (ws ++ ws') := by
  obtain ⟨vouts, hval, rfl⟩ := h
  obtain ⟨vouts', hval', rfl⟩ := h'
  exact ⟨vouts ++ vouts', by simp [hval, hval'], by simp⟩

theorem addVout_adds (txUtxo : CTxUtxo) (addr : Str) (w : UInt64) :
    AddsOutputs txUtxo (txUtxo.addVout addr w.toInt64) [w] := ⟨[⟨addr, w.toInt64⟩], rfl, rfl⟩

/-- One payer's transfers: outputs for all of them, and the balance left. -/
theorem payTransfers_spec : ∀ (tos : List (Str × UInt64)) {txUtxo : CTxUtxo} {balance : UInt64}
    {r : CTxUtxo × UInt64}, payTransfers tos txUtxo balance = .ok r →
      AddsOutputs txUtxo r.1 (tos.map Prod.snd) ∧ amountsOf tos ≤ balance.toNat ∧
        r.2.toNat = balance.toNat - amountsOf tos
  | [], txUtxo, balance, r, h => by
    obtain rfl := Except.ok.inj h
    exact ⟨AddsOutputs.refl _, Nat.zero_le _, rfl⟩
  | toaddr :: rest, txUtxo, balance, r, h => by
    simp only [payTransfers] at h
    split_ifs at h with hlt
    obtain ⟨hadd, hle, hleft⟩ := payTransfers_spec rest h
    have hge : toaddr.2 ≤ balance := UInt64.not_lt.mp hlt
    rw [UInt64.toNat_sub_of_le _ _ hge] at hle hleft
    rw [UInt64.le_iff_toNat_le] at hge
    have hcons : amountsOf (toaddr :: rest) = toaddr.2.toNat + amountsOf rest := by simp [amountsOf]
    refine ⟨(addVout_adds txUtxo toaddr.1 toaddr.2).trans hadd, ?_, ?_⟩
    · rw [hcons]; omega
    · rw [hleft, hcons]; omega

/-- What the second loop adds, for payers that hold `held`. -/
structure PaidAll (fromAddr : Str) (held : Str → ℕ) (entries : List (Str × List (Str × UInt64)))
    (ws : List UInt64) (fromBalance : StdMap Str UInt64) : Prop where
  covered : ∀ e ∈ entries, amountsOf e.2 ≤ held e.1
  small : (∀ w ∈ ws, w.toNat < 2 ^ 63) ↔ (∀ e ∈ entries, ∀ t ∈ e.2, t.2.toNat < 2 ^ 63) ∧
    ∀ e ∈ entries, e.1 ≠ fromAddr → held e.1 - amountsOf e.2 < 2 ^ 63
  worth : (ws.map UInt64.toNat).sum
    = (entries.map fun e => if e.1 = fromAddr then amountsOf e.2 else held e.1).sum
  left : ∀ e ∈ entries, ((fromBalance e.1).getD 0).toNat = held e.1 - amountsOf e.2

theorem sum_map_snd (tos : List (Str × UInt64)) :
    ((tos.map Prod.snd).map UInt64.toNat).sum = amountsOf tos := by
  rw [List.map_map]; rfl

theorem payAll_spec (fromAddr : Str) (held : Str → ℕ) :
    ∀ (entries : List (Str × List (Str × UInt64))) {txUtxo : CTxUtxo}
      {fromBalance : StdMap Str UInt64} {r : CTxUtxo × StdMap Str UInt64},
      (entries.map Prod.fst).Nodup →
      (∀ e ∈ entries, ((fromBalance e.1).getD 0).toNat = held e.1) →
      payAll fromAddr entries txUtxo fromBalance = .ok r →
        ∃ ws, AddsOutputs txUtxo r.1 ws ∧ PaidAll fromAddr held entries ws r.2 ∧
          ∀ a ∉ entries.map Prod.fst, r.2 a = fromBalance a
  | [], txUtxo, fromBalance, r, _, _, h => by
    obtain rfl := Except.ok.inj h
    exact ⟨[], AddsOutputs.refl _, ⟨by simp, by simp, rfl, by simp⟩, fun _ _ => rfl⟩
  | iter :: rest, txUtxo, fromBalance, r, hnodup, hheld, h => by
    obtain ⟨p, hp, h⟩ := bind_eq_ok.mp h
    rw [List.map_cons, List.nodup_cons] at hnodup
    obtain ⟨hadd, hle, hleft⟩ := payTransfers_spec iter.2 hp
    rw [hheld iter List.mem_cons_self] at hle hleft
    have hkeys : ∀ e ∈ rest, e.1 ≠ iter.1 := fun e he heq =>
      hnodup.1 (heq ▸ List.mem_map_of_mem he)
    obtain ⟨ws, hadd', hpaid, hframe⟩ := payAll_spec fromAddr held rest hnodup.2
      (fun e he => by
        rw [StdMap.set_ne _ _ (hkeys e he)]
        exact hheld e (List.mem_cons_of_mem _ he)) h
    have hiter : r.2 iter.1 = some p.2 := by
      rw [hframe _ hnodup.1, StdMap.set_self]
    have hframe' : ∀ a ∉ (iter :: rest).map Prod.fst, r.2 a = fromBalance a := by
      intro a ha
      rw [List.map_cons, List.mem_cons, not_or] at ha
      rw [hframe a ha.2, StdMap.set_ne _ _ ha.1]
    have hall : ∀ e ∈ iter :: rest, ((r.2 e.1).getD 0).toNat = held e.1 - amountsOf e.2 := by
      intro e he
      rcases List.mem_cons.mp he with rfl | he
      · rw [hiter]; exact hleft
      · exact hpaid.left e he
    have hcov : ∀ e ∈ iter :: rest, amountsOf e.2 ≤ held e.1 := by
      intro e he
      rcases List.mem_cons.mp he with rfl | he
      · exact hle
      · exact hpaid.covered e he
    by_cases hfrom : iter.1 = fromAddr
    · rw [if_pos hfrom] at hadd'
      refine ⟨iter.2.map Prod.snd ++ ws, hadd.trans hadd', ⟨hcov, ?_, ?_, hall⟩, hframe'⟩
      · rw [List.forall_mem_append, hpaid.small, List.forall_mem_map]
        simp only [List.forall_mem_cons, hfrom, ne_eq, not_true, false_imp_iff, true_and]
        tauto
      · rw [List.map_append, List.sum_append, sum_map_snd, hpaid.worth]
        simp [hfrom]
    · rw [if_neg hfrom] at hadd'
      refine ⟨iter.2.map Prod.snd ++ ([p.2] ++ ws),
        hadd.trans ((addVout_adds p.1 iter.1 p.2).trans hadd'), ⟨hcov, ?_, ?_, hall⟩, hframe'⟩
      · rw [List.forall_mem_append, List.forall_mem_append, hpaid.small, List.forall_mem_map,
          List.forall_mem_singleton, hleft]
        simp only [List.forall_mem_cons, hfrom, ne_eq, not_false_eq_true, true_imp_iff]
        tauto
      · rw [List.map_append, List.sum_append, List.map_append, List.sum_append, sum_map_snd,
          hpaid.worth]
        simp only [List.map_cons, List.map_nil, List.sum_cons, List.sum_nil, hleft, if_neg hfrom]
        omega

theorem TransfersMap.nodup (m : TransfersMap) : (m.entries.map Prod.fst).Nodup :=
  m.sorted.imp fun {a b} h => by
    rintro rfl
    exact List.lt_irrefl _ h

theorem paidBy_of_notMem {m : TransfersMap} {addr : Str} (h : addr ∉ m.entries.map Prod.fst) :
    m.paidBy addr = 0 := by
  rw [TransfersMap.paidBy, List.filter_eq_nil_iff.mpr]
  · rfl
  · intro e he heq
    exact h (of_decide_eq_true heq ▸ List.mem_map_of_mem he)

theorem filter_key_eq {entries : List (Str × List (Str × UInt64))}
    (hnodup : (entries.map Prod.fst).Nodup) {e : Str × List (Str × UInt64)} (he : e ∈ entries) :
    entries.filter (fun e' => e'.1 = e.1) = [e] := by
  induction entries with
  | nil => cases he
  | cons iter rest ih =>
    rw [List.map_cons, List.nodup_cons] at hnodup
    rcases List.mem_cons.mp he with rfl | he
    · rw [List.filter_cons_of_pos (by simp), List.filter_eq_nil_iff.mpr]
      intro e' he' heq
      exact hnodup.1 (of_decide_eq_true heq ▸ List.mem_map_of_mem he')
    · have hne : iter.1 ≠ e.1 := fun heq => hnodup.1 (heq ▸ List.mem_map_of_mem he)
      rw [List.filter_cons_of_neg (by simpa using hne), ih hnodup.2 he]

theorem paidBy_of_mem {m : TransfersMap} {e : Str × List (Str × UInt64)} (he : e ∈ m.entries) :
    m.paidBy e.1 = amountsOf e.2 := by
  rw [TransfersMap.paidBy, filter_key_eq m.nodup he]; simp

/-- Payouts and change of the payers, and what the sender has left, are all that came in. -/
theorem worth_add_left (m : TransfersMap) (fromAddr : Str) (held : Str → ℕ)
    (hcov : ∀ e ∈ m.entries, amountsOf e.2 ≤ held e.1) :
    (m.entries.map fun e => if e.1 = fromAddr then amountsOf e.2 else held e.1).sum
      + (held fromAddr - m.paidBy fromAddr) = ((m.payers fromAddr).map held).sum := by
  by_cases hfrom : fromAddr ∈ m.entries.map Prod.fst
  · obtain ⟨e, he, rfl⟩ := List.mem_map.mp hfrom
    obtain ⟨pre, post, hsplit⟩ := List.append_of_mem he
    have hnodup := m.nodup
    rw [hsplit, List.map_append, List.map_cons, List.nodup_append] at hnodup
    obtain ⟨-, hpost, hdis⟩ := hnodup
    rw [List.nodup_cons] at hpost
    have hother : ∀ l : List (Str × List (Str × UInt64)), (∀ x ∈ l, x.1 ≠ e.1) →
        (l.map fun x => if x.1 = e.1 then amountsOf x.2 else held x.1)
          = l.map fun x => held x.1 := fun l hl =>
      List.map_congr_left fun x hx => if_neg (hl x hx)
    rw [paidBy_of_mem he, TransfersMap.payers, if_pos hfrom, List.append_nil, List.map_map, hsplit,
      List.map_append, List.map_cons, List.sum_append, List.sum_cons, if_pos rfl,
      hother pre fun x hx => hdis _ (List.mem_map_of_mem hx) _ List.mem_cons_self,
      hother post fun x hx heq => hpost.1 (heq ▸ List.mem_map_of_mem hx)]
    have := hcov e he
    simp only [List.map_append, List.map_cons, List.sum_append, List.sum_cons, Function.comp_def]
    omega
  · rw [paidBy_of_notMem hfrom, Nat.sub_zero, TransfersMap.payers, if_neg hfrom, List.map_append,
      List.sum_append, List.map_singleton, List.sum_singleton, List.map_map]
    congr 2
    refine List.map_congr_left fun e he => if_neg ?_
    rintro rfl
    exact hfrom (List.mem_map_of_mem he)

/-! ### Conservation -/

theorem addCosts_adds (burner : Str) {toAddr : Str} (hto : toAddr ≠ []) (gasCost : Int64)
    (contractTip : UInt64) (txUtxo : CTxUtxo) :
    ∃ ws, AddsOutputs txUtxo (addCosts burner toAddr gasCost contractTip txUtxo)
        (gasCost.toUInt64 :: ws) ∧ (ws.map UInt64.toNat).sum = contractTip.toNat ∧
      ((∀ w ∈ ws, w.toNat < 2 ^ 63) ↔ contractTip.toNat < 2 ^ 63) := by
  have hburn : AddsOutputs txUtxo (txUtxo.addVout burner gasCost) [gasCost.toUInt64] :=
    addVout_adds txUtxo burner gasCost.toUInt64
  by_cases htip : contractTip = 0
  · subst htip
    exact ⟨[], by simpa [addCosts] using hburn, rfl, by simp⟩
  · refine ⟨[contractTip], ?_, by simp, by simp⟩
    rw [addCosts, if_pos ⟨htip, hto⟩]
    exact hburn.trans (addVout_adds _ toAddr contractTip)

/-- What a successful draft looks like: inputs worth what the payers and the sender hold, outputs for
    the gas cost, the tip and the transfers, and the sender's balance after its transfers. -/
theorem fillingDraft_spec {env : ContractEnv} {fromAddr toAddr : Str} {txType : TxType}
    {m : TransfersMap} {gasCost : Int64} {outTx : CTransaction} {contractTip : UInt64}
    {utxoHashs : List Str} {isGenSign : Bool} {f : Filling} (hto : toAddr ≠ [])
    (h : fillingDraft env fromAddr toAddr txType m gasCost outTx contractTip utxoHashs isGenSign
      = .ok f) :
    ∃ u tips ws, AddsInputs env.db outTx.utxo u
        (((m.payers fromAddr).map fun a => heldBy env.toUtxoEnv a).sum) ∧
      AddsOutputs u f.txUtxo (gasCost.toUInt64 :: tips ++ ws) ∧
      (tips.map UInt64.toNat).sum = contractTip.toNat ∧
      ((∀ w ∈ tips, w.toNat < 2 ^ 63) ↔ contractTip.toNat < 2 ^ 63) ∧
      PaidAll fromAddr (fun a => heldBy env.toUtxoEnv a % 2 ^ 64) m.entries ws f.fromBalance ∧
      ((f.fromBalance fromAddr).getD 0).toNat
        = heldBy env.toUtxoEnv fromAddr % 2 ^ 64 - m.paidBy fromAddr := by
  obtain ⟨f₁, h₁, h⟩ := bind_eq_ok.mp h
  obtain ⟨f₂, h₂, h⟩ := bind_eq_ok.mp h
  obtain ⟨burner, -, h⟩ := bind_eq_ok.mp h
  obtain ⟨r, hr, h⟩ := bind_eq_ok.mp h
  have hf := Except.ok.inj h
  obtain ⟨hin, hbal⟩ := inputs_spec h₁ h₂
  obtain ⟨tips, hcost, hsum, hsmall⟩ := addCosts_adds burner hto gasCost contractTip f₂.txUtxo
  have hheld : ∀ a ∈ m.payers fromAddr,
      ((f₂.fromBalance a).getD 0).toNat = heldBy env.toUtxoEnv a % 2 ^ 64 := by
    intro a ha
    obtain ⟨t, ht, hsome⟩ := hbal a ha
    rw [hsome, Option.getD_some, ht]
  obtain ⟨ws, hout, hpaid, hframe⟩ := payAll_spec fromAddr
    (fun a => heldBy env.toUtxoEnv a % 2 ^ 64) m.entries m.nodup
    (fun e he => hheld e.1 (List.mem_append_left _ (List.mem_map_of_mem he))) hr
  refine ⟨f₂.txUtxo, tips, ws, hin, ?_, hsum, hsmall, ?_, ?_⟩
  · rw [← hf]; exact hcost.trans hout
  · rw [← hf]; exact hpaid
  · subst hf
    by_cases hfrom : fromAddr ∈ m.entries.map Prod.fst
    · obtain ⟨e, he, rfl⟩ := List.mem_map.mp hfrom
      rw [paidBy_of_mem he]
      exact hpaid.left e he
    · rw [paidBy_of_notMem hfrom, Nat.sub_zero]
      have hmem : fromAddr ∈ m.payers fromAddr := by
        rw [TransfersMap.payers, if_neg hfrom]; simp
      rw [← hheld _ hmem, ← hframe _ hfrom]

theorem sum_div_mod (l : List Str) (held : Str → ℕ) :
    (l.map held).sum = 2 ^ 64 * (l.map fun a => held a / 2 ^ 64).sum
      + (l.map fun a => held a % 2 ^ 64).sum := by
  rw [← List.sum_map_mul_left, ← List.sum_map_add]
  simp only [Nat.div_add_mod]

/-- The words written by a filled transaction, read one by one. -/
theorem forall_words_iff {cost change gas : UInt64} (tips ws : List UInt64)
    (hcost : cost.toNat < 2 ^ 63) :
    (∀ w ∈ cost :: tips ++ ws ++ [change] ++ [gas], w.toNat < 2 ^ 63) ↔
      (∀ w ∈ tips, w.toNat < 2 ^ 63) ∧ (∀ w ∈ ws, w.toNat < 2 ^ 63) ∧ change.toNat < 2 ^ 63 ∧
        gas.toNat < 2 ^ 63 := by
  constructor
  · intro h
    exact ⟨fun w hw => h w (by simp [hw]), fun w hw => h w (by simp [hw]), h _ (by simp),
      h _ (by simp)⟩
  · rintro ⟨htips, hws, hchange, hgas⟩ w hw
    simp only [List.mem_append, List.mem_cons, List.not_mem_nil, or_false] at hw
    rcases hw with (((rfl | hw) | hw) | rfl) | rfl
    · exact hcost
    · exact htips w hw
    · exact hws w hw
    · exact hchange
    · exact hgas

theorem sum_words (cost change gas : UInt64) (tips ws : List UInt64) :
    ((cost :: tips ++ ws ++ [change] ++ [gas]).map UInt64.toNat).sum
      = cost.toNat + (tips.map UInt64.toNat).sum + (ws.map UInt64.toNat).sum + change.toNat
        + gas.toNat := by
  simp only [List.map_append, List.map_cons, List.map_nil, List.sum_append, List.sum_cons,
    List.sum_nil]
  omega

/-- A contract transaction that was filled in conserves value exactly when its amounts fit the words
    they are computed in. -/
theorem fillingTransactions_conserves_iff (env : ContractEnv) (fromAddr toAddr : Str)
    (txType : TxType) (transfersMap : TransfersMap) (gasCost : Int64) (outTx : CTransaction)
    (contractTip : UInt64) (utxoHashs : List Str) (isGenSign : Bool) (hto : toAddr ≠ [])
    (hgas : 0 ≤ gasCost.toInt) (out : CTransaction) (used : List Str)
    (h : fillingTransactions env fromAddr toAddr txType transfersMap gasCost outTx contractTip
      utxoHashs isGenSign = .ok (out, used)) :
    ∃ f gas owners vins vouts,
      fillingDraft env fromAddr toAddr txType transfersMap gasCost outTx contractTip utxoHashs
        isGenSign = .ok f ∧
      env.generateGas { outTx with utxo := f.txUtxo } (targetAddrs outTx f) = some gas ∧
      out.utxo = { outTx.utxo with
        owner := outTx.utxo.owner ++ owners
        vin := outTx.utxo.vin ++ vins
        vout := outTx.utxo.vout ++ vouts } ∧
      (Conserves env.db owners vins vouts ↔
        FitsWords env.toUtxoEnv fromAddr transfersMap gasCost contractTip gas) := by
  obtain ⟨f, hf, h⟩ := bind_eq_ok.mp h
  split at h
  · cases h
  rename_i gas hgen
  obtain ⟨-, -, h⟩ := bind_eq_ok.mp h
  obtain ⟨_, hbal, h⟩ := bind_eq_ok.mp h
  obtain ⟨hout, -⟩ := Prod.mk.inj (Except.ok.inj h)
  obtain ⟨u, tips, ws, ⟨owners, vins, -, hval, rfl⟩, hadd, htips, htsmall, hpaid, hleft⟩ :=
    fillingDraft_spec hto hf
  -- the last two outputs: the sender's change and the gas
  have hall := (hadd.trans (addVout_adds _ fromAddr
    ((f.fromBalance fromAddr).getD 0 - (gasCost.toUInt64 + contractTip + gas)))).trans
      (addVout_adds _ env.kVirtualBurnGasAddr gas)
  obtain ⟨vouts, hwords, heq⟩ := hall
  refine ⟨f, gas, owners, vins, vouts, hf, hgen, ?_, ?_⟩
  · rw [← hout, heq]
  rw [conserves_iff_words hwords, hval]
  -- the words in terms of the natural numbers
  have hexp : (gasCost.toUInt64 + contractTip + gas).toNat
      = (gasCost.toUInt64.toNat + contractTip.toNat + gas.toNat) % 2 ^ 64 := by
    simp only [UInt64.toNat_add]; omega
  have hge : gasCost.toUInt64 + contractTip + gas ≤ (f.fromBalance fromAddr).getD 0 := by
    have := Exit.when_eq_ok.mp hbal
    exact UInt64.not_lt.mp (of_decide_eq_false this)
  have hchange := UInt64.toNat_sub_of_le _ _ hge
  rw [UInt64.le_iff_toNat_le, hexp, hleft] at hge
  rw [hexp, hleft] at hchange
  have hcost : gasCost.toUInt64.toNat < 2 ^ 63 := by
    rw [← Word.toInt64_nonneg_iff]; exact hgas
  have hworth := worth_add_left transfersMap fromAddr
    (fun a => heldBy env.toUtxoEnv a % 2 ^ 64) hpaid.covered
  have hin := sum_div_mod (transfersMap.payers fromAddr)
    fun a => heldBy env.toUtxoEnv a
  rw [← hpaid.worth] at hworth
  have hsum : gasCost.toUInt64.toNat + contractTip.toNat + (ws.map UInt64.toNat).sum
        + (heldBy env.toUtxoEnv fromAddr % 2 ^ 64 - transfersMap.paidBy fromAddr
          - (gasCost.toUInt64.toNat + contractTip.toNat + gas.toNat) % 2 ^ 64) + gas.toNat
      = ((transfersMap.payers fromAddr).map fun a => heldBy env.toUtxoEnv a).sum ↔
      (gasCost.toUInt64.toNat + contractTip.toNat + gas.toNat) / 2 ^ 64
        = ((transfersMap.payers fromAddr).map fun a => heldBy env.toUtxoEnv a / 2 ^ 64).sum := by
    omega
  rw [forall_words_iff tips ws hcost, sum_words, htips, hchange, hsum, htsmall, hpaid.small]
  constructor
  · rintro ⟨⟨ht, ⟨ha, hc⟩, hs, hg⟩, hw⟩
    exact ⟨ht, hg, ha, hc, hs, hw⟩
  · rintro ⟨ht, hg, ha, hc, hs, hw⟩
    exact ⟨⟨ht, ⟨ha, hc⟩, hs, hg⟩, hw⟩

/-- A node where `A` owns one output of 100 and every gas is 5. -/
def purseEnv : ContractEnv where
  db := ⟨fun key =>
    if key = kAddress2UtxoKey ++ str "A" then .found (str "h")
    else if key = str "A_h" then .found (str "100")
    else .notFound⟩
  sortUtxos := .insertion
  sendConfirmUtxoHashReq := fun _ => 0
  generateGas := fun _ _ => some 5
  kVirtualDeployContractAddr := str "deploy"
  kVirtualCallContractAddr := str "call"
  kVirtualBurnGasAddr := str "burn"

/-- `A` pays `B` ten. -/
def payTen : TransfersMap where
  entries := [(str "A", [(str "B", 10)])]
  sorted := by simp
  innerSorted := by simp

/-- `A` pays `B` 10, a gas cost of 20, a tip of 7 and the gas of 5, and keeps 58. -/
theorem fillingTransactions_conserves_payTen :
    ∃ out used, fillingTransactions purseEnv (str "A") (str "T") .callContract payTen 20
        CTransaction.cleared 7 [] true = .ok (out, used) ∧
      Conserves purseEnv.db out.utxo.owner out.utxo.vin out.utxo.vout := by
  obtain ⟨⟨out, used⟩, hrun, -⟩ := ok_of_eval (b := ()) (f := fun _ => ())
    (m := fillingTransactions purseEnv (str "A") (str "T") .callContract payTen 20
      CTransaction.cleared 7 [] true) (by decide)
  obtain ⟨f, gas, owners, vins, vouts, -, hgas, hout, hiff⟩ :=
    fillingTransactions_conserves_iff purseEnv (str "A") (str "T") .callContract payTen 20
      CTransaction.cleared 7 [] true (by decide) (by decide) out used hrun
  obtain rfl : 5 = gas := Option.some.inj hgas
  refine ⟨out, used, hrun, ?_⟩
  rw [hout]
  exact hiff.mpr ⟨by decide, by decide, by decide, by decide, by decide,
    by decide⟩

/-- With a gas cost and a tip of `2 ^ 63 - 1` each, the costs wrap around to 3: the transaction is
    accepted and pays out far more than the 100 that came in. -/
theorem fillingTransactions_creates_value :
    ∃ out used, fillingTransactions purseEnv (str "A") (str "T") .callContract ⟨[], .nil, by simp⟩
        (2 ^ 63 - 1) CTransaction.cleared (2 ^ 63 - 1) [] true = .ok (out, used) ∧
      ¬ Conserves purseEnv.db out.utxo.owner out.utxo.vin out.utxo.vout := by
  obtain ⟨⟨out, used⟩, hrun, hval⟩ := ok_of_eval (b := false)
    (f := fun r => decide (Conserves purseEnv.db r.1.utxo.owner r.1.utxo.vin r.1.utxo.vout))
    (m := fillingTransactions purseEnv (str "A") (str "T") .callContract ⟨[], .nil, by simp⟩
      (2 ^ 63 - 1) CTransaction.cleared (2 ^ 63 - 1) [] true) (by decide +kernel)
  exact ⟨out, used, hrun, of_decide_eq_false hval⟩

end Tfs.Ca
