import Tfs.Ca.Contract

/-! The pseudo random number of a contract transaction (`CalculateBlockPrevRandao` in
    `ca/evm/evm_environment.cpp`).

    It is the sum of the characters of the hashes of the sender's unspent outputs. The sender takes
    them from `FindUtxo`, the verifier from the inputs of the signed transaction: it leaves out the
    inputs of contracts and those whose public key belongs to another address. -/

namespace Tfs.Evm
open Tfs.Db Tfs.Ca

/-- `StringUtil::StringToNumber`: the sum of the characters, which are signed. -/
def stringToNumber (s : Str) : Int64 := s.foldl (fun number c => number + c.toInt8.toInt64) 0

/-- `evm_environment::CalculateBlockPrevRandao` of the sender. -/
def calculateBlockPrevRandao (env : UtxoEnv) (fromAddr : Str) : Except Exit Int64 :=
  match findUtxo env [fromAddr] kMaxVinSize false with
  | .error .exception => .error .exception
  | .error (.ret _) => .ok (-1)
  | .ok found => .ok (stringToNumber (found.2.map Utxo.hash).flatten)

section Verifier
variable (generateAddr : Str → Str) (sender : Str → Option Str)

/-- The loop over the inputs: the hashes of those signed for `fromAddr`, one text; `none` at an input
    that has no public key and is not a contract's. -/
def utxoString (fromAddr : Str) : List CTxInput → Option Str
  | [] => some []
  | vin :: rest =>
    if vin.contractAddr ≠ [] then utxoString fromAddr rest
    else
      let pub := vin.vinSign.elim [] CSign.pub
      if pub = [] then none
      else if generateAddr pub ≠ fromAddr then utxoString fromAddr rest
      else (utxoString fromAddr rest).map fun more =>
        (vin.prevOut.map CTxPrevOutput.hash).flatten ++ more

/-- `evm_environment::CalculateBlockPrevRandao` of a transaction; `sender` is the sender that the
    transaction's data names, `none` where parsing them throws. -/
def calculateBlockPrevRandaoOfTx (transaction : CTransaction) : Int64 :=
  match sender transaction.data with
  | none => -1
  | some fromAddr => (utxoString generateAddr fromAddr transaction.utxo.vin).elim (-2) stringToNumber

/-- The transaction `built` with signatures: the same data and inputs, and every input that is no
    contract's carries the public key of its owner. -/
structure SignedByOwners (built signed : CTransaction) : Prop where
  data : signed.data = built.data
  vins : List.Forall₂ (fun (input : Str × CTxInput) vin => vin.prevOut = input.2.prevOut
      ∧ vin.contractAddr = input.2.contractAddr
      ∧ (input.2.contractAddr = [] → ∃ sign, vin.vinSign = some sign ∧ sign.pub ≠ []
        ∧ generateAddr sign.pub = input.1))
    (built.utxo.owner.zip built.utxo.vin) signed.utxo.vin

end Verifier

/-- An address is signed for, unless it is a payer with a contract record. -/
def isSigned (env : UtxoEnv) (m : TransfersMap) (isGenSign : Bool) (addr : Str) : Bool :=
  !(addr ∈ m.entries.map Prod.fst && (env.db.getLatestUtxoByContractAddr addr).toOption.isSome)
    && isGenSign

/-- The text of the sender's outputs. -/
def hashText (env : UtxoEnv) (addr : Str) : Str :=
  (findUtxo env [addr] kMaxVinSize false).toOption.elim [] fun found =>
    (found.2.map Utxo.hash).flatten

/-! ### The inputs of a filled transaction -/

/-- The input made for an address: all it was found to have, under its name or to be signed. -/
structure IsVinOf (env : UtxoEnv) (isSign : Bool) (addr : Str) (vin : CTxInput) : Prop where
  found : ∃ found, findUtxo env [addr] kMaxVinSize false = .ok found
  hashes : (vin.prevOut.map CTxPrevOutput.hash).flatten = hashText env addr
  contractAddr : vin.contractAddr = if isSign then [] else addr

/-- The outputs found for one address have one owner. -/
theorem txOwners_eq_singleton {utxos : List Utxo} {addr : Str} (hne : utxos ≠ [])
    (h : ∀ u ∈ utxos, u.addr = addr) : txOwners utxos = [addr] := by
  have hall : ∀ a ∈ txOwners utxos, a = addr := by
    intro a ha
    obtain ⟨u, hu, rfl⟩ := List.mem_map.mp (mem_sortedSet.mp ha)
    exact h u hu
  obtain ⟨u, hu⟩ := List.exists_mem_of_ne_nil _ hne
  have hmem : u.addr ∈ txOwners utxos := mem_sortedSet.mpr (List.mem_map_of_mem hu)
  have hnodup : (txOwners utxos).Nodup := sortedSet_nodup _
  have hlen : (txOwners utxos).length ≤ 1 := by
    rw [List.eq_replicate_of_mem hall] at hnodup
    exact List.nodup_replicate.mp hnodup
  obtain ⟨a, ha⟩ := List.length_eq_one_iff.mp (le_antisymm hlen (List.length_pos_of_mem hmem))
  rw [ha, hall a (ha ▸ List.mem_singleton_self a)]

/-- `GenVin` for one address adds one owner and its input. -/
theorem genVin_isVinOf {env : UtxoEnv} {addr : Str} {txUtxo : CTxUtxo} {utxoHashs : List Str}
    {isSign : Bool} {r : CTxUtxo × List Str × UInt64}
    (h : genVin env [addr] txUtxo utxoHashs isSign = .ok r) : ∃ vin, IsVinOf env isSign addr vin
      ∧ r.1 = { txUtxo with owner := txUtxo.owner ++ [addr], vin := txUtxo.vin ++ [vin] } := by
  obtain ⟨found, hfound, h⟩ := bind_eq_ok.mp h
  obtain ⟨_, hne, h⟩ := bind_eq_ok.mp h
  obtain ⟨-, -, h⟩ := bind_eq_ok.mp h
  have hr := Except.ok.inj h
  rw [Exit.recode_eq_ok] at hfound
  have haddr : ∀ u ∈ found.2, u.addr = addr := fun u hu =>
    List.mem_singleton.mp ((findUtxo_spec hfound).2 u hu).1
  have hnil : found.2 ≠ [] := by simpa using hne
  rw [txOwners_eq_singleton hnil haddr, genVinLoop, genVinLoop] at hr
  refine ⟨_, ⟨⟨found, hfound⟩, ?_, rfl⟩, (congrArg Prod.fst hr).symm⟩
  have hall : found.2.filter (fun utxo => utxo.addr = addr) = found.2 :=
    List.filter_eq_self.mpr fun u hu => by simpa using haddr u hu
  rw [prevOutsOf, hall, List.map_map, hashText, hfound]
  rfl

/-- The first loop adds the input of every payer. -/
theorem addPayers_isVinOf {env : UtxoEnv} {isGenSign : Bool} :
    ∀ (entries : List (Str × List (Str × UInt64))) {f f' : Filling},
      addPayers env isGenSign entries f = .ok f' → ∃ vins,
        List.Forall₂ (fun addr vin => IsVinOf env
          (!(env.db.getLatestUtxoByContractAddr addr).toOption.isSome && isGenSign) addr vin)
          (entries.map Prod.fst) vins
        ∧ f'.txUtxo = { f.txUtxo with
            owner := f.txUtxo.owner ++ entries.map Prod.fst, vin := f.txUtxo.vin ++ vins }
  | [], f, f', h => by
    cases h
    exact ⟨[], .nil, by simp⟩
  | iter :: rest, f, f', h => by
    obtain ⟨f₁, h₁, h⟩ := bind_eq_ok.mp h
    obtain ⟨r, hr, h₁⟩ := bind_eq_ok.mp h₁
    obtain ⟨vin, hvin, hr⟩ := genVin_isVinOf (Exit.recode_eq_ok.mp hr)
    obtain ⟨vins, hvins, hf'⟩ := addPayers_isVinOf rest h
    refine ⟨vin :: vins, .cons hvin hvins, ?_⟩
    cases h₁
    rw [hf', hr]
    simp

/-- With the sender's, there is one input for each of those that pay. -/
theorem inputs_isVinOf {env : UtxoEnv} {isGenSign : Bool} {fromAddr : Str} {m : TransfersMap}
    {utxoHashs : List Str} {f₁ f₂ : Filling}
    (h₁ : addPayers env isGenSign m.entries ⟨.cleared, utxoHashs, .empty⟩ = .ok f₁)
    (h₂ : addSender env isGenSign fromAddr f₁ = .ok f₂) :
    f₂.txUtxo.owner = m.payers fromAddr
      ∧ List.Forall₂ (fun addr vin => IsVinOf env (isSigned env m isGenSign addr) addr vin)
        (m.payers fromAddr) f₂.txUtxo.vin := by
  obtain ⟨vins, hvins, hf₁⟩ := addPayers_isVinOf m.entries h₁
  have hbal := (addPayers_spec m.entries h₁).2 fromAddr
  have hpayers : List.Forall₂ (fun addr vin => IsVinOf env (isSigned env m isGenSign addr) addr vin)
      (m.entries.map Prod.fst) vins := by
    refine List.forall₂_iff_get.mpr ⟨hvins.length_eq, fun i hi hi' => ?_⟩
    have hget := (List.forall₂_iff_get.mp hvins).2 i hi hi'
    have hmem : (m.entries.map Prod.fst).get ⟨i, hi⟩ ∈ m.entries.map Prod.fst := List.get_mem _ _
    rw [isSigned, decide_eq_true hmem, Bool.true_and]
    exact hget
  by_cases hfrom : fromAddr ∈ m.entries.map Prod.fst
  · obtain ⟨t, -, hsome⟩ := hbal.1 hfrom
    rw [addSender, hsome, if_pos (by simp)] at h₂
    cases h₂
    rw [TransfersMap.payers, if_pos hfrom, List.append_nil, hf₁]
    exact ⟨rfl, hpayers⟩
  · have hnone : f₁.fromBalance fromAddr = none := hbal.2 hfrom
    rw [addSender, hnone, if_neg (by simp)] at h₂
    obtain ⟨r, hr, h₂⟩ := bind_eq_ok.mp h₂
    obtain ⟨vin, hvin, hr⟩ := genVin_isVinOf (Exit.recode_eq_ok.mp hr)
    cases h₂
    rw [TransfersMap.payers, if_neg hfrom, hr, hf₁]
    refine ⟨rfl, List.rel_append hpayers (.cons ?_ .nil)⟩
    rw [isSigned, decide_eq_false hfrom]
    exact hvin

/-- The outputs are added to the same inputs. -/
theorem payAll_vin (fromAddr : Str) : ∀ (entries : List (Str × List (Str × UInt64)))
    {txUtxo : CTxUtxo} {fromBalance : StdMap Str UInt64} {r : CTxUtxo × StdMap Str UInt64},
    payAll fromAddr entries txUtxo fromBalance = .ok r →
      r.1.owner = txUtxo.owner ∧ r.1.vin = txUtxo.vin
  | [], _, _, r, h => by
    cases h
    exact ⟨rfl, rfl⟩
  | iter :: rest, txUtxo, fromBalance, r, h => by
    obtain ⟨p, hp, h⟩ := bind_eq_ok.mp h
    obtain ⟨⟨vouts, -, hvouts⟩, -⟩ := payTransfers_spec iter.2 hp
    obtain ⟨howner, hvin⟩ := payAll_vin fromAddr rest h
    rw [howner, hvin]
    split <;> simp [hvouts]

theorem addCosts_vin (burner toAddr : Str) (gasCost : Int64) (contractTip : UInt64)
    (txUtxo : CTxUtxo) :
    (addCosts burner toAddr gasCost contractTip txUtxo).owner = txUtxo.owner
      ∧ (addCosts burner toAddr gasCost contractTip txUtxo).vin = txUtxo.vin := by
  rw [addCosts]
  split <;> simp

section Filled
variable {env : ContractEnv} {fromAddr toAddr : Str} {txType : TxType} {m : TransfersMap}
  {gasCost : Int64} {outTx built : CTransaction} {contractTip : UInt64} {utxoHashs used : List Str}
  {isGenSign : Bool}

/-- A filled transaction has one input for each of those that pay, and the data it came with. -/
theorem filled_isVinOf (hempty : outTx.utxo = .cleared)
    (h : fillingTransactions env fromAddr toAddr txType m gasCost outTx contractTip utxoHashs isGenSign
      = .ok (built, used)) :
    built.data = outTx.data ∧ built.utxo.owner = m.payers fromAddr
      ∧ List.Forall₂ (fun addr vin => IsVinOf env.toUtxoEnv
          (isSigned env.toUtxoEnv m isGenSign addr) addr vin)
        (m.payers fromAddr) built.utxo.vin := by
  obtain ⟨f, hf, h⟩ := bind_eq_ok.mp h
  split at h
  · cases h
  obtain ⟨-, -, h⟩ := bind_eq_ok.mp h
  obtain ⟨-, -, h⟩ := bind_eq_ok.mp h
  cases h
  obtain ⟨f₁, h₁, hf⟩ := bind_eq_ok.mp hf
  obtain ⟨f₂, h₂, hf⟩ := bind_eq_ok.mp hf
  obtain ⟨burner, -, hf⟩ := bind_eq_ok.mp hf
  obtain ⟨r, hr, hf⟩ := bind_eq_ok.mp hf
  cases hf
  rw [hempty] at h₁
  obtain ⟨howner, hvins⟩ := inputs_isVinOf h₁ h₂
  obtain ⟨howner', hvin'⟩ := payAll_vin fromAddr m.entries hr
  obtain ⟨howner'', hvin''⟩ := addCosts_vin burner toAddr gasCost contractTip f₂.txUtxo
  refine ⟨rfl, ?_, ?_⟩
  · rw [CTxUtxo.addVout_owner, CTxUtxo.addVout_owner, howner', howner'', howner]
  · rw [CTxUtxo.addVout_vin, CTxUtxo.addVout_vin, hvin', hvin'']
    exact hvins

end Filled

theorem payers_nodup (m : TransfersMap) (fromAddr : Str) : (m.payers fromAddr).Nodup := by
  rw [TransfersMap.payers]
  split
  · rw [List.append_nil]
    exact m.nodup
  · rename_i hfrom
    rw [← List.concat_eq_append]
    exact m.nodup.concat hfrom

theorem mem_payers (m : TransfersMap) (fromAddr : Str) : fromAddr ∈ m.payers fromAddr := by
  rw [TransfersMap.payers]
  split
  · rwa [List.append_nil]
  · exact List.mem_append_right _ (List.mem_singleton_self _)

/-! ### What the verifier collects -/

/-- The input of this address is passed over as a contract's. -/
def PassedOver (isSign : Bool) (addr : Str) : Prop := isSign = false ∧ addr ≠ []

instance (isSign : Bool) (addr : Str) : Decidable (PassedOver isSign addr) :=
  inferInstanceAs (Decidable (_ ∧ _))

section Verified
variable {env : UtxoEnv} {generateAddr : Str → Str} {signed : Str → Bool} {fromAddr : Str}

theorem IsVinOf.contractAddr_eq_nil {isSign : Bool} {addr : Str} {vin : CTxInput}
    (h : IsVinOf env isSign addr vin) : vin.contractAddr = [] ↔ ¬ PassedOver isSign addr := by
  rw [h.contractAddr, PassedOver]
  cases isSign <;> simp

/-- From the inputs of different owners the verifier takes the sender's, if that is not passed over. -/
theorem utxoString_spec : ∀ {owners : List Str} {vins vins' : List CTxInput},
    List.Forall₂ (fun addr vin => IsVinOf env (signed addr) addr vin) owners vins →
    List.Forall₂ (fun (input : Str × CTxInput) vin => vin.prevOut = input.2.prevOut
      ∧ vin.contractAddr = input.2.contractAddr
      ∧ (input.2.contractAddr = [] → ∃ sign, vin.vinSign = some sign ∧ sign.pub ≠ []
        ∧ generateAddr sign.pub = input.1)) (owners.zip vins) vins' →
    owners.Nodup →
    utxoString generateAddr fromAddr vins' = some
      (if fromAddr ∈ owners ∧ ¬ PassedOver (signed fromAddr) fromAddr then hashText env fromAddr
        else [])
  | [], _, _, .nil, .nil, _ => by simp [utxoString]
  | addr :: owners, vin :: vins, vin' :: vins', .cons hvin hvins, .cons hsign hsigns, hnodup => by
    obtain ⟨hprev, hcontract, hpub⟩ := hsign
    rw [List.nodup_cons] at hnodup
    have ih := utxoString_spec hvins hsigns hnodup.2
    by_cases hown : vin.contractAddr = []
    · obtain ⟨sign, hsign, hne, haddr⟩ := hpub hown
      rw [utxoString, if_neg (by simp [hcontract, hown]), hsign, Option.elim_some, if_neg hne, haddr]
      by_cases hfrom : addr = fromAddr
      · -- the sender's own input: no other follows
        subst hfrom
        rw [if_neg (by simp), ih, if_neg fun h => hnodup.1 h.1,
          if_pos ⟨List.mem_cons_self, hvin.contractAddr_eq_nil.mp hown⟩, hprev, hvin.hashes]
        simp
      · rw [if_pos hfrom, ih]
        simp [List.mem_cons, Ne.symm hfrom]
    · have hpassed : PassedOver (signed addr) addr :=
        not_not.mp (mt hvin.contractAddr_eq_nil.mpr hown)
      rw [utxoString, if_pos (by rwa [hcontract]), ih]
      by_cases hfrom : addr = fromAddr
      · subst hfrom
        simp [hpassed]
      · simp [List.mem_cons, Ne.symm hfrom]

end Verified

/-- The sender's number and the one the verifier computes from the signed transaction agree, unless the
    sender's own input is passed over: then the verifier finds nothing and its number is 0. -/
theorem calculateBlockPrevRandao_agrees (env : ContractEnv) (generateAddr : Str → Str)
    (sender : Str → Option Str) (fromAddr toAddr : Str) (txType : TxType)
    (transfersMap : TransfersMap) (gasCost : Int64) (outTx : CTransaction) (contractTip : UInt64)
    (utxoHashs : List Str) (isGenSign : Bool) (built signed : CTransaction) (used : List Str)
    (hempty : outTx.utxo = .cleared) (hsender : sender outTx.data = some fromAddr)
    (hbuilt : fillingTransactions env fromAddr toAddr txType transfersMap gasCost outTx contractTip
      utxoHashs isGenSign = .ok (built, used))
    (hsigned : SignedByOwners generateAddr built signed) :
    let passedOver := PassedOver (isSigned env.toUtxoEnv transfersMap isGenSign fromAddr) fromAddr
    (¬ passedOver → calculateBlockPrevRandao env.toUtxoEnv fromAddr
        = .ok (calculateBlockPrevRandaoOfTx generateAddr sender signed))
      ∧ (passedOver → calculateBlockPrevRandaoOfTx generateAddr sender signed = 0) := by
  obtain ⟨hdata, howner, hvins⟩ := filled_isVinOf hempty hbuilt
  have hsigns := hsigned.vins
  rw [howner] at hsigns
  have htext : utxoString generateAddr fromAddr signed.utxo.vin = _ :=
    utxoString_spec hvins hsigns (payers_nodup _ _)
  have hmem := mem_payers transfersMap fromAddr
  have hnumber : calculateBlockPrevRandaoOfTx generateAddr sender signed = stringToNumber
      (if ¬ PassedOver (isSigned env.toUtxoEnv transfersMap isGenSign fromAddr) fromAddr
        then hashText env.toUtxoEnv fromAddr else []) := by
    rw [calculateBlockPrevRandaoOfTx, hsigned.data, hdata, hsender]
    simp only [htext, hmem, true_and, Option.elim_some]
  refine ⟨fun hown => ?_, fun hpassed => ?_⟩
  · obtain ⟨i, hi, hget⟩ := List.getElem_of_mem hmem
    have hlen := hvins.length_eq
    have hvin := (List.forall₂_iff_get.mp hvins).2 i hi (hlen ▸ hi)
    obtain ⟨found, hfound⟩ := hvin.found
    rw [List.get_eq_getElem, hget] at hfound
    rw [hnumber, if_pos hown, calculateBlockPrevRandao, hashText, hfound]
    rfl
  · rw [hnumber, if_neg (not_not.mpr hpassed)]
    rfl

/-- Every input signed with the text of its owner for a public key. -/
def signAll (built : CTransaction) : CTransaction :=
  { built with utxo := { built.utxo with
      vin := (built.utxo.owner.zip built.utxo.vin).map fun input =>
        { input.2 with vinSign := some ⟨[], input.1⟩ } } }

theorem signAll_signed {built : CTransaction} (h : ∀ owner ∈ built.utxo.owner, owner ≠ []) :
    SignedByOwners id built (signAll built) := by
  refine ⟨rfl, ?_⟩
  rw [signAll, List.forall₂_map_right_iff, List.forall₂_same]
  intro input hinput
  exact ⟨rfl, rfl, fun _ => ⟨_, rfl, h _ (List.of_mem_zip hinput).1, rfl⟩⟩

/-- The data of a call that `A` sends. -/
def sampleData : Str := str "\x7b\"TxInfo\":\x7b\"sender\":\"A\"\x7d\x7d"

/-- The sender they name. -/
def sampleSender (data : Str) : Option Str := if data = sampleData then some (str "A") else none

/-- The call of the sample purse, before its inputs are filled in. -/
def callOfA : CTransaction := { CTransaction.cleared with data := sampleData }

/-- `A` pays `B` and signs its input: both numbers are the sum of the characters of `h`. -/
theorem calculateBlockPrevRandao_agrees_payTen : ∃ built used,
    fillingTransactions purseEnv (str "A") (str "T") .callContract payTen 20 callOfA 7 [] true
        = .ok (built, used)
      ∧ calculateBlockPrevRandao purseEnv.toUtxoEnv (str "A")
        = .ok (calculateBlockPrevRandaoOfTx id sampleSender (signAll built)) := by
  obtain ⟨⟨built, used⟩, hrun, howner⟩ := ok_of_eval (f := fun r => r.1.utxo.owner)
    (b := [str "A"]) (m := fillingTransactions purseEnv (str "A") (str "T") .callContract payTen 20
      callOfA 7 [] true) (by decide)
  have hsigned : SignedByOwners id built (signAll built) := by
    refine signAll_signed fun owner hmem => ?_
    rw [howner, List.mem_singleton] at hmem
    rw [hmem]
    decide
  refine ⟨built, used, hrun, ?_⟩
  exact (calculateBlockPrevRandao_agrees purseEnv id sampleSender (str "A") (str "T") .callContract
    payTen 20 callOfA 7 [] true built (signAll built) used rfl (by decide) hrun hsigned).1
    (by decide)

/-- The sample purse, where `A` is recorded as a contract. -/
def contractPurseEnv : ContractEnv :=
  { purseEnv with
    db := ⟨fun key => if key = kContractAddr2LatestUtxo ++ str "A" then .found (str "u")
      else purseEnv.db.lookup key⟩ }

/-- A sender that pays and has a contract record gets an input no one signs: the verifier's number is
    0, the sender's is not. -/
theorem sender_with_contract_record : ∃ built used,
    fillingTransactions contractPurseEnv (str "A") (str "T") .callContract payTen 20 callOfA 7 []
        true = .ok (built, used)
      ∧ SignedByOwners id built (signAll built)
      ∧ calculateBlockPrevRandao contractPurseEnv.toUtxoEnv (str "A")
        ≠ .ok (calculateBlockPrevRandaoOfTx id sampleSender (signAll built)) := by
  obtain ⟨⟨built, used⟩, hrun, heval⟩ := ok_of_eval
    (f := fun r => (r.1.utxo.owner, calculateBlockPrevRandaoOfTx id sampleSender (signAll r.1)))
    (b := ([str "A"], 0)) (m := fillingTransactions contractPurseEnv (str "A") (str "T")
      .callContract payTen 20 callOfA 7 [] true) (by decide)
  obtain ⟨howner, hnumber⟩ := Prod.mk.inj heval
  have hfrom : (calculateBlockPrevRandao contractPurseEnv.toUtxoEnv (str "A")).toOption
      = some 104 := by decide
  refine ⟨built, used, hrun, signAll_signed fun owner hmem => ?_, fun heq => ?_⟩
  · rw [howner, List.mem_singleton] at hmem
    rw [hmem]
    decide
  · rw [heq, hnumber] at hfrom
    exact absurd hfrom (by decide)

end Tfs.Evm
