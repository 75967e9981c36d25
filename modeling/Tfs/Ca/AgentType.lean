import Tfs.Ca.Redeem
import Tfs.Db.Schema

/-! The agent type of a transaction (`TxHelper::CheckTxTimeOut`, `GetVrfAgentType`).

    The sender tests the time it has read before it looks for a packager; whoever gets the transaction
    tests the time that stands in it. The builder of ordinary transactions reads the clock again when a
    packager cannot be used, writes the new time into the transaction, and keeps the type it has decided
    upon. -/

namespace Tfs.Ca
open Tfs.Db

/-! ### The time-out test -/

/-- `DBReader::GetBlockHashesByBlockHeight` for a single height. -/
def getBlockHashesByBlockHeight (db : DBReader) (height : UInt64) : Except DBStatus (List Str) :=
  (db.readData (kBlockHeight2BlockHashKey ++ decimal height.toNat)).map fun value =>
    splitString value underline

/-- `DBReader::GetBlockByBlockHash`. -/
def getBlockByBlockHash (db : DBReader) (blockHash : Str) : Except DBStatus Str :=
  if blockHash = [] then .error .paramNull else db.readData (kBlockHash2BlcokRawKey ++ blockHash)

/-- What the test needs besides the store: the parser of blocks, and `TxTimeoutMin` in seconds. -/
structure TimeOutEnv where
  parseBlock : Str → Option CBlock
  txTimeoutMin : UInt64

/-- The loop over the hashes: every block must be read and parsed. -/
def readBlocks (tenv : TimeOutEnv) (db : DBReader) : List Str → Option (List CBlock)
  | [] => some []
  | hash :: rest =>
    match (getBlockByBlockHash db hash).toOption.bind tenv.parseBlock with
    | none => none
    | some block => (readBlocks tenv db rest).map (block :: ·)

/-- `TxHelper::CheckTxTimeOut`: whether the time is more than `timeout` seconds away from the youngest
    block of the height. What cannot be read is no time-out. -/
def checkTxTimeOut (tenv : TimeOutEnv) (db : DBReader) (txTime timeout preHeight : UInt64) : Bool :=
  if txTime ≤ 0 then false
  else match getBlockHashesByBlockHeight db preHeight with
    | .error _ => false
    | .ok blockHashes =>
      match readBlocks tenv db blockHashes with
      | none => false
      | some blocks =>
        match (blocks.insertionSort fun x y => x.time ≤ y.time).getLast? with
        -- a stored value names at least one hash
        | none => false
        | some resultBlock =>
          if resultBlock.time ≤ 0 then false
          else
            let resultTime := (txTime - resultBlock.time).toInt64.toInt.natAbs
            decide ((timeout * 1000000).toNat < resultTime)

/-- `TxHelper::GetVrfAgentType`. -/
def getVrfAgentType (tenv : TimeOutEnv) (db : DBReader) (tx : CTransaction) (preHeight : UInt64) :
    VrfAgentType :=
  if tx.txType = 7 ∨ tx.txType = 8 then .vrf
  else if checkTxTimeOut tenv db tx.time tenv.txTimeoutMin preHeight = false then
    if tx.identity ∈ tx.utxo.owner then .defalut else .vrf
  else if tx.identity ∈ tx.utxo.owner then .defalut else .local

/-- The builders' environment with the time-out test of this store. -/
def BuilderEnv.onStore (env : BuilderEnv) (tenv : TimeOutEnv) : BuilderEnv :=
  { env with checkTxTimeOut := fun time preHeight =>
      Ca.checkTxTimeOut tenv env.db time tenv.txTimeoutMin preHeight }

/-! ### The tries of the packager selection -/

/-- The answer to try number `k`, which is made with reading number `k` of the clock. -/
def packagerAnswer (env : TxEnv) (allUtxos : Str) (k : ℕ) : ℤ × Str :=
  env.getBlockPackager k (allUtxos ++ timeToString (env.getUTCTimestamp k))

/-- A selection that succeeds has tried until the first answer that is not `-6`, and gives the reading of
    the clock that this try was made with. -/
theorem tryPackagers_eq_ok {env : TxEnv} {allUtxos : Str} {chosen : UInt64 × Str} : ∀ (left k : ℕ),
    tryPackagers env allUtxos left k (env.getUTCTimestamp k) = .ok chosen →
    ∃ j, k ≤ j ∧ (∀ i, k ≤ i → i < j → (packagerAnswer env allUtxos i).1 = -6) ∧
      packagerAnswer env allUtxos j = (0, chosen.2) ∧ chosen.1 = env.getUTCTimestamp j
  | 0, _, h => by cases h
  | left + 1, k, h => by
    rw [tryPackagers] at h
    split at h
    · rename_i hagain
      obtain ⟨j, hj, hbefore, hanswer, htime⟩ := tryPackagers_eq_ok left (k + 1) h
      refine ⟨j, by omega, fun i hi hij => ?_, hanswer, htime⟩
      rcases hi.eq_or_lt with rfl | hi
      · exact hagain
      · exact hbefore i hi hij
    · split at h
      · cases h
      · rename_i hzero
        split at h
        · cases h
        · obtain rfl := Except.ok.inj h
          refine ⟨k, le_rfl, fun i hi hik => absurd hik (by omega), ?_, rfl⟩
          exact Prod.ext (not_not.mp hzero) rfl

/-! ### Sender and verifier -/

/-- The call is one for an ordinary transaction, whose first reading of the clock is in time, while the
    reading of the try that gets a packager is not. -/
def RefreshedTooLate (env : BuilderEnv) (tenv : TimeOutEnv) (height : UInt64) (isFindUtxo : Bool) :
    BuilderArgs → Prop
  | .tx fromAddr _ => ∃ found k, findUtxo env.toUtxoEnv fromAddr kMaxVinSize isFindUtxo = .ok found ∧
      (∀ i < k, (packagerAnswer env.toTxEnv (found.2.map Utxo.hash).flatten i).1 = -6) ∧
      (packagerAnswer env.toTxEnv (found.2.map Utxo.hash).flatten k).1 = 0 ∧
      checkTxTimeOut tenv env.db (env.getUTCTimestamp 0) tenv.txTimeoutMin (height - 1) = false ∧
      checkTxTimeOut tenv env.db (env.getUTCTimestamp k) tenv.txTimeoutMin (height - 1) = true
  | _ => False

/-- For a transaction without a contract the verifier finds the type to be vrf exactly when its time is in
    time and no owner is its packager. -/
theorem getVrfAgentType_eq_vrf {tenv : TimeOutEnv} {db : DBReader} {tx : CTransaction} {preHeight : UInt64}
    (hkind : tx.txType ≠ 7 ∧ tx.txType ≠ 8) :
    getVrfAgentType tenv db tx preHeight = .vrf ↔
      checkTxTimeOut tenv db tx.time tenv.txTimeoutMin preHeight = false ∧ tx.identity ∉ tx.utxo.owner := by
  rw [getVrfAgentType, if_neg (not_or.mpr hkind)]
  split
  · rename_i hintime
    by_cases hown : tx.identity ∈ tx.utxo.owner <;> simp [hintime, hown]
  · rename_i hlate
    by_cases hown : tx.identity ∈ tx.utxo.owner <;> simp [hlate, hown]

@[simp] theorem onStore_checkTxTimeOut (env : BuilderEnv) (tenv : TimeOutEnv) (time preHeight : UInt64) :
    (env.onStore tenv).checkTxTimeOut time preHeight =
      checkTxTimeOut tenv env.db time tenv.txTimeoutMin preHeight := rfl

@[simp] theorem stampTx_txType (env : TxEnv) (tx : CTransaction) (time : UInt64) (txType : UInt32)
    (identity : Str) : (stampTx env tx time txType identity).txType = txType := rfl

@[simp] theorem stampTx_time (env : TxEnv) (tx : CTransaction) (time : UInt64) (txType : UInt32)
    (identity : Str) : (stampTx env tx time txType identity).time = time := rfl

@[simp] theorem stampTx_identity (env : TxEnv) (tx : CTransaction) (time : UInt64) (txType : UInt32)
    (identity : Str) : (stampTx env tx time txType identity).identity = identity := rfl

/-- The sender decides for vrf exactly when its time is in time. -/
theorem getTxStartIdentity_eq_vrf {env : BuilderEnv} {tenv : TimeOutEnv} {height time : UInt64} :
    getTxStartIdentity (env.onStore tenv).toTxEnv height time = .vrf ↔
      checkTxTimeOut tenv env.db time tenv.txTimeoutMin (height - 1) = false := by
  rw [getTxStartIdentity]
  split
  · rename_i hlate
    simpa using hlate
  · rename_i hintime
    simpa using hintime

section Agreement
variable {env : BuilderEnv} {tenv : TimeOutEnv} {encodedInfo : Str} {height : UInt64} {isFindUtxo : Bool}
  {r : CTransaction × VrfAgentType}

/-- Where the type was decided upon with the time that stands in the transaction, the verifier finds
    what the sender found. -/
theorem agrees_of_sameTime (hkind : r.1.txType ≠ 7 ∧ r.1.txType ≠ 8)
    (htype : r.2 = getTxStartIdentity (env.onStore tenv).toTxEnv height r.1.time)
    (hid : r.2 = .vrf → r.1.identity ∉ r.1.utxo.owner) :
    getVrfAgentType tenv env.db r.1 (height - 1) = .vrf ↔ r.2 = .vrf := by
  rw [getVrfAgentType_eq_vrf hkind, ← getTxStartIdentity_eq_vrf, ← htype]
  exact ⟨fun h => h.1, fun h => ⟨h, hid h⟩⟩

/-- The packagers that are named are none of the owners. -/
def PackagersOutside (env : TxEnv) (owners : List Str) : Prop :=
  ∀ k raw, (env.getBlockPackager k raw).1 = 0 → (env.getBlockPackager k raw).2 ∉ owners

/-- An identity that the packager selection has given is none of the owners. -/
theorem answer_notMem {env : TxEnv} {owners : List Str} (hout : PackagersOutside env owners) {k : ℕ}
    {raw identity : Str} (h : (if (env.getBlockPackager k raw).1 ≠ 0 then
      Except.error (Exit.ret (env.getBlockPackager k raw).1) else .ok (env.getBlockPackager k raw).2)
        = .ok identity) :
    identity ∉ owners := by
  split at h
  · cases h
  · rename_i hzero
    obtain rfl := Except.ok.inj h
    exact hout k raw (not_not.mp hzero)

/-- What is asked of the clock is asked of the try that was answered: no other try is the first one that
    is not answered with `-6`. -/
theorem refreshedTooLate_tx {fromAddr : List Str} {toAddr : Recipients}
    {found : UInt64 × List Utxo} {j : ℕ}
    (hfound : findUtxo env.toUtxoEnv fromAddr kMaxVinSize isFindUtxo = .ok found)
    (hbefore : ∀ i < j, (packagerAnswer env.toTxEnv (found.2.map Utxo.hash).flatten i).1 = -6)
    (hzero : (packagerAnswer env.toTxEnv (found.2.map Utxo.hash).flatten j).1 = 0) :
    RefreshedTooLate env tenv height isFindUtxo (.tx fromAddr toAddr) ↔
      checkTxTimeOut tenv env.db (env.getUTCTimestamp 0) tenv.txTimeoutMin (height - 1) = false ∧
      checkTxTimeOut tenv env.db (env.getUTCTimestamp j) tenv.txTimeoutMin (height - 1) = true := by
  constructor
  · rintro ⟨found', k, hfound', hbefore', hzero', hintime, hlate⟩
    obtain rfl := Except.ok.inj (hfound.symm.trans hfound')
    rcases lt_trichotomy k j with hlt | rfl | hlt
    · cases hzero'.symm.trans (hbefore k hlt)
    · exact ⟨hintime, hlate⟩
    · cases hzero.symm.trans (hbefore' j hlt)
  · rintro ⟨hintime, hlate⟩
    exact ⟨found, j, hfound, hbefore, hzero, hintime, hlate⟩

/-- An ordinary transaction: the type is the one of the first reading, the time is that of the try that
    was answered. -/
theorem tx_agrees_iff {fromAddr : List Str} {toAddr : Recipients} {pending : StdMap Str DoubleSpendsuc}
    {r : CTransaction × VrfAgentType × StdMap Str DoubleSpendsuc}
    (h : createTxTransaction (env.onStore tenv).toTxEnv fromAddr toAddr encodedInfo height isFindUtxo pending
      = .ok r) (hout : PackagersOutside env.toTxEnv r.1.utxo.owner) :
    (getVrfAgentType tenv env.db r.1 (height - 1) = .vrf ↔ r.2.1 = .vrf) ↔
      ¬ RefreshedTooLate env tenv height isFindUtxo (.tx fromAddr toAddr) := by
  obtain ⟨found, draft, gas, tx, signed, chosen, hfound, -, -, -, -, hchosen, htype, hr, -⟩ :=
    createTxTransaction_inv h
  have hkind : r.1.txType ≠ 7 ∧ r.1.txType ≠ 8 := by simp [hr]
  have htype' : r.2.1 = .vrf ↔
      checkTxTimeOut tenv env.db (env.getUTCTimestamp 0) tenv.txTimeoutMin (height - 1) = false := by
    rw [htype]
    exact getTxStartIdentity_eq_vrf
  rw [getVrfAgentType_eq_vrf hkind]
  by_cases hvrf : r.2.1 = .vrf
  · rw [hvrf, chooseTxIdentity, if_neg (by decide)] at hchosen
    obtain ⟨j, -, hbefore, hanswer, htime⟩ := tryPackagers_eq_ok 6 0 hchosen
    have hid : r.1.identity ∉ r.1.utxo.owner := by
      have hid := hout j _ (congrArg Prod.fst hanswer)
      have heq := congrArg Prod.snd hanswer
      rw [hr, stampTx_identity, ← heq]
      rw [hr] at hid
      exact hid
    have htime' : r.1.time = env.getUTCTimestamp j := by rw [hr, stampTx_time, htime]; rfl
    have hrefreshed : RefreshedTooLate env tenv height isFindUtxo (.tx fromAddr toAddr) ↔ _ :=
      refreshedTooLate_tx hfound (fun i hi => hbefore i (Nat.zero_le i) hi) (congrArg Prod.fst hanswer)
    rw [htime', and_iff_left hid, iff_true_right hvrf, hrefreshed, and_iff_right (htype'.mp hvrf),
      Bool.not_eq_true]
  · -- the default way keeps the first reading, which is too late on both sides
    have hlate := mt htype'.mpr hvrf
    have hdefalut : r.2.1 = .defalut := by
      rw [htype, getTxStartIdentity] at hvrf ⊢
      split at hvrf
      · rename_i h
        rw [if_pos h]
      · exact absurd rfl hvrf
    rw [hdefalut, chooseTxIdentity, if_pos (.inl rfl)] at hchosen
    have htime' : r.1.time = env.getUTCTimestamp 0 := by
      rw [hr, stampTx_time, ← Except.ok.inj hchosen]
      rfl
    rw [htime']
    refine iff_of_true ⟨fun h => absurd h.1 hlate, fun h => absurd h hvrf⟩ ?_
    rintro ⟨found', k, -, -, -, hintime, -⟩
    exact hlate hintime

end Agreement

/-- Sender and verifier agree on whether a transaction is packed by a drawn node, unless the builder of an
    ordinary transaction has read the clock again and has come out of the time window with it. -/
theorem agentType_agrees_iff (env : BuilderEnv) (tenv : TimeOutEnv) (args : BuilderArgs) (encodedInfo : Str)
    (height : UInt64) (isFindUtxo : Bool) (pending : StdMap Str DoubleSpendsuc)
    (r : CTransaction × VrfAgentType)
    (h : args.create (env.onStore tenv) encodedInfo height isFindUtxo pending = .ok r)
    (hout : PackagersOutside env.toTxEnv r.1.utxo.owner) :
    (getVrfAgentType tenv env.db r.1 (height - 1) = .vrf ↔ r.2 = .vrf) ↔
      ¬ RefreshedTooLate env tenv height isFindUtxo args := by
  cases args with
  | tx fromAddr toAddr =>
    obtain ⟨r, hr, rfl⟩ := map_eq_ok.mp h
    exact tx_agrees_iff hr hout
  | stake fromAddr stakeAmount pledgeType commissionRate =>
    obtain ⟨found, draft, gas, tx, signed, identity, -, -, -, -, -, hidentity, htype, hr⟩ :=
      createStakeTransaction_inv h
    refine iff_of_true (agrees_of_sameTime (by simp [hr]) (by rw [htype, hr]; rfl) fun hvrf => ?_) id
    rw [hvrf, chooseIdentity, if_neg (by decide)] at hidentity
    have hnot := answer_notMem hout hidentity
    rwa [hr] at hnot ⊢
  | invest fromAddr toAddr investAmount investType =>
    obtain ⟨found, draft, gas, tx, signed, identity, -, -, -, -, -, hidentity, htype, hr⟩ :=
      createInvestTransaction_inv h
    refine iff_of_true (agrees_of_sameTime (by simp [hr]) (by rw [htype, hr]; rfl) fun hvrf => ?_) id
    rw [hvrf, chooseIdentity, if_neg (by decide)] at hidentity
    have hnot := answer_notMem hout hidentity
    rwa [hr] at hnot ⊢
  | unstake fromAddr utxoHash =>
    obtain ⟨found, held, txUtxo, gas, tx, signed, identity, -, -, -, -, -, -, hidentity, htype, hr⟩ :=
      creatUnstakeTransaction_inv h
    refine iff_of_true (agrees_of_sameTime (by simp [hr]) (by rw [htype, hr]; rfl) fun hvrf => ?_) id
    rw [hvrf, chooseRedeemIdentity, if_neg (by decide)] at hidentity
    have hnot := answer_notMem hout hidentity
    rwa [hr] at hnot ⊢
  | disinvest fromAddr toAddr utxoHash =>
    obtain ⟨found, held, txUtxo, gas, tx, signed, identity, -, -, -, -, -, -, hidentity, htype, hr⟩ :=
      createDisinvestTransaction_inv h
    refine iff_of_true (agrees_of_sameTime (by simp [hr]) (by rw [htype, hr]; rfl) fun hvrf => ?_) id
    rw [hvrf, chooseRedeemIdentity, if_neg (by decide)] at hidentity
    have hnot := answer_notMem hout hidentity
    rwa [hr] at hnot ⊢
  | bonus addr =>
    obtain ⟨found, txUtxo, rate, gas, tx, signed, identity, -, -, -, -, -, hsign, hidentity, htype, hr⟩ :=
      createBonusTransaction_inv h
    obtain ⟨signs, rfl⟩ := addMutilSigns_eq _ hsign
    refine iff_of_true (agrees_of_sameTime (by simp [hr]) (by rw [htype, hr]) fun hvrf => ?_) id
    rw [hvrf, chooseBonusIdentity, if_neg (by decide)] at hidentity
    have hnot := answer_notMem hout hidentity
    rwa [hr] at hnot ⊢

theorem sampleDividends_sorted : ([(str "I", (100 : UInt64))].map Prod.fst).Pairwise (· < ·) := by simp

/-- The node of `builderEnv` above a block of time 1000000 with the hash `b`. The clock shows the last
    time that is within thirty seconds, and one microsecond more at the second reading; the packager `P`
    can be used at the try with number `usable`. -/
def lateEnv (usable : ℕ) : BuilderEnv where
  toTxEnv := { builderEnv with
    db := ⟨fun key =>
      if key = str "blkht2blkhs_7" then .found (str "b")
      else if key = str "blkhs2blkraw_b" then .found (str "raw")
      else builderEnv.db.lookup key⟩
    getUTCTimestamp := fun k => if k = 0 then 31000000 else 31000001
    getBlockPackager := fun k _ => if k = usable then (0, str "P") else (-6, []) }
  isQualifiedToUnstake := fun _ _ => (0, 2000)
  isQualifiedToDisinvest := fun _ _ _ => (0, 3000)
  checkBonusQualification := fun _ _ => 0
  calcBonusValue := fun _ _ => (0, ⟨[(str "I", 100)], sampleDividends_sorted⟩)
  getCommissionPercentage := fun _ => .ok 0x3FA999999999999A
  costoOf := fun amount _ => (amount * 5 + 50) / 100
  dumpRedeem := fun _ => []
  getDefaultAddr := str "N"

/-- Thirty seconds; the only block has the time 1000000. -/
def sampleTimeOut : TimeOutEnv where
  parseBlock raw := if raw = str "raw" then some ⟨1000000, str "b", [], 7, [], []⟩ else none
  txTimeoutMin := 30

/-- What `A` sends to `B` has one owner, `A`, and the packagers of the sample are others. -/
theorem lateEnv_packagersOutside (usable : ℕ) : PackagersOutside (lateEnv usable).toTxEnv [str "A"] := by
  intro k raw hzero
  by_cases hk : k = usable
  · simp only [lateEnv, hk, if_true]
    decide
  · simp [lateEnv, hk] at hzero

/-- With a packager at the first try both sides find vrf, by the theorem. -/
theorem agentType_agrees_sample : ∃ r,
    (BuilderArgs.tx [str "A"] toB).create ((lateEnv 0).onStore sampleTimeOut) [] 8 false .empty = .ok r ∧
      r.2 = .vrf ∧ getVrfAgentType sampleTimeOut (lateEnv 0).db r.1 7 = .vrf := by
  obtain ⟨r, hr, hval⟩ := ok_of_eval (f := fun r => (r.1.utxo.owner, r.2)) (b := ([str "A"], .vrf))
    (m := (BuilderArgs.tx [str "A"] toB).create ((lateEnv 0).onStore sampleTimeOut) [] 8 false .empty)
    (by decide)
  obtain ⟨howner, htype⟩ := Prod.ext_iff.mp hval
  refine ⟨r, hr, htype, ?_⟩
  have hout : PackagersOutside (lateEnv 0).toTxEnv r.1.utxo.owner := by
    rw [show r.1.utxo.owner = [str "A"] from howner]
    exact lateEnv_packagersOutside 0
  refine ((agentType_agrees_iff (lateEnv 0) sampleTimeOut _ [] 8 false .empty r hr hout).mpr ?_).mpr htype
  rintro ⟨found, k, -, hagain, -, hintime, hlate⟩
  have hk : k = 0 := by
    by_contra hk
    cases hagain 0 (Nat.pos_of_ne_zero hk)
  rw [hk, hintime] at hlate
  cases hlate

/-- The first packager cannot be used, and the second reading of the clock is out of time: the sender has
    decided for vrf, the verifier finds the transaction to be a local one. -/
theorem agentType_differs_refreshed : ∃ r,
    (BuilderArgs.tx [str "A"] toB).create ((lateEnv 1).onStore sampleTimeOut) [] 8 false .empty = .ok r ∧
      PackagersOutside (lateEnv 1).toTxEnv r.1.utxo.owner ∧
      ¬ (getVrfAgentType sampleTimeOut (lateEnv 1).db r.1 7 = .vrf ↔ r.2 = .vrf) := by
  obtain ⟨r, hr, hval⟩ := ok_of_eval
    (f := fun r => (r.1.utxo.owner, r.2, getVrfAgentType sampleTimeOut (lateEnv 1).db r.1 7))
    (b := ([str "A"], .vrf, .local))
    (m := (BuilderArgs.tx [str "A"] toB).create ((lateEnv 1).onStore sampleTimeOut) [] 8 false .empty)
    (by decide)
  simp only [Prod.mk.injEq] at hval
  obtain ⟨howner, htype, hfound⟩ := hval
  refine ⟨r, hr, ?_, ?_⟩
  · rw [howner]
    exact lateEnv_packagersOutside 1
  · rw [htype, hfound]
    decide

end Tfs.Ca
