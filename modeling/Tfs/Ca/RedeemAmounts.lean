import Tfs.Ca.Redeem

/-! What the builders that pay back put into their outputs.

    The amounts are computed in unsigned 64-bit words and stored in signed fields. Read back as
    words they add up to what is spent and what is redeemed; read as they are stored they do where
    no word reaches `2 ^ 63`. -/

namespace Tfs.Ca
open Tfs.Db

/-! ### Words in signed fields -/

/-- The values of outputs, read back as the words they were written as. -/
def voutWords (vouts : List CTxOutput) : List ℕ := vouts.map fun o => o.value.toUInt64.toNat

/-- The values of outputs as they are stored. -/
def voutValues (vouts : List CTxOutput) : List ℤ := vouts.map fun o => o.value.toInt

theorem voutValue_eq (o : CTxOutput) : o.value.toInt =
    if o.value.toUInt64.toNat < 2 ^ 63 then (o.value.toUInt64.toNat : ℤ)
      else o.value.toUInt64.toNat - 2 ^ 64 :=
  Word.toInt64_toInt o.value.toUInt64

/-- No stored value is above its word. -/
theorem sum_voutValues_le (vouts : List CTxOutput) :
    (voutValues vouts).sum ≤ ((voutWords vouts).sum : ℤ) := by
  induction vouts with
  | nil => simp [voutValues, voutWords]
  | cons o vouts ih =>
    have ho := voutValue_eq o
    simp only [voutValues, voutWords, List.map_cons, List.sum_cons, Nat.cast_add] at ih ⊢
    split_ifs at ho <;> omega

/-- The stored values add up as the words do where no word reaches `2 ^ 63`, and only there. -/
theorem sum_voutValues_eq_iff (vouts : List CTxOutput) :
    (voutValues vouts).sum = ((voutWords vouts).sum : ℤ) ↔ ∀ w ∈ voutWords vouts, w < 2 ^ 63 := by
  induction vouts with
  | nil => simp [voutValues, voutWords]
  | cons o vouts ih =>
    have ho := voutValue_eq o
    have hle := sum_voutValues_le vouts
    simp only [voutValues, voutWords, List.map_cons, List.sum_cons, Nat.cast_add,
      List.forall_mem_cons] at ih hle ⊢
    rw [← ih]
    split_ifs at ho <;> omega

/-- What the outputs carry: the payments, then the change with what is kept, then the gas. -/
structure Redeems (selected redeemed : ℕ) (payments : List ℕ) (kept gas : ℕ) (vouts : List CTxOutput) :
    Prop where
  covered : gas ≤ selected
  words : voutWords vouts = payments ++ [selected - gas + kept, gas]
  sum : (voutWords vouts).sum = selected + redeemed
  stored : (voutValues vouts).sum = (selected + redeemed : ℤ) ↔ ∀ w ∈ voutWords vouts, w < 2 ^ 63

theorem Redeems.mk' {selected redeemed kept gas : ℕ} {payments : List ℕ} {vouts : List CTxOutput}
    (covered : gas ≤ selected)
    (words : voutWords vouts = payments ++ [selected - gas + kept, gas])
    (shared : payments.sum + kept = redeemed) :
    Redeems selected redeemed payments kept gas vouts := by
  have sum : (voutWords vouts).sum = selected + redeemed := by
    rw [words, List.sum_append, List.sum_cons, List.sum_singleton]
    omega
  refine ⟨covered, words, sum, ?_⟩
  rw [← sum_voutValues_eq_iff, sum, Nat.cast_add]

/-! ### The builders of one payment -/

/-- The value of the inputs that follow the held output. -/
def selectedValue (db : DBReader) (utxo : CTxUtxo) : ℕ := inputValue db utxo.owner.tail utxo.vin.tail

theorem signRedeemVin_eq {env : TxEnv} {code : ℤ} {fromAddr utxoHash : Str} {held : CTxUtxo}
    (h : signRedeemVin env code fromAddr utxoHash = .ok held) :
    ∃ vin, held = { CTxUtxo.cleared with owner := [fromAddr], vin := [vin] } := by
  simp only [signRedeemVin] at h
  split at h
  · cases h
  · exact ⟨_, (Except.ok.inj h).symm⟩

/-- The common end of the two builders. -/
theorem redeem_one {env : TxEnv} {code code' code'' code''' : ℤ} {fromAddr utxoHash : Str} {isFindUtxo : Bool}
    {found : UInt64 × List Utxo} {held txUtxo : CTxUtxo} {draft tx signed : CTransaction}
    {amount gas : UInt64}
    {owners : List Str}
    (hfound : findUtxo env.toUtxoEnv [fromAddr] (kMaxVinSize - 1) isFindUtxo = .ok found)
    (hheld : signRedeemVin env code fromAddr utxoHash = .ok held)
    (hvins : signVins env code' (fun _ => 1) found.2 (txOwners found.2) 1 held = .ok txUtxo)
    (hdraft : draft.utxo = txUtxo)
    (hfill : fillVouts env code'' draft [(fromAddr, amount.toInt64)] fromAddr found.1 0 gas = .ok tx)
    (hsign : addMutilSigns env code''' owners tx = .ok signed)
    (hsmall : selectedValue env.db signed.utxo + amount.toNat < 2 ^ 64) :
    Redeems (selectedValue env.db signed.utxo) amount.toNat [amount.toNat] 0 gas.toNat signed.utxo.vout := by
  obtain ⟨htotal, hsel⟩ := findUtxo_spec hfound
  obtain ⟨vin, rfl⟩ := signRedeemVin_eq hheld
  obtain ⟨vins, hprev, htx⟩ := signVins_eq (txOwners found.2) hvins
  obtain ⟨hge, hvout⟩ := fillVouts_spec hfill
  obtain ⟨signs, rfl⟩ := addMutilSigns_eq owners hsign
  rw [hdraft, htx] at hvout
  have hselected : selectedValue env.db tx.utxo = utxosValue found.2 := by
    rw [selectedValue, hvout]
    exact inputValue_of_selection (fun u hu => (hsel u hu).2) hprev
  have hselected' : selectedValue env.db { tx.utxo with multiSign := signs } = utxosValue found.2 := hselected
  rw [hselected'] at hsmall ⊢
  rw [Nat.mod_eq_of_lt (by omega)] at htotal
  rw [UInt64.zero_add, UInt64.le_iff_toNat_le, htotal] at hge
  have hchange : (found.1 - gas).toNat = utxosValue found.2 - gas.toNat := by
    rw [UInt64.toNat_sub_of_le _ _ (by rw [UInt64.le_iff_toNat_le, htotal]; exact hge), htotal]
  refine .mk' hge ?_ (Nat.add_zero _)
  rw [hvout, ← hchange, UInt64.zero_add]
  rfl

theorem creatUnstakeTransaction_redeems {env : BuilderEnv} {fromAddr utxoHash encodedInfo : Str}
    {height : UInt64}
    {isFindUtxo : Bool} {r : CTransaction × VrfAgentType}
    (h : creatUnstakeTransaction env fromAddr utxoHash encodedInfo height isFindUtxo = .ok r)
    {stakeAmount : UInt64}
    (hstake : stakeAmount = (env.isQualifiedToUnstake fromAddr utxoHash).2)
    (hsmall : selectedValue env.db r.1.utxo + stakeAmount.toNat < 2 ^ 64) :
    ∃ gas, Redeems (selectedValue env.db r.1.utxo) stakeAmount.toNat [stakeAmount.toNat] 0 gas r.1.utxo.vout := by
  obtain ⟨found, held, txUtxo, gas, tx, signed, identity, hfound, hheld, hvins, -, hfill, hsign, -, -, hr⟩ :=
    creatUnstakeTransaction_inv h
  subst hstake
  rw [hr] at hsmall ⊢
  have hone := redeem_one hfound hheld hvins rfl hfill hsign
  exact ⟨gas.toNat, hone hsmall⟩

theorem createDisinvestTransaction_redeems {env : BuilderEnv} {fromAddr toAddr utxoHash encodedInfo : Str}
    {height : UInt64} {isFindUtxo : Bool} {r : CTransaction × VrfAgentType}
    (h : createDisinvestTransaction env fromAddr toAddr utxoHash encodedInfo height isFindUtxo = .ok r)
    {investedAmount : UInt64}
    (hinvested : investedAmount = (env.isQualifiedToDisinvest fromAddr toAddr utxoHash).2)
    (hsmall : selectedValue env.db r.1.utxo + investedAmount.toNat < 2 ^ 64) :
    ∃ gas, Redeems (selectedValue env.db r.1.utxo) investedAmount.toNat [investedAmount.toNat] 0 gas r.1.utxo.vout := by
  obtain ⟨found, held, txUtxo, gas, tx, signed, identity, hfound, hheld, hvins, -, hfill, hsign, -, -, hr⟩ :=
    createDisinvestTransaction_inv h
  subst hinvested
  rw [hr] at hsmall ⊢
  have hone := redeem_one hfound hheld hvins rfl hfill hsign
  exact ⟨gas.toNat, hone hsmall⟩

/-! ### The bonus -/

/-- The commission is computed as with an exact rate. -/
structure ExactRate (env : BuilderEnv) (rate : UInt64) (r : ℚ) : Prop where
  nonneg : 0 ≤ r
  le_one : r ≤ 1
  costoOf_eq : ∀ amount : UInt64, ((env.costoOf amount rate).toNat : ℤ) = ⌊(amount.toNat : ℚ) * r + 1 / 2⌋

/-- What is rounded does not exceed what it is taken from. -/
theorem ExactRate.costoOf_le {env : BuilderEnv} {rate : UInt64} {r : ℚ} (h : ExactRate env rate r)
    (amount : UInt64) :
    env.costoOf amount rate ≤ amount := by
  have hmul : (amount.toNat : ℚ) * r ≤ amount.toNat := mul_le_of_le_one_right (Nat.cast_nonneg _) h.le_one
  have hlt : ⌊(amount.toNat : ℚ) * r + 1 / 2⌋ < (amount.toNat : ℤ) + 1 := by
    rw [Int.floor_lt]
    push_cast
    linarith
  rw [← h.costoOf_eq] at hlt
  rw [UInt64.le_iff_toNat_le]
  omega

/-- The sum of the dividends. -/
def Dividends.total (dividends : Dividends) : ℕ := (dividends.entries.map fun company => company.2.toNat).sum

/-- The shares of a loop over dividends, without the wrapping. -/
theorem foldl_add_shares (costoOf : UInt64 → UInt64) (entries : List (Str × UInt64)) : ∀ shares : BonusShares,
    entries.foldl (BonusShares.add costoOf) shares =
      ⟨shares.awards ++ entries.map fun company => (company.1, company.2 - costoOf company.2),
        (entries.map fun company => costoOf company.2).foldl (· + ·) shares.nodeDividend,
        (entries.map fun company => company.2 - costoOf company.2).foldl (· + ·) shares.totalClaim⟩ := by
  induction entries with
  | nil => simp
  | cons company entries ih =>
    intro shares
    rw [List.foldl_cons, ih]
    simp [BonusShares.add]

/-- Each dividend is the award and the commission, so their sums add up to that of the dividends. -/
theorem sum_shares (costoOf : UInt64 → UInt64) (hle : ∀ amount, costoOf amount ≤ amount)
    (entries : List (Str × UInt64)) :
    (entries.map fun company => (company.2 - costoOf company.2).toNat).sum
      + (entries.map fun company => (costoOf company.2).toNat).sum =
        (entries.map fun company => company.2.toNat).sum := by
  induction entries with
  | nil => rfl
  | cons company entries ih =>
    have hsplit := UInt64.toNat_sub_of_le _ _ (hle company.2)
    have hcosto := UInt64.le_iff_toNat_le.mp (hle company.2)
    simp only [List.map_cons, List.sum_cons]
    omega

/-- The words of the shares, where the dividends fit a word. -/
theorem bonusShares_spec {env : BuilderEnv} {rate : UInt64} {r : ℚ} (h : ExactRate env rate r)
    {dividends : Dividends}
    (hsmall : dividends.total < 2 ^ 64) :
    let shares := bonusShares env dividends rate
    shares.awards = dividends.entries.map (fun company =>
      (company.1, company.2 - env.costoOf company.2 rate)) ∧
      (shares.awards.map fun pay => pay.2.toNat).sum + shares.nodeDividend.toNat = dividends.total ∧
      (shares.totalClaim + shares.nodeDividend).toNat = dividends.total := by
  have hsum := sum_shares (fun amount => env.costoOf amount rate) h.costoOf_le dividends.entries
  change _ = dividends.total at hsum
  have hfold : ∀ f : Str × UInt64 → UInt64, ((dividends.entries.map f).foldl (· + ·) 0).toNat
      = (dividends.entries.map fun company => (f company).toNat).sum % 2 ^ 64 := by
    intro f
    rw [Word.foldl_add_toNat, List.map_map, UInt64.toNat_zero, Nat.zero_add]
    rfl
  rw [bonusShares, foldl_add_shares]
  refine ⟨List.nil_append _, ?_, ?_⟩
  · dsimp only
    rw [hfold, List.nil_append, List.map_map, Nat.mod_eq_of_lt (by omega)]
    exact hsum
  · dsimp only
    rw [UInt64.toNat_add, hfold, hfold]
    omega

theorem fillBonusVouts_spec {env : TxEnv} {code : ℤ} {draft tx : CTransaction} {shares : BonusShares}
    {addr : Str}
    {total gas : UInt64} (h : fillBonusVouts env code draft shares addr total gas = .ok tx) :
    gas ≤ total ∧ tx = { draft with utxo := { draft.utxo with
      vout := draft.utxo.vout ++ (shares.awards.map fun pay => ⟨pay.1, pay.2.toInt64⟩)
        ++ [⟨addr, (total - gas + shares.nodeDividend).toInt64⟩]
        ++ [⟨env.kVirtualBurnGasAddr, gas.toInt64⟩] } } := by
  obtain ⟨_, hge, h⟩ := bind_eq_ok.mp h
  obtain rfl := Except.ok.inj h
  refine ⟨UInt64.not_lt.mp (of_decide_eq_false (Exit.when_eq_ok.mp hge)), ?_⟩
  have hfold := foldl_addVout (shares.awards.map fun pay => (pay.1, pay.2.toInt64)) draft.utxo
  rw [List.foldl_map, List.map_map] at hfold
  dsimp only
  rw [hfold]
  rfl

theorem createBonusTransaction_redeems {env : BuilderEnv} {addr encodedInfo : Str} {height : UInt64}
    {isFindUtxo : Bool}
    {r : CTransaction × VrfAgentType} (h : createBonusTransaction env addr encodedInfo height isFindUtxo = .ok r)
    {dividends : Dividends} (hdividends : dividends = (env.calcBonusValue (env.getUTCTimestamp 0) addr).2)
    (hrate : ∀ rate, env.getCommissionPercentage addr = .ok rate → ∃ q, ExactRate env rate q)
    (hsmall : inputValue env.db r.1.utxo.owner r.1.utxo.vin + dividends.total < 2 ^ 64) :
    ∃ (rate bonusAmount : UInt64) (bonusAddrList kept gas : ℕ), env.getCommissionPercentage addr = .ok rate ∧
      (∀ company ∈ dividends.entries, env.costoOf company.2 rate ≤ company.2) ∧
      r.1.data = env.dumpRedeem (.bonus bonusAmount bonusAddrList) ∧ bonusAmount.toNat = dividends.total ∧
      Redeems (inputValue env.db r.1.utxo.owner r.1.utxo.vin) dividends.total
        (dividends.entries.map fun company => company.2.toNat - (env.costoOf company.2 rate).toNat) kept gas
        r.1.utxo.vout := by
  obtain ⟨found, txUtxo, rate, gas, tx, signed, identity, hfound, hvins, hrates, -, hfill, hsign, -, -, hr⟩ :=
    createBonusTransaction_inv h
  obtain ⟨q, hexact⟩ := hrate rate hrates
  rw [← hdividends] at hfill
  obtain ⟨htotal, hsel⟩ := findUtxo_spec hfound
  obtain ⟨vins, hprev, rfl⟩ := signVins_eq (txOwners found.2) hvins
  obtain ⟨hge, rfl⟩ := fillBonusVouts_spec hfill
  obtain ⟨signs, rfl⟩ := addMutilSigns_eq (txOwners found.2) hsign
  have hselected : inputValue env.db r.1.utxo.owner r.1.utxo.vin = utxosValue found.2 := by
    rw [hr]
    exact inputValue_of_selection (fun u hu => (hsel u hu).2) hprev
  rw [hselected] at hsmall ⊢
  obtain ⟨hawards, hshared, hclaim⟩ := bonusShares_spec hexact (show dividends.total < 2 ^ 64 by omega)
  rw [Nat.mod_eq_of_lt (by omega)] at htotal
  have hle := UInt64.le_iff_toNat_le.mp hge
  rw [htotal] at hle
  refine ⟨rate, _, _, (bonusShares env dividends rate).nodeDividend.toNat, gas.toNat, hrates,
    fun company _ => hexact.costoOf_le company.2, by rw [hr]; rfl, hclaim, ?_⟩
  have hpayments : (dividends.entries.map fun company => company.2.toNat - (env.costoOf company.2 rate).toNat)
      = (bonusShares env dividends rate).awards.map fun pay => pay.2.toNat := by
    rw [hawards, List.map_map]
    refine List.map_congr_left fun company _ => ?_
    exact (UInt64.toNat_sub_of_le _ _ (hexact.costoOf_le company.2)).symm
  have hchange : (found.1 - gas + (bonusShares env dividends rate).nodeDividend).toNat
      = utxosValue found.2 - gas.toNat + (bonusShares env dividends rate).nodeDividend.toNat := by
    rw [UInt64.toNat_add, UInt64.toNat_sub_of_le _ _ hge, htotal]
    omega
  refine .mk' hle ?_ (by rw [hpayments]; exact hshared)
  rw [hpayments, ← hchange, hr, voutWords]
  simp only [bonusDraft, List.map_append, List.map_map]
  simp [CTxUtxo.cleared]

/-! ### All three -/

/-- What a builder returns carries, read back as words, what it selected and what it redeems; no
    subtraction wraps; and as stored the outputs carry it exactly where no word reaches `2 ^ 63`. -/
theorem builders_redeem (env : BuilderEnv) :
    (∀ fromAddr utxoHash encodedInfo height isFindUtxo r,
      creatUnstakeTransaction env fromAddr utxoHash encodedInfo height isFindUtxo = .ok r →
      ∀ stakeAmount, stakeAmount = (env.isQualifiedToUnstake fromAddr utxoHash).2 →
        selectedValue env.db r.1.utxo + stakeAmount.toNat < 2 ^ 64 →
        ∃ gas, Redeems (selectedValue env.db r.1.utxo) stakeAmount.toNat [stakeAmount.toNat] 0 gas r.1.utxo.vout) ∧
    (∀ fromAddr toAddr utxoHash encodedInfo height isFindUtxo r,
      createDisinvestTransaction env fromAddr toAddr utxoHash encodedInfo height isFindUtxo = .ok r →
      ∀ investedAmount, investedAmount = (env.isQualifiedToDisinvest fromAddr toAddr utxoHash).2 →
        selectedValue env.db r.1.utxo + investedAmount.toNat < 2 ^ 64 →
        ∃ gas, Redeems (selectedValue env.db r.1.utxo) investedAmount.toNat [investedAmount.toNat] 0 gas r.1.utxo.vout) ∧
    ∀ addr encodedInfo height isFindUtxo r,
      createBonusTransaction env addr encodedInfo height isFindUtxo = .ok r →
      (∀ rate, env.getCommissionPercentage addr = .ok rate → ∃ q, ExactRate env rate q) →
      ∀ dividends, dividends = (env.calcBonusValue (env.getUTCTimestamp 0) addr).2 →
        inputValue env.db r.1.utxo.owner r.1.utxo.vin + dividends.total < 2 ^ 64 →
        ∃ (rate bonusAmount : UInt64) (bonusAddrList kept gas : ℕ),
          env.getCommissionPercentage addr = .ok rate ∧
          (∀ company ∈ dividends.entries, env.costoOf company.2 rate ≤ company.2) ∧
          r.1.data = env.dumpRedeem (.bonus bonusAmount bonusAddrList) ∧ bonusAmount.toNat = dividends.total ∧
          Redeems (inputValue env.db r.1.utxo.owner r.1.utxo.vin) dividends.total
            (dividends.entries.map fun company =>
              company.2.toNat - (env.costoOf company.2 rate).toNat) kept gas
            r.1.utxo.vout :=
  ⟨fun _ _ _ _ _ _ h _ => creatUnstakeTransaction_redeems h, fun _ _ _ _ _ _ _ h _ =>
    createDisinvestTransaction_redeems h,
    fun _ _ _ _ _ h hrate _ hdividends => createBonusTransaction_redeems h hdividends hrate⟩

/-- `B` and `C` have earned 15 and 24. -/
def sampleDividends : Dividends := ⟨[(str "B", 15), (str "C", 24)], by decide⟩

/-- A node that pays back 2000, and a bonus of which it keeps a tenth. -/
def redeemEnv : BuilderEnv where
  toTxEnv := builderEnv
  isQualifiedToUnstake := fun _ _ => (0, 2000)
  isQualifiedToDisinvest := fun _ _ _ => (0, 2000)
  checkBonusQualification := fun _ _ => 0
  calcBonusValue := fun _ _ => (0, sampleDividends)
  getCommissionPercentage := fun _ => .ok 10
  costoOf := fun amount rate => UInt64.ofNat ((amount.toNat * rate.toNat * 2 + 100) / 200)
  dumpRedeem := fun info => match info with
    | .bonus bonusAmount bonusAddrList => str (toString bonusAmount.toNat ++ " " ++ toString bonusAddrList)
    | _ => []
  getDefaultAddr := str "N"

theorem redeemEnv_exactRate : ExactRate redeemEnv 10 (1 / 10) := by
  refine ⟨by norm_num, by norm_num, fun amount => ?_⟩
  have hlt := amount.toNat_lt
  have hcosto : (redeemEnv.costoOf amount 10).toNat = (amount.toNat + 5) / 10 := by
    change (UInt64.ofNat ((amount.toNat * 10 * 2 + 100) / 200)).toNat = _
    rw [UInt64.toNat_ofNat_of_lt' (by change _ < 2 ^ 64; omega)]
    omega
  rw [hcosto, eq_comm, Int.floor_eq_iff]
  have hdiv := Nat.div_add_mod (amount.toNat + 5) 10
  have hmod := Nat.mod_lt (amount.toNat + 5) (show 10 > 0 by norm_num)
  have hdiv' : (10 : ℚ) * ((amount.toNat + 5) / 10 : ℕ) + ((amount.toNat + 5) % 10 : ℕ) =
    amount.toNat + 5 := by
    exact_mod_cast hdiv
  have hmod' : (((amount.toNat + 5) % 10 : ℕ) : ℚ) < 10 := by exact_mod_cast hmod
  have hpos : (0 : ℚ) ≤ ((amount.toNat + 5) % 10 : ℕ) := Nat.cast_nonneg _
  rw [Int.cast_natCast]
  constructor <;> linarith

/-- The three builders at work: a stake and an investment of 2000, and a bonus of 39. -/
theorem builders_redeem_small :
    (∃ r, creatUnstakeTransaction redeemEnv (str "A") (str "u") [] 1 false = .ok r ∧
      (voutWords r.1.utxo.vout).sum = 102000) ∧
    (∃ r, createDisinvestTransaction redeemEnv (str "A") (str "B") (str "u") [] 1 false = .ok r ∧
      (voutWords r.1.utxo.vout).sum = 102000) ∧
    ∃ r, createBonusTransaction redeemEnv (str "A") [] 1 false = .ok r ∧
      (voutWords r.1.utxo.vout).sum = 100039 := by
  refine ⟨?_, ?_, ?_⟩
  · obtain ⟨r, hrun, hval⟩ := ok_of_eval (b := 100000) (f := fun r => selectedValue redeemEnv.db r.1.utxo)
      (m := creatUnstakeTransaction redeemEnv (str "A") (str "u") [] 1 false) (by decide)
    obtain ⟨gas, hredeems⟩ := (builders_redeem redeemEnv).1 _ _ _ _ _ r hrun 2000 rfl (by rw [hval]; decide)
    exact ⟨r, hrun, by rw [hredeems.sum, hval]; rfl⟩
  · obtain ⟨r, hrun, hval⟩ := ok_of_eval (b := 100000) (f := fun r => selectedValue redeemEnv.db r.1.utxo)
      (m := createDisinvestTransaction redeemEnv (str "A") (str "B") (str "u") [] 1 false) (by decide)
    obtain ⟨gas, hredeems⟩ := (builders_redeem redeemEnv).2.1 _ _ _ _ _ _ r hrun 2000 rfl (by rw [hval]; decide)
    exact ⟨r, hrun, by rw [hredeems.sum, hval]; rfl⟩
  · obtain ⟨r, hrun, hval⟩ := ok_of_eval (b := 100000)
      (f := fun r => inputValue redeemEnv.db r.1.utxo.owner r.1.utxo.vin)
      (m := createBonusTransaction redeemEnv (str "A") [] 1 false) (by decide)
    have hrate : ∀ rate, redeemEnv.getCommissionPercentage (str "A") = .ok rate →
      ∃ q, ExactRate redeemEnv rate q := by
      intro rate h
      obtain rfl : 10 = rate := Except.ok.inj h
      exact ⟨_, redeemEnv_exactRate⟩
    obtain ⟨_, _, _, _, _, -, -, -, -, hredeems⟩ :=
      (builders_redeem redeemEnv).2.2 _ _ _ _ r hrun hrate sampleDividends rfl (by rw [hval]; decide)
    exact ⟨r, hrun, by rw [hredeems.sum, hval]; rfl⟩

/-- `A` owns two outputs of `5 * 10 ^ 18` each. -/
def richEnv : BuilderEnv := { redeemEnv with
  db := ⟨fun key =>
    if key = kAddress2UtxoKey ++ str "A" then .found (str "g_h")
    else if key = str "A_g" then .found (str "5000000000000000000")
    else if key = str "A_h" then .found (str "5000000000000000000")
    else .notFound⟩ }

/-- The change is above `2 ^ 63` and is stored as a negative value. -/
theorem unstake_stores_negative :
    ∃ r, creatUnstakeTransaction richEnv (str "A") (str "u") [] 1 false = .ok r ∧
      selectedValue richEnv.db r.1.utxo + (richEnv.isQualifiedToUnstake (str "A") (str "u")).2.toNat < 2 ^ 64 ∧
      (voutValues r.1.utxo.vout).sum ≠
        selectedValue richEnv.db r.1.utxo + (richEnv.isQualifiedToUnstake (str "A") (str "u")).2.toNat := by
  obtain ⟨r, hrun, hval⟩ := ok_of_eval (b := true)
    (f := fun r => decide (selectedValue richEnv.db r.1.utxo + 2000 < 2 ^ 64 ∧
      (voutValues r.1.utxo.vout).sum ≠ selectedValue richEnv.db r.1.utxo + 2000))
    (m := creatUnstakeTransaction richEnv (str "A") (str "u") [] 1 false) (by decide +kernel)
  exact ⟨r, hrun, of_decide_eq_true hval⟩

end Tfs.Ca
