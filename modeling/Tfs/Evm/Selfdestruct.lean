import Tfs.Evm.Ledger

/-! What a self-destruction hands over (`EvmHost::selfdestruct` in `ca/evm/evm_host.cpp`).

    The amount booked is the balance less every entry that came in and is sent on instead. What came in
    is part of the balance and so leaves the coins on the chain, less what `DBspendMap` has recorded.
    Nothing is recorded for the amount booked: the account keeps seeing its coins on the chain
    afterwards, unless they were all recorded as spent before. -/

namespace Tfs.Evm

variable {env : HostEnv} {h h' : Host}

/-- The self-destruction hands over the balance: the beneficiary's net position grows by it, what is
    taken off the balance for the entries sent on is no more than the balance, and nothing is left. -/
structure HandsOver (env : HostEnv) (h : Host) (addr beneficiary : Address) : Prop where
  paid : netPosition (selfdestruct env h addr beneficiary).coinTransferrings (env.addrString beneficiary)
    = netPosition h.coinTransferrings (env.addrString beneficiary) + (getBalance env h addr).1.toNat
  covered : incoming h.coinTransferrings (env.addrString addr) ≤ (getBalance env h addr).1.toNat
  emptied : (getBalance env (selfdestruct env h addr beneficiary) addr).1 = 0

/-! ### What is recorded as spent -/

/-- What `DBspendMap` records is on the chain. -/
def SpendsOnChain (balance : Str → UInt64) (spend : StdMap Str UInt64) : Prop :=
  ∀ a, (spend a).getD 0 ≤ balance a

/-- A loop that does not return early has recorded no more than there is. -/
theorem nettingLoop_onChain {balance : Str → UInt64} {fromAddr toAddr : Str} :
    ∀ (coins : List TransferInfo) {st : NettingState}, SpendsOnChain balance st.spend →
      (nettingLoop balance fromAddr toAddr coins st).2.2 = true →
      SpendsOnChain balance (nettingLoop balance fromAddr toAddr coins st).2.1.spend
  | [], st, hst, _ => hst
  | iter :: rest, st, hst, hok => by
    simp only [nettingLoop] at hok ⊢
    split_ifs at hok ⊢ with hzero hto hge hlt
    · exact nettingLoop_onChain rest hst hok
    · exact hst
    · -- the rest of the amount was recorded, and the check after it has passed
      refine nettingLoop_onChain rest (fun a => ?_) hok
      by_cases ha : a = fromAddr
      · rw [ha]
        exact UInt64.not_lt.mp hlt
      · simp only [NettingState.partialMatch, StdMap.set_ne _ _ ha]
        exact hst a
    · exact nettingLoop_onChain rest hst hok

theorem getContractTransfer_onChain {balance : Str → UInt64} {coins : List TransferInfo}
    {spend : StdMap Str UInt64} {amount : UInt64} {fromAddr toAddr : Str}
    (hspend : SpendsOnChain balance spend)
    (hret : (getContractTransfer balance coins spend amount fromAddr toAddr).ret = 0) :
    SpendsOnChain balance (getContractTransfer balance coins spend amount fromAddr toAddr).spend := by
  have hloop := @nettingLoop_onChain balance fromAddr toAddr coins ⟨amount, spend, []⟩ hspend
  rw [getContractTransfer] at hret ⊢
  split_ifs at hret ⊢ with hpos
  · rcases hrun : nettingLoop balance fromAddr toAddr coins ⟨amount, spend, []⟩ with ⟨coins', st, ok⟩
    rw [hrun] at hloop hret
    cases ok with
    | true => exact hloop rfl
    | false => cases hret
  · exact hspend

/-- A successful event records no more than there is. -/
theorem step_onChain {e : Event} (hspend : SpendsOnChain env.balanceByUtxo h.dbSpendMap)
    (hs : step env true h e = some h') : SpendsOnChain env.balanceByUtxo h'.dbSpendMap := by
  rcases step_ledger hs with ⟨msg, -, hret, -, hmap⟩ | ⟨addr, beneficiary, -, rfl⟩ | ⟨-, -, -, hmap⟩
  · rw [hmap]
    exact getContractTransfer_onChain hspend hret
  · rw [(selfdestruct_ledger addr beneficiary).2.1]
    exact hspend
  · rw [hmap]
    exact hspend

theorem run_onChain : ∀ (es : List Event) {h : Host}, SpendsOnChain env.balanceByUtxo h.dbSpendMap →
    runEvents env true h es = some h' → SpendsOnChain env.balanceByUtxo h'.dbSpendMap
  | [], h, hspend, hrun => by
    cases hrun
    exact hspend
  | e :: es, h, hspend, hrun => by
    rw [runEvents, Option.bind_eq_some_iff] at hrun
    obtain ⟨h₁, hs, hrest⟩ := hrun
    exact run_onChain es (step_onChain hspend hs) hrest

/-! ### What is handed over -/

/-- The parts of the balance before a self-destruction, and what it does with them. -/
theorem selfdestruct_parts {addr beneficiary : Address} (hne : addr ≠ beneficiary) :
    let coins := (selfdestruct env h addr beneficiary).coinTransferrings
    let booked := env.balanceByUtxo (env.addrString addr) - recordedSpend env h (env.addrString addr)
    netPosition coins (env.addrString beneficiary)
        = netPosition h.coinTransferrings (env.addrString beneficiary)
          + (incoming h.coinTransferrings (env.addrString addr) + booked.toNat) ∧
      incoming coins (env.addrString addr) = 0 := by
  obtain ⟨hcoins, -, hamount⟩ := @selfdestruct_ledger env h addr beneficiary
  obtain ⟨hout, hin, -⟩ := redirect_spec (env.addrString addr) (env.addrString beneficiary)
    h.coinTransferrings (balanceOf env h addr)
  have hnames : env.addrString addr ≠ env.addrString beneficiary :=
    fun heq => hne (evmAddrToString_injective env.keccak256Crypt heq)
  have hpayer := hin (env.addrString addr)
  have htarget := hin (env.addrString beneficiary)
  rw [if_pos rfl, if_neg hnames] at hpayer
  rw [if_neg hnames.symm, if_pos rfl] at htarget
  intro coins booked
  have hbooked : booked = (redirect (env.addrString addr) (env.addrString beneficiary)
    h.coinTransferrings (balanceOf env h addr)).2 := hamount.symm
  refine ⟨?_, ?_⟩
  · rw [hbooked]
    simp only [coins, hcoins, netPosition, incoming_append, outgoing_append, incoming_cons,
      outgoing_cons, incoming_nil, outgoing_nil, hout, if_pos, if_neg hnames, add_zero]
    omega
  · simp only [coins, hcoins, incoming_append, incoming_cons, incoming_nil, if_neg hnames.symm, add_zero]
    omega

theorem getBalance_fst (h : Host) (addr : Address) : (getBalance env h addr).1 = balanceOf env h addr := by
  have hbooks := @recordAccountAccess_toBooks env h addr
  have hcoins := congrArg Books.coinTransferrings hbooks
  have hmap := congrArg Books.dbSpendMap hbooks
  simp only [getBalance, balanceOf]
  rw [hcoins, hmap]

theorem recordedSpend_eq (h : Host) (a : Str) : recordedSpend env h a
    = if (h.dbSpendMap a).getD 0 ≤ env.balanceByUtxo a + UInt64.ofNat (incoming h.coinTransferrings a)
      then (h.dbSpendMap a).getD 0 else 0 := by
  rw [recordedSpend]
  cases h.dbSpendMap a with
  | none => simp
  | some spent => rfl

/-- Where no more is recorded than there is on the chain, the balance is handed over exactly when all
    coins on the chain are recorded as spent and the total of what came in stays below `2 ^ 64`. -/
theorem handsOver_iff_spent (hspend : SpendsOnChain env.balanceByUtxo h.dbSpendMap)
    {addr beneficiary : Address} (hne : addr ≠ beneficiary) :
    HandsOver env h addr beneficiary ↔
      (h.dbSpendMap (env.addrString addr)).getD 0 = env.balanceByUtxo (env.addrString addr) ∧
        (env.balanceByUtxo (env.addrString addr)).toNat
          + incoming h.coinTransferrings (env.addrString addr) < 2 ^ 64 := by
  obtain ⟨hpaid, hgone⟩ := @selfdestruct_parts env h addr beneficiary hne
  have hmap : (selfdestruct env h addr beneficiary).dbSpendMap = h.dbSpendMap :=
    (selfdestruct_ledger addr beneficiary).2.1
  have hrec := @recordedSpend_eq env h (env.addrString addr)
  have hleft : (getBalance env (selfdestruct env h addr beneficiary) addr).1
      = env.balanceByUtxo (env.addrString addr) - (h.dbSpendMap (env.addrString addr)).getD 0 := by
    rw [getBalance_fst, balanceOf_eq, recordedSpend_eq, hgone, hmap]
    simp [hspend (env.addrString addr)]
  have hbefore : (getBalance env h addr).1.toNat = _ :=
    congrArg UInt64.toNat ((getBalance_fst h addr).trans (balanceOf_eq addr))
  have hle := hspend (env.addrString addr)
  set U := env.balanceByUtxo (env.addrString addr)
  set D := (h.dbSpendMap (env.addrString addr)).getD 0
  set I := incoming h.coinTransferrings (env.addrString addr)
  set R := recordedSpend env h (env.addrString addr)
  have hempty : U - D = 0 ↔ D = U := by
    rw [UInt64.sub_eq_iff_eq_add, zero_add]
    exact eq_comm
  -- the balance, the amount booked and the recorded spend in the natural numbers
  have hbal : (getBalance env h addr).1.toNat
      = (2 ^ 64 - R.toNat + (U.toNat + I % 2 ^ 64) % 2 ^ 64) % 2 ^ 64 := by
    rw [hbefore, UInt64.toNat_sub, UInt64.toNat_add, UInt64.toNat_ofNat']
  have hbooked : (U - R).toNat = (2 ^ 64 - R.toNat + U.toNat) % 2 ^ 64 := UInt64.toNat_sub _ _
  have hcase : (D.toNat ≤ (U.toNat + I % 2 ^ 64) % 2 ^ 64 ∧ R.toNat = D.toNat) ∨
      ((U.toNat + I % 2 ^ 64) % 2 ^ 64 < D.toNat ∧ R.toNat = 0) := by
    have hsum : (U + UInt64.ofNat I).toNat = (U.toNat + I % 2 ^ 64) % 2 ^ 64 := by
      rw [UInt64.toNat_add, UInt64.toNat_ofNat']
    rw [hrec, ← hsum]
    split_ifs with hif
    · exact .inl ⟨UInt64.le_iff_toNat_le.mp hif, rfl⟩
    · exact .inr ⟨by rw [UInt64.le_iff_toNat_le] at hif; omega, rfl⟩
  have hU := U.toNat_lt
  have hD := D.toNat_lt
  constructor
  · intro hands
    have hall : D = U := hempty.mp (hleft.symm.trans hands.emptied)
    refine ⟨hall, ?_⟩
    have hpos := hands.paid
    have hin := hands.covered
    rw [hall] at hcase
    rw [hpaid] at hpos
    omega
  · rintro ⟨hall, hlt⟩
    rw [hall] at hcase
    refine ⟨?_, ?_, hleft.trans (hempty.mpr hall)⟩
    · rw [hpaid]
      omega
    · change I ≤ _
      omega

/-- In every state a run of successful operations reaches, a self-destruction hands over the balance
    exactly when the account has no coin on the chain that is not recorded as spent, and the total of
    what came in stays below `2 ^ 64`. -/
theorem selfdestruct_handsOver_iff (env : HostEnv) (contractType : ContractType)
    (sender recipient : Str) (transferAmount : UInt64) (code : Str) (h₀ h : Host)
    (hmake : makeHost env contractType sender recipient transferAmount code = .ok h₀) (es : List Event)
    (hrun : runEvents env true h₀ es = some h) (addr beneficiary : Address) (hne : addr ≠ beneficiary) :
    HandsOver env h addr beneficiary ↔
      (h.dbSpendMap (env.addrString addr)).getD 0 = env.balanceByUtxo (env.addrString addr) ∧
        (env.balanceByUtxo (env.addrString addr)).toNat
          + incoming h.coinTransferrings (env.addrString addr) < 2 ^ 64 := by
  obtain ⟨-, -, hbooks, -⟩ := makeHost_ok hmake
  have hstart : SpendsOnChain env.balanceByUtxo h₀.dbSpendMap := by
    rw [congrArg Books.dbSpendMap hbooks]
    intro a
    exact UInt64.zero_le
  exact handsOver_iff_spent (run_onChain es hstart hrun) hne

/-- A contract without coins on the chain hands over the ten coins it was paid before. -/
theorem selfdestruct_handsOver_received : ∃ h₀ h, sampleMade = .ok h₀ ∧
    runEvents sampleEnv true h₀ [.enter (sampleCall 17 34 10 [])] = some h ∧
    HandsOver sampleEnv h (sampleAddr 34) (sampleAddr 51) ∧ (getBalance sampleEnv h (sampleAddr 34)).1 = 10 := by
  have heval : (sampleMade.toOption.bind fun h =>
      (runEvents sampleEnv true h [.enter (sampleCall 17 34 10 [])]).map fun h' =>
        (h'.dbSpendMap (sampleEnv.addrString (sampleAddr 34)),
          incoming h'.coinTransferrings (sampleEnv.addrString (sampleAddr 34)),
          (getBalance sampleEnv h' (sampleAddr 34)).1)) = some (none, 10, 10) := by
    decide
  obtain ⟨h₀, hmade, hrun⟩ := Option.bind_eq_some_iff.mp heval
  obtain ⟨h, hrun, heq⟩ := Option.map_eq_some_iff.mp hrun
  simp only [Prod.mk.injEq] at heq
  obtain ⟨hspent, hin, hbal⟩ := heq
  have hchain : sampleEnv.balanceByUtxo (sampleEnv.addrString (sampleAddr 34)) = 0 := by decide
  refine ⟨h₀, h, toOption_eq_some.mp hmade, hrun, ?_, hbal⟩
  refine (selfdestruct_handsOver_iff sampleEnv .callContract _ _ 0 [0] h₀ h (toOption_eq_some.mp hmade) _
    hrun (sampleAddr 34) (sampleAddr 51) (by decide)).mpr ⟨?_, ?_⟩
  · rw [hspent, hchain, Option.getD_none]
  · rw [hin, hchain]
    decide

/-- A contract with ten coins on the chain still has a balance of ten after it has handed them over. -/
theorem selfdestruct_keeps_coins : ∃ h₀, sampleMade = .ok h₀ ∧
    ¬ HandsOver sampleEnv h₀ (sampleAddr 17) (sampleAddr 51) := by
  obtain ⟨h₀, hmade, hleft⟩ := ok_of_eval (m := sampleMade)
    (f := fun h => (getBalance sampleEnv (selfdestruct sampleEnv h (sampleAddr 17) (sampleAddr 51))
      (sampleAddr 17)).1) (b := 10) (by decide)
  refine ⟨h₀, hmade, fun hands => ?_⟩
  cases hleft.symm.trans hands.emptied

end Tfs.Evm
