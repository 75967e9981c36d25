import Tfs.Evm.Run

/-! The coin ledgers over whole runs: solvency and the balance a contract sees.

    `coin_transferrings` and `DBspendMap` change in two events only, the entry of a call and a
    self-destruction. For each of them one lemma says what it does to the net positions; the theorems
    about runs say exactly which runs keep every address solvent, and which ones keep `get_balance`
    in step with the ledger. -/

namespace Tfs.Evm

variable {env : HostEnv} {h h' : Host}

/-! ### What an event does to the ledgers -/

theorem transfer_ok {h₁ : Host} {amount : UInt64} {fromAddr toAddr : Str}
    (ht : h.transfer env amount fromAddr toAddr = (h₁, true)) :
    let r := getContractTransfer env.balanceByUtxo h.coinTransferrings h.dbSpendMap amount fromAddr toAddr
    r.ret = 0 ∧ h₁.coinTransferrings = r.coins ++ r.info ∧ h₁.dbSpendMap = r.spend := by
  simp only [Host.transfer] at ht
  split_ifs at ht with hret
  · cases ht
  · cases ht
    exact ⟨not_not.mp hret, rfl, rfl⟩

/-- A call that gets past its entry has paid its value. -/
theorem callEnter_ledger {msg : Message} {entry : Entry}
    (hc : callEnter env h msg = some (h', entry)) (hok : entry.failed = false) :
    let r := getContractTransfer env.balanceByUtxo h.coinTransferrings h.dbSpendMap msg.amount
      (env.addrString msg.sender) (payee env h msg)
    r.ret = 0 ∧ h'.coinTransferrings = r.coins ++ r.info ∧ h'.dbSpendMap = r.spend := by
  have hbooks : (recordAccountAccess env h msg.recipient).toBooks = h.toBooks :=
    recordAccountAccess_toBooks h msg.recipient
  have hcoins : (recordAccountAccess env h msg.recipient).coinTransferrings = h.coinTransferrings :=
    congrArg Books.coinTransferrings hbooks
  have hspend : (recordAccountAccess env h msg.recipient).dbSpendMap = h.dbSpendMap :=
    congrArg Books.dbSpendMap hbooks
  have hfail : ∀ entry : Entry, entry = .returned (plainResult .failure) → entry.failed = true := by
    rintro - rfl
    rfl
  rcases callEnter_cases hc with ⟨-, -, he⟩ | ⟨-, ⟨-, hcreate⟩ | ⟨-, h₁, ok, htr, hrest⟩⟩
  · rw [hfail _ he] at hok; cases hok
  · rw [createEnter] at hcreate
    rcases htr : (recordAccountAccess env h msg.recipient).nextNonce.transfer env msg.amount
      (env.addrString msg.sender) (payee env h msg) with ⟨h₁, ok⟩
    rw [htr] at hcreate
    cases ok with
    | false =>
      obtain ⟨-, rfl⟩ := Prod.mk.inj hcreate
      cases hok
    | true =>
      have := transfer_ok htr
      simp only [Host.nextNonce, hcoins, hspend] at this
      split_ifs at hcreate
      all_goals
        obtain ⟨rfl, -⟩ := Prod.mk.inj hcreate
        exact this
  · rcases hrest with ⟨-, -, he⟩ | ⟨rfl, hprep⟩
    · rw [hfail _ he] at hok; cases hok
    · have := transfer_ok htr
      rw [hcoins, hspend] at this
      rcases (callPrepare_cases hprep).1 with rfl | ⟨acc, -, rfl⟩ <;> exact this

/-- The three things a successful event can do to the ledgers. -/
theorem step_ledger {e : Event} (hs : step env true h e = some h') :
    (∃ msg, e = .enter msg ∧
      let r := getContractTransfer env.balanceByUtxo h.coinTransferrings h.dbSpendMap msg.amount
        (env.addrString msg.sender) (payee env h msg)
      r.ret = 0 ∧ h'.coinTransferrings = r.coins ++ r.info ∧ h'.dbSpendMap = r.spend) ∨
    (∃ addr beneficiary, e = .selfdestruct addr beneficiary ∧
      h' = selfdestruct env h addr beneficiary) ∨
    ((∀ msg, e ≠ .enter msg) ∧ (∀ a b, e ≠ .selfdestruct a b) ∧
      h'.coinTransferrings = h.coinTransferrings ∧ h'.dbSpendMap = h.dbSpendMap) := by
  have hkeep : h'.toBooks = h.toBooks →
      h'.coinTransferrings = h.coinTransferrings ∧ h'.dbSpendMap = h.dbSpendMap :=
    fun hb => ⟨congrArg Books.coinTransferrings hb, congrArg Books.dbSpendMap hb⟩
  cases e with
  | enter msg =>
    simp only [step, Option.bind_eq_some_iff] at hs
    obtain ⟨⟨h₁, entry⟩, hc, hif⟩ := hs
    split_ifs at hif with hfail
    cases hif
    refine .inl ⟨msg, rfl, callEnter_ledger hc ?_⟩
    simpa using hfail
  | selfdestruct addr beneficiary =>
    exact .inr (.inl ⟨addr, beneficiary, rfl, (Option.some.inj hs).symm⟩)
  | accountAccess addr =>
    cases hs
    exact .inr (.inr ⟨by simp, by simp, hkeep (by simp)⟩)
  | getStorage addr key =>
    obtain ⟨⟨v, h₁⟩, hget, rfl⟩ := Option.map_eq_some_iff.mp hs
    exact .inr (.inr ⟨by simp, by simp, hkeep (getStorage_toBooks hget)⟩)
  | setStorage addr key value =>
    obtain ⟨⟨st, h₁⟩, hset, rfl⟩ := Option.map_eq_some_iff.mp hs
    exact .inr (.inr ⟨by simp, by simp, hkeep (setStorage_toBooks hset)⟩)
  | accessStorage addr key =>
    cases hs
    exact .inr (.inr ⟨by simp, by simp, hkeep (by simp)⟩)
  | emitLog log =>
    cases hs
    exact .inr (.inr ⟨by simp, by simp, rfl, rfl⟩)
  | created contractAddress output =>
    cases hs
    rw [createLeave_eq]
    exact .inr (.inr ⟨by simp, by simp, rfl, rfl⟩)

/-- `redirect` sends the whole incoming amount of `fromAddr` on to `toAddr`; what leaves an address
    stays, and the amount loses what was sent on. -/
theorem redirect_spec (fromAddr toAddr : Str) : ∀ (coins : List TransferInfo) (amount : UInt64),
    let r := redirect fromAddr toAddr coins amount
    (∀ a, outgoing r.1 a = outgoing coins a) ∧
      (∀ a, incoming r.1 a + (if a = fromAddr then incoming coins fromAddr else 0)
        = incoming coins a + (if a = toAddr then incoming coins fromAddr else 0)) ∧
      r.2 = amount - UInt64.ofNat (incoming coins fromAddr)
  | [], amount => by simp [redirect]
  | iter :: rest, amount => by
    by_cases hit : iter.amount ≠ 0 ∧ iter.toAddr = fromAddr
    · obtain ⟨hout, hin, hamt⟩ := redirect_spec fromAddr toAddr rest (amount - iter.amount)
      simp only [redirect, if_pos hit]
      refine ⟨fun a => ?_, fun a => ?_, ?_⟩
      · simp only [outgoing_cons, hout a]
      · have := hin a
        simp only [incoming_cons, hit.2, if_true, eq_comm (b := a)]
        split_ifs at this ⊢ <;> omega
      · have hsub : ∀ x y z : UInt64, x - y - z = x - (y + z) := by grind
        rw [hamt, incoming_cons, if_pos hit.2, UInt64.ofNat_add, UInt64.ofNat_toNat, hsub]
    · obtain ⟨hout, hin, hamt⟩ := redirect_spec fromAddr toAddr rest amount
      have hzero : (if iter.toAddr = fromAddr then iter.amount.toNat else 0) = 0 := by
        split_ifs with hto
        · rw [not_and] at hit
          have : iter.amount = 0 := by
            by_contra hne
            exact hit hne hto
          simp [this]
        · rfl
      simp only [redirect, if_neg hit]
      refine ⟨fun a => ?_, fun a => ?_, ?_⟩
      · simp only [outgoing_cons, hout a]
      · have := hin a
        simp only [incoming_cons, hzero, zero_add]
        omega
      · rw [hamt, incoming_cons, hzero, zero_add]

/-! ### Balances -/

/-- What `DBspendMap` is counted for: the recorded spend, unless it exceeds what the address has. -/
def recordedSpend (env : HostEnv) (h : Host) (a : Str) : UInt64 :=
  match h.dbSpendMap a with
  | some spent =>
    if spent ≤ env.balanceByUtxo a + UInt64.ofNat (incoming h.coinTransferrings a) then spent else 0
  | none => 0

theorem foldl_incoming (a : Str) : ∀ (coins : List TransferInfo) (amount : UInt64),
    coins.foldl (fun amount iter => if iter.toAddr = a then amount + iter.amount else amount) amount
      = amount + UInt64.ofNat (incoming coins a)
  | [], amount => by simp
  | iter :: rest, amount => by
    rw [List.foldl_cons, foldl_incoming a rest, incoming_cons]
    split_ifs with hto
    · rw [UInt64.ofNat_add, UInt64.ofNat_toNat, UInt64.add_assoc]
    · rw [zero_add]

/-- `get_balance` in one formula: on-chain coins plus what arrived, less the recorded spend, modulo
    `2 ^ 64`. -/
theorem balanceOf_eq (addr : Address) :
    balanceOf env h addr = env.balanceByUtxo (env.addrString addr)
      + UInt64.ofNat (incoming h.coinTransferrings (env.addrString addr))
      - recordedSpend env h (env.addrString addr) := by
  simp only [balanceOf, foldl_incoming, recordedSpend]
  cases h.dbSpendMap (env.addrString addr) with
  | none => simp
  | some spent =>
    simp only
    split_ifs <;> simp

/-- A self-destruction moves the incoming coins of `addr` on, and books the on-chain coins less the
    recorded spend. -/
theorem selfdestruct_ledger (addr beneficiary : Address) :
    let r := redirect (env.addrString addr) (env.addrString beneficiary) h.coinTransferrings
      (balanceOf env h addr)
    (selfdestruct env h addr beneficiary).coinTransferrings
        = r.1 ++ [⟨env.addrString addr, env.addrString beneficiary, r.2⟩] ∧
      (selfdestruct env h addr beneficiary).dbSpendMap = h.dbSpendMap ∧
      r.2 = env.balanceByUtxo (env.addrString addr) - recordedSpend env h (env.addrString addr) := by
  intro r
  have hbooks := @selfdestruct_toBooks env h addr beneficiary
  have hspend := congrArg Books.dbSpendMap hbooks
  refine ⟨congrArg Books.coinTransferrings hbooks, hspend, ?_⟩
  have hcancel : ∀ x y z : UInt64, x + y - z - y = x - z := by grind
  obtain ⟨-, -, hamt⟩ := redirect_spec (env.addrString addr) (env.addrString beneficiary)
    h.coinTransferrings (balanceOf env h addr)
  rw [hamt, balanceOf_eq, hcancel]

/-! ### Solvency -/

/-- No address has paid out more than its coins on the chain and what arrived. -/
def Solvent (env : HostEnv) (h : Host) : Prop :=
  ∀ a, outgoing h.coinTransferrings a
    ≤ (env.balanceByUtxo a).toNat + incoming h.coinTransferrings a

/-- The payer of an event can afford it: a call pays no more than its sender has left, or pays its own
    sender; a contract that destroys itself has all its outgoing coins recorded in `DBspendMap`, within
    its coins on the chain, or is its own beneficiary. -/
def Covered (env : HostEnv) (h : Host) : Event → Prop
  | .enter msg =>
    let payer := env.addrString msg.sender
    payee env h msg = payer ∨ outgoing h.coinTransferrings payer + msg.amount.toNat
      ≤ (env.balanceByUtxo payer).toNat + incoming h.coinTransferrings payer
  | .selfdestruct addr beneficiary =>
    let payer := env.addrString addr
    beneficiary = addr ∨
      (outgoing h.coinTransferrings payer ≤ (recordedSpend env h payer).toNat ∧
        recordedSpend env h payer ≤ env.balanceByUtxo payer)
  | _ => True

/-- Every event of a run is covered in the state before it. -/
def AllCovered (env : HostEnv) : Host → List Event → Prop
  | _, [] => True
  | h, e :: es => Covered env h e ∧ ∀ h', step env true h e = some h' → AllCovered env h' es

/-- Moving `x` from `payer` to `to` keeps everyone solvent exactly when the payer can afford it. -/
theorem solvent_move_iff {coins coins' : List TransferInfo} {U : Str → ℕ} {payer target : Str} {x : ℕ}
    (hsol : ∀ a, outgoing coins a ≤ U a + incoming coins a)
    (hnet : ∀ a, netPosition coins' a = netPosition coins a + (if target = a then (x : ℤ) else 0)
      - (if payer = a then (x : ℤ) else 0)) :
    (∀ a, outgoing coins' a ≤ U a + incoming coins' a) ↔
      target = payer ∨ outgoing coins payer + x ≤ U payer + incoming coins payer := by
  simp only [netPosition] at hnet
  constructor
  · intro hsol'
    by_cases hself : target = payer
    · exact .inl hself
    · have h1 := hsol' payer
      have h2 := hnet payer
      rw [if_neg hself, if_pos rfl] at h2
      exact .inr (by omega)
  · intro hcond a
    have h1 := hsol a
    have h2 := hnet a
    rcases hcond with rfl | hafford
    · omega
    · by_cases hp : payer = a
      · subst hp
        rw [if_pos rfl] at h2
        split_ifs at h2 <;> omega
      · rw [if_neg hp] at h2
        split_ifs at h2 <;> omega

theorem selfdestruct_solvent_iff (hsol : Solvent env h) (addr beneficiary : Address) :
    Solvent env (selfdestruct env h addr beneficiary) ↔
      Covered env h (.selfdestruct addr beneficiary) := by
  obtain ⟨hcoins, -, hamt⟩ := @selfdestruct_ledger env h addr beneficiary
  obtain ⟨hout, hin, -⟩ := redirect_spec (env.addrString addr) (env.addrString beneficiary)
    h.coinTransferrings (balanceOf env h addr)
  have hinj : env.addrString beneficiary = env.addrString addr ↔ beneficiary = addr :=
    (evmAddrToString_injective env.keccak256Crypt).eq_iff
  simp only [Solvent, Covered, hcoins, ← hinj]
  set payer := env.addrString addr with hpayer
  set target := env.addrString beneficiary
  set coins' := (redirect payer target h.coinTransferrings (balanceOf env h addr)).1
  set x := (redirect payer target h.coinTransferrings (balanceOf env h addr)).2
  -- the booked amount, which wraps around when more is recorded than there is on the chain
  have hx : x.toNat = (2 ^ 64 - (recordedSpend env h payer).toNat
      + (env.balanceByUtxo payer).toNat) % 2 ^ 64 := by rw [hamt, UInt64.toNat_sub]
  have hU := (env.balanceByUtxo payer).toNat_lt
  have hR := (recordedSpend env h payer).toNat_lt
  rw [UInt64.le_iff_toNat_le]
  simp only [outgoing_append, incoming_append, outgoing_cons, incoming_cons, outgoing_nil,
    incoming_nil, add_zero, hout]
  constructor
  · intro hsol'
    by_cases hself : target = payer
    · exact .inl hself
    · have h1 := hsol' payer
      have h2 := hin payer
      rw [if_pos rfl, if_neg fun h => hself h.symm] at h2
      rw [if_pos rfl, if_neg hself] at h1
      exact .inr (by omega)
  · intro hcond a
    have h1 := hsol a
    have h2 := hin a
    simp only [eq_comm (a := a)] at h2
    rcases hcond with hself | ⟨hle, hrec⟩
    · rw [hself] at h2 ⊢
      omega
    · by_cases hp : payer = a
      · subst hp
        rw [if_pos rfl] at h2 ⊢
        split_ifs at h2 ⊢ <;> omega
      · rw [if_neg hp] at h2 ⊢
        split_ifs at h2 ⊢ <;> omega

/-- One event keeps a solvent ledger solvent exactly when it is covered. -/
theorem step_solvent_iff {e : Event} (hsol : Solvent env h) (hs : step env true h e = some h') :
    Solvent env h' ↔ Covered env h e := by
  rcases step_ledger hs with ⟨msg, rfl, hret, hcoins, -⟩ | ⟨addr, beneficiary, rfl, rfl⟩ |
    ⟨henter, hself, hcoins, -⟩
  · rw [Solvent, hcoins]
    exact solvent_move_iff hsol (getContractTransfer_net hret)
  · exact selfdestruct_solvent_iff hsol addr beneficiary
  · have hcov : Covered env h e := by
      cases e with
      | enter msg => exact absurd rfl (henter msg)
      | selfdestruct a b => exact absurd rfl (hself a b)
      | _ => trivial
    rw [Solvent, hcoins]
    exact ⟨fun _ => hcov, fun _ => hsol⟩

/-- A property of every state of a run. -/
def Throughout (env : HostEnv) (P : Host → Prop) (h : Host) (es : List Event) : Prop :=
  ∀ done h', done <+: es → runEvents env true h done = some h' → P h'

/-- Throughout a run: now, and throughout the rest after the first event. -/
theorem throughout_cons {P : Host → Prop} {e : Event} {es : List Event}
    (hs : step env true h e = some h') :
    Throughout env P h (e :: es) ↔ P h ∧ Throughout env P h' es := by
  constructor
  · intro hall
    refine ⟨hall [] h List.nil_prefix rfl, fun done h₁ hdone hrun => ?_⟩
    refine hall (e :: done) h₁ (List.cons_prefix_cons.mpr ⟨rfl, hdone⟩) ?_
    rw [runEvents, hs]
    exact hrun
  · rintro ⟨hnow, hrest⟩ done h₁ hdone hrun
    cases done with
    | nil => cases hrun; exact hnow
    | cons e' done =>
      obtain ⟨rfl, hdone'⟩ := List.cons_prefix_cons.mp hdone
      rw [runEvents, hs] at hrun
      exact hrest done h₁ hdone' hrun

theorem throughout_nil {P : Host → Prop} : Throughout env P h [] ↔ P h := by
  constructor
  · intro hall
    exact hall [] h List.prefix_rfl rfl
  · intro hP done h₁ hdone hrun
    obtain rfl := List.prefix_nil.mp hdone
    cases hrun
    exact hP

/-- A run of successful events keeps every address solvent exactly when every event is covered. -/
theorem throughout_solvent_iff : ∀ (es : List Event) {h h' : Host}, Solvent env h →
    runEvents env true h es = some h' → (Throughout env (Solvent env) h es ↔ AllCovered env h es)
  | [], h, h', hsol, _ => by simp [throughout_nil, AllCovered, hsol]
  | e :: es, h, h', hsol, hrun => by
    rw [runEvents, Option.bind_eq_some_iff] at hrun
    obtain ⟨h₁, hs, hrest⟩ := hrun
    have hstep := step_solvent_iff hsol hs
    rw [throughout_cons hs, AllCovered]
    constructor
    · rintro ⟨-, hall⟩
      have hsol₁ : Solvent env h₁ := hall [] h₁ List.nil_prefix rfl
      refine ⟨hstep.mp hsol₁, fun h₂ hs₂ => ?_⟩
      rw [hs] at hs₂
      cases hs₂
      exact (throughout_solvent_iff es hsol₁ hrest).mp hall
    · rintro ⟨hcov, hall⟩
      have hsol₁ := hstep.mpr hcov
      exact ⟨hsol, (throughout_solvent_iff es hsol₁ hrest).mpr (hall h₁ hs)⟩

/-- From one entry that its sender can pay, the states of a run of successful calls, creations and
    self-destructions are all solvent exactly when every event of the run is covered. -/
theorem host_solvency_iff (env : HostEnv) (h h' : Host) (sender recipient : Str) (amount : UInt64)
    (hcoins : h.coinTransferrings = [⟨sender, recipient, amount⟩])
    (hamount : amount ≤ env.balanceByUtxo sender) (es : List Event)
    (hrun : runEvents env true h es = some h') :
    Throughout env (Solvent env) h es ↔ AllCovered env h es := by
  have hle := UInt64.le_iff_toNat_le.mp hamount
  refine throughout_solvent_iff es (fun a => ?_) hrun
  simp only [hcoins, outgoing_cons, incoming_cons, outgoing_nil, incoming_nil, add_zero]
  by_cases hs : sender = a
  · subst hs
    rw [if_pos rfl]
    omega
  · rw [if_neg hs]
    omega

/-- The third address calls the first one, a contract that owns ten coins on the chain. -/
def sampleHost : Host :=
  { Host.fresh with coinTransferrings :=
      [⟨sampleEnv.addrString (sampleAddr 51), sampleEnv.addrString (sampleAddr 17), 0⟩] }

/-- A contract that pays once what it has stays solvent. -/
theorem host_solvency_iff_once : Throughout sampleEnv (Solvent sampleEnv) sampleHost
    [.enter (sampleCall 17 34 10 [])] := by
  obtain ⟨h', hrun⟩ : ∃ h', runEvents sampleEnv true sampleHost
      [.enter (sampleCall 17 34 10 [])] = some h' :=
    Option.isSome_iff_exists.mp (by decide +kernel)
  refine (host_solvency_iff sampleEnv sampleHost h' _ _ 0 rfl (by decide +kernel) _ hrun).mpr
    ⟨.inr (by decide +kernel), fun _ _ => trivial⟩

/-- A contract can pay the same ten coins twice: plain spends are never checked. -/
theorem host_solvency_fails : ∃ h', sampleHost.coinTransferrings
      = [⟨sampleEnv.addrString (sampleAddr 51), sampleEnv.addrString (sampleAddr 17), 0⟩] ∧
    sampleHost.dbSpendMap = .empty ∧
    (0 : UInt64) ≤ sampleEnv.balanceByUtxo (sampleEnv.addrString (sampleAddr 51)) ∧
    runEvents sampleEnv true sampleHost
      [.enter (sampleCall 17 34 10 []), .enter (sampleCall 17 34 10 [])] = some h' ∧
    ¬ Solvent sampleEnv h' := by
  obtain ⟨h', hrun, hout⟩ : ∃ h', runEvents sampleEnv true sampleHost
      [.enter (sampleCall 17 34 10 []), .enter (sampleCall 17 34 10 [])] = some h' ∧
      (outgoing h'.coinTransferrings (sampleEnv.addrString (sampleAddr 17)),
        incoming h'.coinTransferrings (sampleEnv.addrString (sampleAddr 17))) = (20, 0) :=
    Option.map_eq_some_iff.mp (by decide +kernel)
  refine ⟨h', rfl, rfl, UInt64.zero_le, hrun, fun hsol => ?_⟩
  have := hsol (sampleEnv.addrString (sampleAddr 17))
  have hbal : (sampleEnv.balanceByUtxo (sampleEnv.addrString (sampleAddr 17))).toNat = 10 := by
    decide +kernel
  obtain ⟨h1, h2⟩ := Prod.mk.inj hout
  omega

/-! ### The balance a contract sees -/

/-- `get_balance` of every address is its coins on the chain plus what arrived minus what left. -/
def Balanced (env : HostEnv) (h : Host) : Prop :=
  ∀ a : Address, ((balanceOf env h a).toNat : ℤ)
    = (env.balanceByUtxo (env.addrString a)).toNat
      + incoming h.coinTransferrings (env.addrString a)
      - outgoing h.coinTransferrings (env.addrString a)

/-- All totals are below `2 ^ 64` and no difference is negative. -/
def InRange (env : HostEnv) (h : Host) : Prop :=
  ∀ a : Address, (env.balanceByUtxo (env.addrString a)).toNat
        + incoming h.coinTransferrings (env.addrString a) < 2 ^ 64 ∧
    outgoing h.coinTransferrings (env.addrString a)
      ≤ (env.balanceByUtxo (env.addrString a)).toNat
        + incoming h.coinTransferrings (env.addrString a)

/-- An event that moves no coins, whatever the state: a call without value (modulo `2 ^ 64`), or the
    self-destruction of an account without coins on the chain. -/
def Event.Idle (env : HostEnv) : Event → Prop
  | .enter msg => msg.amount = 0
  | .selfdestruct addr _ => env.balanceByUtxo (env.addrString addr) = 0
  | _ => True

/-- No coin has moved yet. -/
structure IdleHost (h : Host) : Prop where
  coins : ∀ e ∈ h.coinTransferrings, e.amount = 0
  spend : ∀ a, h.dbSpendMap a = none

theorem totals_of_zero {coins : List TransferInfo} (hz : ∀ e ∈ coins, e.amount = 0) (a : Str) :
    incoming coins a = 0 ∧ outgoing coins a = 0 := by
  induction coins with
  | nil => exact ⟨rfl, rfl⟩
  | cons e rest ih =>
    obtain ⟨hin, hout⟩ := ih fun e' he' => hz e' (List.mem_cons_of_mem _ he')
    have he := hz e List.mem_cons_self
    simp [incoming_cons, outgoing_cons, hin, hout, he]

theorem nettingLoop_of_zero {balance : Str → UInt64} {fromAddr toAddr : Str} :
    ∀ {coins : List TransferInfo} (st : NettingState), (∀ e ∈ coins, e.amount = 0) →
      nettingLoop balance fromAddr toAddr coins st = (coins, st, true)
  | [], _, _ => rfl
  | e :: rest, st, hz => by
    rw [nettingLoop, if_pos (hz e List.mem_cons_self),
      nettingLoop_of_zero st fun e' he' => hz e' (List.mem_cons_of_mem _ he')]

theorem redirect_of_zero {fromAddr toAddr : Str} : ∀ {coins : List TransferInfo} (amount : UInt64),
    (∀ e ∈ coins, e.amount = 0) → redirect fromAddr toAddr coins amount = (coins, amount)
  | [], _, _ => rfl
  | e :: rest, amount, hz => by
    have he : ¬ (e.amount ≠ 0 ∧ e.toAddr = fromAddr) := fun h => h.1 (hz e List.mem_cons_self)
    rw [redirect, if_neg he,
      redirect_of_zero amount fun e' he' => hz e' (List.mem_cons_of_mem _ he')]

/-- The first entry that moves coins is not charged to its payer, so its payer's balance is wrong. -/
theorem balanced_first_iff {coins : List TransferInfo} {payer : Address} {target : Str} {x : UInt64}
    (hz : ∀ e ∈ coins, e.amount = 0)
    (hcoins : h.coinTransferrings = coins ++ [⟨env.addrString payer, target, x⟩])
    (hspend : ∀ a, h.dbSpendMap a = none) (hrange : InRange env h) : Balanced env h ↔ x = 0 := by
  have htot := totals_of_zero hz
  have hrec : ∀ a, recordedSpend env h a = 0 := fun a => by simp [recordedSpend, hspend a]
  have hbal : ∀ a : Address, (balanceOf env h a).toNat
      = (env.balanceByUtxo (env.addrString a)).toNat
        + incoming h.coinTransferrings (env.addrString a) := by
    intro a
    have := (hrange a).1
    rw [balanceOf_eq, hrec, UInt64.sub_zero, UInt64.toNat_add, UInt64.toNat_ofNat']
    omega
  constructor
  · intro hall
    have h1 := hall payer
    rw [hbal payer, hcoins, outgoing_append, (htot _).2, outgoing_cons, if_pos rfl,
      outgoing_nil] at h1
    push_cast at h1
    have hx : x.toNat = 0 := by omega
    exact UInt64.toNat_inj.mp hx
  · rintro rfl a
    rw [hbal a, hcoins, outgoing_append, (htot _).2, outgoing_cons, outgoing_nil]
    simp

theorem IdleHost.balanced (hidle : IdleHost h) : Balanced env h := by
  intro a
  obtain ⟨hin, hout⟩ := totals_of_zero hidle.coins (env.addrString a)
  have hrec : recordedSpend env h (env.addrString a) = 0 := by simp [recordedSpend, hidle.spend]
  rw [balanceOf_eq, hin, hout, hrec]
  simp

/-- One event from a host where no coin has moved: the balances stay right exactly when it moves none. -/
theorem step_balanced_iff {e : Event} (hidle : IdleHost h) (hs : step env true h e = some h')
    (hrange : InRange env h') :
    (Balanced env h' ↔ e.Idle env) ∧ (e.Idle env → IdleHost h') := by
  have hadd : ∀ (f t : Str) (e : TransferInfo), e ∈ h.coinTransferrings ++ [⟨f, t, 0⟩] → e.amount = 0 := by
    intro f t e he
    rcases List.mem_append.mp he with he | he
    · exact hidle.coins e he
    · rw [List.mem_singleton.mp he]
  rcases step_ledger hs with ⟨msg, rfl, -, hcoins, hspend⟩ | ⟨addr, beneficiary, rfl, rfl⟩ |
    ⟨henter, hself, hcoins, hspend⟩
  · simp only [Event.Idle]
    by_cases hamt : msg.amount = 0
    · have hkeep : getContractTransfer env.balanceByUtxo h.coinTransferrings h.dbSpendMap msg.amount
          (env.addrString msg.sender) (payee env h msg)
            = ⟨h.coinTransferrings, h.dbSpendMap, [], 0⟩ := by
        rw [hamt, getContractTransfer, if_neg (by simp)]
      rw [hkeep] at hcoins hspend
      have hidle' : IdleHost h' :=
        ⟨by rw [hcoins, List.append_nil]; exact hidle.coins, by rw [hspend]; exact hidle.spend⟩
      exact ⟨⟨fun _ => hamt, fun _ => hidle'.balanced⟩, fun _ => hidle'⟩
    · have hpay : getContractTransfer env.balanceByUtxo h.coinTransferrings h.dbSpendMap msg.amount
          (env.addrString msg.sender) (payee env h msg) = ⟨h.coinTransferrings, h.dbSpendMap,
            [⟨env.addrString msg.sender, payee env h msg, msg.amount⟩], 0⟩ := by
        rw [getContractTransfer, if_pos (UInt64.pos_iff_ne_zero.mpr hamt),
          nettingLoop_of_zero _ hidle.coins]
        rfl
      rw [hpay] at hcoins hspend
      exact ⟨balanced_first_iff hidle.coins hcoins (by rw [hspend]; exact hidle.spend) hrange,
        fun h0 => absurd h0 hamt⟩
  · obtain ⟨hcoins, hspend, -⟩ := @selfdestruct_ledger env h addr beneficiary
    have hbal : balanceOf env h addr = env.balanceByUtxo (env.addrString addr) := by
      have hrec : recordedSpend env h (env.addrString addr) = 0 := by
        simp [recordedSpend, hidle.spend]
      rw [balanceOf_eq, (totals_of_zero hidle.coins _).1, hrec]
      simp
    rw [redirect_of_zero _ hidle.coins, hbal] at hcoins
    have hspend' : ∀ a, (selfdestruct env h addr beneficiary).dbSpendMap a = none := by
      rw [hspend]; exact hidle.spend
    refine ⟨balanced_first_iff hidle.coins hcoins hspend' hrange, fun h0 => ⟨?_, hspend'⟩⟩
    rw [hcoins, h0]
    exact hadd _ _
  · have hidle' : IdleHost h' := ⟨by rw [hcoins]; exact hidle.coins, by rw [hspend]; exact hidle.spend⟩
    have hev : e.Idle env := by
      cases e with
      | enter msg => exact absurd rfl (henter msg)
      | selfdestruct a b => exact absurd rfl (hself a b)
      | _ => trivial
    exact ⟨⟨fun _ => hev, fun _ => hidle'.balanced⟩, fun _ => hidle'⟩

theorem throughout_balanced_iff : ∀ (es : List Event) {h h' : Host}, IdleHost h →
    runEvents env true h es = some h' → Throughout env (InRange env) h es →
    (Throughout env (Balanced env) h es ↔ ∀ e ∈ es, e.Idle env)
  | [], h, h', hidle, _, _ => by simp [throughout_nil, hidle.balanced]
  | e :: es, h, h', hidle, hrun, hrange => by
    rw [runEvents, Option.bind_eq_some_iff] at hrun
    obtain ⟨h₁, hs, hrest⟩ := hrun
    rw [throughout_cons hs] at hrange ⊢
    obtain ⟨hiff, hkeep⟩ := step_balanced_iff hidle hs (hrange.2 [] h₁ List.nil_prefix rfl)
    rw [List.forall_mem_cons]
    constructor
    · rintro ⟨-, hall⟩
      have hev := hiff.mp (hall [] h₁ List.nil_prefix rfl)
      exact ⟨hev, (throughout_balanced_iff es (hkeep hev) hrest hrange.2).mp hall⟩
    · rintro ⟨hev, hall⟩
      exact ⟨hidle.balanced, (throughout_balanced_iff es (hkeep hev) hrest hrange.2).mpr hall⟩

/-- Over the runs of successful calls, creations and self-destructions from a host made by `MakeHost`,
    `get_balance` is right in every state exactly when the run moves no coins at all. -/
theorem host_balance_iff (env : HostEnv) (contractType : ContractType) (sender recipient : Address)
    (transferAmount : UInt64) (code : Str) (h h' : Host)
    (hmake : makeHost env contractType (env.addrString sender) (env.addrString recipient)
      transferAmount code = .ok h)
    (es : List Event) (hrun : runEvents env true h es = some h')
    (hrange : Throughout env (InRange env) h es) :
    Throughout env (Balanced env) h es ↔ transferAmount = 0 ∧ ∀ e ∈ es, e.Idle env := by
  obtain ⟨acc, rootHash, hbooks, -, -, -⟩ := makeHost_ok hmake
  have hcoins := congrArg Books.coinTransferrings hbooks
  have hspend := congrArg Books.dbSpendMap hbooks
  have hspend' : ∀ a, h.dbSpendMap a = none := fun a => by rw [hspend]; rfl
  have hfirst : Balanced env h ↔ transferAmount = 0 :=
    @balanced_first_iff env h [] sender _ _ (by simp) hcoins hspend' (hrange [] h List.nil_prefix rfl)
  have hidle : transferAmount = 0 → IdleHost h := fun h0 => ⟨by simp [hcoins, h0], hspend'⟩
  constructor
  · intro hall
    have h0 := hfirst.mp (hall [] h List.nil_prefix rfl)
    exact ⟨h0, (throughout_balanced_iff es (hidle h0) hrun hrange).mp hall⟩
  · rintro ⟨h0, hev⟩
    exact (throughout_balanced_iff es (hidle h0) hrun hrange).mpr hev

theorem inRange_of_zero (hz : ∀ e ∈ h.coinTransferrings, e.amount = 0) : InRange env h := by
  intro a
  obtain ⟨hin, hout⟩ := totals_of_zero hz (env.addrString a)
  have := (env.balanceByUtxo (env.addrString a)).toNat_lt
  rw [hin, hout]
  omega

/-- `MakeHost` for a call of the first address by the third one, without value. -/
def sampleMade : Except Exit Host :=
  makeHost sampleEnv .callContract (sampleEnv.addrString (sampleAddr 51))
    (sampleEnv.addrString (sampleAddr 17)) 0 [0]

/-- A transaction and a call without value keep the balances right. -/
theorem host_balance_iff_idle : ∃ h, sampleMade = .ok h ∧
    Throughout sampleEnv (Balanced sampleEnv) h [.enter (sampleCall 17 34 0 [])] := by
  have heval : (sampleMade.toOption.bind fun h =>
      (step sampleEnv true h (.enter (sampleCall 17 34 0 []))).map fun h' =>
        (h.coinTransferrings.map TransferInfo.amount, h'.coinTransferrings.map TransferInfo.amount))
      = some ([0], [0]) := by decide +kernel
  obtain ⟨h, hmade, hstep⟩ := Option.bind_eq_some_iff.mp heval
  obtain ⟨h', hs, hcoins⟩ := Option.map_eq_some_iff.mp hstep
  obtain ⟨hz, hz'⟩ := Prod.mk.inj hcoins
  have hzero : ∀ coins : List TransferInfo, coins.map TransferInfo.amount = [0] →
      ∀ e ∈ coins, e.amount = 0 := by
    intro coins hc e he
    have : e.amount ∈ coins.map TransferInfo.amount := List.mem_map_of_mem he
    rw [hc] at this
    exact List.mem_singleton.mp this
  have hmake := toOption_eq_some.mp hmade
  have hvalue : (sampleCall 17 34 0 []).amount = 0 := by decide
  refine ⟨h, hmake, ?_⟩
  refine (host_balance_iff sampleEnv .callContract (sampleAddr 51) (sampleAddr 17) 0 [0] h h' hmake
    [.enter (sampleCall 17 34 0 [])] (by rw [runEvents_single]; exact hs) ?_).mpr
      ⟨rfl, by simp only [List.mem_singleton, forall_eq]; exact hvalue⟩
  rw [throughout_cons hs, throughout_nil]
  exact ⟨inRange_of_zero (hzero _ hz), inRange_of_zero (hzero _ hz')⟩

/-- A contract that has paid all its ten coins still sees a balance of ten. -/
theorem host_balance_fails : ∃ h h', sampleMade = .ok h ∧
    runEvents sampleEnv true h [.enter (sampleCall 17 34 10 [])] = some h' ∧
    InRange sampleEnv h' ∧ ¬ Balanced sampleEnv h' := by
  have heval : (sampleMade.toOption.bind fun h =>
      (runEvents sampleEnv true h [.enter (sampleCall 17 34 10 [])]).map fun h' =>
        (h'.coinTransferrings, balanceOf sampleEnv h' (sampleAddr 17)))
      = some ([⟨sampleEnv.addrString (sampleAddr 51), sampleEnv.addrString (sampleAddr 17), 0⟩,
        ⟨sampleEnv.addrString (sampleAddr 17), sampleEnv.addrString (sampleAddr 34), 10⟩], 10) := by
    decide +kernel
  obtain ⟨h, hmade, hrun⟩ := Option.bind_eq_some_iff.mp heval
  obtain ⟨h', hrun, heq⟩ := Option.map_eq_some_iff.mp hrun
  obtain ⟨hcoins, hbal⟩ := Prod.mk.inj heq
  have hU : (sampleEnv.balanceByUtxo (sampleEnv.addrString (sampleAddr 17))).toNat = 10 := by
    decide +kernel
  refine ⟨h, h', toOption_eq_some.mp hmade, hrun, fun a => ?_, fun hb => ?_⟩
  · have hle : (sampleEnv.balanceByUtxo (sampleEnv.addrString a)).toNat ≤ 10 := by
      simp only [sampleEnv]
      split_ifs <;> decide
    rw [hcoins]
    simp only [incoming_cons, outgoing_cons, incoming_nil, outgoing_nil, UInt64.toNat_zero, ite_self,
      zero_add, add_zero]
    have h10 : (10 : UInt64).toNat = 10 := rfl
    by_cases ha : sampleEnv.addrString (sampleAddr 17) = sampleEnv.addrString a
    · rw [← ha, hU, h10]
      split_ifs <;> omega
    · rw [if_neg ha, h10]
      split_ifs <;> omega
  · have := hb (sampleAddr 17)
    rw [hbal, hU, hcoins] at this
    revert this
    decide +kernel

end Tfs.Evm
