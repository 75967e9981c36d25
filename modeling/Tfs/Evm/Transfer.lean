import Tfs.Basic

/-! Transfer netting inside one EVM run (`EvmHost::getContractTransfer`).

    The host keeps the list `coin_transferrings` of coin movements made so far and, when `fromAddr`
    pays `toAddr`, first re-routes coins that `fromAddr` received earlier: the earlier entry shrinks
    and a new entry leads from the original payer straight to `toAddr`. Only what cannot be covered
    that way leaves `fromAddr` itself. `DBspendMap` remembers the uncovered rest. The theorems are
    about net positions, incoming minus outgoing amounts of an address over the whole list. -/

namespace Tfs.Evm

/-- `TransferInfo`: `amount` moves from `fromAddr` to `toAddr`. -/
structure TransferInfo where
  fromAddr : Str
  toAddr : Str
  amount : UInt64
  deriving DecidableEq, Repr

/-- The locals of the loop in `getContractTransfer`: the amount still to be covered, `DBspendMap`
    and the output list `transferInfo`. -/
structure NettingState where
  amount : UInt64
  spend : StdMap Str UInt64
  info : List TransferInfo

/-- The `else` branch of the loop body: `iter` ends at `fromAddr` but is too small, so it is used up
    and the rest is charged to `DBspendMap[fromAddr]`. No entry is opened when `iter` was paid by
    `toAddr` itself. -/
def NettingState.partialMatch (fromAddr toAddr : Str) (iter : TransferInfo) (st : NettingState) :
    NettingState :=
  let info := if iter.fromAddr ≠ toAddr then st.info ++ [⟨iter.fromAddr, toAddr, iter.amount⟩]
    else st.info
  let amount := st.amount - iter.amount
  ⟨amount, st.spend.set fromAddr ((st.spend fromAddr).getD 0 + amount), info⟩

/-- The loop over `coin_transferrings`. Returns the list as updated in place, the locals, and
    whether the loop ended by itself or by `break` (`true`) or by `return -1` (`false`). -/
def nettingLoop (balance : Str → UInt64) (fromAddr toAddr : Str) :
    List TransferInfo → NettingState → List TransferInfo × NettingState × Bool
  | [], st => ([], st, true)
  | iter :: rest, st =>
    if iter.amount = 0 then
      let r := nettingLoop balance fromAddr toAddr rest st
      (iter :: r.1, r.2)
    else if iter.toAddr = fromAddr then
      if iter.amount ≥ st.amount then
        ({ iter with amount := iter.amount - st.amount } :: rest,
          { st with amount := 0, info := st.info ++ [⟨iter.fromAddr, toAddr, st.amount⟩] }, true)
      else
        let st' := st.partialMatch fromAddr toAddr iter
        if balance fromAddr < (st'.spend fromAddr).getD 0 then
          ({ iter with amount := 0 } :: rest, st', false)
        else
          let r := nettingLoop balance fromAddr toAddr rest st'
          ({ iter with amount := 0 } :: r.1, r.2)
    else
      let r := nettingLoop balance fromAddr toAddr rest st
      (iter :: r.1, r.2)

/-- What `getContractTransfer` leaves behind: the two ledgers, the output list, the return code. -/
structure TransferOutcome where
  coins : List TransferInfo
  spend : StdMap Str UInt64
  info : List TransferInfo
  ret : Int

/-- `EvmHost::getContractTransfer`, with `coins` = `coin_transferrings`, `spend` = `DBspendMap` and
    `balance` = what `GetBalanceByUtxo` reports. -/
def getContractTransfer (balance : Str → UInt64) (coins : List TransferInfo)
    (spend : StdMap Str UInt64) (amount : UInt64) (fromAddr toAddr : Str) : TransferOutcome :=
  if amount > 0 then
    match nettingLoop balance fromAddr toAddr coins ⟨amount, spend, []⟩ with
    | (coins', st, true) => ⟨coins', st.spend, st.info ++ [⟨fromAddr, toAddr, st.amount⟩], 0⟩
    | (coins', st, false) => ⟨coins', st.spend, st.info, -1⟩
  else ⟨coins, spend, [], 0⟩

/-! ### Incoming, outgoing and net amounts of an address -/

/-- Total of the amounts arriving at `a`. -/
def incoming (l : List TransferInfo) (a : Str) : ℕ :=
  (l.map fun e => if e.toAddr = a then e.amount.toNat else 0).sum

/-- Total of the amounts leaving `a`. -/
def outgoing (l : List TransferInfo) (a : Str) : ℕ :=
  (l.map fun e => if e.fromAddr = a then e.amount.toNat else 0).sum

/-- Net position of `a`: incoming minus outgoing, as an integer. -/
def netPosition (l : List TransferInfo) (a : Str) : ℤ := incoming l a - outgoing l a

@[simp] theorem incoming_nil (a : Str) : incoming [] a = 0 := rfl
@[simp] theorem outgoing_nil (a : Str) : outgoing [] a = 0 := rfl
@[simp] theorem netPosition_nil (a : Str) : netPosition [] a = 0 := rfl

@[simp] theorem incoming_cons (e : TransferInfo) (l : List TransferInfo) (a : Str) :
    incoming (e :: l) a = (if e.toAddr = a then e.amount.toNat else 0) + incoming l a := by
  simp [incoming]

@[simp] theorem outgoing_cons (e : TransferInfo) (l : List TransferInfo) (a : Str) :
    outgoing (e :: l) a = (if e.fromAddr = a then e.amount.toNat else 0) + outgoing l a := by
  simp [outgoing]

@[simp] theorem incoming_append (l l' : List TransferInfo) (a : Str) :
    incoming (l ++ l') a = incoming l a + incoming l' a := by simp [incoming]

@[simp] theorem outgoing_append (l l' : List TransferInfo) (a : Str) :
    outgoing (l ++ l') a = outgoing l a + outgoing l' a := by simp [outgoing]

theorem netPosition_append (l l' : List TransferInfo) (a : Str) :
    netPosition (l ++ l') a = netPosition l a + netPosition l' a := by
  simp only [netPosition, incoming_append, outgoing_append]; push_cast; ring

theorem netPosition_cons (e : TransferInfo) (l : List TransferInfo) (a : Str) :
    netPosition (e :: l) a = netPosition [e] a + netPosition l a :=
  netPosition_append [e] l a

theorem netPosition_single (e : TransferInfo) (a : Str) :
    netPosition [e] a = (if e.toAddr = a then (e.amount.toNat : ℤ) else 0)
      - (if e.fromAddr = a then (e.amount.toNat : ℤ) else 0) := by
  simp only [netPosition, incoming_cons, outgoing_cons, incoming_nil, outgoing_nil]
  split_ifs <;> simp

/-! ### The netting loop -/

/-- Covering `x` out of an entry that ends at `fromAddr` and opening an entry of `x` from its payer
    to `toAddr` moves exactly `x` from `fromAddr` to `toAddr`. -/
theorem netPosition_reroute (e : TransferInfo) (x : UInt64) (hx : x ≤ e.amount) (toAddr a : Str) :
    netPosition [{ e with amount := e.amount - x }, ⟨e.fromAddr, toAddr, x⟩] a
      = netPosition [e] a + (if toAddr = a then (x.toNat : ℤ) else 0)
        - (if e.toAddr = a then (x.toNat : ℤ) else 0) := by
  have hsub : (e.amount - x).toNat = e.amount.toNat - x.toNat := UInt64.toNat_sub_of_le _ _ hx
  have hle : x.toNat ≤ e.amount.toNat := UInt64.le_iff_toNat_le.mp hx
  rw [netPosition_cons]
  simp only [netPosition_single, hsub]
  split_ifs <;> omega

/-- Dropping an entry that leads from `toAddr` to `fromAddr` pays `toAddr` back its amount. -/
theorem netPosition_cancel (e : TransferInfo) (a : Str) :
    netPosition [{ e with amount := 0 }] a
      = netPosition [e] a + (if e.fromAddr = a then (e.amount.toNat : ℤ) else 0)
        - (if e.toAddr = a then (e.amount.toNat : ℤ) else 0) := by
  simp only [netPosition_single, UInt64.toNat_zero]
  split_ifs <;> omega

/-- Everything one iteration can do: skip the entry, cover the whole amount out of it and stop, or
    use it up, and then either fail the balance check or go on with the rest. -/
theorem nettingLoop_cons {balance : Str → UInt64} {fromAddr toAddr : Str} {iter : TransferInfo}
    {rest coins' : List TransferInfo} {st st' : NettingState} {ok : Bool}
    (h : nettingLoop balance fromAddr toAddr (iter :: rest) st = (coins', st', ok)) :
    ((iter.amount = 0 ∨ iter.toAddr ≠ fromAddr) ∧
      ∃ r, coins' = iter :: r ∧ nettingLoop balance fromAddr toAddr rest st = (r, st', ok)) ∨
    (iter.amount ≠ 0 ∧ iter.toAddr = fromAddr ∧ st.amount ≤ iter.amount ∧ ok = true ∧
      coins' = { iter with amount := iter.amount - st.amount } :: rest ∧
      st' = { st with amount := 0, info := st.info ++ [⟨iter.fromAddr, toAddr, st.amount⟩] }) ∨
    (iter.amount ≠ 0 ∧ iter.toAddr = fromAddr ∧ iter.amount < st.amount ∧
      ((balance fromAddr < ((st.partialMatch fromAddr toAddr iter).spend fromAddr).getD 0 ∧
          ok = false ∧ coins' = { iter with amount := 0 } :: rest ∧
          st' = st.partialMatch fromAddr toAddr iter) ∨
       (¬ balance fromAddr < ((st.partialMatch fromAddr toAddr iter).spend fromAddr).getD 0 ∧
          ∃ r, coins' = { iter with amount := 0 } :: r ∧
            nettingLoop balance fromAddr toAddr rest (st.partialMatch fromAddr toAddr iter)
              = (r, st', ok)))) := by
  simp only [nettingLoop] at h
  split_ifs at h with h0 hto hge hbal
  · simp only [Prod.mk.injEq] at h
    exact .inl ⟨.inl h0, _, h.1.symm, by rw [← h.2]⟩
  · simp only [Prod.mk.injEq] at h
    exact .inr (.inl ⟨h0, hto, hge, h.2.2.symm, h.1.symm, h.2.1.symm⟩)
  · simp only [Prod.mk.injEq] at h
    exact .inr (.inr ⟨h0, hto, UInt64.not_le.mp hge, .inl ⟨hbal, h.2.2.symm, h.1.symm, h.2.1.symm⟩⟩)
  · simp only [Prod.mk.injEq] at h
    exact .inr (.inr ⟨h0, hto, UInt64.not_le.mp hge, .inr ⟨hbal, _, h.1.symm, by rw [← h.2]⟩⟩)
  · simp only [Prod.mk.injEq] at h
    exact .inl ⟨.inr hto, _, h.1.symm, by rw [← h.2]⟩

/-- Using up an entry moves its amount from `fromAddr` to `toAddr`. -/
theorem partialMatch_net (fromAddr toAddr : Str) (iter : TransferInfo) (st : NettingState)
    (hto : iter.toAddr = fromAddr) (a : Str) :
    netPosition [{ iter with amount := 0 }] a
        + netPosition (st.partialMatch fromAddr toAddr iter).info a
      = netPosition [iter] a + netPosition st.info a
        + (if toAddr = a then (iter.amount.toNat : ℤ) else 0)
        - (if fromAddr = a then (iter.amount.toNat : ℤ) else 0) := by
  subst hto
  by_cases hpay : iter.fromAddr = toAddr
  · subst hpay
    rw [netPosition_cancel]; simp only [NettingState.partialMatch, ne_eq, not_true, if_false]; ring
  · have hr := netPosition_reroute iter iter.amount (UInt64.le_refl _) toAddr a
    rw [UInt64.sub_self, netPosition_cons] at hr
    simp only [NettingState.partialMatch, ne_eq, hpay, not_false_eq_true, if_true,
      netPosition_append]
    linarith

/-- What the loop has covered so far, `st.amount - st'.amount`, has moved from `fromAddr` to
    `toAddr`, and nothing else has moved. This holds on every exit of the loop. -/
theorem nettingLoop_net {balance : Str → UInt64} {fromAddr toAddr : Str} {coins : List TransferInfo}
    {st : NettingState} {coins' st' ok}
    (h : nettingLoop balance fromAddr toAddr coins st = (coins', st', ok)) :
    st'.amount ≤ st.amount ∧ ∀ a, netPosition coins' a + netPosition st'.info a
      = netPosition coins a + netPosition st.info a
        + (if toAddr = a then ((st.amount.toNat : ℤ) - st'.amount.toNat) else 0)
        - (if fromAddr = a then ((st.amount.toNat : ℤ) - st'.amount.toNat) else 0) := by
  induction coins generalizing st coins' st' ok with
  | nil =>
    simp only [nettingLoop, Prod.mk.injEq] at h
    obtain ⟨rfl, rfl, rfl⟩ := h
    exact ⟨UInt64.le_refl _, fun a => by simp⟩
  | cons iter rest ih =>
    rcases nettingLoop_cons h with ⟨-, r, rfl, hr⟩ | ⟨-, hto, hle, -, rfl, rfl⟩ |
      ⟨-, hto, hlt, hpart⟩
    · obtain ⟨hle, hnet⟩ := ih hr
      refine ⟨hle, fun a => ?_⟩
      have := hnet a
      rw [netPosition_cons, netPosition_cons iter rest]
      linarith
    · refine ⟨UInt64.zero_le, fun a => ?_⟩
      have := netPosition_reroute iter st.amount hle toAddr a
      subst hto
      rw [netPosition_cons] at this
      rw [netPosition_cons, netPosition_cons iter rest, netPosition_append]
      simp only [UInt64.toNat_zero, Nat.cast_zero, sub_zero]
      linarith
    · -- the entry is used up; afterwards the loop fails here or runs on from `partialMatch`
      have hsub : (st.partialMatch fromAddr toAddr iter).amount.toNat
          = st.amount.toNat - iter.amount.toNat := UInt64.toNat_sub_of_le _ _ (UInt64.le_of_lt hlt)
      have hltn : iter.amount.toNat < st.amount.toNat := UInt64.lt_iff_toNat_lt.mp hlt
      have hle' : (st.partialMatch fromAddr toAddr iter).amount ≤ st.amount := by
        rw [UInt64.le_iff_toNat_le, hsub]; omega
      rcases hpart with ⟨-, -, rfl, rfl⟩ | ⟨-, r, rfl, hr⟩
      · refine ⟨hle', fun a => ?_⟩
        have := partialMatch_net fromAddr toAddr iter st hto a
        rw [hsub, netPosition_cons, netPosition_cons iter rest]
        split_ifs at this ⊢ <;> omega
      · obtain ⟨hle, hnet⟩ := ih hr
        refine ⟨UInt64.le_trans hle hle', fun a => ?_⟩
        have hp := partialMatch_net fromAddr toAddr iter st hto a
        have hn := hnet a
        rw [hsub] at hn
        rw [netPosition_cons, netPosition_cons iter rest]
        split_ifs at hp hn ⊢ <;> omega

/-- `e'` is `e` after some of its amount was re-routed: same endpoints, no larger amount. A
    subtraction that wrapped around would make the amount larger. -/
def Shrunk (e e' : TransferInfo) : Prop :=
  e'.fromAddr = e.fromAddr ∧ e'.toAddr = e.toAddr ∧ e'.amount ≤ e.amount

theorem Shrunk.refl (e : TransferInfo) : Shrunk e e := ⟨rfl, rfl, UInt64.le_refl _⟩

theorem shrunk_sub (e : TransferInfo) {x : UInt64} (hx : x ≤ e.amount) :
    Shrunk e { e with amount := e.amount - x } :=
  ⟨rfl, rfl, UInt64.sub_le hx⟩

/-- The loop only ever shrinks entries, and opens no entry larger than the amount it was given. -/
theorem nettingLoop_shrinks {balance : Str → UInt64} {fromAddr toAddr : Str}
    {coins : List TransferInfo} {st : NettingState} {coins' st' ok}
    (h : nettingLoop balance fromAddr toAddr coins st = (coins', st', ok)) :
    List.Forall₂ Shrunk coins coins' ∧
      ∀ x, st.amount ≤ x → (∀ e ∈ st.info, e.amount ≤ x) → ∀ e ∈ st'.info, e.amount ≤ x := by
  induction coins generalizing st coins' st' ok with
  | nil =>
    simp only [nettingLoop, Prod.mk.injEq] at h
    obtain ⟨rfl, rfl, rfl⟩ := h
    exact ⟨.nil, fun x _ hi => hi⟩
  | cons iter rest ih =>
    have hrest : List.Forall₂ Shrunk rest rest := List.forall₂_same.mpr fun e _ => Shrunk.refl e
    have hzero : Shrunk iter { iter with amount := 0 } := ⟨rfl, rfl, UInt64.zero_le⟩
    rcases nettingLoop_cons h with ⟨-, r, rfl, hr⟩ | ⟨-, -, hle, -, rfl, rfl⟩ | ⟨-, -, hlt, hpart⟩
    · exact ⟨.cons (Shrunk.refl _) (ih hr).1, (ih hr).2⟩
    · refine ⟨.cons (shrunk_sub iter hle) hrest, fun x hx hi e he => ?_⟩
      rcases List.mem_append.mp he with he | he
      · exact hi e he
      · rw [List.mem_singleton.mp he]; exact hx
    · have hinfo : ∀ x, st.amount ≤ x → (∀ e ∈ st.info, e.amount ≤ x) →
          ∀ e ∈ (st.partialMatch fromAddr toAddr iter).info, e.amount ≤ x := by
        intro x hx hi e he
        simp only [NettingState.partialMatch] at he
        split_ifs at he with hpay
        · rcases List.mem_append.mp he with he | he
          · exact hi e he
          · rw [List.mem_singleton.mp he]; exact UInt64.le_trans (UInt64.le_of_lt hlt) hx
        · exact hi e he
      have hamt : (st.partialMatch fromAddr toAddr iter).amount ≤ st.amount :=
        UInt64.sub_le (UInt64.le_of_lt hlt)
      rcases hpart with ⟨-, -, rfl, rfl⟩ | ⟨-, r, rfl, hr⟩
      · exact ⟨.cons hzero hrest, hinfo⟩
      · exact ⟨.cons hzero (ih hr).1, fun x hx hi =>
          (ih hr).2 x (UInt64.le_trans hamt hx) (hinfo x hx hi)⟩

/-! ### One transfer -/

/-- What a successful transfer of a positive amount did: the loop ended, and the uncovered rest is
    the last entry of the output. -/
theorem getContractTransfer_ok {balance : Str → UInt64} {coins : List TransferInfo}
    {spend : StdMap Str UInt64} {amount : UInt64} {fromAddr toAddr : Str} (hpos : amount > 0)
    (hret : (getContractTransfer balance coins spend amount fromAddr toAddr).ret = 0) :
    ∃ coins' st, nettingLoop balance fromAddr toAddr coins ⟨amount, spend, []⟩ = (coins', st, true) ∧
      getContractTransfer balance coins spend amount fromAddr toAddr
        = ⟨coins', st.spend, st.info ++ [⟨fromAddr, toAddr, st.amount⟩], 0⟩ := by
  rw [getContractTransfer, if_pos hpos] at hret ⊢
  rcases hl : nettingLoop balance fromAddr toAddr coins ⟨amount, spend, []⟩ with ⟨coins', st, ok⟩
  rw [hl] at hret
  cases ok with
  | true => exact ⟨coins', st, rfl, rfl⟩
  | false => simp at hret

/-- A successful transfer moves `amount` from `fromAddr` to `toAddr` and nothing else. -/
theorem getContractTransfer_net {balance : Str → UInt64} {coins : List TransferInfo}
    {spend : StdMap Str UInt64} {amount : UInt64} {fromAddr toAddr : Str}
    (hret : (getContractTransfer balance coins spend amount fromAddr toAddr).ret = 0) (a : Str) :
    netPosition ((getContractTransfer balance coins spend amount fromAddr toAddr).coins
        ++ (getContractTransfer balance coins spend amount fromAddr toAddr).info) a
      = netPosition coins a + (if toAddr = a then (amount.toNat : ℤ) else 0)
        - (if fromAddr = a then (amount.toNat : ℤ) else 0) := by
  by_cases hpos : amount > 0
  · obtain ⟨coins', st, hl, hr⟩ := getContractTransfer_ok hpos hret
    obtain ⟨-, hnet⟩ := nettingLoop_net hl
    have := hnet a
    rw [hr]
    simp only [netPosition_append, netPosition_single, netPosition_nil, add_zero] at this ⊢
    split_ifs at this ⊢ <;> linarith
  · have hzero : amount = 0 := UInt64.le_zero_iff.mp (UInt64.not_lt.mp hpos)
    rw [getContractTransfer, if_neg hpos, hzero]
    simp

/-- Netting conserves positions: a successful transfer moves `amount` from `fromAddr` to `toAddr`,
    leaves every other address where it was, and no entry is driven below zero. -/
theorem getContractTransfer_conserves (balance : Str → UInt64) (coins : List TransferInfo)
    (spend : StdMap Str UInt64) (amount : UInt64) (fromAddr toAddr : Str) (hpos : amount > 0)
    (hret : (getContractTransfer balance coins spend amount fromAddr toAddr).ret = 0) :
    let r := getContractTransfer balance coins spend amount fromAddr toAddr
    (∀ a, netPosition (r.coins ++ r.info) a = netPosition coins a
        + (if toAddr = a then (amount.toNat : ℤ) else 0)
        - (if fromAddr = a then (amount.toNat : ℤ) else 0)) ∧
      List.Forall₂ Shrunk coins r.coins ∧ ∀ e ∈ r.info, e.amount ≤ amount := by
  obtain ⟨coins', st, hl, hr⟩ := getContractTransfer_ok hpos hret
  obtain ⟨hle, -⟩ := nettingLoop_net hl
  obtain ⟨hshrink, hinfo⟩ := nettingLoop_shrinks hl
  refine ⟨getContractTransfer_net hret, ?_, fun e he => ?_⟩
  · rw [hr]; exact hshrink
  · rw [hr] at he
    rcases List.mem_append.mp he with he | he
    · exact hinfo amount (UInt64.le_refl _) (by simp) e he
    · rw [List.mem_singleton.mp he]; exact hle

/-- Alice has 5 from Bob and 2 from Carol and pays Bob 6: Bob's entry is used up (and cancelled, since
    Bob is the payee), one coin is re-routed from Carol. -/
theorem getContractTransfer_conserves_partial :
    let bob := str "b"; let alice := str "a"; let carol := str "c"
    let coins : List TransferInfo := [⟨bob, alice, 5⟩, ⟨carol, alice, 2⟩]
    let r := getContractTransfer (fun _ => 10) coins StdMap.empty 6 alice bob
    r.ret = 0 ∧ netPosition (r.coins ++ r.info) alice = netPosition coins alice - 6 := by
  refine ⟨by decide, ?_⟩
  have h := (getContractTransfer_conserves (fun _ => 10)
    [⟨str "b", str "a", 5⟩, ⟨str "c", str "a", 2⟩] StdMap.empty 6 (str "a") (str "b") (by decide)
    (by decide)).1 (str "a")
  rw [if_neg (by decide), if_pos rfl, add_zero] at h
  exact h

end Tfs.Evm
