import Tfs.Ca.BroadcastPool
import Tfs.Lib.Sorted

/-! Double spends between transactions (`Checker::CheckConflict` in `ca/checker.cpp`).

    What a transaction spends is compared as texts, previous hash and address of the signing key.
    An input of a contract is not signed: its owner stands in a field of its own, which the comparison
    does not read, so that all such inputs have the address of the empty key. Inside of a block the
    transactions are pooled under these texts, and all but the earliest of a pool are reported; unstake
    and disinvest transactions are let out of the pools in part. -/

namespace Tfs.Ca
open Sorted

/-- `kTxTypeUnstake` and `kTxTypeDisinvest`. -/
def kTxTypeUnstake : UInt32 := 3
def kTxTypeDisinvest : UInt32 := 5

namespace Checker
variable {δ : Type} (env : HelperEnv δ)

/-! ### Two transactions -/

/-- `Checker::CheckConflict(tx1, tx2)`. -/
def checkConflict (tx1 tx2 : CTransaction) : Bool :=
  let vec1 := (spentUtxos env tx1).insertionSort (· ≤ ·)
  let vec2 := (spentUtxos env tx2).insertionSort (· ≤ ·)
  ! (setIntersection vec1 vec2).isEmpty

/-- The owner of an input: the contract it belongs to, or who signs it. -/
def vinOwner (vin : CTxInput) : Str :=
  if vin.contractAddr = [] then env.generateAddr (vinPub vin) else vin.contractAddr

/-- The previous hashes of an input. -/
def prevHashes (vin : CTxInput) : List Str := vin.prevOut.map CTxPrevOutput.hash

/-- What a transaction spends: previous hashes with their owners. -/
def spentPairs (tx : CTransaction) : List (Str × Str) :=
  tx.utxo.vin.flatMap fun vin => (prevHashes vin).map (·, vinOwner env vin)

/-- The pairs of inputs of two transactions with a previous hash in common. -/
def sharedInputs (tx1 tx2 : CTransaction) : List (CTxInput × CTxInput) :=
  (tx1.utxo.vin ×ˢ tx2.utxo.vin).filter fun v => (prevHashes v.1).any (· ∈ prevHashes v.2)

/-- One of the two is an input of a contract. -/
def OfContract (v : CTxInput × CTxInput) : Prop := v.1.contractAddr ≠ [] ∨ v.2.contractAddr ≠ []

instance (v : CTxInput × CTxInput) : Decidable (OfContract v) := inferInstanceAs (Decidable (_ ∨ _))

/-- Inputs of contracts that share a previous hash neither agree in their keys alone, nor in their owners
    alone, unless other inputs make up for it. -/
def ContractInputsClear (tx1 tx2 : CTransaction) : Prop :=
  (∀ v ∈ sharedInputs tx1 tx2, OfContract v → vinPub v.1 = vinPub v.2 →
    ∃ w ∈ sharedInputs tx1 tx2, vinOwner env w.1 = vinOwner env w.2) ∧
  ∀ v ∈ sharedInputs tx1 tx2, OfContract v → vinOwner env v.1 = vinOwner env v.2 →
    ∃ w ∈ sharedInputs tx1 tx2, vinPub w.1 = vinPub w.2

instance (tx1 tx2 : CTransaction) : Decidable (ContractInputsClear env tx1 tx2) :=
  inferInstanceAs (Decidable (_ ∧ _))

/-- The signing keys of a transaction. -/
def signingKeys (tx : CTransaction) : List Str := tx.utxo.vin.map vinPub

variable {env}

theorem checkConflict_eq (tx1 tx2 : CTransaction) :
    checkConflict env tx1 tx2 = checkConflictTx env tx1 tx2 := by
  rw [Bool.eq_iff_iff, checkConflictTx, List.any_eq_true, checkConflict]
  simp only [Bool.not_eq_true', List.isEmpty_eq_false_iff_exists_mem, decide_eq_true_eq]
  refine exists_congr fun utxo => ?_
  rw [mem_setIntersection (List.pairwise_insertionSort _ _) (List.pairwise_insertionSort _ _),
    List.mem_insertionSort, List.mem_insertionSort]

theorem mem_sharedInputs {tx1 tx2 : CTransaction} {v : CTxInput × CTxInput} :
    v ∈ sharedInputs tx1 tx2 ↔ v.1 ∈ tx1.utxo.vin ∧ v.2 ∈ tx2.utxo.vin ∧
      ∃ hash ∈ prevHashes v.1, hash ∈ prevHashes v.2 := by
  rw [sharedInputs, List.mem_filter, List.any_eq_true]
  simp only [decide_eq_true_eq]
  exact (and_congr_left' List.pair_mem_product).trans and_assoc

theorem mem_spentUtxos {tx : CTransaction} {utxo : Str} : utxo ∈ spentUtxos env tx ↔
    ∃ vin ∈ tx.utxo.vin, ∃ hash ∈ prevHashes vin,
      hash ++ str "_" ++ env.generateAddr (vinPub vin) = utxo := by
  simp [spentUtxos, prevHashes]

theorem mem_spentPairs {tx : CTransaction} {x : Str × Str} : x ∈ spentPairs env tx ↔
    ∃ vin ∈ tx.utxo.vin, ∃ hash ∈ prevHashes vin, (hash, vinOwner env vin) = x := by
  simp only [spentPairs, List.mem_flatMap, List.mem_map]

/-- Addresses of one length do not run into the hash before them. -/
theorem utxo_inj (hlen : ∀ pub, (env.generateAddr pub).length = 40) {hash hash' pub pub' : Str}
    (h : hash ++ str "_" ++ env.generateAddr pub = hash' ++ str "_" ++ env.generateAddr pub') :
    hash = hash' ∧ env.generateAddr pub = env.generateAddr pub' := by
  obtain ⟨hleft, hright⟩ := List.append_inj' h ((hlen pub).trans (hlen pub').symm)
  exact ⟨List.append_cancel_right hleft, hright⟩

/-- The conflict that is found: two inputs share a previous hash and their key. -/
theorem checkConflict_iff (hlen : ∀ pub, (env.generateAddr pub).length = 40) {tx1 tx2 : CTransaction}
    (hinj : Set.InjOn env.generateAddr {pub | pub ∈ signingKeys tx1 ++ signingKeys tx2}) :
    checkConflict env tx1 tx2 = true ↔ ∃ v ∈ sharedInputs tx1 tx2, vinPub v.1 = vinPub v.2 := by
  rw [checkConflict_eq, checkConflictTx, List.any_eq_true]
  simp only [decide_eq_true_eq, mem_spentUtxos]
  constructor
  · rintro ⟨utxo, ⟨vin, hvin, hash, hhash, rfl⟩, vin', hvin', hash', hhash', heq⟩
    obtain ⟨rfl, haddr⟩ := utxo_inj hlen heq
    refine ⟨(vin, vin'), mem_sharedInputs.mpr ⟨hvin, hvin', hash', hhash, hhash'⟩, ?_⟩
    exact (hinj (List.mem_append_right _ (List.mem_map_of_mem hvin'))
      (List.mem_append_left _ (List.mem_map_of_mem hvin)) haddr).symm
  · rintro ⟨⟨vin, vin'⟩, hv, hpub⟩
    obtain ⟨hvin, hvin', hash, hhash, hhash'⟩ := mem_sharedInputs.mp hv
    exact ⟨_, ⟨vin, hvin, hash, hhash, rfl⟩, vin', hvin', hash, hhash', by rw [hpub]⟩

/-- The conflict that is meant: two inputs share a previous hash and their owner. -/
theorem exists_spentPairs_iff {tx1 tx2 : CTransaction} :
    (∃ x ∈ spentPairs env tx1, x ∈ spentPairs env tx2) ↔
      ∃ v ∈ sharedInputs tx1 tx2, vinOwner env v.1 = vinOwner env v.2 := by
  simp only [mem_spentPairs]
  constructor
  · rintro ⟨x, ⟨vin, hvin, hash, hhash, rfl⟩, vin', hvin', hash', hhash', heq⟩
    obtain ⟨rfl, howner⟩ := Prod.mk.inj heq
    exact ⟨(vin, vin'), mem_sharedInputs.mpr ⟨hvin, hvin', hash', hhash, hhash'⟩, howner.symm⟩
  · rintro ⟨⟨vin, vin'⟩, hv, howner⟩
    obtain ⟨hvin, hvin', hash, hhash, hhash'⟩ := mem_sharedInputs.mp hv
    exact ⟨_, ⟨vin, hvin, hash, hhash, rfl⟩, vin', hvin', hash, hhash', by rw [howner]⟩

/-- Inputs of users have the same key exactly when they have the same owner. -/
theorem vinOwner_eq_iff {tx1 tx2 : CTransaction}
    (hinj : Set.InjOn env.generateAddr {pub | pub ∈ signingKeys tx1 ++ signingKeys tx2})
    {v : CTxInput × CTxInput} (hv : v ∈ sharedInputs tx1 tx2) (huser : ¬ OfContract v) :
    vinOwner env v.1 = vinOwner env v.2 ↔ vinPub v.1 = vinPub v.2 := by
  obtain ⟨hvin, hvin', -⟩ := mem_sharedInputs.mp hv
  obtain ⟨h1, h2⟩ := not_or.mp huser
  rw [vinOwner, vinOwner, if_pos (not_not.mp h1), if_pos (not_not.mp h2)]
  refine ⟨fun h => hinj ?_ ?_ h, congrArg _⟩
  · exact List.mem_append_left _ (List.mem_map_of_mem hvin)
  · exact List.mem_append_right _ (List.mem_map_of_mem hvin')

/-- Two transactions conflict exactly when they spend a pair of previous hash and owner in common, if and
    only if no inputs of contracts are taken for one another or missed. -/
theorem conflict_is_common_spending_iff (env : HelperEnv δ)
    (hlen : ∀ pub, (env.generateAddr pub).length = 40) (tx1 tx2 : CTransaction)
    (hinj : Set.InjOn env.generateAddr {pub | pub ∈ signingKeys tx1 ++ signingKeys tx2}) :
    (checkConflict env tx1 tx2 = true ↔ ∃ x ∈ spentPairs env tx1, x ∈ spentPairs env tx2) ↔
      ContractInputsClear env tx1 tx2 := by
  rw [checkConflict_iff hlen hinj, exists_spentPairs_iff]
  constructor
  · intro h
    exact ⟨fun v hv _ hpub => h.mp ⟨v, hv, hpub⟩, fun v hv _ howner => h.mpr ⟨v, hv, howner⟩⟩
  · rintro ⟨hmerged, hmissed⟩
    constructor
    · rintro ⟨v, hv, hpub⟩
      by_cases hc : OfContract v
      · exact hmerged v hv hc hpub
      · exact ⟨v, hv, (vinOwner_eq_iff hinj hv hc).mpr hpub⟩
    · rintro ⟨v, hv, howner⟩
      by_cases hc : OfContract v
      · exact hmissed v hv hc howner
      · exact ⟨v, hv, (vinOwner_eq_iff hinj hv hc).mp howner⟩

/-- `GenerateAddr` on the empty key and on two others. -/
def sampleAddr (pub : Str) : Str :=
  match [(str "", str "dcc703c0E500B653Ca82273B7BFAd8045D85a470"),
      (str "A", str "592Ee30E61d65F471140c10cA155E937b435B760"),
      (str "B", str "4eA945C36C41e7b4fcEF307b7CD4D0E602a69111")].find? fun e => e.1 = pub with
  | some e => e.2
  | none => List.replicate 40 48

theorem sampleAddr_length (pub : Str) : (sampleAddr pub).length = 40 := by
  unfold sampleAddr
  split
  · rename_i e he
    have hmem := List.mem_of_find?_eq_some he
    simp only [List.mem_cons, List.not_mem_nil, or_false] at hmem
    rcases hmem with rfl | rfl | rfl <;> decide
  · rfl

def sampleCheckerEnv : HelperEnv Unit := { sampleHelperEnv with generateAddr := sampleAddr }

/-- An input that the owner of a key signs, and one of a contract. -/
def signedVin (pub hash : String) : CTxInput := ⟨[⟨str hash, 0⟩], some ⟨str "sign", str pub⟩, 0, []⟩
def contractVin (contract hash : String) : CTxInput := ⟨[⟨str hash, 0⟩], none, 0, str contract⟩

def spendingTx (vin : List CTxInput) : CTransaction :=
  { CTransaction.cleared with utxo := { CTxUtxo.cleared with vin := vin } }

/-- A user and a contract spend twice. -/
theorem conflict_is_common_spending_mixed :
    checkConflict sampleCheckerEnv (spendingTx [signedVin "A" "u", contractVin "X" "w"])
        (spendingTx [contractVin "X" "w", signedVin "A" "u", signedVin "B" "v"]) = true ↔
      ∃ x ∈ spentPairs sampleCheckerEnv (spendingTx [signedVin "A" "u", contractVin "X" "w"]),
        x ∈ spentPairs sampleCheckerEnv
          (spendingTx [contractVin "X" "w", signedVin "A" "u", signedVin "B" "v"]) := by
  have hkeys : ∀ pub ∈ [str "A", str "", str "", str "A", str "B"],
      ∀ pub' ∈ [str "A", str "", str "", str "A", str "B"], sampleAddr pub = sampleAddr pub' → pub = pub' := by
    decide
  refine (conflict_is_common_spending_iff sampleCheckerEnv sampleAddr_length _ _ ?_).mpr (by decide)
  exact fun pub hpub pub' hpub' => hkeys pub hpub pub' hpub'

/-- Two contracts that a transaction has paid to spend what they own: a conflict is reported, though they
    spend nothing in common. -/
theorem contracts_taken_for_one_another : ¬ (
    checkConflict sampleCheckerEnv (spendingTx [contractVin "X" "w"]) (spendingTx [contractVin "Y" "w"])
        = true ↔
      ∃ x ∈ spentPairs sampleCheckerEnv (spendingTx [contractVin "X" "w"]),
        x ∈ spentPairs sampleCheckerEnv (spendingTx [contractVin "Y" "w"])) := by
  decide +kernel

/-! ### The transactions of a block -/

section Block
variable (env : HelperEnv δ)

/-- Previous hashes with the addresses of the signing keys. -/
def signedPairs (tx : CTransaction) : List (Str × Str) :=
  tx.utxo.vin.flatMap fun vin => (prevHashes vin).map (·, env.generateAddr (vinPub vin))

/-- All that the transactions of a block spend, in the order in which the loops meet it. -/
def blockSpends (block : CBlock) : List (CTransaction × (Str × Str)) :=
  block.txs.flatMap fun tx => (signedPairs env tx).map (tx, ·)

/-- `prevout.hash() + "_" + GenerateAddr(..)`. -/
def utxoText (x : Str × Str) : Str := x.1 ++ str "_" ++ x.2

/-- The body of the loops: what is spent goes into a pool, unless the transaction is let out of it. -/
def poolSpend (transactionPool : SortedMap Str (List CTransaction)) (spend : CTransaction × (Str × Str)) :
    SortedMap Str (List CTransaction) :=
  let utxo := utxoText spend.2
  -- `&&` binds closer than `||`: a disinvest transaction is let out also where it would be the first
  if (transactionPool.find utxo).isSome ∧ spend.1.txType = kTxTypeUnstake
      ∨ spend.1.txType = kTxTypeDisinvest then transactionPool
  else transactionPool.upsert utxo fun txs => txs.getD [] ++ [spend.1]

/-- `Checker::CheckConflict(block, doubleSpentTransactions)` on an empty vector. -/
def checkConflictBlock (sortByTime : List CTransaction → List CTransaction) (block : CBlock) :
    List CTransaction :=
  ((blockSpends env block).foldl poolSpend .empty).entries.flatMap fun e =>
    if 1 < e.2.length then (sortByTime e.2).tail else []

/-- The transactions of a block that are not reported. -/
def remainingTxs (reported : List CTransaction) (block : CBlock) : List CTransaction :=
  block.txs.filter fun tx => tx.hash ∉ reported.map CTransaction.hash

end Block

/-- Unstake and disinvest transactions. -/
def Exempt (tx : CTransaction) : Prop := tx.txType = kTxTypeUnstake ∨ tx.txType = kTxTypeDisinvest

instance (tx : CTransaction) : Decidable (Exempt tx) := inferInstanceAs (Decidable (_ ∨ _))

/-- What ends up in the pool of a text: some of the transactions that spend it, in order, and all of them
    that are not exempt. -/
theorem pool_find (utxo : Str) : ∀ (spends : List (CTransaction × (Str × Str)))
    (m : SortedMap Str (List CTransaction)), ∃ l,
      ((spends.foldl poolSpend m).find utxo).getD [] = (m.find utxo).getD [] ++ l ∧
      l.Sublist ((spends.filter fun e => utxoText e.2 = utxo).map Prod.fst) ∧
      ((spends.filter fun e => utxoText e.2 = utxo ∧ ¬ Exempt e.1).map Prod.fst).Sublist l := by
  intro spends
  induction spends with
  | nil => exact fun m => ⟨[], by simp, by simp, by simp⟩
  | cons e spends ih =>
    intro m
    obtain ⟨l, hl, hsub, hall⟩ := ih (poolSpend m e)
    rw [List.foldl_cons, hl]
    by_cases hskip : (m.find (utxoText e.2)).isSome ∧ e.1.txType = kTxTypeUnstake
        ∨ e.1.txType = kTxTypeDisinvest
    · have hex : Exempt e.1 := hskip.imp And.right id
      rw [poolSpend, if_pos hskip]
      refine ⟨l, rfl, ?_, ?_⟩
      · rw [List.filter_cons]
        split_ifs
        · exact hsub.cons _
        · exact hsub
      · rwa [List.filter_cons_of_neg (by simp [hex])]
    · rw [poolSpend, if_neg hskip, SortedMap.find_upsert]
      by_cases hkey : utxo = utxoText e.2
      · refine ⟨e.1 :: l, by simp [hkey], ?_, ?_⟩
        · rw [List.filter_cons_of_pos (by simpa using hkey.symm)]
          exact hsub.cons_cons _
        · rw [List.filter_cons]
          split_ifs
          · exact hall.cons_cons _
          · exact hall.cons _
      · have hne : ¬ utxoText e.2 = utxo := fun h => hkey h.symm
        rw [if_neg hkey, List.filter_cons_of_neg (by simpa using hne),
          List.filter_cons_of_neg (by simp [hne])]
        exact ⟨l, rfl, hsub, hall⟩

section Reported
variable {sortByTime : List CTransaction → List CTransaction} {block : CBlock}

/-- The pool of a text once the loops are through. -/
theorem blockPool_find (env : HelperEnv δ) (block : CBlock) (utxo : Str) : ∃ l,
    (((blockSpends env block).foldl poolSpend .empty).find utxo).getD [] = l ∧
      l.Sublist (((blockSpends env block).filter fun e => utxoText e.2 = utxo).map Prod.fst) ∧
      (((blockSpends env block).filter fun e => utxoText e.2 = utxo ∧ ¬ Exempt e.1).map Prod.fst).Sublist l := by
  obtain ⟨l, hl, hrest⟩ := pool_find utxo (blockSpends env block) .empty
  have hempty : (SortedMap.empty : SortedMap Str (List CTransaction)).find utxo = none := rfl
  exact ⟨l, by simpa [hempty] using hl, hrest⟩

theorem mem_checkConflictBlock {t : CTransaction} : t ∈ checkConflictBlock env sortByTime block ↔
    ∃ utxo txs, ((blockSpends env block).foldl poolSpend .empty).find utxo = some txs ∧
      1 < txs.length ∧ t ∈ (sortByTime txs).tail := by
  rw [checkConflictBlock, List.mem_flatMap]
  constructor
  · rintro ⟨⟨utxo, txs⟩, he, ht⟩
    split_ifs at ht with hlen
    · exact ⟨utxo, txs, SortedMap.mem_iff_find.mp he, hlen, ht⟩
    · cases ht
  · rintro ⟨utxo, txs, hfind, hlen, ht⟩
    exact ⟨(utxo, txs), SortedMap.mem_iff_find.mpr hfind, by rwa [if_pos hlen]⟩

theorem mem_blockSpends {e : CTransaction × (Str × Str)} : e ∈ blockSpends env block ↔
    e.1 ∈ block.txs ∧ e.2 ∈ signedPairs env e.1 := by
  rw [blockSpends, List.mem_flatMap]
  constructor
  · rintro ⟨tx, htx, he⟩
    obtain ⟨x, hx, rfl⟩ := List.mem_map.mp he
    exact ⟨htx, hx⟩
  · rintro ⟨htx, hx⟩
    exact ⟨e.1, htx, List.mem_map_of_mem hx⟩

theorem utxoText_inj (hlen : ∀ pub, (env.generateAddr pub).length = 40) {tx tx' : CTransaction}
    {x x' : Str × Str} (hx : x ∈ signedPairs env tx) (hx' : x' ∈ signedPairs env tx')
    (h : utxoText x = utxoText x') : x = x' := by
  obtain ⟨vin, -, hmem⟩ := List.mem_flatMap.mp hx
  obtain ⟨hash, -, rfl⟩ := List.mem_map.mp hmem
  obtain ⟨vin', -, hmem'⟩ := List.mem_flatMap.mp hx'
  obtain ⟨hash', -, rfl⟩ := List.mem_map.mp hmem'
  obtain ⟨rfl, haddr⟩ := utxo_inj hlen h
  rw [haddr]

/-- Of two places of a list that hold `t` and `t'`, at most one is its head. -/
theorem mem_tail_of_subperm {α : Type} {t t' : α} {l : List α} (h : [t, t'].Subperm l) :
    t ∈ l.tail ∨ t' ∈ l.tail := by
  classical
  cases l with
  | nil => exact absurd (h.subset List.mem_cons_self) List.not_mem_nil
  | cons t₀ rest =>
    rw [List.tail_cons]
    by_contra hno
    obtain ⟨ht, ht'⟩ := not_or.mp hno
    obtain rfl : t = t₀ := (List.mem_cons.mp (h.subset List.mem_cons_self)).resolve_right ht
    obtain rfl : t' = t := (List.mem_cons.mp (h.subset (by simp))).resolve_right ht'
    have hcount := h.count_le t'
    rw [List.count_cons_self, List.count_cons_self, List.count_cons_self,
      List.count_eq_zero_of_not_mem ht] at hcount
    simp at hcount

/-- Two transactions at different places that spend one pair and are not exempt: one of them is
    reported. -/
theorem reported_of_common (hperm : ∀ txs, (sortByTime txs).Perm txs) {t t' : CTransaction}
    (hsub : [t, t'].Sublist block.txs) (ht : ¬ Exempt t) (ht' : ¬ Exempt t') {x : Str × Str}
    (hx : x ∈ signedPairs env t) (hx' : x ∈ signedPairs env t') :
    t ∈ checkConflictBlock env sortByTime block ∨ t' ∈ checkConflictBlock env sortByTime block := by
  have hspends : [(t, x), (t', x)].Sublist (blockSpends env block) := by
    refine List.Sublist.trans ?_ (hsub.flatMap _)
    simp only [List.flatMap_cons, List.flatMap_nil, List.append_nil]
    exact (List.singleton_sublist.mpr (List.mem_map_of_mem hx)).append
      (List.singleton_sublist.mpr (List.mem_map_of_mem hx'))
  obtain ⟨l, hl, -, hall⟩ := blockPool_find env block (utxoText x)
  have hboth : [t, t'].Sublist l := by
    refine List.Sublist.trans ?_ hall
    have hfilter := (hspends.filter fun e => utxoText e.2 = utxoText x ∧ ¬ Exempt e.1).map Prod.fst
    simpa [ht, ht'] using hfilter
  have hlong : 1 < l.length := hboth.length_le
  have hfind : ((blockSpends env block).foldl poolSpend .empty).find (utxoText x) = some l := by
    cases hf : ((blockSpends env block).foldl poolSpend .empty).find (utxoText x) with
    | some txs => simpa [hf] using hl
    | none =>
      have hnil : l = [] := by simpa [hf] using hl.symm
      rw [hnil] at hlong
      cases hlong
  have htail := mem_tail_of_subperm (hboth.subperm.trans (hperm l).symm.subperm)
  exact htail.imp (fun h => mem_checkConflictBlock.mpr ⟨_, l, hfind, hlong, h⟩)
    fun h => mem_checkConflictBlock.mpr ⟨_, l, hfind, hlong, h⟩

/-- A reported transaction spends a pair that is spent at a second place of the block, in a transaction
    that is not later. -/
theorem spent_twice_of_reported (hlen : ∀ pub, (env.generateAddr pub).length = 40)
    (hperm : ∀ txs, (sortByTime txs).Perm txs)
    (hsorted : ∀ txs, (sortByTime txs).Pairwise fun a b => a.time ≤ b.time) {t : CTransaction}
    (ht : t ∈ checkConflictBlock env sortByTime block) :
    ∃ t' x, t'.time ≤ t.time ∧ [(t', x), (t, x)].Subperm (blockSpends env block) := by
  obtain ⟨utxo, txs, hfind, -, htail⟩ := mem_checkConflictBlock.mp ht
  obtain ⟨l, hl, hsub, -⟩ := blockPool_find env block utxo
  obtain rfl : txs = l := by simpa [hfind] using hl
  obtain ⟨t₀, rest, hsort⟩ : ∃ t₀ rest, sortByTime txs = t₀ :: rest := by
    cases h : sortByTime txs with
    | nil => rw [h] at htail; cases htail
    | cons t₀ rest => exact ⟨t₀, rest, rfl⟩
  rw [hsort, List.tail_cons] at htail
  have htime : t₀.time ≤ t.time := by
    have := hsorted txs
    rw [hsort] at this
    exact List.rel_of_pairwise_cons this htail
  have hpool : [t₀, t].Subperm (((blockSpends env block).filter fun e => utxoText e.2 = utxo).map Prod.fst) := by
    refine List.Subperm.trans ?_ hsub.subperm
    refine List.Subperm.trans ?_ (hsort ▸ hperm txs).subperm
    exact ((List.singleton_sublist.mpr htail).cons_cons t₀).subperm
  -- all that is pooled under the text spends one pair
  obtain ⟨e, he, -⟩ := List.mem_map.mp (hpool.subset List.mem_cons_self)
  obtain ⟨hmem, htext⟩ := List.mem_filter.mp he
  have hpair : (((blockSpends env block).filter fun e => utxoText e.2 = utxo).map Prod.fst).map (·, e.2)
      = (blockSpends env block).filter fun e => utxoText e.2 = utxo := by
    rw [List.map_map]
    conv_rhs => rw [← List.map_id ((blockSpends env block).filter _)]
    refine List.map_congr_left fun e' he' => ?_
    obtain ⟨hmem', htext'⟩ := List.mem_filter.mp he'
    have hsame : utxoText e.2 = utxoText e'.2 :=
      (of_decide_eq_true htext).trans (of_decide_eq_true htext').symm
    rw [Function.comp_apply, id_eq,
      utxoText_inj hlen (mem_blockSpends.mp hmem).2 (mem_blockSpends.mp hmem').2 hsame]
  obtain ⟨pool, hpermPool, hsubPool⟩ := hpool
  refine ⟨t₀, e.2, htime, pool.map (·, e.2), hpermPool.map (·, e.2), ?_⟩
  have hmap := hsubPool.map (·, e.2)
  rw [hpair] at hmap
  exact hmap.trans List.filter_sublist

end Reported

/-- After the reported transactions are taken out of a block, no two of one type that is neither unstake
    nor disinvest spend one pair of previous hash and signer; and a reported transaction spends such a
    pair that is spent at a second place of the block, in a transaction that is not later. -/
theorem double_spends_reported (env : HelperEnv δ) (hlen : ∀ pub, (env.generateAddr pub).length = 40)
    (sortByTime : List CTransaction → List CTransaction) (hperm : ∀ txs, (sortByTime txs).Perm txs)
    (hsorted : ∀ txs, (sortByTime txs).Pairwise fun a b => a.time ≤ b.time) (block : CBlock) :
    ((remainingTxs (checkConflictBlock env sortByTime block) block).Pairwise fun t t' =>
      t.txType = t'.txType → ¬ Exempt t → ∀ x ∈ signedPairs env t, x ∉ signedPairs env t') ∧
    ∀ t ∈ checkConflictBlock env sortByTime block, ∃ t' x, t'.time ≤ t.time ∧
      [(t', x), (t, x)].Subperm (blockSpends env block) := by
  refine ⟨?_, fun t ht => spent_twice_of_reported hlen hperm hsorted ht⟩
  rw [List.pairwise_iff_forall_sublist]
  intro t t' hsub htype hex x hx hx'
  have hex' : ¬ Exempt t' := by
    rw [Exempt, ← htype]
    exact hex
  have hstays {tx : CTransaction} (htx : tx ∈ [t, t'])
      (hrep : tx ∈ checkConflictBlock env sortByTime block) : False := by
    have hkept := (List.mem_filter.mp (hsub.subset htx)).2
    exact absurd (List.mem_map_of_mem hrep) (by simpa using hkept)
  rcases reported_of_common hperm (hsub.trans List.filter_sublist) hex hex' hx hx' with hrep | hrep
  · exact hstays (by simp) hrep
  · exact hstays (by simp) hrep

/-- A sort by time. -/
def byTime (txs : List CTransaction) : List CTransaction := txs.insertionSort fun a b => a.time ≤ b.time

theorem byTime_sorted (txs : List CTransaction) : (byTime txs).Pairwise fun a b => a.time ≤ b.time := by
  have : Std.Total fun a b : CTransaction => a.time ≤ b.time := ⟨fun a b => UInt64.le_total a.time b.time⟩
  have : IsTrans CTransaction fun a b => a.time ≤ b.time := ⟨fun _ _ _ => UInt64.le_trans⟩
  exact List.pairwise_insertionSort _ txs

/-- A transaction of a block, with its hash, type and time. -/
def blockTx (hash : String) (txType : UInt32) (time : UInt64) (vin : List CTxInput) : CTransaction :=
  { spendingTx vin with hash := str hash, txType := txType, time := time }

def checkedBlock (txs : List CTransaction) : CBlock := ⟨9, str "b", str "p", 6, txs, []⟩

/-- Three transactions spend one output; two unstake transactions do; one transaction spends two outputs
    of another one. -/
def threeSpends : CBlock := checkedBlock [blockTx "1" 1 8 [signedVin "A" "u"],
  blockTx "2" 1 7 [signedVin "A" "u"], blockTx "3" 1 9 [signedVin "A" "u", signedVin "B" "v"]]
def twoUnstakes : CBlock :=
  checkedBlock [blockTx "1" 3 7 [signedVin "A" "u"], blockTx "2" 3 8 [signedVin "A" "u"]]
def twoOutputs : CBlock :=
  checkedBlock [blockTx "1" 1 7 [⟨[⟨str "u", 0⟩, ⟨str "u", 1⟩], some ⟨str "sign", str "A"⟩, 0, []⟩]]

theorem double_spends_reported_three :
    ((remainingTxs (checkConflictBlock sampleCheckerEnv byTime threeSpends) threeSpends).Pairwise
      fun t t' => t.txType = t'.txType → ¬ Exempt t →
        ∀ x ∈ signedPairs sampleCheckerEnv t, x ∉ signedPairs sampleCheckerEnv t') ∧
    ∀ t ∈ checkConflictBlock sampleCheckerEnv byTime threeSpends, ∃ t' x, t'.time ≤ t.time ∧
      [(t', x), (t, x)].Subperm (blockSpends sampleCheckerEnv threeSpends) :=
  double_spends_reported sampleCheckerEnv sampleAddr_length byTime
    (fun txs => List.perm_insertionSort _ txs) byTime_sorted threeSpends

/-- Both unstake transactions remain, and the transaction alone in its block is reported. -/
theorem unstake_remains_and_lone_reported :
    ¬ ((remainingTxs (checkConflictBlock sampleCheckerEnv byTime twoUnstakes) twoUnstakes).Pairwise
      fun t t' => t.txType = t'.txType →
        ∀ x ∈ signedPairs sampleCheckerEnv t, x ∉ signedPairs sampleCheckerEnv t') ∧
    checkConflictBlock sampleCheckerEnv byTime twoOutputs = twoOutputs.txs := by
  decide +kernel

end Checker

end Tfs.Ca
