import Tfs.Ca.Utxo

/-! Which outputs `TxHelper::FindUtxo` selects (`ca/txhelper.cpp`), where everything it reads is there.

    The outputs of the addresses are told apart by address and hash. Sorted by falling values, as many as are
    needed are taken from the front, so that none that stays behind is larger than one that is taken. -/

namespace Tfs.Ca
open Tfs.Db

/-! ### What can be selected -/

/-- What tells outputs apart. -/
def Utxo.key (u : Utxo) : Str × Str := (u.addr, u.hash)

section Held
variable (db : DBReader) (fromAddr : List Str)

/-- The hashes stored for an address. -/
def hashsOf (addr : Str) : List Str := (db.getUtxoHashsByAddress addr).toOption.getD []

/-- The distinct pairs of an address and one of its hashes. -/
def heldKeys : Finset (Str × Str) := fromAddr.toFinset.biUnion fun addr => (hashsOf db addr).toFinset.image (Prod.mk addr)

/-- The value of an output. -/
def keyValue (key : Str × Str) : UInt64 := (utxoValue db key.1 key.2).getD 0

/-- The addresses are different, all that `FindUtxo` reads is in the store, and the values add up to less than
    `2 ^ 63`. -/
structure Readable : Prop where
  distinct : fromAddr.Nodup
  hashs : ∀ addr ∈ fromAddr, (db.getUtxoHashsByAddress addr).toOption.isSome
  values : ∀ key ∈ heldKeys db fromAddr, (utxoValue db key.1 key.2).isSome
  small : ∑ key ∈ heldKeys db fromAddr, (keyValue db key).toNat < 2 ^ 63

/-- The largest outputs are selected, as many as are needed or there are, none of them twice, and `total` is
    what they are worth. -/
structure SelectsLargest (needUtxoAmount : ℕ) (total : UInt64) (setOutUtxos : List Utxo) : Prop where
  worth : total.toNat = utxosValue setOutUtxos
  count : setOutUtxos.length = min (heldKeys db fromAddr).card needUtxoAmount
  held : ∀ u ∈ setOutUtxos, u.key ∈ heldKeys db fromAddr ∧ u.value = keyValue db u.key
  largest : ∀ u ∈ setOutUtxos, ∀ key ∈ heldKeys db fromAddr, key ∉ setOutUtxos.map Utxo.key → keyValue db key ≤ u.value
  nodup : (setOutUtxos.map Utxo.key).Nodup

end Held

/-! ### The outputs in the order of the loops -/

section Collect
variable {db : DBReader}

/-- The output of a pair. -/
def utxoAt (db : DBReader) (key : Str × Str) : Utxo := ⟨keyValue db key, key.1, key.2, 0⟩

@[simp] theorem key_utxoAt (key : Str × Str) : (utxoAt db key).key = key := rfl

/-- The pairs in the order of the loops. -/
def keysInOrder (db : DBReader) (fromAddr : List Str) : List (Str × Str) :=
  fromAddr.flatMap fun addr => (sortedSet (hashsOf db addr)).map (Prod.mk addr)

theorem keysInOrder_cons (addr : Str) (fromAddr : List Str) : keysInOrder db (addr :: fromAddr) =
    (sortedSet (hashsOf db addr)).map (Prod.mk addr) ++ keysInOrder db fromAddr := rfl

theorem mem_keysInOrder {fromAddr : List Str} {key : Str × Str} :
    key ∈ keysInOrder db fromAddr ↔ key ∈ heldKeys db fromAddr := by
  simp only [keysInOrder, heldKeys, List.mem_flatMap, List.mem_map, mem_sortedSet, Finset.mem_biUnion, List.mem_toFinset,
    Finset.mem_image]

/-- No pair comes twice. -/
theorem nodup_keysInOrder : ∀ {fromAddr : List Str}, fromAddr.Nodup → (keysInOrder db fromAddr).Nodup
  | [], _ => List.nodup_nil
  | addr :: rest, h => by
    obtain ⟨hnot, hrest⟩ := List.nodup_cons.mp h
    have hhere : ((sortedSet (hashsOf db addr)).map (Prod.mk addr)).Nodup :=
      (sortedSet_nodup _).map (Prod.mk_right_injective addr)
    refine hhere.append (nodup_keysInOrder hrest) fun key hkey hlater => ?_
    obtain ⟨hash, -, rfl⟩ := List.mem_map.mp hkey
    obtain ⟨addr', haddr', hin⟩ := List.mem_flatMap.mp hlater
    obtain ⟨hash', -, heq⟩ := List.mem_map.mp hin
    cases heq
    exact hnot haddr'

/-- The inner loop, when every value can be read. -/
theorem utxosOf_eq (addr : Str) : ∀ {hashs : List Str}, (∀ hash ∈ hashs, (utxoValue db addr hash).isSome) →
    utxosOf db addr hashs = .ok (hashs.map fun hash => utxoAt db (addr, hash))
  | [], _ => rfl
  | hash :: rest, h => by
    obtain ⟨hhash, hrest⟩ := List.forall_mem_cons.mp h
    obtain ⟨value, hvalue⟩ := Option.isSome_iff_exists.mp hhash
    have hkey : keyValue db (addr, hash) = value := by rw [keyValue, hvalue, Option.getD_some]
    rw [utxoValue] at hvalue
    obtain ⟨balance, hbalance, hparse⟩ := Option.bind_eq_some_iff.mp hvalue
    rw [utxosOf]
    split
    · next status hread =>
      rw [hread] at hbalance
      cases hbalance
    · next stored hread =>
      rw [hread] at hbalance
      cases hbalance
      rw [hparse, utxosOf_eq addr hrest, List.map_cons, utxoAt, hkey]
      rfl

/-- The outer loop, when everything can be read. -/
theorem allUtxos_eq : ∀ {fromAddr : List Str}, (∀ addr ∈ fromAddr, (db.getUtxoHashsByAddress addr).toOption.isSome) →
    (∀ key ∈ keysInOrder db fromAddr, (utxoValue db key.1 key.2).isSome) →
    allUtxos db fromAddr = .ok ((keysInOrder db fromAddr).map (utxoAt db))
  | [], _, _ => rfl
  | addr :: rest, hread, hvalue => by
    obtain ⟨haddr, hrest⟩ := List.forall_mem_cons.mp hread
    rw [keysInOrder_cons] at hvalue
    obtain ⟨hhere, hlater⟩ := List.forall_mem_append.mp hvalue
    have hutxos : utxosOf db addr (sortedSet (hashsOf db addr)) = _ :=
      utxosOf_eq addr fun hash hhash => hhere _ (List.mem_map_of_mem hhash)
    rw [allUtxos]
    split
    · next status herror =>
      rw [herror] at haddr
      cases haddr
    · next hashs hok =>
      have hhashs : hashs = hashsOf db addr := by rw [hashsOf, hok]; rfl
      rw [hhashs, hutxos, allUtxos_eq hrest hlater, keysInOrder_cons, List.map_append, List.map_map]
      rfl

end Collect

/-! ### The front of the sorted outputs -/

/-- The filling loop takes as many outputs from the front as are needed. -/
theorem fillUtxos_perm (need : ℕ) : ∀ (us : List Utxo) (total : UInt64) (set : List Utxo), set.length ≤ need →
    (fillUtxos need us total set).2.Perm (us.take (need - set.length) ++ set)
  | [], total, set, _ => by
    rw [fillUtxos, List.take_nil]
    exact .refl _
  | it :: rest, total, set, h => by
    rw [fillUtxos]
    split_ifs with hfull
    · rw [hfull, Nat.sub_self]
      exact .refl _
    · have hlength : (insertUtxo it set).length = set.length + 1 := (insertUtxo_perm it set).length_eq
      obtain ⟨k, hk⟩ : ∃ k, need - set.length = k + 1 := ⟨need - set.length - 1, by omega⟩
      have hrest := fillUtxos_perm need rest (total + it.value) (insertUtxo it set) (by omega)
      rw [hlength, show need - (set.length + 1) = k by omega] at hrest
      rw [hk, List.take_succ_cons, List.cons_append]
      exact hrest.trans (((insertUtxo_perm it set).append_left _).trans List.perm_middle)

/-- Where none are needed, none are taken. -/
theorem fillUtxos_zero (us : List Utxo) : fillUtxos 0 us 0 [] = (0, []) := by
  cases us with
  | nil => rfl
  | cons it rest => rw [fillUtxos, if_pos List.length_nil]

/-- In an order, what is taken from the front comes before all the rest. -/
theorem rel_of_take {α : Type} {r : α → α → Prop} {l : List α} (hl : l.Pairwise r) {k : ℕ} {a b : α} (ha : a ∈ l.take k)
    (hb : b ∈ l) (hnot : b ∉ l.take k) : r a b := by
  rw [← List.take_append_drop k l] at hl hb
  exact (List.pairwise_append.mp hl).2.2 a ha b ((List.mem_append.mp hb).resolve_left hnot)

/-! ### The selection -/

section Selection
variable {env : UtxoEnv} {fromAddr : List Str} {need : ℕ} {total : UInt64} {set : List Utxo}

/-- A selection from the outputs that can be selected is worth no more than all of them. -/
theorem utxosValue_le {db : DBReader} (hheld : ∀ u ∈ set, u.key ∈ heldKeys db fromAddr ∧ u.value = keyValue db u.key)
    (hnodup : (set.map Utxo.key).Nodup) :
    utxosValue set ≤ ∑ key ∈ heldKeys db fromAddr, (keyValue db key).toNat := by
  have hsum : utxosValue set = ∑ key ∈ (set.map Utxo.key).toFinset, (keyValue db key).toNat := by
    rw [List.sum_toFinset _ hnodup, List.map_map, utxosValue]
    exact congrArg List.sum (List.map_congr_left fun u hu => by rw [(hheld u hu).2]; rfl)
  rw [hsum]
  refine Finset.sum_le_sum_of_subset fun key hkey => ?_
  obtain ⟨u, hu, rfl⟩ := List.mem_map.mp (List.mem_toFinset.mp hkey)
  exact (hheld u hu).1

/-- What the filling loop takes from the front of the sorted outputs. -/
theorem selectsLargest_fillUtxos (h : Readable env.db fromAddr) (need : ℕ) {us : List Utxo}
    (hus : us = env.sortUtxos.sort ((keysInOrder env.db fromAddr).map (utxoAt env.db))) :
    SelectsLargest env.db fromAddr need (fillUtxos need us 0 []).1 (fillUtxos need us 0 []).2 := by
  have hsorted : us.Perm ((keysInOrder env.db fromAddr).map (utxoAt env.db)) := hus ▸ env.sortUtxos.perm _
  have htaken : (fillUtxos need us 0 []).2.Perm (us.take need) := by
    simpa using fillUtxos_perm need us 0 [] (Nat.zero_le _)
  have hkeys : (us.map Utxo.key).Perm (keysInOrder env.db fromAddr) := by
    simpa [Function.comp_def] using hsorted.map Utxo.key
  have hheld : ∀ u ∈ (fillUtxos need us 0 []).2, u.key ∈ heldKeys env.db fromAddr ∧ u.value = keyValue env.db u.key := by
    intro u hu
    obtain ⟨key, hkey, rfl⟩ := List.mem_map.mp (hsorted.mem_iff.mp (List.mem_of_mem_take (htaken.mem_iff.mp hu)))
    exact ⟨mem_keysInOrder.mp hkey, rfl⟩
  have hnodup : ((fillUtxos need us 0 []).2.map Utxo.key).Nodup := by
    rw [(htaken.map Utxo.key).nodup_iff]
    exact ((List.take_sublist need us).map Utxo.key).nodup (hkeys.nodup_iff.mpr (nodup_keysInOrder h.distinct))
  refine ⟨?_, ?_, hheld, ?_, hnodup⟩
  · have hmod := (fillUtxos_spec need us 0 [] rfl).1
    have hle := utxosValue_le hheld hnodup
    have hsmall := h.small
    rw [hmod, Nat.mod_eq_of_lt (by omega)]
  · have hcard : (heldKeys env.db fromAddr).card = us.length := by
      have hfinset : heldKeys env.db fromAddr = (keysInOrder env.db fromAddr).toFinset :=
        Finset.ext fun key => by rw [List.mem_toFinset, mem_keysInOrder]
      rw [hfinset, List.toFinset_card_of_nodup (nodup_keysInOrder h.distinct), ← hkeys.length_eq, List.length_map]
    rw [htaken.length_eq, List.length_take, hcard, min_comm]
  · intro u hu key hkey hnot
    have hin : utxoAt env.db key ∈ us := hsorted.mem_iff.mpr (List.mem_map_of_mem (mem_keysInOrder.mpr hkey))
    have hout : utxoAt env.db key ∉ us.take need := fun htake =>
      hnot (List.mem_map.mpr ⟨_, htaken.mem_iff.mpr htake, rfl⟩)
    have horder : us.Pairwise fun u1 u2 => u2.value ≤ u1.value := hus ▸ env.sortUtxos.sorted _
    exact rel_of_take horder (htaken.mem_iff.mp hu) hin hout

/-- `FindUtxo` selects the largest outputs, and fails only when the network does not confirm them. -/
theorem findUtxo_selects_largest (h : Readable env.db fromAddr) (needUtxoAmount : ℕ) (isFindUtxo : Bool) :
    ∃ total setOutUtxos, SelectsLargest env.db fromAddr needUtxoAmount total setOutUtxos ∧
      findUtxo env fromAddr needUtxoAmount isFindUtxo =
        if isFindUtxo && env.sendConfirmUtxoHashReq setOutUtxos != 0 then .error (.ret (-2)) else .ok (total, setOutUtxos) := by
  refine ⟨_, _, selectsLargest_fillUtxos h needUtxoAmount rfl, ?_⟩
  have hall := allUtxos_eq h.hashs fun key hkey => h.values key (mem_keysInOrder.mp hkey)
  have hfill : (if 0 < needUtxoAmount then
        fillUtxos needUtxoAmount (env.sortUtxos.sort ((keysInOrder env.db fromAddr).map (utxoAt env.db))) 0 []
      else (0, [])) =
      fillUtxos needUtxoAmount (env.sortUtxos.sort ((keysInOrder env.db fromAddr).map (utxoAt env.db))) 0 [] := by
    split_ifs with hneed
    · rfl
    · obtain rfl : needUtxoAmount = 0 := by omega
      exact (fillUtxos_zero _).symm
  rw [findUtxo, hall]
  show Except.bind _ _ = _
  simp only [Except.bind, hfill, Exit.when]
  split_ifs
  · rfl
  · rfl

end Selection

/-- An address `A` with an output `h` of 3 and an output `i` of 5. -/
def twoOutputs : UtxoEnv where
  db := ⟨fun key =>
    if key = kAddress2UtxoKey ++ [65] then .found [104, 95, 105]
    else if key = [65, 95, 104] then .found [51]
    else if key = [65, 95, 105] then .found [53]
    else .notFound⟩
  sortUtxos := .insertion
  sendConfirmUtxoHashReq := fun _ => 0

/-- One of the two outputs is selected. -/
theorem larger_of_two : ∃ total setOutUtxos, SelectsLargest twoOutputs.db [[65]] 1 total setOutUtxos ∧
    findUtxo twoOutputs [[65]] 1 false =
      if false && twoOutputs.sendConfirmUtxoHashReq setOutUtxos != 0 then .error (.ret (-2)) else .ok (total, setOutUtxos) :=
  findUtxo_selects_largest ⟨by decide, by decide, by decide, by decide⟩ 1 false

end Tfs.Ca
