import Tfs.Ca.Utxo
import Tfs.Lib.Double
import Tfs.Lib.Sorted
import Tfs.Lib.Tally

/-! Whether other nodes have the outputs that are to be spent (`GetRandomNodeLists` and
    `TxHelper::SendConfirmUtxoHashReq` in `ca/txhelper.cpp`).

    A hash is confirmed by every entry of an answer that flags it. A hash that is asked for twice is flagged
    twice by one node, which then counts for two. -/

namespace Tfs.Ca.ConfirmUtxo

/-! ### The functions -/

/-- `Node`, with what is used here. -/
structure Node where
  address : Str
  height : UInt64
  deriving DecidableEq

/-- `message CorresHash`. -/
structure CorresHash where
  flag : Int32
  hash : Str
  deriving DecidableEq

/-- An element of `ret_datas`: the `flaghash` of a `GetUtxoHashAck`, or none where it cannot be parsed. -/
abbrev RetData := Option (List CorresHash)

/-- What a call meets. Of every node of the list, the answer that is there when `WaitData` returns. -/
structure ConfirmEnv where
  nodelist : List Node
  distinct : (nodelist.map Node.address).Nodup
  /-- `GetBlockTop` -/
  top : Option UInt64
  /-- `std::shuffle` -/
  shuffle : List Node → List Node
  shuffle_perm : ∀ l, (shuffle l).Perm l
  createWait : Bool
  addResNode : Str → Bool
  waitData : Bool
  answer : Str → Option RetData

/-- `GetRandomNodeLists`. -/
def ConfirmEnv.getRandomNodeLists (env : ConfirmEnv) : Except ℤ (List Node) :=
  if env.nodelist = [] then .error (-1)
  else match env.top with
    | none => .error (-2)
    | some height =>
      let filterHeightNodeLists := env.nodelist.filter fun item => item.height ≥ height
      let sendNum := if filterHeightNodeLists.length ≥ 100 then 100 else filterHeightNodeLists.length
      if sendNum = 0 then .error (-3) else .ok ((env.shuffle filterHeightNodeLists).take sendNum)

/-- `txFlagHashs`, in the order of the multimap. -/
def txFlagHashs (retDatas : List RetData) : List (Str × Int32) :=
  ((retDatas.filterMap id).flatten.map fun item => (item.hash, item.flag)).insertionSort fun a b => a.1 ≤ b.1

/-- One item of the multimap is counted for the hash it names. -/
def countItem (successHash : List (Str × UInt32)) (item : Str × Int32) : List (Str × UInt32) :=
  successHash.map fun success =>
    if item.2 = 1 ∧ item.1 = success.1 then (success.1, success.2 + 1) else success

/-- `rate - 0.5 < 0`. Without any answers `rate` is no number, and the comparison is false. -/
def rateTooLow (success : UInt32) (retDatas : ℕ) : Bool :=
  retDatas ≠ 0 ∧ toDouble (success.toNat / retDatas) - 1 / 2 < 0

/-- `TxHelper::SendConfirmUtxoHashReq`, once the answers are there. -/
def countAnswers (retDatas : List RetData) (setOutUtxos : List Utxo) : ℤ :=
  let successHash := (sortedSet (setOutUtxos.map Utxo.hash)).map fun hash => (hash, 0)
  let successHash := (txFlagHashs retDatas).foldl countItem successHash
  if successHash.any fun success => rateTooLow success.2 retDatas.length then -5 else 0

/-- `ret_datas`. -/
def ConfirmEnv.retDatas (env : ConfirmEnv) (randomNodeLists : List Node) : List RetData :=
  randomNodeLists.filterMap fun node => env.answer node.address

/-- `TxHelper::SendConfirmUtxoHashReq`. -/
def ConfirmEnv.sendConfirmUtxoHashReq (env : ConfirmEnv) (setOutUtxos : List Utxo) : ℤ :=
  match env.getRandomNodeLists with
  | .error _ => -1
  | .ok randomNodeLists =>
    if ! env.createWait then -2
    else if randomNodeLists.any fun node => ! env.addResNode node.address then -3
    else if ! env.waitData then -4
    else countAnswers (env.retDatas randomNodeLists) setOutUtxos

/-! ### The counts -/

section Counts
variable (retDatas : List RetData) (hash : Str)

/-- The entries of all answers that flag the hash. -/
def entries : ℕ := (retDatas.filterMap id).flatten.count ⟨1, hash⟩

/-- The answers that flag the hash. -/
def confirmations : ℕ := (retDatas.filterMap id).countP fun flaghash => ⟨1, hash⟩ ∈ flaghash

/-- At least half of the answers flag the hash. -/
def ConfirmedByHalf : Prop := retDatas.length ≤ 2 * confirmations retDatas hash

/-- The entries, in a counter of 32 bits, come to half the number of answers. -/
def CountedForHalf : Prop := retDatas.length ≤ 2 * (entries retDatas hash % 2 ^ 32)

variable {retDatas hash}

/-- The loop over the multimap counts the items of every hash. -/
theorem foldl_countItem : ∀ (items : List (Str × Int32)) (successHash : List (Str × UInt32)),
    items.foldl countItem successHash = successHash.map fun success =>
      (success.1, success.2 + UInt32.ofNat (items.count (success.1, 1)))
  | [], successHash => by simp
  | item :: items, successHash => by
    rw [List.foldl_cons, foldl_countItem items, countItem, List.map_map]
    refine List.map_congr_left fun success _ => ?_
    rw [Function.comp_apply, List.count_cons]
    by_cases heq : item.2 = 1 ∧ item.1 = success.1
    · have hitem : item = (success.1, 1) := Prod.ext heq.2 heq.1
      rw [if_pos heq, if_pos (beq_iff_eq.mpr hitem), UInt32.ofNat_add, UInt32.add_comm (UInt32.ofNat _), UInt32.add_assoc]
      rfl
    · have hitem : ¬ item = (success.1, 1) := fun h => heq ⟨congrArg Prod.snd h, congrArg Prod.fst h⟩
      rw [if_neg heq, if_neg (by simpa using hitem), Nat.add_zero]

theorem count_txFlagHashs : (txFlagHashs retDatas).count (hash, 1) = entries retDatas hash := by
  have hinj : Function.Injective fun item : CorresHash => (item.hash, item.flag) := by
    rintro ⟨flag, hash⟩ ⟨flag', hash'⟩ h
    cases h
    rfl
  rw [txFlagHashs, (List.perm_insertionSort _ _).count_eq]
  exact List.count_map_of_injective _ _ hinj ⟨1, hash⟩

/-- The test on the rate compares without a rounding error. -/
theorem rateTooLow_iff {success : UInt32} {n : ℕ} (hn : n ≤ 2 ^ 53) : rateTooLow success n ↔ 2 * success.toNat < n := by
  rw [rateTooLow, decide_eq_true_eq, sub_neg]
  constructor
  · rintro ⟨hne, hlt⟩
    exact (toDouble_div_lt_half_iff (Nat.pos_of_ne_zero hne) hn).mp hlt
  · intro hlt
    exact ⟨by omega, (toDouble_div_lt_half_iff (by omega) hn).mpr hlt⟩

/-- The call succeeds when every hash is counted for half. -/
theorem countAnswers_eq_zero (hsmall : retDatas.length ≤ 2 ^ 53) {setOutUtxos : List Utxo} :
    countAnswers retDatas setOutUtxos = 0 ↔ ∀ u ∈ setOutUtxos, CountedForHalf retDatas u.hash := by
  have hcount (hash : Str) : rateTooLow (0 + UInt32.ofNat ((txFlagHashs retDatas).count (hash, 1))) retDatas.length ↔
      ¬ CountedForHalf retDatas hash := by
    rw [rateTooLow_iff hsmall, count_txFlagHashs, UInt32.zero_add, UInt32.toNat_ofNat', CountedForHalf, not_le]
  rw [countAnswers]
  rw [foldl_countItem, List.map_map, List.any_map]
  show (if (sortedSet (setOutUtxos.map Utxo.hash)).any fun hash =>
      rateTooLow (0 + UInt32.ofNat ((txFlagHashs retDatas).count (hash, 1))) retDatas.length then -5 else (0 : ℤ)) = 0 ↔ _
  have hany : ((sortedSet (setOutUtxos.map Utxo.hash)).any fun hash =>
      rateTooLow (0 + UInt32.ofNat ((txFlagHashs retDatas).count (hash, 1))) retDatas.length) ↔
      ∃ u ∈ setOutUtxos, ¬ CountedForHalf retDatas u.hash := by
    simp only [List.any_eq_true, mem_sortedSet, List.mem_map, hcount, exists_exists_and_eq_and]
  constructor
  · intro hzero u hu
    by_contra hnot
    rw [if_pos (hany.mpr ⟨u, hu, hnot⟩)] at hzero
    cases hzero
  · intro hall
    refine if_neg fun h => ?_
    obtain ⟨u, hu, hnot⟩ := hany.mp h
    exact hnot (hall u hu)

variable (retDatas hash) in
/-- The entries that flag the hash once more in an answer that has flagged it already. -/
def repetitions : ℕ := ((retDatas.filterMap id).map fun flaghash => flaghash.count ⟨1, hash⟩ - 1).sum

/-- An entry is the first of its answer, or a repetition. -/
theorem entries_eq : entries retDatas hash = confirmations retDatas hash + repetitions retDatas hash := by
  rw [entries, confirmations, repetitions]
  induction retDatas.filterMap id with
  | nil => rfl
  | cons flaghash acks ih =>
    rw [List.flatten_cons, List.count_append, ih, List.countP_cons, List.map_cons, List.sum_cons]
    by_cases hin : (⟨1, hash⟩ : CorresHash) ∈ flaghash
    · have := List.count_pos_iff.mpr hin
      rw [if_pos (decide_eq_true hin)]
      omega
    · rw [if_neg (by simpa using hin), List.count_eq_zero.mpr hin]
      omega

variable (retDatas hash) in
/-- Fewer than half of the answers flag the hash, and with the repetitions, in a counter of 32 bits, it comes to
    half. -/
def LiftedByRepetition : Prop :=
  2 * confirmations retDatas hash < retDatas.length ∧
    retDatas.length ≤ 2 * ((confirmations retDatas hash + repetitions retDatas hash) % 2 ^ 32)

/-- That is all there is between the two counts. -/
theorem liftedByRepetition_iff : LiftedByRepetition retDatas hash ↔
    CountedForHalf retDatas hash ∧ ¬ ConfirmedByHalf retDatas hash := by
  rw [LiftedByRepetition, CountedForHalf, ConfirmedByHalf, entries_eq, not_le, and_comm]

/-- No hash is lifted where no answer has an entry twice. -/
theorem not_lifted_of_nodup (h : ∀ flaghash, some flaghash ∈ retDatas → flaghash.Nodup) :
    ¬ LiftedByRepetition retDatas hash := by
  have hzero : repetitions retDatas hash = 0 := by
    refine List.sum_eq_zero fun n hn => ?_
    obtain ⟨flaghash, hin, rfl⟩ := List.mem_map.mp hn
    have hone := List.nodup_iff_count_le_one.mp (h flaghash (by simpa using hin)) ⟨1, hash⟩
    omega
  rw [LiftedByRepetition, hzero, Nat.add_zero]
  rintro ⟨hfew, hmany⟩
  have := Nat.mod_le (confirmations retDatas hash) (2 ^ 32)
  omega

end Counts

/-! ### Half of the nodes that answered -/

/-- The request goes out to the nodes, and enough answers come in. -/
structure ConfirmEnv.Answered (env : ConfirmEnv) (randomNodeLists : List Node) : Prop where
  nodes : env.getRandomNodeLists = .ok randomNodeLists
  createWait : env.createWait
  addResNode : ∀ node ∈ randomNodeLists, env.addResNode node.address
  waitData : env.waitData

section Half
variable {env : ConfirmEnv} {randomNodeLists : List Node}

/-- At most a hundred nodes are asked. -/
theorem ConfirmEnv.length_retDatas_le (h : env.getRandomNodeLists = .ok randomNodeLists) :
    (env.retDatas randomNodeLists).length ≤ 100 := by
  refine (List.length_filterMap_le _ _).trans ?_
  rw [getRandomNodeLists] at h
  split_ifs at h
  split at h
  · cases h
  · dsimp only at h
    split_ifs at h
    · cases h
      rw [List.length_take]
      omega
    · cases h
      rw [List.length_take]
      omega

/-- Zero is returned when the answers are there and count every hash for half. -/
theorem ConfirmEnv.send_eq_zero {setOutUtxos : List Utxo} : env.sendConfirmUtxoHashReq setOutUtxos = 0 ↔
    ∃ nodes, env.Answered nodes ∧ ∀ u ∈ setOutUtxos, CountedForHalf (env.retDatas nodes) u.hash := by
  rw [sendConfirmUtxoHashReq]
  split
  · next code herror =>
    refine iff_of_false (by decide) ?_
    rintro ⟨nodes, ⟨hnodes, -, -, -⟩, -⟩
    cases herror.symm.trans hnodes
  · next nodes hok =>
    have hsmall : (env.retDatas nodes).length ≤ 2 ^ 53 := (length_retDatas_le hok).trans (by norm_num)
    constructor
    · intro hzero
      split_ifs at hzero with hcreate hadd hwait
      refine ⟨nodes, ⟨hok, by simpa using hcreate, by simpa using hadd, by simpa using hwait⟩, ?_⟩
      exact (countAnswers_eq_zero hsmall).mp hzero
    · rintro ⟨nodes', ⟨hnodes, hcreate, hadd, hwait⟩, hall⟩
      cases hok.symm.trans hnodes
      rw [if_neg (by simpa using hcreate), if_neg (by simpa using hadd), if_neg (by simpa using hwait)]
      exact (countAnswers_eq_zero hsmall).mpr hall

end Half

/-- Whatever is asked for, zero is returned only if half of the nodes that answered confirm it, exactly when
    repetitions lift no hash to half of the answers. -/
theorem confirmed_by_half_iff (env : ConfirmEnv) :
    (∀ setOutUtxos nodes, env.getRandomNodeLists = .ok nodes → env.sendConfirmUtxoHashReq setOutUtxos = 0 →
      ∀ u ∈ setOutUtxos, ConfirmedByHalf (env.retDatas nodes) u.hash) ↔
    ∀ nodes, env.Answered nodes → ∀ hash, ¬ LiftedByRepetition (env.retDatas nodes) hash := by
  constructor
  · intro hall nodes hanswered hash hlifted
    obtain ⟨hcounted, hnot⟩ := liftedByRepetition_iff.mp hlifted
    have hone : ∀ u ∈ [(⟨0, [], hash, 0⟩ : Utxo)], CountedForHalf (env.retDatas nodes) u.hash := by simpa using hcounted
    have hzero := ConfirmEnv.send_eq_zero.mpr ⟨nodes, hanswered, hone⟩
    exact hnot (hall _ nodes hanswered.nodes hzero _ (List.mem_singleton_self _))
  · intro hall setOutUtxos nodes hnodes hzero u hu
    obtain ⟨nodes', hanswered, hcounted⟩ := ConfirmEnv.send_eq_zero.mp hzero
    cases hnodes.symm.trans hanswered.nodes
    by_contra hnot
    exact hall nodes hanswered u.hash (liftedByRepetition_iff.mpr ⟨hcounted u hu, hnot⟩)

/-- Three nodes answer. The hash is asked for twice, for two owners of outputs of one transaction, and only the
    first node has it. -/
def twoOwners : ConfirmEnv where
  nodelist := [⟨[1], 5⟩, ⟨[2], 5⟩, ⟨[3], 5⟩]
  distinct := by decide
  top := some 5
  shuffle := id
  shuffle_perm := List.Perm.refl
  createWait := true
  addResNode _ := true
  waitData := true
  answer address := some (some (if address = [1] then [⟨1, [9]⟩, ⟨1, [9]⟩] else [⟨0, [9]⟩, ⟨0, [9]⟩]))

/-- One node of three is enough. -/
theorem third_confirms : twoOwners.sendConfirmUtxoHashReq [⟨1, [65], [9], 0⟩, ⟨1, [66], [9], 0⟩] = 0 ∧
    ¬ ConfirmedByHalf (twoOwners.retDatas twoOwners.nodelist) [9] := by
  constructor
  · refine ConfirmEnv.send_eq_zero.mpr ⟨twoOwners.nodelist, ⟨rfl, rfl, fun _ _ => rfl, rfl⟩, ?_⟩
    simp only [CountedForHalf]
    decide
  · simp only [ConfirmedByHalf]
    decide

end Tfs.Ca.ConfirmUtxo
