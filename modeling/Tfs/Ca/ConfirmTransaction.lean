import Tfs.Ca.ConfirmUtxo
import Tfs.Common.GlobalData
import Tfs.Lib.OrderedSet

/-! How sure a transaction is (`SendConfirmTransactionReq` in `ca/interface.cpp`).

    Every node that is high enough is asked for the transactions; ten of them, drawn at random, are
    to send the transaction along. The entries of all answers go into one multimap, and an entry
    with the flag 1 counts for the hash that it names. -/

namespace Tfs.Ca.ConfirmTransaction

open Tfs.Common
open ConfirmUtxo (Node CorresHash txFlagHashs countItem)

/-! ### The messages -/

/-- `ConfirmTransactionReq`. -/
structure ConfirmTransactionReq where
  txhash : List Str
  time : UInt64
  height : UInt64

/-- `CheckTxAck`, as far as it is read. -/
structure CheckTxAck where
  flaghash : List CorresHash
  addr : Str
  tx : Str

/-- `SuccessRate`. -/
structure SuccessRate where
  hash : Str
  rate : ℚ

/-- `ConfirmTransactionAck`. -/
structure ConfirmTransactionAck where
  version : Str
  message : Str
  time : UInt64
  percentage : List SuccessRate
  sendSize : UInt32
  receivedSize : UInt32
  tx : Str

def ConfirmTransactionAck.cleared : ConfirmTransactionAck := ⟨[], [], 0, [], 0, 0, []⟩

/-- What a call meets: the nodes, the numbers that are drawn, and the answers in the order in which
    they come. -/
structure ConfirmEnv where
  kVersion : Str
  nodelist : List Node
  /-- the number of nodes is an `int` -/
  small : nodelist.length < 2 ^ 31
  /-- what `u(engine)` gives, by the limit -/
  draws : ℕ → ℕ → ℕ
  draws_lt : ∀ limit, 0 < limit → ∀ i, draws limit i < limit
  msgId : Str
  createWait : Bool
  addResNode : Str → Bool
  answers : List (Str × Str)
  parseFromString : Str → Option CheckTxAck
  /-- the order in which an `unordered_map` with these keys is gone through -/
  unordered : List Str → List Str

/-! ### Ten numbers -/

/-- `std::set<int>`. -/
abbrev Numbers : Type := StdSet fun a b : ℕ => a < b

/-- The loop of `getRandomNumbers`, from the draw `i` on, with so many draws left; `none` if they do
    not suffice. -/
def drawNumbers (draws : ℕ → ℕ) : ℕ → ℕ → Numbers → Option Numbers
  | 0, _, uniqueNumbers => if uniqueNumbers.elems.length < 10 then none else some uniqueNumbers
  | left + 1, i, uniqueNumbers =>
    if uniqueNumbers.elems.length < 10 then drawNumbers draws left (i + 1) (uniqueNumbers.insert (draws i))
    else some uniqueNumbers

/-- `getRandomNumbers`. -/
def getRandomNumbers (draws : ℕ → ℕ) (left : ℕ) : Option (List ℕ) :=
  (drawNumbers draws left 0 .empty).map StdSet.elems

section Draws
variable {draws : ℕ → ℕ}

theorem mem_insert_iff {s : Numbers} {x z : ℕ} : z ∈ s.insert x ↔ z = x ∨ z ∈ s := by
  have hequiv : ∀ y, StdSet.Equiv (fun a b : ℕ => a < b) x y ↔ x = y := fun y =>
    ⟨fun h => le_antisymm (not_lt.mp h.2) (not_lt.mp h.1), fun h => by simp [StdSet.Equiv, h]⟩
  simp only [StdSet.mem_insert, hequiv]
  constructor
  · rintro (h | ⟨h, -⟩)
    · exact .inr h
    · exact .inl h
  · rintro (rfl | h)
    · by_cases hmem : z ∈ s
      · exact .inl hmem
      · exact .inr ⟨rfl, fun y hy heq => hmem (heq ▸ hy)⟩
    · exact .inl h

theorem nodup_elems (s : Numbers) : s.elems.Nodup := s.sorted.imp fun h => h.ne

/-- An insertion adds one element at most. -/
theorem length_insert_le (s : Numbers) (x : ℕ) : (s.insert x).elems.length ≤ s.elems.length + 1 := by
  have hsub : (s.insert x).elems ⊆ x :: s.elems := fun z hz => List.mem_cons.mpr (mem_insert_iff.mp hz)
  exact ((nodup_elems _).subperm hsub).length_le

/-- Draws that do not suffice: all of them are in the set, and it is too small. -/
theorem drawNumbers_eq_none : ∀ {left i : ℕ} {s : Numbers}, drawNumbers draws left i s = none →
    ∃ t : Numbers, t.elems.length < 10 ∧ (∀ x ∈ s, x ∈ t) ∧ ∀ j < left, draws (i + j) ∈ t
  | 0, i, s, h => by
    rw [drawNumbers] at h
    split_ifs at h with hlt
    exact ⟨s, hlt, fun _ => id, nofun⟩
  | left + 1, i, s, h => by
    rw [drawNumbers] at h
    split_ifs at h with hlt
    obtain ⟨t, hsmall, hold, hdrawn⟩ := drawNumbers_eq_none h
    refine ⟨t, hsmall, fun x hx => hold x (mem_insert_iff.mpr (.inr hx)), fun j hj => ?_⟩
    cases j with
    | zero => exact hold _ (mem_insert_iff.mpr (.inl rfl))
    | succ j =>
      have hin := hdrawn j (Nat.lt_of_succ_lt_succ hj)
      rwa [Nat.add_right_comm, Nat.add_assoc] at hin

/-- Where the loop ends there are ten numbers, and all of them were drawn. -/
theorem drawNumbers_eq_some : ∀ {left i : ℕ} {s t : Numbers}, s.elems.length ≤ 10 →
    drawNumbers draws left i s = some t →
    t.elems.length = 10 ∧ ∀ x ∈ t, x ∈ s ∨ ∃ j, draws j = x
  | 0, i, s, t, hle, h => by
    rw [drawNumbers] at h
    split_ifs at h with hlt
    cases h
    exact ⟨by omega, fun x hx => .inl hx⟩
  | left + 1, i, s, t, hle, h => by
    rw [drawNumbers] at h
    split_ifs at h with hlt
    · have hle' := length_insert_le s (draws i)
      obtain ⟨hten, hfrom⟩ := drawNumbers_eq_some (by omega) h
      refine ⟨hten, fun x hx => ?_⟩
      rcases hfrom x hx with hin | hdrawn
      · rcases mem_insert_iff.mp hin with rfl | hin
        · exact .inr ⟨i, rfl⟩
        · exact .inl hin
      · exact .inr hdrawn
    · cases h
      exact ⟨by omega, fun x hx => .inl hx⟩

/-- What `getRandomNumbers` returns: ten different draws. -/
theorem getRandomNumbers_eq_some {left : ℕ} {needResVec : List ℕ}
    (h : getRandomNumbers draws left = some needResVec) :
    needResVec.Nodup ∧ needResVec.length = 10 ∧ ∀ x ∈ needResVec, ∃ j, draws j = x := by
  obtain ⟨t, ht, rfl⟩ := Option.map_eq_some_iff.mp h
  have hempty : (StdSet.empty : Numbers).elems.length ≤ 10 := Nat.zero_le 10
  obtain ⟨hten, hfrom⟩ := drawNumbers_eq_some hempty ht
  exact ⟨nodup_elems t, hten, fun x hx => (hfrom x hx).resolve_left (StdSet.not_mem_empty x)⟩

/-- Where every number below `n` is drawn, all of them are drawn within some time. -/
theorem exists_all_drawn {n : ℕ} (hall : ∀ v < n, ∃ i, draws i = v) : ∃ left, ∀ v < n, ∃ i < left,
    draws i = v := by
  induction n with
  | zero => exact ⟨0, nofun⟩
  | succ n ih =>
    obtain ⟨left, hleft⟩ := ih fun v hv => hall v (Nat.lt_succ_of_lt hv)
    obtain ⟨i, hi⟩ := hall n (Nat.lt_succ_self n)
    refine ⟨max left (i + 1), fun v hv => ?_⟩
    rcases Nat.lt_succ_iff_lt_or_eq.mp hv with hlt | rfl
    · obtain ⟨k, hk, hdraw⟩ := hleft v hlt
      exact ⟨k, lt_max_of_lt_left hk, hdraw⟩
    · exact ⟨i, lt_max_of_lt_right (Nat.lt_succ_self i), hi⟩

/-- Ten or more numbers: the loop ends. -/
theorem getRandomNumbers_ends {n : ℕ} (hten : 10 ≤ n) (hall : ∀ v < n, ∃ i, draws i = v) :
    ∃ left needResVec, getRandomNumbers draws left = some needResVec := by
  obtain ⟨left, hleft⟩ := exists_all_drawn hall
  refine ⟨left, ?_⟩
  cases hrun : getRandomNumbers draws left with
  | some needResVec => exact ⟨needResVec, rfl⟩
  | none =>
    obtain ⟨t, hsmall, -, hdrawn⟩ := drawNumbers_eq_none (Option.map_eq_none_iff.mp hrun)
    have hsub : List.range n ⊆ t.elems := by
      intro v hv
      obtain ⟨i, hi, rfl⟩ := hleft v (List.mem_range.mp hv)
      have hin := hdrawn i hi
      rwa [Nat.zero_add] at hin
    have hle := (List.nodup_range.subperm hsub).length_le
    rw [List.length_range] at hle
    omega

/-- Ten different numbers are drawn, so there are ten. -/
theorem ten_le_of_drawn {n left : ℕ} {needResVec : List ℕ} (h : getRandomNumbers draws left = some needResVec)
    (hbelow : ∀ i ∈ needResVec, i < n) : 10 ≤ n := by
  obtain ⟨hnodup, hten, -⟩ := getRandomNumbers_eq_some h
  have hsub : needResVec ⊆ List.range n := fun i hi => List.mem_range.mpr (hbelow i hi)
  have hle := (hnodup.subperm hsub).length_le
  rwa [hten, List.length_range] at hle

/-- The loop ends, with as many different numbers as there are, up to ten, exactly when there are
    ten. -/
theorem sampling_ends_iff {n : ℕ} (hrange : ∀ i, draws i < n) (hall : ∀ v < n, ∃ i, draws i = v) :
    (∃ left needResVec, getRandomNumbers draws left = some needResVec ∧ needResVec.Nodup ∧
      needResVec.length = min 10 n ∧ ∀ i ∈ needResVec, i < n) ↔ 10 ≤ n := by
  have hbelow : ∀ {left : ℕ} {needResVec : List ℕ}, getRandomNumbers draws left = some needResVec →
      ∀ i ∈ needResVec, i < n := by
    intro left needResVec h i hi
    obtain ⟨j, rfl⟩ := (getRandomNumbers_eq_some h).2.2 i hi
    exact hrange j
  constructor
  · rintro ⟨left, needResVec, h, -⟩
    exact ten_le_of_drawn h (hbelow h)
  · intro hten
    obtain ⟨left, needResVec, h⟩ := getRandomNumbers_ends hten hall
    obtain ⟨hnodup, hlength, -⟩ := getRandomNumbers_eq_some h
    exact ⟨left, needResVec, h, hnodup, by rw [hlength, min_eq_left hten], hbelow h⟩

/-- Ten numbers, drawn in turn. -/
theorem sampling_ends_ten : ∃ left needResVec, getRandomNumbers (· % 10) left = some needResVec ∧
    needResVec.Nodup ∧
    needResVec.length = min 10 10 ∧ ∀ i ∈ needResVec, i < 10 :=
  (sampling_ends_iff (fun i => Nat.mod_lt i (by decide)) fun v hv => ⟨v, Nat.mod_eq_of_lt hv⟩).mpr le_rfl

/-- Nine numbers, drawn in turn: the loop does not end. -/
theorem sampling_nine_stuck : ¬ ∀ (n : ℕ) (draws : ℕ → ℕ), 1 ≤ n → (∀ i, draws i < n) →
    (∀ v < n, ∃ i, draws i = v) →
    ∃ left needResVec, getRandomNumbers draws left = some needResVec ∧ needResVec.Nodup ∧
      needResVec.length = min 10 n := by
  intro h
  have hrange : ∀ i, i % 9 < 9 := fun i => Nat.mod_lt i (by decide)
  obtain ⟨left, needResVec, hrun, -, hlength⟩ :=
    h 9 (· % 9) (by decide) hrange fun v hv => ⟨v, Nat.mod_eq_of_lt hv⟩
  have hten := (getRandomNumbers_eq_some hrun).2.1
  rw [hlength] at hten
  exact absurd hten (by decide)

end Draws

/-! ### The rates -/

/-- `findMostFrequentElement`: of equally frequent ones that which is met first. -/
def findMostFrequentElement (unordered : List Str → List Str) (vec : List Str) : Str × ℕ :=
  (unordered vec.dedup).foldl
    (fun most entry => if vec.count entry > most.2 then (entry, vec.count entry) else most) ([], 0)

/-- What is pushed to `txRawVec`: the transaction, once for every entry with the flag 1 of a node
    that is to send it. -/
def txRawVec (needResNode : List Str) (acks : List CheckTxAck) : List Str :=
  acks.flatMap fun copyAck => copyAck.flaghash.filterMap fun flagHash =>
    if copyAck.addr ∈ needResNode ∧ flagHash.flag = 1 then some copyAck.tx else none

/-- `successHash`, once every item of the multimap was looked at. -/
def successHash (txhash : List Str) (retDatas : List (Option CheckTxAck)) : List (Str × UInt32) :=
  (txFlagHashs (retDatas.map (Option.map CheckTxAck.flaghash))).foldl countItem ((sortedSet txhash).map fun hash => (hash, 0))

/-- The rates; the numbers are small enough to be exact as a `double`. -/
def percentage (txhash : List Str) (retDatas : List (Option CheckTxAck)) : List SuccessRate :=
  (successHash txhash retDatas).map fun success => ⟨success.1, toDouble (success.2.toNat / retDatas.length)⟩

/-- `send_num * 0.8`, as the `uint32_t` that `CreateWait` takes. -/
def retNum (sendNum : ℕ) : UInt32 := UInt32.ofNat ⌊toDouble (sendNum * toDouble (4 / 5))⌋₊

/-- The object that collects the answers, when `WaitData` looks at it. -/
def ConfirmEnv.collected (env : ConfirmEnv) (nodes : List Node) : GlobalData :=
  let asked := nodes.foldl (fun g node => g.insertRes node.address) (.create 10 (retNum nodes.length) env.msgId)
  env.answers.foldl (fun g answer => (g.pushData answer.1 ⟨answer.2, 0⟩).2) asked

/-- `ret_datas`, each as it is parsed. -/
def ConfirmEnv.retDatas (env : ConfirmEnv) (nodes : List Node) : List (Option CheckTxAck) :=
  (env.collected nodes).data.map fun datum => env.parseFromString datum.data

/-- `FilterHeightNodeList`. -/
def ConfirmEnv.filterHeightNodeList (env : ConfirmEnv) (height : UInt64) : List Node :=
  env.nodelist.filter fun item => item.height ≥ height

/-- `SendConfirmTransactionReq`, with so many draws; `none` if they do not suffice. -/
def sendConfirmTransactionReq (env : ConfirmEnv) (left : ℕ) (msg : ConfirmTransactionReq) :
    Option (ℤ × ConfirmTransactionAck) :=
  let ack := ConfirmTransactionAck.cleared
  if env.nodelist.length = 0 then some (-1, { ack with message := str "Nodelist size is empty" })
  else
    let nodes := env.filterHeightNodeList msg.height
    if nodes.length = 0 then some (-2, { ack with message := str "FilterHeightNodeList size is empty" })
    else
      let ack := { ack with sendSize := UInt32.ofNat nodes.length }
      if !env.createWait then some (-3, { ack with message := str "CreateWait error" })
      else
        match getRandomNumbers (env.draws nodes.length) left with
        | none => none
        | some needResVec =>
          let needResNode := (nodes.zipIdx.filter fun node => node.2 ∈ needResVec).map fun node =>
            node.1.address
          if nodes.any fun node => !env.addResNode node.address then
            some (-4, { ack with message := str " AddResNode error" })
          else if !(env.collected nodes).enough then some (-5, { ack with message := str " WaitData error" })
          else
            let retDatas := env.retDatas nodes
            let commonSize := findMostFrequentElement env.unordered (txRawVec needResNode (retDatas.filterMap id))
            some (0, { ack with
              tx := commonSize.1
              version := env.kVersion
              time := msg.time
              percentage := percentage msg.txhash retDatas
              receivedSize := UInt32.ofNat retDatas.length })

/-! ### Entries and answers -/

section Rates
variable (retDatas : List (Option CheckTxAck)) (hash : Str)

/-- The answers that flag the hash with 1. -/
def flaggedBy : ℕ := (retDatas.filterMap id).countP fun ack => ⟨1, hash⟩ ∈ ack.flaghash

/-- The entries that flag the hash with 1 once more in one answer. -/
def repeated : ℕ := ((retDatas.filterMap id).map fun ack => ack.flaghash.count ⟨1, hash⟩ - 1).sum

variable {retDatas hash}

/-- Every entry is the first of its answer or a repeated one. -/
theorem entries_eq : ConfirmUtxo.entries (retDatas.map (Option.map CheckTxAck.flaghash)) hash =
    flaggedBy retDatas hash + repeated retDatas hash := by
  rw [ConfirmUtxo.entries, flaggedBy, repeated, List.filterMap_map]
  have hmap : retDatas.filterMap (id ∘ Option.map CheckTxAck.flaghash) =
    (retDatas.filterMap id).map CheckTxAck.flaghash := by
    rw [List.map_filterMap]
    rfl
  rw [hmap]
  induction retDatas.filterMap id with
  | nil => rfl
  | cons ack acks ih =>
    rw [List.map_cons, List.flatten_cons, List.count_append, ih, List.countP_cons, List.map_cons,
      List.sum_cons]
    by_cases hmem : ⟨1, hash⟩ ∈ ack.flaghash
    · have hpos := List.count_pos_iff.mpr hmem
      simp only [hmem, decide_true, if_true]
      omega
    · simp [hmem, List.count_eq_zero_of_not_mem hmem]

theorem flaggedBy_le : flaggedBy retDatas hash ≤ retDatas.length :=
  List.countP_le_length.trans (List.length_filterMap_le _ _)

/-- The rate that is reported for a hash. -/
theorem percentage_eq (txhash : List Str) (retDatas : List (Option CheckTxAck)) :
    percentage txhash retDatas = (sortedSet txhash).map fun hash =>
      ⟨hash, toDouble (((flaggedBy retDatas hash + repeated retDatas hash) % 2 ^ 32 : ℕ) / retDatas.length)⟩ := by
  rw [percentage, successHash, ConfirmUtxo.foldl_countItem, List.map_map, List.map_map]
  refine List.map_congr_left fun hash _ => ?_
  simp only [Function.comp_apply, ConfirmUtxo.count_txFlagHashs, entries_eq, UInt32.zero_add,
    UInt32.toNat_ofNat']

/-- A share is between 0 and 1, also when it is rounded. -/
theorem toDouble_share {a n : ℕ} (hn : 0 < n) (hle : a ≤ n) : 0 ≤ toDouble (a / n) ∧
    toDouble (a / n) ≤ 1 := by
  rcases Nat.eq_zero_or_pos a with rfl | ha
  · rw [Nat.cast_zero, zero_div, toDouble_zero]
    norm_num
  · have hn' : (0 : ℚ) < n := by exact_mod_cast hn
    have hpos : (0 : ℚ) < a / n := div_pos (by exact_mod_cast ha) hn'
    have hone : (a : ℚ) / n ≤ 2 ^ (0 : ℤ) := by
      rw [zpow_zero, div_le_one hn']
      exact_mod_cast hle
    have hround := toDouble_le_two_zpow hpos hone
    rw [zpow_zero] at hround
    exact ⟨(toDouble_pos hpos).le, hround⟩

/-- The rate of a hash is the share of the answers that flag it. -/
def RateRight (retDatas : List (Option CheckTxAck)) (alsuc : SuccessRate) : Prop :=
  alsuc.rate = toDouble (flaggedBy retDatas alsuc.hash / retDatas.length) ∧ 0 ≤ alsuc.rate ∧ alsuc.rate ≤ 1

/-- All rates are right exactly when the repeated entries of every hash are a multiple of `2 ^ 32`. -/
theorem percentage_right_iff {txhash : List Str} {retDatas : List (Option CheckTxAck)}
    (hpos : 0 < retDatas.length)
    (hsmall : retDatas.length < 2 ^ 31) :
    (∀ alsuc ∈ percentage txhash retDatas, RateRight retDatas alsuc) ↔
      ∀ hash ∈ txhash, repeated retDatas hash % 2 ^ 32 = 0 := by
  rw [percentage_eq, List.forall_mem_map]
  simp only [mem_sortedSet]
  refine forall₂_congr fun hash _ => ?_
  have hle : flaggedBy retDatas hash ≤ retDatas.length := flaggedBy_le
  have hmod := Nat.mod_lt (flaggedBy retDatas hash + repeated retDatas hash) (show 2 ^ 32 > 0 by norm_num)
  have hinj := toDouble_div_inj (a := (flaggedBy retDatas hash + repeated retDatas hash) % 2 ^ 32)
    (b := flaggedBy retDatas hash) hpos (by omega) (by omega)
  constructor
  · rintro ⟨hrate, -, -⟩
    have heq := hinj.mp hrate
    omega
  · intro hrepeated
    have hrate := hinj.mpr (by omega)
    obtain ⟨hnonneg, hone⟩ := toDouble_share hpos hle
    exact ⟨hrate, hrate.symm ▸ hnonneg, hrate.symm ▸ hone⟩

end Rates

/-! ### A call that succeeds -/

section Calls
variable {env : ConfirmEnv} {nodes : List Node}

theorem pushAll_length (answers : List (Str × Str)) : ∀ g : GlobalData,
    let g' := answers.foldl (fun g answer => (g.pushData answer.1 ⟨answer.2, 0⟩).2) g
    g'.data.length + g'.resIds.card = g.data.length + g.resIds.card ∧ g'.retNum = g.retNum := by
  induction answers with
  | nil => exact fun _ => ⟨rfl, rfl⟩
  | cons answer answers ih =>
    intro g
    obtain ⟨hsum, hret⟩ := ih (g.pushData answer.1 ⟨answer.2, 0⟩).2
    refine ⟨hsum.trans ?_, hret.trans (GlobalData.pushData_retNum _ _ _)⟩
    rw [GlobalData.pushData]
    split
    · rename_i hmem
      have hcard := Finset.card_erase_add_one hmem
      dsimp only
      rw [List.length_append, List.length_singleton]
      omega
    · rfl

theorem insertAll_length : ∀ (nodes : List Node) (g : GlobalData),
    let g' := nodes.foldl (fun g node => g.insertRes node.address) g
    g'.data = g.data ∧ g'.resIds.card ≤ g.resIds.card + nodes.length ∧ g'.retNum = g.retNum
  | [], _ => ⟨rfl, le_rfl, rfl⟩
  | node :: nodes, g => by
    obtain ⟨hdata, hcard, hret⟩ := insertAll_length nodes (g.insertRes node.address)
    have hone : (g.insertRes node.address).resIds.card ≤ g.resIds.card + 1 := Finset.card_insert_le _ _
    refine ⟨hdata, hcard.trans ?_, hret⟩
    rw [List.length_cons]
    omega

/-- There are not more answers than nodes that were asked. -/
theorem length_retDatas_le : (env.retDatas nodes).length ≤ nodes.length := by
  obtain ⟨hdata, hcard, -⟩ := insertAll_length nodes (.create 10 (retNum nodes.length) env.msgId)
  obtain ⟨hsum, -⟩ := pushAll_length env.answers
    (nodes.foldl (fun g node => g.insertRes node.address) (.create 10 (retNum nodes.length) env.msgId))
  rw [ConfirmEnv.retDatas, List.length_map, ConfirmEnv.collected]
  rw [hdata] at hsum
  have hzero : (GlobalData.create 10 (retNum nodes.length) env.msgId).data.length = 0 := rfl
  have hnone : (GlobalData.create 10 (retNum nodes.length) env.msgId).resIds.card = 0 := rfl
  omega

theorem enough_iff : (env.collected nodes).enough ↔
    (retNum nodes.length).toNat ≤ (env.retDatas nodes).length := by
  obtain ⟨-, -, hret⟩ := insertAll_length nodes (.create 10 (retNum nodes.length) env.msgId)
  obtain ⟨-, hret'⟩ := pushAll_length env.answers
    (nodes.foldl (fun g node => g.insertRes node.address) (.create 10 (retNum nodes.length) env.msgId))
  have heq : (env.collected nodes).retNum = retNum nodes.length := hret'.trans hret
  rw [GlobalData.enough, decide_eq_true_iff, heq, ConfirmEnv.retDatas, List.length_map]

/-- The number of answers that is waited for: some, and not more than there are nodes. -/
theorem retNum_bounds {n : ℕ} (hten : 10 ≤ n) (hsmall : n < 2 ^ 31) : 0 < (retNum n).toNat ∧
    (retNum n).toNat ≤ n := by
  have hn : (10 : ℚ) ≤ n := by exact_mod_cast hten
  have hn' : (n : ℚ) ≤ 2 ^ 31 := by exact_mod_cast hsmall.le
  have hrate := abs_le.mp (abs_toDouble_sub_le (show (0 : ℚ) < 4 / 5 by norm_num))
  have hlow : (7 / 10 : ℚ) ≤ toDouble (4 / 5) := by linarith [hrate.1]
  have hhigh : toDouble (4 / 5) ≤ (9 / 10 : ℚ) := by linarith [hrate.2]
  have hpos : (0 : ℚ) < n * toDouble (4 / 5) := by positivity
  have hfour : (2 : ℚ) ^ (2 : ℤ) ≤ n * toDouble (4 / 5) := by
    norm_num
    nlinarith
  have hround := two_zpow_le_toDouble hfour
  have hround' := toDouble_le hpos
  have hone : 1 ≤ ⌊toDouble (n * toDouble (4 / 5))⌋₊ := by
    rw [Nat.one_le_floor_iff]
    norm_num at hround
    linarith
  have hle : ⌊toDouble (n * toDouble (4 / 5))⌋₊ ≤ n := by
    refine Nat.floor_le_of_le ?_
    have hmul : (n : ℚ) * toDouble (4 / 5) ≤ n * (9 / 10) := mul_le_mul_of_nonneg_left hhigh (by positivity)
    have hpart : (n : ℚ) * toDouble (4 / 5) / 2 ^ 53 ≤ n * (1 / 10) := by
      rw [div_le_iff₀ (by positivity)]
      nlinarith
    linarith
  have hword : (retNum n).toNat = ⌊toDouble (n * toDouble (4 / 5))⌋₊ := by
    rw [retNum, UInt32.toNat_ofNat']
    exact Nat.mod_eq_of_lt (by omega)
  rw [hword]
  exact ⟨hone, hle⟩

/-- What a call that returns 0 has met. -/
theorem send_eq_zero {left : ℕ} {msg : ConfirmTransactionReq} {ack : ConfirmTransactionAck}
    (h : sendConfirmTransactionReq env left msg = some (0, ack)) :
    ∃ needResVec, getRandomNumbers (env.draws (env.filterHeightNodeList msg.height).length) left =
      some needResVec ∧
      0 < (env.filterHeightNodeList msg.height).length ∧
        (env.collected (env.filterHeightNodeList msg.height)).enough ∧
      ack.percentage = percentage msg.txhash (env.retDatas (env.filterHeightNodeList msg.height)) := by
  have hfail : ∀ {code : ℤ} {ack' : ConfirmTransactionAck}, code ≠ 0 → some (code, ack') ≠ some (0, ack) :=
    fun hne heq => hne (congrArg Prod.fst (Option.some.inj heq))
  rw [sendConfirmTransactionReq] at h
  split at h
  · exact (hfail (by decide) h).elim
  dsimp only at h
  split at h
  · exact (hfail (by decide) h).elim
  rename_i hfilter
  split at h
  · exact (hfail (by decide) h).elim
  split at h
  · cases h
  rename_i needResVec hdrawn
  split at h
  · exact (hfail (by decide) h).elim
  split at h
  · exact (hfail (by decide) h).elim
  rename_i henough
  cases h
  exact ⟨needResVec, hdrawn, Nat.pos_of_ne_zero hfilter, by simpa using henough, rfl⟩

/-- Where nothing goes wrong the call returns 0. -/
theorem send_of_enough {left : ℕ} {msg : ConfirmTransactionReq} {needResVec : List ℕ}
    (hfilter : env.filterHeightNodeList msg.height = nodes) (hnodes : 0 < nodes.length)
    (hcreate : env.createWait = true)
    (hdrawn : getRandomNumbers (env.draws nodes.length) left = some needResVec)
    (hadd : ∀ node ∈ nodes, env.addResNode node.address = true) (henough : (env.collected nodes).enough) :
    ∃ ack, sendConfirmTransactionReq env left msg = some (0, ack) ∧
      ack.percentage = percentage msg.txhash (env.retDatas nodes) := by
  have hlist : env.nodelist.length ≠ 0 := by
    intro hzero
    have hle : nodes.length ≤ env.nodelist.length := hfilter ▸ List.length_filter_le _ _
    omega
  have hany : (nodes.any fun node => !env.addResNode node.address) = false := by simpa using hadd
  simp only [sendConfirmTransactionReq, hlist, hfilter, hnodes.ne', hcreate, hdrawn, hany, henough,
    Bool.not_true, Bool.false_eq_true, if_false]
  exact ⟨_, rfl, rfl⟩

end Calls

/-- The answer names every hash that was asked for, with the share of the answers that flag it. -/
def ReportsShares (env : ConfirmEnv) (msg : ConfirmTransactionReq) (ack : ConfirmTransactionAck) : Prop :=
  ack.percentage.map SuccessRate.hash = sortedSet msg.txhash ∧
    ∀ alsuc ∈ ack.percentage, RateRight (env.retDatas (env.filterHeightNodeList msg.height)) alsuc

/-- What a call that returns 0 reports is right exactly when the repeated entries of every hash are
    a multiple of `2 ^ 32`. -/
theorem reportsShares_iff {env : ConfirmEnv} {left : ℕ} {msg : ConfirmTransactionReq}
    {ack : ConfirmTransactionAck}
    (h : sendConfirmTransactionReq env left msg = some (0, ack)) :
    ReportsShares env msg ack ↔
      ∀ hash ∈ msg.txhash, repeated (env.retDatas (env.filterHeightNodeList msg.height)) hash % 2 ^ 32 = 0 := by
  obtain ⟨needResVec, hdrawn, hpos, henough, hrates⟩ := send_eq_zero h
  -- ten numbers were drawn, so there are ten nodes, and some of them have answered
  have hten : 10 ≤ (env.filterHeightNodeList msg.height).length := by
    refine ten_le_of_drawn hdrawn fun i hi => ?_
    obtain ⟨j, rfl⟩ := (getRandomNumbers_eq_some hdrawn).2.2 i hi
    exact env.draws_lt _ hpos j
  have hsmall : (env.filterHeightNodeList msg.height).length < 2 ^ 31 :=
    (List.length_filter_le _ _).trans_lt env.small
  have hret := (retNum_bounds hten hsmall).1
  have hanswers := enough_iff.mp henough
  have hle : (env.retDatas (env.filterHeightNodeList msg.height)).length ≤ _ := length_retDatas_le
  have hhashes : ack.percentage.map SuccessRate.hash = sortedSet msg.txhash := by
    rw [hrates, percentage_eq, List.map_map]
    exact List.map_id _
  rw [ReportsShares, and_iff_right hhashes, hrates]
  exact percentage_right_iff (by omega) (by omega)

/-- Ten nodes, which all answer and flag the hash 9; the first of them flags it twice or once. -/
def sampleEnv (twice : Bool) : ConfirmEnv where
  kVersion := []
  nodelist := (List.range 10).map fun i => ⟨[UInt8.ofNat i], 5⟩
  small := by decide
  draws limit i := i % limit
  draws_lt _ hlimit i := Nat.mod_lt i hlimit
  msgId := []
  createWait := true
  addResNode _ := true
  answers := (List.range 10).map fun i => ([UInt8.ofNat i], [UInt8.ofNat i])
  parseFromString data := some ⟨if twice ∧ data = [0] then [⟨1, [9]⟩, ⟨1, [9]⟩] else [⟨1, [9]⟩], data, [7]⟩
  unordered := id

def sampleReq : ConfirmTransactionReq := ⟨[[9]], 0, 5⟩

theorem sampleEnv_sends (twice : Bool) : ∃ ack,
    sendConfirmTransactionReq (sampleEnv twice) 10 sampleReq = some (0, ack) ∧
    ack.percentage = percentage sampleReq.txhash ((sampleEnv twice).retDatas (sampleEnv twice).nodelist) := by
  have hlength : ((sampleEnv twice).retDatas (sampleEnv twice).nodelist).length = 10 := by
    cases twice <;> decide
  have henough : ((sampleEnv twice).collected (sampleEnv twice).nodelist).enough := by
    rw [enough_iff, hlength]
    exact (retNum_bounds (n := 10) le_rfl (by norm_num)).2
  have hfilter : (sampleEnv twice).filterHeightNodeList sampleReq.height = (sampleEnv twice).nodelist := by
    cases twice <;> decide
  have hdrawn : getRandomNumbers ((sampleEnv twice).draws 10) 10 = some (List.range 10) := by
    cases twice <;> decide
  exact send_of_enough hfilter (Nat.zero_lt_succ 9) rfl hdrawn (fun _ _ => rfl) henough

/-- Every node flags the hash once: the rates are right. -/
theorem reportsShares_once : ∃ ack, sendConfirmTransactionReq (sampleEnv false) 10 sampleReq = some (0, ack) ∧
    ReportsShares (sampleEnv false) sampleReq ack := by
  obtain ⟨ack, hack, -⟩ := sampleEnv_sends false
  exact ⟨ack, hack, (reportsShares_iff hack).mpr (by decide)⟩

/-- Ten answers with eleven entries: the rate is eleven tenths. -/
theorem repeated_entry_counts : ¬ ∀ (env : ConfirmEnv) (left : ℕ) (msg : ConfirmTransactionReq)
    (ack : ConfirmTransactionAck),
    sendConfirmTransactionReq env left msg = some (0, ack) → ReportsShares env msg ack := by
  intro h
  obtain ⟨ack, hack, hrates⟩ := sampleEnv_sends true
  have hright := (h _ _ _ _ hack).2
  have hfilter : (sampleEnv true).filterHeightNodeList sampleReq.height =
    (sampleEnv true).nodelist := by decide
  rw [hrates, hfilter, percentage_right_iff (by decide) (by decide)] at hright
  revert hright
  decide

end Tfs.Ca.ConfirmTransaction
