import Tfs.Ca.ChainHeight
import Tfs.Lib.Tally

/-! Which camp of a fork is followed (`SyncBlock::_NeedByzantineAdjustment` in `ca/sync_block.cpp` with the
    functions it calls).

    The votes are counted in a map that is passed by value, so that the caller goes on with the empty map it
    made, and never adjusts. The shares of the votes are then taken of the number of hashes, not of the
    number of answers. -/

namespace Tfs.Ca.ByzantineAdjustment

open ChainHeight

/-! ### The functions -/

/-- `message SyncNodeHashAck`. -/
structure SyncNodeHashAck where
  selfNodeId : Str
  hash : Str

/-- `sumHash`: for each hash the number of its votes, and the nodes. -/
abbrev SumHash := SortedMap Str (ℕ × List Str)

/-- One round of `_CheckRequirementAndFilterQualifyingNodes`: the number of higher nodes so far and the nodes at
    the height of the chain. The fourth higher node ends it. -/
def filterStep (chainHeight : ℕ) (pledgeAddr : List Str) (s : ℕ × List Str) (node : Node) : Option (ℕ × List Str) :=
  if node.height > chainHeight then
    if s.1 + 1 > 3 then none else some (s.1 + 1, s.2)
  else if node.height = chainHeight then
    if node.address ∈ pledgeAddr then some (s.1, s.2 ++ [node.address]) else some s
  else some s

/-- `SyncBlock::_CheckRequirementAndFilterQualifyingNodes`, with `none` where it returns false. -/
def checkRequirementAndFilterQualifyingNodes (chainHeight : ℕ) (pledgeAddr : List Str) (nodes : List Node) :
    Option (List Str) :=
  (nodes.foldlM (filterStep chainHeight pledgeAddr) (0, [])).map Prod.snd

/-- A vote is counted. -/
def recordVote (value : ℕ × List Str) (selfNodeId : Str) : ℕ × List Str := (value.1 + 1, value.2 ++ [selfNodeId])

/-- The loop over the answers; those that do not parse are left out. -/
def countVotes (sumHash : SumHash) (retDatas : List (Option SyncNodeHashAck)) : SumHash :=
  (retDatas.filterMap id).foldl (fun m ack =>
    m.upsert ack.hash fun value => recordVote (value.getD (0, [])) ack.selfNodeId) sumHash

/-- What the functions use: the threshold on the number of nodes, and the answers that the nodes give when as
    many are waited for, if enough come. -/
structure AdjustmentMeets where
  kNeedNodeThreshold : ℕ
  nodes : List Node
  waitData : UInt64 → List Str → Option (List (Option SyncNodeHashAck))

/-- `receiveRequirement`: on a large network five answers may be missing. -/
def receiveRequirement (m : AdjustmentMeets) (qualifyingStakeNodes : List Str) : UInt64 :=
  let byzantineFailTolerance : UInt64 := if m.nodes.length < m.kNeedNodeThreshold then 0 else 5
  UInt64.ofNat qualifyingStakeNodes.length - byzantineFailTolerance

/-- `SyncBlock::_GetSyncNodeSumhashInfo`: what it returns, and its own copy of the map in the end. -/
def getSyncNodeSumhashInfo (m : AdjustmentMeets) (qualifyingStakeNodes : List Str) (sumHash : SumHash) : Bool × SumHash :=
  match m.waitData (receiveRequirement m qualifyingStakeNodes) qualifyingStakeNodes with
  | none => (false, sumHash)
  | some retDatas => (true, countVotes sumHash retDatas)

/-- `SyncBlock::_GetSelectedAddr`: what it returns, and `selectedAddr` in the end. The quotients of small numbers
    are compared in `double` as the exact ones are. -/
def getSelectedAddr (sumHash : SumHash) (selectedAddr : List Str) : Bool × List Str :=
  let receiveNum := sumHash.entries.length
  let kept := sumHash.filterMap fun value => if 100 * value.1 < 34 * receiveNum then none else some value
  match kept.entries with
  | [first, last] => (true, if first.2.1 ≥ last.2.1 then first.2.2 else last.2.2)
  | _ => (false, selectedAddr)

/-- `SyncBlock::_NeedByzantineAdjustment`. -/
def needByzantineAdjustment (m : AdjustmentMeets) (chainHeight : ℕ) (pledgeAddr selectedAddr : List Str) : Bool × List Str :=
  let sumHash : SumHash := .empty
  match checkRequirementAndFilterQualifyingNodes chainHeight pledgeAddr m.nodes with
  | none => (false, selectedAddr)
  | some qualifyingStakeNodes =>
    -- the copy that is filled ends with the call
    if (getSyncNodeSumhashInfo m qualifyingStakeNodes sumHash).1 then getSelectedAddr sumHash selectedAddr
    else (false, selectedAddr)

/-! ### The camps -/

section Camps
variable (retDatas : List (Option SyncNodeHashAck))

/-- The answers that parse. -/
def answers : List SyncNodeHashAck := retDatas.filterMap id

/-- The nodes that report a hash, in the order of their answers. -/
def reporters (hash : Str) : List Str := ((answers retDatas).filter fun ack => ack.hash = hash).map (·.selfNodeId)

/-- The hashes that 34 percent of the answers report. -/
def camps : List Str := (((answers retDatas).map (·.hash)).dedup).filter fun hash =>
  34 * (answers retDatas).length ≤ 100 * (reporters retDatas hash).length

/-- What is counted for a hash. -/
theorem find_countVotes (hash : Str) : (countVotes .empty retDatas).find hash =
    if hash ∈ (answers retDatas).map (·.hash) then
      some ((reporters retDatas hash).length, reporters retDatas hash) else none := by
  have hfold : countVotes .empty retDatas = SortedMap.insertEach (fun value => recordVote (value.getD (0, []))) .empty
      ((answers retDatas).map fun ack => (ack.hash, ack.selfNodeId)) := by
    rw [countVotes, SortedMap.insertEach, List.foldl_map]
    rfl
  have hrecord : ∀ (nodes : List Str) (value : ℕ × List Str), nodes.foldl recordVote value =
      (value.1 + nodes.length, value.2 ++ nodes) := by
    intro nodes
    induction nodes with
    | nil => exact fun value => by rw [List.foldl_nil, List.length_nil, Nat.add_zero, List.append_nil]
    | cons node nodes ih =>
      intro value
      rw [List.foldl_cons, ih, recordVote, List.length_cons, List.append_assoc, List.singleton_append,
        Nat.add_right_comm, Nat.add_assoc]
  have hkeys : hash ∈ ((answers retDatas).map fun ack => (ack.hash, ack.selfNodeId)).map Prod.fst ↔
      hash ∈ (answers retDatas).map (·.hash) := by
    rw [List.map_map]
    rfl
  have hvalues : SortedMap.valuesOf hash ((answers retDatas).map fun ack => (ack.hash, ack.selfNodeId)) =
      reporters retDatas hash := SortedMap.valuesOf_map _ (fun ack => decide_eq_true_iff) _
  rw [hfold, SortedMap.find_insertEach_getD, hvalues, hrecord, Nat.zero_add, List.nil_append]
  exact if_congr hkeys rfl rfl

/-- The hashes whose votes are 34 percent of the number of hashes. -/
def loud : List Str := (((answers retDatas).map (·.hash)).dedup).filter fun hash =>
  ¬ 100 * (reporters retDatas hash).length < 34 * ((answers retDatas).map (·.hash)).dedup.length

/-- The keys of the votes are the hashes that are reported. -/
theorem keys_countVotes : (((countVotes .empty retDatas).entries.map Prod.fst)).Perm
    ((answers retDatas).map (·.hash)).dedup := by
  have hnodup : ((countVotes .empty retDatas).entries.map Prod.fst).Nodup :=
    (List.pairwise_map.mpr (countVotes .empty retDatas).sorted).imp fun h => h.ne
  refine (List.perm_ext_iff_of_nodup hnodup (List.nodup_dedup _)).mpr fun hash => ?_
  rw [List.mem_dedup, List.mem_map]
  constructor
  · rintro ⟨e, he, rfl⟩
    have hfind := SortedMap.mem_iff_find.mp he
    rw [find_countVotes] at hfind
    split_ifs at hfind with hin
    exact hin
  · intro hin
    have hfind := find_countVotes retDatas hash
    rw [if_pos hin] at hfind
    exact ⟨_, SortedMap.mem_iff_find.mpr hfind, rfl⟩

/-- The entries of a map that is filled, after the filter. -/
def keptVotes : SumHash :=
  (countVotes .empty retDatas).filterMap fun value =>
    if 100 * value.1 < 34 * (countVotes .empty retDatas).entries.length then none else some value

theorem mem_keptVotes {hash : Str} {value : ℕ × List Str} : (hash, value) ∈ (keptVotes retDatas).entries ↔
    hash ∈ loud retDatas ∧ value = ((reporters retDatas hash).length, reporters retDatas hash) := by
  have hsize : (countVotes .empty retDatas).entries.length = ((answers retDatas).map (·.hash)).dedup.length := by
    rw [← (keys_countVotes retDatas).length_eq, List.length_map]
  rw [SortedMap.mem_iff_find, keptVotes, SortedMap.find_filterMap, find_countVotes, loud, List.mem_filter, List.mem_dedup,
    hsize]
  by_cases hin : hash ∈ (answers retDatas).map (·.hash)
  · rw [if_pos hin, Option.bind_some, and_iff_right hin]
    split_ifs with hfew
    · simp [hfew]
    · simp [hfew, eq_comm]
  · rw [if_neg hin]
    exact iff_of_false nofun fun h => hin h.1.1

theorem keys_keptVotes : ((keptVotes retDatas).entries.map Prod.fst).Perm (loud retDatas) := by
  have hnodup : ((keptVotes retDatas).entries.map Prod.fst).Nodup :=
    (List.pairwise_map.mpr (keptVotes retDatas).sorted).imp fun h => h.ne
  refine (List.perm_ext_iff_of_nodup hnodup ((List.nodup_dedup _).filter _)).mpr fun hash => ?_
  rw [List.mem_map]
  constructor
  · rintro ⟨e, he, rfl⟩
    exact ((mem_keptVotes retDatas).mp he).1
  · exact fun hin => ⟨(hash, _), (mem_keptVotes retDatas).mpr ⟨hin, rfl⟩, rfl⟩

/-- A map that is filled selects the larger of two camps, with shares of the number of hashes. -/
theorem getSelectedAddr_countVotes (selectedAddr : List Str) :
    (loud retDatas).length = 2 ∧ (∃ hash ∈ loud retDatas,
        (∀ hash' ∈ loud retDatas, (reporters retDatas hash').length ≤ (reporters retDatas hash).length) ∧
        getSelectedAddr (countVotes .empty retDatas) selectedAddr = (true, reporters retDatas hash)) ∨
      (loud retDatas).length ≠ 2 ∧
        getSelectedAddr (countVotes .empty retDatas) selectedAddr = (false, selectedAddr) := by
  have hmem := @mem_keptVotes retDatas
  have hkeys := keys_keptVotes retDatas
  have hlen := hkeys.length_eq
  rw [List.length_map] at hlen
  have hselected : getSelectedAddr (countVotes .empty retDatas) selectedAddr =
      match (keptVotes retDatas).entries with
      | [first, last] => (true, if first.2.1 ≥ last.2.1 then first.2.2 else last.2.2)
      | _ => (false, selectedAddr) := rfl
  rw [hselected, ← hlen]
  match hentries : (keptVotes retDatas).entries with
  | [] => exact .inr ⟨by decide, rfl⟩
  | [_] => exact .inr ⟨by simp, rfl⟩
  | _ :: _ :: _ :: _ => exact .inr ⟨by simp, rfl⟩
  | [first, last] =>
    refine .inl ⟨rfl, ?_⟩
    rw [hentries] at hmem hkeys
    obtain ⟨hfirst, hvotes⟩ := hmem.mp (List.mem_cons_self (a := first))
    obtain ⟨hlast, hvotes'⟩ := hmem.mp (List.mem_cons_of_mem first (List.mem_singleton_self last))
    have hall : ∀ hash' ∈ loud retDatas, hash' = first.1 ∨ hash' = last.1 := fun hash' hin => by
      simpa using hkeys.mem_iff.mpr hin
    have hmatch : (match [first, last] with
        | [first, last] => (true, if first.2.1 ≥ last.2.1 then first.2.2 else last.2.2)
        | _ => (false, selectedAddr)) = (true, if first.2.1 ≥ last.2.1 then first.2.2 else last.2.2) := rfl
    rw [hmatch, hvotes, hvotes']
    by_cases hmore : (reporters retDatas first.1).length ≥ (reporters retDatas last.1).length
    · refine ⟨first.1, hfirst, fun hash' hin => ?_, by simp [hmore]⟩
      rcases hall hash' hin with rfl | rfl
      · exact le_rfl
      · exact hmore
    · refine ⟨last.1, hlast, fun hash' hin => ?_, by simp [hmore]⟩
      rcases hall hash' hin with rfl | rfl
      · exact (not_le.mp hmore).le
      · exact le_rfl

end Camps

/-! ### The adjustment -/

/-- The caller's map is empty, and nothing is selected. -/
theorem needByzantineAdjustment_eq (m : AdjustmentMeets) (chainHeight : ℕ) (pledgeAddr selectedAddr : List Str) :
    needByzantineAdjustment m chainHeight pledgeAddr selectedAddr = (false, selectedAddr) := by
  rw [needByzantineAdjustment]
  cases checkRequirementAndFilterQualifyingNodes chainHeight pledgeAddr m.nodes with
  | none => rfl
  | some qualifyingStakeNodes =>
    cases hinfo : (getSyncNodeSumhashInfo m qualifyingStakeNodes .empty).1 with
    | false => simp [hinfo]
    | true => simp only [hinfo, if_true]; rfl

/-- The answers that the qualifying nodes give, when the requirement is met and enough of them come. -/
def received (m : AdjustmentMeets) (chainHeight : ℕ) (pledgeAddr : List Str) : Option (List (Option SyncNodeHashAck)) :=
  (checkRequirementAndFilterQualifyingNodes chainHeight pledgeAddr m.nodes).bind fun qualifyingStakeNodes =>
    m.waitData (receiveRequirement m qualifyingStakeNodes) qualifyingStakeNodes

/-- With the answers in, the call returns true when two hashes are reported by 34 percent of them each, and then
    selects the nodes of the one that more report. -/
def ForkAdjusted (m : AdjustmentMeets) (chainHeight : ℕ) (pledgeAddr selectedAddr : List Str) : Prop :=
  ∀ retDatas, received m chainHeight pledgeAddr = some retDatas →
    ((needByzantineAdjustment m chainHeight pledgeAddr selectedAddr).1 = true ↔ (camps retDatas).length = 2) ∧
    ((needByzantineAdjustment m chainHeight pledgeAddr selectedAddr).1 = true →
      ∃ hash ∈ camps retDatas,
        (∀ hash' ∈ camps retDatas, (reporters retDatas hash').length ≤ (reporters retDatas hash).length) ∧
        (needByzantineAdjustment m chainHeight pledgeAddr selectedAddr).2 = reporters retDatas hash)

/-- It is so exactly where there is nothing to adjust. -/
theorem fork_adjusted_iff (m : AdjustmentMeets) (chainHeight : ℕ) (pledgeAddr selectedAddr : List Str) :
    ForkAdjusted m chainHeight pledgeAddr selectedAddr ↔
      ∀ retDatas, received m chainHeight pledgeAddr = some retDatas → (camps retDatas).length ≠ 2 := by
  simp only [ForkAdjusted, needByzantineAdjustment_eq]
  refine forall₂_congr fun retDatas _ => ?_
  simp

/-- Two nodes at the height of the chain report different hashes. -/
def twoCamps : AdjustmentMeets where
  kNeedNodeThreshold := 3
  nodes := [⟨[97], 5⟩, ⟨[98], 5⟩]
  waitData _ _ := some [some ⟨[97], [103]⟩, some ⟨[98], [104]⟩]

theorem fork_not_adjusted : ¬ ForkAdjusted twoCamps 5 [[97], [98]] [] := by
  intro h
  have hiff := (h [some ⟨[97], [103]⟩, some ⟨[98], [104]⟩] rfl).1
  exact absurd (hiff.mpr (by decide)) (by decide)

end Tfs.Ca.ByzantineAdjustment
