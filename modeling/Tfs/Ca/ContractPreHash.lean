import Tfs.Basic
import Tfs.Lib.Double
import Tfs.Lib.Sorted
import Tfs.Lib.Tally

/-! Which blocks are taken over because contracts have another previous hash elsewhere
    (`_newSeekContractPreHash` in `ca/transaction_cache.cpp`, once the answers are in).

    A node that has the same hashes answers with an empty list. Such an answer makes no entry in the map of the
    answers, and the share of a block is taken of the entries of this map: nodes that agree do not count. -/

namespace Tfs.Ca.ContractPreHash

/-! ### The function -/

/-- `message preHashPair`, with what is used of the answers. -/
structure PreHashPair where
  blockRaw : Str

/-- `message newSeekContractPreHashAck`. -/
structure SeekContractPreHashAck where
  selfNodeId : Str
  seekContractBlock : List PreHashPair

/-- The blocks of an answer, as they are sent. -/
def SeekContractPreHashAck.raws (ack : SeekContractPreHashAck) : List Str := ack.seekContractBlock.map PreHashPair.blockRaw

/-- `ret_datas`, parsed. A node is heard once, and there are not more answers than an `int` of `countMap`
    counts. -/
structure Answers where
  acks : List SeekContractPreHashAck
  distinct : (acks.map SeekContractPreHashAck.selfNodeId).Nodup
  few : acks.length < 2 ^ 31

section Function
variable {β : Type} (parse : Str → Option β) (hashOf : β → Str) (stored : Str → Bool) (a : Answers)

/-- `blockHashMap`, with the strings that went into the set of a node. -/
def blockHashMap : SortedMap Str (List Str) :=
  a.acks.foldl (fun m ack => ack.seekContractBlock.foldl (fun m iter =>
    m.upsert ack.selfNodeId fun raws => raws.getD [] ++ [iter.blockRaw]) m) .empty

/-- `countMap`. -/
def countMap : SortedMap Str ℕ := SortedMap.tally ((blockHashMap a).entries.flatMap fun iter => sortedSet iter.2)

/-- `rate < 0.66`. -/
def rateTooLow (count size : ℕ) : Bool := toDouble (count / size) < toDouble (66 / 100)

/-- `seekBlocks` in the end: the blocks handed to `AddSeekBlock`. Each entry of `countMap` is dealt with on its
    own, so that its order makes no difference to which blocks these are. A block is a whole message; only its
    hash is looked at. -/
def seekBlocks : List β :=
  (countMap a).entries.filterMap fun iter =>
    if rateTooLow iter.2 (blockHashMap a).entries.length then none
    else match parse iter.1 with
      | none => none
      | some block => if stored (hashOf block) then none else some block

end Function

/-! ### The counts -/

section Counts
variable (a : Answers)

/-- The answers with blocks. -/
def disagreeing : List SeekContractPreHashAck := a.acks.filter fun ack => ack.raws ≠ []

/-- The answers without. -/
def agreeing : List SeekContractPreHashAck := a.acks.filter fun ack => ack.raws = []

/-- The answers that list this string. -/
def listers (raw : Str) : ℕ := a.acks.countP fun ack => raw ∈ ack.raws

theorem length_disagreeing_add : (disagreeing a).length + (agreeing a).length = a.acks.length := by
  rw [disagreeing, agreeing, ← List.countP_eq_length_filter, ← List.countP_eq_length_filter,
    List.length_eq_countP_add_countP (p := fun ack => decide (ack.raws ≠ []))]
  simp

/-- Who lists a string has blocks. -/
theorem listers_le_disagreeing (raw : Str) : listers a raw ≤ (disagreeing a).length := by
  rw [disagreeing, ← List.countP_eq_length_filter]
  refine List.countP_mono_left fun ack _ hin => ?_
  simpa using List.ne_nil_of_mem (of_decide_eq_true hin)

variable {a}

/-- The map of the answers groups the strings of each node. -/
theorem blockHashMap_eq : blockHashMap a =
    SortedMap.groupEach (SortedMap.keyed SeekContractPreHashAck.selfNodeId SeekContractPreHashAck.raws a.acks) := by
  rw [blockHashMap, SortedMap.groupEach, SortedMap.insertEach, SortedMap.keyed, List.foldl_flatMap]
  simp only [SeekContractPreHashAck.raws, List.foldl_map]

/-- It has an entry for every answer with blocks. -/
theorem entries_blockHashMap :
    (blockHashMap a).entries.Perm ((disagreeing a).map fun ack => (ack.selfNodeId, ack.raws)) := by
  rw [blockHashMap_eq]
  exact SortedMap.entries_groupEach_keyed a.distinct

/-- A block counts once for every answer that lists it. -/
theorem mem_countMap {raw : Str} {count : ℕ} :
    (raw, count) ∈ (countMap a).entries ↔ 0 < count ∧ count = listers a raw := by
  have hcount : ((blockHashMap a).entries.flatMap fun iter => sortedSet iter.2).count raw = listers a raw := by
    rw [SortedMap.count_flatMap_of_nodup _ _ fun _ _ => sortedSet_nodup _, entries_blockHashMap.countP_eq, List.countP_map,
      disagreeing, List.countP_filter, listers]
    refine List.countP_congr fun ack _ => ?_
    simp only [Function.comp_apply, List.contains_iff_mem, mem_sortedSet, Bool.and_eq_true, decide_eq_true_eq]
    exact and_iff_left_of_imp fun hin => List.ne_nil_of_mem hin
  rw [countMap, SortedMap.mem_tally, ← hcount, ← List.count_pos_iff]
  constructor
  · rintro ⟨hpos, rfl⟩
    exact ⟨hpos, rfl⟩
  · rintro ⟨hpos, rfl⟩
    exact ⟨hpos, rfl⟩

end Counts

/-! ### The rate -/

/-- The test on the rate is exact as long as there are not too many answers. -/
theorem rateTooLow_iff {count size : ℕ} (hsize : 0 < size) (hle : count ≤ size) (hsmall : size ≤ 2 ^ 45) :
    rateTooLow count size ↔ 100 * count < 66 * size := by
  rw [rateTooLow, decide_eq_true_eq]
  have hsize' : (0 : ℚ) < size := by exact_mod_cast hsize
  rcases Nat.eq_zero_or_pos count with rfl | hcount
  · rw [Nat.cast_zero, zero_div, toDouble_zero]
    exact iff_of_true (toDouble_pos (by norm_num)) (by omega)
  · have hcount' : (0 : ℚ) < count := by exact_mod_cast hcount
    have hdiff : (count : ℚ) / size - 66 / 100 = (100 * count - 66 * size) / (100 * size) := by
      field_simp
    rw [toDouble_lt_iff (div_pos hcount' hsize') (by norm_num)]
    · rw [div_lt_div_iff₀ hsize' (by norm_num)]
      norm_cast
      rw [mul_comm count]
    · -- two different rates are a hundredth of a part away from each other
      intro hne
      have hone : (1 : ℚ) ≤ |100 * (count : ℚ) - 66 * (size : ℚ)| := by
        have hint : (100 * count - 66 * size : ℤ) ≠ 0 := by
          intro hzero
          refine hne (sub_eq_zero.mp ?_)
          rw [hdiff, div_eq_zero_iff]
          exact .inl (by exact_mod_cast hzero)
        exact_mod_cast Int.one_le_abs hint
      have hsum : (count : ℚ) / size + 66 / 100 ≤ 2 := by
        have hshare : (count : ℚ) / size ≤ 1 := (div_le_one₀ hsize').mpr (by exact_mod_cast hle)
        linarith
      have hpart : (2 : ℚ) / 2 ^ 53 < 1 / (100 * size) := by
        have hbound : (size : ℚ) ≤ 2 ^ 45 := by exact_mod_cast hsmall
        rw [div_lt_div_iff₀ (by positivity) (by positivity)]
        linarith
      calc ((count : ℚ) / size + 66 / 100) / 2 ^ 53 ≤ 2 / 2 ^ 53 := by gcongr
        _ < 1 / (100 * (size : ℚ)) := hpart
        _ ≤ |(count : ℚ) / size - 66 / 100| := by
          rw [hdiff, abs_div, abs_of_pos (by positivity : (0 : ℚ) < 100 * size)]
          gcongr

/-! ### The quorum -/

section Quorum
variable {β : Type} (parse : Str → Option β) (hashOf : β → Str) (stored : Str → Bool) (a : Answers)

/-- A string of an answer that parses to a block which the node does not have. -/
def IsNew (raw : Str) (block : β) : Prop :=
  parse raw = some block ∧ stored (hashOf block) = false ∧ 0 < listers a raw

variable {parse hashOf stored a}

/-- The blocks that are handed over are the new ones whose string is in 66 percent of the answers with
    blocks. -/
theorem mem_seekBlocks {block : β} : block ∈ seekBlocks parse hashOf stored a ↔
    ∃ raw, IsNew parse hashOf stored a raw block ∧ 66 * (disagreeing a).length ≤ 100 * listers a raw := by
  have hsize : (blockHashMap a).entries.length = (disagreeing a).length := by
    rw [entries_blockHashMap.length_eq, List.length_map]
  have hrate {raw : Str} (hpos : 0 < listers a raw) : rateTooLow (listers a raw) (disagreeing a).length ↔
      100 * listers a raw < 66 * (disagreeing a).length := by
    have hle := listers_le_disagreeing a raw
    have hfew : (disagreeing a).length ≤ a.acks.length := List.length_filter_le _ _
    have := a.few
    exact rateTooLow_iff (hpos.trans_le hle) hle (by omega)
  rw [seekBlocks, List.mem_filterMap, hsize]
  constructor
  · rintro ⟨⟨raw, count⟩, hin, hsome⟩
    obtain ⟨hpos, rfl⟩ := mem_countMap.mp hin
    split_ifs at hsome with hlow
    split at hsome
    · cases hsome
    · next parsed hparse =>
      split_ifs at hsome with hstored
      cases hsome
      exact ⟨raw, ⟨hparse, by simpa using hstored, hpos⟩, not_lt.mp fun hlt => hlow ((hrate hpos).mpr hlt)⟩
  · rintro ⟨raw, ⟨hparse, hstored, hpos⟩, hmany⟩
    refine ⟨(raw, listers a raw), mem_countMap.mpr ⟨hpos, rfl⟩, ?_⟩
    rw [if_neg fun hlow => absurd ((hrate hpos).mp hlow) (not_lt.mpr hmany)]
    simp [hparse, hstored]

variable [DecidableEq β] (parse a)

/-- The answers that return the block, in whatever form they send it. -/
def returners (block : β) : ℕ := a.acks.countP fun ack => ack.raws.any fun raw => parse raw = some block

/-- Two thirds of the answers, taken as 66 percent, return the block. -/
def ReturnedByQuorum (block : β) : Prop := 66 * a.acks.length ≤ 100 * returners parse a block

/-- A block is returned by every node that sends this string for it. -/
theorem listers_le_returners {raw : Str} {block : β} (hparse : parse raw = some block) :
    listers a raw ≤ returners parse a block := by
  refine List.countP_mono_left fun ack _ hin => ?_
  rw [List.any_eq_true]
  exact ⟨raw, by simpa using hin, by simpa using hparse⟩

/-- The block is a quorum's among the answers with blocks, and the answers without blocks make it fall short of
    one. -/
def AgreeingMakeItShort (raw : Str) (block : β) : Prop :=
  66 * (disagreeing a).length ≤ 100 * listers a raw ∧
    100 * returners parse a block < 66 * ((disagreeing a).length + (agreeing a).length)

end Quorum

/-- The blocks handed over are those of a quorum of all answers unless the answers without blocks, which are not
    counted, make a new one fall short of it. -/
theorem quorum_of_answers_iff {β : Type} [DecidableEq β] (parse : Str → Option β) (hashOf : β → Str)
    (stored : Str → Bool) (a : Answers) :
    (∀ block ∈ seekBlocks parse hashOf stored a, ReturnedByQuorum parse a block) ↔
      ∀ raw block, IsNew parse hashOf stored a raw block → ¬ AgreeingMakeItShort parse a raw block := by
  have hall := length_disagreeing_add a
  constructor
  · intro h raw block hnew hshort
    have hquorum := h block (mem_seekBlocks.mpr ⟨raw, hnew, hshort.1⟩)
    have hfew := hshort.2
    rw [hall] at hfew
    exact absurd hquorum (not_le.mpr hfew)
  · intro h block hblock
    obtain ⟨raw, hnew, hmany⟩ := mem_seekBlocks.mp hblock
    refine not_lt.mp fun hfew => h raw block hnew ⟨hmany, ?_⟩
    rwa [hall]

/-! ### Without agreeing nodes -/

/-- Where every answer has blocks, the blocks handed over are those of a quorum. -/
theorem quorum_of_disagreeing {β : Type} [DecidableEq β] {parse : Str → Option β} {hashOf : β → Str}
    {stored : Str → Bool} {a : Answers} (hall : ∀ ack ∈ a.acks, ack.raws ≠ []) :
    ∀ block ∈ seekBlocks parse hashOf stored a, ReturnedByQuorum parse a block := by
  intro block hblock
  obtain ⟨raw, ⟨hparse, -, -⟩, hmany⟩ := mem_seekBlocks.mp hblock
  have hsame : disagreeing a = a.acks := List.filter_eq_self.mpr fun ack hack => by simpa using hall ack hack
  have hle := listers_le_returners parse a hparse
  rw [hsame] at hmany
  rw [ReturnedByQuorum]
  omega

/-- Of three nodes two have the same hashes, and one sends a block. -/
def oneDisagrees : Answers := ⟨[⟨[1], [⟨[9]⟩]⟩, ⟨[2], []⟩, ⟨[3], []⟩], by decide, by decide⟩

/-- The block of the one node is handed over; here a block is the string it is sent as. -/
theorem third_is_quorum : ¬ ∀ block ∈ seekBlocks some id (fun _ => false) oneDisagrees,
    ReturnedByQuorum some oneDisagrees block := by
  intro hall
  have hnew : IsNew some id (fun _ => false) oneDisagrees [9] [9] := ⟨rfl, rfl, by decide⟩
  have hquorum := hall [9] (mem_seekBlocks.mpr ⟨[9], hnew, by decide⟩)
  rw [ReturnedByQuorum] at hquorum
  revert hquorum
  decide

end Tfs.Ca.ContractPreHash
