import Tfs.Basic
import Tfs.Lib.Sorted
import Tfs.Lib.Tally

/-! Which sum hashes a sync from zero trusts (`SyncBlock::_GetFromZeroSyncSumHashNode` in
    `ca/sync_block.cpp`, in normal mode, once the answers are in).

    A hash is entered with the height of its first report, and the nodes of the later reports are its votes.
    The first report is no vote, so that a hash which just enough nodes name is one short. -/

namespace Tfs.Ca.FromZeroSumHash

/-! ### The function -/

/-- `message SyncFromZeroSumHash`. -/
structure SyncFromZeroSumHash where
  height : UInt64
  hash : Str
  deriving DecidableEq

/-- `message SyncFromZeroGetSumHashAck`. -/
structure SyncFromZeroGetSumHashAck where
  code : ℤ
  selfNodeId : Str
  sumHashes : List SyncFromZeroSumHash

/-- The answers that count: code 0 says that the node has none of the hashes. -/
def successful (acks : List SyncFromZeroGetSumHashAck) : List SyncFromZeroGetSumHashAck :=
  acks.filter fun ack => ack.code ≠ 0

/-- A report of a hash: the first one fixes the height, a later one adds its node. -/
def recordReport (content : Option (UInt64 × List Str)) (report : UInt64 × Str) : UInt64 × List Str :=
  match content with
  | none => (report.1, [])
  | some content => (content.1, content.2 ++ [report.2])

/-- `sumHashDatas`. -/
def sumHashDatas (acks : List SyncFromZeroGetSumHashAck) : SortedMap Str (UInt64 × List Str) :=
  (successful acks).foldl (fun m ack => ack.sumHashes.foldl (fun m sumHash =>
    m.upsert sumHash.hash fun content => recordReport content (sumHash.height, ack.selfNodeId)) m) .empty

/-- `sumHashData.second.second.size() >= success_count * 0.66`. The product is taken in `double`; it is whole
    where the exact one is. -/
def byzSuccess (successCount : ℕ) (votes : ℕ) : Prop := 66 * successCount ≤ 100 * votes

instance (successCount votes : ℕ) : Decidable (byzSuccess successCount votes) := inferInstanceAs (Decidable (_ ≤ _))

/-- What the loop over `sumHashDatas` fills. -/
structure Decided where
  retNodeIds : List Str
  sumHashes : SortedMap UInt64 Str

/-- One round of the loop. -/
def decideHash (successCount : ℕ) (s : Decided) (sumHashData : Str × (UInt64 × List Str)) : Decided :=
  if byzSuccess successCount sumHashData.2.2.length then
    ⟨s.retNodeIds ++ sumHashData.2.2, s.sumHashes.upsert sumHashData.2.1 fun _ => sumHashData.1⟩
  else s

/-- What the function leaves: its return value, `retNodeIds` and `sumHashes`. -/
structure FromZeroResult where
  ret : ℤ
  retNodeIds : List Str
  sumHashes : SortedMap UInt64 Str

/-- `SyncBlock::_GetFromZeroSyncSumHashNode` for the parsed answers, with `syncSendZeroSyncNum < UINT32_MAX`;
    its caller passes an empty `sumHashes`. -/
def getFromZeroSyncSumHashNode (sendNum : ℕ) (acks : List SyncFromZeroGetSumHashAck) : FromZeroResult :=
  let backNum := 66 * sendNum / 100
  if (successful acks).length > backNum then
    let s := (sumHashDatas acks).entries.foldl (decideHash (successful acks).length) ⟨[], .empty⟩
    ⟨if s.sumHashes.entries = [] then -5 else 0, sortedSet s.retNodeIds, s.sumHashes⟩
  else ⟨-4, [], .empty⟩

/-! ### The reports -/

section Reports
variable (acks : List SyncFromZeroGetSumHashAck)

/-- The reports of the successful answers, each under its hash. -/
def reports : List (Str × (UInt64 × Str)) :=
  (successful acks).flatMap fun ack => ack.sumHashes.map fun sumHash =>
    (sumHash.hash, (sumHash.height, ack.selfNodeId))

/-- The reports of one hash. -/
def reportsOf (hash : Str) : List (UInt64 × Str) := SortedMap.valuesOf hash (reports acks)

/-- The height that a hash is first reported for. -/
def firstHeight (hash : Str) : Option UInt64 := (reportsOf acks hash).head?.map Prod.fst

/-- The reports of a hash beside the first suffice. -/
def Backed (hash : Str) : Prop := byzSuccess (successful acks).length ((reportsOf acks hash).length - 1)

/-- The hash is reported for the height by 66 percent of the successful answers. -/
def Agreed (height : UInt64) (hash : Str) : Prop :=
  66 * (successful acks).length ≤ 100 * (successful acks).countP fun ack => ⟨height, hash⟩ ∈ ack.sumHashes

instance (hash : Str) : Decidable (Backed acks hash) := inferInstanceAs (Decidable (byzSuccess _ _))

instance (height : UInt64) (hash : Str) : Decidable (Agreed acks height hash) := inferInstanceAs (Decidable (_ ≤ _))

theorem sumHashDatas_eq : sumHashDatas acks = SortedMap.insertEach recordReport .empty (reports acks) := by
  rw [sumHashDatas, SortedMap.insertEach, reports, List.foldl_flatMap]
  simp only [List.foldl_map]

/-- After the first report of a hash the nodes are collected. -/
theorem foldl_recordReport (rest : List (UInt64 × Str)) : ∀ content : UInt64 × List Str,
    rest.foldl (fun content report => recordReport (some content) report) content =
      (content.1, content.2 ++ rest.map Prod.snd) := by
  induction rest with
  | nil => exact fun content => by rw [List.map_nil, List.append_nil, List.foldl_nil]
  | cons report rest ih =>
    intro content
    rw [List.foldl_cons, ih, recordReport, List.map_cons, List.append_assoc, List.singleton_append]

/-- `sumHashDatas` has for each hash its first height and the nodes of the other reports. -/
theorem find_sumHashDatas (hash : Str) : (sumHashDatas acks).find hash =
    match reportsOf acks hash with
    | [] => none
    | report :: rest => some (report.1, rest.map Prod.snd) := by
  rw [sumHashDatas_eq, SortedMap.find_insertEach_empty, reportsOf]
  cases SortedMap.valuesOf hash (reports acks) with
  | nil => rfl
  | cons report rest => exact congrArg some (foldl_recordReport rest (report.1, []))

/-- An entry of `sumHashDatas` has the first height of its hash, and as many nodes as there are more reports. -/
theorem mem_sumHashDatas {p : ℕ → Prop} {hash : Str} {height : UInt64} :
    (∃ nodes, (hash, (height, nodes)) ∈ (sumHashDatas acks).entries ∧ p nodes.length) ↔
      firstHeight acks hash = some height ∧ p ((reportsOf acks hash).length - 1) := by
  simp only [SortedMap.mem_iff_find, find_sumHashDatas, firstHeight]
  cases reportsOf acks hash with
  | nil => simp
  | cons report rest =>
    simp only [List.head?_cons, Option.map_some, Option.some_inj, Prod.mk.injEq, List.length_cons,
      Nat.add_sub_cancel]
    constructor
    · rintro ⟨nodes, ⟨hheight, rfl⟩, hp⟩
      exact ⟨hheight, by simpa using hp⟩
    · rintro ⟨hheight, hp⟩
      exact ⟨_, ⟨hheight, rfl⟩, by simpa using hp⟩

/-! ### The decision -/

/-- The hashes that pass, each under its height, in the order of the loop. -/
def passed : List (UInt64 × Str) :=
  ((sumHashDatas acks).entries.filter fun e => byzSuccess (successful acks).length e.2.2.length).map fun e =>
    (e.2.1, e.1)

theorem foldl_decideHash (k : ℕ) (l : List (Str × (UInt64 × List Str))) : ∀ s : Decided,
    (l.foldl (decideHash k) s).sumHashes = SortedMap.insertEach (fun _ hash => hash) s.sumHashes
      ((l.filter fun e => byzSuccess k e.2.2.length).map fun e => (e.2.1, e.1)) := by
  induction l with
  | nil => exact fun _ => rfl
  | cons e l ih =>
    intro s
    rw [List.foldl_cons, ih, decideHash]
    by_cases hpass : byzSuccess k e.2.2.length
    · rw [if_pos hpass, List.filter_cons_of_pos (by simpa using hpass)]
      rfl
    · rw [if_neg hpass, List.filter_cons_of_neg (by simpa using hpass)]

theorem mem_passed {height : UInt64} {hash : Str} :
    (height, hash) ∈ passed acks ↔ firstHeight acks hash = some height ∧ Backed acks hash := by
  rw [Backed, ← mem_sumHashDatas acks, passed, List.mem_map]
  constructor
  · rintro ⟨e, he, heq⟩
    obtain ⟨hmem, hpass⟩ := List.mem_filter.mp he
    cases heq
    exact ⟨e.2.2, hmem, by simpa using hpass⟩
  · rintro ⟨nodes, hmem, hpass⟩
    exact ⟨_, List.mem_filter.mpr ⟨hmem, by simpa using hpass⟩, rfl⟩

theorem pairwise_passed (height : UInt64) : (SortedMap.valuesOf height (passed acks)).Pairwise (· < ·) := by
  rw [SortedMap.valuesOf, List.pairwise_map]
  refine List.Pairwise.filter _ ?_
  rw [passed, List.pairwise_map]
  exact (sumHashDatas acks).sorted.filter _

/-- The hash under a height is the largest of those first reported for it that pass. -/
def Chosen (height : UInt64) (hash : Str) : Prop :=
  firstHeight acks hash = some height ∧ Backed acks hash ∧
    ∀ hash', firstHeight acks hash' = some height → Backed acks hash' → hash' ≤ hash

variable {sendNum : ℕ}

theorem getFromZeroSyncSumHashNode_of_enough (henough : 66 * sendNum / 100 < (successful acks).length) :
    (getFromZeroSyncSumHashNode sendNum acks).sumHashes =
        SortedMap.insertEach (fun _ hash => hash) .empty (passed acks) ∧
      ((getFromZeroSyncSumHashNode sendNum acks).ret = 0 ↔
        (getFromZeroSyncSumHashNode sendNum acks).sumHashes.entries ≠ []) := by
  rw [getFromZeroSyncSumHashNode, if_pos henough]
  refine ⟨foldl_decideHash _ _ _, ?_⟩
  dsimp only
  split_ifs with hempty
  · exact iff_of_false (by decide) (not_not.mpr hempty)
  · exact iff_of_true rfl hempty

theorem find_sumHashes (henough : 66 * sendNum / 100 < (successful acks).length) {height : UInt64} {hash : Str} :
    (getFromZeroSyncSumHashNode sendNum acks).sumHashes.find height = some hash ↔ Chosen acks height hash := by
  rw [(getFromZeroSyncSumHashNode_of_enough acks henough).1, SortedMap.find_insertEach_last,
    Sorted.getLast?_eq_some_iff (pairwise_passed acks height)]
  simp only [SortedMap.mem_valuesOf, mem_passed, Chosen, and_imp, and_assoc]

/-- The call returns 0 when enough nodes answer and some hash passes. -/
theorem ret_eq_zero_iff : (getFromZeroSyncSumHashNode sendNum acks).ret = 0 ↔
    66 * sendNum / 100 < (successful acks).length ∧
      ∃ hash height, firstHeight acks hash = some height ∧ Backed acks hash := by
  by_cases henough : 66 * sendNum / 100 < (successful acks).length
  · obtain ⟨hmap, hret⟩ := getFromZeroSyncSumHashNode_of_enough acks henough
    rw [hret, and_iff_right henough, hmap]
    constructor
    · intro hsome
      obtain ⟨e, he⟩ := List.exists_mem_of_ne_nil _ hsome
      have hfind := SortedMap.mem_iff_find.mp he
      rw [SortedMap.find_insertEach_last] at hfind
      have hin := SortedMap.mem_valuesOf.mp (List.mem_of_getLast? hfind)
      exact ⟨e.2, e.1, (mem_passed acks).mp hin⟩
    · rintro ⟨hash, height, hpass⟩ hnil
      have hin := SortedMap.mem_valuesOf.mpr ((mem_passed acks).mpr hpass)
      have hfind := SortedMap.find_insertEach_last height (passed acks)
      rw [SortedMap.find, hnil] at hfind
      have hlast := List.getLast?_eq_none_iff.mp hfind.symm
      rw [hlast] at hin
      cases hin
  · rw [getFromZeroSyncSumHashNode, if_neg henough]
    exact iff_of_false (by decide) fun h => henough h.1

/-- After the call returned 0, a hash stands under a height exactly when 66 percent of the successful answers
    report it for this height. -/
def TwoThirdsDecided (sendNum : ℕ) : Prop := (getFromZeroSyncSumHashNode sendNum acks).ret = 0 →
  ∀ height hash, (getFromZeroSyncSumHashNode sendNum acks).sumHashes.find height = some hash ↔
    Agreed acks height hash

/-! ### What can go wrong -/

/-- The least number that is 66 percent of the successful answers. -/
def quorum : ℕ := (66 * (successful acks).length + 99) / 100

/-- The successful answers that report the hash for the height. -/
def reporters (height : UInt64) (hash : Str) : ℕ :=
  (successful acks).countP fun ack => ⟨height, hash⟩ ∈ ack.sumHashes

/-- All reports of the hash, for whatever height and however often in an answer. -/
def total (hash : Str) : ℕ := (reportsOf acks hash).length

theorem agreed_iff {height : UInt64} {hash : Str} : Agreed acks height hash ↔ quorum acks ≤ reporters acks height hash := by
  rw [Agreed, quorum, reporters]
  omega

theorem backed_iff {hash : Str} : Backed acks hash ↔ quorum acks ≤ total acks hash - 1 := by
  rw [Backed, byzSuccess, quorum, total]
  omega

/-- A node that reports a hash for a height does so at least once. -/
theorem reporters_le_total (height : UInt64) (hash : Str) : reporters acks height hash ≤ total acks hash := by
  rw [reporters, total, reportsOf, SortedMap.valuesOf, List.length_map, ← List.countP_eq_length_filter, reports]
  induction successful acks with
  | nil => exact le_rfl
  | cons ack rest ih =>
    rw [List.flatMap_cons, List.countP_append, List.countP_cons, Nat.add_comm]
    split_ifs with hin
    · refine Nat.add_le_add (List.countP_pos_iff.mpr ?_) ih
      exact ⟨_, List.mem_map_of_mem (of_decide_eq_true hin), by simp⟩
    · rw [Nat.zero_add]
      exact ih.trans (Nat.le_add_left _ _)

/-- The report that is no vote is missing: just enough answers report the hash, and nothing else does. -/
def OneShort (height : UInt64) (hash : Str) : Prop :=
  reporters acks height hash = quorum acks ∧ total acks hash = quorum acks

/-- A report for another height came first. -/
def Misplaced (height : UInt64) (hash : Str) : Prop :=
  quorum acks ≤ reporters acks height hash ∧ firstHeight acks hash ≠ some height

/-- A larger hash, first reported for the same height, has more reports than a quorum. -/
def Covered (height : UInt64) (hash : Str) : Prop :=
  quorum acks ≤ reporters acks height hash ∧
    ∃ larger, hash < larger ∧ firstHeight acks larger = some height ∧ quorum acks < total acks larger

/-- Too few answers report the hash for the height, but reports for other heights, or several reports of one
    answer, make up for them, and no larger hash is in its place. -/
def Padded (height : UInt64) (hash : Str) : Prop :=
  reporters acks height hash < quorum acks ∧ quorum acks < total acks hash ∧
    firstHeight acks hash = some height ∧
    ∀ larger, hash < larger → firstHeight acks larger = some height → total acks larger ≤ quorum acks

/-- The votes say what the answers do exactly when none of this happens. -/
theorem chosen_iff_agreed_iff (hsome : successful acks ≠ []) :
    (∀ height hash, Chosen acks height hash ↔ Agreed acks height hash) ↔ ∀ height hash,
      ¬ OneShort acks height hash ∧ ¬ Misplaced acks height hash ∧ ¬ Covered acks height hash ∧
        ¬ Padded acks height hash := by
  have hpos : 0 < quorum acks := by
    have := List.length_pos_of_ne_nil hsome
    rw [quorum]
    omega
  have hbacked (hash : Str) : Backed acks hash ↔ quorum acks < total acks hash := by
    rw [backed_iff]
    omega
  simp only [Chosen, agreed_iff, hbacked]
  constructor
  · intro h height hash
    refine ⟨fun hbad => ?_, fun hbad => ?_, fun hbad => ?_, fun hbad => ?_⟩
    · have hchosen := (h height hash).mpr hbad.1.ge
      have := hbad.2
      omega
    · exact hbad.2 ((h height hash).mpr hbad.1).1
    · obtain ⟨hagreed, larger, hlt, hfirst, hmany⟩ := hbad
      exact absurd (((h height hash).mpr hagreed).2.2 larger hfirst hmany) (not_le.mpr hlt)
    · obtain ⟨hfew, hmany, hfirst, hlargest⟩ := hbad
      refine absurd ((h height hash).mp ⟨hfirst, hmany, fun hash' hfirst' hmany' => ?_⟩) (not_le.mpr hfew)
      by_contra hlt
      exact absurd (hlargest hash' (not_le.mp hlt) hfirst') (not_le.mpr hmany')
  · intro h height hash
    obtain ⟨hshort, hplaced, hcovered, hpadded⟩ := h height hash
    have hle := reporters_le_total acks height hash
    constructor
    · rintro ⟨hfirst, hmany, hlargest⟩
      by_contra hfew
      refine hpadded ⟨not_le.mp hfew, hmany, hfirst, fun larger hlt hfirst' => ?_⟩
      by_contra hmany'
      exact absurd (hlargest larger hfirst' (not_le.mp hmany')) (not_le.mpr hlt)
    · intro hagreed
      refine ⟨not_not.mp fun hfirst => hplaced ⟨hagreed, hfirst⟩, ?_, fun hash' hfirst' hmany' => ?_⟩
      · by_contra hfew
        refine hshort ⟨?_, ?_⟩
        · omega
        · omega
      · by_contra hlt
        exact hcovered ⟨hagreed, hash', not_le.mp hlt, hfirst', hmany'⟩

end Reports

/-- It is so when the call fails, for want of answers or of a hash with more reports than a quorum, or no hash is
    one report short, misplaced, covered or padded. -/
theorem two_thirds_decided_iff (sendNum : ℕ) (acks : List SyncFromZeroGetSumHashAck) :
    TwoThirdsDecided acks sendNum ↔ (successful acks).length ≤ 66 * sendNum / 100 ∨
      (∀ hash, total acks hash ≤ quorum acks) ∨
      ∀ height hash, ¬ OneShort acks height hash ∧ ¬ Misplaced acks height hash ∧ ¬ Covered acks height hash ∧
        ¬ Padded acks height hash := by
  rw [TwoThirdsDecided, ret_eq_zero_iff]
  by_cases henough : 66 * sendNum / 100 < (successful acks).length
  · have hne : successful acks ≠ [] := List.ne_nil_of_length_pos (Nat.zero_lt_of_lt henough)
    rw [or_iff_right (not_le.mpr henough), and_iff_right henough, ← chosen_iff_agreed_iff acks hne]
    simp only [find_sumHashes acks henough]
    have hpass : (∃ hash height, firstHeight acks hash = some height ∧ Backed acks hash) ↔
        ¬ ∀ hash, total acks hash ≤ quorum acks := by
      have hpos : 0 < quorum acks := by
        rw [quorum]
        omega
      push Not
      refine exists_congr fun hash => ?_
      rw [backed_iff, firstHeight, total]
      cases reportsOf acks hash with
      | nil => simp
      | cons report rest =>
        simp only [List.head?_cons, Option.map_some, Option.some_inj, List.length_cons, Nat.add_sub_cancel,
          exists_and_right, exists_eq', true_and]
        omega
    rw [hpass]
    tauto
  · exact iff_of_true (fun h => absurd h.1 henough) (.inl (not_lt.mp henough))

/-! ### Regular answers -/

/-- A hash is reported for one height, and an answer names one hash for a height, and that once. -/
structure Regular (acks : List SyncFromZeroGetSumHashAck) : Prop where
  one_height : ∀ ack ∈ successful acks, ∀ ack' ∈ successful acks, ∀ s ∈ ack.sumHashes, ∀ s' ∈ ack'.sumHashes,
    s.hash = s'.hash → s.height = s'.height
  one_hash : ∀ ack ∈ successful acks, ∀ s ∈ ack.sumHashes, ∀ s' ∈ ack.sumHashes, s.height = s'.height → s.hash = s'.hash
  once : ∀ ack ∈ successful acks, (ack.sumHashes.map (·.hash)).Nodup

section Regular
variable {acks : List SyncFromZeroGetSumHashAck} {height : UInt64} {hash : Str}

theorem total_eq (acks : List SyncFromZeroGetSumHashAck) (hash : Str) :
    total acks hash = ((successful acks).flatMap fun ack => ack.sumHashes.map (·.hash)).count hash := by
  have hkeys : (reports acks).map Prod.fst = (successful acks).flatMap fun ack => ack.sumHashes.map (·.hash) := by
    simp [reports, List.map_flatMap, Function.comp_def]
  rw [total, reportsOf, SortedMap.valuesOf, List.length_map, ← List.countP_eq_length_filter, ← hkeys, List.count,
    List.countP_map]
  exact List.countP_congr fun e _ => by simp

/-- A reported hash is first reported for this height. -/
theorem firstHeight_of_regular (h : Regular acks) {ack : SyncFromZeroGetSumHashAck} (hack : ack ∈ successful acks)
    (hin : ⟨height, hash⟩ ∈ ack.sumHashes) : firstHeight acks hash = some height := by
  have hreport : (hash, (height, ack.selfNodeId)) ∈ reports acks :=
    List.mem_flatMap.mpr ⟨ack, hack, List.mem_map.mpr ⟨_, hin, rfl⟩⟩
  have hmem := SortedMap.mem_valuesOf.mpr hreport
  rw [firstHeight]
  cases hfirst : reportsOf acks hash with
  | nil =>
    rw [reportsOf] at hfirst
    rw [hfirst] at hmem
    cases hmem
  | cons report rest =>
    have hreport' : (hash, report) ∈ reports acks := SortedMap.mem_valuesOf.mp (by
      rw [← reportsOf, hfirst]
      exact List.mem_cons_self)
    obtain ⟨ack', hack', hin'⟩ := List.mem_flatMap.mp hreport'
    obtain ⟨s', hs', heq⟩ := List.mem_map.mp hin'
    cases heq
    rw [List.head?_cons, Option.map_some, h.one_height ack' hack' ack hack s' hs' _ hin rfl]

/-- All its reports are those of the answers that report it for this height. -/
theorem total_of_regular (h : Regular acks) (hfirst : firstHeight acks hash = some height) :
    total acks hash = reporters acks height hash := by
  rw [total_eq, SortedMap.count_flatMap_of_nodup _ _ h.once, reporters]
  refine List.countP_congr fun ack hack => ?_
  rw [List.contains_iff_mem, List.mem_map, decide_eq_true_eq]
  constructor
  · rintro ⟨s, hs, rfl⟩
    cases Option.some.inj (hfirst.symm.trans (firstHeight_of_regular h hack hs))
    exact hs
  · exact fun hin => ⟨_, hin, rfl⟩

/-- With regular answers the votes are those of the answers, unless some hash has exactly the number of reports
    that is a quorum. -/
theorem decided_of_regular (h : Regular acks) (hspare : ∀ hash, total acks hash ≠ quorum acks) (sendNum : ℕ) :
    TwoThirdsDecided acks sendNum := by
  intro hzero height hash
  have henough := (ret_eq_zero_iff acks).mp hzero |>.1
  have hne : successful acks ≠ [] := List.ne_nil_of_length_pos (Nat.zero_lt_of_lt henough)
  have hpos : 0 < quorum acks := by
    have := List.length_pos_of_ne_nil hne
    rw [quorum]
    omega
  rw [find_sumHashes acks henough]
  revert height hash
  refine (chosen_iff_agreed_iff acks hne).mpr fun height hash => ?_
  have hplaced (hagreed : quorum acks ≤ reporters acks height hash) : firstHeight acks hash = some height := by
    obtain ⟨ack, hack, hin⟩ := List.countP_pos_iff.mp (hpos.trans_le hagreed)
    exact firstHeight_of_regular h hack (of_decide_eq_true hin)
  refine ⟨fun hbad => hspare hash hbad.2, fun hbad => hbad.2 (hplaced hbad.1), ?_, fun hbad => ?_⟩
  · rintro ⟨hagreed, larger, hlt, hfirst, hmany⟩
    rw [total_of_regular h hfirst] at hmany
    -- the two quorums have an answer in common
    have hboth : ∃ ack ∈ successful acks, ⟨height, hash⟩ ∈ ack.sumHashes ∧ ⟨height, larger⟩ ∈ ack.sumHashes := by
      by_contra hnone
      push Not at hnone
      have hsum : reporters acks height hash + reporters acks height larger ≤ (successful acks).length :=
        SortedMap.countP_add_countP_le fun ack hack hin hin' =>
          hnone ack hack (of_decide_eq_true hin) (of_decide_eq_true hin')
      rw [quorum] at hagreed hmany
      omega
    obtain ⟨ack, hack, hin, hin'⟩ := hboth
    exact hlt.ne (h.one_hash ack hack _ hin _ hin' rfl)
  · have htotal := total_of_regular h hbad.2.2.1
    have := hbad.1
    have := hbad.2.1
    omega

end Regular

/-- Three nodes are asked, and all name a hash for height 1; two of them name one for height 2, which is not
    entered. -/
theorem two_of_three_short : ¬ TwoThirdsDecided
    [⟨1, str "a", [⟨1, str "g"⟩, ⟨2, str "h"⟩]⟩, ⟨1, str "b", [⟨1, str "g"⟩, ⟨2, str "h"⟩]⟩,
      ⟨1, str "c", [⟨1, str "g"⟩]⟩] 3 := by
  repeat rw [str_ofList]
  intro h
  have hiff := (h (by decide)) 2 [104]
  exact absurd (hiff.mpr (by decide)) (by decide)

end Tfs.Ca.FromZeroSumHash
