import Tfs.Ca.SyncBlock
import Tfs.Lib.Sorted

/-! Which saved blocks a fast synchronisation gives up (`SyncBlock::_GetFastSyncSumHashNode` in
    `ca/sync_block.cpp`, up to the rollback).

    Each answer names hashes by height. The answers are counted per hash, and a hash that fewer than 66
    percent of them name loses its saved block. Of each height the function also records what the first
    answer that names it has named so far, and where the other hashes of a height agree, a saved block
    that is not recorded is given up: how many answers name it is not asked. -/

namespace Tfs.Ca.FastSync

/-! ### The answers -/

/-- `message FastSyncBlockHashs`. -/
structure FastSyncBlockHashs where
  height : ℕ
  hashs : List Str

/-- `message FastSyncGetHashAck`, as far as the rollback depends on it. -/
structure FastSyncGetHashAck where
  hashs : List FastSyncBlockHashs

/-- `FastSyncHelper`; the nodes that named the hash are only used to choose whom to ask next. The hits
    are a `uint32_t`, which `hits_lt` bounds. -/
structure FastSyncHelper where
  hits : ℕ
  height : ℕ
  deriving DecidableEq

/-- What the loop over the answers fills: `syncHashs`, and `fastSyncHashs` with each set as the list of
    what was inserted into it. -/
structure Votes where
  syncHashs : SortedMap Str FastSyncHelper
  fastSyncHashs : SortedMap ℕ (List Str)

/-- A hash is counted. -/
def countHash (height : ℕ) (syncHashs : SortedMap Str FastSyncHelper) (hash : Str) :
    SortedMap Str FastSyncHelper :=
  syncHashs.upsert hash fun value => ⟨((value.map (·.hits)).getD 0) + 1, (value.map (·.height)).getD height⟩

/-- The loop over one answer; `heightHashs` is carried from height to height. -/
def countAnswer : List FastSyncBlockHashs → List Str → Votes → Votes
  | [], _, votes => votes
  | entry :: entries, heightHashs, votes =>
    let heightHashs := heightHashs ++ entry.hashs
    countAnswer entries heightHashs
      { syncHashs := entry.hashs.foldl (countHash entry.height) votes.syncHashs
        fastSyncHashs := votes.fastSyncHashs.upsert entry.height fun value => value.getD heightHashs }

/-- The loop over the parsed answers. -/
def countAnswers (acks : List FastSyncGetHashAck) : Votes :=
  acks.foldl (fun votes ack => countAnswer ack.hashs [] votes) ⟨.empty, .empty⟩

/-! ### The local chain -/

/-- The database: a block is saved under its own hash. -/
structure LocalChain where
  getBlockByBlockHash : Str → Option Str
  /-- `ParseFromString`: whether it succeeds, and the message afterwards -/
  parseFromString : Str → Bool × CBlock
  /-- `GetBlockHashesByBlockHeight` for one height -/
  getBlockHashesByBlockHeight : ℕ → Option (List Str)
  saved : ∀ hash raw, getBlockByBlockHash hash = some raw →
    (parseFromString raw).1 = true ∧ (parseFromString raw).2.hash = hash

/-- What else the function reads. -/
structure FastSyncMeets where
  currentTime : UInt64
  chainHeight : ℕ
  /-- `GetHeightBlockHash` succeeds -/
  heightsRead : Bool

/-- `kStabilityTime`. -/
def kStabilityTime : UInt64 := 60 * 1000000

variable (chain : LocalChain) (m : FastSyncMeets)

/-- `byzantineSuccess`. The comparison with `ret_num * 0.66` in `double` is exact for every `uint32_t`. -/
def byzantineSuccess (retNum : ℕ) (helper : FastSyncHelper) : Bool := 66 * retNum ≤ 100 * helper.hits

/-- The block to give up for a hash that is not agreed on: `.error` where the function returns false. -/
def disagreedBlock (hash : Str) : Except Unit (Option CBlock) :=
  match chain.getBlockByBlockHash hash with
  | none => .ok none
  | some blockRaw =>
    if ! (chain.parseFromString blockRaw).1 then .error ()
    else if m.currentTime - (chain.parseFromString blockRaw).2.time > kStabilityTime then
      .ok (some (chain.parseFromString blockRaw).2)
    else .ok none

/-- The first of the hashes whose block is old enough. -/
def firstOldBlock : List Str → Except Unit (Option CBlock)
  | [] => .ok none
  | diffHash :: diffHashes =>
    match chain.getBlockByBlockHash diffHash with
    | none => .error ()
    | some strblock =>
      let block := (chain.parseFromString strblock).2
      if heightKey block < m.chainHeight ∧ m.chainHeight - heightKey block > 10 then .ok (some block)
      else firstOldBlock diffHashes

/-- The block to give up at a height of which a hash is agreed on. -/
def missingBlock (height : ℕ) (recorded : Option (List Str)) : Except Unit (Option CBlock) :=
  match chain.getBlockHashesByBlockHeight height with
  | none => .error ()
  | some selfBlockHashes =>
    match recorded with
    | none => .ok none
    | some hashes => firstOldBlock chain m
        (Sorted.setDifference (selfBlockHashes.insertionSort (· ≤ ·)) (sortedSet hashes))

/-- The loop over `syncHashs`: the blocks it puts into `rollbackBlockData`, one after the other. -/
def rollbackLoop (retNum : ℕ) (fastSyncHashs : SortedMap ℕ (List Str)) :
    List (Str × FastSyncHelper) → List CBlock
  | [] => []
  | (hash, helper) :: rest =>
    if byzantineSuccess retNum helper then
      match missingBlock chain m helper.height (fastSyncHashs.find helper.height) with
      | .error () => []
      | .ok found => found.toList ++ rollbackLoop retNum fastSyncHashs rest
    else match disagreedBlock chain m hash with
      | .error () => []
      | .ok (some block) => [block]
      | .ok none => rollbackLoop retNum fastSyncHashs rest

/-- `rollbackBlockData` at the end of the loop. -/
def rollbackBlockData (acks : List FastSyncGetHashAck) : SyncBlockData :=
  if m.heightsRead then
    (rollbackLoop chain m acks.length (countAnswers acks).fastSyncHashs
      (countAnswers acks).syncHashs.entries).foldl addBlockToMap .empty
  else .empty

/-! ### What the answers say -/

/-- What an answer names: heights and hashes. -/
def FastSyncGetHashAck.named (ack : FastSyncGetHashAck) : List (ℕ × Str) :=
  ack.hashs.flatMap fun entry => entry.hashs.map (entry.height, ·)

/-- How many answers name the hash. -/
def reportedBy (acks : List FastSyncGetHashAck) (hash : Str) : ℕ :=
  acks.countP fun ack => hash ∈ ack.named.map Prod.snd

/-- How often the answers name the hash. -/
def occurrences (acks : List FastSyncGetHashAck) (hash : Str) : ℕ :=
  (acks.flatMap (·.named)).countP fun e => e.2 = hash

/-- The height under which the hash is named first. -/
def firstHeight (acks : List FastSyncGetHashAck) (hash : Str) : Option ℕ :=
  ((acks.flatMap (·.named)).find? fun e => e.2 = hash).map Prod.fst

/-- What an answer has named up to the first time it names the height. -/
def namedUpTo (height : ℕ) : List FastSyncBlockHashs → Option (List Str)
  | [] => none
  | entry :: entries =>
    if entry.height = height then some entry.hashs
    else (namedUpTo height entries).map (entry.hashs ++ ·)

/-- What the first answer that names the height has named by then. -/
def recordedAt (acks : List FastSyncGetHashAck) (height : ℕ) : Option (List Str) :=
  acks.findSome? fun ack => namedUpTo height ack.hashs

/-! ### What the function counts -/

theorem foldl_countHash_find (hash : Str) (pairs : List (ℕ × Str)) :
    (pairs.foldl (fun syncHashs e => countHash e.1 syncHashs e.2) SortedMap.empty).find hash =
      ((pairs.find? fun e => e.2 = hash).map Prod.fst).map fun height =>
        ⟨pairs.countP fun e => e.2 = hash, height⟩ := by
  induction pairs using List.reverseRecOn with
  | nil => rfl
  | append_singleton pairs e ih =>
    rw [List.foldl_concat, countHash, SortedMap.find_upsert, List.countP_append, List.find?_append]
    by_cases heq : hash = e.2
    · rw [if_pos heq, ← heq, ih]
      cases hfind : pairs.find? fun e => e.2 = hash with
      | none =>
        have hzero : pairs.countP (fun e => e.2 = hash) = 0 :=
          List.countP_eq_zero.mpr fun e he => List.find?_eq_none.mp hfind e he
        simp [hzero, ← heq]
      | some first => simp [← heq]
    · rw [if_neg heq, ih]
      simp [Ne.symm heq]

theorem countAnswer_syncHashs : ∀ (entries : List FastSyncBlockHashs) (heightHashs : List Str) (votes : Votes),
    (countAnswer entries heightHashs votes).syncHashs =
      (entries.flatMap fun entry => entry.hashs.map (entry.height, ·)).foldl
        (fun syncHashs e => countHash e.1 syncHashs e.2) votes.syncHashs
  | [], _, _ => rfl
  | entry :: entries, heightHashs, votes => by
    rw [countAnswer, countAnswer_syncHashs entries, List.flatMap_cons, List.foldl_append, List.foldl_map]

/-- `syncHashs` has for each hash how often it is named, and where first. -/
theorem countAnswers_syncHashs (acks : List FastSyncGetHashAck) (hash : Str) :
    (countAnswers acks).syncHashs.find hash =
      (firstHeight acks hash).map fun height => ⟨occurrences acks hash, height⟩ := by
  have hfold : ∀ (acks : List FastSyncGetHashAck) (votes : Votes),
      (acks.foldl (fun votes ack => countAnswer ack.hashs [] votes) votes).syncHashs =
        (acks.flatMap (·.named)).foldl (fun syncHashs e => countHash e.1 syncHashs e.2) votes.syncHashs := by
    intro acks
    induction acks with
    | nil => exact fun _ => rfl
    | cons ack acks ih =>
      intro votes
      rw [List.foldl_cons, ih, countAnswer_syncHashs, List.flatMap_cons, List.foldl_append]
      rfl
  rw [countAnswers, hfold, foldl_countHash_find]
  rfl

theorem countAnswer_fastSyncHashs (height : ℕ) : ∀ (entries : List FastSyncBlockHashs)
    (heightHashs : List Str) (votes : Votes),
    (countAnswer entries heightHashs votes).fastSyncHashs.find height =
      (votes.fastSyncHashs.find height).or ((namedUpTo height entries).map (heightHashs ++ ·))
  | [], _, _ => (Option.or_none).symm
  | entry :: entries, heightHashs, votes => by
    rw [countAnswer, countAnswer_fastSyncHashs height entries, SortedMap.find_upsert, namedUpTo]
    by_cases heq : height = entry.height
    · rw [if_pos heq, if_pos heq.symm, ← heq]
      cases votes.fastSyncHashs.find height <;> rfl
    · rw [if_neg heq, if_neg (Ne.symm heq), Option.map_map]
      congr 2
      funext hashes
      exact List.append_assoc _ _ _

/-- `fastSyncHashs` has for each height what the first answer that names it has named by then. -/
theorem countAnswers_fastSyncHashs (acks : List FastSyncGetHashAck) (height : ℕ) :
    (countAnswers acks).fastSyncHashs.find height = recordedAt acks height := by
  have hfold : ∀ (acks : List FastSyncGetHashAck) (votes : Votes),
      (acks.foldl (fun votes ack => countAnswer ack.hashs [] votes) votes).fastSyncHashs.find height =
        (votes.fastSyncHashs.find height).or (recordedAt acks height) := by
    intro acks
    induction acks with
    | nil => exact fun _ => (Option.or_none).symm
    | cons ack acks ih =>
      intro votes
      rw [List.foldl_cons, ih, countAnswer_fastSyncHashs, Option.or_assoc]
      simp only [recordedAt, List.findSome?_cons, List.nil_append, Option.map_id']
      cases namedUpTo height ack.hashs <;> rfl
  rw [countAnswers, hfold]
  rfl

/-- An answer that names a hash names it at least once. -/
theorem reportedBy_le_occurrences (acks : List FastSyncGetHashAck) (hash : Str) :
    reportedBy acks hash ≤ occurrences acks hash := by
  induction acks with
  | nil => exact Nat.le_refl _
  | cons ack acks ih =>
    have hack : (if hash ∈ ack.named.map Prod.snd then 1 else 0) ≤ ack.named.countP fun e => e.2 = hash := by
      split_ifs with hin
      · obtain ⟨e, he, heq⟩ := List.mem_map.mp hin
        exact List.countP_pos_iff.mpr ⟨e, he, by simpa using heq⟩
      · exact Nat.zero_le _
    simp only [reportedBy, occurrences, List.countP_cons, List.flatMap_cons, List.countP_append,
      decide_eq_true_eq] at ih ⊢
    omega

/-! ### The order of the hashes -/

/-- What the loop finds for an entry. -/
def entryBlock (retNum : ℕ) (fastSyncHashs : SortedMap ℕ (List Str)) (e : Str × FastSyncHelper) :
    Except Unit (Option CBlock) :=
  if byzantineSuccess retNum e.2 then
    missingBlock chain m e.2.height (fastSyncHashs.find e.2.height)
  else disagreedBlock chain m e.1

/-- The loop goes on after the entry. -/
def GoesOn (retNum : ℕ) (fastSyncHashs : SortedMap ℕ (List Str)) (e : Str × FastSyncHelper) : Prop :=
  ∃ found, entryBlock chain m retNum fastSyncHashs e = .ok found ∧
    (byzantineSuccess retNum e.2 = false → found = none)

variable {chain m} {retNum : ℕ} {fastSyncHashs : SortedMap ℕ (List Str)}

theorem isFirst_cons {x z : CBlock} {l : List CBlock} : IsFirst CBlockCompare (x :: l) z ↔
    z = x ∨ ¬ StdSet.Equiv CBlockCompare z x ∧ IsFirst CBlockCompare l z := by
  constructor
  · rintro ⟨before, later, h, hfirst⟩
    cases before with
    | nil => exact .inl (List.cons.inj h).1.symm
    | cons y before =>
      obtain ⟨rfl, rfl⟩ := List.cons.inj h
      exact .inr ⟨hfirst x List.mem_cons_self, before, later, rfl,
        fun y hy => hfirst y (List.mem_cons_of_mem _ hy)⟩
  · rintro (rfl | ⟨hsep, before, later, rfl, hfirst⟩)
    · exact ⟨[], l, rfl, fun _ hy => absurd hy List.not_mem_nil⟩
    · refine ⟨x :: before, later, rfl, fun y hy => ?_⟩
      rcases List.mem_cons.mp hy with rfl | hy
      · exact hsep
      · exact hfirst y hy

/-- One round of the loop. -/
theorem rollbackLoop_cons (e : Str × FastSyncHelper) (rest : List (Str × FastSyncHelper)) :
    rollbackLoop chain m retNum fastSyncHashs (e :: rest) =
      match entryBlock chain m retNum fastSyncHashs e with
      | .error () => []
      | .ok none => rollbackLoop chain m retNum fastSyncHashs rest
      | .ok (some block) =>
        if byzantineSuccess retNum e.2 then block :: rollbackLoop chain m retNum fastSyncHashs rest
        else [block] := by
  obtain ⟨hash, helper⟩ := e
  rw [rollbackLoop, entryBlock]
  cases hbyz : byzantineSuccess retNum helper with
  | true =>
    simp only [if_true]
    cases missingBlock chain m helper.height (fastSyncHashs.find helper.height) with
    | error u => rfl
    | ok found => cases found <;> rfl
  | false =>
    simp only [Bool.false_eq_true, if_false]
    cases disagreedBlock chain m hash with
    | error u => rfl
    | ok found => cases found <;> rfl

theorem not_isFirst_nil {z : CBlock} : ¬ IsFirst CBlockCompare [] z := by
  rintro ⟨before, later, h, -⟩
  simp at h

/-- A block that the loop is the first to put in, of its height and time, is found for an entry such that
    the loop goes on after all smaller ones, none of which gives a block of this height and time. -/
theorem isFirst_rollbackLoop {block : CBlock} : ∀ {entries : List (Str × FastSyncHelper)},
    entries.Pairwise (fun a b => a.1 < b.1) →
    (IsFirst CBlockCompare (rollbackLoop chain m retNum fastSyncHashs entries) block ↔
      ∃ e ∈ entries, entryBlock chain m retNum fastSyncHashs e = .ok (some block) ∧
        ∀ e' ∈ entries, e'.1 < e.1 → GoesOn chain m retNum fastSyncHashs e' ∧
          ∀ block', entryBlock chain m retNum fastSyncHashs e' = .ok (some block') →
            ¬ StdSet.Equiv CBlockCompare block block') := by
  intro entries
  induction entries with
  | nil =>
    intro _
    refine iff_of_false not_isFirst_nil ?_
    rintro ⟨e, he, -⟩
    cases he
  | cons e₀ rest ih =>
    intro hsorted
    obtain ⟨hlt, hrest⟩ := List.pairwise_cons.mp hsorted
    have ih := ih hrest
    -- what the first entry adds to the condition on a later one
    have hcons : (∃ e ∈ e₀ :: rest, entryBlock chain m retNum fastSyncHashs e = .ok (some block) ∧
        ∀ e' ∈ e₀ :: rest, e'.1 < e.1 → GoesOn chain m retNum fastSyncHashs e' ∧
          ∀ block', entryBlock chain m retNum fastSyncHashs e' = .ok (some block') →
            ¬ StdSet.Equiv CBlockCompare block block') ↔
        entryBlock chain m retNum fastSyncHashs e₀ = .ok (some block) ∨
        (GoesOn chain m retNum fastSyncHashs e₀ ∧
          ∀ block', entryBlock chain m retNum fastSyncHashs e₀ = .ok (some block') →
            ¬ StdSet.Equiv CBlockCompare block block') ∧
        IsFirst CBlockCompare (rollbackLoop chain m retNum fastSyncHashs rest) block := by
      rw [ih]
      constructor
      · rintro ⟨e, he, hblock, hbefore⟩
        rcases List.mem_cons.mp he with rfl | he
        · exact .inl hblock
        · exact .inr ⟨hbefore e₀ List.mem_cons_self (hlt e he), e, he, hblock,
            fun e' he' => hbefore e' (List.mem_cons_of_mem _ he')⟩
      · rintro (hblock | ⟨hhead, e, he, hblock, hbefore⟩)
        · refine ⟨e₀, List.mem_cons_self, hblock, fun e' he' hlt' => ?_⟩
          rcases List.mem_cons.mp he' with rfl | he'
          · exact absurd hlt' (lt_irrefl _)
          · exact absurd hlt' (lt_asymm (hlt e' he'))
        · refine ⟨e, List.mem_cons_of_mem _ he, hblock, fun e' he' hlt' => ?_⟩
          rcases List.mem_cons.mp he' with rfl | he'
          · exact hhead
          · exact hbefore e' he' hlt'
    rw [hcons, rollbackLoop_cons, GoesOn]
    cases hentry : entryBlock chain m retNum fastSyncHashs e₀ with
    | error u => simp [not_isFirst_nil]
    | ok found =>
      cases found with
      | none => simp
      | some block₀ =>
        cases hbyz : byzantineSuccess retNum e₀.2 with
        | true => simp [isFirst_cons, eq_comm]
        | false => simp [isFirst_cons, not_isFirst_nil, eq_comm]

/-! ### Which saved blocks are given up -/

/-- At least 66 percent of the parsed answers name the hash, counted as often as they name it. -/
def Agreed (acks : List FastSyncGetHashAck) (hash : Str) : Prop :=
  66 * acks.length ≤ 100 * occurrences acks hash

instance (acks : List FastSyncGetHashAck) (hash : Str) : Decidable (Agreed acks hash) :=
  inferInstanceAs (Decidable (_ ≤ _))

/-- The block found for a hash: for one agreed on, the first old local block of its height that is not
    among what the first answer that names this height has named by then; for any other, its own block if
    that is old. -/
def blockFor (chain : LocalChain) (m : FastSyncMeets) (acks : List FastSyncGetHashAck) (hash : Str) :
    Except Unit (Option CBlock) :=
  if Agreed acks hash then
    missingBlock chain m ((firstHeight acks hash).getD 0) (recordedAt acks ((firstHeight acks hash).getD 0))
  else disagreedBlock chain m hash

/-- The loop passes the hash without ending: nothing fails to be read, and a hash that is not agreed on
    has no old block. -/
def Passed (chain : LocalChain) (m : FastSyncMeets) (acks : List FastSyncGetHashAck) (hash : Str) : Prop :=
  ∃ found, blockFor chain m acks hash = .ok found ∧ (¬ Agreed acks hash → found = none)

/-- The block found for a named hash is put in: all smaller named hashes are passed, and no block found
    for one of them has its height and time. -/
def PutIn (chain : LocalChain) (m : FastSyncMeets) (acks : List FastSyncGetHashAck) (hash : Str)
    (block : CBlock) : Prop :=
  m.heightsRead = true ∧ (firstHeight acks hash).isSome ∧ blockFor chain m acks hash = .ok (some block) ∧
    ∀ hash' < hash, (firstHeight acks hash').isSome → Passed chain m acks hash' ∧
      ∀ block', blockFor chain m acks hash' = .ok (some block') →
        ¬ (block.height = block'.height ∧ block.time = block'.time)

/-- The entries of `syncHashs`. -/
theorem mem_syncHashs {acks : List FastSyncGetHashAck} {hash : Str} {helper : FastSyncHelper} :
    (hash, helper) ∈ (countAnswers acks).syncHashs.entries ↔
      ∃ height, firstHeight acks hash = some height ∧ helper = ⟨occurrences acks hash, height⟩ := by
  rw [SortedMap.mem_iff_find, countAnswers_syncHashs, Option.map_eq_some_iff]
  simp only [eq_comm]

/-- The hits stay within a `uint32_t` while the answers name fewer than 2^32 hashes. -/
theorem hits_lt {acks : List FastSyncGetHashAck} (h : (acks.flatMap (·.named)).length < 2 ^ 32)
    {hash : Str} {helper : FastSyncHelper}
    (hentry : (hash, helper) ∈ (countAnswers acks).syncHashs.entries) : helper.hits < 2 ^ 32 := by
  obtain ⟨height, -, rfl⟩ := mem_syncHashs.mp hentry
  exact lt_of_le_of_lt List.countP_le_length h

theorem byzantineSuccess_iff {acks : List FastSyncGetHashAck} {hash : Str} {height : ℕ} :
    byzantineSuccess acks.length ⟨occurrences acks hash, height⟩ = true ↔ Agreed acks hash :=
  decide_eq_true_iff

theorem entryBlock_eq {acks : List FastSyncGetHashAck} {hash : Str} {height : ℕ}
    (hheight : firstHeight acks hash = some height) :
    entryBlock chain m acks.length (countAnswers acks).fastSyncHashs (hash, ⟨occurrences acks hash, height⟩)
      = blockFor chain m acks hash := by
  rw [entryBlock, blockFor, hheight, countAnswers_fastSyncHashs, Option.getD_some]
  by_cases hagreed : Agreed acks hash
  · rw [if_pos hagreed, if_pos (byzantineSuccess_iff.mpr hagreed)]
  · rw [if_neg hagreed, if_neg (mt byzantineSuccess_iff.mp hagreed)]

theorem goesOn_iff {acks : List FastSyncGetHashAck} {hash : Str} {height : ℕ}
    (hheight : firstHeight acks hash = some height) :
    GoesOn chain m acks.length (countAnswers acks).fastSyncHashs (hash, ⟨occurrences acks hash, height⟩)
      ↔ Passed chain m acks hash := by
  rw [GoesOn, Passed, entryBlock_eq hheight, ← @byzantineSuccess_iff acks hash height, Bool.not_eq_true]

/-- A block is collected when no block of its height and time came before it. -/
theorem mem_collect_iff {blocks : List CBlock} {block : CBlock} :
    block ∈ SyncBlockData.blocks (blocks.foldl addBlockToMap .empty) ↔ IsFirst CBlockCompare blocks block :=
  (collect_spec blocks).1 block

/-- What the function puts into `rollbackBlockData`. -/
theorem mem_rollbackBlockData {acks : List FastSyncGetHashAck} {block : CBlock} :
    block ∈ (rollbackBlockData chain m acks).blocks ↔ ∃ hash, PutIn chain m acks hash block := by
  rw [rollbackBlockData]
  cases hread : m.heightsRead with
  | false =>
    refine iff_of_false (fun h => ?_) ?_
    · cases h
    · rintro ⟨hash, hputIn⟩
      cases hread.symm.trans hputIn.1
  | true =>
    rw [if_pos rfl, mem_collect_iff, isFirst_rollbackLoop (countAnswers acks).syncHashs.sorted]
    constructor
    · rintro ⟨⟨hash, helper⟩, he, hblock, hbefore⟩
      obtain ⟨height, hheight, rfl⟩ := mem_syncHashs.mp he
      rw [entryBlock_eq hheight] at hblock
      refine ⟨hash, hread, by rw [hheight]; rfl, hblock, fun hash' hlt hnamed => ?_⟩
      obtain ⟨height', hheight'⟩ := Option.isSome_iff_exists.mp hnamed
      obtain ⟨hpass, hsep⟩ := hbefore _ (mem_syncHashs.mpr ⟨height', hheight', rfl⟩) hlt
      rw [entryBlock_eq hheight'] at hsep
      exact ⟨(goesOn_iff hheight').mp hpass, fun block' hblock' heq =>
        hsep block' hblock' (equiv_compare_iff.mpr heq)⟩
    · rintro ⟨hash, -, hnamed, hblock, hbefore⟩
      obtain ⟨height, hheight⟩ := Option.isSome_iff_exists.mp hnamed
      refine ⟨_, mem_syncHashs.mpr ⟨height, hheight, rfl⟩, by rw [entryBlock_eq hheight]; exact hblock, ?_⟩
      rintro ⟨hash', helper'⟩ he' hlt
      obtain ⟨height', hheight', rfl⟩ := mem_syncHashs.mp he'
      obtain ⟨hpass, hsep⟩ := hbefore hash' hlt (by rw [hheight']; rfl)
      rw [entryBlock_eq hheight']
      exact ⟨(goesOn_iff hheight').mpr hpass, fun block' hblock' heq =>
        hsep block' hblock' (equiv_compare_iff.mp heq)⟩

/-- The block found for a hash that is not agreed on is the one saved under it. -/
theorem disagreedBlock_hash {hash : Str} {block : CBlock} (h : disagreedBlock chain m hash = .ok (some block)) :
    block.hash = hash := by
  rw [disagreedBlock] at h
  split at h
  · cases h
  · next blockRaw hraw =>
    obtain ⟨hparse, hhash⟩ := chain.saved _ _ hraw
    rw [hparse] at h
    simp only [Bool.not_true, Bool.false_eq_true, if_false] at h
    split_ifs at h
    · cases h
      exact hhash
    · cases h

/-- Every saved block given up was named by fewer than 66 percent of the parsed answers. -/
def RollsBackMinority (chain : LocalChain) (m : FastSyncMeets) (acks : List FastSyncGetHashAck) : Prop :=
  ∀ block ∈ (rollbackBlockData chain m acks).blocks, 100 * reportedBy acks block.hash < 66 * acks.length

/-- A saved block is given up although nobody has asked how many answers name it: a hash of its height is
    agreed on, and it is the first old block of this height that the first answer which names the height
    had not named by then. All smaller hashes are passed, and none gives up a block of its height and
    time. -/
def GivenUpUnasked (chain : LocalChain) (m : FastSyncMeets) (acks : List FastSyncGetHashAck)
    (block : CBlock) : Prop :=
  m.heightsRead = true ∧ ∃ hash height, Agreed acks hash ∧ firstHeight acks hash = some height ∧
    missingBlock chain m height (recordedAt acks height) = .ok (some block) ∧
    ∀ hash' < hash, (firstHeight acks hash').isSome → Passed chain m acks hash' ∧
      ∀ block', blockFor chain m acks hash' = .ok (some block') →
        ¬ (block.height = block'.height ∧ block.time = block'.time)

theorem givenUpUnasked_iff {acks : List FastSyncGetHashAck} {block : CBlock} :
    GivenUpUnasked chain m acks block ↔ ∃ hash, Agreed acks hash ∧ PutIn chain m acks hash block := by
  constructor
  · rintro ⟨hread, hash, height, hagreed, hheight, hmissing, hbefore⟩
    refine ⟨hash, hagreed, hread, by rw [hheight]; rfl, ?_, hbefore⟩
    rw [blockFor, if_pos hagreed, hheight]
    exact hmissing
  · rintro ⟨hash, hagreed, hread, hnamed, hblock, hbefore⟩
    obtain ⟨height, hheight⟩ := Option.isSome_iff_exists.mp hnamed
    rw [blockFor, if_pos hagreed, hheight] at hblock
    exact ⟨hread, hash, height, hagreed, hheight, hblock, hbefore⟩

/-- Only blocks named by fewer than 66 percent of the answers are given up exactly when no block that at
    least 66 percent of them name is given up unasked. -/
theorem rolls_back_minority_iff (chain : LocalChain) (m : FastSyncMeets) (acks : List FastSyncGetHashAck) :
    RollsBackMinority chain m acks ↔ ∀ block, 66 * acks.length ≤ 100 * reportedBy acks block.hash →
      ¬ GivenUpUnasked chain m acks block := by
  rw [RollsBackMinority]
  simp only [mem_rollbackBlockData, givenUpUnasked_iff]
  constructor
  · rintro hall block hmost ⟨hash, -, hputIn⟩
    exact absurd (hall block ⟨hash, hputIn⟩) (not_lt.mpr hmost)
  · rintro hunasked block ⟨hash, hputIn⟩
    by_cases hagree : Agreed acks hash
    · exact not_le.mp fun hmost => hunasked block hmost ⟨hash, hagree, hputIn⟩
    · have hblock := hputIn.2.2.1
      rw [blockFor, if_neg hagree] at hblock
      rw [disagreedBlock_hash hblock]
      rw [Agreed] at hagree
      have hle := reportedBy_le_occurrences acks hash
      omega

/-- A chain of two blocks of height 5, saved under their hashes. -/
def sampleChain : LocalChain where
  getBlockByBlockHash hash := if hash = str "a" ∨ hash = str "b" then some hash else none
  parseFromString raw := (true, ⟨0, raw, [], 5, [], []⟩)
  getBlockHashesByBlockHeight _ := some [str "a", str "b"]
  saved := by
    rintro hash raw h
    split_ifs at h
    cases h
    exact ⟨rfl, rfl⟩

/-- Three answers, the first of which does not name the block `b`: it is given up, although the other two
    name it. -/
theorem majority_block_given_up :
    let acks : List FastSyncGetHashAck :=
      [⟨[⟨5, [str "a"]⟩]⟩, ⟨[⟨5, [str "a", str "b"]⟩]⟩, ⟨[⟨5, [str "a", str "b"]⟩]⟩]
    reportedBy acks (str "b") = 2 ∧ ¬ RollsBackMinority sampleChain ⟨100000000, 100, true⟩ acks := by
  intro acks
  have hnamed : reportedBy acks (str "b") = 2 := by decide
  refine ⟨hnamed, fun hall => ?_⟩
  have hblocks : (rollbackBlockData sampleChain ⟨100000000, 100, true⟩ acks).blocks
      = [⟨0, str "b", [], 5, [], []⟩] := by decide
  have hfew := hall ⟨0, str "b", [], 5, [], []⟩ (by rw [hblocks]; exact List.mem_singleton_self _)
  rw [hnamed] at hfew
  exact absurd hfew (by decide)

end Tfs.Ca.FastSync
