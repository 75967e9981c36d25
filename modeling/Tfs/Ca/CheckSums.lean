import Tfs.Ca.FromZeroSumHash

/-! Which heights are synchronized again after a check failed (`CheckBlocks::ByzantineSumHash` and
    `CheckBlocks::DoNewSync` in `ca/check_blocks.cpp`).

    The nodes are asked for their sum hashes at ten heights. The loop over what they answer goes through the
    heights that they named, not through those that they were asked for. -/

namespace Tfs.Ca.CheckSums

open FromZeroSumHash

/-! ### The functions -/

/-- What the functions read and call. -/
structure CheckSumsMeets where
  /-- `GetSumHashByHeight` -/
  getSumHashByHeight : UInt64 → Option Str
  /-- `ObtainChainHeight` -/
  obtainChainHeight : Option UInt64
  /-- `_RunNewSyncOnce` from one height to another -/
  runNewSyncOnce : UInt64 → UInt64 → ℤ

/-- `sumHashDatas`: an answer with code 0 counts, but names nothing. -/
def sumHashDatas (acks : List SyncFromZeroGetSumHashAck) : SortedMap UInt64 (SortedMap Str ℕ) :=
  (acks.filter fun ack => ack.code ≠ 0).foldl (fun m ack => ack.sumHashes.foldl (fun m sumHash =>
    m.upsert sumHash.height fun content => SortedMap.countOne (content.getD .empty) sumHash.hash) m) .empty

/-- One round of the loop over `sumHashDatas`: whether the height is needed. The comparison with 85 percent is that
    of the whole numbers. -/
def isNeeded (m : CheckSumsMeets) (successCount : ℕ) (sumHashData : UInt64 × SortedMap Str ℕ) : Bool :=
  match m.getSumHashByHeight sumHashData.1 with
  | none => true
  | some shelfSumHash =>
    match sumHashData.2.entries.argmax Prod.snd with
    | none => true
    | some maxIterator => ¬ (85 * successCount ≤ 100 * maxIterator.2 ∧ shelfSumHash = maxIterator.1)

/-- `CheckBlocks::ByzantineSumHash` for the parsed answers: its return value, and `needSyncHeights`. -/
def byzantineSumHash (m : CheckSumsMeets) (sendNum : ℕ) (acks : List SyncFromZeroGetSumHashAck) : ℤ × List UInt64 :=
  let successCount := acks.length
  let backNum := 4 * sendNum / 5
  if successCount ≥ backNum then
    (0, ((sumHashDatas acks).entries.filter (isNeeded m successCount)).map Prod.fst)
  else (-4, [])

/-- The heights that `DoNewSync` asks for. -/
def newSyncHeights (topBlockHeight : UInt64) : List UInt64 :=
  (List.range' 1 10).map fun i => topBlockHeight + UInt64.ofNat (i * 100)

/-- The loop of `DoNewSync`: its result, and the calls of `_RunNewSyncOnce`. -/
def syncLoop (m : CheckSumsMeets) : List UInt64 → ℤ × List (UInt64 × UInt64)
  | [] => (0, [])
  | syncHeight :: rest =>
    if m.runNewSyncOnce (syncHeight - 100) syncHeight ≠ 0 then (-3, [(syncHeight - 100, syncHeight)])
    else ((syncLoop m rest).1, (syncHeight - 100, syncHeight) :: (syncLoop m rest).2)

/-- `CheckBlocks::DoNewSync`; the answers are those to the request for `newSyncHeights`. -/
def doNewSync (m : CheckSumsMeets) (sendNum : ℕ) (acks : List SyncFromZeroGetSumHashAck) : ℤ × List (UInt64 × UInt64) :=
  match byzantineSumHash m sendNum acks with
  | (ret, needSyncHeights) =>
    if ret ≠ 0 then (-1, [])
    else match m.obtainChainHeight with
      | none => (-2, [])
      | some _ => syncLoop m needSyncHeights

/-! ### The votes -/

section Votes
variable (m : CheckSumsMeets) (acks : List SyncFromZeroGetSumHashAck)

/-- What the answers name. -/
def named : List (UInt64 × Str) :=
  (acks.filter fun ack => ack.code ≠ 0).flatMap fun ack => ack.sumHashes.map fun sumHash => (sumHash.height, sumHash.hash)

/-- The height is named by some answer. -/
def Answered (height : UInt64) : Prop := height ∈ (named acks).map Prod.fst

/-- The answers that name the hash for the height. -/
def confirmations (height : UInt64) (hash : Str) : ℕ :=
  acks.countP fun ack => ack.code ≠ 0 ∧ ⟨height, hash⟩ ∈ ack.sumHashes

/-- The local hash of a height is one that 85 percent of the answers name. -/
def Confirmed (height : UInt64) : Prop := ∃ hash, m.getSumHashByHeight height = some hash ∧
  85 * acks.length ≤ 100 * confirmations acks height hash

/-- Another hash is named for the height more often, or as often and it is smaller. -/
def Beaten (height : UInt64) (hash : Str) : Prop := ∃ hash', (height, hash') ∈ named acks ∧
  ((named acks).count (height, hash) < (named acks).count (height, hash') ∨
    (named acks).count (height, hash) = (named acks).count (height, hash') ∧ hash' < hash)

/-- The local hash of a height is the first of those that are named most often, with 85 percent. -/
def Leads (height : UInt64) : Prop := ∃ hash, m.getSumHashByHeight height = some hash ∧
  85 * acks.length ≤ 100 * (named acks).count (height, hash) ∧
    ∀ hash', (height, hash') ∈ named acks → (named acks).count (height, hash') < (named acks).count (height, hash) ∨
      (named acks).count (height, hash') = (named acks).count (height, hash) ∧ hash ≤ hash'

theorem leads_iff_not_beaten {height : UInt64} : Leads m acks height ↔ ∃ hash, m.getSumHashByHeight height = some hash ∧
    85 * acks.length ≤ 100 * (named acks).count (height, hash) ∧ ¬ Beaten acks height hash := by
  rw [Leads]
  refine exists_congr fun hash => and_congr_right fun _ => and_congr_right fun _ => ?_
  rw [Beaten]
  push Not
  refine forall_congr' fun hash' => imp_congr_right fun _ => ?_
  constructor
  · rintro (hlt | ⟨heq, hle⟩)
    · exact ⟨hlt.le, fun heq => absurd heq hlt.ne'⟩
    · exact ⟨heq.le, fun _ => hle⟩
  · rintro ⟨hle, htie⟩
    rcases hle.lt_or_eq with hlt | heq
    · exact .inl hlt
    · exact .inr ⟨heq, htie heq.symm⟩

/-- An answer that names a hash for a height does so at least once. -/
theorem confirmations_le_count (height : UInt64) (hash : Str) :
    confirmations acks height hash ≤ (named acks).count (height, hash) := by
  rw [confirmations, named]
  induction acks with
  | nil => exact le_rfl
  | cons ack acks ih =>
    rw [List.countP_cons, Nat.add_comm]
    by_cases hcode : ack.code ≠ 0
    · rw [List.filter_cons_of_pos (by simpa using hcode), List.flatMap_cons, List.count_append]
      split_ifs with hnames
      · refine Nat.add_le_add (List.count_pos_iff.mpr ?_) ih
        exact List.mem_map.mpr ⟨_, (of_decide_eq_true hnames).2, rfl⟩
      · exact (Nat.zero_add _).trans_le (ih.trans (Nat.le_add_left _ _))
    · rw [List.filter_cons_of_neg (by simpa using hcode), if_neg (by simp [not_not.mp hcode]), Nat.zero_add]
      exact ih

theorem sumHashDatas_eq : sumHashDatas acks = SortedMap.tallyEach (named acks) := by
  rw [sumHashDatas, SortedMap.tallyEach, SortedMap.insertEach, named, List.foldl_flatMap]
  simp only [List.foldl_map]

theorem mem_votes {height : UInt64} {hash : Str} {n : ℕ} :
    (hash, n) ∈ (SortedMap.tally (SortedMap.valuesOf height (named acks))).entries ↔
      (height, hash) ∈ named acks ∧ n = (named acks).count (height, hash) := by
  rw [SortedMap.mem_tally, SortedMap.mem_valuesOf, SortedMap.count_valuesOf]

/-- The first of the largest counts is that of the local hash exactly when the local hash leads. -/
theorem leads_iff {height : UInt64} {shelfSumHash : Str} (hlocal : m.getSumHashByHeight height = some shelfSumHash)
    {e : Str × ℕ} (he : (SortedMap.tally (SortedMap.valuesOf height (named acks))).entries.argmax Prod.snd = some e) :
    Leads m acks height ↔ 85 * acks.length ≤ 100 * e.2 ∧ shelfSumHash = e.1 := by
  obtain ⟨hin, hmax⟩ := SortedMap.argmax_entries.mp he
  obtain ⟨hnamed, hcount⟩ := (mem_votes acks).mp hin
  have hpos : 0 < e.2 := hcount ▸ List.count_pos_iff.mpr hnamed
  constructor
  · rintro ⟨hash, hsome, hbound, hfirst⟩
    obtain rfl := Option.some_inj.mp (hlocal.symm.trans hsome)
    have hle : e.2 ≤ (named acks).count (height, shelfSumHash) := by
      rw [hcount]
      exact (hfirst e.1 hnamed).elim (fun h => h.le) fun h => h.1.le
    have hshelf := List.count_pos_iff.mp (hpos.trans_le hle)
    obtain ⟨heq, hge⟩ := (hmax _ ((mem_votes acks).mpr ⟨hshelf, rfl⟩)).resolve_left (not_lt.mpr hle)
    have hle' := ((hfirst e.1 hnamed).resolve_left (by rw [← hcount]; exact heq.not_gt)).2
    exact ⟨heq ▸ hbound, le_antisymm hle' hge⟩
  · rintro ⟨hbound, rfl⟩
    refine ⟨e.1, hlocal, hcount ▸ hbound, fun hash' hnamed' => ?_⟩
    have h := hmax _ ((mem_votes acks).mpr ⟨hnamed', rfl⟩)
    rw [hcount] at h
    exact h

theorem isNeeded_iff {height : UInt64} (hans : Answered acks height) :
    isNeeded m acks.length (height, SortedMap.tally (SortedMap.valuesOf height (named acks))) = true ↔
      ¬ Leads m acks height := by
  cases hlocal : m.getSumHashByHeight height with
  | none =>
    refine iff_of_true (by simp [isNeeded, hlocal]) ?_
    rintro ⟨hash, hsome, -⟩
    cases hlocal.symm.trans hsome
  | some shelfSumHash =>
    cases hmax : (SortedMap.tally (SortedMap.valuesOf height (named acks))).entries.argmax Prod.snd with
    | none =>
      obtain ⟨e, he, rfl⟩ := List.mem_map.mp hans
      have hin := (mem_votes acks).mpr ⟨he, rfl⟩
      rw [List.argmax_eq_none.mp hmax] at hin
      cases hin
    | some e =>
      rw [leads_iff m acks hlocal hmax]
      simp only [isNeeded, hlocal, hmax, decide_eq_true_eq]

/-- A height is needed when it is named and the local hash does not lead. -/
theorem mem_needSyncHeights {height : UInt64} :
    height ∈ ((sumHashDatas acks).entries.filter (isNeeded m acks.length)).map Prod.fst ↔
      Answered acks height ∧ ¬ Leads m acks height := by
  rw [List.mem_map]
  constructor
  · rintro ⟨e, he, rfl⟩
    obtain ⟨hin, hneed⟩ := List.mem_filter.mp he
    rw [sumHashDatas_eq] at hin
    obtain ⟨hans, htally⟩ := SortedMap.mem_tallyEach.mp hin
    refine ⟨hans, (isNeeded_iff m acks hans).mp ?_⟩
    rw [← htally]
    exact hneed
  · rintro ⟨hans, hnot⟩
    refine ⟨_, List.mem_filter.mpr ⟨?_, (isNeeded_iff m acks hans).mpr hnot⟩, rfl⟩
    rw [sumHashDatas_eq]
    exact SortedMap.mem_tallyEach.mpr ⟨hans, rfl⟩

end Votes

/-! ### The subtraction -/

/-- The loop calls with heights of its list. -/
theorem mem_syncLoop (m : CheckSumsMeets) {r : UInt64 × UInt64} : ∀ {heights : List UInt64},
    r ∈ (syncLoop m heights).2 → r.2 ∈ heights ∧ r.1 = r.2 - 100
  | [], h => by cases h
  | height :: rest, h => by
    rw [syncLoop] at h
    split_ifs at h
    · obtain rfl := List.mem_singleton.mp h
      exact ⟨List.mem_cons_self, rfl⟩
    · rcases List.mem_cons.mp h with rfl | h
      · exact ⟨List.mem_cons_self, rfl⟩
      · exact (mem_syncLoop m h).imp_left (List.mem_cons_of_mem _)

/-- The first height of the list is synchronized in any case. -/
theorem head_syncLoop (m : CheckSumsMeets) (height : UInt64) (rest : List UInt64) :
    (height - 100, height) ∈ (syncLoop m (height :: rest)).2 := by
  rw [syncLoop]
  split_ifs
  · exact List.mem_singleton_self _
  · exact List.mem_cons_self

theorem sub_hundred {height : UInt64} : (height - 100).toNat + 100 = height.toNat ↔ 100 ≤ height.toNat := by
  constructor
  · intro h
    omega
  · intro h
    have hle : (100 : UInt64) ≤ height := UInt64.le_iff_toNat_le.mpr h
    have hten : (100 : UInt64).toNat = 100 := rfl
    rw [UInt64.toNat_sub_of_le _ _ hle, hten]
    omega

/-- In an ordered list, a subtraction wraps when some height is below 100: the first is. -/
theorem syncLoop_wraps (m : CheckSumsMeets) {heights : List UInt64} (hsorted : heights.Pairwise (· < ·)) :
    (∀ r ∈ (syncLoop m heights).2, r.1.toNat + 100 = r.2.toNat) ↔ ∀ height ∈ heights, 100 ≤ height.toNat := by
  constructor
  · intro hall height hin
    cases heights with
    | nil => cases hin
    | cons first rest =>
      have hfirst := sub_hundred.mp (hall _ (head_syncLoop m first rest))
      rcases List.mem_cons.mp hin with rfl | hin
      · exact hfirst
      · have hlt := UInt64.lt_iff_toNat_lt.mp ((List.pairwise_cons.mp hsorted).1 height hin)
        omega
  · intro hall r hr
    obtain ⟨hin, heq⟩ := mem_syncLoop m hr
    rw [heq]
    exact sub_hundred.mpr (hall _ hin)

/-! ### What is synchronized -/

section Exact
variable (m : CheckSumsMeets) (sendNum : ℕ) (acks : List SyncFromZeroGetSumHashAck) (sendHeights : List UInt64)

/-- When the call returns 0, the heights that are needed are those asked for whose local hash is missing or not
    confirmed. -/
def DisagreementExact : Prop := (byzantineSumHash m sendNum acks).1 = 0 →
  ∀ height, height ∈ (byzantineSumHash m sendNum acks).2 ↔
    height ∈ sendHeights ∧ (m.getSumHashByHeight height = none ∨ ¬ Confirmed m acks height)

/-- No subtraction of `DoNewSync` wraps. -/
def NeverWraps : Prop := ∀ r ∈ (doNewSync m sendNum acks).2, r.1.toNat + 100 = r.2.toNat

/-- A height that was not asked for is named, and the local hash, if there is one, is not named by 85 percent or
    is beaten. -/
def Unrequested (height : UInt64) : Prop := Answered acks height ∧ height ∉ sendHeights ∧
  ∀ hash, m.getSumHashByHeight height = some hash →
    100 * (named acks).count (height, hash) < 85 * acks.length ∨ Beaten acks height hash

/-- A height that was asked for and is not confirmed is not named by any answer. -/
def Unanswered (height : UInt64) : Prop :=
  height ∈ sendHeights ∧ ¬ Confirmed m acks height ∧ ¬ Answered acks height

/-- The local hash is confirmed, and beaten by another one that answers name as well. -/
def Outvoted (height : UInt64) : Prop := height ∈ sendHeights ∧ ∃ hash, m.getSumHashByHeight height = some hash ∧
  85 * acks.length ≤ 100 * confirmations acks height hash ∧ Beaten acks height hash

/-- Too few answers name the local hash, but some do so more than once, so that it is named for 85 percent and not
    beaten. -/
def Padded (height : UInt64) : Prop := height ∈ sendHeights ∧ ∃ hash, m.getSumHashByHeight height = some hash ∧
  100 * confirmations acks height hash < 85 * acks.length ∧
    85 * acks.length ≤ 100 * (named acks).count (height, hash) ∧ ¬ Beaten acks height hash

/-- The votes of the height are those that the claim counts. -/
def HeightFits (height : UInt64) : Prop :=
  ¬ Unrequested m acks sendHeights height ∧ ¬ Unanswered m acks sendHeights height ∧
    ¬ Outvoted m acks sendHeights height ∧ ¬ Padded m acks sendHeights height

variable {m acks sendHeights}

theorem not_leads_iff {height : UInt64} : ¬ Leads m acks height ↔
    ∀ hash, m.getSumHashByHeight height = some hash →
      100 * (named acks).count (height, hash) < 85 * acks.length ∨ Beaten acks height hash := by
  rw [leads_iff_not_beaten]
  push Not
  refine forall_congr' fun hash => imp_congr_right fun _ => ?_
  rw [← not_le, ← imp_iff_not_or]

/-- An outvoted height is confirmed, and needed for all that. -/
theorem outvoted_iff {height : UInt64} (hsend : height ∈ sendHeights) : Outvoted m acks sendHeights height ↔
    Answered acks height ∧ Confirmed m acks height ∧ ¬ Leads m acks height := by
  rw [Outvoted, and_iff_right hsend, Confirmed, leads_iff_not_beaten]
  constructor
  · rintro ⟨hash, hlocal, hmany, hbeaten⟩
    refine ⟨?_, ⟨hash, hlocal, hmany⟩, fun ⟨hash', hlocal', _, hfirst⟩ => hfirst ?_⟩
    · obtain ⟨hash', hin, -⟩ := hbeaten
      exact List.mem_map.mpr ⟨_, hin, rfl⟩
    · rwa [Option.some_inj.mp (hlocal'.symm.trans hlocal)]
  · rintro ⟨-, ⟨hash, hlocal, hmany⟩, hnot⟩
    refine ⟨hash, hlocal, hmany, not_not.mp fun hfirst => hnot ⟨hash, hlocal, ?_, hfirst⟩⟩
    have := confirmations_le_count acks height hash
    omega

/-- A padded height is not confirmed, and not needed for all that. -/
theorem padded_iff {height : UInt64} (hsend : height ∈ sendHeights) : Padded m acks sendHeights height ↔
    Answered acks height ∧ ¬ Confirmed m acks height ∧ Leads m acks height := by
  rw [Padded, and_iff_right hsend, Confirmed, leads_iff_not_beaten]
  constructor
  · rintro ⟨hash, hlocal, hfew, hleads⟩
    refine ⟨?_, fun ⟨hash', hlocal', hmany⟩ => ?_, hash, hlocal, hleads⟩
    · exact List.mem_map.mpr ⟨(height, hash), List.count_pos_iff.mp (by have := hleads.1; omega), rfl⟩
    · rw [Option.some_inj.mp (hlocal'.symm.trans hlocal)] at hmany
      omega
  · rintro ⟨-, hnot, hash, hlocal, hleads⟩
    exact ⟨hash, hlocal, not_le.mp fun hmany => hnot ⟨hash, hlocal, hmany⟩, hleads⟩

variable (m acks sendHeights)

/-- A height is in the set exactly when it should be, unless one of the four happens to it. -/
theorem heightFits_iff (height : UInt64) : HeightFits m acks sendHeights height ↔
    (Answered acks height ∧ ¬ Leads m acks height ↔ height ∈ sendHeights ∧ ¬ Confirmed m acks height) := by
  rw [HeightFits, Unrequested, ← not_leads_iff, Unanswered]
  by_cases hsend : height ∈ sendHeights
  · rw [outvoted_iff hsend, padded_iff hsend]
    by_cases hans : Answered acks height
    · by_cases hconfirmed : Confirmed m acks height
      · simp [hsend, hans, hconfirmed]
      · simp [hsend, hans, hconfirmed]
    · simp [hsend, hans]
  · have houtvoted : ¬ Outvoted m acks sendHeights height := fun h => hsend h.1
    have hpadded : ¬ Padded m acks sendHeights height := fun h => hsend h.1
    simp [hsend, houtvoted, hpadded]

theorem missing_or_iff (height : UInt64) :
    m.getSumHashByHeight height = none ∨ ¬ Confirmed m acks height ↔ ¬ Confirmed m acks height := by
  refine or_iff_right_of_imp ?_
  rintro hnone ⟨hash, hsome, -⟩
  cases hnone.symm.trans hsome

/-- The heights that are needed come in their order. -/
theorem pairwise_needSyncHeights :
    (((sumHashDatas acks).entries.filter (isNeeded m acks.length)).map Prod.fst).Pairwise (· < ·) :=
  List.pairwise_map.mpr ((sumHashDatas acks).sorted.filter _)

theorem byzantineSumHash_of_enough (henough : 4 * sendNum / 5 ≤ acks.length) : byzantineSumHash m sendNum acks =
    (0, ((sumHashDatas acks).entries.filter (isNeeded m acks.length)).map Prod.fst) := if_pos henough

theorem byzantineSumHash_of_few (hfew : acks.length < 4 * sendNum / 5) : byzantineSumHash m sendNum acks = (-4, []) :=
  if_neg (not_le.mpr hfew)

theorem disagreementExact_iff (henough : 4 * sendNum / 5 ≤ acks.length) :
    DisagreementExact m sendNum acks sendHeights ↔ ∀ height, HeightFits m acks sendHeights height := by
  rw [DisagreementExact, byzantineSumHash_of_enough m sendNum acks henough]
  simp only [mem_needSyncHeights, missing_or_iff, heightFits_iff, true_imp_iff]

theorem neverWraps_iff (henough : 4 * sendNum / 5 ≤ acks.length) : NeverWraps m sendNum acks ↔
    m.obtainChainHeight = none ∨ ∀ height, Answered acks height → ¬ Leads m acks height → 100 ≤ height.toNat := by
  rw [NeverWraps, doNewSync, byzantineSumHash_of_enough m sendNum acks henough]
  cases m.obtainChainHeight with
  | none => exact iff_of_true nofun (.inl rfl)
  | some chainHeight =>
    rw [or_iff_right nofun]
    refine (syncLoop_wraps m (pairwise_needSyncHeights m acks)).trans ?_
    simp only [mem_needSyncHeights, and_imp]

end Exact

/-- Both are so exactly when too few answer, or no height is named unrequested, left unanswered, outvoted or padded,
    and no height in dispute that `DoNewSync` asks for is the sum of a top height and more that wrapped. -/
theorem check_sums_exact_iff (m : CheckSumsMeets) (sendNum : ℕ) (acks : List SyncFromZeroGetSumHashAck)
    (sendHeights : List UInt64) :
    (DisagreementExact m sendNum acks sendHeights ∧
        ∀ topBlockHeight, sendHeights = newSyncHeights topBlockHeight → NeverWraps m sendNum acks) ↔
      acks.length < 4 * sendNum / 5 ∨
        (∀ height, ¬ Unrequested m acks sendHeights height ∧ ¬ Unanswered m acks sendHeights height ∧
          ¬ Outvoted m acks sendHeights height ∧ ¬ Padded m acks sendHeights height) ∧
        ∀ topBlockHeight, sendHeights = newSyncHeights topBlockHeight → m.obtainChainHeight = none ∨
          ∀ height ∈ sendHeights, ¬ Confirmed m acks height → 100 ≤ height.toNat := by
  rcases lt_or_ge acks.length (4 * sendNum / 5) with hfew | henough
  · have hbyz := byzantineSumHash_of_few m sendNum acks hfew
    refine iff_of_true ⟨fun h => ?_, fun _ _ r hr => ?_⟩ (.inl hfew)
    · rw [hbyz] at h
      exact absurd h (by decide)
    · rw [doNewSync, hbyz] at hr
      cases hr
  · rw [or_iff_right (not_lt.mpr henough), disagreementExact_iff m sendNum acks sendHeights henough,
      neverWraps_iff m sendNum acks henough]
    refine and_congr_right fun hfit => forall₂_congr fun _ _ => or_congr_right ?_
    have hneeded (height : UInt64) := (heightFits_iff m acks sendHeights height).mp (hfit height)
    constructor
    · intro h height hin hnot
      obtain ⟨hans, hbehind⟩ := (hneeded height).mpr ⟨hin, hnot⟩
      exact h height hans hbehind
    · intro h height hans hbehind
      obtain ⟨hin, hnot⟩ := (hneeded height).mp ⟨hans, hbehind⟩
      exact h height hin hnot

/-! ### Regular answers -/

/-- An answer names one hash for a height, and that once. -/
def Regular (acks : List SyncFromZeroGetSumHashAck) : Prop :=
  ∀ ack ∈ acks, (ack.sumHashes.map (·.height)).Nodup

section Regular
variable {m : CheckSumsMeets} {acks : List SyncFromZeroGetSumHashAck} {sendHeights : List UInt64}

/-- Then a hash is named as often as there are answers that name it. -/
theorem count_of_regular (h : Regular acks) (height : UInt64) (hash : Str) :
    (named acks).count (height, hash) = confirmations acks height hash := by
  have hnodup : ∀ ack ∈ acks.filter fun ack => ack.code ≠ 0,
      (ack.sumHashes.map fun sumHash => (sumHash.height, sumHash.hash)).Nodup := by
    intro ack hack
    refine List.Nodup.of_map Prod.fst ?_
    rw [List.map_map]
    exact h ack (List.mem_filter.mp hack).1
  rw [named, SortedMap.count_flatMap_of_nodup _ _ hnodup, List.countP_filter, confirmations]
  refine List.countP_congr fun ack _ => ?_
  rw [Bool.and_eq_true, List.contains_iff_mem, List.mem_map, decide_eq_true_eq, decide_eq_true_eq, and_comm]
  refine and_congr_right fun _ => ⟨fun ⟨s, hs, heq⟩ => ?_, fun hin => ⟨_, hin, rfl⟩⟩
  cases heq
  exact hs

/-- A hash that 85 percent of regular answers name is not beaten. -/
theorem not_beaten_of_regular (h : Regular acks) {height : UInt64} {hash : Str}
    (hmany : 85 * acks.length ≤ 100 * confirmations acks height hash) : ¬ Beaten acks height hash := by
  rintro ⟨hash', hin, hbeats⟩
  rw [count_of_regular h, count_of_regular h] at hbeats
  have hne : hash ≠ hash' := by
    rintro rfl
    rcases hbeats with hlt | ⟨-, hlt⟩
    · exact lt_irrefl _ hlt
    · exact lt_irrefl _ hlt
  have hsum : confirmations acks height hash + confirmations acks height hash' ≤ acks.length := by
    refine SortedMap.countP_add_countP_le fun ack hack hnames hnames' => hne ?_
    have heq := List.inj_on_of_nodup_map (h ack hack) (of_decide_eq_true hnames).2 (of_decide_eq_true hnames').2 rfl
    exact congrArg SyncFromZeroSumHash.hash heq
  have hpos : 0 < confirmations acks height hash' := by
    rw [← count_of_regular h]
    exact List.count_pos_iff.mpr hin
  have hle : confirmations acks height hash ≤ confirmations acks height hash' := by
    rcases hbeats with hlt | ⟨heq, -⟩
    · exact hlt.le
    · exact heq.le
  omega

/-- With regular answers that name the heights asked for, and no others, the set is exact. -/
theorem exact_of_regular (h : Regular acks) (hrequested : ∀ height, Answered acks height → height ∈ sendHeights)
    (hanswered : ∀ height ∈ sendHeights, Answered acks height) (sendNum : ℕ) :
    DisagreementExact m sendNum acks sendHeights := by
  rcases lt_or_ge acks.length (4 * sendNum / 5) with hfew | henough
  · intro hzero
    rw [byzantineSumHash_of_few m sendNum acks hfew] at hzero
    exact absurd hzero (by decide)
  refine (disagreementExact_iff m sendNum acks sendHeights henough).mpr fun height => ?_
  refine ⟨fun hbad => hbad.2.1 (hrequested height hbad.1), fun hbad => hbad.2.2 (hanswered height hbad.1), ?_, ?_⟩
  · rintro ⟨-, hash, -, hmany, hbeaten⟩
    exact not_beaten_of_regular h hmany hbeaten
  · rintro ⟨-, hash, -, hfew, hmany, -⟩
    rw [count_of_regular h] at hmany
    omega

end Regular

/-- A node whose own hashes are all missing. -/
def noSums : CheckSumsMeets where
  getSumHashByHeight _ := none
  obtainChainHeight := some 2000
  runNewSyncOnce _ _ := 0

/-- The only answer names height 50, which was not asked for; it is synchronized from a height near `2 ^ 64` on. -/
theorem unrequested_height_wraps : ¬ (DisagreementExact noSums 1 [⟨1, [97], [⟨50, [103]⟩]⟩] (newSyncHeights 0) ∧
    ∀ topBlockHeight, newSyncHeights 0 = newSyncHeights topBlockHeight →
      NeverWraps noSums 1 [⟨1, [97], [⟨50, [103]⟩]⟩]) := by
  intro h
  have hwrap := h.2 0 rfl (50 - 100, 50) (by decide)
  exact absurd hwrap (by decide)

end Tfs.Ca.CheckSums
