import Tfs.Ca.SyncRanges
import Tfs.Db.ReadWriter
import Tfs.Lib.Decimal

/-! Which heights are compared with the other nodes (`SyncBlock::_GetSyncSumHashNode` in
    `ca/sync_block.cpp`, in normal mode, once the answers are in).

    An answer names sum hashes, each with the segment of heights it is taken over. Equal entries are
    counted, an entry at a time, and all of them have to reach 66 percent of the number of answers, rounded
    down: an entry can get there that fewer than 66 percent of the nodes name. -/

namespace Tfs.Ca.SumHashNode

open SyncRanges Db

/-! ### The function -/

/-- `message SyncSumHash`. -/
structure SyncSumHash where
  startHeight : UInt64
  endHeight : UInt64
  hash : Str
  deriving DecidableEq

/-- `message SyncGetSumHashAck`. -/
structure SyncGetSumHashAck where
  selfNodeId : Str
  nodeBlockHeight : UInt64
  syncSumHashes : List SyncSumHash

/-- `key`: the three parts, joined by underscores. -/
def SyncSumHash.key (s : SyncSumHash) : Str :=
  decimal s.startHeight.toNat ++ underline :: (decimal s.endHeight.toNat ++ underline :: s.hash)

/-- A key is counted in `syncHashDatas`. -/
def countKey : List (Str × ℕ) → Str → List (Str × ℕ)
  | [], key => [(key, 1)]
  | e :: rest, key => if key = e.1 then (e.1, e.2 + 1) :: rest else e :: countKey rest key

/-- All entries of the answers. -/
def entries (acks : List SyncGetSumHashAck) : List SyncSumHash := acks.flatMap (·.syncSumHashes)

/-- `syncHashDatas`, sorted by the text of the first height. -/
def syncHashDatas (acks : List SyncGetSumHashAck) : List (Str × ℕ) :=
  (((entries acks).map SyncSumHash.key).foldl countKey []).mergeSort fun a b =>
    (splitString a.1 underline).headD [] ≤ (splitString b.1 underline).headD []

/-- What the function reads from the database. -/
structure SumHashMeets where
  /-- `GetBlockTop` succeeds -/
  getBlockTop : Bool
  /-- `GetHeightBlockHash` and `SumHeightHash` -/
  localSumHash : UInt64 → UInt64 → Str
  endSyncHeight : UInt64

/-- `verifyNum`. The product with 0.66 is taken in `double`; rounded down it is exact. -/
def verifyNum (size : ℕ) : ℕ := 66 * size / 100

/-- The loop that inserts the heights of a segment; for the largest number as its end it never stops. -/
def segmentHeights (startHeight endHeight : UInt64) : Option (List UInt64) :=
  if endHeight.toNat + 1 = 2 ^ 64 then none
  else some ((List.range' startHeight.toNat (endHeight.toNat + 1 - startHeight.toNat)).map UInt64.ofNat)

/-- What one entry does: `.ok` the heights it adds, `.error` the code the function returns, or `none` where
    it does not return. -/
def processEntry (m : SumHashMeets) (verifyNum : ℕ) (syncHashData : Str × ℕ) :
    Except (Option ℤ) (List UInt64) :=
  match splitString syncHashData.1 underline with
  | startText :: endText :: hash :: _ =>
    match stoull startText, stoull endText with
    | some startHeight, some endHeight =>
      if syncHashData.2 < verifyNum then .error (some (if m.getBlockTop then -8 else -5))
      else if hash = m.localSumHash startHeight endHeight then .ok []
      else match segmentHeights startHeight endHeight with
        | none => .error none
        | some heights => .ok heights
    | _, _ => .error none
  | _ => .ok []

/-- What the function hands back when it returns 0. -/
structure SumHashResult where
  needSyncHeights : SortedMap ℕ ℕ
  retNodeIds : List Str
  chainHeight : UInt64

instance instIsTransUInt64Lt : IsTrans UInt64 fun a b => a < b := ⟨fun _ _ _ => UInt64.lt_trans⟩

/-- `SyncBlock::_GetSyncSumHashNode` for the parsed answers, with `newSyncSnedNum < UINT32_MAX`. -/
def getSyncSumHashNode (m : SumHashMeets) (acks : List SyncGetSumHashAck) : Except (Option ℤ) SumHashResult :=
  let retNodeTops := (acks.map (·.nodeBlockHeight)).mergeSort (· ≤ ·)
  match retNodeTops[verifyNum acks.length]? with
  | none => .error (some (-4))
  | some chainHeight => do
    let heights ← (syncHashDatas acks).mapM (processEntry m (verifyNum acks.length))
    .ok ⟨needSyncHeights (StdSet.empty.insertAll heights.flatten) chainHeight m.endSyncHeight,
      acks.map (·.selfNodeId), chainHeight⟩

/-! ### Counting -/

/-- How often the answers name the entry. -/
def occurrences (acks : List SyncGetSumHashAck) (s : SyncSumHash) : ℕ := (entries acks).count s

/-- A decimal text is a piece of its own. -/
theorem plainValue_decimal (n : ℕ) : PlainValue (decimal n) :=
  ⟨decimal_ne_nil n, fun h => absurd (isDigitByte_of_mem_decimal h) (by decide)⟩

/-- The parts of a key. -/
theorem splitString_key (s : SyncSumHash) : splitString s.key underline =
    decimal s.startHeight.toNat :: decimal s.endHeight.toNat :: splitString s.hash underline := by
  rw [SyncSumHash.key, splitString_cons (plainValue_decimal _), splitString_cons (plainValue_decimal _)]

/-- Different entries have different keys. -/
theorem key_injective : Function.Injective SyncSumHash.key := by
  intro s s' h
  have hsplit := congrArg (splitString · underline) h
  simp only [splitString_key, List.cons.injEq] at hsplit
  obtain ⟨hstart, hend, -⟩ := hsplit
  rw [SyncSumHash.key, SyncSumHash.key, hstart, hend] at h
  have hhash := (List.cons.inj (List.append_cancel_left (List.cons.inj (List.append_cancel_left h)).2)).2
  cases s
  cases s'
  simp only [SyncSumHash.mk.injEq]
  exact ⟨UInt64.toNat_inj.mp (decimal_injective hstart), UInt64.toNat_inj.mp (decimal_injective hend), hhash⟩

/-- What is counted for a key. -/
theorem find_countKey {key key' : Str} : ∀ {datas : List (Str × ℕ)},
    ((countKey datas key).find? fun e => e.1 = key') =
      if key' = key then some (key, ((datas.find? fun e => e.1 = key).map Prod.snd).getD 0 + 1)
      else datas.find? fun e => e.1 = key'
  | [] => by
    by_cases heq : key' = key
    · simp [countKey, heq]
    · simp [countKey, heq, Ne.symm heq]
  | e :: datas => by
    rw [countKey]
    by_cases hhere : key = e.1
    · rw [if_pos hhere, List.find?_cons, List.find?_cons]
      by_cases heq : key' = key
      · simp [heq, hhere]
      · have hne : ¬ e.1 = key' := fun h => heq (h.symm.trans hhere.symm)
        simp [hne, heq]
    · rw [if_neg hhere, List.find?_cons, find_countKey, List.find?_cons]
      by_cases heq : key' = key
      · simp [heq, Ne.symm hhere]
      · simp [heq, List.find?_cons]

theorem map_fst_countKey {key : Str} : ∀ {datas : List (Str × ℕ)}, (countKey datas key).map Prod.fst =
    if key ∈ datas.map Prod.fst then datas.map Prod.fst else datas.map Prod.fst ++ [key]
  | [] => by simp [countKey]
  | e :: datas => by
    rw [countKey]
    by_cases hhere : key = e.1
    · rw [if_pos hhere, if_pos (by simp [hhere])]
      rfl
    · rw [if_neg hhere, List.map_cons, map_fst_countKey, List.map_cons]
      by_cases hin : key ∈ datas.map Prod.fst
      · rw [if_pos hin, if_pos (List.mem_cons_of_mem _ hin)]
      · rw [if_neg hin, if_neg (by simpa [hhere] using hin)]
        rfl

/-- Every key is in the list once, with the number of times it was counted. -/
theorem foldl_countKey (keys : List Str) : ((keys.foldl countKey []).map Prod.fst).Nodup ∧
    ∀ key, ((keys.foldl countKey []).find? fun e => e.1 = key) =
      if key ∈ keys then some (key, keys.count key) else none := by
  induction keys using List.reverseRecOn with
  | nil => exact ⟨List.nodup_nil, fun key => rfl⟩
  | append_singleton keys last ih =>
    obtain ⟨hnodup, hfind⟩ := ih
    rw [List.foldl_concat]
    refine ⟨?_, fun key => ?_⟩
    · rw [map_fst_countKey]
      split_ifs with hin
      · exact hnodup
      · exact List.Nodup.append hnodup (List.nodup_singleton _) (by simpa using hin)
    · rw [find_countKey, hfind, hfind]
      by_cases heq : key = last
      · rw [if_pos heq, heq]
        by_cases hin : last ∈ keys
        · simp [hin]
        · simp [hin, List.count_eq_zero_of_not_mem hin]
      · rw [if_neg heq]
        simp [heq, Ne.symm heq]

/-- `syncHashDatas` has every entry of the answers, with its number. -/
theorem mem_syncHashDatas {acks : List SyncGetSumHashAck} {key : Str} {count : ℕ} :
    (key, count) ∈ syncHashDatas acks ↔
      ∃ s ∈ entries acks, key = s.key ∧ count = occurrences acks s := by
  obtain ⟨hnodup, hfind⟩ := foldl_countKey ((entries acks).map SyncSumHash.key)
  have hcount (s : SyncSumHash) : ((entries acks).map SyncSumHash.key).count s.key = occurrences acks s :=
    List.count_map_of_injective _ _ key_injective _
  rw [syncHashDatas, (List.mergeSort_perm _ _).mem_iff]
  constructor
  · intro hmem
    have hfound : ((((entries acks).map SyncSumHash.key).foldl countKey []).find? fun e => e.1 = key)
        = some (key, count) := by
      cases hkey : ((((entries acks).map SyncSumHash.key).foldl countKey []).find? fun e => e.1 = key) with
      | none => simpa using List.find?_eq_none.mp hkey _ hmem
      | some e =>
        have heq : e.1 = key := by simpa using List.find?_some hkey
        rw [List.inj_on_of_nodup_map hnodup (List.mem_of_find?_eq_some hkey) hmem heq]
    rw [hfind] at hfound
    split_ifs at hfound with hin
    obtain ⟨s, hs, rfl⟩ := List.mem_map.mp hin
    refine ⟨s, hs, rfl, ?_⟩
    rw [← hcount]
    exact (Prod.mk.inj (Option.some.inj hfound)).2.symm
  · rintro ⟨s, hs, rfl, rfl⟩
    have hin := List.mem_map_of_mem (f := SyncSumHash.key) hs
    have hfound := hfind s.key
    rw [if_pos hin, hcount] at hfound
    exact List.mem_of_find?_eq_some hfound

/-! ### When the function returns 0 -/

/-- The entries that are looked at: the others are passed over, as their hash has no character but
    underscores. -/
def processed (acks : List SyncGetSumHashAck) : List SyncSumHash :=
  (entries acks).filter fun s => 3 ≤ (splitString s.key underline).length

/-- The segment ends at the largest number, and the local sum hash is another one: the heights are
    inserted without end. -/
def Endless (m : SumHashMeets) (s : SyncSumHash) : Prop :=
  s.endHeight.toNat + 1 = 2 ^ 64 ∧
    (splitString s.hash underline).head? ≠ some (m.localSumHash s.startHeight s.endHeight)

instance (m : SumHashMeets) (s : SyncSumHash) : Decidable (Endless m s) := inferInstanceAs (Decidable (_ ∧ _))

theorem mem_processed {acks : List SyncGetSumHashAck} {s : SyncSumHash} :
    s ∈ processed acks ↔ s ∈ entries acks ∧ splitString s.hash underline ≠ [] := by
  rw [processed, List.mem_filter, splitString_key, decide_eq_true_eq]
  refine and_congr_right fun _ => ?_
  rw [List.length_cons, List.length_cons, ← List.length_pos_iff]
  omega

/-- An entry is accepted when it is passed over, or reaches the number and has an end. -/
theorem processEntry_ok_iff {m : SumHashMeets} {k count : ℕ} {s : SyncSumHash} :
    (∃ heights, processEntry m k (s.key, count) = .ok heights) ↔
      (splitString s.hash underline ≠ [] → k ≤ count ∧ ¬ Endless m s) := by
  rw [processEntry, splitString_key, Endless]
  cases splitString s.hash underline with
  | nil => simp
  | cons hash rest =>
    simp only [stoull_decimal, segmentHeights, ne_eq, reduceCtorEq, not_false_eq_true, true_imp_iff,
      List.head?_cons, Option.some.injEq]
    by_cases hcount : count < k
    · simp [hcount, not_le.mpr hcount]
    · rw [if_neg hcount, and_iff_right (not_lt.mp hcount)]
      by_cases hlocal : hash = m.localSumHash s.startHeight s.endHeight
      · simp [hlocal]
      · rw [if_neg hlocal]
        by_cases hend : s.endHeight.toNat + 1 = 2 ^ 64
        · rw [if_pos hend]
          simp [hend, hlocal]
        · rw [if_neg hend]
          exact iff_of_true ⟨_, rfl⟩ fun h => hend h.1

/-- Every entry of a list is worked on with success exactly when each of them is. -/
theorem mapM_ok_iff {α β ε : Type} {f : α → Except ε β} : ∀ {l : List α},
    (∃ r, l.mapM f = .ok r) ↔ ∀ a ∈ l, ∃ b, f a = .ok b
  | [] => by simp [pure, Except.pure]
  | a :: l => by
    rw [List.mapM_cons, List.forall_mem_cons, ← mapM_ok_iff]
    cases hhead : f a with
    | error e => simp [bind, Except.bind]
    | ok b =>
      cases hrest : l.mapM f with
      | error e => simp [bind, Except.bind]
      | ok r => simp [bind, Except.bind, pure, Except.pure]

/-- With an answer, the function returns 0 exactly when every entry that is looked at reaches `verifyNum`
    and has an end. -/
theorem returns_zero_iff {m : SumHashMeets} {acks : List SyncGetSumHashAck} :
    (∃ result, getSyncSumHashNode m acks = .ok result) ↔ acks ≠ [] ∧
      ∀ s ∈ processed acks, verifyNum acks.length ≤ occurrences acks s ∧ ¬ Endless m s := by
  have hlen : ((acks.map (·.nodeBlockHeight)).mergeSort (· ≤ ·)).length = acks.length := by
    rw [(List.mergeSort_perm _ _).length_eq, List.length_map]
  have hentries : (∃ r, (syncHashDatas acks).mapM (processEntry m (verifyNum acks.length)) = .ok r) ↔
      ∀ s ∈ processed acks, verifyNum acks.length ≤ occurrences acks s ∧ ¬ Endless m s := by
    rw [mapM_ok_iff]
    constructor
    · intro hall s hs
      obtain ⟨hs, hparts⟩ := mem_processed.mp hs
      exact processEntry_ok_iff.mp (hall _ (mem_syncHashDatas.mpr ⟨s, hs, rfl, rfl⟩)) hparts
    · rintro hall ⟨key, count⟩ hmem
      obtain ⟨s, hs, rfl, rfl⟩ := mem_syncHashDatas.mp hmem
      exact processEntry_ok_iff.mpr fun hparts => hall s (mem_processed.mpr ⟨hs, hparts⟩)
  rw [← hentries, getSyncSumHashNode]
  cases acks with
  | nil => simp [verifyNum]
  | cons ack acks =>
    have hlt : verifyNum (ack :: acks).length < (ack :: acks).length := by
      rw [verifyNum, List.length_cons]
      omega
    rw [List.getElem?_eq_getElem (by rw [hlen]; exact hlt)]
    cases (syncHashDatas (ack :: acks)).mapM (processEntry m (verifyNum (ack :: acks).length)) with
    | error e => simp [bind, Except.bind]
    | ok heights => simp [bind, Except.bind]

/-! ### Who named an entry -/

/-- The distinct nodes that answered. -/
def responders (acks : List SyncGetSumHashAck) : ℕ := (acks.map (·.selfNodeId)).dedup.length

/-- The distinct nodes that named the entry. -/
def reporters (acks : List SyncGetSumHashAck) (s : SyncSumHash) : ℕ :=
  ((acks.filter fun ack => s ∈ ack.syncSumHashes).map (·.selfNodeId)).dedup.length

/-- A node that names an entry does so at least once. -/
theorem reporters_le_occurrences (acks : List SyncGetSumHashAck) (s : SyncSumHash) :
    reporters acks s ≤ occurrences acks s := by
  have hfew := ((acks.filter fun ack => s ∈ ack.syncSumHashes).map (·.selfNodeId)).dedup_sublist.length_le
  rw [List.length_map, ← List.countP_eq_length_filter] at hfew
  refine hfew.trans ?_
  clear hfew
  induction acks with
  | nil => exact le_rfl
  | cons ack acks ih =>
    have hhere : s ∈ ack.syncSumHashes → 0 < ack.syncSumHashes.count s := List.count_pos_iff.mpr
    simp only [occurrences, entries, List.flatMap_cons, List.count_append, List.countP_cons,
      decide_eq_true_eq] at ih ⊢
    split_ifs with hin
    · have := hhere hin
      omega
    · omega

/-- Where no answer names an entry twice, and every node answers once, occurrences are nodes. -/
theorem reporters_of_distinct {acks : List SyncGetSumHashAck} (hnodes : (acks.map (·.selfNodeId)).Nodup)
    (honce : ∀ ack ∈ acks, ack.syncSumHashes.Nodup) (s : SyncSumHash) :
    reporters acks s = occurrences acks s := by
  have hsub := (List.filter_sublist (p := fun ack : SyncGetSumHashAck => decide (s ∈ ack.syncSumHashes))
    (l := acks)).map (·.selfNodeId)
  rw [reporters, (hsub.nodup hnodes).dedup, List.length_map, ← List.countP_eq_length_filter]
  clear hnodes hsub
  induction acks with
  | nil => rfl
  | cons ack acks ih =>
    have ih := ih fun a ha => honce a (List.mem_cons_of_mem _ ha)
    have hack := (honce ack List.mem_cons_self).count (a := s)
    simp only [occurrences, entries, List.flatMap_cons, List.count_append, List.countP_cons,
      decide_eq_true_eq, hack] at ih ⊢
    omega

/-- Rounding `verifyNum` down lets the entry through: exactly so many nodes name it, and that is less than
    66 percent. -/
def LetThroughByRounding (acks : List SyncGetSumHashAck) (s : SyncSumHash) : Prop :=
  reporters acks s = verifyNum acks.length ∧ ¬ 50 ∣ acks.length

/-- Repetition lets the entry through: too few nodes name it, but some do so more than once. -/
def LetThroughByRepetition (acks : List SyncGetSumHashAck) (s : SyncSumHash) : Prop :=
  reporters acks s < verifyNum acks.length ∧ verifyNum acks.length ≤ occurrences acks s

/-- Between the count of the function and 66 percent of the nodes there is nothing else. -/
theorem let_through_iff {acks : List SyncGetSumHashAck} (hnodes : (acks.map (·.selfNodeId)).Nodup)
    (s : SyncSumHash) :
    (verifyNum acks.length ≤ occurrences acks s ∧ 100 * reporters acks s < 66 * responders acks) ↔
      LetThroughByRounding acks s ∨ LetThroughByRepetition acks s := by
  have hle := reporters_le_occurrences acks s
  rw [responders, hnodes.dedup, List.length_map, LetThroughByRounding, LetThroughByRepetition, verifyNum]
  omega

/-- When the function returns 0, every entry it looked at was named by at least 66 percent of the nodes
    that answered. -/
def AgreedByTwoThirds (m : SumHashMeets) (acks : List SyncGetSumHashAck) : Prop :=
  ∀ result, getSyncSumHashNode m acks = .ok result →
    ∀ s ∈ processed acks, 66 * responders acks ≤ 100 * reporters acks s

/-- That holds of distinct nodes exactly when the function finds an entry to reject, or none is let through
    by the rounding of `verifyNum` or by the repetitions of an answer. -/
theorem agreed_by_two_thirds_iff (m : SumHashMeets) (acks : List SyncGetSumHashAck)
    (hnodes : (acks.map (·.selfNodeId)).Nodup) :
    AgreedByTwoThirds m acks ↔
      (∃ s ∈ processed acks, occurrences acks s < verifyNum acks.length ∨ Endless m s) ∨
      ∀ s ∈ processed acks, ¬ LetThroughByRounding acks s ∧ ¬ LetThroughByRepetition acks s := by
  have hreturns : AgreedByTwoThirds m acks ↔ ((∃ result, getSyncSumHashNode m acks = .ok result) →
      ∀ s ∈ processed acks, 66 * responders acks ≤ 100 * reporters acks s) :=
    ⟨fun hall ⟨result, h⟩ => hall result h, fun hall result h => hall ⟨result, h⟩⟩
  have hgap (s : SyncSumHash) := let_through_iff hnodes s
  rw [hreturns, returns_zero_iff]
  constructor
  · intro hall
    by_cases haccepted : ∀ s ∈ processed acks, verifyNum acks.length ≤ occurrences acks s ∧ ¬ Endless m s
    · refine .inr fun s hs => not_or.mp fun hbad => ?_
      have hne : acks ≠ [] := by
        rintro rfl
        cases hs
      exact absurd (hall ⟨hne, haccepted⟩ s hs) (not_le.mpr ((hgap s).mpr hbad).2)
    · push Not at haccepted
      obtain ⟨s, hs, hrejected⟩ := haccepted
      by_cases hcount : verifyNum acks.length ≤ occurrences acks s
      · exact .inl ⟨s, hs, .inr (hrejected hcount)⟩
      · exact .inl ⟨s, hs, .inl (not_le.mp hcount)⟩
  · rintro (⟨s, hs, hrejected⟩ | hall) ⟨-, haccepted⟩ s' hs'
    · obtain ⟨hcount, hends⟩ := haccepted s hs
      rcases hrejected with hfew | hendless
      · exact absurd hcount (not_le.mpr hfew)
      · exact absurd hendless hends
    · by_contra hfew
      exact not_or.mpr (hall s' hs') ((hgap s').mp ⟨(haccepted s' hs').1, not_le.mp hfew⟩)

/-- With a multiple of fifty answers, none of which repeats an entry, the vote is one of 66 percent. -/
theorem agreed_of_multiple_of_fifty {m : SumHashMeets} {acks : List SyncGetSumHashAck}
    (hnodes : (acks.map (·.selfNodeId)).Nodup) (honce : ∀ ack ∈ acks, ack.syncSumHashes.Nodup)
    (hfifty : 50 ∣ acks.length) : AgreedByTwoThirds m acks := by
  refine (agreed_by_two_thirds_iff m acks hnodes).mpr (.inr fun s _ => ⟨fun h => h.2 hfifty, fun h => ?_⟩)
  have hsame := reporters_of_distinct hnodes honce s
  have := h.1
  have := h.2
  omega

/-- Two answers, one of which names an entry. -/
def halfNamed : List SyncGetSumHashAck := [⟨str "a", 9, [⟨1, 5, str "h"⟩]⟩, ⟨str "b", 9, []⟩]

/-- Two nodes answer, and one of them names an entry: half of them is enough. -/
theorem named_by_half :
    (halfNamed.map (·.selfNodeId)).Nodup ∧ ¬ AgreedByTwoThirds ⟨true, fun _ _ => str "h", 0⟩ halfNamed := by
  refine ⟨by decide, fun hall => ?_⟩
  have hzero : ∃ result, getSyncSumHashNode ⟨true, fun _ _ => str "h", 0⟩ halfNamed = .ok result := by
    refine returns_zero_iff.mpr ⟨by decide, ?_⟩
    decide
  obtain ⟨result, hresult⟩ := hzero
  exact absurd (hall result hresult ⟨1, 5, str "h"⟩ (by decide)) (by decide)

theorem agreed_by_two_thirds_iff_half :
    AgreedByTwoThirds ⟨true, fun _ _ => str "h", 0⟩ halfNamed ↔
      (∃ s ∈ processed halfNamed, occurrences halfNamed s < verifyNum halfNamed.length ∨
        Endless ⟨true, fun _ _ => str "h", 0⟩ s) ∨
      ∀ s ∈ processed halfNamed, ¬ LetThroughByRounding halfNamed s ∧ ¬ LetThroughByRepetition halfNamed s :=
  agreed_by_two_thirds_iff _ _ (by decide)

end Tfs.Ca.SumHashNode
