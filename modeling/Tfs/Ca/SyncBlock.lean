import Tfs.Lib.OrderedSet
import Tfs.Proto

/-! The sets synchronised blocks wait in (`ca/block_compare.h`, `ca/block_helper.h`,
    `SyncBlock::_AddBlockToMap`, `BlockHelper::AddSyncBlock` and `AddFastSyncBlock`).

    Received blocks are collected per height and handed over to the block helper; both containers
    compare blocks by height and time only. A block is lost in one of them exactly when another one
    has its height and its time. -/

namespace Tfs.Ca

/-! ### Comparators -/

/-- `CBlockCompare`: later blocks first. -/
def CBlockCompare (a b : CBlock) : Prop :=
  b.height < a.height ∨ (a.height = b.height ∧ b.time < a.time)

/-- `compator::BlockTimeAscending`: earlier blocks first. -/
def BlockTimeAscending (a b : CBlock) : Prop :=
  if a.height = b.height then a.time < b.time else a.height < b.height

instance : DecidableRel CBlockCompare := fun _ _ => inferInstanceAs (Decidable (_ ∨ _))

instance : DecidableRel BlockTimeAscending := fun _ _ => inferInstanceAs (Decidable (ite _ _ _))

theorem blockTimeAscending_iff {a b : CBlock} : BlockTimeAscending a b ↔
    a.height < b.height ∨ (a.height = b.height ∧ a.time < b.time) := by
  unfold BlockTimeAscending
  split_ifs with h
  · simp [h, Int64.lt_irrefl]
  · simp [h]

theorem cBlockCompare_iff {a b : CBlock} : CBlockCompare a b ↔ BlockTimeAscending b a := by
  rw [blockTimeAscending_iff, CBlockCompare, eq_comm]

instance : IsTrans CBlock BlockTimeAscending := ⟨by
  intro a b c hab hbc
  rw [blockTimeAscending_iff] at hab hbc ⊢
  rcases hab with hab | ⟨hab, htab⟩ <;> rcases hbc with hbc | ⟨hbc, htbc⟩
  · exact .inl (Int64.lt_trans hab hbc)
  · exact .inl (by rwa [← hbc])
  · exact .inl (by rwa [hab])
  · exact .inr ⟨hab.trans hbc, UInt64.lt_trans htab htbc⟩⟩

instance : IsTrans CBlock CBlockCompare := ⟨by
  intro a b c hab hbc
  rw [cBlockCompare_iff] at hab hbc ⊢
  exact IsTrans.trans c b a hbc hab⟩

/-- The comparators do not separate blocks of one height and one time. -/
theorem equiv_iff {a b : CBlock} : StdSet.Equiv BlockTimeAscending a b ↔
    a.height = b.height ∧ a.time = b.time := by
  simp only [StdSet.Equiv, blockTimeAscending_iff, Int64.lt_iff_toInt_lt, ← Int64.toInt_inj,
    UInt64.lt_iff_toNat_lt, ← UInt64.toNat_inj]
  omega

theorem equiv_compare_iff {a b : CBlock} : StdSet.Equiv CBlockCompare a b ↔
    a.height = b.height ∧ a.time = b.time := by
  rw [← equiv_iff, StdSet.Equiv, StdSet.Equiv, cBlockCompare_iff, cBlockCompare_iff, and_comm]

/-! ### The containers -/

/-- `std::map<uint64_t, std::set<CBlock, CBlockCompare>>`. -/
abbrev SyncBlockData := SortedMap ℕ (StdSet CBlockCompare)

/-- The key of a block: its height as `uint64_t`. -/
def heightKey (block : CBlock) : ℕ := block.height.toUInt64.toNat

/-- `SyncBlock::_AddBlockToMap`. -/
def addBlockToMap (syncBlockData : SyncBlockData) (block : CBlock) : SyncBlockData :=
  syncBlockData.upsert (heightKey block) fun value => (value.getD .empty).insert block

/-- The blocks of a map in the order in which they are handed over. -/
def SyncBlockData.blocks (syncBlockData : SyncBlockData) : List CBlock :=
  syncBlockData.entries.flatMap fun e => e.2.elems

/-- The two waiting sets of `BlockHelper`. -/
structure WaitingSets where
  syncBlocks : StdSet BlockTimeAscending
  fastSyncBlocks : StdSet BlockTimeAscending

/-- Both sets at the start. -/
def WaitingSets.empty : WaitingSets := ⟨.empty, .empty⟩

/-- `BlockHelper::AddSyncBlock`. -/
def WaitingSets.addSyncBlock (w : WaitingSets) (syncBlockData : SyncBlockData) : WaitingSets :=
  { w with syncBlocks := w.syncBlocks.insertAll syncBlockData.blocks }

/-- `BlockHelper::AddFastSyncBlock`. -/
def WaitingSets.addFastSyncBlock (w : WaitingSets) (syncBlockData : SyncBlockData) : WaitingSets :=
  { w with fastSyncBlocks := w.fastSyncBlocks.insertAll syncBlockData.blocks }

/-- The blocks of one answer, collected. -/
def collect (blocks : List CBlock) : SyncBlockData := blocks.foldl addBlockToMap .empty

/-! ### Which blocks are kept -/

/-- The set of one height after collecting: the blocks of this height, in order of arrival. -/
theorem foldl_addBlockToMap (k : ℕ) : ∀ (blocks : List CBlock) (m : SyncBlockData),
    ((blocks.foldl addBlockToMap m).find k).getD .empty
      = ((m.find k).getD .empty).insertAll (blocks.filter fun b => heightKey b = k)
  | [], _ => rfl
  | b :: blocks, m => by
    rw [List.foldl_cons, foldl_addBlockToMap k blocks, addBlockToMap, SortedMap.find_upsert]
    by_cases hk : k = heightKey b
    · rw [if_pos hk, List.filter_cons_of_pos (by simpa using hk.symm), hk]
      rfl
    · rw [if_neg hk, List.filter_cons_of_neg (by simpa using Ne.symm hk)]

theorem mem_blocks {m : SyncBlockData} {b : CBlock} :
    b ∈ SyncBlockData.blocks m ↔ ∃ k, b ∈ (m.find k).getD .empty := by
  rw [SyncBlockData.blocks, List.mem_flatMap]
  constructor
  · rintro ⟨⟨k, s⟩, he, hb⟩
    exact ⟨k, by rw [SortedMap.mem_iff_find.mp he]; exact hb⟩
  · rintro ⟨k, hb⟩
    cases hf : m.find k with
    | none => rw [hf] at hb; cases hb
    | some s => exact ⟨(k, s), SortedMap.mem_iff_find.mpr hf, by rw [hf] at hb; exact hb⟩

/-- Collecting brings in no other blocks. -/
theorem mem_of_mem_collect {blocks : List CBlock} {b : CBlock}
    (hb : b ∈ SyncBlockData.blocks (collect blocks)) : b ∈ blocks := by
  obtain ⟨k, hk⟩ := mem_blocks.mp hb
  rw [collect, foldl_addBlockToMap] at hk
  rcases StdSet.mem_of_mem_insertAll hk with hk | hk
  · cases hk
  · exact (List.mem_filter.mp hk).1

/-- What is collected are the blocks that no block of their height and time came before, and for each block
    there is one of its height and time. -/
theorem collect_spec (blocks : List CBlock) :
    (∀ b, b ∈ SyncBlockData.blocks (collect blocks) ↔ IsFirst CBlockCompare blocks b) ∧
      ∀ b ∈ blocks, ∃ b' ∈ SyncBlockData.blocks (collect blocks), b.height = b'.height ∧ b.time = b'.time := by
  have hspec := @mem_collectByKey CBlock ℕ _ CBlockCompare _ _ heightKey
    (fun x h => (equiv_compare_iff.mpr (And.intro (Eq.refl x.height) (Eq.refl x.time))).1 h)
    (fun x y h => by rw [heightKey, heightKey, (equiv_compare_iff.mp h).1])
    (fun x y z hxy hyz => by
      rw [equiv_compare_iff] at hxy hyz ⊢
      exact ⟨hxy.1.trans hyz.1, hxy.2.trans hyz.2⟩) blocks
  refine ⟨hspec.1, fun b hb => ?_⟩
  obtain ⟨b', hb', heq⟩ := hspec.2.2 b hb
  exact ⟨b', hb', equiv_compare_iff.mp heq⟩

/-- Blocks that differ pairwise in height or time are all collected. -/
theorem mem_collect {blocks : List CBlock} (hsep : ∀ b ∈ blocks, ∀ b' ∈ blocks,
      b.height = b'.height → b.time = b'.time → b = b') {b : CBlock} (hb : b ∈ blocks) :
    b ∈ ((collect blocks).find (heightKey b)).getD .empty := by
  rw [collect, foldl_addBlockToMap]
  refine StdSet.insertAll_complete.mpr (fun x hx y hy heq => ?_) b
    (List.mem_filter.mpr ⟨hb, by simp⟩)
  obtain ⟨hh, ht⟩ := equiv_compare_iff.mp heq
  rcases hy with hy | hy
  · cases hy
  · exact hsep x (List.mem_filter.mp hx).1 y (List.mem_filter.mp hy).1 hh ht

/-- The waiting sets after several answers, each collected and handed over to `_syncBlocks`. -/
def syncRounds (rounds : List (List CBlock)) : WaitingSets :=
  rounds.foldl (fun w r => w.addSyncBlock (collect r)) .empty

/-- The waiting sets after several answers, each collected and handed over to `_fastSyncBlocks`. -/
def fastSyncRounds (rounds : List (List CBlock)) : WaitingSets :=
  rounds.foldl (fun w r => w.addFastSyncBlock (collect r)) .empty

theorem syncRounds_syncBlocks (rounds : List (List CBlock)) : (syncRounds rounds).syncBlocks
    = StdSet.empty.insertAll (rounds.flatMap fun r => SyncBlockData.blocks (collect r)) := by
  rw [← StdSet.foldl_insertAll, syncRounds]
  exact (List.foldl_hom WaitingSets.syncBlocks fun _ _ => rfl).symm

theorem fastSyncRounds_fastSyncBlocks (rounds : List (List CBlock)) :
    (fastSyncRounds rounds).fastSyncBlocks
      = StdSet.empty.insertAll (rounds.flatMap fun r => SyncBlockData.blocks (collect r)) := by
  rw [← StdSet.foldl_insertAll, fastSyncRounds]
  exact (List.foldl_hom WaitingSets.fastSyncBlocks fun _ _ => rfl).symm

/-- No block is lost: each one is in the set of its height, and in the set it is handed over to. -/
structure NoBlockLost (rounds : List (List CBlock)) : Prop where
  collected : ∀ r ∈ rounds, ∀ b ∈ r, ∃ s, (collect r).find (heightKey b) = some s ∧ b ∈ s
  synced : ∀ b ∈ rounds.flatten, b ∈ (syncRounds rounds).syncBlocks
  fastSynced : ∀ b ∈ rounds.flatten, b ∈ (fastSyncRounds rounds).fastSyncBlocks

/-- Of blocks with pairwise distinct hashes none is lost exactly when no two of them have the same height
    and the same time. -/
theorem noBlockLost_iff (rounds : List (List CBlock))
    (hhash : (rounds.flatten.map CBlock.hash).Nodup) :
    NoBlockLost rounds ↔ (rounds.flatten.map fun b => (b.height, b.time)).Nodup := by
  constructor
  · intro hkept
    refine List.Nodup.map_on (fun b hb b' hb' heq => ?_) (List.Nodup.of_map _ hhash)
    obtain ⟨hh, ht⟩ := Prod.mk.inj heq
    exact StdSet.eq_of_equiv (hkept.synced b hb) (hkept.synced b' hb') (equiv_iff.mpr ⟨hh, ht⟩)
  · intro hnodup
    have hsep : ∀ b ∈ rounds.flatten, ∀ b' ∈ rounds.flatten,
        b.height = b'.height → b.time = b'.time → b = b' := by
      intro b hb b' hb' hh ht
      exact List.inj_on_of_nodup_map hnodup hb hb' (Prod.ext hh ht)
    have hround : ∀ r ∈ rounds, ∀ b ∈ r, b ∈ ((collect r).find (heightKey b)).getD .empty := by
      intro r hr b hb
      refine mem_collect (fun x hx y hy => ?_) hb
      exact hsep x (List.mem_flatten_of_mem hr hx) y (List.mem_flatten_of_mem hr hy)
    have hall : ∀ b ∈ rounds.flatten, b ∈ (StdSet.empty : StdSet BlockTimeAscending).insertAll
        (rounds.flatMap fun r => SyncBlockData.blocks (collect r)) := by
      intro b hb
      obtain ⟨r, hr, hbr⟩ := List.mem_flatten.mp hb
      have horigin : ∀ x ∈ rounds.flatMap fun r => SyncBlockData.blocks (collect r),
          x ∈ rounds.flatten := by
        intro x hx
        obtain ⟨r, hr, hxr⟩ := List.mem_flatMap.mp hx
        exact List.mem_flatten_of_mem hr (mem_of_mem_collect hxr)
      refine StdSet.insertAll_complete.mpr (fun x hx y hy heq => ?_) b
        (List.mem_flatMap.mpr ⟨r, hr, mem_blocks.mpr ⟨_, hround r hr b hbr⟩⟩)
      obtain ⟨hh, ht⟩ := equiv_iff.mp heq
      rcases hy with hy | hy
      · cases hy
      · exact hsep x (horigin x hx) y (horigin y hy) hh ht
    refine ⟨fun r hr b hb => ?_, ?_, ?_⟩
    · have hmem := hround r hr b hb
      cases hf : (collect r).find (heightKey b) with
      | none => rw [hf] at hmem; cases hmem
      | some s => exact ⟨s, rfl, by rw [hf] at hmem; exact hmem⟩
    · rw [syncRounds_syncBlocks]; exact hall
    · rw [fastSyncRounds_fastSyncBlocks]; exact hall

/-- A block without transactions. -/
def sampleBlock (hash : String) (height : Int64) (time : UInt64) : CBlock :=
  ⟨time, str hash, [], height, [], []⟩

/-- Two answers with three blocks, two of them of one height. -/
theorem noBlockLost_three : NoBlockLost
    [[sampleBlock "a" 5 100, sampleBlock "b" 5 101], [sampleBlock "c" 6 100]] :=
  (noBlockLost_iff _ (by decide)).mpr (by decide)

/-- Of two blocks of one height and one time the second is lost. -/
theorem block_lost_same_time : ([sampleBlock "a" 5 100, sampleBlock "b" 5 100].map CBlock.hash).Nodup ∧
    (collect [sampleBlock "a" 5 100, sampleBlock "b" 5 100]).entries.map (fun e => (e.1, e.2.elems))
      = [(5, [sampleBlock "a" 5 100])] ∧
    ¬ NoBlockLost [[sampleBlock "a" 5 100, sampleBlock "b" 5 100]] := by
  refine ⟨by decide, by decide, fun hkept => ?_⟩
  have hmem := hkept.synced (sampleBlock "b" 5 100) (by decide)
  have helems : (syncRounds [[sampleBlock "a" 5 100, sampleBlock "b" 5 100]]).syncBlocks.elems
      = [sampleBlock "a" 5 100] := by decide
  rw [StdSet.mem_def, helems] at hmem
  exact absurd hmem (by decide)

end Tfs.Ca
