import Tfs.Ca.BlockHashNode

/-! Synchronizing by one list that all agree on (`SyncBlock::_GetSyncBlockBySumHashNode` in
    `ca/sync_block.cpp`, once the answers are in).

    The successful answers have to carry one list. What is rolled back and what is asked for is then
    computed from the message of the last answer, whether it was successful or not, and by walks along
    sorted ranges, where the list of the message is in the order of its sender. -/

namespace Tfs.Ca.BySumHashNode

open Db BlockHashNode

/-! ### The function -/

/-- An answer: whether it parses, and the message afterwards. -/
structure Answer where
  parsed : Bool
  ack : SyncGetHeightHashAck

/-- What the function reads and calls. -/
structure BySumHashMeets where
  startSyncHeight : UInt64
  endSyncHeight : UInt64
  selfNodeHeight : UInt64
  getBlockHashesByBlockHeight : UInt64 → UInt64 → Option (List Str)
  getBlockByBlockHash : Str → Lookup
  /-- `ParseFromString`: the message afterwards -/
  parseFromString : Str → CBlock
  /-- the time when the block of a hash is looked at -/
  nowTime : Str → UInt64
  /-- `_GetSyncBlockData` -/
  getSyncBlockData : List Str → ℤ

/-- The answers that count. -/
def agreeing (answers : List Answer) : List SyncGetHeightHashAck :=
  successful ((answers.filter (·.parsed)).map (·.ack))

/-- `verifySet`: the joined lists. -/
def verifySet (answers : List Answer) : List Str := sortedSet ((agreeing answers).map fun ack => ack.blockHashes.flatten)

/-- `ack.block_hashes()` after the loop: those of the last answer. -/
def lastHashes (answers : List Answer) : List Str :=
  match answers.getLast? with
  | some answer => answer.ack.blockHashes
  | none => []

/-- `block.time() < nowTime - 5 * 60 * 1000000`. -/
def isOld (m : BySumHashMeets) (hash : Str) (block : CBlock) : Prop := block.time < m.nowTime hash - 5 * 60 * 1000000

instance (m : BySumHashMeets) (hash : Str) (block : CBlock) : Decidable (isOld m hash block) :=
  inferInstanceAs (Decidable (_ < _))

/-- One round of the loop over `diffHashes`; the hash is kept beside its block. -/
def rollbackStep (m : BySumHashMeets) (blocks : List (Str × CBlock)) (diffHash : Str) : Except ℤ (List (Str × CBlock)) :=
  match m.getBlockByBlockHash diffHash with
  | .found strblock =>
    let block := m.parseFromString strblock
    if isOld m diffHash block then .ok (blocks ++ [(diffHash, block)]) else .ok blocks
  | _ => .error (-6)

/-- What the call does: its return value, the blocks that go into the map passed to `AddRollbackBlock`, and the
    hashes passed to `_GetSyncBlockData`. -/
structure BySumHashResult where
  ret : ℤ
  rollbackBlocks : List (Str × CBlock)
  needSyncHashes : Option (List Str)

/-- A return before anything is done. -/
def BySumHashResult.early (ret : ℤ) : BySumHashResult := ⟨ret, [], none⟩

/-- `rollbackBlockData`. -/
def BySumHashResult.rollbackBlockData (r : BySumHashResult) : SyncBlockData := collect (r.rollbackBlocks.map Prod.snd)

/-- The end of the function: the hashes that are missing are asked for. -/
def request (m : BySumHashMeets) (blockHashes selfBlockHashes : List Str) : BySumHashResult :=
  let needSyncHashes := Sorted.setDifference blockHashes selfBlockHashes
  ⟨if m.getSyncBlockData needSyncHashes ≠ 0 then -8 else 0, [], some needSyncHashes⟩

/-- `SyncBlock::_GetSyncBlockBySumHashNode` for the answers. -/
def getSyncBlockBySumHashNode (m : BySumHashMeets) (answers : List Answer) : BySumHashResult :=
  if (verifySet answers).length ≠ 1 then .early (-4)
  else if m.selfNodeHeight ≥ m.startSyncHeight then
    match m.getBlockHashesByBlockHeight m.startSyncHeight m.endSyncHeight with
    | none => .early (-5)
    | some blockHashes =>
      let selfBlockHashes := blockHashes.insertionSort (· ≤ ·)
      match (Sorted.setDifference selfBlockHashes (lastHashes answers)).foldlM (rollbackStep m) [] with
      | .error ret => .early ret
      | .ok blocks =>
        if blocks ≠ [] then ⟨-7, blocks, none⟩ else request m (lastHashes answers) selfBlockHashes
  else request m (lastHashes answers) []

/-! ### Walking along the list of the last answer -/

section Walks
variable (m : BySumHashMeets) (blockHashes localHashes : List Str)

/-- The local hashes of the heights asked about, if they can be read. -/
def readLocalHashes : Option (List Str) :=
  if m.selfNodeHeight ≥ m.startSyncHeight then m.getBlockHashesByBlockHeight m.startSyncHeight m.endSyncHeight
  else some []

/-- How often the hash comes in the list in front of every larger one. -/
def inFront (hash : Str) : ℕ := (blockHashes.takeWhile (· ≤ hash)).count hash

/-- A local hash is taken to be missing in a list: it is there less often than locally, up to the first larger
    hash of the list. -/
def TakenMissing (hash : Str) : Prop := inFront blockHashes hash < localHashes.count hash

/-- A hash of a list is taken to be missing locally: it is there more often than locally, or it comes after a
    larger one. -/
def TakenNew (hash : Str) : Prop :=
  min (inFront blockHashes hash) (localHashes.count hash) < blockHashes.count hash

instance (hash : Str) : Decidable (TakenMissing blockHashes localHashes hash) := inferInstanceAs (Decidable (_ < _))

instance (hash : Str) : Decidable (TakenNew blockHashes localHashes hash) := inferInstanceAs (Decidable (_ < _))

theorem mem_diffHashes (hash : Str) :
    hash ∈ Sorted.setDifference (localHashes.insertionSort (· ≤ ·)) blockHashes ↔
      TakenMissing blockHashes localHashes hash := by
  rw [← List.count_pos_iff, Sorted.count_setDifference_of_sorted_left hash (List.pairwise_insertionSort _ _),
    (List.perm_insertionSort _ _).count_eq, Nat.sub_pos_iff_lt]
  rfl

theorem mem_needSyncHashes (hash : Str) :
    hash ∈ Sorted.setDifference blockHashes (localHashes.insertionSort (· ≤ ·)) ↔
      TakenNew blockHashes localHashes hash := by
  rw [← List.count_pos_iff, Sorted.count_setDifference_of_sorted_right hash (List.pairwise_insertionSort _ _),
    (List.perm_insertionSort _ _).count_eq, Nat.sub_pos_iff_lt]
  rfl

/-- The hash has no block that can be read. -/
def Unreadable (hash : Str) : Prop := ∀ strblock, m.getBlockByBlockHash hash ≠ .found strblock

/-- The hash has a block that is old enough to be rolled back. -/
def HasOldBlock (hash : Str) : Prop :=
  ∃ strblock, m.getBlockByBlockHash hash = .found strblock ∧ isOld m hash (m.parseFromString strblock)

/-- What the loop adds for a hash. -/
def oldEntry (hash : Str) : Option (Str × CBlock) :=
  match m.getBlockByBlockHash hash with
  | .found strblock =>
    if isOld m hash (m.parseFromString strblock) then some (hash, m.parseFromString strblock) else none
  | _ => none

theorem oldEntry_isSome {hash : Str} : (oldEntry m hash).isSome ↔ HasOldBlock m hash := by
  rw [oldEntry, HasOldBlock]
  cases m.getBlockByBlockHash hash with
  | notFound => simp
  | failed => simp
  | found strblock =>
    by_cases hold : isOld m hash (m.parseFromString strblock)
    · simp [hold]
    · simp [hold]

theorem fst_of_oldEntry {hash : Str} {e : Str × CBlock} (h : oldEntry m hash = some e) : e.1 = hash := by
  rw [oldEntry] at h
  split at h
  · split_ifs at h
    cases h
    rfl
  · cases h

/-- One round: a hash without a block ends the loop. -/
theorem rollbackStep_eq (blocks : List (Str × CBlock)) (hash : Str) : Unreadable m hash ∧ rollbackStep m blocks hash = .error (-6) ∨
    ¬ Unreadable m hash ∧ rollbackStep m blocks hash = .ok (blocks ++ (oldEntry m hash).toList) := by
  rw [rollbackStep, oldEntry, Unreadable]
  cases m.getBlockByBlockHash hash with
  | notFound => exact .inl ⟨nofun, rfl⟩
  | failed => exact .inl ⟨nofun, rfl⟩
  | found strblock =>
    refine .inr ⟨fun h => h strblock rfl, ?_⟩
    by_cases hold : isOld m hash (m.parseFromString strblock)
    · simp [hold]
    · simp [hold]

/-- The loop over the hashes that are taken to be missing: it fails at one without a block, and otherwise adds
    the old blocks. -/
theorem foldlM_rollbackStep : ∀ (hashes : List Str) (blocks : List (Str × CBlock)),
    (∃ hash ∈ hashes, Unreadable m hash) ∧ hashes.foldlM (rollbackStep m) blocks = .error (-6) ∨
      (∀ hash ∈ hashes, ¬ Unreadable m hash) ∧
        hashes.foldlM (rollbackStep m) blocks = .ok (blocks ++ hashes.filterMap (oldEntry m))
  | [], blocks => .inr ⟨nofun, by rw [List.filterMap_nil, List.append_nil]; rfl⟩
  | hash :: hashes, blocks => by
    rw [List.foldlM_cons]
    obtain ⟨hbad, hstep⟩ | ⟨hgood, hstep⟩ := rollbackStep_eq m blocks hash
    · exact .inl ⟨⟨hash, List.mem_cons_self, hbad⟩, by rw [hstep]; rfl⟩
    · rw [hstep]
      obtain ⟨⟨hash', hin, hbad⟩, hrest⟩ | ⟨hall, hrest⟩ := foldlM_rollbackStep hashes (blocks ++ (oldEntry m hash).toList)
      · exact .inl ⟨⟨hash', List.mem_cons_of_mem _ hin, hbad⟩, hrest⟩
      · refine .inr ⟨List.forall_mem_cons.mpr ⟨hgood, hall⟩, hrest.trans ?_⟩
        rw [List.append_assoc, List.filterMap_cons]
        cases oldEntry m hash with
        | none => rfl
        | some e => rfl

end Walks

/-! ### What the call does -/

section Call
variable (m : BySumHashMeets) (answers : List Answer)

/-- The local hashes of the heights asked about. -/
def localHashes : List Str := (readLocalHashes m).getD []

/-- The local hash is taken to be missing in the list of the last answer. -/
def Missing (hash : Str) : Prop := TakenMissing (lastHashes answers) (localHashes m) hash

/-- The hash of the last answer is taken to be missing locally. -/
def New (hash : Str) : Prop := TakenNew (lastHashes answers) (localHashes m) hash

instance (hash : Str) : Decidable (Missing m answers hash) := inferInstanceAs (Decidable (TakenMissing _ _ _))

instance (hash : Str) : Decidable (New m answers hash) := inferInstanceAs (Decidable (TakenNew _ _ _))

/-- The call ends before anything is done: without one joined list, without the local hashes, or at a hash
    without a block. -/
def EndsEarly : Prop :=
  (verifySet answers).length ≠ 1 ∨ readLocalHashes m = none ∨ ∃ hash, Missing m answers hash ∧ Unreadable m hash

/-- What the call does unless it ends early: it rolls back, or it asks. -/
structure Acts (r : BySumHashResult) : Prop where
  rolled_back : ∀ hash, (∃ block, (hash, block) ∈ r.rollbackBlocks) ↔ Missing m answers hash ∧ HasOldBlock m hash
  asked : ∀ hashes, r.needSyncHashes = some hashes → ∀ hash, hash ∈ hashes ↔ New m answers hash
  asked_iff : r.needSyncHashes.isSome ↔ ∀ hash, Missing m answers hash → ¬ HasOldBlock m hash

theorem acts_request {hashes : List Str} (hlocal : localHashes m = hashes)
    (hnone : ∀ hash, Missing m answers hash → ¬ HasOldBlock m hash) :
    Acts m answers (request m (lastHashes answers) (hashes.insertionSort (· ≤ ·))) := by
  refine ⟨fun hash => ?_, fun asked hasked hash => ?_, iff_of_true rfl hnone⟩
  · exact iff_of_false nofun fun h => hnone hash h.1 h.2
  · cases hasked
    rw [mem_needSyncHashes, New, hlocal]

theorem getSyncBlockBySumHashNode_cases :
    EndsEarly m answers ∧ (∃ ret, getSyncBlockBySumHashNode m answers = .early ret) ∨
      ¬ EndsEarly m answers ∧ Acts m answers (getSyncBlockBySumHashNode m answers) := by
  rw [getSyncBlockBySumHashNode, EndsEarly]
  by_cases hvotes : (verifySet answers).length = 1
  swap
  · exact .inl ⟨.inl hvotes, _, if_pos hvotes⟩
  rw [if_neg (not_not.mpr hvotes)]
  by_cases hself : m.selfNodeHeight ≥ m.startSyncHeight
  · have hread : readLocalHashes m = m.getBlockHashesByBlockHeight m.startSyncHeight m.endSyncHeight := if_pos hself
    rw [if_pos hself, hread]
    cases hget : m.getBlockHashesByBlockHeight m.startSyncHeight m.endSyncHeight with
    | none => exact .inl ⟨.inr (.inl rfl), _, rfl⟩
    | some blockHashes =>
      have hlocal : localHashes m = blockHashes := by rw [localHashes, hread, hget, Option.getD_some]
      have hmissing : ∀ hash, hash ∈ Sorted.setDifference (blockHashes.insertionSort (· ≤ ·)) (lastHashes answers) ↔
          Missing m answers hash := fun hash => by rw [mem_diffHashes, Missing, hlocal]
      obtain ⟨⟨hash, hin, hbad⟩, hloop⟩ | ⟨hall, hloop⟩ := foldlM_rollbackStep m
        (Sorted.setDifference (blockHashes.insertionSort (· ≤ ·)) (lastHashes answers)) []
      · simp only [hloop]
        exact .inl ⟨.inr (.inr ⟨hash, (hmissing hash).mp hin, hbad⟩), _, rfl⟩
      · simp only [hloop, List.nil_append]
        have hearly : ¬ ((verifySet answers).length ≠ 1 ∨ some blockHashes = none ∨
            ∃ hash, Missing m answers hash ∧ Unreadable m hash) := by
          rintro (h | h | ⟨hash, hmiss, hbad⟩)
          · exact h hvotes
          · cases h
          · exact hall hash ((hmissing hash).mpr hmiss) hbad
        refine .inr ⟨hearly, ?_⟩
        have hadded : ∀ hash, (∃ block, (hash, block) ∈ (Sorted.setDifference (blockHashes.insertionSort (· ≤ ·))
            (lastHashes answers)).filterMap (oldEntry m)) ↔ Missing m answers hash ∧ HasOldBlock m hash := by
          intro hash
          rw [← hmissing, ← oldEntry_isSome]
          simp only [List.mem_filterMap]
          constructor
          · rintro ⟨block, hash', hin, he⟩
            obtain rfl : hash = hash' := fst_of_oldEntry m he
            exact ⟨hin, by rw [he]; rfl⟩
          · rintro ⟨hin, hsome⟩
            obtain ⟨e, he⟩ := Option.isSome_iff_exists.mp hsome
            obtain rfl := fst_of_oldEntry m he
            exact ⟨e.2, e.1, hin, he⟩
        by_cases hold : (Sorted.setDifference (blockHashes.insertionSort (· ≤ ·)) (lastHashes answers)).filterMap
            (oldEntry m) = []
        · rw [if_neg (not_not.mpr hold)]
          refine acts_request m answers hlocal fun hash hmiss hash_old => ?_
          obtain ⟨block, hin⟩ := (hadded hash).mpr ⟨hmiss, hash_old⟩
          rw [hold] at hin
          cases hin
        · rw [if_pos hold]
          refine ⟨hadded, nofun, iff_of_false nofun fun hnone => ?_⟩
          obtain ⟨e, he⟩ := List.exists_mem_of_ne_nil _ hold
          obtain ⟨hmiss, hash_old⟩ := (hadded e.1).mp ⟨e.2, he⟩
          exact hnone e.1 hmiss hash_old
  · have hread : readLocalHashes m = some [] := if_neg hself
    have hlocal : localHashes m = [] := by rw [localHashes, hread, Option.getD_some]
    have hnone : ∀ hash, ¬ Missing m answers hash := fun hash => by
      rw [Missing, hlocal, TakenMissing, List.count_nil]
      exact Nat.not_lt_zero _
    rw [if_neg hself, hread]
    refine .inr ⟨?_, acts_request m answers hlocal fun hash hmiss => absurd hmiss (hnone hash)⟩
    rintro (h | h | ⟨hash, hmiss, -⟩)
    · exact h hvotes
    · cases h
    · exact hnone hash hmiss

/-- A hash that is taken to be missing is a local one. -/
theorem mem_localHashes_of_missing {hash : Str} (h : Missing m answers hash) : hash ∈ localHashes m :=
  List.count_pos_iff.mp (Nat.zero_lt_of_lt h)

/-- The call rolls back blocks of local hashes only that the list does not have, and asks for the hashes of the
    list that are not local. -/
def UsesAgreedList (list : List Str) : Prop :=
  (∀ e ∈ (getSyncBlockBySumHashNode m answers).rollbackBlocks, e.1 ∈ localHashes m ∧ e.1 ∉ list) ∧
    ∀ hashes, (getSyncBlockBySumHashNode m answers).needSyncHashes = some hashes →
      ∀ hash, hash ∈ hashes ↔ hash ∈ list ∧ hash ∉ localHashes m

/-- An old block of an agreed hash is rolled back: in front of the larger hashes of the last list its hash comes
    less often than locally. -/
def AgreedIsShort (list : List Str) : Prop :=
  ∃ hash ∈ list, inFront (lastHashes answers) hash < (localHashes m).count hash ∧ HasOldBlock m hash

/-- No local block is old and short, so that the call gets to its request. -/
def GetsToRequest : Prop :=
  ∀ hash, HasOldBlock m hash → (localHashes m).count hash ≤ inFront (lastHashes answers) hash

/-- The last list is another one than the agreed list, and they are different in a hash that is not local. -/
def OtherListAsked (list : List Str) : Prop :=
  GetsToRequest m answers ∧ ∃ hash, hash ∉ localHashes m ∧ ¬ (hash ∈ lastHashes answers ↔ hash ∈ list)

/-- The last list has a local hash behind a larger one, or more often than it is there locally. -/
def LocalAsked : Prop :=
  GetsToRequest m answers ∧ ∃ hash ∈ localHashes m,
    inFront (lastHashes answers) hash < (lastHashes answers).count hash ∨
      (localHashes m).count hash < (lastHashes answers).count hash

/-- What is taken to be new are the hashes of the agreed list that are not local, unless one of two things
    happens. -/
theorem new_iff_wanted (list : List Str) :
    (∀ hash, New m answers hash ↔ hash ∈ list ∧ hash ∉ localHashes m) ↔
      (∀ hash ∉ localHashes m, (hash ∈ lastHashes answers ↔ hash ∈ list)) ∧
        ∀ hash ∈ localHashes m, (lastHashes answers).count hash ≤ inFront (lastHashes answers) hash ∧
          (lastHashes answers).count hash ≤ (localHashes m).count hash := by
  have hforeign {hash : Str} (h : hash ∉ localHashes m) : New m answers hash ↔ hash ∈ lastHashes answers := by
    rw [New, TakenNew, List.count_eq_zero.mpr h, Nat.min_zero, List.count_pos_iff]
  have hlocal (hash : Str) : ¬ New m answers hash ↔
      (lastHashes answers).count hash ≤ inFront (lastHashes answers) hash ∧
        (lastHashes answers).count hash ≤ (localHashes m).count hash := by
    rw [New, TakenNew, not_lt, Nat.le_min]
  constructor
  · intro h
    refine ⟨fun hash hforeign' => ?_, fun hash hin => (hlocal hash).mp fun hnew => ((h hash).mp hnew).2 hin⟩
    rw [← hforeign hforeign', h hash, and_iff_left hforeign']
  · rintro ⟨houtside, hinside⟩ hash
    by_cases hin : hash ∈ localHashes m
    · exact iff_of_false ((hlocal hash).mpr (hinside hash hin)) fun h => h.2 hin
    · rw [hforeign hin, houtside hash hin, and_iff_left hin]

theorem usesAgreedList_iff_acts (list : List Str) : UsesAgreedList m answers list ↔ EndsEarly m answers ∨
    ¬ AgreedIsShort m answers list ∧ ¬ OtherListAsked m answers list ∧ ¬ LocalAsked m answers := by
  obtain ⟨hearly, ret, hret⟩ | ⟨hearly, hacts⟩ := getSyncBlockBySumHashNode_cases m answers
  · refine iff_of_true ?_ (.inl hearly)
    rw [UsesAgreedList, hret]
    exact ⟨nofun, nofun⟩
  rw [or_iff_right hearly]
  have hback : (∀ e ∈ (getSyncBlockBySumHashNode m answers).rollbackBlocks, e.1 ∈ localHashes m ∧ e.1 ∉ list) ↔
      ¬ AgreedIsShort m answers list := by
    constructor
    · rintro h ⟨hash, hin, hmiss, hold⟩
      obtain ⟨block, he⟩ := (hacts.rolled_back hash).mpr ⟨hmiss, hold⟩
      exact (h _ he).2 hin
    · intro h e he
      obtain ⟨hmiss, hold⟩ := (hacts.rolled_back e.1).mp ⟨e.2, he⟩
      exact ⟨mem_localHashes_of_missing m answers hmiss, fun hin => h ⟨e.1, hin, hmiss, hold⟩⟩
  have hrequest : (getSyncBlockBySumHashNode m answers).needSyncHashes.isSome ↔ GetsToRequest m answers := by
    rw [hacts.asked_iff]
    exact forall_congr' fun hash => ⟨fun h hold => not_lt.mp fun hmiss => h hmiss hold, fun h hmiss hold => absurd hmiss (not_lt.mpr (h hold))⟩
  have hasked : (∀ hashes, (getSyncBlockBySumHashNode m answers).needSyncHashes = some hashes →
      ∀ hash, hash ∈ hashes ↔ hash ∈ list ∧ hash ∉ localHashes m) ↔
      (GetsToRequest m answers → ∀ hash, New m answers hash ↔ hash ∈ list ∧ hash ∉ localHashes m) := by
    constructor
    · intro h hgets hash
      obtain ⟨hashes, hsome⟩ := Option.isSome_iff_exists.mp (hrequest.mpr hgets)
      exact (hacts.asked hashes hsome hash).symm.trans (h hashes hsome hash)
    · intro h hashes hsome hash
      exact (hacts.asked hashes hsome hash).trans (h (hrequest.mp (by rw [hsome]; rfl)) hash)
  rw [UsesAgreedList, hback, hasked, new_iff_wanted, OtherListAsked, LocalAsked]
  refine and_congr_right fun _ => ?_
  rw [not_and, not_and, ← imp_and]
  refine imp_congr_right fun _ => ?_
  push Not
  refine and_congr (forall_congr' fun hash => imp_congr_right fun _ => ?_) Iff.rfl
  tauto

/-- When all successful answers carry one list, the vote fails without a successful answer only. -/
theorem length_verifySet {list : List Str} (hagree : ∀ ack ∈ agreeing answers, ack.blockHashes = list) :
    (verifySet answers).length = 1 ↔ agreeing answers ≠ [] := by
  have hmem : ∀ joined, joined ∈ verifySet answers ↔ agreeing answers ≠ [] ∧ joined = list.flatten := by
    intro joined
    rw [verifySet, mem_sortedSet, List.mem_map]
    constructor
    · rintro ⟨ack, hack, rfl⟩
      exact ⟨List.ne_nil_of_mem hack, by rw [hagree ack hack]⟩
    · rintro ⟨hsome, rfl⟩
      obtain ⟨ack, hack⟩ := List.exists_mem_of_ne_nil _ hsome
      exact ⟨ack, hack, by rw [hagree ack hack]⟩
  constructor
  · intro hlen
    obtain ⟨joined, heq⟩ := List.length_eq_one_iff.mp hlen
    exact ((hmem joined).mp (heq ▸ List.mem_singleton_self joined)).1
  · intro hsome
    have hnodup : (verifySet answers).Nodup := sortedSet_nodup _
    refine List.length_eq_one_iff.mpr ⟨list.flatten, ?_⟩
    refine List.perm_singleton.mp ((List.perm_ext_iff_of_nodup hnodup (List.nodup_singleton _)).mpr fun joined => ?_)
    rw [hmem, and_iff_right hsome, List.mem_singleton]

/-- With the agreed list in the last answer, in order, and no hash twice in it or locally, none of this
    happens. -/
theorem last_list_fits_of_ordered {list : List Str} (hlast : lastHashes answers = list)
    (hordered : list.Pairwise (· ≤ ·)) (hlist : list.Nodup) (hlocal : (localHashes m).Nodup) :
    ¬ AgreedIsShort m answers list ∧ ¬ OtherListAsked m answers list ∧ ¬ LocalAsked m answers := by
  have hcount : ∀ hash, inFront list hash = list.count hash := fun hash =>
    Sorted.count_takeWhile_of_sorted hash (hordered.imp fun {_ _} h => not_lt.mp (by simpa using h))
  have hone : ∀ hash, list.count hash ≤ 1 := List.nodup_iff_count_le_one.mp hlist
  have hone' : ∀ hash, (localHashes m).count hash ≤ 1 := List.nodup_iff_count_le_one.mp hlocal
  refine ⟨?_, ?_, ?_⟩
  · rintro ⟨hash, hin, hmiss, -⟩
    rw [hlast, hcount] at hmiss
    have hpos := List.count_pos_iff.mpr hin
    have := hone' hash
    omega
  · rintro ⟨-, hash, -, hdiffer⟩
    rw [hlast] at hdiffer
    exact hdiffer Iff.rfl
  · rintro ⟨-, hash, hin, hmany⟩
    rw [hlast, hcount] at hmany
    have hpos := List.count_pos_iff.mpr hin
    have := hone hash
    omega

end Call

/-- The agreed list is used exactly when the call ends early, or in the last answer's list no agreed hash with an
    old block is short, and, if the call gets to its request, the list is the agreed one outside the local hashes
    and has these in order and not too often. -/
theorem uses_agreed_list_iff (m : BySumHashMeets) (answers : List Answer) (list : List Str)
    (hagree : ∀ ack ∈ agreeing answers, ack.blockHashes = list) :
    UsesAgreedList m answers list ↔ agreeing answers = [] ∨ readLocalHashes m = none ∨
      (∃ hash, Missing m answers hash ∧ Unreadable m hash) ∨
      ¬ AgreedIsShort m answers list ∧ ¬ OtherListAsked m answers list ∧ ¬ LocalAsked m answers := by
  rw [usesAgreedList_iff_acts, EndsEarly, ne_eq, length_verifySet answers hagree, not_not, or_assoc, or_assoc]

/-- A node with one block in the range, an old one. -/
def oneBlock : BySumHashMeets where
  startSyncHeight := 1
  endSyncHeight := 1
  selfNodeHeight := 1
  getBlockHashesByBlockHeight _ _ := some [[103]]
  getBlockByBlockHash _ := .found []
  parseFromString _ := ⟨0, [103], [], 1, [], []⟩
  nowTime _ := 1000000000
  getSyncBlockData _ := 0

/-- One node has the same block, and a second one answers with a failure: the block is rolled back. -/
def failureLast : List Answer :=
  [⟨true, ⟨0, str "a", [[103]]⟩⟩, ⟨true, ⟨1, str "b", []⟩⟩]

theorem agreed_block_rolled_back : (∀ ack ∈ agreeing failureLast, ack.blockHashes = [[103]]) ∧
    ¬ UsesAgreedList oneBlock failureLast [[103]] := by
  constructor
  · decide
  · intro h
    exact (h.1 ([103], ⟨0, [103], [], 1, [], []⟩) (by decide)).2 (by decide)

/-- With the two answers the other way round the list of the first node is used. -/
theorem uses_agreed_list_success_last : UsesAgreedList oneBlock failureLast.reverse [[103]] := by
  refine (uses_agreed_list_iff oneBlock failureLast.reverse [[103]] (by decide)).mpr ?_
  refine .inr (.inr (.inr ?_))
  refine last_list_fits_of_ordered oneBlock _ rfl (List.pairwise_singleton _ _) (List.nodup_singleton _) ?_
  exact List.nodup_singleton [103]

end Tfs.Ca.BySumHashNode
