import Tfs.Ca.SyncBlock
import Tfs.Ca.SumHash
import Tfs.Db.DbApi
import Tfs.Lib.Sorted

/-! Which block hashes are asked for (`SyncBlock::_GetSyncBlockHashNode` in `ca/sync_block.cpp`, once the
    answers are in).

    A hash that is not saved is asked for when at least `succentCount / 5 * 4` nodes name it. The division
    comes first and drops the remainder, so that four answers or fewer ask for no vote at all. -/

namespace Tfs.Ca.BlockHashNode

open Db

/-! ### The function -/

/-- `message SyncGetHeightHashAck`. -/
structure SyncGetHeightHashAck where
  code : ℤ
  selfNodeId : Str
  blockHashes : List Str

/-- What the function reads. -/
structure BlockHashMeets where
  getBlockByBlockHash : Str → Lookup
  /-- `ParseFromString`: whether it succeeds, and the message afterwards -/
  parseFromString : Str → Bool × CBlock
  getBlockHashesByBlockHeight : UInt64 → UInt64 → Option (List Str)
  startSyncHeight : UInt64
  endSyncHeight : UInt64
  selfNodeHeight : UInt64
  chainHeight : UInt64
  /-- `newSyncSnedNum` is less than the number of qualifying nodes -/
  fewAsked : Bool

/-- The answers that count. -/
def successful (acks : List SyncGetHeightHashAck) : List SyncGetHeightHashAck :=
  acks.filter fun ack => ack.code = 0

/-- A hash is recorded with the node that names it; each set is the list of what was inserted. -/
def recordHash (selfNodeId : Str) (syncBlockHashes : SortedMap Str (List Str)) (key : Str) :
    SortedMap Str (List Str) :=
  syncBlockHashes.upsert key fun value => value.getD [] ++ [selfNodeId]

/-- `syncBlockHashes`. -/
def syncBlockHashes (acks : List SyncGetHeightHashAck) : SortedMap Str (List Str) :=
  (successful acks).foldl (fun m ack => ack.blockHashes.foldl (recordHash ack.selfNodeId) m) .empty

/-- `verifyNum`. -/
def verifyNum (succentCount : ℕ) : ℕ := succentCount / 5 * 4

/-- What the loop over `syncBlockHashes` fills. -/
structure HashLoop where
  exitsHashes : List Str
  verifyHashes : List Str
  nodes : List Str
  rollbackBlocks : List CBlock

/-- One round of the loop. -/
def hashStep (m : BlockHashMeets) (verifyNum : ℕ) (s : HashLoop) (e : Str × List Str) : Except ℤ HashLoop :=
  match m.getBlockByBlockHash e.1 with
  | .failed => .error (-4)
  | .found strblock =>
    let s := { s with exitsHashes := s.exitsHashes ++ [e.1] }
    if (sortedSet e.2).length ≥ verifyNum then .ok s
    else if (m.parseFromString strblock).1 ∧
        (m.parseFromString strblock).2.height.toUInt64 < m.chainHeight - 10 then
      .ok { s with rollbackBlocks := s.rollbackBlocks ++ [(m.parseFromString strblock).2] }
    else .ok s
  | .notFound =>
    if (sortedSet e.2).length ≥ verifyNum then
      -- what is inserted is there already, so that the nodes are those of the first hash
      let nodes := if s.nodes = [] then sortedSet e.2
        else sortedSet (s.nodes ++ Sorted.setIntersection s.nodes (sortedSet e.2))
      .ok { s with verifyHashes := s.verifyHashes ++ [e.1], nodes := nodes }
    else .ok s

/-- The local hashes of the heights asked about that no answer names. -/
def diffHashes (m : BlockHashMeets) (exitsHashes : List Str) : Option (List Str) :=
  let endHeight := if m.endSyncHeight > m.selfNodeHeight then m.selfNodeHeight else m.endSyncHeight
  if endHeight ≥ m.startSyncHeight then
    (m.getBlockHashesByBlockHeight m.startSyncHeight endHeight).map fun blockHashes =>
      Sorted.setDifference (blockHashes.insertionSort (· ≤ ·)) (exitsHashes.insertionSort (· ≤ ·))
  else some []

/-- The block of such a hash, if it is to be rolled back. -/
def oldBlock (m : BlockHashMeets) (hash : Str) : Option CBlock :=
  match m.getBlockByBlockHash hash with
  | .found strblock =>
    let block := (m.parseFromString strblock).2
    if block.height.toUInt64 < m.chainHeight ∧ m.chainHeight - block.height.toUInt64 > 10 then some block else none
  | _ => none

/-- What the function leaves: its return value, `retNodeIds`, `reqHashes`, and the blocks passed to
    `AddRollbackBlock`. -/
structure BlockHashResult where
  ret : ℤ
  retNodeIds : List Str
  reqHashes : List Str
  rollbackBlockData : SyncBlockData

/-- A return before anything is asked for. -/
def BlockHashResult.early (ret : ℤ) : BlockHashResult := ⟨ret, [], [], .empty⟩

/-- `SyncBlock::_GetSyncBlockHashNode` for the parsed answers; `reqHashes` has been cleared. -/
def getSyncBlockHashNode (m : BlockHashMeets) (acks : List SyncGetHeightHashAck) : BlockHashResult :=
  match (syncBlockHashes acks).entries.foldlM (hashStep m (verifyNum (successful acks).length)) ⟨[], [], [], []⟩ with
  | .error ret => .early ret
  | .ok s =>
    match diffHashes m s.exitsHashes with
    | none => .early (-5)
    | some vDiff =>
      let rollbackBlocks := s.rollbackBlocks ++ vDiff.filterMap (oldBlock m)
      if rollbackBlocks ≠ [] then
        if m.fewAsked then .early (-7)
        else { BlockHashResult.early (-8) with rollbackBlockData := rollbackBlocks.foldl addBlockToMap .empty }
      else if s.verifyHashes = [] then .early 0
      else ⟨if s.nodes = [] then -9 else 0, s.nodes, s.verifyHashes, .empty⟩

/-! ### The votes -/

/-- The hashes that successful answers name, each with the node that names it. -/
def named (acks : List SyncGetHeightHashAck) : List (Str × Str) :=
  (successful acks).flatMap fun ack => ack.blockHashes.map (·, ack.selfNodeId)

/-- The distinct nodes that answered with success. -/
def responders (acks : List SyncGetHeightHashAck) : ℕ := ((successful acks).map (·.selfNodeId)).dedup.length

/-- The distinct nodes among them that named the hash. -/
def reporters (acks : List SyncGetHeightHashAck) (hash : Str) : ℕ :=
  (((successful acks).filter fun ack => hash ∈ ack.blockHashes).map (·.selfNodeId)).dedup.length

theorem foldl_recordHash_find (hash : Str) (pairs : List (Str × Str)) :
    (pairs.foldl (fun m e => recordHash e.2 m e.1) SortedMap.empty).find hash =
      if hash ∈ pairs.map Prod.fst then some ((pairs.filter fun e => e.1 = hash).map Prod.snd) else none := by
  induction pairs using List.reverseRecOn with
  | nil => rfl
  | append_singleton pairs e ih =>
    rw [List.foldl_concat, recordHash, SortedMap.find_upsert, List.filter_append]
    by_cases heq : hash = e.1
    · rw [if_pos heq, ← heq, ih]
      by_cases hin : hash ∈ pairs.map Prod.fst
      · simp [hin, ← heq]
      · have hnone : pairs.filter (fun e => e.1 = hash) = [] :=
          List.filter_eq_nil_iff.mpr fun e he heq => hin (List.mem_map.mpr ⟨e, he, by simpa using heq⟩)
        simp [hin, hnone, ← heq]
    · have hin : hash ∈ (pairs ++ [e]).map Prod.fst ↔ hash ∈ pairs.map Prod.fst := by simp [heq]
      rw [if_neg heq, ih, if_congr hin rfl rfl]
      simp [Ne.symm heq]

/-- `syncBlockHashes` has for each hash the nodes that named it. -/
theorem syncBlockHashes_find (acks : List SyncGetHeightHashAck) (hash : Str) :
    (syncBlockHashes acks).find hash = if hash ∈ (named acks).map Prod.fst
      then some (((named acks).filter fun e => e.1 = hash).map Prod.snd) else none := by
  have hfold : ∀ (answers : List SyncGetHeightHashAck) (m : SortedMap Str (List Str)),
      answers.foldl (fun m ack => ack.blockHashes.foldl (recordHash ack.selfNodeId) m) m =
        (answers.flatMap fun ack => ack.blockHashes.map (·, ack.selfNodeId)).foldl
          (fun m e => recordHash e.2 m e.1) m := by
    intro answers
    induction answers with
    | nil => exact fun _ => rfl
    | cons ack answers ih =>
      intro m
      rw [List.foldl_cons, ih, List.flatMap_cons, List.foldl_append, List.foldl_map]
  rw [syncBlockHashes, hfold, foldl_recordHash_find]
  rfl

/-- The size of a set is the number of distinct nodes. -/
theorem length_sortedSet_named (acks : List SyncGetHeightHashAck) (hash : Str) :
    (sortedSet (((named acks).filter fun e => e.1 = hash).map Prod.snd)).length = reporters acks hash := by
  rw [(sortedSet_perm _).length_eq, reporters]
  refine List.Perm.length_eq ((List.perm_ext_iff_of_nodup (List.nodup_dedup _) (List.nodup_dedup _)).mpr ?_)
  intro node
  rw [List.mem_dedup, List.mem_dedup]
  simp only [named, List.mem_map, List.mem_filter, List.mem_flatMap, decide_eq_true_eq]
  constructor
  · rintro ⟨e, ⟨⟨ack, hack, key, hkey, rfl⟩, rfl⟩, rfl⟩
    exact ⟨ack, ⟨hack, hkey⟩, rfl⟩
  · rintro ⟨ack, ⟨hack, hkey⟩, rfl⟩
    exact ⟨(hash, ack.selfNodeId), ⟨⟨ack, hack, hash, hkey, rfl⟩, rfl⟩, rfl⟩

/-! ### The loop -/

section Loop
variable (m : BlockHashMeets) (k : ℕ)

/-- The hash is saved. -/
def isLocal (hash : Str) : Bool :=
  match m.getBlockByBlockHash hash with
  | .found _ => true
  | _ => false

/-- The entry is asked for. -/
def isRequested (e : Str × List Str) : Bool :=
  m.getBlockByBlockHash e.1 = .notFound ∧ (sortedSet e.2).length ≥ k

/-- The saved block of an entry that too few nodes name, if it is to be rolled back. -/
def outvotedBlock (e : Str × List Str) : Option CBlock :=
  match m.getBlockByBlockHash e.1 with
  | .found strblock =>
    if (sortedSet e.2).length < k ∧ (m.parseFromString strblock).1 ∧
      (m.parseFromString strblock).2.height.toUInt64 < m.chainHeight - 10 then
      some (m.parseFromString strblock).2
    else none
  | _ => none

/-- One round, unless the database fails: each list grows by what the entry gives it. -/
theorem hashStep_eq (s : HashLoop) (e : Str × List Str) (h : m.getBlockByBlockHash e.1 ≠ .failed) : ∃ nodes,
    hashStep m k s e = .ok ⟨s.exitsHashes ++ ([e].map Prod.fst).filter (isLocal m),
      s.verifyHashes ++ ([e].filter (isRequested m k)).map Prod.fst, nodes,
      s.rollbackBlocks ++ [e].filterMap (outvotedBlock m k)⟩ := by
  cases hget : m.getBlockByBlockHash e.1 with
  | failed => exact absurd hget h
  | found strblock =>
    refine ⟨s.nodes, ?_⟩
    by_cases hvotes : (sortedSet e.2).length ≥ k
    · simp [hashStep, isLocal, isRequested, outvotedBlock, hget, hvotes, Nat.not_lt.mpr hvotes]
    · by_cases hold : (m.parseFromString strblock).1 ∧
          (m.parseFromString strblock).2.height.toUInt64 < m.chainHeight - 10
      · simp [hashStep, isLocal, isRequested, outvotedBlock, hget, hvotes, hold, Nat.not_le.mp hvotes]
      · simp only [hashStep, isLocal, isRequested, outvotedBlock, hget, if_neg hvotes, if_neg hold, List.map_cons,
          List.map_nil, List.filter_cons, List.filterMap_cons, if_neg (fun h => hold (And.right h))]
        simp
  | notFound =>
    by_cases hvotes : (sortedSet e.2).length ≥ k
    · exact ⟨_, by simp [hashStep, isLocal, isRequested, outvotedBlock, hget, hvotes]; rfl⟩
    · exact ⟨s.nodes, by simp [hashStep, isLocal, isRequested, outvotedBlock, hget, hvotes]⟩

/-- What the loop leaves when it does not end early: it does where the database fails. -/
theorem foldlM_hashStep : ∀ (entries : List (Str × List Str)) (s : HashLoop),
    (∃ e ∈ entries, m.getBlockByBlockHash e.1 = .failed) ∧
        (∃ ret, entries.foldlM (hashStep m k) s = .error ret) ∨
      (∀ e ∈ entries, m.getBlockByBlockHash e.1 ≠ .failed) ∧ ∃ nodes,
        entries.foldlM (hashStep m k) s = .ok ⟨s.exitsHashes ++ (entries.map Prod.fst).filter (isLocal m),
          s.verifyHashes ++ (entries.filter (isRequested m k)).map Prod.fst, nodes,
          s.rollbackBlocks ++ entries.filterMap (outvotedBlock m k)⟩
  | [], s => .inr ⟨fun _ he => (nomatch he), s.nodes, by simp [pure, Except.pure]⟩
  | e :: entries, s => by
    rw [List.foldlM_cons]
    by_cases hget : m.getBlockByBlockHash e.1 = .failed
    · refine .inl ⟨⟨e, List.mem_cons_self, hget⟩, -4, ?_⟩
      simp only [hashStep, hget]
      rfl
    · obtain ⟨nodes, hstep⟩ := hashStep_eq m k s e hget
      rw [hstep]
      obtain ⟨⟨x, hx, hfail⟩, hret⟩ | ⟨hnone, nodes, hrest⟩ := foldlM_hashStep entries
          ⟨s.exitsHashes ++ ([e].map Prod.fst).filter (isLocal m),
            s.verifyHashes ++ ([e].filter (isRequested m k)).map Prod.fst, nodes,
            s.rollbackBlocks ++ [e].filterMap (outvotedBlock m k)⟩
      · exact .inl ⟨⟨x, List.mem_cons_of_mem _ hx, hfail⟩, hret⟩
      · refine .inr ⟨List.forall_mem_cons.mpr ⟨hget, hnone⟩, nodes, hrest.trans ?_⟩
        simp only [List.append_assoc, ← List.filter_append, ← List.map_append, ← List.filterMap_append,
          List.singleton_append]

end Loop

/-! ### The call -/

section Call
variable (m : BlockHashMeets) (acks : List SyncGetHeightHashAck)

/-- The entries of `syncBlockHashes`: a hash for each one named. -/
theorem entries_keys_perm : ((syncBlockHashes acks).entries.map Prod.fst).Perm ((named acks).map Prod.fst).dedup := by
  refine (List.perm_ext_iff_of_nodup ?_ (List.nodup_dedup _)).mpr fun hash => ?_
  · exact List.pairwise_map.mpr ((syncBlockHashes acks).sorted.imp fun h => h.ne)
  · rw [List.mem_dedup, List.mem_map]
    constructor
    · rintro ⟨⟨key, nodes⟩, he, rfl⟩
      rw [SortedMap.mem_iff_find, syncBlockHashes_find] at he
      by_contra hnot
      simp [hnot] at he
    · intro hnamed
      refine ⟨(hash, ((named acks).filter fun e => e.1 = hash).map Prod.snd), ?_, rfl⟩
      rw [SortedMap.mem_iff_find, syncBlockHashes_find, if_pos hnamed]

/-- The hashes that successful answers name. -/
theorem mem_entries_iff {p : Str → ℕ → Prop} : (∃ e ∈ (syncBlockHashes acks).entries, p e.1 (sortedSet e.2).length) ↔
    ∃ hash ∈ (named acks).map Prod.fst, p hash (reporters acks hash) := by
  constructor
  · rintro ⟨⟨hash, nodes⟩, he, hp⟩
    have hnamed : hash ∈ (named acks).map Prod.fst :=
      List.mem_dedup.mp ((entries_keys_perm acks).subset (List.mem_map.mpr ⟨_, he, rfl⟩))
    rw [SortedMap.mem_iff_find, syncBlockHashes_find, if_pos hnamed, Option.some.injEq] at he
    subst he
    exact ⟨hash, hnamed, length_sortedSet_named acks hash ▸ hp⟩
  · rintro ⟨hash, hnamed, hp⟩
    refine ⟨(hash, ((named acks).filter fun e => e.1 = hash).map Prod.snd), ?_, ?_⟩
    · rw [SortedMap.mem_iff_find, syncBlockHashes_find, if_pos hnamed]
    · exact (length_sortedSet_named acks hash).symm ▸ hp

/-- The saved hashes of the heights asked about; none where the local chain has no such height. -/
def localHashes : Option (List Str) :=
  let endHeight := if m.endSyncHeight > m.selfNodeHeight then m.selfNodeHeight else m.endSyncHeight
  if endHeight ≥ m.startSyncHeight then m.getBlockHashesByBlockHeight m.startSyncHeight endHeight else some []

/-- A saved block that fewer than `verifyNum` nodes name is old enough to be rolled back. -/
def Outvoted (hash : Str) (votes : ℕ) : Prop := ∃ strblock, m.getBlockByBlockHash hash = .found strblock ∧
  votes < verifyNum (successful acks).length ∧ (m.parseFromString strblock).1 ∧
  (m.parseFromString strblock).2.height.toUInt64 < m.chainHeight - 10

/-- The call ends before anything is asked for: the database fails, or a saved block is to be rolled back. -/
def LeavesEarly : Prop :=
  (∃ hash ∈ (named acks).map Prod.fst, m.getBlockByBlockHash hash = .failed) ∨
  localHashes m = none ∨
  (∃ hash ∈ (named acks).map Prod.fst, Outvoted m acks hash (reporters acks hash)) ∨
  ∃ hashes, localHashes m = some hashes ∧ ∃ hash ∈ hashes,
    (hash ∉ (named acks).map Prod.fst ∨ 1 < hashes.count hash) ∧ (oldBlock m hash).isSome

theorem isSome_outvotedBlock (e : Str × List Str) :
    (outvotedBlock m (verifyNum (successful acks).length) e).isSome ↔ Outvoted m acks e.1 (sortedSet e.2).length := by
  rw [outvotedBlock, Outvoted]
  cases hget : m.getBlockByBlockHash e.1 with
  | found strblock => simp
  | notFound => simp
  | failed => simp

theorem isLocal_of_oldBlock {hash : Str} (h : (oldBlock m hash).isSome) : isLocal m hash := by
  rw [oldBlock] at h
  rw [isLocal]
  split at h
  · rfl
  · cases h

theorem diffHashes_eq (exitsHashes : List Str) : diffHashes m exitsHashes = (localHashes m).map fun blockHashes =>
    Sorted.setDifference (blockHashes.insertionSort (· ≤ ·)) (exitsHashes.insertionSort (· ≤ ·)) := by
  rw [diffHashes, localHashes]
  split_ifs <;> rfl

/-- A saved hash is left over when no answer names it, or when it is listed more than once. -/
theorem mem_leftOver {hashes : List Str} {hash : Str} (hlocal : isLocal m hash) :
    hash ∈ Sorted.setDifference (hashes.insertionSort (· ≤ ·))
        ((((syncBlockHashes acks).entries.map Prod.fst).filter (isLocal m)).insertionSort (· ≤ ·)) ↔
      hash ∈ hashes ∧ (hash ∉ (named acks).map Prod.fst ∨ 1 < hashes.count hash) := by
  rw [Sorted.mem_setDifference (List.pairwise_insertionSort _ _) (List.pairwise_insertionSort _ _),
    (List.perm_insertionSort _ _).count_eq, (List.perm_insertionSort _ _).count_eq,
    List.count_filter hlocal, (entries_keys_perm acks).count_eq]
  by_cases hnamed : hash ∈ (named acks).map Prod.fst
  · rw [List.count_eq_one_of_mem (List.nodup_dedup _) (List.mem_dedup.mpr hnamed)]
    refine ⟨fun h => ⟨List.count_pos_iff.mp (by omega), .inr h⟩, fun h => h.2.resolve_left (not_not.mpr hnamed)⟩
  · rw [List.count_eq_zero.mpr fun h => hnamed (List.mem_dedup.mp h), List.count_pos_iff]
    exact ⟨fun h => ⟨h, .inl hnamed⟩, And.left⟩

/-- The loop finds a block to roll back when a named one is outvoted. -/
theorem outvotedBlocks_ne_nil :
    (syncBlockHashes acks).entries.filterMap (outvotedBlock m (verifyNum (successful acks).length)) ≠ [] ↔
      ∃ hash ∈ (named acks).map Prod.fst, Outvoted m acks hash (reporters acks hash) := by
  rw [← mem_entries_iff acks (p := Outvoted m acks), Ne, List.filterMap_eq_nil_iff]
  simp only [← isSome_outvotedBlock, Option.isSome_iff_ne_none, not_forall, exists_prop]

/-- The left-over hashes give a block to roll back when one of them is old. -/
theorem oldBlocks_ne_nil (hashes : List Str) :
    (Sorted.setDifference (hashes.insertionSort (· ≤ ·))
        ((((syncBlockHashes acks).entries.map Prod.fst).filter (isLocal m)).insertionSort (· ≤ ·))).filterMap
          (oldBlock m) ≠ [] ↔
      ∃ hash ∈ hashes, (hash ∉ (named acks).map Prod.fst ∨ 1 < hashes.count hash) ∧ (oldBlock m hash).isSome := by
  rw [Ne, List.filterMap_eq_nil_iff]
  simp only [not_forall, exists_prop, ← Option.isSome_iff_ne_none]
  refine exists_congr fun hash => ⟨fun ⟨hmem, hold⟩ => ?_, fun ⟨hmem, hnamed, hold⟩ => ?_⟩
  · obtain ⟨hmem, hnamed⟩ := (mem_leftOver m acks (isLocal_of_oldBlock m hold)).mp hmem
    exact ⟨hmem, hnamed, hold⟩
  · exact ⟨(mem_leftOver m acks (isLocal_of_oldBlock m hold)).mpr ⟨hmem, hnamed⟩, hold⟩

theorem mem_requested (hash : Str) :
    hash ∈ ((syncBlockHashes acks).entries.filter (isRequested m (verifyNum (successful acks).length))).map Prod.fst ↔
      hash ∈ (named acks).map Prod.fst ∧ m.getBlockByBlockHash hash = .notFound ∧
        verifyNum (successful acks).length ≤ reporters acks hash := by
  have hentries := mem_entries_iff acks (p := fun key votes => key = hash ∧
    m.getBlockByBlockHash key = .notFound ∧ verifyNum (successful acks).length ≤ votes)
  constructor
  · intro h
    obtain ⟨e, he, rfl⟩ := List.mem_map.mp h
    obtain ⟨he, hreq⟩ := List.mem_filter.mp he
    obtain ⟨key, hkey, rfl, hreq⟩ := hentries.mp ⟨e, he, rfl, by simpa [isRequested] using hreq⟩
    exact ⟨hkey, hreq⟩
  · rintro ⟨hnamed, hreq⟩
    obtain ⟨e, he, hkey, hvotes⟩ := hentries.mpr ⟨hash, hnamed, rfl, hreq⟩
    exact List.mem_map.mpr ⟨e, List.mem_filter.mpr ⟨he, by simpa [isRequested] using hvotes⟩, hkey⟩

/-- The hashes that the loop marks for asking. -/
def requestedHashes : List Str :=
  ((syncBlockHashes acks).entries.filter (isRequested m (verifyNum (successful acks).length))).map Prod.fst

/-- The call ends early and asks for nothing, or it hands back what the loop has filled. -/
theorem getSyncBlockHashNode_cases :
    (LeavesEarly m acks ∧ (getSyncBlockHashNode m acks).reqHashes = []) ∨
    (¬ LeavesEarly m acks ∧ ∃ s, (syncBlockHashes acks).entries.foldlM
        (hashStep m (verifyNum (successful acks).length)) ⟨[], [], [], []⟩ = .ok s ∧
      getSyncBlockHashNode m acks = if requestedHashes m acks = [] then .early 0
        else ⟨if s.nodes = [] then -9 else 0, s.nodes, requestedHashes m acks, .empty⟩) := by
  have hfailed := mem_entries_iff acks (p := fun hash _ => m.getBlockByBlockHash hash = .failed)
  rw [getSyncBlockHashNode]
  obtain ⟨hfail, ret, hloop⟩ | ⟨hread, nodes, hloop⟩ :=
    foldlM_hashStep m (verifyNum (successful acks).length) (syncBlockHashes acks).entries ⟨[], [], [], []⟩
  · rw [hloop]
    exact .inl ⟨.inl (hfailed.mp hfail), rfl⟩
  rw [hloop]
  simp only [List.nil_append, diffHashes_eq]
  cases hlocal : localHashes m with
  | none => exact .inl ⟨.inr (.inl hlocal), rfl⟩
  | some hashes =>
    have hleaves : LeavesEarly m acks ↔
        (syncBlockHashes acks).entries.filterMap (outvotedBlock m (verifyNum (successful acks).length)) ++
          (Sorted.setDifference (hashes.insertionSort (· ≤ ·))
            ((((syncBlockHashes acks).entries.map Prod.fst).filter (isLocal m)).insertionSort (· ≤ ·))).filterMap
              (oldBlock m) ≠ [] := by
      rw [Ne, List.append_eq_nil_iff, not_and_or, ← Ne, ← Ne, outvotedBlocks_ne_nil, oldBlocks_ne_nil, LeavesEarly,
        hlocal]
      refine (or_iff_right fun h => ?_).trans ((or_iff_right nofun).trans (or_congr_right ?_))
      · obtain ⟨e, he, hfail⟩ := hfailed.mpr h
        exact hread e he hfail
      · exact ⟨fun ⟨hashes', h, hold⟩ => Option.some.inj h ▸ hold, fun hold => ⟨hashes, rfl, hold⟩⟩
    simp only [Option.map_some]
    by_cases hroll : LeavesEarly m acks
    · rw [if_pos (hleaves.mp hroll)]
      refine .inl ⟨hroll, ?_⟩
      split_ifs
      · rfl
      · rfl
    · rw [if_neg fun h => hroll (hleaves.mpr h)]
      exact .inr ⟨hroll, _, rfl, rfl⟩

/-- A missing hash that `verifyNum` nodes name. -/
def Requested (hash : Str) : Prop := hash ∈ (named acks).map Prod.fst ∧ m.getBlockByBlockHash hash = .notFound ∧
  verifyNum (successful acks).length ≤ reporters acks hash

/-- What is asked for, unless the call ends early. -/
theorem mem_reqHashes (hash : Str) : hash ∈ (getSyncBlockHashNode m acks).reqHashes ↔
    ¬ LeavesEarly m acks ∧ Requested m acks hash := by
  rw [Requested, ← mem_requested]
  obtain ⟨hleaves, hreq⟩ | ⟨hstays, s, -, hresult⟩ := getSyncBlockHashNode_cases m acks
  · rw [hreq]
    exact iff_of_false List.not_mem_nil fun h => h.1 hleaves
  · rw [hresult, and_iff_right hstays]
    split_ifs with hempty hnodes
    · rw [requestedHashes] at hempty
      rw [hempty]
      rfl
    · rfl
    · rfl

/-- Every hash asked for is missing, and four fifths of the nodes that answered name it. -/
def RequestsAgreed : Prop := ∀ hash ∈ (getSyncBlockHashNode m acks).reqHashes,
  m.getBlockByBlockHash hash = .notFound ∧ 80 * responders acks ≤ 100 * reporters acks hash

end Call

/-- The remainder that `succentCount / 5 * 4` drops lets the hash through: it does not matter to the number of
    fifths whether answers or nodes are counted, and the nodes that name the hash are more than these fifths
    by less than the remainder. -/
def LetThroughByRounding (acks : List SyncGetHeightHashAck) (hash : Str) : Prop :=
  (successful acks).length / 5 = responders acks / 5 ∧
    verifyNum (successful acks).length ≤ reporters acks hash ∧
    reporters acks hash < verifyNum (successful acks).length + responders acks % 5

instance (acks : List SyncGetHeightHashAck) (hash : Str) : Decidable (LetThroughByRounding acks hash) :=
  inferInstanceAs (Decidable (_ ∧ _))

theorem responders_le (acks : List SyncGetHeightHashAck) : responders acks ≤ (successful acks).length := by
  rw [responders, ← @List.length_map _ _ (successful acks) SyncGetHeightHashAck.selfNodeId]
  exact (List.dedup_sublist _).length_le

/-- Between `verifyNum` and four fifths of the nodes there is nothing else. -/
theorem let_through_iff (acks : List SyncGetHeightHashAck) (hash : Str) :
    (verifyNum (successful acks).length ≤ reporters acks hash ∧
      100 * reporters acks hash < 80 * responders acks) ↔ LetThroughByRounding acks hash := by
  have hle := responders_le acks
  rw [LetThroughByRounding, verifyNum]
  omega

/-- It is so unless the rounding lets a hash through that is missing, or the call ends early. -/
theorem requested_hashes_agreed_iff (m : BlockHashMeets) (acks : List SyncGetHeightHashAck) :
    RequestsAgreed m acks ↔ LeavesEarly m acks ∨ ∀ hash ∈ (named acks).map Prod.fst,
      m.getBlockByBlockHash hash = .notFound → ¬ LetThroughByRounding acks hash := by
  simp only [RequestsAgreed, mem_reqHashes]
  by_cases hleaves : LeavesEarly m acks
  · exact iff_of_true (fun _ h => absurd hleaves h.1) (.inl hleaves)
  · rw [or_iff_right hleaves]
    constructor
    · intro h hash hnamed hmissing hbad
      obtain ⟨hvotes, hfew⟩ := (let_through_iff acks hash).mpr hbad
      exact absurd (h hash ⟨hleaves, hnamed, hmissing, hvotes⟩).2 (not_le.mpr hfew)
    · rintro h hash ⟨_, hnamed, hmissing, hvotes⟩
      refine ⟨hmissing, not_lt.mp fun hfew => ?_⟩
      exact h hash hnamed hmissing ((let_through_iff acks hash).mp ⟨hvotes, hfew⟩)

/-- Of distinct nodes, the votes that `verifyNum` asks for are four fifths exactly when their number is a
    multiple of five. -/
theorem verifyNum_exact_iff (n : ℕ) : (∀ votes, verifyNum n ≤ votes → 80 * n ≤ 100 * votes) ↔ 5 ∣ n := by
  rw [verifyNum]
  constructor
  · intro h
    have := h _ le_rfl
    omega
  · intro h votes hvotes
    omega

/-- With a multiple of five answers, each from another node, what is asked for is agreed. -/
theorem agreed_of_multiple_of_five {m : BlockHashMeets} {acks : List SyncGetHeightHashAck}
    (hdistinct : ((successful acks).map (·.selfNodeId)).Nodup) (hfive : 5 ∣ (successful acks).length) :
    RequestsAgreed m acks := by
  intro hash hasked
  obtain ⟨-, -, hmissing, hvotes⟩ := (mem_reqHashes m acks hash).mp hasked
  have hresponders : responders acks = (successful acks).length := by
    rw [responders, hdistinct.dedup, List.length_map]
  exact ⟨hmissing, hresponders ▸ (verifyNum_exact_iff _).mpr hfive _ hvotes⟩

/-- A node whose local chain is empty. -/
def emptyChain : BlockHashMeets where
  getBlockByBlockHash _ := .notFound
  parseFromString _ := (false, ⟨0, [], [], 0, [], []⟩)
  getBlockHashesByBlockHeight _ _ := some []
  startSyncHeight := 1
  endSyncHeight := 1
  selfNodeHeight := 0
  chainHeight := 1
  fewAsked := false

/-- Two nodes answer, and a hash that one of them names is asked for: `verifyNum` is 0. -/
theorem half_suffices :
    ¬ RequestsAgreed emptyChain [⟨0, str "a", [str "h"]⟩, ⟨0, str "b", []⟩] := by
  intro h
  have hasked : str "h" ∈ (getSyncBlockHashNode emptyChain
      [⟨0, str "a", [str "h"]⟩, ⟨0, str "b", []⟩]).reqHashes := by decide
  exact absurd (h _ hasked).2 (by decide)

/-! ### Which nodes are asked -/

/-- A set is its elements. -/
theorem sortedSet_congr {l l' : List Str} (h : ∀ x, x ∈ l ↔ x ∈ l') : sortedSet l = sortedSet l' := by
  refine insertionSort_eq_iff_perm.mpr ((List.perm_ext_iff_of_nodup (List.nodup_dedup _) (List.nodup_dedup _)).mpr ?_)
  intro x
  rw [List.mem_dedup, List.mem_dedup, h]

theorem sortedSet_sortedSet (l : List Str) : sortedSet (sortedSet l) = sortedSet l :=
  sortedSet_congr fun _ => mem_sortedSet

/-- The order of the linear order is that of the sets. -/
theorem pairwise_sortedSet_le (l : List Str) : (sortedSet l).Pairwise (· ≤ ·) :=
  (pairwise_sortedSet l).imp fun h => not_lt.mp h

/-- What is inserted is there already. -/
theorem sortedSet_intersection {l l' : List Str} (hl : sortedSet l = l) :
    sortedSet (l ++ Sorted.setIntersection l (sortedSet l')) = l := by
  have hsorted : l.Pairwise (· ≤ ·) := hl ▸ pairwise_sortedSet_le l
  refine Eq.trans (sortedSet_congr fun x => ?_) hl
  rw [List.mem_append, Sorted.mem_setIntersection hsorted (pairwise_sortedSet_le l')]
  exact ⟨fun h => h.elim id And.left, .inl⟩

section Nodes
variable (m : BlockHashMeets) (k : ℕ)

/-- One round keeps the nodes, unless there are none yet: then those of a requested hash are taken. -/
theorem hashStep_nodes {s s' : HashLoop} {e : Str × List Str} (hs : sortedSet s.nodes = s.nodes)
    (h : hashStep m k s e = .ok s') :
    s'.nodes = if isRequested m k e ∧ s.nodes = [] then sortedSet e.2 else s.nodes := by
  rw [hashStep] at h
  cases hget : m.getBlockByBlockHash e.1 with
  | failed =>
    rw [hget] at h
    cases h
  | found strblock =>
    have hnot : ¬ (isRequested m k e ∧ s.nodes = []) := by simp [isRequested, hget]
    rw [if_neg hnot]
    simp only [hget] at h
    split_ifs at h
    · cases h
      rfl
    · cases h
      rfl
    · cases h
      rfl
  | notFound =>
    simp only [hget] at h
    by_cases hvotes : (sortedSet e.2).length ≥ k
    · have hreq : isRequested m k e := by simp [isRequested, hget, hvotes]
      rw [if_pos hvotes] at h
      cases h
      by_cases hempty : s.nodes = []
      · simp only [hempty, hreq, if_true, and_true]
      · simp only [hempty, if_false, and_false, sortedSet_intersection hs]
    · have hnot : ¬ (isRequested m k e ∧ s.nodes = []) := by simp [isRequested, hget, hvotes]
      rw [if_neg hvotes] at h
      rw [if_neg hnot]
      cases h
      rfl

/-- So the nodes are those of the first requested hash. -/
theorem foldlM_hashStep_nodes : ∀ {entries : List (Str × List Str)} {s s' : HashLoop},
    (∀ e ∈ entries, e.2 ≠ []) → sortedSet s.nodes = s.nodes → entries.foldlM (hashStep m k) s = .ok s' →
      s'.nodes = if s.nodes = [] then (((entries.filter (isRequested m k)).head?).map fun e => sortedSet e.2).getD []
        else s.nodes
  | [], s, s', _, _, h => by
    cases h
    by_cases hempty : s.nodes = []
    · rw [if_pos hempty, hempty]
      rfl
    · rw [if_neg hempty]
  | e :: entries, s, s', hne, hs, h => by
    rw [List.foldlM_cons] at h
    obtain ⟨t, ht, h⟩ := bind_eq_ok.mp h
    have hnodes := hashStep_nodes m k hs ht
    obtain ⟨he, hne⟩ := List.forall_mem_cons.mp hne
    have hset : sortedSet t.nodes = t.nodes := by
      rw [hnodes]
      split_ifs
      · exact sortedSet_sortedSet _
      · exact hs
    rw [foldlM_hashStep_nodes hne hset h, List.filter_cons]
    by_cases hreq : isRequested m k e
    · by_cases hempty : s.nodes = []
      · have hfull : sortedSet e.2 ≠ [] := by
          obtain ⟨x, hx⟩ := List.exists_mem_of_ne_nil _ he
          exact List.ne_nil_of_mem (mem_sortedSet.mpr hx)
        rw [if_pos ⟨hreq, hempty⟩] at hnodes
        rw [hnodes, if_neg hfull, if_pos hempty, if_pos hreq]
        rfl
      · rw [if_neg fun h => hempty h.2] at hnodes
        rw [hnodes, if_neg hempty, if_neg hempty]
    · rw [if_neg fun h => hreq h.1] at hnodes
      rw [hnodes, if_neg hreq]

end Nodes

section Owners
variable (m : BlockHashMeets) (acks : List SyncGetHeightHashAck)

/-- A successful answer of the node names the hash. -/
def Names (node hash : Str) : Prop := ∃ ack ∈ successful acks, ack.selfNodeId = node ∧ hash ∈ ack.blockHashes

instance (node hash : Str) : Decidable (Names acks node hash) :=
  inferInstanceAs (Decidable (∃ ack ∈ successful acks, ack.selfNodeId = node ∧ hash ∈ ack.blockHashes))

theorem mem_nodes_iff {node hash : Str} :
    node ∈ (((named acks).filter fun e => e.1 = hash).map Prod.snd) ↔ Names acks node hash := by
  simp only [named, Names, List.mem_map, List.mem_filter, List.mem_flatMap, decide_eq_true_eq]
  constructor
  · rintro ⟨e, ⟨⟨ack, hack, key, hkey, rfl⟩, rfl⟩, rfl⟩
    exact ⟨ack, hack, rfl, hkey⟩
  · rintro ⟨ack, hack, rfl, hhash⟩
    exact ⟨(hash, ack.selfNodeId), ⟨⟨ack, hack, hash, hhash, rfl⟩, rfl⟩, rfl⟩

/-- An entry of `syncBlockHashes` has the nodes that name its hash, of which there are some. -/
theorem mem_entry {e : Str × List Str} (he : e ∈ (syncBlockHashes acks).entries) :
    (∀ node, node ∈ e.2 ↔ Names acks node e.1) ∧ e.2 ≠ [] := by
  rw [SortedMap.mem_iff_find, syncBlockHashes_find] at he
  split_ifs at he with hin
  have hnodes := Option.some.inj he
  have hmem : ∀ node, node ∈ e.2 ↔ Names acks node e.1 := fun node => hnodes ▸ mem_nodes_iff acks
  obtain ⟨⟨hash, node⟩, hnamed, heq⟩ := List.mem_map.mp hin
  refine ⟨hmem, List.ne_nil_of_mem (a := node) ?_⟩
  rw [← hnodes]
  exact List.mem_map.mpr ⟨(hash, node), List.mem_filter.mpr ⟨hnamed, by simpa using heq⟩, rfl⟩

/-- The nodes that are asked are those that name the least of the requested hashes. -/
theorem mem_retNodeIds {node : Str} (hreq : (getSyncBlockHashNode m acks).reqHashes ≠ []) :
    (getSyncBlockHashNode m acks).ret = 0 ∧ (node ∈ (getSyncBlockHashNode m acks).retNodeIds ↔
      ∃ hash, Requested m acks hash ∧ (∀ hash', Requested m acks hash' → hash ≤ hash') ∧ Names acks node hash) := by
  obtain ⟨-, hempty⟩ | ⟨-, s, hloop, hresult⟩ := getSyncBlockHashNode_cases m acks
  · exact absurd hempty hreq
  have hfull : requestedHashes m acks ≠ [] := by
    intro hempty
    rw [hresult, if_pos hempty] at hreq
    exact hreq rfl
  rw [hresult, if_neg hfull]
  have hnodes := foldlM_hashStep_nodes m _ (fun e he => (mem_entry acks he).2) rfl hloop
  rw [if_pos rfl] at hnodes
  cases hfirst : (syncBlockHashes acks).entries.filter (isRequested m (verifyNum (successful acks).length)) with
  | nil =>
    rw [requestedHashes, hfirst] at hfull
    exact absurd rfl hfull
  | cons e rest =>
    rw [hfirst] at hnodes
    have hin : e ∈ (syncBlockHashes acks).entries :=
      (List.mem_filter.mp (hfirst ▸ List.mem_cons_self (a := e) (l := rest))).1
    obtain ⟨hmem, hne⟩ := mem_entry acks hin
    have hrequested : ∀ hash, Requested m acks hash ↔ hash ∈ (e :: rest).map Prod.fst := by
      intro hash
      rw [Requested, ← mem_requested, hfirst]
    have hsorted : (e :: rest).Pairwise fun a b => a.1 < b.1 := hfirst ▸ (syncBlockHashes acks).sorted.filter _
    have hleast : ∀ hash', Requested m acks hash' → e.1 ≤ hash' := by
      intro hash' h
      obtain ⟨x, hx, rfl⟩ := List.mem_map.mp ((hrequested hash').mp h)
      rcases List.mem_cons.mp hx with rfl | hx
      · exact le_rfl
      · exact (List.rel_of_pairwise_cons hsorted hx).le
    have hone : Requested m acks e.1 := (hrequested e.1).mpr (by simp)
    have hsnodes : s.nodes = sortedSet e.2 := hnodes
    have hsome : s.nodes ≠ [] := by
      obtain ⟨x, hx⟩ := List.exists_mem_of_ne_nil _ hne
      exact hsnodes ▸ List.ne_nil_of_mem (mem_sortedSet.mpr hx)
    refine ⟨if_neg hsome, ?_⟩
    rw [hsnodes, mem_sortedSet, hmem]
    constructor
    · exact fun h => ⟨e.1, hone, hleast, h⟩
    · rintro ⟨hash, hreq, hmin, hnames⟩
      rwa [le_antisymm (hleast hash hreq) (hmin e.1 hone)]

/-- Whenever the call returns 0 and asks for hashes, every node that is to be asked named them all. -/
def ChosenOwnAll : Prop := (getSyncBlockHashNode m acks).ret = 0 → (getSyncBlockHashNode m acks).reqHashes ≠ [] →
  ∀ node ∈ (getSyncBlockHashNode m acks).retNodeIds, ∀ hash ∈ (getSyncBlockHashNode m acks).reqHashes,
    Names acks node hash

end Owners

/-- It is so when every node that named the least of the requested hashes named the others as well: the
    intersection with their nodes changes nothing. -/
theorem chosen_own_all_iff (m : BlockHashMeets) (acks : List SyncGetHeightHashAck) : ChosenOwnAll m acks ↔
    LeavesEarly m acks ∨ ∀ least, Requested m acks least → (∀ hash, Requested m acks hash → least ≤ hash) →
      ∀ node, Names acks node least → ∀ hash, Requested m acks hash → Names acks node hash := by
  by_cases hleaves : LeavesEarly m acks
  · refine iff_of_true (fun _ hreq => absurd ?_ hreq) (.inl hleaves)
    exact List.eq_nil_iff_forall_not_mem.mpr fun hash h => ((mem_reqHashes m acks hash).mp h).1 hleaves
  have hasked : ∀ hash, hash ∈ (getSyncBlockHashNode m acks).reqHashes ↔ Requested m acks hash := fun hash =>
    (mem_reqHashes m acks hash).trans (and_iff_right hleaves)
  rw [or_iff_right hleaves]
  constructor
  · intro hall least hleast hmin node hnode hash hreq
    have hsome := List.ne_nil_of_mem ((hasked hash).mpr hreq)
    obtain ⟨hret, hmem⟩ := @mem_retNodeIds m acks node hsome
    exact hall hret hsome node (hmem.mpr ⟨least, hleast, hmin, hnode⟩) hash ((hasked hash).mpr hreq)
  · intro hall _ hsome node hnode hash hreq
    obtain ⟨least, hleast, hmin, hnames⟩ := (mem_retNodeIds m acks hsome).2.mp hnode
    exact hall least hleast hmin node hnames hash ((hasked hash).mp hreq)

/-- Two nodes name a hash each; both hashes are asked for, and the node of the first is chosen. -/
theorem chosen_lacks_hash :
    ¬ ChosenOwnAll emptyChain [⟨0, str "a", [str "g"]⟩, ⟨0, str "b", [str "h"]⟩] := by
  rw [ChosenOwnAll]
  repeat rw [str_ofList]
  decide

/-! ### What is rolled back -/

section Rollback
variable (m : BlockHashMeets) (acks : List SyncGetHeightHashAck)

/-- The loop, with what it has filled where it ends early. -/
def hashLoop (verifyNum : ℕ) : HashLoop → List (Str × List Str) → HashLoop × Option ℤ
  | s, [] => (s, none)
  | s, e :: entries =>
    match hashStep m verifyNum s e with
    | .error ret => (s, some ret)
    | .ok s => hashLoop verifyNum s entries

/-- The loop of the call. -/
def hashesLooked : HashLoop × Option ℤ :=
  hashLoop m (verifyNum (successful acks).length) ⟨[], [], [], []⟩ (syncBlockHashes acks).entries

/-- The blocks that are passed to `_AddBlockToMap`, however the call ends. -/
def blocksAdded : List CBlock :=
  match hashesLooked m acks with
  | (s, some _) => s.rollbackBlocks
  | (s, none) => s.rollbackBlocks ++ ((diffHashes m s.exitsHashes).getD []).filterMap (oldBlock m)

/-- `rollbackBlockData`. -/
def rollbackBlockData : SyncBlockData := collect (blocksAdded m acks)

theorem foldlM_hashStep_eq (k : ℕ) : ∀ (entries : List (Str × List Str)) (s : HashLoop),
    entries.foldlM (hashStep m k) s = match hashLoop m k s entries with
      | (s, none) => .ok s
      | (_, some ret) => .error ret
  | [], s => rfl
  | e :: entries, s => by
    rw [List.foldlM_cons, hashLoop]
    cases hstep : hashStep m k s e with
    | error ret => rfl
    | ok s' => exact foldlM_hashStep_eq k entries s'

/-- What is handed to `AddRollbackBlock` is this map, if anything. -/
theorem rollbackBlockData_handed : (getSyncBlockHashNode m acks).rollbackBlockData = .empty ∨
    (getSyncBlockHashNode m acks).rollbackBlockData = rollbackBlockData m acks := by
  rw [getSyncBlockHashNode, foldlM_hashStep_eq, rollbackBlockData, blocksAdded, hashesLooked]
  cases hashLoop m (verifyNum (successful acks).length) ⟨[], [], [], []⟩ (syncBlockHashes acks).entries with
  | mk s ret =>
    cases ret with
    | some ret => exact .inl rfl
    | none =>
      cases hdiff : diffHashes m s.exitsHashes with
      | none =>
        simp only [hdiff]
        exact .inl rfl
      | some vDiff =>
        simp only [hdiff, Option.getD_some]
        split_ifs
        · exact .inl rfl
        · exact .inr rfl
        · exact .inl rfl
        · exact .inl rfl
        · exact .inl rfl

/-- The loop adds the outvoted blocks up to the first hash that cannot be read. -/
theorem hashLoop_rollbackBlocks (k : ℕ) : ∀ (entries : List (Str × List Str)) (s : HashLoop),
    (hashLoop m k s entries).1.rollbackBlocks = s.rollbackBlocks ++
      (entries.takeWhile fun e => m.getBlockByBlockHash e.1 ≠ .failed).filterMap (outvotedBlock m k)
  | [], s => (List.append_nil _).symm
  | e :: entries, s => by
    rw [hashLoop]
    by_cases hget : m.getBlockByBlockHash e.1 = .failed
    · have hstep : hashStep m k s e = .error (-4) := by simp only [hashStep, hget]
      rw [hstep, List.takeWhile_cons_of_neg (by simpa using hget)]
      exact (List.append_nil _).symm
    · obtain ⟨nodes, hstep⟩ := hashStep_eq m k s e hget
      simp only [hstep]
      rw [hashLoop_rollbackBlocks k entries, List.takeWhile_cons_of_pos (by simpa using hget), List.append_assoc,
        ← List.filterMap_append, List.singleton_append]

/-- The loop gets to the hash: no named hash up to it fails to be read. -/
def Reached (hash : Str) : Prop :=
  ∀ hash' ∈ (named acks).map Prod.fst, hash' ≤ hash → m.getBlockByBlockHash hash' ≠ .failed

/-- The entries that the loop gets to. -/
theorem mem_takeWhile_entries {e : Str × List Str} :
    e ∈ ((syncBlockHashes acks).entries.takeWhile fun e => m.getBlockByBlockHash e.1 ≠ .failed) ↔
      e ∈ (syncBlockHashes acks).entries ∧ Reached m acks e.1 := by
  rw [Sorted.mem_takeWhile_iff (f := Prod.fst) (syncBlockHashes acks).sorted]
  refine and_congr_right fun _ => ⟨fun hall hash hnamed hle => ?_, fun hall y hy hle => ?_⟩
  · obtain ⟨y, hy, rfl⟩ := List.mem_map.mp ((entries_keys_perm acks).symm.subset (List.mem_dedup.mpr hnamed))
    simpa using hall y hy hle
  · have hnamed := (entries_keys_perm acks).subset (List.mem_map.mpr ⟨y, hy, rfl⟩)
    simpa using hall y.1 (List.mem_dedup.mp hnamed) hle

/-- The blocks that the loop adds: the outvoted ones of the hashes it gets to. -/
theorem mem_hashesLooked {block : CBlock} : block ∈ (hashesLooked m acks).1.rollbackBlocks ↔
    ∃ e ∈ (syncBlockHashes acks).entries, Reached m acks e.1 ∧
      outvotedBlock m (verifyNum (successful acks).length) e = some block := by
  rw [hashesLooked, hashLoop_rollbackBlocks, List.nil_append, List.mem_filterMap]
  simp only [mem_takeWhile_entries, and_assoc]

/-- A block that is added is an outvoted one, or one of those that no answer names. -/
theorem mem_blocksAdded {block : CBlock} (h : block ∈ blocksAdded m acks) :
    (∃ hash, oldBlock m hash = some block) ∨ block ∈ (hashesLooked m acks).1.rollbackBlocks := by
  rw [blocksAdded] at h
  split at h
  · next s ret heq =>
    rw [heq]
    exact .inr h
  · next s heq =>
    rw [heq]
    refine (List.mem_append.mp h).symm.imp_left fun h => ?_
    obtain ⟨hash, -, hblock⟩ := List.mem_filterMap.mp h
    exact ⟨hash, hblock⟩

theorem mem_blocksAdded_of_looked {block : CBlock} (h : block ∈ (hashesLooked m acks).1.rollbackBlocks) :
    block ∈ blocksAdded m acks := by
  rw [blocksAdded]
  split
  · next s ret heq =>
    rw [heq] at h
    exact h
  · next s heq =>
    rw [heq] at h
    exact List.mem_append_left _ h

/-! The heights, as they are compared and as they are. -/

/-- A height read as `uint64_t` is the height, or it is negative and lies `2 ^ 64` above. -/
theorem toInt_cases (x : Int64) : x.toInt = x.toUInt64.toNat ∧ 0 ≤ x.toInt ∨
    x.toInt = x.toUInt64.toNat - 2 ^ 64 ∧ x.toInt < 0 := by
  have h : x.toInt = if 2 * x.toUInt64.toNat < 2 ^ 64 then (x.toUInt64.toNat : ℤ) else x.toUInt64.toNat - 2 ^ 64 :=
    BitVec.toInt_eq_toNat_cond x.toBitVec
  have := x.toUInt64.toNat_lt
  split_ifs at h with hlt
  · left
    omega
  · right
    omega

/-- The difference is taken below the chain's height only. -/
theorem oldBlock_height {hash : Str} {block : CBlock} (h : oldBlock m hash = some block) :
    block.height.toInt < (m.chainHeight.toNat : ℤ) - 10 := by
  rw [oldBlock] at h
  split at h
  · dsimp only at h
    split_ifs at h with hold
    cases h
    obtain ⟨hlt, hdiff⟩ := hold
    have hsub := UInt64.toNat_sub_of_le _ _ (UInt64.le_of_lt hlt)
    rw [UInt64.lt_iff_toNat_lt] at hlt
    have hdiff' : 10 < (m.chainHeight - (m.parseFromString ‹Str›).2.height.toUInt64).toNat :=
      UInt64.lt_iff_toNat_lt.mp hdiff
    rcases toInt_cases (m.parseFromString ‹Str›).2.height with ⟨hint, -⟩ | ⟨hint, -⟩
    · omega
    · omega
  · cases h

theorem toNat_sub_ten (chainHeight : UInt64) : ((chainHeight - 10).toNat : ℤ) =
    if 10 ≤ chainHeight then (chainHeight.toNat : ℤ) - 10 else chainHeight.toNat - 10 + 2 ^ 64 := by
  have hlt := chainHeight.toNat_lt
  have hten : (10 : UInt64).toNat = 10 := rfl
  split_ifs with hle
  · have hle' := UInt64.le_iff_toNat_le.mp hle
    rw [UInt64.toNat_sub_of_le _ _ hle]
    omega
  · have hle' : ¬ 10 ≤ chainHeight.toNat := fun h => hle (UInt64.le_iff_toNat_le.mpr h)
    have hwrap : (2 ^ 64 - 10 + chainHeight.toNat) % 2 ^ 64 = 2 ^ 64 - 10 + chainHeight.toNat :=
      Nat.mod_eq_of_lt (by omega)
    rw [UInt64.toNat_sub, hten, hwrap]
    omega

/-- The comparison is right from ten on, and for a negative height. -/
theorem height_lt_of_lt_sub {chainHeight : UInt64} {height : Int64} (h : height.toUInt64 < chainHeight - 10)
    (hwhole : 10 ≤ chainHeight ∨ height.toInt < 0) : height.toInt < (chainHeight.toNat : ℤ) - 10 := by
  have hsub := toNat_sub_ten chainHeight
  rw [UInt64.lt_iff_toNat_lt] at h
  rcases toInt_cases height with ⟨hint, hpos⟩ | ⟨hint, hneg⟩
  · rw [if_pos (hwhole.resolve_right (not_lt.mpr hpos))] at hsub
    omega
  · split_ifs at hsub
    · omega
    · omega

/-- Below ten the difference wraps, and every height that is not negative is smaller. -/
theorem lt_sub_of_short {chainHeight : UInt64} {height : Int64} (hshort : ¬ 10 ≤ chainHeight)
    (hpos : 0 ≤ height.toInt) : height.toUInt64 < chainHeight - 10 := by
  have hsub := toNat_sub_ten chainHeight
  have hbound := Int64.toInt_lt height
  rw [if_neg hshort] at hsub
  rw [UInt64.lt_iff_toNat_lt]
  rcases toInt_cases height with ⟨hint, -⟩ | ⟨-, hneg⟩
  · omega
  · omega

/-- Every block that is put into `rollbackBlockData` lies more than ten below the chain's height. -/
def RecentKept : Prop :=
  ∀ block ∈ (rollbackBlockData m acks).blocks, block.height.toInt < (m.chainHeight.toNat : ℤ) - 10

/-- What is collected has the heights of what is added. -/
theorem recentKept_iff_added : RecentKept m acks ↔
    ∀ block ∈ blocksAdded m acks, block.height.toInt < (m.chainHeight.toNat : ℤ) - 10 := by
  constructor
  · intro hall block hblock
    obtain ⟨kept, hkept, hheight, -⟩ := (collect_spec _).2 block hblock
    rw [hheight]
    exact hall kept hkept
  · exact fun hall block hblock => hall block (mem_of_mem_collect hblock)

end Rollback

/-- It is so from chain height ten on. Below, it is so when no block with a height is outvoted: the comparison
    with `chainHeight - 10` then holds of any. -/
theorem recent_kept_iff (m : BlockHashMeets) (acks : List SyncGetHeightHashAck) : RecentKept m acks ↔
    10 ≤ m.chainHeight ∨ ∀ hash ∈ (named acks).map Prod.fst, Reached m acks hash →
      reporters acks hash < verifyNum (successful acks).length →
        ∀ strblock, m.getBlockByBlockHash hash = .found strblock → (m.parseFromString strblock).1 →
          (m.parseFromString strblock).2.height.toInt < 0 := by
  rw [recentKept_iff_added]
  constructor
  · intro hall
    by_cases hlong : 10 ≤ m.chainHeight
    · exact .inl hlong
    refine .inr fun hash hnamed hreached hvotes strblock hget hparse => ?_
    by_contra hpos
    have hlt := lt_sub_of_short hlong (not_lt.mp hpos)
    obtain ⟨e, he, rfl, hfew⟩ := (mem_entries_iff acks (p := fun key votes => key = hash ∧
      votes < verifyNum (successful acks).length)).mpr ⟨hash, hnamed, rfl, hvotes⟩
    have hblock : outvotedBlock m (verifyNum (successful acks).length) e = some (m.parseFromString strblock).2 := by
      simp [outvotedBlock, hget, hfew, hparse, hlt]
    have hlooked := (mem_hashesLooked m acks).mpr ⟨e, he, hreached, hblock⟩
    have hrecent := hall _ (mem_blocksAdded_of_looked m acks hlooked)
    have hten : ¬ 10 ≤ m.chainHeight.toNat := fun h => hlong (UInt64.le_iff_toNat_le.mpr h)
    omega
  · intro hwhole block hblock
    obtain ⟨hash, hold⟩ | hlooked := mem_blocksAdded m acks hblock
    · exact oldBlock_height m hold
    obtain ⟨e, he, hreached, hblock⟩ := (mem_hashesLooked m acks).mp hlooked
    obtain ⟨hash, hnamed, ⟨rfl, hreached, hout⟩⟩ := (mem_entries_iff acks (p := fun key votes => key = e.1 ∧
      Reached m acks key ∧ votes = (sortedSet e.2).length)).mp ⟨e, he, rfl, hreached, rfl⟩
    rw [outvotedBlock] at hblock
    cases hget : m.getBlockByBlockHash e.1 with
    | failed =>
      rw [hget] at hblock
      cases hblock
    | notFound =>
      rw [hget] at hblock
      cases hblock
    | found strblock =>
      simp only [hget] at hblock
      split_ifs at hblock with hold
      cases hblock
      refine height_lt_of_lt_sub hold.2.2 (hwhole.imp_right fun hall => ?_)
      exact hall e.1 hnamed hreached (hout ▸ hold.1) strblock hget hold.2.1

/-- A chain of height 5, where the hash of every block saved is that of a block at height 3. -/
def shortChain : BlockHashMeets where
  getBlockByBlockHash _ := .found []
  parseFromString _ := (true, ⟨0, str "h", [], 3, [], []⟩)
  getBlockHashesByBlockHeight _ _ := some []
  startSyncHeight := 1
  endSyncHeight := 5
  selfNodeHeight := 5
  chainHeight := 5
  fewAsked := false

/-- One node of five names a block two below the chain's height, and the block is rolled back. -/
theorem recent_rolled_back : ¬ RecentKept shortChain [⟨0, str "a", [str "h"]⟩, ⟨0, str "b", []⟩,
    ⟨0, str "c", []⟩, ⟨0, str "d", []⟩, ⟨0, str "e", []⟩] := by
  rw [RecentKept]
  repeat rw [str_ofList]
  decide

end Tfs.Ca.BlockHashNode
