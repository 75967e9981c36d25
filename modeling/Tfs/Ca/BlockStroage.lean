import Tfs.Proto

/-! The votes on a block that is being broadcast (`BlockStroage` in `ca/block_stroage.cpp`).

    A block is tracked in `_blockStatusMap` from the time it is sent to the nodes that verify it. Their
    complaints (`BlockStatus` messages with a negative status) are collected in a list; when enough of
    them have come, a task that builds the block anew without the failing transactions is committed.
    Once the block goes out to the first level of the broadcast, the list is emptied and the nodes of
    that level have the word.

    A message uses up the place of its sender in the set of the phase, so a node counts once, and since
    the list grows one by one and is emptied only when a phase begins, it meets the threshold once. -/

namespace Tfs.Ca

/-! ### One tracked block -/

/-- `enum class BroadcastType`. -/
inductive BroadcastType where
  | verifyBroadcast
  | level1Broadcast
  deriving DecidableEq, Repr

/-- `message BlockStatus`, without the failing transactions. -/
structure BlockStatus where
  blockHash : Str
  status : Int32
  id : Str
  deriving DecidableEq

/-- `struct BlockStatusWrapper`, as far as votes go. -/
structure BlockStatusWrapper where
  block : CBlock
  broadcastType : BroadcastType
  verifyNodesNumber : UInt32
  level1NodesNumber : UInt32
  blockStatusList : List BlockStatus
  verifyNodes : Finset Str
  level1Nodes : Finset Str

namespace BlockStatusWrapper

/-- The members that are not given are zero. `level1NodesNumber` is not read before it is set. -/
def ofBlock (block : CBlock) : BlockStatusWrapper := ⟨block, .verifyBroadcast, 0, 0, [], ∅, ∅⟩

/-- The part of `CheckData` that looks at the sender: its code, and the entry without the sender.
    `size > level1NodesNumber * 0.75` is a comparison of whole numbers. -/
def checkNode (w : BlockStatusWrapper) (destNode : Str) : ℤ × BlockStatusWrapper :=
  match w.broadcastType with
  | .verifyBroadcast =>
    if destNode ∉ w.verifyNodes then (-3, w)
    else if w.blockStatusList.length > w.verifyNodesNumber.toNat then
      (-4, { w with verifyNodes := w.verifyNodes.erase destNode })
    else (0, { w with verifyNodes := w.verifyNodes.erase destNode })
  | .level1Broadcast =>
    if destNode ∉ w.level1Nodes then (-5, w)
    else if 4 * w.blockStatusList.length > 3 * w.level1NodesNumber.toNat then
      (-6, { w with level1Nodes := w.level1Nodes.erase destNode })
    else (0, { w with level1Nodes := w.level1Nodes.erase destNode })

/-- Whether the list has just reached the size at which the block is built anew. -/
def reached (w : BlockStatusWrapper) : Bool :=
  match w.broadcastType with
  | .level1Broadcast => w.blockStatusList.length = 3 * w.level1NodesNumber.toNat / 4
  | .verifyBroadcast => w.blockStatusList.length = w.verifyNodesNumber.toNat

end BlockStatusWrapper

/-! ### The map -/

/-- `_blockStatusMap`. -/
abbrev BlockStatusMap := StdMap Str BlockStatusWrapper

/-- `_blockStatusMap.find(hash) == end()`, then a new entry. -/
def BlockStatusMap.insertNew (m : BlockStatusMap) (hash : Str) (w : BlockStatusWrapper) : BlockStatusMap :=
  if (m hash).isSome then m else m.set hash w

/-- `BlockStroage::CheckData`. -/
def checkData (nowTime : UInt64) (m : BlockStatusMap) (blockStatus : BlockStatus) : ℤ × BlockStatusMap :=
  if 0 ≤ blockStatus.status then (-1, m)
  else match m blockStatus.blockHash with
    | none => (-2, m)
    | some found =>
      let (ret, w) := found.checkNode blockStatus.id
      if ret ≠ 0 then (ret, m.set blockStatus.blockHash w)
      else if nowTime > w.block.time + 5 * 1000000 then (-7, m.set blockStatus.blockHash w)
      else (0, m.set blockStatus.blockHash w)

/-- What a step does to a tracked block. -/
inductive StatusEvent where
  /-- a phase begins, with the nodes that have a vote in it -/
  | opened (hash : Str) (broadcastType : BroadcastType) (nodes : Finset Str)
  /-- a message is put into the list -/
  | accepted (hash : Str) (blockStatus : BlockStatus)
  /-- `NewbuildBlockByBlockStatus` is committed -/
  | committed (hash : Str)
  deriving DecidableEq

/-- A call that touches the map. -/
inductive StatusAction where
  /-- `AddBlockStatus`, for a block that goes out to be verified -/
  | addVerify (blockHash : Str) (block : CBlock) (verifyNodes : List Str)
  /-- `AddBlockStatus`, for a block that goes out to the first level -/
  | addLevel1 (blockHash : Str) (block : CBlock) (level1Nodes : Finset Str)
  /-- `AddBlockStatus`, for a message -/
  | addStatus (nowTime : UInt64) (blockStatus : BlockStatus)
  /-- `ExpiredDeleteCheck` -/
  | expiredDelete (nowTime : UInt64)
  /-- `_BlockCheck` makes an entry for a block that has none -/
  | blockCheck (block : CBlock)
  /-- `NewbuildBlockByBlockStatus` reads the map through `operator[]` -/
  | newbuild (blockHash : Str)

/-- The events of an entry that may have been made. -/
def openedIfNew (m : BlockStatusMap) (hash : Str) (nodes : Finset Str) : List StatusEvent :=
  if (m hash).isSome then [] else [.opened hash .verifyBroadcast nodes]

/-- `BlockStroage::AddBlockStatus`, for a message. -/
def addBlockStatus (nowTime : UInt64) (m : BlockStatusMap) (blockStatus : BlockStatus) :
    BlockStatusMap × List StatusEvent :=
  let (ret, m) := checkData nowTime m blockStatus
  if ret ≠ 0 then (m, [])
  else match m blockStatus.blockHash with
    | none => (m, [])
    | some found =>
      let w := { found with blockStatusList := found.blockStatusList ++ [blockStatus] }
      (m.set blockStatus.blockHash w, .accepted blockStatus.blockHash blockStatus ::
        if w.reached then [.committed blockStatus.blockHash] else [])

/-- The block without any content, as `operator[]` makes it. -/
def emptyBlock : CBlock := ⟨0, [], [], 0, [], []⟩

/-- One step. `verifyNodesNumber` stands for `KSend_node_threshold - kConsensus + 2`. -/
def statusStep (verifyNodesNumber : UInt32) (m : BlockStatusMap) :
    StatusAction → BlockStatusMap × List StatusEvent
  | .addVerify blockHash block verifyNodes =>
    (m.insertNew blockHash { BlockStatusWrapper.ofBlock block with
        verifyNodesNumber := verifyNodesNumber
        verifyNodes := verifyNodes.toFinset },
      openedIfNew m blockHash verifyNodes.toFinset)
  | .addLevel1 blockHash block level1Nodes =>
    match m blockHash with
    | none => (m, [])
    | some found =>
      (m.set blockHash { found with
          block := block
          broadcastType := .level1Broadcast
          level1NodesNumber := UInt32.ofNat level1Nodes.card
          blockStatusList := []
          level1Nodes := found.level1Nodes ∪ level1Nodes },
        [.opened blockHash .level1Broadcast level1Nodes])
  | .addStatus nowTime blockStatus => addBlockStatus nowTime m blockStatus
  | .expiredDelete nowTime =>
    (fun hash => (m hash).filter fun w => ¬ nowTime ≥ w.block.time + 15 * 1000000, [])
  | .blockCheck block =>
    (m.insertNew block.hash (.ofBlock block), openedIfNew m block.hash ∅)
  | .newbuild blockHash => (m.insertNew blockHash (.ofBlock emptyBlock), openedIfNew m blockHash ∅)

/-- The map, and what has happened to the blocks. -/
structure StatusRun where
  map : BlockStatusMap
  log : List StatusEvent

/-- One step more. -/
def StatusRun.next (verifyNodesNumber : UInt32) (r : StatusRun) (a : StatusAction) : StatusRun :=
  ⟨(statusStep verifyNodesNumber r.map a).1, r.log ++ (statusStep verifyNodesNumber r.map a).2⟩

/-- Steps in the order they happen, from the empty map. -/
def statusRun (verifyNodesNumber : UInt32) (actions : List StatusAction) : StatusRun :=
  actions.foldl (StatusRun.next verifyNodesNumber) ⟨.empty, []⟩

/-! ### What a step can do -/

namespace BlockStatusWrapper

/-- The nodes that still have a vote in the phase. -/
def remaining (w : BlockStatusWrapper) : Finset Str :=
  match w.broadcastType with
  | .verifyBroadcast => w.verifyNodes
  | .level1Broadcast => w.level1Nodes

/-- The size of the list at which the block is built anew. -/
def threshold (w : BlockStatusWrapper) : ℕ :=
  match w.broadcastType with
  | .verifyBroadcast => w.verifyNodesNumber.toNat
  | .level1Broadcast => 3 * w.level1NodesNumber.toNat / 4

/-- Another entry of the same phase with the same list; nodes may have lost their vote. -/
structure Kept (w w' : BlockStatusWrapper) : Prop where
  broadcastType : w'.broadcastType = w.broadcastType
  blockStatusList : w'.blockStatusList = w.blockStatusList
  threshold : w'.threshold = w.threshold
  remaining : w'.remaining ⊆ w.remaining
  level1Nodes : w'.level1Nodes ⊆ w.level1Nodes

theorem Kept.refl (w : BlockStatusWrapper) : Kept w w :=
  ⟨rfl, rfl, rfl, Finset.Subset.refl _, Finset.Subset.refl _⟩

theorem reached_iff (w : BlockStatusWrapper) : w.reached = true ↔ w.blockStatusList.length = w.threshold := by
  unfold reached threshold
  cases w.broadcastType <;> exact decide_eq_true_iff

/-- Looking at the sender changes nothing but its vote, and a sender that passes had one. -/
theorem checkNode_spec (w : BlockStatusWrapper) (destNode : Str) :
    w.Kept (w.checkNode destNode).2 ∧ ((w.checkNode destNode).1 = 0 →
      destNode ∈ w.remaining ∧ destNode ∉ (w.checkNode destNode).2.remaining) := by
  unfold checkNode
  rcases hw : w with ⟨block, _ | _, number, number1, list, verify, level1⟩
  · dsimp only
    have hkept : Kept ⟨block, .verifyBroadcast, number, number1, list, verify, level1⟩
        ⟨block, .verifyBroadcast, number, number1, list, verify.erase destNode, level1⟩ :=
      ⟨rfl, rfl, rfl, Finset.erase_subset _ _, Finset.Subset.refl _⟩
    split_ifs with hin hsize
    · exact ⟨hkept, fun h => by cases h⟩
    · exact ⟨hkept, fun _ => ⟨hin, Finset.notMem_erase _ _⟩⟩
    · exact ⟨.refl _, fun h => by cases h⟩
  · dsimp only
    have hkept : Kept ⟨block, .level1Broadcast, number, number1, list, verify, level1⟩
        ⟨block, .level1Broadcast, number, number1, list, verify, level1.erase destNode⟩ :=
      ⟨rfl, rfl, rfl, Finset.erase_subset _ _, Finset.erase_subset _ _⟩
    split_ifs with hin hsize
    · exact ⟨hkept, fun h => by cases h⟩
    · exact ⟨hkept, fun _ => ⟨hin, Finset.notMem_erase _ _⟩⟩
    · exact ⟨.refl _, fun h => by cases h⟩

end BlockStatusWrapper

/-- The entry after a message was put into its list. -/
def BlockStatusWrapper.push (w : BlockStatusWrapper) (blockStatus : BlockStatus) : BlockStatusWrapper :=
  { w with blockStatusList := w.blockStatusList ++ [blockStatus] }

/-- The entry after its block went out to the first level. -/
def BlockStatusWrapper.toLevel1 (w : BlockStatusWrapper) (block : CBlock) (level1Nodes : Finset Str) :
    BlockStatusWrapper :=
  { w with
    block := block
    broadcastType := .level1Broadcast
    level1NodesNumber := UInt32.ofNat level1Nodes.card
    blockStatusList := []
    level1Nodes := w.level1Nodes ∪ level1Nodes }

/-- The steps, with what each of them needs and does. -/
inductive StatusMoves (m : BlockStatusMap) : StatusAction → BlockStatusMap → List StatusEvent → Prop where
  | quiet {a : StatusAction} {m' : BlockStatusMap}
      (h : ∀ hash w', m' hash = some w' → ∃ w, m hash = some w ∧ w.Kept w') : StatusMoves m a m' []
  | track {a : StatusAction} {hash : Str} {w : BlockStatusWrapper} (htype : w.broadcastType = .verifyBroadcast)
      (hlist : w.blockStatusList = []) (hlevel : w.level1Nodes = ∅) :
      StatusMoves m a (m.set hash w) [.opened hash .verifyBroadcast w.verifyNodes]
  | switch {hash : Str} {w : BlockStatusWrapper} (block : CBlock) (nodes : Finset Str) (h : m hash = some w) :
      StatusMoves m (.addLevel1 hash block nodes) (m.set hash (w.toLevel1 block nodes))
        [.opened hash .level1Broadcast nodes]
  | accept {a : StatusAction} {w w' : BlockStatusWrapper} {blockStatus : BlockStatus}
      (h : m blockStatus.blockHash = some w) (hkept : w.Kept w') (hin : blockStatus.id ∈ w.remaining)
      (hout : blockStatus.id ∉ w'.remaining) :
      StatusMoves m a (m.set blockStatus.blockHash (w'.push blockStatus))
        (.accepted blockStatus.blockHash blockStatus ::
          if (w'.push blockStatus).reached then [.committed blockStatus.blockHash] else [])

/-- Nothing happens. -/
theorem StatusMoves.idle (m : BlockStatusMap) (a : StatusAction) : StatusMoves m a m [] :=
  .quiet fun _ w' h => ⟨w', h, .refl w'⟩

/-- One entry loses a vote. -/
theorem StatusMoves.refuse {m : BlockStatusMap} {hash : Str} {w w' : BlockStatusWrapper} (a : StatusAction)
    (h : m hash = some w) (hkept : w.Kept w') : StatusMoves m a (m.set hash w') [] := by
  refine .quiet fun hash' v hv => ?_
  by_cases hh : hash' = hash
  · subst hh
    rw [StdMap.set_self] at hv
    cases hv
    exact ⟨w, h, hkept⟩
  · rw [StdMap.set_ne _ _ hh] at hv
    exact ⟨v, hv, .refl v⟩

/-- What `CheckData` answers: a message is refused, at most at the cost of its sender's vote, or passes
    with a vote its sender had. -/
theorem checkData_spec (nowTime : UInt64) (m : BlockStatusMap) (blockStatus : BlockStatus) :
    ((checkData nowTime m blockStatus).1 ≠ 0 ∧
      ∀ a, StatusMoves m a (checkData nowTime m blockStatus).2 []) ∨
    ((checkData nowTime m blockStatus).1 = 0 ∧ ∃ w w', m blockStatus.blockHash = some w ∧ w.Kept w' ∧
      blockStatus.id ∈ w.remaining ∧ blockStatus.id ∉ w'.remaining ∧
      (checkData nowTime m blockStatus).2 = m.set blockStatus.blockHash w') := by
  unfold checkData
  by_cases hstatus : 0 ≤ blockStatus.status
  · rw [if_pos hstatus]
    exact .inl ⟨(by decide : (-1 : ℤ) ≠ 0), .idle m⟩
  · rw [if_neg hstatus]
    rcases hfound : m blockStatus.blockHash with _ | w
    · exact .inl ⟨(by decide : (-2 : ℤ) ≠ 0), .idle m⟩
    · obtain ⟨hkept, hpass⟩ := w.checkNode_spec blockStatus.id
      dsimp only
      by_cases hret : (w.checkNode blockStatus.id).1 = 0
      · rw [if_neg (not_not.mpr hret)]
        obtain ⟨hin, hout⟩ := hpass hret
        split
        · exact .inl ⟨(by decide : (-7 : ℤ) ≠ 0), fun a => .refuse a hfound hkept⟩
        · exact .inr ⟨rfl, w, _, rfl, hkept, hin, hout, rfl⟩
      · rw [if_pos hret]
        exact .inl ⟨hret, fun a => .refuse a hfound hkept⟩

theorem addBlockStatus_moves (nowTime : UInt64) (m : BlockStatusMap) (blockStatus : BlockStatus)
    (a : StatusAction) : StatusMoves m a (addBlockStatus nowTime m blockStatus).1
      (addBlockStatus nowTime m blockStatus).2 := by
  unfold addBlockStatus
  dsimp only
  rcases checkData_spec nowTime m blockStatus with ⟨hret, hmoves⟩ | ⟨hret, w, w', hfound, hkept, hin, hout, hm⟩
  · rw [if_pos hret]
    exact hmoves a
  · rw [if_neg (not_not.mpr hret), hm, StdMap.set_self]
    have hset : (m.set blockStatus.blockHash w').set blockStatus.blockHash (w'.push blockStatus)
        = m.set blockStatus.blockHash (w'.push blockStatus) := by simp [StdMap.set]
    have h := StatusMoves.accept (a := a) hfound hkept hin hout
    rw [← hset] at h
    exact h

theorem statusStep_moves (verifyNodesNumber : UInt32) (m : BlockStatusMap) (a : StatusAction) :
    StatusMoves m a (statusStep verifyNodesNumber m a).1 (statusStep verifyNodesNumber m a).2 := by
  have hnew (hash : Str) (w : BlockStatusWrapper) (nodes : Finset Str) (htype : w.broadcastType = .verifyBroadcast)
      (hlist : w.blockStatusList = []) (hlevel : w.level1Nodes = ∅) (hnodes : w.verifyNodes = nodes) :
      StatusMoves m a (m.insertNew hash w) (openedIfNew m hash nodes) := by
    unfold BlockStatusMap.insertNew openedIfNew
    split
    · exact .idle m a
    · exact hnodes ▸ .track htype hlist hlevel
  cases a with
  | addVerify blockHash block verifyNodes => exact hnew _ _ _ rfl rfl rfl rfl
  | addLevel1 blockHash block level1Nodes =>
    rw [statusStep]
    rcases hfound : m blockHash with _ | w
    · exact .idle m _
    · exact .switch block level1Nodes hfound
  | addStatus nowTime blockStatus => exact addBlockStatus_moves nowTime m blockStatus _
  | expiredDelete nowTime =>
    refine .quiet fun hash w' h => ⟨w', ?_, .refl w'⟩
    exact (Option.filter_eq_some_iff.mp h).1
  | blockCheck block => exact hnew _ _ _ rfl rfl rfl rfl
  | newbuild blockHash => exact hnew _ _ _ rfl rfl rfl rfl

/-! ### The phases of a block -/

/-- The phase of the block that the event begins. -/
def StatusEvent.opens (hash : Str) : StatusEvent → Option (BroadcastType × Finset Str)
  | .opened hash' broadcastType nodes => if hash' = hash then some (broadcastType, nodes) else none
  | _ => none

/-- The message the event puts into the list of the block. -/
def StatusEvent.accepts (hash : Str) : StatusEvent → Option BlockStatus
  | .accepted hash' blockStatus => if hash' = hash then some blockStatus else none
  | _ => none

/-- The last phase of the block that has begun, with the nodes that have a vote in it. -/
def phaseStart (hash : Str) (log : List StatusEvent) : Option (BroadcastType × Finset Str) :=
  log.foldl (fun phase e => (e.opens hash).or phase) none

/-- What has happened since that phase began. -/
def phaseLog (hash : Str) (log : List StatusEvent) : List StatusEvent :=
  log.foldl (fun since e => if (e.opens hash).isSome then [] else since ++ [e]) []

theorem phaseStart_concat (hash : Str) (log : List StatusEvent) (e : StatusEvent) :
    phaseStart hash (log ++ [e]) = (e.opens hash).or (phaseStart hash log) := by
  simp [phaseStart]

theorem phaseLog_concat (hash : Str) (log : List StatusEvent) (e : StatusEvent) :
    phaseLog hash (log ++ [e]) = if (e.opens hash).isSome then [] else phaseLog hash log ++ [e] := by
  simp [phaseLog]

/-- The block an event is about. -/
def StatusEvent.hash : StatusEvent → Str
  | .opened hash _ _ => hash
  | .accepted hash _ => hash
  | .committed hash => hash

/-- How often the block has been handed to be built anew in its phase. -/
def commits (hash : Str) (log : List StatusEvent) : ℕ := (phaseLog hash log).count (.committed hash)

/-- What is known of a tracked block: its list has the messages of the phase, from different nodes that
    have used up their votes, and no task was committed while the list was short. -/
structure Ballot (hash : Str) (log : List StatusEvent) (w : BlockStatusWrapper) (nodes : Finset Str) :
    Prop where
  start : phaseStart hash log = some (w.broadcastType, nodes)
  list : w.blockStatusList = (phaseLog hash log).filterMap (StatusEvent.accepts hash)
  nodup : (w.blockStatusList.map BlockStatus.id).Nodup
  voted : ∀ v ∈ w.blockStatusList, v.id ∈ nodes ∧ v.id ∉ w.remaining
  listed : w.remaining ⊆ nodes
  early : w.blockStatusList.length < w.threshold → commits hash log = 0
  level1 : w.broadcastType = .verifyBroadcast → w.level1Nodes = ∅

section Events
variable {hash : Str} {log : List StatusEvent} {w w' : BlockStatusWrapper} {nodes : Finset Str} {e : StatusEvent}

theorem opens_of_ne (h : e.hash ≠ hash) : e.opens hash = none := by
  cases e with
  | opened hash' broadcastType nodes => exact if_neg h
  | _ => rfl

theorem commits_of_ne (h : e.hash ≠ hash) : commits hash (log ++ [e]) = commits hash log := by
  have hne : StatusEvent.committed hash ≠ e := by
    rintro rfl
    exact h rfl
  rw [commits, phaseLog_concat, opens_of_ne h, if_neg (by simp), List.count_append,
    List.count_singleton, if_neg (by simpa using hne.symm), Nat.add_zero, commits]

theorem commits_opened (broadcastType : BroadcastType) :
    commits hash (log ++ [.opened hash broadcastType nodes]) = 0 := by
  rw [commits, phaseLog_concat]
  simp [StatusEvent.opens]

theorem commits_accepted (v : BlockStatus) : commits hash (log ++ [.accepted hash v]) = commits hash log := by
  rw [commits, phaseLog_concat]
  simp [StatusEvent.opens, commits]

theorem commits_committed : commits hash (log ++ [.committed hash]) = commits hash log + 1 := by
  rw [commits, phaseLog_concat]
  simp [StatusEvent.opens, commits]

/-- An entry that only lost votes. -/
theorem Ballot.kept (hb : Ballot hash log w nodes) (hk : w.Kept w') : Ballot hash log w' nodes where
  start := by rw [hk.broadcastType]; exact hb.start
  list := by rw [hk.blockStatusList]; exact hb.list
  nodup := by rw [hk.blockStatusList]; exact hb.nodup
  voted v hv := by
    rw [hk.blockStatusList] at hv
    obtain ⟨hin, hout⟩ := hb.voted v hv
    exact ⟨hin, fun h => hout (hk.remaining h)⟩
  listed := hk.remaining.trans hb.listed
  early h := hb.early (by rwa [hk.blockStatusList, hk.threshold] at h)
  level1 h := by
    have hempty := hb.level1 (hk.broadcastType ▸ h)
    exact Finset.subset_empty.mp (hempty ▸ hk.level1Nodes)

/-- What happens to another block does not matter. -/
theorem Ballot.other (hb : Ballot hash log w nodes) (h : e.hash ≠ hash) : Ballot hash (log ++ [e]) w nodes where
  start := by rw [phaseStart_concat, opens_of_ne h, Option.none_or]; exact hb.start
  list := by
    have haccepts : e.accepts hash = none := by
      cases e with
      | accepted hash' v => exact if_neg h
      | _ => rfl
    rw [phaseLog_concat, opens_of_ne h, if_neg (by simp), List.filterMap_append,
      List.filterMap_cons_none haccepts, List.filterMap_nil, List.append_nil]
    exact hb.list
  nodup := hb.nodup
  voted := hb.voted
  listed := hb.listed
  early hlt := by rw [commits_of_ne h]; exact hb.early hlt
  level1 := hb.level1

/-- A phase begins, with an empty list and all its nodes. -/
theorem Ballot.opened (hlist : w.blockStatusList = []) (hnodes : w.remaining = nodes)
    (hlevel : w.broadcastType = .verifyBroadcast → w.level1Nodes = ∅) :
    Ballot hash (log ++ [.opened hash w.broadcastType nodes]) w nodes where
  start := by rw [phaseStart_concat]; simp [StatusEvent.opens]
  list := by
    rw [phaseLog_concat, hlist]
    simp [StatusEvent.opens]
  nodup := by rw [hlist]; exact List.nodup_nil
  voted v hv := by rw [hlist] at hv; cases hv
  listed := hnodes.subset
  early _ := commits_opened _
  level1 := hlevel

/-- A node that has a vote uses it. -/
theorem Ballot.accepted (hb : Ballot hash log w nodes) (hk : w.Kept w') {v : BlockStatus}
    (hin : v.id ∈ w.remaining) (hout : v.id ∉ w'.remaining) :
    Ballot hash (log ++ [.accepted hash v]) (w'.push v) nodes where
  start := by
    rw [phaseStart_concat]
    exact (hb.kept hk).start
  list := by
    rw [phaseLog_concat, BlockStatusWrapper.push]
    simp [StatusEvent.opens, StatusEvent.accepts, (hb.kept hk).list]
  nodup := by
    rw [BlockStatusWrapper.push, List.map_append, List.nodup_append]
    refine ⟨(hb.kept hk).nodup, List.nodup_singleton _, ?_⟩
    intro a ha b hb' hab
    obtain ⟨u, hu, rfl⟩ := List.mem_map.mp ha
    obtain rfl : b = v.id := List.mem_singleton.mp hb'
    rw [hk.blockStatusList] at hu
    exact (hb.voted u hu).2 (hab ▸ hin)
  voted u hu := by
    rcases List.mem_append.mp hu with hu | hu
    · exact (hb.kept hk).voted u hu
    · obtain rfl := List.mem_singleton.mp hu
      exact ⟨hb.listed hin, hout⟩
  listed := (hb.kept hk).listed
  early hlt := by
    rw [commits_accepted]
    refine (hb.kept hk).early (lt_of_le_of_lt ?_ hlt)
    simp [BlockStatusWrapper.push]
  level1 := (hb.kept hk).level1

/-- The task is committed when the list has reached its size. -/
theorem Ballot.committed (hb : Ballot hash log w nodes) (hreached : ¬ w.blockStatusList.length < w.threshold) :
    Ballot hash (log ++ [.committed hash]) w nodes where
  start := by rw [phaseStart_concat]; exact hb.start
  list := by
    rw [phaseLog_concat]
    simp [StatusEvent.opens, StatusEvent.accepts, ← hb.list]
  nodup := hb.nodup
  voted := hb.voted
  listed := hb.listed
  early h := absurd h hreached
  level1 := hb.level1

end Events

/-! ### Whole runs -/

/-- A block that goes out to the first level is in its verify phase. -/
def StatusAction.Fits (m : BlockStatusMap) : StatusAction → Prop
  | .addLevel1 blockHash _ _ => ∀ w ∈ m blockHash, w.broadcastType = .verifyBroadcast
  | _ => True

instance (m : BlockStatusMap) (a : StatusAction) : Decidable (a.Fits m) := by
  cases a <;> unfold StatusAction.Fits <;> infer_instance

/-- The switch from the verify to the first-level phase happens at most once for a tracked block. -/
def SwitchedOnce (verifyNodesNumber : UInt32) (actions : List StatusAction) : Prop :=
  ∀ i (h : i < actions.length), actions[i].Fits (statusRun verifyNodesNumber (actions.take i)).map

instance (verifyNodesNumber : UInt32) (actions : List StatusAction) :
    Decidable (SwitchedOnce verifyNodesNumber actions) :=
  inferInstanceAs (Decidable (∀ i (_ : i < actions.length), _))

theorem SwitchedOnce.concat {verifyNodesNumber : UInt32} {actions : List StatusAction} {a : StatusAction}
    (h : SwitchedOnce verifyNodesNumber (actions ++ [a])) :
    SwitchedOnce verifyNodesNumber actions ∧ a.Fits (statusRun verifyNodesNumber actions).map := by
  constructor
  · intro i hi
    have hfits := h i (by simp; omega)
    rwa [List.getElem_append_left hi, List.take_append_of_le_length hi.le] at hfits
  · simpa using h actions.length (by simp)

/-- The votes on every block are in order. -/
structure Voting (r : StatusRun) : Prop where
  once : ∀ hash, commits hash r.log ≤ 1
  ballot : ∀ {hash : Str} {w : BlockStatusWrapper}, r.map hash = some w → ∃ nodes, Ballot hash r.log w nodes

/-- An entry is written, and the events are about its block. -/
theorem Voting.set {r : StatusRun} (hv : Voting r) {hash : Str} {w : BlockStatusWrapper} {e : StatusEvent}
    (he : e.hash = hash) (honce : commits hash (r.log ++ [e]) ≤ 1)
    (hw : ∃ nodes, Ballot hash (r.log ++ [e]) w nodes) : Voting ⟨r.map.set hash w, r.log ++ [e]⟩ := by
  refine ⟨fun hash' => ?_, fun {hash'} {w'} h => ?_⟩
  · by_cases hh : hash' = hash
    · rw [hh]; exact honce
    · exact (commits_of_ne (he.trans_ne (Ne.symm hh))).trans_le (hv.once hash')
  · by_cases hh : hash' = hash
    · subst hh
      simp only [StdMap.set_self, Option.some.injEq] at h
      exact h ▸ hw
    · simp only [StdMap.set_ne _ _ hh] at h
      obtain ⟨nodes, hb⟩ := hv.ballot h
      exact ⟨nodes, hb.other (he.trans_ne (Ne.symm hh))⟩

/-- One step keeps the votes in order. -/
theorem Voting.step {r : StatusRun} (hv : Voting r) {a : StatusAction} {m' : BlockStatusMap}
    {events : List StatusEvent} (hfits : a.Fits r.map) (hm : StatusMoves r.map a m' events) :
    Voting ⟨m', r.log ++ events⟩ := by
  cases hm with
  | quiet h =>
    rw [List.append_nil]
    refine ⟨hv.once, fun {hash} {w'} hw' => ?_⟩
    obtain ⟨w, hw, hk⟩ := h hash w' hw'
    obtain ⟨nodes, hb⟩ := hv.ballot hw
    exact ⟨nodes, hb.kept hk⟩
  | @track _ hash w htype hlist hlevel =>
    refine hv.set rfl ((commits_opened _).trans_le zero_le_one) ⟨w.verifyNodes, ?_⟩
    have hremaining : w.remaining = w.verifyNodes := by rw [BlockStatusWrapper.remaining, htype]
    rw [← htype]
    exact .opened hlist hremaining fun _ => hlevel
  | @switch hash w block nodes h =>
    refine hv.set rfl ((commits_opened _).trans_le zero_le_one) ⟨nodes, ?_⟩
    -- nobody is left over from an earlier first-level phase
    obtain ⟨old, hb⟩ := hv.ballot h
    have hempty : w.level1Nodes = ∅ := hb.level1 (hfits w h)
    have hremaining : (w.toLevel1 block nodes).remaining = nodes := by
      simp [BlockStatusWrapper.toLevel1, BlockStatusWrapper.remaining, hempty]
    exact Ballot.opened (w := w.toLevel1 block nodes) rfl hremaining nofun
  | @accept _ w w' v h hkept hin hout =>
    obtain ⟨nodes, hb⟩ := hv.ballot h
    have hpushed := hb.accepted hkept hin hout
    have hvote : Voting ⟨r.map.set v.blockHash (w'.push v), r.log ++ [.accepted v.blockHash v]⟩ :=
      hv.set rfl ((commits_accepted v).trans_le (hv.once _)) ⟨nodes, hpushed⟩
    rw [List.append_cons]
    split
    · next hreached =>
      rw [BlockStatusWrapper.reached_iff] at hreached
      have hearly : w.blockStatusList.length < w.threshold := by
        have hlen : (w'.push v).blockStatusList.length = w.blockStatusList.length + 1 := by
          simp [BlockStatusWrapper.push, hkept.blockStatusList]
        have hthreshold : (w'.push v).threshold = w.threshold := hkept.threshold
        omega
      have hset : (r.map.set v.blockHash (w'.push v)).set v.blockHash (w'.push v)
          = r.map.set v.blockHash (w'.push v) := by simp [StdMap.set]
      have honce : commits v.blockHash (r.log ++ [.accepted v.blockHash v] ++ [.committed v.blockHash]) ≤ 1 := by
        rw [commits_committed, commits_accepted, hb.early hearly]
      rw [← hset]
      exact hvote.set rfl honce ⟨nodes, hpushed.committed (by omega)⟩
    · rw [List.append_nil]
      exact hvote

theorem voting_run (verifyNodesNumber : UInt32) (actions : List StatusAction)
    (hswitch : SwitchedOnce verifyNodesNumber actions) : Voting (statusRun verifyNodesNumber actions) := by
  induction actions using List.reverseRecOn with
  | nil => exact ⟨fun _ => Nat.zero_le _, fun h => (nomatch h)⟩
  | append_singleton actions a ih =>
    obtain ⟨hbefore, hfits⟩ := hswitch.concat
    rw [statusRun, List.foldl_concat]
    exact (ih hbefore).step hfits (statusStep_moves ..)

/-- In every phase of every tracked block the list holds at most one message of a node, only messages
    of nodes with a vote in that phase, and `NewbuildBlockByBlockStatus` is committed at most once. -/
theorem blockStatus_votes (verifyNodesNumber : UInt32) (actions : List StatusAction)
    (hswitch : SwitchedOnce verifyNodesNumber actions) (hash : Str) :
    (phaseLog hash (statusRun verifyNodesNumber actions).log).count (.committed hash) ≤ 1 ∧
    ∀ w, (statusRun verifyNodesNumber actions).map hash = some w →
      ∃ nodes, phaseStart hash (statusRun verifyNodesNumber actions).log = some (w.broadcastType, nodes) ∧
        w.blockStatusList = (phaseLog hash (statusRun verifyNodesNumber actions).log).filterMap
          (StatusEvent.accepts hash) ∧
        (w.blockStatusList.map BlockStatus.id).Nodup ∧ ∀ v ∈ w.blockStatusList, v.id ∈ nodes := by
  have hv := voting_run verifyNodesNumber actions hswitch
  refine ⟨hv.once hash, fun w hw => ?_⟩
  obtain ⟨nodes, hb⟩ := hv.ballot hw
  exact ⟨nodes, hb.start, hb.list, hb.nodup, fun v h => (hb.voted v h).1⟩

/-- A block is verified by three nodes, two of which complain (one of them twice), and then goes out to
    four nodes, of which one complains. -/
def sampleVotes : List StatusAction :=
  [.addVerify (str "b") emptyBlock [str "n1", str "n2", str "n3"],
    .addStatus 1 ⟨str "b", -1, str "n1"⟩, .addStatus 1 ⟨str "b", -1, str "n1"⟩,
    .addStatus 1 ⟨str "b", -1, str "n2"⟩,
    .addLevel1 (str "b") emptyBlock {str "m1", str "m2", str "m3", str "m4"},
    .addStatus 1 ⟨str "b", -1, str "m1"⟩]

theorem blockStatus_votes_sample :
    ∃ w nodes, (statusRun 2 sampleVotes).map (str "b") = some w ∧
      w.blockStatusList = [⟨str "b", -1, str "m1"⟩] ∧
      phaseStart (str "b") (statusRun 2 sampleVotes).log = some (w.broadcastType, nodes) ∧
      str "m1" ∈ nodes := by
  have hlist : ((statusRun 2 sampleVotes).map (str "b")).map BlockStatusWrapper.blockStatusList
      = some [⟨str "b", -1, str "m1"⟩] := by decide
  obtain ⟨w, hw, hlist⟩ := Option.map_eq_some_iff.mp hlist
  obtain ⟨-, hvotes⟩ := blockStatus_votes 2 sampleVotes (by decide) (str "b")
  obtain ⟨nodes, hstart, -, -, hin⟩ := hvotes w hw
  refine ⟨w, nodes, hw, hlist, hstart, hin ⟨str "b", -1, str "m1"⟩ ?_⟩
  rw [hlist]
  exact List.mem_singleton.mpr rfl

end Tfs.Ca
