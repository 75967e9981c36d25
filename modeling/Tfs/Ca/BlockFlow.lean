import Tfs.Proto
import Tfs.Lib.Cyclic
import Tfs.Lib.Double
import Tfs.Lib.OrderedSet
import Tfs.Lib.Runs
import Tfs.Lib.Sorted

/-! The signatures that are put on a block before it is broadcast (`BlockStroage::AddBlock`, `UpdateBlock`,
    `_BlockCheck`, `_ComposeEndBlockmsg` and `VerifyBlockFlowSignNode` in `ca/block_stroage.cpp`).

    Every message brings the block with the signature of its creator and that of one more node. When there are
    enough, some of them are drawn, in a row around a circle, and their signatures are put on the block. A node
    may have sent two of these messages.

    Below, what is broadcast is well signed as long as no two drawn messages are of one node
    (`broadcasts_wellSigned_iff`), so in every run in which no node sends two messages on a block
    (`broadcasts_wellSigned_of_own`). -/

namespace Tfs.Ca.BlockFlow

/-! ### The functions -/

/-- The block of a `BlockMsg`, with what is used here. -/
structure FlowBlock where
  version : UInt32
  time : UInt64
  hash : Str
  sign : List CSign

/-- A block that `UpdateBlock` takes. -/
structure TwoSigned where
  block : FlowBlock
  two : block.sign.length = 2

/-- `block.sign(1)`. -/
def TwoSigned.second (t : TwoSigned) : CSign := t.block.sign.get ⟨1, by rw [t.two]; decide⟩

/-- The messages on a block: the one of `AddBlock`, and those of `UpdateBlock`. -/
structure Entry where
  first : FlowBlock
  later : List TwoSigned

/-- What comes from other files: two constants, and `GenerateAddr`. -/
structure Params where
  kConsensus : ℕ
  pos : 0 < kConsensus
  kInitBlockVersion : UInt32
  generateAddr : Str → Str

/-- What a call of `_BlockCheck` meets. -/
structure CheckMeets where
  nowTime : Int64
  /-- `GetDefaultAccount` -/
  account : Bool
  /-- `GetDefaultAddr` -/
  defaultAddr : Str
  /-- `CreateVRF` and `GetRandNum`, for the hash of a block -/
  createVRF : Str → Bool
  randNum : Str → ℚ
  randNum_nonneg : ∀ hash, 0 ≤ randNum hash
  randNum_lt : ∀ hash, randNum hash < 1
  /-- `getVerifyNodes` -/
  verifyNodes : Str → List Str

/-- `_blockCnt`. -/
abbrev BlockCnt := SortedMap Str Entry

/-- `BlockStroage::AddBlock`; a block that is there stays as it is. -/
def addBlock (blockCnt : BlockCnt) (block : FlowBlock) : BlockCnt := blockCnt.upsert block.hash fun e => e.getD ⟨block, []⟩

/-- `BlockStroage::UpdateBlock`. -/
def updateBlock (blockCnt : BlockCnt) (block : FlowBlock) : ℤ × BlockCnt :=
  if h : block.sign.length = 2 then
    match blockCnt.find block.hash with
    | some e => (0, blockCnt.upsert block.hash fun _ => { e with later := e.later ++ [⟨block, h⟩] })
    | none => (0, blockCnt)
  else (-1, blockCnt)

/-- `Cycliclist::operator[]`. In an empty list there is nothing to point to. -/
def cyclicAt {α : Type} (list : List α) (index : ℤ) : Option α := list[Cyclic.stepBy list.length index 0]?

section Check
variable (params : Params) (m : CheckMeets) (e : Entry)

/-- `randPos`. -/
def randPos : ℤ := ⌊toDouble (e.later.length * m.randNum e.first.hash)⌋

/-- `targetMsg`. -/
def targetMsg : List TwoSigned :=
  (List.range (params.kConsensus - 1)).filterMap fun i : ℕ =>
    cyclicAt e.later (randPos m e - (params.kConsensus / 2 : ℕ) + (i : ℤ))

/-- `BlockStroage::_ComposeEndBlockmsg`. All messages that can be drawn have two signatures. -/
def composeEndBlockmsg : Except ℤ FlowBlock :=
  if ! m.account then .error (-1)
  else if ! m.createVRF e.first.hash then .error (-2)
  else .ok { e.first with sign := e.first.sign ++ (targetMsg params m e).map TwoSigned.second }

/-- The address of a signature. -/
def Params.addrOf (item : CSign) : Str := params.generateAddr item.pub

/-- `BlockStroage::VerifyBlockFlowSignNode`. -/
def verifyBlockFlowSignNode (block : FlowBlock) : ℤ :=
  if block.sign.all fun item => params.addrOf item = m.defaultAddr ∨ params.addrOf item ∈ m.verifyNodes block.hash then 0 else -1

/-- `lagTime`. -/
def lagTime : ℕ := (m.nowTime - e.first.time.toInt64).toInt.natAbs

/-- There are enough messages, and the block is not older than ten seconds. -/
def isReady : Bool := 1 + e.later.length ≥ params.kConsensus ∧ lagTime m e ≤ 1000000 * 10

/-- What one round of `_BlockCheck` broadcasts. -/
def broadcastOf : Option FlowBlock :=
  if isReady params m e then
    match composeEndBlockmsg params m e with
    | .error _ => none
    | .ok block =>
      if verifyBlockFlowSignNode params m block = 0 ∧ block.version ≥ params.kInitBlockVersion then some block else none
  else none

/-- Whether the round ends with the removal of the block. -/
def isDone : Bool := isReady params m e || lagTime m e > 1000000 * 10

end Check

/-- `BlockStroage::_BlockCheck`: the blocks that are broadcast, and what is left. -/
def blockCheck (params : Params) (m : CheckMeets) (blockCnt : BlockCnt) : List FlowBlock × BlockCnt :=
  (blockCnt.entries.filterMap fun item => broadcastOf params m item.2,
    ((blockCnt.entries.filter fun item => isDone params m item.2).map fun item => item.2.first.hash).foldl SortedMap.erase blockCnt)

/-! ### Runs -/

/-- What other nodes and the timer do. -/
inductive Action where
  | addBlock (block : FlowBlock)
  | updateBlock (block : FlowBlock)
  | blockCheck (m : CheckMeets)

/-- The messages, and what has been broadcast, with the nodes that were to verify the block then. -/
structure FlowRun where
  blockCnt : BlockCnt
  broadcasts : List (FlowBlock × List Str)

/-- The start of a run. -/
def FlowRun.start : FlowRun := ⟨.empty, []⟩

/-- One step. -/
def FlowRun.step (params : Params) (r : FlowRun) : Action → FlowRun
  | .addBlock block => { r with blockCnt := BlockFlow.addBlock r.blockCnt block }
  | .updateBlock block => { r with blockCnt := (BlockFlow.updateBlock r.blockCnt block).2 }
  | .blockCheck m =>
    ⟨(BlockFlow.blockCheck params m r.blockCnt).2, r.broadcasts ++
      (BlockFlow.blockCheck params m r.blockCnt).1.map fun block => (block, m.verifyNodes block.hash)⟩

/-- The run of a list of actions. -/
def FlowRun.run (params : Params) (acts : List Action) : FlowRun := acts.foldl (FlowRun.step params) .start

/-! ### Drawing -/

section Draw
variable {params : Params} {m : CheckMeets} {e : Entry}

/-- The indices of the messages that are drawn. -/
def targetIndices (params : Params) (m : CheckMeets) (e : Entry) : List ℕ :=
  (List.range (params.kConsensus - 1)).map fun i : ℕ =>
    Cyclic.stepBy e.later.length (randPos m e - (params.kConsensus / 2 : ℕ) + (i : ℤ)) 0

theorem targetMsg_eq : targetMsg params m e = (targetIndices params m e).filterMap fun i => e.later[i]? := by
  rw [targetMsg, targetIndices, List.filterMap_map]
  rfl

/-- With enough messages, every index is one of the list. -/
theorem lt_of_mem_targetIndices (h : params.kConsensus ≤ 1 + e.later.length) :
    ∀ i ∈ targetIndices params m e, i < e.later.length := by
  intro i hi
  obtain ⟨j, hj, rfl⟩ := List.mem_map.mp hi
  rw [List.mem_range] at hj
  exact Cyclic.stepBy_lt (by omega) _

/-- None of them comes twice. -/
theorem nodup_targetIndices (h : params.kConsensus ≤ 1 + e.later.length) : (targetIndices params m e).Nodup := by
  refine List.nodup_range.map_on fun i hi j hj heq => ?_
  rw [List.mem_range] at hi hj
  exact Cyclic.stepBy_inj (by omega) (by omega : params.kConsensus - 1 ≤ e.later.length) _ hi hj heq

/-- The elements at indices of a list. -/
theorem map_some_filterMap {α : Type} {l : List α} : ∀ {indices : List ℕ}, (∀ i ∈ indices, i < l.length) →
    (indices.filterMap fun i => l[i]?).map some = indices.map fun i => l[i]?
  | [], _ => rfl
  | i :: indices, h => by
    obtain ⟨hi, hrest⟩ := List.forall_mem_cons.mp h
    rw [List.filterMap_cons, List.getElem?_eq_getElem hi, List.map_cons, map_some_filterMap hrest, List.map_cons,
      List.getElem?_eq_getElem hi]

/-- As many messages are drawn as there have to be further signatures. -/
theorem length_targetMsg (h : params.kConsensus ≤ 1 + e.later.length) :
    (targetMsg params m e).length = params.kConsensus - 1 := by
  have hlength := congrArg List.length (map_some_filterMap (lt_of_mem_targetIndices (m := m) h))
  rw [List.length_map, List.length_map, ← targetMsg_eq, targetIndices, List.length_map, List.length_range] at hlength
  exact hlength

/-- Where no two of the messages are of one kind, neither are two that are drawn. -/
theorem nodup_map_targetMsg (h : params.kConsensus ≤ 1 + e.later.length) {β : Type} (f : TwoSigned → β)
    (hf : (e.later.map f).Nodup) : ((targetMsg params m e).map f).Nodup := by
  have hlt := lt_of_mem_targetIndices (m := m) h
  have hmap : ((targetMsg params m e).map f).map some = (targetIndices params m e).map fun i => (e.later.map f)[i]? := by
    have hsome := congrArg (List.map (Option.map f)) (map_some_filterMap hlt)
    rw [← targetMsg_eq, List.map_map, List.map_map] at hsome
    rw [List.map_map]
    simpa [Function.comp_def] using hsome
  refine List.Nodup.of_map some ?_
  rw [hmap]
  refine (nodup_targetIndices h).map_on fun i hi j _ heq => ?_
  exact (List.getElem?_inj (by rw [List.length_map]; exact hlt i hi) hf).mp heq

end Draw

/-! ### The signatures of what is broadcast -/

section Signed
variable (params : Params) (m : CheckMeets) (e : Entry)

/-- A signature of the creator, and the further ones that are needed, of different nodes that are in the list. -/
def WellSigned (b : FlowBlock × List Str) : Prop :=
  ∃ creator further, b.1.sign = creator :: further ∧ further.length = params.kConsensus - 1 ∧
    (further.map params.addrOf).Nodup ∧ ∀ item ∈ further, params.addrOf item ∈ b.2

/-- The addresses of the signatures that are put on the block. -/
def targetAddrs : List Str := (targetMsg params m e).map fun t => params.addrOf t.second

/-- The block is let through: it is ready, the calls succeed, the version is recent enough, and every signature is of
    the node itself or of one in the list. -/
structure LetThrough : Prop where
  enough : params.kConsensus ≤ 1 + e.later.length
  recent : lagTime m e ≤ 1000000 * 10
  account : m.account
  createVRF : m.createVRF e.first.hash
  version : e.first.version ≥ params.kInitBlockVersion
  signers : ∀ addr ∈ e.first.sign.map params.addrOf ++ targetAddrs params m e,
    addr = m.defaultAddr ∨ addr ∈ m.verifyNodes e.first.hash

/-- The block comes with one signature, the messages that are drawn are of different nodes, and the node itself is
    none of them unless it is in the list. -/
structure SignedOnce : Prop where
  creator : e.first.sign.length = 1
  distinct : (targetAddrs params m e).Nodup
  others : m.defaultAddr ∈ targetAddrs params m e → m.defaultAddr ∈ m.verifyNodes e.first.hash

variable {params m e}

/-- The block with the signatures of the messages that are drawn. -/
def endBlock (params : Params) (m : CheckMeets) (e : Entry) : FlowBlock :=
  { e.first with sign := e.first.sign ++ (targetMsg params m e).map TwoSigned.second }

theorem verifyBlockFlowSignNode_eq_zero {block : FlowBlock} : verifyBlockFlowSignNode params m block = 0 ↔
    ∀ addr ∈ block.sign.map params.addrOf, addr = m.defaultAddr ∨ addr ∈ m.verifyNodes block.hash := by
  rw [verifyBlockFlowSignNode, List.forall_mem_map]
  split_ifs with hall
  · exact iff_of_true rfl (by simpa using hall)
  · exact iff_of_false (by decide) (by simpa using hall)

/-- A block is broadcast when it is let through, with the signatures that were drawn. -/
theorem broadcastOf_eq_some {block : FlowBlock} :
    broadcastOf params m e = some block ↔ LetThrough params m e ∧ block = endBlock params m e := by
  have hsigners : (endBlock params m e).sign.map params.addrOf = e.first.sign.map params.addrOf ++ targetAddrs params m e := by
    rw [endBlock, List.map_append, List.map_map]
    rfl
  have hverify : verifyBlockFlowSignNode params m (endBlock params m e) = 0 ↔
      ∀ addr ∈ e.first.sign.map params.addrOf ++ targetAddrs params m e,
        addr = m.defaultAddr ∨ addr ∈ m.verifyNodes e.first.hash := by
    rw [verifyBlockFlowSignNode_eq_zero, hsigners]
    rfl
  rw [broadcastOf]
  constructor
  · intro hsome
    split_ifs at hsome with hready
    obtain ⟨henough, hrecent⟩ := of_decide_eq_true hready
    rw [composeEndBlockmsg] at hsome
    rcases haccount : m.account with _ | _
    · simp [haccount] at hsome
    · rcases hvrf : m.createVRF e.first.hash with _ | _
      · simp [haccount, hvrf] at hsome
      · simp only [haccount, hvrf, Bool.not_true, Bool.false_eq_true, if_false] at hsome
        split_ifs at hsome with hpass
        exact ⟨⟨henough, hrecent, haccount, hvrf, hpass.2, hverify.mp hpass.1⟩, (Option.some.inj hsome).symm⟩
  · rintro ⟨h, rfl⟩
    have hready : isReady params m e := decide_eq_true ⟨h.enough, h.recent⟩
    have hpass : verifyBlockFlowSignNode params m (endBlock params m e) = 0 ∧
        (endBlock params m e).version ≥ params.kInitBlockVersion := ⟨hverify.mpr h.signers, h.version⟩
    rw [if_pos hready, composeEndBlockmsg]
    simp only [h.account, h.createVRF, Bool.not_true, Bool.false_eq_true, if_false]
    exact if_pos hpass

/-- What is let through is well signed when each signature is of another node. -/
theorem wellSigned_endBlock (h : LetThrough params m e) :
    WellSigned params (endBlock params m e, m.verifyNodes e.first.hash) ↔ SignedOnce params m e := by
  have hlength := length_targetMsg (m := m) h.enough
  constructor
  · rintro ⟨creator, further, hsign, hcount, hdistinct, hlist⟩
    have htotal := congrArg List.length hsign
    simp only [endBlock, List.length_append, List.length_map, List.length_cons, hlength, hcount] at htotal
    obtain ⟨first, hfirst⟩ := List.length_eq_one_iff.mp (by omega : e.first.sign.length = 1)
    simp only [endBlock, hfirst, List.singleton_append, List.cons.injEq] at hsign
    obtain ⟨rfl, rfl⟩ := hsign
    have haddrs : targetAddrs params m e = ((targetMsg params m e).map TwoSigned.second).map params.addrOf := by
      rw [List.map_map]
      rfl
    refine ⟨by rw [hfirst]; rfl, haddrs ▸ hdistinct, fun hself => ?_⟩
    rw [haddrs] at hself
    obtain ⟨item, hitem, heq⟩ := List.mem_map.mp hself
    exact heq ▸ hlist item hitem
  · rintro ⟨hcreator, hdistinct, hothers⟩
    obtain ⟨first, hfirst⟩ := List.length_eq_one_iff.mp hcreator
    refine ⟨first, (targetMsg params m e).map TwoSigned.second, ?_, by rw [List.length_map, hlength], ?_, ?_⟩
    · rw [endBlock, hfirst]
      rfl
    · rw [List.map_map]
      exact hdistinct
    · intro item hitem
      obtain ⟨t, ht, rfl⟩ := List.mem_map.mp hitem
      have hin : params.addrOf t.second ∈ targetAddrs params m e := List.mem_map.mpr ⟨t, ht, rfl⟩
      rcases h.signers _ (List.mem_append_right _ hin) with heq | hlist
      · rw [heq] at hin ⊢
        exact hothers hin
      · exact hlist

/-- Where the messages are of different nodes, and none is of the node itself unless it is in the list, whatever is
    drawn is so. -/
theorem signedOnce_of_distinct (h : LetThrough params m e) (hcreator : e.first.sign.length = 1)
    (hdistinct : (e.later.map fun t => params.addrOf t.second).Nodup)
    (hothers : m.defaultAddr ∈ e.later.map (fun t => params.addrOf t.second) →
      m.defaultAddr ∈ m.verifyNodes e.first.hash) : SignedOnce params m e := by
  refine ⟨hcreator, nodup_map_targetMsg h.enough _ hdistinct, fun hself => hothers ?_⟩
  obtain ⟨t, ht, heq⟩ := List.mem_map.mp hself
  rw [targetMsg_eq] at ht
  obtain ⟨i, -, hi⟩ := List.mem_filterMap.mp ht
  exact List.mem_map.mpr ⟨t, List.mem_of_getElem? hi, heq⟩

end Signed

/-! ### Every run -/

section Run
variable (params : Params)

/-- In a call of `_BlockCheck`, every block that is let through has each signature of another node. -/
def SignsOnce (r : FlowRun) : Action → Prop
  | .blockCheck m => ∀ item ∈ r.blockCnt.entries, LetThrough params m item.2 → SignedOnce params m item.2
  | _ => True

variable {params}

/-- One step keeps all broadcasts well signed when its blocks have each signature of another node. -/
theorem step_wellSigned_iff (r : FlowRun) (a : Action) (h : ∀ b ∈ r.broadcasts, WellSigned params b) :
    (∀ b ∈ (r.step params a).broadcasts, WellSigned params b) ↔ SignsOnce params r a := by
  cases a with
  | addBlock block => exact iff_of_true h trivial
  | updateBlock block => exact iff_of_true h trivial
  | blockCheck m =>
    show (∀ b ∈ r.broadcasts ++ _, WellSigned params b) ↔ _
    rw [List.forall_mem_append, and_iff_right h, List.forall_mem_map]
    constructor
    · intro hall item hitem hlet
      have hsome : broadcastOf params m item.2 = some (endBlock params m item.2) := broadcastOf_eq_some.mpr ⟨hlet, rfl⟩
      exact (wellSigned_endBlock hlet).mp (hall _ (List.mem_filterMap.mpr ⟨item, hitem, hsome⟩))
    · intro hall block hblock
      obtain ⟨item, hitem, hsome⟩ := List.mem_filterMap.mp hblock
      obtain ⟨hlet, rfl⟩ := broadcastOf_eq_some.mp hsome
      exact (wellSigned_endBlock hlet).mpr (hall item hitem hlet)

/-! ### Messages of different nodes -/

/-- The nodes that sent the messages of `UpdateBlock` on a block, in the order of the messages. -/
def signersOf (params : Params) (hash : Str) (acts : List Action) : List Str :=
  acts.filterMap fun
    | .updateBlock block =>
      if h : block.sign.length = 2 then
        if block.hash = hash then some (params.addrOf (TwoSigned.second ⟨block, h⟩)) else none
      else none
    | _ => none

/-- Blocks are added with one signature, no node sends two messages on a block, and one that checks sends none
    unless it is to verify the block. -/
structure OwnSigners (params : Params) (acts : List Action) : Prop where
  creator : ∀ block, .addBlock block ∈ acts → block.sign.length = 1
  distinct : ∀ hash, (signersOf params hash acts).Nodup
  others : ∀ m hash, .blockCheck m ∈ acts → m.defaultAddr ∈ signersOf params hash acts →
    m.defaultAddr ∈ m.verifyNodes hash

/-- An entry comes from the messages so far: the block from one of `AddBlock`, the rest from those of `UpdateBlock`
    on this block, none of them twice. -/
structure Gathered (params : Params) (acts : List Action) (item : Str × Entry) : Prop where
  key : item.2.first.hash = item.1
  added : .addBlock item.2.first ∈ acts
  later : (item.2.later.map fun t => params.addrOf t.second).Sublist (signersOf params item.1 acts)

theorem signersOf_append (hash : Str) (acts acts' : List Action) :
    signersOf params hash (acts ++ acts') = signersOf params hash acts ++ signersOf params hash acts' :=
  List.filterMap_append

theorem Gathered.mono {acts : List Action} {item : Str × Entry} (h : Gathered params acts item) (acts' : List Action) :
    Gathered params (acts ++ acts') item where
  key := h.key
  added := List.mem_append_left _ h.added
  later := by
    rw [signersOf_append]
    exact h.later.trans (List.sublist_append_left _ _)

/-- What held of the messages and more held of the messages. -/
theorem OwnSigners.of_append {acts acts' : List Action} (h : OwnSigners params (acts ++ acts')) :
    OwnSigners params acts where
  creator block hblock := h.creator block (List.mem_append_left _ hblock)
  distinct hash := by
    have hall := h.distinct hash
    rw [signersOf_append] at hall
    exact hall.of_append_left
  others m hash hm hself := by
    refine h.others m hash (List.mem_append_left _ hm) ?_
    rw [signersOf_append]
    exact List.mem_append_left _ hself

/-- One step gathers one message at most. -/
theorem step_gathered {r : FlowRun} {acts : List Action} (a : Action)
    (h : ∀ item ∈ r.blockCnt.entries, Gathered params acts item) :
    ∀ item ∈ (r.step params a).blockCnt.entries, Gathered params (acts ++ [a]) item := by
  intro item hitem
  cases a with
  | addBlock block =>
    rcases SortedMap.mem_upsert hitem with rfl | hold
    · cases hfind : r.blockCnt.find block.hash with
      | none => exact ⟨rfl, List.mem_append_right _ (List.mem_singleton_self _), List.nil_sublist _⟩
      | some e => exact (h _ (SortedMap.mem_iff_find.mpr hfind)).mono _
    · exact (h item hold).mono _
  | updateBlock block =>
    rw [FlowRun.step, updateBlock] at hitem
    split at hitem
    · rename_i htwo
      cases hfind : r.blockCnt.find block.hash with
      | none =>
        rw [hfind] at hitem
        exact (h item hitem).mono _
      | some e =>
        rw [hfind] at hitem
        rcases SortedMap.mem_upsert hitem with rfl | hold
        · have hentry := h _ (SortedMap.mem_iff_find.mpr hfind)
          refine ⟨hentry.key, List.mem_append_left _ hentry.added, ?_⟩
          have hlast : signersOf params block.hash [.updateBlock block]
              = [params.addrOf (TwoSigned.second ⟨block, htwo⟩)] := by
            simp [signersOf, htwo]
          rw [List.map_append, signersOf_append, hlast]
          exact hentry.later.append (List.Sublist.refl _)
        · exact (h item hold).mono _
    · exact (h item hitem).mono _
  | blockCheck m => exact (h item (SortedMap.mem_of_mem_foldl_erase hitem)).mono _

/-- Whatever is in the cache has been gathered from the messages of the run. -/
theorem run_gathered (acts : List Action) :
    ∀ item ∈ (FlowRun.run params acts).blockCnt.entries, Gathered params acts item := by
  induction acts using List.reverseRecOn with
  | nil => exact nofun
  | append_singleton acts a ih =>
    rw [FlowRun.run, List.foldl_append]
    exact step_gathered a ih

/-- In every run, everything that is broadcast is well signed when each call of `_BlockCheck` lets through only
    blocks with each signature of another node. -/
theorem broadcasts_wellSigned_iff (params : Params) (acts : List Action) :
    (∀ done, done <+: acts → ∀ b ∈ (FlowRun.run params done).broadcasts, WellSigned params b) ↔
      EveryStep (FlowRun.step params) (SignsOnce params) .start acts :=
  always_iff_everyStep (P := fun r : FlowRun => ∀ b ∈ r.broadcasts, WellSigned params b) step_wellSigned_iff nofun

/-- So everything that is broadcast is well signed in every run whose messages on a block are of different nodes. -/
theorem broadcasts_wellSigned_of_own {acts : List Action} (h : OwnSigners params acts) :
    ∀ b ∈ (FlowRun.run params acts).broadcasts, WellSigned params b := by
  induction acts using List.reverseRecOn with
  | nil => exact nofun
  | append_singleton acts a ih =>
    rw [FlowRun.run, List.foldl_append]
    refine (step_wellSigned_iff (FlowRun.run params acts) a (ih h.of_append)).mpr ?_
    cases a with
    | addBlock block => trivial
    | updateBlock block => trivial
    | blockCheck m =>
      intro item hitem hlet
      have hentry := (run_gathered acts item hitem).mono [.blockCheck m]
      refine signedOnce_of_distinct hlet (h.creator _ hentry.added) (hentry.later.nodup (h.distinct _)) fun hself => ?_
      rw [hentry.key]
      exact h.others m _ (List.mem_append_right _ (List.mem_singleton_self _)) (hentry.later.subset hself)

end Run

/-- Three signatures are needed. -/
def threeSigners : Params := ⟨3, by decide, 0, id⟩

/-- A block, signed by its creator. -/
def newBlock : FlowBlock := ⟨0, 0, [9], [⟨[], [1]⟩]⟩

/-- The block with the signature of another node. -/
def signedByOther : TwoSigned := ⟨{ newBlock with sign := [⟨[], [1]⟩, ⟨[], [2]⟩] }, rfl⟩

/-- The creator checks its blocks. The other node is one of those that are to verify the block. -/
def creatorChecks : CheckMeets where
  nowTime := 0
  account := true
  defaultAddr := [1]
  createVRF _ := true
  randNum _ := 0
  randNum_nonneg _ := le_rfl
  randNum_lt _ := one_pos
  verifyNodes _ := [[2]]

/-- The other node sends its message twice, and both its signatures are put on the block. -/
theorem signed_twice : ¬ ∀ b ∈ (FlowRun.run threeSigners
    [.addBlock newBlock, .updateBlock signedByOther.block, .updateBlock signedByOther.block,
      .blockCheck creatorChecks]).broadcasts, WellSigned threeSigners b := by
  intro hall
  have hpos : randPos creatorChecks ⟨newBlock, [signedByOther, signedByOther]⟩ = 0 := by
    simp [randPos, creatorChecks, toDouble_zero]
  have htarget : targetAddrs threeSigners creatorChecks ⟨newBlock, [signedByOther, signedByOther]⟩ = [[2], [2]] := by
    rw [targetAddrs, targetMsg, hpos]
    rfl
  have hlet : LetThrough threeSigners creatorChecks ⟨newBlock, [signedByOther, signedByOther]⟩ := by
    refine ⟨by decide, by decide, rfl, rfl, by decide, ?_⟩
    rw [htarget]
    decide
  have hstep := (step_wellSigned_iff (FlowRun.run threeSigners [.addBlock newBlock, .updateBlock signedByOther.block,
    .updateBlock signedByOther.block]) (.blockCheck creatorChecks) nofun).mp hall
  have honce := hstep ([9], ⟨newBlock, [signedByOther, signedByOther]⟩) (List.mem_singleton_self _) hlet
  have hdistinct := honce.distinct
  rw [htarget] at hdistinct
  exact absurd hdistinct (by decide)

end Tfs.Ca.BlockFlow
