import Tfs.Ca.BlockHelper
import Tfs.Ca.BlockStroage
import Tfs.Ca.TransactionCache
import Tfs.Ca.TxHelper
import Tfs.Lib.Runs
import Tfs.Lib.Sorted
import Tfs.Lib.Tally

/-! Building a block anew without the transactions that failed (`BlockStroage::NewbuildBlockByBlockStatus` in
    `ca/block_stroage.cpp`, up to the point where the new block is complete).

    Every message on a block lists transactions that failed. The listings of all messages are counted, and a
    transaction with enough of them is left out. A message may list a transaction more than once, and then
    its node counts more than once. -/

namespace Tfs.Ca.NewBlock

/-! ### The function -/

/-- `message TxStatus`. -/
structure TxStatus where
  txHash : Str
  status : Int32

/-- `message BlockStatus` with its failing transactions. -/
structure StatusMessage where
  blockStatus : BlockStatus
  txStatus : List TxStatus

/-- What the loop over the transactions reads and calls. -/
structure NewbuildMeets (Vrf : Type) where
  getTransactionType : CTransaction → TransactionType
  verifyTxTimeOut : CTransaction → ℤ
  getVrfAgentType : CTransaction → UInt64 → VrfAgentType
  vrfMap : StdMap Str Vrf
  txvrfMap : StdMap Str Vrf
  /-- `mutable_vrfdata()->set_txvrfinfohash` -/
  setTxvrfinfohash : Vrf → Str → Vrf

/-- `FailThreshold`: three quarters of the nodes of the phase, rounded down. -/
def failThreshold (w : BlockStatusWrapper) : ℕ :=
  match w.broadcastType with
  | .verifyBroadcast => 3 * w.verifyNodesNumber.toNat / 4
  | .level1Broadcast => 3 * w.level1NodesNumber.toNat / 4

/-- `txsStatus`: how often each transaction is listed, where numbers wrap around. -/
def txsStatus (messages : List StatusMessage) : SortedMap Str UInt32 :=
  messages.foldl (fun m message =>
    message.txStatus.foldl (fun m tx => m.upsert tx.txHash fun n => n.getD 0 + 1) m) .empty

/-- What is put into the new block and its message. -/
structure NewContents (Vrf : Type) where
  txs : List CTransaction
  vrfInfo : List Vrf
  txvrfInfo : List Vrf

section Function
variable {Vrf : Type} (m : NewbuildMeets Vrf) (w : BlockStatusWrapper) (messages : List StatusMessage)

/-- `txsStatus.find(tx.hash()) != end && txsStatus[tx.hash()] >= FailThreshold`. -/
def isVotedOut (tx : CTransaction) : Bool :=
  match (txsStatus messages).find tx.hash with
  | none => false
  | some votes => votes.toNat ≥ failThreshold w

/-- One round of the loop, for a transaction that is not voted out. -/
def addTx (contents : NewContents Vrf) (tx : CTransaction) : NewContents Vrf :=
  if m.verifyTxTimeOut tx ≠ 0 then contents
  else match m.getVrfAgentType tx (w.block.height - 1).toUInt64 with
    | .defalut | .local => { contents with txs := contents.txs ++ [tx] }
    | .vrf =>
      match m.vrfMap tx.hash with
      | none => contents
      | some vrf =>
        let contents := { contents with vrfInfo := contents.vrfInfo ++ [vrf] }
        match m.txvrfMap tx.hash with
        | none => contents
        | some txvrf =>
          { contents with
            txvrfInfo := contents.txvrfInfo ++ [m.setTxvrfinfohash txvrf tx.hash]
            txs := contents.txs ++ [tx] }

/-- The loop over the transactions of the old block: `none` where the function returns at a contract, and
    otherwise the contents with the transactions that were left out because of votes. -/
def newbuildLoop : List CTransaction → NewContents Vrf → Option (NewContents Vrf × List CTransaction)
  | [], contents => some (contents, [])
  | tx :: txs, contents =>
    if m.getTransactionType tx ≠ .tx then newbuildLoop txs contents
    else if tx.txType = kTxTypeCallContract ∨ tx.txType = kTxTypeDeployContract then none
    else if isVotedOut w messages tx then (newbuildLoop txs contents).map fun r => (r.1, tx :: r.2)
    else newbuildLoop txs (addTx m w contents tx)

/-- `BlockStroage::NewbuildBlockByBlockStatus` for an entry of `_blockStatusMap`. -/
def newbuildBlockByBlockStatus : Option (NewContents Vrf × List CTransaction) :=
  newbuildLoop m w messages w.block.txs ⟨[], [], []⟩

end Function

/-! ### Messages with their transactions -/

/-- A call, and the failing transactions of its message, where it brings one. -/
abbrev MessageAction := StatusAction × List TxStatus

/-- The map, and the messages in the list of each block. -/
structure MessageRun where
  map : BlockStatusMap
  messages : Str → List StatusMessage

/-- What an event does to the lists. -/
def recordEvent (txStatus : List TxStatus) (messages : Str → List StatusMessage) : StatusEvent → Str → List StatusMessage
  | .opened hash _ _ => fun hash' => if hash' = hash then [] else messages hash'
  | .accepted hash v => fun hash' => if hash' = hash then messages hash ++ [⟨v, txStatus⟩] else messages hash'
  | .committed _ => messages

/-- One step more. -/
def MessageRun.next (verifyNodesNumber : UInt32) (r : MessageRun) (a : MessageAction) : MessageRun :=
  ⟨(statusStep verifyNodesNumber r.map a.1).1, (statusStep verifyNodesNumber r.map a.1).2.foldl (recordEvent a.2) r.messages⟩

/-- Steps in the order they happen, from the empty map. -/
def messageRun (verifyNodesNumber : UInt32) (actions : List MessageAction) : MessageRun :=
  actions.foldl (MessageRun.next verifyNodesNumber) ⟨.empty, fun _ => []⟩

/-- What is known of the lists: they are those of the map, and their messages come from different nodes that
    have used up their votes. -/
structure Tracked (r : MessageRun) : Prop where
  list : ∀ {hash w}, r.map hash = some w → w.blockStatusList = (r.messages hash).map (·.blockStatus)
  nodup : ∀ {hash w}, r.map hash = some w → (w.blockStatusList.map BlockStatus.id).Nodup
  voted : ∀ {hash w}, r.map hash = some w → ∀ v ∈ w.blockStatusList, v.id ∉ w.remaining

/-- The entry of one block is written, and its list with it. -/
theorem Tracked.set {r : MessageRun} (ht : Tracked r) {hash : Str} {w : BlockStatusWrapper} {messages : List StatusMessage}
    (hlist : w.blockStatusList = messages.map (·.blockStatus)) (hnodup : (w.blockStatusList.map BlockStatus.id).Nodup)
    (hvoted : ∀ v ∈ w.blockStatusList, v.id ∉ w.remaining) :
    Tracked ⟨r.map.set hash w, fun hash' => if hash' = hash then messages else r.messages hash'⟩ := by
  have hcases : ∀ {hash' w'}, (r.map.set hash w) hash' = some w' →
      hash' = hash ∧ w' = w ∨ hash' ≠ hash ∧ r.map hash' = some w' := by
    intro hash' w' h
    by_cases heq : hash' = hash
    · rw [heq, StdMap.set_self] at h
      exact .inl ⟨heq, (Option.some_inj.mp h).symm⟩
    · rw [StdMap.set_ne _ _ heq] at h
      exact .inr ⟨heq, h⟩
  constructor
  · intro hash' w' h
    obtain ⟨rfl, rfl⟩ | ⟨hne, h⟩ := hcases h
    · simpa using hlist
    · simpa [hne] using ht.list h
  · intro hash' w' h
    obtain ⟨rfl, rfl⟩ | ⟨hne, h⟩ := hcases h
    · exact hnodup
    · exact ht.nodup h
  · intro hash' w' h
    obtain ⟨rfl, rfl⟩ | ⟨hne, h⟩ := hcases h
    · exact hvoted
    · exact ht.voted h

/-- One step keeps the lists in order. -/
theorem Tracked.step {r : MessageRun} (ht : Tracked r) {a : MessageAction} {m' : BlockStatusMap} {events : List StatusEvent}
    (hm : StatusMoves r.map a.1 m' events) : Tracked ⟨m', events.foldl (recordEvent a.2) r.messages⟩ := by
  obtain ⟨action, txStatus⟩ := a
  cases hm with
  | quiet h =>
    refine ⟨fun {hash w'} hw' => ?_, fun {hash w'} hw' => ?_, fun {hash w'} hw' v hv => ?_⟩
    · obtain ⟨w, hw, hk⟩ := h hash w' hw'
      exact hk.blockStatusList.trans (ht.list hw)
    · obtain ⟨w, hw, hk⟩ := h hash w' hw'
      rw [hk.blockStatusList]
      exact ht.nodup hw
    · obtain ⟨w, hw, hk⟩ := h hash w' hw'
      rw [hk.blockStatusList] at hv
      exact fun hin => ht.voted hw v hv (hk.remaining hin)
  | @track _ hash w htype hlist hlevel =>
    refine ht.set (hlist.trans rfl) ?_ fun v hv => ?_
    · rw [hlist]
      exact List.nodup_nil
    · rw [hlist] at hv
      cases hv
  | @switch hash w block nodes h => exact ht.set rfl List.nodup_nil nofun
  | @accept _ w w' v h hkept hin hout =>
    have hset : Tracked ⟨r.map.set v.blockHash (w'.push v), recordEvent txStatus r.messages (.accepted v.blockHash v)⟩ := by
      have hlist : w'.blockStatusList = w.blockStatusList := hkept.blockStatusList
      refine ht.set ?_ ?_ fun u hu => ?_
      · rw [BlockStatusWrapper.push, hlist, ht.list h, List.map_append]
        rfl
      · rw [BlockStatusWrapper.push, hlist, List.map_append, List.nodup_append]
        refine ⟨ht.nodup h, List.nodup_singleton _, fun id hid id' hid' heq => ?_⟩
        obtain ⟨u, hu, rfl⟩ := List.mem_map.mp hid
        obtain rfl : id' = v.id := List.mem_singleton.mp hid'
        exact ht.voted h u hu (heq ▸ hin)
      · have hremaining : (w'.push v).remaining = w'.remaining := rfl
        rw [hremaining]
        rcases List.mem_append.mp hu with hu | hu
        · rw [hlist] at hu
          exact fun hin' => ht.voted h u hu (hkept.remaining hin')
        · obtain rfl := List.mem_singleton.mp hu
          exact hout
    rw [List.foldl_cons]
    split_ifs
    · exact hset
    · exact hset

theorem tracked_run (verifyNodesNumber : UInt32) (actions : List MessageAction) :
    Tracked (messageRun verifyNodesNumber actions) := by
  induction actions using List.reverseRecOn with
  | nil => exact ⟨nofun, nofun, nofun⟩
  | append_singleton actions a ih =>
    rw [messageRun, List.foldl_concat]
    exact ih.step (statusStep_moves ..)

/-! ### The votes on a transaction -/

section Votes
variable {Vrf : Type} (m : NewbuildMeets Vrf) (w : BlockStatusWrapper) (messages : List StatusMessage)

/-- The transactions that a message lists. -/
def listings (message : StatusMessage) : List Str := message.txStatus.map (·.txHash)

/-- The nodes whose messages list a transaction. -/
def reportingNodes (txHash : Str) : Finset Str :=
  ((messages.filter fun message => (listings message).contains txHash).map (·.blockStatus.id)).toFinset

theorem toNat_foldl_add_one {α : Type} (l : List α) (n : UInt32) :
    (l.foldl (fun n _ => n + 1) n).toNat = (n.toNat + l.length) % 2 ^ 32 := by
  induction l generalizing n with
  | nil => exact (Nat.mod_eq_of_lt n.toNat_lt).symm
  | cons a l ih =>
    rw [List.foldl_cons, ih, UInt32.toNat_add, UInt32.toNat_one, List.length_cons]
    omega

theorem find_txsStatus (txHash : Str) :
    ((txsStatus messages).find txHash).map UInt32.toNat =
      if txHash ∈ messages.flatMap listings then some ((messages.flatMap listings).count txHash % 2 ^ 32) else none := by
  have heach : txsStatus messages =
      SortedMap.insertEach (fun n _ => n.getD 0 + 1) .empty ((messages.flatMap listings).map (·, ())) := by
    rw [txsStatus, SortedMap.insertEach, List.foldl_map, List.foldl_flatMap]
    simp only [listings, List.foldl_map]
  have hkeys : ((messages.flatMap listings).map (·, ())).map Prod.fst = messages.flatMap listings := by
    rw [List.map_map]
    exact List.map_id _
  rw [heach, SortedMap.find_insertEach_getD (fun n _ => n + 1) 0, hkeys, apply_ite (Option.map UInt32.toNat),
    Option.map_some, Option.map_none, toNat_foldl_add_one, SortedMap.length_valuesOf_map, UInt32.toNat_zero, Nat.zero_add]

/-- A transaction that is voted out is listed often enough. -/
theorem isVotedOut_le_count {tx : CTransaction} (h : isVotedOut w messages tx = true) :
    failThreshold w ≤ (messages.flatMap listings).count tx.hash := by
  have hfind := find_txsStatus messages tx.hash
  rw [isVotedOut] at h
  cases hvotes : (txsStatus messages).find tx.hash with
  | none => simp [hvotes] at h
  | some votes =>
    rw [hvotes, Option.map_some] at hfind
    split_ifs at hfind with hin
    simp only [hvotes, decide_eq_true_eq] at h
    calc failThreshold w ≤ votes.toNat := h
      _ = (messages.flatMap listings).count tx.hash % 2 ^ 32 := Option.some_inj.mp hfind
      _ ≤ (messages.flatMap listings).count tx.hash := Nat.mod_le _ _

/-- What the loop leaves out because of votes. -/
theorem mem_votedOut {tx : CTransaction} : ∀ {txs : List CTransaction} {contents contents' : NewContents Vrf}
    {out : List CTransaction}, newbuildLoop m w messages txs contents = some (contents', out) →
      (tx ∈ out ↔ tx ∈ txs ∧ m.getTransactionType tx = .tx ∧ isVotedOut w messages tx)
  | [], contents, contents', out, h => by
    cases h
    simp
  | tx' :: txs, contents, contents', out, h => by
    rw [newbuildLoop] at h
    split_ifs at h with htype hcontract hvoted
    · rw [mem_votedOut h, List.mem_cons, or_and_right, or_iff_right]
      rintro ⟨rfl, htx, -⟩
      exact htype htx
    · obtain ⟨⟨contents'', out'⟩, hrest, heq⟩ := Option.map_eq_some_iff.mp h
      cases heq
      rw [List.mem_cons, mem_votedOut hrest, List.mem_cons, or_and_right]
      refine or_congr_left ⟨?_, fun h => h.1⟩
      rintro rfl
      exact ⟨rfl, not_not.mp htype, hvoted⟩
    · rw [mem_votedOut h, List.mem_cons, or_and_right, or_iff_right]
      rintro ⟨rfl, -, htx⟩
      exact hvoted htx

theorem mem_addTx {tx tx' : CTransaction} {contents : NewContents Vrf} (h : tx ∈ (addTx m w contents tx').txs) :
    tx ∈ contents.txs ∨ tx = tx' := by
  rw [addTx] at h
  split_ifs at h
  · exact .inl h
  · split at h
    · exact (List.mem_append.mp h).imp_right List.mem_singleton.mp
    · exact (List.mem_append.mp h).imp_right List.mem_singleton.mp
    · split at h
      · exact .inl h
      · dsimp only at h
        split at h
        · exact .inl h
        · exact (List.mem_append.mp h).imp_right List.mem_singleton.mp

/-- What the loop puts into the new block. -/
theorem mem_newTxs {tx : CTransaction} : ∀ {txs : List CTransaction} {contents contents' : NewContents Vrf}
    {out : List CTransaction}, newbuildLoop m w messages txs contents = some (contents', out) →
      tx ∈ contents'.txs → tx ∈ contents.txs ∨ tx ∈ txs ∧ ¬ isVotedOut w messages tx
  | [], contents, contents', out, h, htx => by
    cases h
    exact .inl htx
  | tx' :: txs, contents, contents', out, h, htx => by
    rw [newbuildLoop] at h
    split_ifs at h with htype hcontract hvoted
    · exact (mem_newTxs h htx).imp_right (And.imp_left (List.mem_cons_of_mem _))
    · obtain ⟨⟨contents'', out'⟩, hrest, heq⟩ := Option.map_eq_some_iff.mp h
      cases heq
      exact (mem_newTxs hrest htx).imp_right (And.imp_left (List.mem_cons_of_mem _))
    · rcases mem_newTxs h htx with hold | ⟨hin, hnot⟩
      · rcases mem_addTx m w hold with hold | rfl
        · exact .inl hold
        · exact .inr ⟨List.mem_cons_self, hvoted⟩
      · exact .inr ⟨List.mem_cons_of_mem _ hin, hnot⟩

/-- A transaction that is left out because of votes is not in the new block. -/
theorem votedOut_not_in_newBlock {contents : NewContents Vrf} {out : List CTransaction} {tx : CTransaction}
    (h : newbuildBlockByBlockStatus m w messages = some (contents, out)) (htx : tx ∈ out) : tx ∉ contents.txs := by
  intro hin
  rcases mem_newTxs m w messages h hin with hnil | ⟨-, hnot⟩
  · cases hnil
  · exact hnot ((mem_votedOut m w messages h).mp htx).2.2

/-- A transaction is left out because of votes only where enough nodes report it. -/
def VotedOutByEnough : Prop :=
  ∀ contents out, newbuildBlockByBlockStatus m w messages = some (contents, out) →
    ∀ tx ∈ out, failThreshold w ≤ (reportingNodes messages tx.hash).card

/-- Where the messages come from different nodes and none lists a transaction twice, every listing is a node. -/
theorem votedOutByEnough_of_once (hids : (messages.map (·.blockStatus.id)).Nodup)
    (honce : ∀ message ∈ messages, (listings message).Nodup) : VotedOutByEnough m w messages := by
  intro contents out hbuild tx htx
  obtain ⟨-, -, hvoted⟩ := (mem_votedOut m w messages hbuild).mp htx
  have hnodup : ((messages.filter fun message => (listings message).contains tx.hash).map (·.blockStatus.id)).Nodup :=
    hids.sublist (List.filter_sublist.map _)
  calc failThreshold w ≤ (messages.flatMap listings).count tx.hash := isVotedOut_le_count w messages hvoted
    _ = messages.countP fun message => (listings message).contains tx.hash :=
        SortedMap.count_flatMap_of_nodup listings tx.hash honce
    _ = (reportingNodes messages tx.hash).card := by
        rw [reportingNodes, List.toFinset_card_of_nodup hnodup, List.length_map, List.countP_eq_length_filter]

end Votes

/-! ### Whole runs -/

/-- A message that passes `CheckData` lists no transaction twice. -/
def ListsOnce (r : MessageRun) : MessageAction → Prop
  | (.addStatus nowTime blockStatus, txStatus) =>
    (checkData nowTime r.map blockStatus).1 = 0 → (listings ⟨blockStatus, txStatus⟩).Nodup
  | _ => True

instance (r : MessageRun) : ∀ a : MessageAction, Decidable (ListsOnce r a)
  | (.addStatus nowTime blockStatus, txStatus) =>
    inferInstanceAs (Decidable ((checkData nowTime r.map blockStatus).1 = 0 → (listings ⟨blockStatus, txStatus⟩).Nodup))
  | (.addVerify .., _) | (.addLevel1 .., _) | (.expiredDelete .., _) | (.blockCheck .., _) | (.newbuild .., _) =>
    .isTrue trivial

/-- Only such a message is put into a list. -/
theorem ListsOnce.accepted {r : MessageRun} {a : MessageAction} (h : ListsOnce r a) {verifyNodesNumber : UInt32}
    {hash : Str} {v : BlockStatus} (hv : .accepted hash v ∈ (statusStep verifyNodesNumber r.map a.1).2) :
    (listings ⟨v, a.2⟩).Nodup := by
  have hopened : ∀ hash' nodes, StatusEvent.accepted hash v ∉ openedIfNew r.map hash' nodes := by
    intro hash' nodes hin
    rw [openedIfNew] at hin
    split_ifs at hin <;> simp at hin
  obtain ⟨action, txStatus⟩ := a
  cases action with
  | addVerify blockHash block verifyNodes => exact absurd hv (hopened _ _)
  | addLevel1 blockHash block level1Nodes =>
    simp only [statusStep] at hv
    split at hv <;> simp at hv
  | addStatus nowTime blockStatus =>
    simp only [statusStep, addBlockStatus] at hv
    split_ifs at hv with hret
    · cases hv
    · split at hv
      · cases hv
      · rcases List.mem_cons.mp hv with heq | hin
        · cases heq
          exact h (not_not.mp hret)
        · split_ifs at hin <;> simp at hin
  | expiredDelete nowTime => cases hv
  | blockCheck block => exact absurd hv (hopened _ _)
  | newbuild blockHash => exact absurd hv (hopened _ _)

/-- The messages in the lists are old ones and those that the events accept. -/
theorem mem_foldl_recordEvent {txStatus : List TxStatus} {hash : Str} {message : StatusMessage} :
    ∀ {events : List StatusEvent} {messages : Str → List StatusMessage},
      message ∈ events.foldl (recordEvent txStatus) messages hash →
        message ∈ messages hash ∨ ∃ hash' v, .accepted hash' v ∈ events ∧ message = ⟨v, txStatus⟩
  | [], _, h => .inl h
  | e :: events, messages, h => by
    rw [List.foldl_cons] at h
    rcases mem_foldl_recordEvent h with hin | ⟨hash', v, hv, heq⟩
    · cases e with
      | opened hash' broadcastType nodes =>
        simp only [recordEvent] at hin
        split_ifs at hin
        · cases hin
        · exact .inl hin
      | accepted hash' v =>
        simp only [recordEvent] at hin
        split_ifs at hin with hhash
        · rcases List.mem_append.mp hin with hold | hnew
          · exact .inl (hhash ▸ hold)
          · exact .inr ⟨hash', v, List.mem_cons_self, List.mem_singleton.mp hnew⟩
        · exact .inl hin
      | committed hash' => exact .inl hin
    · exact .inr ⟨hash', v, List.mem_cons_of_mem _ hv, heq⟩

/-- One step keeps the lists free of messages that list a transaction twice. -/
theorem once_step {verifyNodesNumber : UInt32} {r : MessageRun} {a : MessageAction} (ha : ListsOnce r a)
    (hr : ∀ hash, ∀ message ∈ r.messages hash, (listings message).Nodup) :
    ∀ hash, ∀ message ∈ (r.next verifyNodesNumber a).messages hash, (listings message).Nodup := by
  intro hash message hmessage
  rcases mem_foldl_recordEvent hmessage with hold | ⟨hash', v, hv, rfl⟩
  · exact hr hash message hold
  · exact ha.accepted hv

/-- In a run whose accepted messages list no transaction twice, a transaction of a tracked block is left out
    because of votes only where enough nodes report it. -/
theorem voted_out_by_enough {Vrf : Type} (m : NewbuildMeets Vrf) (verifyNodesNumber : UInt32)
    (actions : List MessageAction)
    (honce : EveryStep (MessageRun.next verifyNodesNumber) ListsOnce ⟨.empty, fun _ => []⟩ actions) :
    ∀ hash w, (messageRun verifyNodesNumber actions).map hash = some w →
      VotedOutByEnough m w ((messageRun verifyNodesNumber actions).messages hash) := by
  intro hash w hw
  have htracked := tracked_run verifyNodesNumber actions
  have hlists : ∀ hash, ∀ message ∈ (messageRun verifyNodesNumber actions).messages hash, (listings message).Nodup :=
    honce.invariant (P := fun r => ∀ hash, ∀ message ∈ r.messages hash, (listings message).Nodup)
      (fun _ _ => once_step) nofun
  refine votedOutByEnough_of_once m w _ ?_ (hlists hash)
  have hnodup := htracked.nodup hw
  rwa [htracked.list hw, List.map_map] at hnodup

/-- What a node meets that has no agents and no old transactions. -/
def plainNode : NewbuildMeets Unit :=
  ⟨fun _ => .tx, fun _ => 0, fun _ _ => .defalut, .empty, .empty, fun _ _ => ()⟩

/-- A transaction with the hash `t`. -/
def sampleTx : CTransaction := { CTransaction.cleared with hash := [116] }

/-- The block `b` of this transaction goes out to five nodes, and all of them complain. -/
def complaints (listed1 listed2 listed3 : List TxStatus) : List MessageAction :=
  [(.addVerify [98] { emptyBlock with txs := [sampleTx] } [[1], [2], [3], [4], [5]], []),
    (.addStatus 1 ⟨[98], -1, [1]⟩, listed1), (.addStatus 1 ⟨[98], -1, [2]⟩, listed2),
    (.addStatus 1 ⟨[98], -1, [3]⟩, listed3), (.addStatus 1 ⟨[98], -1, [4]⟩, []), (.addStatus 1 ⟨[98], -1, [5]⟩, [])]

/-- Three of the five list the transaction. -/
def agreed : List MessageAction := complaints [⟨[116], -66⟩] [⟨[116], -66⟩] [⟨[116], -66⟩]

/-- One of the five lists it three times, as a node does where three transactions of an older block conflict with it. -/
def repeated : List MessageAction := complaints [⟨[116], -99⟩, ⟨[116], -99⟩, ⟨[116], -99⟩] [] []

theorem voted_out_by_enough_agreed : ∃ w, (messageRun 5 agreed).map [98] = some w ∧
    (newbuildBlockByBlockStatus plainNode w ((messageRun 5 agreed).messages [98])).map Prod.snd = some [sampleTx] ∧
    failThreshold w ≤ (reportingNodes ((messageRun 5 agreed).messages [98]) sampleTx.hash).card := by
  have hout : ((messageRun 5 agreed).map [98]).bind (fun w => (newbuildBlockByBlockStatus plainNode w
      ((messageRun 5 agreed).messages [98])).map Prod.snd) = some [sampleTx] := by decide
  obtain ⟨w, hw, hout⟩ := Option.bind_eq_some_iff.mp hout
  obtain ⟨⟨contents, out⟩, hbuild, hsnd⟩ := Option.map_eq_some_iff.mp hout
  have hin : sampleTx ∈ out := (show out = [sampleTx] from hsnd) ▸ List.mem_singleton.mpr rfl
  exact ⟨w, hw, hout, voted_out_by_enough plainNode 5 agreed (by decide) [98] w hw contents out hbuild sampleTx hin⟩

/-- Where the one node lists it three times, it is left out with the report of a single node. -/
theorem repeated_listing_votes_out : ∃ w, (messageRun 5 repeated).map [98] = some w ∧
    ¬ VotedOutByEnough plainNode w ((messageRun 5 repeated).messages [98]) := by
  have hout : ((messageRun 5 repeated).map [98]).bind (fun w => (newbuildBlockByBlockStatus plainNode w
      ((messageRun 5 repeated).messages [98])).map Prod.snd) = some [sampleTx] := by decide
  have hthreshold : ((messageRun 5 repeated).map [98]).map failThreshold = some 3 := by decide
  have hnodes : (reportingNodes ((messageRun 5 repeated).messages [98]) sampleTx.hash).card = 1 := by decide
  obtain ⟨w, hw, hout⟩ := Option.bind_eq_some_iff.mp hout
  obtain ⟨⟨contents, out⟩, hbuild, hsnd⟩ := Option.map_eq_some_iff.mp hout
  have hin : sampleTx ∈ out := (show out = [sampleTx] from hsnd) ▸ List.mem_singleton.mpr rfl
  rw [hw, Option.map_some, Option.some_inj] at hthreshold
  refine ⟨w, hw, fun henough => ?_⟩
  have hle := henough contents out hbuild sampleTx hin
  rw [hthreshold, hnodes] at hle
  omega

end Tfs.Ca.NewBlock
