import Tfs.Ca.GroupData

/-! The dispatcher thread (`ContractDispatcher::_DispatcherProcessingFunc` in `ca/dispatchtx.cpp`).

    Other threads put a transaction's dependencies and its message into two caches, each under a lock
    of its own. The dispatcher waits, groups what is in the caches (without a lock), looks for a
    packager for each group, sends the groups that have one, and clears both caches. All of these are
    separate steps, so a transaction may arrive at any point between them, and the clearing takes away
    what was not sent as well. Below, a transaction survives exactly when every clearing that finds it
    in a cache comes after it was sent. -/

namespace Tfs.Ca

/-! ### One round -/

/-- What `FindContractPackNode` gives back when it returns zero. -/
structure PackNode where
  packAddr : String
  vrf : String
  nodelist : List String
  deriving DecidableEq, Repr

/-- `ContractDispatcher::msgInfo`. -/
structure MsgInfo where
  txMsgReq : List TxMsgReq
  nodelist : List String
  info : String
  deriving DecidableEq

/-- The answers `FindContractPackNode` gives in a round, to its n-th call with the given input. -/
abbrev PackNodes := ℕ → String → Option PackNode

/-- What the dispatcher takes from elsewhere. -/
structure DispatcherEnv where
  /-- whether `CTransaction::ParseFromString` succeeds -/
  parseFromString : String → Bool
  /-- `Getsha256hash` -/
  getsha256hash : String → String
  /-- the iteration order of `_contractDependentCache` -/
  order : DependentCache → DependentCache
  order_perm : ∀ cache, (order cache).entries.Perm cache.entries

/-- `distribution.insert`: a `std::multimap` puts an item behind those of smaller or equal key. -/
def insertItem (item : String × MsgInfo) : List (String × MsgInfo) → List (String × MsgInfo)
  | [] => [item]
  | next :: rest => if item.1 < next.1 then item :: next :: rest else next :: insertItem item rest

section Round
variable (env : DispatcherEnv) (findContractPackNode : PackNodes)

/-- The input of the search for a packager: the hash of the group's transaction hashes. -/
def vrfInput (txMsgContainer : List TxMsgReq) : String :=
  env.getsha256hash (txMsgContainer.foldl (fun contractHash txMsg => contractHash ++ txMsg.hash) "")

/-- The loop of `DistributionContractTx`, from the n-th group on. -/
def distributeFrom (n : ℕ) (groupedData : List (List TxMsgReq)) (distribution : List (String × MsgInfo)) :
    Except ℤ (List (String × MsgInfo)) :=
  match groupedData with
  | [] => .ok distribution
  | txMsgContainer :: rest =>
    if txMsgContainer.all fun txMsg => env.parseFromString txMsg.tx then
      match findContractPackNode n (vrfInput env txMsgContainer) with
      | none => distributeFrom (n + 1) rest distribution
      | some node => distributeFrom (n + 1) rest
        (insertItem (node.packAddr, ⟨txMsgContainer, node.nodelist, node.vrf⟩) distribution)
    else .error (-3)

/-- `ContractDispatcher::DistributionContractTx` after `GetDependentData`. -/
def distributionContractTx (dependentData : List (List TxMsgReq)) :
    Except ℤ (List (String × MsgInfo)) :=
  if dependentData = [] then .error (-1)
  else if groupDependentData dependentData = [] then .error (-2)
  else match distributeFrom env findContractPackNode 0 (groupDependentData dependentData) [] with
    | .error ret => .error ret
    | .ok distribution => if distribution = [] then .error (-4) else .ok distribution

end Round

/-! ### The threads -/

/-- Where the dispatcher thread stands in its loop. -/
inductive Phase where
  /-- before the test whether `_contractDependentCache` is empty -/
  | check
  /-- before the test of the time -/
  | timer
  /-- before the grouping loop of `GetDependentData` -/
  | group
  /-- in its second loop: the hashes still to look up, the messages of the current group, the groups
      done -/
  | collect (hashes : List (List String)) (messageVec : List TxMsgReq)
      (groupedTxMsg : List (List TxMsgReq))
  /-- `GetDependentData` has returned -/
  | distribute (dependentData : List (List TxMsgReq))
  /-- the items of `distribution` still to send -/
  | send (distribution : List (String × MsgInfo))
  /-- before the caches are cleared -/
  | clear
  deriving DecidableEq

/-- `ContractDispatcher`, with the thread's local `timeBaseline`, the point it has reached, and all it
    has passed to `SendTxInfoToPackager`. -/
structure Dispatcher where
  contractDependentCache : DependentCache
  contractMsgReqCache : StdMap String TxMsgReq
  timeValue : UInt64
  isFirst : Bool
  timeBaseline : UInt64
  phase : Phase
  sent : List (String × MsgInfo)

/-- `_contractDependentCache.insert`: a hash that is there keeps its dependencies. -/
def DependentCache.insert (cache : DependentCache) (contractHash : String)
    (dependentContracts : List String) : DependentCache :=
  if h : contractHash ∈ cache.entries.map Prod.fst then cache
  else ⟨cache.entries ++ [(contractHash, dependentContracts)], by
    rw [List.map_append, List.nodup_append]
    refine ⟨cache.nodup, List.nodup_singleton _, ?_⟩
    intro a ha b hb hab
    obtain rfl : b = contractHash := List.mem_singleton.mp hb
    exact h (hab ▸ ha)⟩

/-- The cache without entries. -/
def DependentCache.empty : DependentCache := ⟨[], List.nodup_nil⟩

/-- `_contractMsgReqCache.insert`. -/
def insertMsg (cache : StdMap String TxMsgReq) (contractHash : String) (txmsg : TxMsgReq) :
    StdMap String TxMsgReq :=
  if (cache contractHash).isSome then cache else cache.set contractHash txmsg

/-- `GetTheTimestampPerUnitOfTime`. -/
@[irreducible] def timestampPerUnitOfTime (utcTime : UInt64) : UInt64 := utcTime / 3000000 * 3000000

/-- `_contractWaitingTime`. -/
@[irreducible] def contractWaitingTime : UInt64 := 3000000

/-- A step of some thread. -/
inductive DispatchAction where
  | addContractInfo (contractHash : String) (dependentContracts : List String)
  | addContractMsgReq (contractHash : String) (txmsg : TxMsgReq)
  | setValue (newValue : UInt64)
  /-- the dispatcher thread goes on; a round takes its packagers from `findContractPackNode` -/
  | dispatch (findContractPackNode : PackNodes)

namespace Dispatcher
variable (env : DispatcherEnv)

/-- `timeBaseline`, set on the first pass after a round. -/
def baseline (s : Dispatcher) : UInt64 :=
  if s.timeBaseline = 0 then timestampPerUnitOfTime s.timeValue else s.timeBaseline

/-- The test of the time: a round begins, or the thread waits on. -/
def timerStep (s : Dispatcher) : Dispatcher :=
  if s.timeValue ≥ s.baseline + contractWaitingTime then
    { s with timeBaseline := s.baseline, phase := .group }
  else
    { s with timeBaseline := s.baseline, timeValue := s.timeValue + 1000000, phase := .check }

/-- The next step of `_DispatcherProcessingFunc`, by the point the thread has reached. -/
def stepFrom (findContractPackNode : PackNodes) (s : Dispatcher) : Phase → Dispatcher
  | .check => if s.contractDependentCache.entries = [] then s else { s with phase := .timer }
  | .timer => s.timerStep
  | .group =>
    let groups := groupedDependencies (env.order s.contractDependentCache)
    { s with phase := .collect (groups.map fun g => g.sort (· ≤ ·)) [] [] }
  | .collect [] _ groupedTxMsg => { s with phase := .distribute groupedTxMsg }
  | .collect ([] :: rest) messageVec groupedTxMsg =>
    let groupedTxMsg := if messageVec.length ≠ 0 then groupedTxMsg ++ [messageVec] else groupedTxMsg
    { s with phase := .collect rest [] groupedTxMsg }
  | .collect ((hash :: hashes) :: rest) messageVec groupedTxMsg =>
    let messageVec := messageVec ++ (s.contractMsgReqCache hash).toList
    { s with phase := .collect (hashes :: rest) messageVec groupedTxMsg }
  | .distribute dependentData =>
    match distributionContractTx env findContractPackNode dependentData with
    | .error _ => { s with phase := .check }
    | .ok distribution => { s with phase := .send distribution }
  | .send [] => { s with phase := .clear }
  | .send (item :: rest) => { s with sent := s.sent ++ [item], phase := .send rest }
  | .clear =>
    { s with
      contractMsgReqCache := .empty
      contractDependentCache := .empty
      timeBaseline := 0
      timeValue := 0
      isFirst := false
      phase := .check }

/-- One step of some thread. -/
def step (s : Dispatcher) : DispatchAction → Dispatcher
  | .addContractInfo contractHash dependentContracts =>
    { s with contractDependentCache :=
        s.contractDependentCache.insert contractHash dependentContracts }
  | .addContractMsgReq contractHash txmsg =>
    { s with contractMsgReqCache := insertMsg s.contractMsgReqCache contractHash txmsg }
  | .setValue newValue => if s.isFirst then s else { s with timeValue := newValue, isFirst := true }
  | .dispatch findContractPackNode => s.stepFrom env findContractPackNode s.phase

/-- Steps in the order they happen. -/
def run (s : Dispatcher) (actions : List DispatchAction) : Dispatcher := actions.foldl (step env) s

/-- The dispatcher at its start; `timeValue` has no initial value. -/
def start (timeValue : UInt64) : Dispatcher :=
  ⟨.empty, .empty, timeValue, false, 0, .check, []⟩

end Dispatcher

/-! ### What becomes of one transaction -/

/-- The two caches. -/
inductive CacheKind where
  | dependent
  | message
  deriving DecidableEq, Repr

/-- The call that puts the transaction into the cache. -/
def DispatchAction.Adds (a : DispatchAction) (c : CacheKind) (hash : String) : Prop :=
  match c with
  | .dependent => ∃ dependentContracts, a = .addContractInfo hash dependentContracts
  | .message => ∃ txmsg, a = .addContractMsgReq hash txmsg

/-- The call has been made. -/
def Added (actions : List DispatchAction) (c : CacheKind) (hash : String) : Prop :=
  ∃ a ∈ actions, a.Adds c hash

/-- The messages carry the transaction. -/
def Mentions (hash : String) (msgs : List TxMsgReq) : Prop := ∃ m ∈ msgs, m.hash = hash

instance (hash : String) (msgs : List TxMsgReq) : Decidable (Mentions hash msgs) :=
  inferInstanceAs (Decidable (∃ m ∈ msgs, m.hash = hash))

namespace Dispatcher

/-- The transaction is in the cache. -/
def Has (s : Dispatcher) (c : CacheKind) (hash : String) : Prop :=
  match c with
  | .dependent => hash ∈ s.contractDependentCache.entries.map Prod.fst
  | .message => s.contractMsgReqCache hash ≠ none

/-- The transaction is in a message passed to `SendTxInfoToPackager`. -/
def WasSent (s : Dispatcher) (hash : String) : Prop :=
  ∃ item ∈ s.sent, Mentions hash item.2.txMsgReq

/-- The step clears the caches. -/
def Clears (s : Dispatcher) (a : DispatchAction) : Prop :=
  s.phase = .clear ∧ ∃ findContractPackNode, a = .dispatch findContractPackNode

variable (env : DispatcherEnv)

/-- A packager is found for a group with the transaction, from the n-th group on. -/
def placedFrom (findContractPackNode : PackNodes) (hash : String) :
    ℕ → List (List TxMsgReq) → Bool
  | _, [] => false
  | n, txMsgContainer :: rest =>
    (Mentions hash txMsgContainer ∧ (findContractPackNode n (vrfInput env txMsgContainer)).isSome) ||
      placedFrom findContractPackNode hash (n + 1) rest

/-- Whether the current round has placed the transaction, after one more step: nothing is placed when
    the caches are read, and the search for packagers decides. -/
def placedStep (hash : String) (s : Dispatcher) (placed : Bool) : DispatchAction → Bool
  | .dispatch findContractPackNode =>
    match s.phase with
    | .group => false
    | .distribute dependentData =>
      placedFrom env findContractPackNode hash 0 (groupDependentData dependentData)
    | _ => placed
  | _ => placed

/-- The same along a run. -/
def placed (hash : String) (s : Dispatcher) (actions : List DispatchAction) : Bool :=
  (actions.foldl (fun w a => (w.1.step env a, w.1.placedStep env hash w.2 a)) (s, false)).2

/-- At every moment after both calls, the transaction is in both caches or was sent. -/
def Kept (s : Dispatcher) (actions : List DispatchAction) (hash : String) : Prop :=
  ∀ pre post, actions = pre ++ post → (∀ c, Added pre c hash) →
    (∀ c, (s.run env pre).Has c hash) ∨ (s.run env pre).WasSent hash

/-- Whenever the caches are cleared with the transaction in one of them, the round has placed it. -/
def ClearedWhenPlaced (s : Dispatcher) (actions : List DispatchAction) (hash : String) : Prop :=
  ∀ pre a post c, actions = pre ++ a :: post → (s.run env pre).Clears a →
    (s.run env pre).Has c hash → placed env hash s pre = true

end Dispatcher

/-- Both calls are made, and neither is made twice. -/
structure AddedOnce (actions : List DispatchAction) (hash : String) : Prop where
  added : ∀ c, Added actions c hash
  once : ∀ c pre a post, actions = pre ++ a :: post → a.Adds c hash → ¬ Added pre c hash

/-! ### Grouping and distributing lose nothing -/

theorem mem_insertItem {item x : String × MsgInfo} : ∀ {l : List (String × MsgInfo)},
    x ∈ insertItem item l ↔ x = item ∨ x ∈ l
  | [] => by simp [insertItem]
  | next :: rest => by
    rw [insertItem]
    split
    · simp
    · rw [List.mem_cons, List.mem_cons, mem_insertItem]
      exact or_left_comm

/-- A distribution carries the transaction when it was placed, or there before. -/
theorem distributeFrom_mentions {env : DispatcherEnv} {find : PackNodes} {hash : String} :
    ∀ {gs : List (List TxMsgReq)} {n : ℕ} {d d' : List (String × MsgInfo)},
      distributeFrom env find n gs d = .ok d' →
      ((∃ item ∈ d', Mentions hash item.2.txMsgReq) ↔
        (∃ item ∈ d, Mentions hash item.2.txMsgReq) ∨ Dispatcher.placedFrom env find hash n gs = true)
  | [], n, d, d', hd => by
    cases hd
    simp [Dispatcher.placedFrom]
  | g :: gs, n, d, d', hd => by
    rw [distributeFrom] at hd
    split at hd
    · cases hf : find n (vrfInput env g) with
      | none =>
        rw [hf] at hd
        rw [distributeFrom_mentions hd, Dispatcher.placedFrom, hf]
        simp
      | some node =>
        rw [hf] at hd
        rw [distributeFrom_mentions hd, Dispatcher.placedFrom, hf]
        simp only [mem_insertItem, exists_eq_or_imp, Option.isSome_some, and_true, Bool.or_eq_true,
          decide_eq_true_eq]
        exact or_assoc.trans or_left_comm
    · cases hd

/-- What is sent comes from the groups. -/
theorem mentions_of_placedFrom {env : DispatcherEnv} {find : PackNodes} {hash : String} :
    ∀ {gs : List (List TxMsgReq)} {n : ℕ}, Dispatcher.placedFrom env find hash n gs = true →
      Mentions hash gs.flatten
  | g :: gs, n, h => by
    simp only [Dispatcher.placedFrom, Bool.or_eq_true, decide_eq_true_eq] at h
    rcases h with ⟨⟨m, hm, hh⟩, -⟩ | h
    · exact ⟨m, List.mem_append_left _ hm, hh⟩
    · obtain ⟨m, hm, hh⟩ := mentions_of_placedFrom h
      exact ⟨m, List.mem_append_right _ hm, hh⟩

/-! ### One step -/

namespace Dispatcher

theorem mem_insert_iff (cache : DependentCache) (x hash : String) (deps : List String) :
    hash ∈ (cache.insert x deps).entries.map Prod.fst ↔
      hash = x ∨ hash ∈ cache.entries.map Prod.fst := by
  rw [DependentCache.insert]
  split
  · rename_i hx
    exact ⟨.inr, fun h => h.elim (fun he => he ▸ hx) id⟩
  · rw [List.map_append, List.mem_append, or_comm]
    simp

theorem insertMsg_eq_some {cache : StdMap String TxMsgReq} {x hash : String} {txmsg m : TxMsgReq}
    (h : insertMsg cache x txmsg hash = some m) : hash = x ∧ m = txmsg ∨ cache hash = some m := by
  rw [insertMsg] at h
  split at h
  · exact .inr h
  · by_cases hx : hash = x
    · subst hx
      rw [StdMap.set_self] at h
      exact .inl ⟨rfl, (Option.some.inj h).symm⟩
    · rw [StdMap.set_ne _ _ hx] at h
      exact .inr h

theorem insertMsg_ne_none {cache : StdMap String TxMsgReq} {x hash : String} {txmsg : TxMsgReq} :
    insertMsg cache x txmsg hash ≠ none ↔ hash = x ∨ cache hash ≠ none := by
  rw [insertMsg]
  split
  · rename_i hx
    refine ⟨.inr, fun h => h.elim (fun he => ?_) id⟩
    rw [he]
    exact Option.isSome_iff_ne_none.mp hx
  · by_cases hx : hash = x
    · simp [hx]
    · simp [hx, StdMap.set_ne]

variable {env : DispatcherEnv} {hash : String} {s : Dispatcher}

/-- The test of the time touches the time and the phase only. -/
theorem timerStep_frame (s : Dispatcher) :
    s.timerStep.contractDependentCache = s.contractDependentCache ∧
      s.timerStep.contractMsgReqCache = s.contractMsgReqCache ∧ s.timerStep.sent = s.sent := by
  rw [timerStep]
  split <;> exact ⟨rfl, rfl, rfl⟩

theorem timerStep_phase (s : Dispatcher) : s.timerStep.phase = .check ∨ s.timerStep.phase = .group := by
  rw [timerStep]
  split
  · exact .inr rfl
  · exact .inl rfl

/-- The dispatcher thread leaves the caches alone until it clears them. -/
theorem stepFrom_caches (find : PackNodes) : ∀ p : Phase, p ≠ .clear →
    (s.stepFrom env find p).contractDependentCache = s.contractDependentCache ∧
      (s.stepFrom env find p).contractMsgReqCache = s.contractMsgReqCache
  | .check, _ => by
    rw [stepFrom]
    split <;> exact ⟨rfl, rfl⟩
  | .timer, _ => ⟨s.timerStep_frame.1, s.timerStep_frame.2.1⟩
  | .group, _ => ⟨rfl, rfl⟩
  | .collect [] _ _, _ => ⟨rfl, rfl⟩
  | .collect ([] :: _) _ _, _ => ⟨rfl, rfl⟩
  | .collect ((_ :: _) :: _) _ _, _ => ⟨rfl, rfl⟩
  | .distribute _, _ => by
    rw [stepFrom]
    split <;> exact ⟨rfl, rfl⟩
  | .send [], _ => ⟨rfl, rfl⟩
  | .send (_ :: _), _ => ⟨rfl, rfl⟩
  | .clear, hp => absurd rfl hp

theorem adds_dependent {a : DispatchAction} {x : String} {deps : List String}
    (ha : a = .addContractInfo x deps) : a.Adds .dependent hash ↔ hash = x := by
  subst ha
  refine ⟨?_, fun h => ⟨deps, by rw [h]⟩⟩
  rintro ⟨_, h⟩
  cases h
  rfl

theorem adds_message {a : DispatchAction} {x : String} {txmsg : TxMsgReq}
    (ha : a = .addContractMsgReq x txmsg) : a.Adds .message hash ↔ hash = x := by
  subst ha
  refine ⟨?_, fun h => ⟨txmsg, by rw [h]⟩⟩
  rintro ⟨_, h⟩
  cases h
  rfl

/-- A transaction is in a cache when it has just been added, or was there and is not cleared away. -/
theorem has_step (a : DispatchAction) (c : CacheKind) :
    (s.step env a).Has c hash ↔ a.Adds c hash ∨ s.Has c hash ∧ ¬ s.Clears a := by
  cases a with
  | addContractInfo x deps =>
    have hno : ¬ s.Clears (.addContractInfo x deps) := fun h => nomatch h.2
    rw [and_iff_left hno]
    cases c with
    | dependent =>
      rw [adds_dependent rfl]
      exact mem_insert_iff s.contractDependentCache x hash deps
    | message => exact (or_iff_right fun h => nomatch h).symm
  | addContractMsgReq x txmsg =>
    have hno : ¬ s.Clears (.addContractMsgReq x txmsg) := fun h => nomatch h.2
    rw [and_iff_left hno]
    cases c with
    | dependent => exact (or_iff_right fun h => nomatch h).symm
    | message =>
      rw [adds_message rfl]
      exact insertMsg_ne_none
  | setValue v =>
    have hno : ¬ s.Clears (.setValue v) := fun h => nomatch h.2
    have hadds : ¬ (DispatchAction.setValue v).Adds c hash := by
      cases c <;> exact fun h => nomatch h
    rw [and_iff_left hno, or_iff_right hadds, step]
    split
    · exact Iff.rfl
    · cases c <;> exact Iff.rfl
  | dispatch find =>
    have hadds : ¬ (DispatchAction.dispatch find).Adds c hash := by
      cases c <;> exact fun h => nomatch h
    rw [or_iff_right hadds, step]
    by_cases hp : s.phase = .clear
    · have hyes : s.Clears (.dispatch find) := ⟨hp, find, rfl⟩
      rw [hp]
      refine ⟨fun h => ?_, fun h => absurd hyes h.2⟩
      cases c with
      | dependent => cases h
      | message => exact absurd rfl h
    · have hno : ¬ s.Clears (.dispatch find) := fun h => hp h.1
      obtain ⟨hdep, hmsg⟩ := @stepFrom_caches env s find s.phase hp
      rw [and_iff_left hno]
      cases c with
      | dependent => rw [Has, Has, hdep]
      | message => rw [Has, Has, hmsg]

/-- Only the sending loop sends. -/
theorem stepFrom_sent (find : PackNodes) : ∀ p : Phase,
    (∃ item rest, p = .send (item :: rest) ∧ (s.stepFrom env find p).sent = s.sent ++ [item]) ∨
      (∀ item rest, p ≠ .send (item :: rest)) ∧ (s.stepFrom env find p).sent = s.sent
  | .check => by
    right
    rw [stepFrom]
    split <;> exact ⟨nofun, rfl⟩
  | .timer => .inr ⟨nofun, s.timerStep_frame.2.2⟩
  | .group => .inr ⟨nofun, rfl⟩
  | .collect [] _ _ => .inr ⟨nofun, rfl⟩
  | .collect ([] :: _) _ _ => .inr ⟨nofun, rfl⟩
  | .collect ((_ :: _) :: _) _ _ => .inr ⟨nofun, rfl⟩
  | .distribute _ => by
    right
    rw [stepFrom]
    split <;> exact ⟨nofun, rfl⟩
  | .send [] => .inr ⟨nofun, rfl⟩
  | .send (item :: rest) => .inl ⟨item, rest, rfl, rfl⟩
  | .clear => .inr ⟨nofun, rfl⟩

theorem step_sent (a : DispatchAction) :
    (∃ item rest, s.phase = .send (item :: rest) ∧ (s.step env a).sent = s.sent ++ [item]
      ∧ ∃ find, a = .dispatch find) ∨ (s.step env a).sent = s.sent := by
  cases a with
  | addContractInfo x deps => exact .inr rfl
  | addContractMsgReq x txmsg => exact .inr rfl
  | setValue v =>
    right
    rw [step]
    split <;> rfl
  | dispatch find =>
    rcases @stepFrom_sent env s find s.phase with ⟨item, rest, hp, hsent⟩ | ⟨-, hsent⟩
    · exact .inl ⟨item, rest, hp, hsent, find, rfl⟩
    · exact .inr hsent

theorem wasSent_append {s' : Dispatcher} {item : String × MsgInfo} (h : s'.sent = s.sent ++ [item]) :
    s'.WasSent hash ↔ s.WasSent hash ∨ Mentions hash item.2.txMsgReq := by
  simp only [WasSent, h, List.mem_append, List.mem_singleton, or_and_right, exists_or, exists_eq_left]

theorem wasSent_congr {s' : Dispatcher} (h : s'.sent = s.sent) :
    s'.WasSent hash ↔ s.WasSent hash := by
  rw [WasSent, WasSent, h]

/-- What was sent stays sent. -/
theorem WasSent.step {a : DispatchAction} (h : s.WasSent hash) : (s.step env a).WasSent hash := by
  rcases @step_sent env s a with ⟨item, rest, -, hsent, -⟩ | hsent
  · exact (wasSent_append hsent).mpr (.inl h)
  · exact (wasSent_congr hsent).mpr h

/-! ### The reading of a quiet round -/

theorem push_group (groupedTxMsg rest : List (List TxMsgReq)) (messageVec : List TxMsgReq) :
    (if messageVec.length ≠ 0 then groupedTxMsg ++ [messageVec] else groupedTxMsg) ++
        rest.filter (fun messageVec => messageVec.length != 0)
      = groupedTxMsg ++ (messageVec :: rest).filter fun messageVec => messageVec.length != 0 := by
  cases messageVec <;> simp

/-- The lookups alone, from the current group on. -/
theorem run_collect (find : PackNodes) (s : Dispatcher) : ∀ (rest : List (List String)) (l : List String)
    (messageVec : List TxMsgReq) (groupedTxMsg : List (List TxMsgReq)), ∃ n,
      run env { s with phase := .collect (l :: rest) messageVec groupedTxMsg }
        (List.replicate n (.dispatch find))
        = { s with phase := .distribute (groupedTxMsg ++
            ((messageVec ++ l.filterMap s.contractMsgReqCache) ::
              rest.map fun l => l.filterMap s.contractMsgReqCache).filter
                fun messageVec => messageVec.length != 0) }
  | [], [], messageVec, groupedTxMsg => by
    refine ⟨2, ?_⟩
    rw [List.filterMap_nil, List.append_nil, List.map_nil, ← push_group, List.filter_nil,
      List.append_nil]
    rfl
  | l' :: rest, [], messageVec, groupedTxMsg => by
    obtain ⟨n, hn⟩ := run_collect find s rest l' []
      (if messageVec.length ≠ 0 then groupedTxMsg ++ [messageVec] else groupedTxMsg)
    refine ⟨n + 1, ?_⟩
    rw [List.filterMap_nil, List.append_nil, List.map_cons, ← push_group]
    exact hn
  | rest, hash :: l, messageVec, groupedTxMsg => by
    obtain ⟨n, hn⟩ := run_collect find s rest l
      (messageVec ++ (s.contractMsgReqCache hash).toList) groupedTxMsg
    refine ⟨n + 1, hn.trans ?_⟩
    have hfirst : messageVec ++ (s.contractMsgReqCache hash).toList ++ l.filterMap s.contractMsgReqCache
        = messageVec ++ (hash :: l).filterMap s.contractMsgReqCache := by
      cases hm : s.contractMsgReqCache hash <;> simp [hm]
    rw [hfirst]
  termination_by rest l => (rest.length, l.length)

/-- When no other thread comes between, the reading steps give what `GetDependentData` computes from
    the caches. -/
theorem run_group (find : PackNodes) (s : Dispatcher) (hp : s.phase = .group) : ∃ n,
    s.run env (List.replicate n (.dispatch find)) = { s with
      phase := .distribute
        (getDependentData (env.order s.contractDependentCache) s.contractMsgReqCache) } := by
  have hfirst : s.step env (.dispatch find) = { s with
      phase := .collect ((groupedDependencies (env.order s.contractDependentCache)).map
        fun g => g.sort (· ≤ ·)) [] [] } := by
    rw [step, hp]
    rfl
  rw [getDependentData]
  cases hg : groupedDependencies (env.order s.contractDependentCache) with
  | nil =>
    refine ⟨2, ?_⟩
    rw [hg] at hfirst
    rw [run, List.replicate_succ, List.foldl_cons, hfirst]
    rfl
  | cons g gs =>
    obtain ⟨n, hn⟩ := @run_collect env find s (gs.map fun g => g.sort (· ≤ ·)) (g.sort (· ≤ ·)) [] []
    refine ⟨n + 1, ?_⟩
    rw [hg] at hfirst
    rw [run, List.replicate_succ, List.foldl_cons, hfirst]
    simpa [Function.comp_def, run] using hn

/-! ### Where the messages of a round come from -/

theorem added_concat {actions : List DispatchAction} {a : DispatchAction} {c : CacheKind} :
    Added (actions ++ [a]) c hash ↔ Added actions c hash ∨ a.Adds c hash := by
  simp only [Added, List.mem_append, List.mem_singleton, or_and_right, exists_or, exists_eq_left]

/-- What is known at each point of a round: a transaction that is about to be sent has been added by
    both calls and was placed; one that was placed is about to be sent, or was. -/
def PhaseInv (hash : String) (actions : List DispatchAction) (placed : Bool) (s : Dispatcher) :
    Phase → Prop
  | .collect hashes messageVec groupedTxMsg =>
    (hash ∈ hashes.flatten → Added actions .dependent hash) ∧
      (Mentions hash (messageVec ++ groupedTxMsg.flatten) → ∀ c, Added actions c hash)
  | .distribute dependentData => Mentions hash dependentData.flatten → ∀ c, Added actions c hash
  | .send distribution =>
    ((∃ item ∈ distribution, Mentions hash item.2.txMsgReq) →
      placed = true ∧ ∀ c, Added actions c hash) ∧
      (placed = true → (∃ item ∈ distribution, Mentions hash item.2.txMsgReq) ∨ s.WasSent hash)
  | .clear => placed = true → s.WasSent hash
  | _ => True

/-- The invariant of a run, for one transaction. -/
structure RunInv (hash : String) (actions : List DispatchAction) (placed : Bool) (s : Dispatcher) :
    Prop where
  message : ∀ x m, s.contractMsgReqCache x = some m → m.hash = x
  has : ∀ c, s.Has c hash → Added actions c hash
  sent : s.WasSent hash → ∀ c, Added actions c hash
  phase : PhaseInv hash actions placed s s.phase

theorem PhaseInv.weaken {actions : List DispatchAction} {a : DispatchAction} {placed : Bool}
    {s' : Dispatcher} {p : Phase} (h : PhaseInv hash actions placed s p)
    (hsent : s'.sent = s.sent) : PhaseInv hash (actions ++ [a]) placed s' p := by
  have hadd : ∀ c, Added actions c hash → Added (actions ++ [a]) c hash :=
    fun c hc => added_concat.mpr (.inl hc)
  cases p with
  | collect hashes messageVec groupedTxMsg =>
    exact ⟨fun hm => hadd _ (h.1 hm), fun hm c => hadd c (h.2 hm c)⟩
  | distribute dependentData => exact fun hm c => hadd c (h hm c)
  | send distribution =>
    refine ⟨fun hm => ⟨(h.1 hm).1, fun c => hadd c ((h.1 hm).2 c)⟩, fun hp => ?_⟩
    rw [wasSent_congr hsent]
    exact h.2 hp
  | clear => exact fun hp => (wasSent_congr hsent).mpr (h hp)
  | check => trivial
  | timer => trivial
  | group => trivial

theorem mentions_append {l l' : List TxMsgReq} :
    Mentions hash (l ++ l') ↔ Mentions hash l ∨ Mentions hash l' := by
  simp only [Mentions, List.mem_append, or_and_right, exists_or]

/-- A transaction in a group has its dependencies in the cache. -/
theorem has_of_mem_groups (hm : hash ∈ ((groupedDependencies (env.order s.contractDependentCache)).map
    fun g => g.sort (· ≤ ·)).flatten) : s.Has .dependent hash := by
  obtain ⟨l, hl, hmem⟩ := List.mem_flatten.mp hm
  obtain ⟨g, hg, rfl⟩ := List.mem_map.mp hl
  obtain ⟨e, he, rfl⟩ := exists_of_mem_group _ hg ((Finset.mem_sort _).mp hmem)
  exact List.mem_map_of_mem ((env.order_perm _).mem_iff.mp he)

/-- A distribution is what the loop over the groups left. -/
theorem distributionContractTx_ok {find : PackNodes} {d : List (List TxMsgReq)}
    {distribution : List (String × MsgInfo)}
    (h : distributionContractTx env find d = .ok distribution) :
    distributeFrom env find 0 (groupDependentData d) [] = .ok distribution := by
  rw [distributionContractTx] at h
  split at h
  · cases h
  split at h
  · cases h
  split at h
  · cases h
  · rename_i d' hd
    split at h
    · cases h
    · cases h
      exact hd

variable {actions : List DispatchAction} {b : Bool}

/-- Between rounds there is nothing to know. -/
theorem phaseInv_between {s' : Dispatcher} (h : s'.phase = .check ∨ s'.phase = .group) :
    PhaseInv hash actions b s' s'.phase := by
  rcases h with h | h <;> rw [h] <;> exact True.intro

/-- One step of the dispatcher thread keeps what is known. -/
theorem RunInv.stepFrom (find : PackNodes) (hinv : RunInv hash actions b s) :
    PhaseInv hash actions (s.placedStep env hash b (.dispatch find))
      (s.stepFrom env find s.phase) (s.stepFrom env find s.phase).phase := by
  have hphase := hinv.phase
  simp only [placedStep]
  cases hp : s.phase with
  | check =>
    rw [Dispatcher.stepFrom]
    by_cases hempty : s.contractDependentCache.entries = []
    · rw [if_pos hempty, hp]
      exact True.intro
    · rw [if_neg hempty]
      exact True.intro
  | timer =>
    exact phaseInv_between s.timerStep_phase
  | group => exact ⟨fun hm => hinv.has _ (has_of_mem_groups hm), nofun⟩
  | collect hashes messageVec groupedTxMsg =>
    rw [hp] at hphase
    match hashes, hphase with
    | [], hphase => exact fun hm => hphase.2 (mentions_append.mpr (.inr hm))
    | [] :: rest, hphase =>
      refine ⟨hphase.1, fun hm => hphase.2 ?_⟩
      split at hm
      · rw [List.nil_append, List.flatten_append, List.flatten_singleton, mentions_append] at hm
        exact mentions_append.mpr hm.symm
      · exact mentions_append.mpr (.inr hm)
    | (x :: xs) :: rest, hphase =>
      refine ⟨fun hm => hphase.1 (List.mem_cons_of_mem _ hm), fun hm => ?_⟩
      rw [mentions_append, mentions_append] at hm
      rcases hm with (hm | ⟨m, hm, rfl⟩) | hm
      · exact hphase.2 (mentions_append.mpr (.inl hm))
      · -- the message just looked up: both caches had the transaction
        have hx : s.contractMsgReqCache x = some m := Option.mem_toList.mp hm
        obtain rfl := hinv.message x m hx
        intro c
        cases c with
        | dependent => exact hphase.1 List.mem_cons_self
        | message => exact hinv.has .message (by rw [Has, hx]; nofun)
      · exact hphase.2 (mentions_append.mpr (.inr hm))
  | distribute dependentData =>
    rw [hp] at hphase
    rw [Dispatcher.stepFrom]
    cases hd : distributionContractTx env find dependentData with
    | error ret => exact True.intro
    | ok distribution =>
      have hiff := @distributeFrom_mentions env find hash _ _ _ _ (distributionContractTx_ok hd)
      simp only [List.not_mem_nil, false_and, exists_false, false_or] at hiff
      refine ⟨fun hm => ?_, fun hpl => .inl (hiff.mpr hpl)⟩
      have hpl := hiff.mp hm
      obtain ⟨m, hmem, hhash⟩ := mentions_of_placedFrom hpl
      exact ⟨hpl, hphase ⟨m, groupDependentData_subset dependentData hmem, hhash⟩⟩
  | send distribution =>
    rw [hp] at hphase
    cases distribution with
    | nil => exact fun hpl => (hphase.2 hpl).resolve_left nofun
    | cons item rest =>
      obtain ⟨hsend, hplaced⟩ := hphase
      refine ⟨fun ⟨i, hi, hm⟩ => hsend ⟨i, List.mem_cons_of_mem _ hi, hm⟩, fun hpl => ?_⟩
      rw [wasSent_append (s := s) rfl]
      rcases hplaced hpl with ⟨i, hi, hm⟩ | hsent
      · rcases List.mem_cons.mp hi with rfl | hi
        · exact .inr (.inr hm)
        · exact .inl ⟨i, hi, hm⟩
      · exact .inr (.inl hsent)
  | clear => exact True.intro

/-- The message that a call adds is that of the transaction it names. -/
def Named (a : DispatchAction) : Prop := ∀ x m, a = .addContractMsgReq x m → m.hash = x

/-- One step of any thread keeps the invariant. -/
theorem RunInv.step {a : DispatchAction} (ha : Named a) (hinv : RunInv hash actions b s) :
    RunInv hash (actions ++ [a]) (s.placedStep env hash b a) (s.step env a) where
  message := by
    intro x m hx
    cases a with
    | addContractInfo y deps => exact hinv.message x m hx
    | addContractMsgReq y txmsg =>
      rcases insertMsg_eq_some hx with ⟨rfl, rfl⟩ | hx
      · exact ha x m rfl
      · exact hinv.message x m hx
    | setValue v =>
      rw [Dispatcher.step] at hx
      split at hx <;> exact hinv.message x m hx
    | dispatch find =>
      by_cases hp : s.phase = .clear
      · rw [Dispatcher.step, hp] at hx
        cases hx
      · have hmsg := (@stepFrom_caches env s find s.phase hp).2
        rw [Dispatcher.step, hmsg] at hx
        exact hinv.message x m hx
  has c hc := by
    rw [has_step] at hc
    rw [added_concat]
    exact hc.symm.imp (fun h => hinv.has c h.1) id
  sent hsent c := by
    rw [added_concat]
    left
    rcases @step_sent env s a with ⟨item, rest, hp, heq, -⟩ | heq
    · rcases (wasSent_append heq).mp hsent with hsent | hm
      · exact hinv.sent hsent c
      · have hphase := hinv.phase
        rw [hp] at hphase
        exact (hphase.1 ⟨item, List.mem_cons_self, hm⟩).2 c
    · exact hinv.sent ((wasSent_congr heq).mp hsent) c
  phase := by
    cases a with
    | addContractInfo y deps => exact hinv.phase.weaken rfl
    | addContractMsgReq y txmsg => exact hinv.phase.weaken rfl
    | setValue v =>
      rw [Dispatcher.step]
      split <;> exact hinv.phase.weaken rfl
    | dispatch find => exact (hinv.stepFrom find).weaken rfl

/-! ### Runs -/

theorem run_concat (s : Dispatcher) (pre : List DispatchAction) (a : DispatchAction) :
    s.run env (pre ++ [a]) = (s.run env pre).step env a := by
  rw [run, run, List.foldl_append]
  rfl

theorem placed_concat (s : Dispatcher) (pre : List DispatchAction) (a : DispatchAction) :
    placed env hash s (pre ++ [a])
      = (s.run env pre).placedStep env hash (placed env hash s pre) a := by
  have hfst : ∀ (l : List DispatchAction) (w : Dispatcher × Bool),
      (l.foldl (fun w a => (w.1.step env a, w.1.placedStep env hash w.2 a)) w).1 = w.1.run env l := by
    intro l
    induction l with
    | nil => exact fun w => rfl
    | cons a l ih => exact fun w => ih _
  rw [placed, List.foldl_append, List.foldl_cons, List.foldl_nil, hfst, placed]

/-- The invariant holds at every moment. -/
theorem runInv {timeValue : UInt64} (actions : List DispatchAction) (hnamed : ∀ a ∈ actions, Named a) :
    RunInv hash actions (placed env hash (start timeValue) actions)
      ((start timeValue).run env actions) := by
  induction actions using List.reverseRecOn with
  | nil =>
    refine ⟨nofun, fun c hc => ?_, fun h => ?_, True.intro⟩
    · cases c with
      | dependent => cases hc
      | message => exact absurd rfl hc
    · obtain ⟨item, hi, -⟩ := h
      cases hi
  | append_singleton pre a ih =>
    rw [run_concat, placed_concat]
    exact (ih fun b hb => hnamed b (List.mem_append_left _ hb)).step
      (hnamed a (List.mem_append_right _ (List.mem_singleton_self a)))

section Runs
variable {timeValue : UInt64}

/-- The invariant at a moment of the run. -/
theorem runInv_of_split {pre post : List DispatchAction} (hnamed : ∀ a ∈ actions, Named a)
    (hsplit : actions = pre ++ post) :
    RunInv hash pre (placed env hash (start timeValue) pre) ((start timeValue).run env pre) :=
  runInv pre fun a ha => hnamed a (hsplit ▸ List.mem_append_left _ ha)

/-- What a clearing takes away was placed, and so it was sent. -/
theorem has_or_wasSent (hnamed : ∀ a ∈ actions, Named a)
    (hclear : ClearedWhenPlaced env (start timeValue) actions hash) (c : CacheKind)
    (pre post : List DispatchAction) (hsplit : actions = pre ++ post) (hadd : Added pre c hash) :
    ((start timeValue).run env pre).Has c hash ∨ ((start timeValue).run env pre).WasSent hash := by
  induction pre using List.reverseRecOn generalizing post with
  | nil =>
    obtain ⟨a, ha, -⟩ := hadd
    cases ha
  | append_singleton pre a ih =>
    have hsplit' : actions = pre ++ a :: post := by simp [hsplit]
    rw [run_concat, has_step]
    rcases added_concat.mp hadd with hadd | hadd
    · rcases ih (a :: post) hsplit' hadd with hhas | hsent
      · by_cases hc : ((start timeValue).run env pre).Clears a
        · have hinv : RunInv hash pre _ ((start timeValue).run env pre) :=
            runInv_of_split hnamed hsplit'
          have hphase := hinv.phase
          rw [hc.1] at hphase
          exact .inr (hphase (hclear pre a post c hsplit' hc hhas)).step
        · exact .inl (.inr ⟨hhas, hc⟩)
      · exact .inr hsent.step
    · exact .inl (.inl hadd)

/-- The round is past its search for packagers. -/
def Sending (p : Phase) : Prop := p = .clear ∨ ∃ distribution, p = .send distribution

/-- While it sends, and until it clears, it stays so and what was placed stays placed. -/
theorem sending_step {a : DispatchAction} (hp : Sending s.phase) (hc : ¬ s.Clears a) :
    Sending (s.step env a).phase ∧ s.placedStep env hash b a = b := by
  cases a with
  | addContractInfo x deps => exact ⟨hp, rfl⟩
  | addContractMsgReq x txmsg => exact ⟨hp, rfl⟩
  | setValue v =>
    rw [Dispatcher.step]
    split <;> exact ⟨hp, rfl⟩
  | dispatch find =>
    rcases hp with hp | ⟨distribution, hp⟩
    · exact absurd ⟨hp, find, rfl⟩ hc
    · rw [Dispatcher.step, placedStep, hp]
      cases distribution with
      | nil => exact ⟨.inl rfl, rfl⟩
      | cons item rest => exact ⟨.inr ⟨rest, rfl⟩, rfl⟩

/-- With each call made once, a transaction that is still in a cache after it was sent was placed by
    the round under way. -/
theorem placed_of_has_of_wasSent (hnamed : ∀ a ∈ actions, Named a) (honce : AddedOnce actions hash)
    (c : CacheKind) (pre post : List DispatchAction) (hsplit : actions = pre ++ post)
    (hhas : ((start timeValue).run env pre).Has c hash)
    (hsent : ((start timeValue).run env pre).WasSent hash) :
    Sending ((start timeValue).run env pre).phase ∧ placed env hash (start timeValue) pre = true := by
  induction pre using List.reverseRecOn generalizing post with
  | nil =>
    obtain ⟨item, hi, -⟩ := hsent
    cases hi
  | append_singleton pre a ih =>
    have hsplit' : actions = pre ++ a :: post := by simp [hsplit]
    have hinv : RunInv hash pre _ ((start timeValue).run env pre) :=
      runInv_of_split hnamed hsplit'
    rw [run_concat] at hhas hsent ⊢
    rw [placed_concat]
    rcases (has_step a c).mp hhas with hadds | ⟨hbefore, hc⟩
    · -- the call that adds it sends nothing, and what was sent before has been added before
      exfalso
      rcases @step_sent env ((start timeValue).run env pre) a with ⟨_, _, -, -, find, rfl⟩ | heq
      · cases c <;> cases hadds <;> rename_i h <;> cases h
      · exact honce.once c pre a post hsplit' hadds (hinv.sent ((wasSent_congr heq).mp hsent) c)
    · have hstill : Sending ((start timeValue).run env pre).phase ∧
          placed env hash (start timeValue) pre = true := by
        rcases @step_sent env ((start timeValue).run env pre) a with ⟨item, rest, hp, heq, -⟩ | heq
        · refine ⟨.inr ⟨_, hp⟩, ?_⟩
          rcases (wasSent_append heq).mp hsent with hsent | hm
          · exact (ih (a :: post) hsplit' hbefore hsent).2
          · have hphase := hinv.phase
            rw [hp] at hphase
            exact (hphase.1 ⟨item, List.mem_cons_self, hm⟩).1
        · exact ih (a :: post) hsplit' hbefore ((wasSent_congr heq).mp hsent)
      obtain ⟨hsending, hsame⟩ := @sending_step env hash _ (placed env hash (start timeValue) pre) _
        hstill.1 hc
      exact ⟨hsending, hsame.trans hstill.2⟩

/-- What is in a cache was there at the start, or has been added. -/
theorem has_of_run {c : CacheKind} (s : Dispatcher) (l : List DispatchAction)
    (h : (s.run env l).Has c hash) : s.Has c hash ∨ Added l c hash := by
  induction l using List.reverseRecOn with
  | nil => exact .inl h
  | append_singleton l a ih =>
    rw [run_concat, has_step] at h
    rw [added_concat]
    rcases h with hadds | ⟨hhas, -⟩
    · exact .inr (.inr hadds)
    · exact (ih hhas).imp id .inl

theorem not_adds_dispatch {find : PackNodes} {c : CacheKind} :
    ¬ (DispatchAction.dispatch find).Adds c hash := by
  cases c <;> exact fun h => nomatch h

/-- A call adds to one cache and sends nothing. -/
theorem adds_unique {a : DispatchAction} {c c' : CacheKind} (h : a.Adds c hash) (h' : a.Adds c' hash) :
    c = c' := by
  cases c <;> cases c' <;> obtain ⟨_, rfl⟩ := h <;> first | rfl | exact nomatch h'

theorem sent_of_adds {a : DispatchAction} {c : CacheKind} (h : a.Adds c hash) :
    (s.step env a).sent = s.sent := by
  rcases @step_sent env s a with ⟨_, _, -, -, find, rfl⟩ | heq
  · exact absurd h not_adds_dispatch
  · exact heq

/-- A clearing leaves nothing and sends nothing. -/
theorem clears_step {a : DispatchAction} (hc : s.Clears a) :
    (∀ c, ¬ (s.step env a).Has c hash) ∧ (s.step env a).sent = s.sent := by
  constructor
  · intro c h
    rcases (has_step a c).mp h with hadds | ⟨-, hno⟩
    · obtain ⟨-, find, rfl⟩ := hc
      exact not_adds_dispatch hadds
    · exact hno hc
  · rcases @step_sent env s a with ⟨_, _, hp, -, -⟩ | heq
    · rw [hc.1] at hp
      cases hp
    · exact heq

/-- A clearing that takes away a transaction that was not placed loses it: at once when both calls
    have been made, and otherwise when the second one is made. -/
theorem clearedWhenPlaced_of_kept (hnamed : ∀ a ∈ actions, Named a) (honce : AddedOnce actions hash)
    (hkept : Kept env (start timeValue) actions hash) :
    ClearedWhenPlaced env (start timeValue) actions hash := by
  intro pre a post c hsplit hc hhas
  by_contra hnot
  have hinv : RunInv hash pre _ ((start timeValue).run env pre) := runInv_of_split hnamed hsplit
  obtain ⟨hgone, hsame⟩ := @clears_step env hash _ a hc
  have hunsent : ¬ ((start timeValue).run env (pre ++ [a])).WasSent hash := by
    rw [run_concat, wasSent_congr hsame]
    exact fun h => hnot (placed_of_has_of_wasSent hnamed honce c pre _ hsplit hhas h).2
  rw [← run_concat] at hgone
  by_cases hboth : ∀ c', Added pre c' hash
  · rcases hkept (pre ++ [a]) post (by simp [hsplit]) fun c' => added_concat.mpr (.inl (hboth c')) with
      h | h
    · exact hgone c (h c)
    · exact hunsent h
  · obtain ⟨c', hc'⟩ := not_forall.mp hboth
    have hadded := hinv.has c hhas
    have hne : c ≠ c' := fun h => hc' (h ▸ hadded)
    -- the other call comes later, as `b`
    obtain ⟨b, hb, hadds⟩ := honce.added c'
    have hbpost : b ∈ post := by
      rw [hsplit, List.mem_append, List.mem_cons] at hb
      rcases hb with hb | rfl | hb
      · exact absurd ⟨b, hb, hadds⟩ hc'
      · obtain ⟨-, find, rfl⟩ := hc
        exact absurd hadds not_adds_dispatch
      · exact hb
    obtain ⟨p₁, p₂, rfl⟩ := List.append_of_mem hbpost
    have hmid : actions = (pre ++ [a] ++ p₁) ++ b :: p₂ := by simp [hsplit]
    have hinv' : RunInv hash (pre ++ [a] ++ p₁) _ ((start timeValue).run env (pre ++ [a] ++ p₁)) :=
      runInv_of_split hnamed hmid
    have hall : ∀ c'', Added (pre ++ [a] ++ p₁ ++ [b]) c'' hash := by
      have htwo : ∀ c c' c'' : CacheKind, c ≠ c' → c'' = c ∨ c'' = c' := by
        rintro (_ | _) (_ | _) (_ | _) <;> simp
      intro c''
      rw [added_concat]
      rcases htwo c c' c'' hne with rfl | rfl
      · obtain ⟨x, hx, hax⟩ := hadded
        exact .inl ⟨x, by simp [hx], hax⟩
      · exact .inr hadds
    rcases hkept (pre ++ [a] ++ p₁ ++ [b]) p₂ (by simp [hsplit]) hall with h | h
    · -- the first call was made once, before the clearing
      have hcache := h c
      rw [run_concat, has_step] at hcache
      rcases hcache with hb' | ⟨hcache, -⟩
      · exact hne (adds_unique hb' hadds)
      · rw [run, List.foldl_append] at hcache
        rcases has_of_run _ p₁ hcache with hcache | ⟨x, hx, hax⟩
        · exact hgone c hcache
        · obtain ⟨q, r, rfl⟩ := List.append_of_mem hx
          refine honce.once c (pre ++ [a] ++ q) x (r ++ b :: p₂) (by simp [hsplit]) hax ?_
          obtain ⟨y, hy, hay⟩ := hadded
          exact ⟨y, by simp [hy], hay⟩
    · rw [run_concat, wasSent_congr (sent_of_adds hadds)] at h
      exact honce.once c' _ b p₂ hmid hadds (hinv'.sent h c')

end Runs

end Dispatcher

/-- In every interleaving in which a transaction is never cleared away unplaced (whenever the caches
    are cleared with it in one of them, the round has found it in both and has found a packager for a
    group with it), it is at every moment after its two calls in both caches or sent; and where each
    call is made once, this is the only way. -/
theorem kept_iff_clearedWhenPlaced (env : DispatcherEnv) (timeValue : UInt64)
    (actions : List DispatchAction) (hash : String) (hnamed : ∀ a ∈ actions, Dispatcher.Named a) :
    (Dispatcher.ClearedWhenPlaced env (.start timeValue) actions hash →
      Dispatcher.Kept env (.start timeValue) actions hash) ∧
      (AddedOnce actions hash → Dispatcher.Kept env (.start timeValue) actions hash →
        Dispatcher.ClearedWhenPlaced env (.start timeValue) actions hash) := by
  refine ⟨fun hclear pre post hsplit hadd => ?_, fun honce => ?_⟩
  · by_cases hsent : (Dispatcher.run env (.start timeValue) pre).WasSent hash
    · exact .inr hsent
    · exact .inl fun c => (Dispatcher.has_or_wasSent hnamed hclear c pre post hsplit
        (hadd c)).resolve_right hsent
  · exact Dispatcher.clearedWhenPlaced_of_kept hnamed honce

/-! ### A round of two transactions -/

/-- Every body parses, and the map is iterated in the order of insertion. -/
def sampleDispatcherEnv : DispatcherEnv := ⟨fun _ => true, id, id, fun _ => List.Perm.refl _⟩

/-- The two calls for a transaction that depends on the contract `contract`. -/
def sampleAdds (hash contract : String) : List DispatchAction :=
  [.addContractInfo hash [contract], .addContractMsgReq hash ⟨hash, hash⟩]

/-- Two transactions of different contracts arrive, and one round runs, in which only the first
    `found` groups find a packager. -/
def sampleRound (found : ℕ) : List DispatchAction :=
  sampleAdds "a" "1" ++ sampleAdds "b" "2" ++ [.setValue 5999999] ++
    List.replicate (13 + found) (.dispatch fun n _ => if n < found then some ⟨"p", "v", []⟩ else none)

theorem sampleRound_named (found : ℕ) : ∀ a ∈ sampleRound found, Dispatcher.Named a := by
  intro a ha x m hx
  simp only [sampleRound, sampleAdds, List.mem_append, List.mem_cons, List.mem_replicate,
    List.not_mem_nil, or_false, hx, DispatchAction.addContractMsgReq.injEq, reduceCtorEq, and_false,
    false_or] at ha
  rcases ha with ⟨rfl, rfl⟩ | ⟨rfl, rfl⟩ <;> rfl

/-- With a packager for both groups, the second transaction is kept. -/
theorem kept_iff_clearedWhenPlaced_sample :
    Dispatcher.Kept sampleDispatcherEnv (.start 0) (sampleRound 2) "b" := by
  refine (kept_iff_clearedWhenPlaced sampleDispatcherEnv 0 (sampleRound 2) "b"
    (sampleRound_named 2)).1 ?_
  intro pre a post c hsplit hclears _
  have hpre : pre = (sampleRound 2).take pre.length := by
    rw [hsplit, List.take_left]
  have hlen : pre.length < 20 := by
    have := congrArg List.length hsplit
    simp only [List.length_append, List.length_cons] at this
    have htotal : (sampleRound 2).length = 20 := by decide
    omega
  have hall : ∀ n < 20, (Dispatcher.run sampleDispatcherEnv (.start 0) ((sampleRound 2).take n)).phase
      = .clear → Dispatcher.placed sampleDispatcherEnv "b" (.start 0) ((sampleRound 2).take n) = true := by
    decide +kernel
  have hphase := hclears.1
  rw [hpre] at hphase ⊢
  exact hall pre.length hlen hphase

/-- With a packager for the first group only, the second transaction is neither sent nor kept. -/
theorem dispatcher_drops_unplaced_group : (∀ a ∈ sampleRound 1, Dispatcher.Named a) ∧
    ¬ Dispatcher.Kept sampleDispatcherEnv (.start 0) (sampleRound 1) "b" := by
  refine ⟨sampleRound_named 1, fun hkept => ?_⟩
  have hadded : ∀ c, Added (sampleRound 1) c "b" := by
    intro c
    cases c with
    | dependent => exact ⟨.addContractInfo "b" ["2"], by simp [sampleRound, sampleAdds], _, rfl⟩
    | message => exact ⟨.addContractMsgReq "b" ⟨"b", "b"⟩, by simp [sampleRound, sampleAdds], _, rfl⟩
  rcases hkept (sampleRound 1) [] (List.append_nil _).symm hadded with h | h
  · have hcache := h .dependent
    revert hcache
    rw [Dispatcher.Has]
    decide +kernel
  · revert h
    rw [Dispatcher.WasSent]
    decide +kernel

end Tfs.Ca
