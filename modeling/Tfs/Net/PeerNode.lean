import Mathlib
import Tfs.Basic
import Tfs.Lib.OrderedSet
import Tfs.Lib.Runs

/-! The table of peers under its handlers (`net/peer_node.cpp`, `HandlePingReq`, `HandlePongReq` and
    `HandleNodeHeightChangedReq` in `net/handle_event.cpp`, `net_com::DealHeart` in `net/api.cpp`).

    Every operation on the table takes its mutex, but a handler copies a node in one operation and writes
    the whole copy back in another. A step below is one such operation of one thread.

    What the handlers are for is said by a second table, in which each of them changes only its own field of
    the node that is there, and nothing brings a deleted node back. -/

namespace Tfs.Net

variable {Addr : Type} [LinearOrder Addr]

/-- `HEART_PROBES`. -/
def HEART_PROBES : ℤ := 3

/-- `Node`, the fields the handlers and the table look at. -/
structure PeerInfo (Addr : Type) where
  address : Addr
  height : ℕ
  fd : ℤ
  pulse : ℤ
  deriving DecidableEq, Repr

/-- `_nodeMap`. -/
abbrev NodeMap (Addr : Type) [LinearOrder Addr] := SortedMap Addr (PeerInfo Addr)

/-! ### The operations of the table -/

/-- The limits of a height that is believed: `KMinSyncQualNodes` and `KChainHighThreshold`. -/
structure HeightLimits where
  kMinSyncQualNodes : ℕ
  kChainHighThreshold : ℕ

variable (lim : HeightLimits)

/-- The checks in front of `Add` and `Update`: the height of the chain is known (`chainHeight`), and the
    node's height is not too far above it once there are enough nodes. -/
def heightAccepted (m : NodeMap Addr) (chainHeight : Option ℕ) (height : ℕ) : Bool :=
  match chainHeight with
  | none => false
  | some top =>
    ! (decide (lim.kMinSyncQualNodes ≤ m.entries.length)
      && decide (top + lim.kChainHighThreshold < height))

/-- `PeerNode::Update`. -/
def update (m : NodeMap Addr) (chainHeight : Option ℕ) (node : PeerInfo Addr) : NodeMap Addr :=
  if ! heightAccepted lim m chainHeight node.height then m
  else match m.find node.address with
    | none => m
    | some _ => m.upsert node.address fun _ => node

/-- `PeerNode::AddOrUpdate`. -/
def addOrUpdate (m : NodeMap Addr) (node : PeerInfo Addr) : NodeMap Addr :=
  m.upsert node.address fun _ => node

/-- `PeerNode::Add`; `verified` is the check of the configuration, and an address is never empty. -/
def addNode (m : NodeMap Addr) (chainHeight : Option ℕ) (verified : Bool) (node : PeerInfo Addr) :
    NodeMap Addr :=
  if ! heightAccepted lim m chainHeight node.height then m
  else if ! verified then m
  else match m.find node.address with
    | some _ => m
    | none => m.upsert node.address fun _ => node

/-- `PeerNode::FindNodeByFd`. -/
def findNodeByFd (m : NodeMap Addr) (fd : ℤ) : Option (PeerInfo Addr) :=
  (m.entries.find? fun e => e.2.fd == fd).map Prod.snd

/-- `PeerNode::GetNodelist`. -/
def getNodelist (m : NodeMap Addr) : List (PeerInfo Addr) := m.entries.map Prod.snd

/-! ### The handlers -/

/-- Where a thread stands: no handler, a ping or pong with its copy, a change of height with its copy, or a
    `DealHeart` with the copies still to be dealt with, the first of them deleted already or not. -/
inductive Handler (Addr : Type) where
  | idle
  | ping (node : PeerInfo Addr)
  | height (node : PeerInfo Addr) (height : ℕ)
  | heart (nodelist : List (PeerInfo Addr)) (deleted : Bool)
  deriving DecidableEq, Repr

/-- The next thing that happens. `next` is the next operation of a handler that is under way. -/
inductive PeerStep (Addr : Type) where
  | handlePing (thread : ℕ) (id : Addr) (fd : ℤ)
  | handleHeight (thread : ℕ) (id : Addr) (fd : ℤ) (height : ℕ)
  | dealHeart (thread : ℕ) (self : Addr)
  | next (thread : ℕ) (chainHeight : Option ℕ)
  | deleteNode (addr : Addr)
  | register (node : PeerInfo Addr) (chainHeight : Option ℕ) (verified : Bool)

/-- The table, the table as it should be, and the threads. -/
structure PeerState (Addr : Type) [LinearOrder Addr] where
  table : NodeMap Addr
  spec : NodeMap Addr
  threads : ℕ → Handler Addr

/-- A node of the table is changed where it is. -/
def modifyNode (m : NodeMap Addr) (addr : Addr) (f : PeerInfo Addr → PeerInfo Addr) : NodeMap Addr :=
  match m.find addr with
  | none => m
  | some node => m.upsert addr fun _ => f node

/-- The same, unless `Update` would refuse the result. -/
def modifyAccepted (m : NodeMap Addr) (chainHeight : Option ℕ) (addr : Addr)
    (f : PeerInfo Addr → PeerInfo Addr) : NodeMap Addr :=
  match m.find addr with
  | none => m
  | some node =>
    if ! heightAccepted lim m chainHeight (f node).height then m else m.upsert addr fun _ => f node

/-- `ResetHeart`. -/
def PeerInfo.resetHeart (node : PeerInfo Addr) : PeerInfo Addr := { node with pulse := HEART_PROBES }

/-- `SetHeight`. -/
def PeerInfo.setHeight (height : ℕ) (node : PeerInfo Addr) : PeerInfo Addr := { node with height := height }

/-- What `DealHeart` does to a node. -/
def PeerInfo.beat (node : PeerInfo Addr) : PeerInfo Addr := { node with pulse := node.pulse - 1 }

/-- The next operation of a handler: on the table with the copy, and on the table as it should be with the
    node that is there. -/
def PeerState.advance (s : PeerState Addr) (thread : ℕ) (chainHeight : Option ℕ) : PeerState Addr :=
  match s.threads thread with
  | .idle => s
  | .ping node =>
    { table := addOrUpdate s.table node.resetHeart
      spec := modifyNode s.spec node.address PeerInfo.resetHeart
      threads := Function.update s.threads thread .idle }
  | .height node height =>
    { table := update lim s.table chainHeight (node.setHeight height)
      spec := modifyAccepted lim s.spec chainHeight node.address (PeerInfo.setHeight height)
      threads := Function.update s.threads thread .idle }
  | .heart [] _ => { s with threads := Function.update s.threads thread .idle }
  | .heart (node :: nodelist) deleted =>
    if node.beat.pulse ≤ 0 ∧ deleted = false then
      { table := s.table.erase node.address
        spec := s.spec.erase node.address
        threads := Function.update s.threads thread (.heart (node :: nodelist) true) }
    else
      { table := update lim s.table chainHeight node.beat
        spec := modifyAccepted lim s.spec chainHeight node.address PeerInfo.beat
        threads := Function.update s.threads thread (.heart nodelist false) }

/-- A step. A handler that does not find its node returns at once. -/
def PeerState.step (s : PeerState Addr) : PeerStep Addr → PeerState Addr
  | .handlePing thread id fd =>
    match s.threads thread, findNodeByFd s.table fd with
    | .idle, some node =>
      if id ≠ node.address then s
      else { s with threads := Function.update s.threads thread (.ping node) }
    | _, _ => s
  | .handleHeight thread id fd height =>
    match s.threads thread, findNodeByFd s.table fd with
    | .idle, some node =>
      if id ≠ node.address then s
      else { s with threads := Function.update s.threads thread (.height node height) }
    | _, _ => s
  | .dealHeart thread self =>
    match s.threads thread with
    | .idle =>
      let nodelist := (getNodelist s.table).filter fun node => self ≠ node.address
      { s with threads := Function.update s.threads thread (.heart nodelist false) }
    | _ => s
  | .next thread chainHeight => s.advance lim thread chainHeight
  | .deleteNode addr => { s with table := s.table.erase addr, spec := s.spec.erase addr }
  | .register node chainHeight verified =>
    { s with
      table := addNode lim s.table chainHeight verified node
      spec := addNode lim s.spec chainHeight verified node }

/-! ### When nothing is lost -/

/-- The copy a handler is about to write back still agrees with the node of the table, apart from what the
    handler sets. `HandlePingReq` and `HandlePongReq` need the node to be there; the others write nothing
    where it is not, or where its height is refused. -/
def PeerState.CopyFresh (s : PeerState Addr) : PeerStep Addr → Prop
  | .next thread chainHeight =>
    match s.threads thread with
    | .ping copy => ∃ node, s.table.find copy.address = some node ∧ node.resetHeart = copy.resetHeart
    | .height copy height =>
      heightAccepted lim s.table chainHeight height = true →
        ∀ node, s.table.find copy.address = some node → node.setHeight height = copy.setHeight height
    | .heart (copy :: _) deleted =>
      ¬ (copy.beat.pulse ≤ 0 ∧ deleted = false) → ∀ node, s.table.find copy.address = some node →
        (heightAccepted lim s.table chainHeight copy.height = true ∨
          heightAccepted lim s.table chainHeight node.height = true) → node = copy
    | _ => True
  | _ => True

/-- The table is what it should be: no height and no reset was overwritten by an older copy, and no node
    came back. -/
def PeerState.NothingOverwritten (s : PeerState Addr) : Prop := s.table = s.spec

omit [LinearOrder Addr] in
theorem PeerInfo.beat_inj {node copy : PeerInfo Addr} : node.beat = copy.beat ↔ node = copy := by
  constructor
  · intro h
    have haddress := congrArg PeerInfo.address h
    have hheight := congrArg PeerInfo.height h
    have hfd := congrArg PeerInfo.fd h
    have hpulse := congrArg PeerInfo.pulse h
    cases node
    cases copy
    simp only [beat] at haddress hheight hfd hpulse
    simp [haddress, hheight, hfd]
    omega
  · rintro rfl
    rfl

omit [LinearOrder Addr] in
theorem PeerInfo.beat_ne (node : PeerInfo Addr) : node.beat ≠ node := by
  intro h
  have hpulse := congrArg PeerInfo.pulse h
  simp only [beat] at hpulse
  omega

/-- A ping or pong writes the right thing exactly when its copy is up to date. -/
theorem addOrUpdate_eq_modifyNode_iff (m : NodeMap Addr) (copy : PeerInfo Addr) :
    addOrUpdate m copy.resetHeart = modifyNode m copy.address PeerInfo.resetHeart ↔
      ∃ node, m.find copy.address = some node ∧ node.resetHeart = copy.resetHeart := by
  rw [addOrUpdate, modifyNode]
  cases hfind : m.find copy.address with
  | none =>
    refine iff_of_false ?_ (by simp)
    intro h
    have hthere : m.find copy.address = some copy.resetHeart := SortedMap.upsert_const_eq_self.mp h
    rw [hfind] at hthere
    cases hthere
  | some node =>
    simp only [Option.some.injEq, exists_eq_left']
    exact SortedMap.upsert_const_inj.trans eq_comm

/-- A change of height, likewise. -/
theorem update_eq_setHeight_iff (m : NodeMap Addr) (chainHeight : Option ℕ) (copy : PeerInfo Addr)
    (height : ℕ) : update lim m chainHeight (copy.setHeight height)
        = modifyAccepted lim m chainHeight copy.address (PeerInfo.setHeight height) ↔
      (heightAccepted lim m chainHeight height = true →
        ∀ node, m.find copy.address = some node → node.setHeight height = copy.setHeight height) := by
  have haddress : (copy.setHeight height).address = copy.address := rfl
  have hheight : ∀ node : PeerInfo Addr, (node.setHeight height).height = height := fun _ => rfl
  simp only [update, modifyAccepted, haddress, hheight]
  cases hfind : m.find copy.address with
  | none => simp
  | some node =>
    cases haccepted : heightAccepted lim m chainHeight height with
    | false => simp
    | true =>
      simp only [Bool.not_true, Bool.false_eq_true, if_false, Option.some.injEq, forall_eq', true_imp_iff]
      exact SortedMap.upsert_const_inj.trans eq_comm

/-- A beat of `DealHeart`, likewise. -/
theorem update_eq_beat_iff (m : NodeMap Addr) (chainHeight : Option ℕ) (copy : PeerInfo Addr) :
    update lim m chainHeight copy.beat
        = modifyAccepted lim m chainHeight copy.address PeerInfo.beat ↔
      ∀ node, m.find copy.address = some node →
        (heightAccepted lim m chainHeight copy.height = true ∨
          heightAccepted lim m chainHeight node.height = true) → node = copy := by
  have haddress : copy.beat.address = copy.address := rfl
  have hheight : ∀ node : PeerInfo Addr, node.beat.height = node.height := fun _ => rfl
  simp only [update, modifyAccepted, haddress, hheight]
  cases hfind : m.find copy.address with
  | none => simp
  | some node =>
    simp only [Option.some.injEq, forall_eq']
    cases hcopy : heightAccepted lim m chainHeight copy.height with
    | true =>
      cases hnode : heightAccepted lim m chainHeight node.height with
      | true =>
        simp only [Bool.not_true, Bool.false_eq_true, if_false, or_self, true_imp_iff]
        exact (SortedMap.upsert_const_inj.trans eq_comm).trans PeerInfo.beat_inj
      | false =>
        -- the heights differ, and the copy is written
        have hne : node ≠ copy := fun heq => by rw [heq, hcopy] at hnode; cases hnode
        simp only [Bool.not_true, Bool.not_false, Bool.false_eq_true, if_false, if_true, true_or,
          true_imp_iff]
        refine iff_of_false (fun heq => ?_) hne
        have hthere := SortedMap.upsert_const_eq_self.mp heq
        rw [hfind, Option.some.injEq] at hthere
        have hsame : node.height = copy.height := by rw [hthere]; rfl
        rw [hsame, hcopy] at hnode
        cases hnode
    | false =>
      cases hnode : heightAccepted lim m chainHeight node.height with
      | true =>
        -- the heights differ, and nothing is written
        have hne : node ≠ copy := fun heq => by rw [heq, hcopy] at hnode; cases hnode
        simp only [Bool.not_true, Bool.not_false, Bool.false_eq_true, if_false, if_true, or_true,
          true_imp_iff]
        refine iff_of_false (fun heq => ?_) hne
        have hthere := SortedMap.upsert_const_eq_self.mp heq.symm
        rw [hfind, Option.some.injEq] at hthere
        exact PeerInfo.beat_ne node hthere.symm
      | false => simp

/-- A step keeps the table as it should be exactly when the copy it writes, if any, is up to date. -/
theorem PeerState.step_iff (s : PeerState Addr) (a : PeerStep Addr) (h : s.NothingOverwritten) :
    (s.step lim a).NothingOverwritten ↔ s.CopyFresh lim a := by
  obtain ⟨table, spec, threads⟩ := s
  have hsame : table = spec := h
  subst hsame
  cases a with
  | handlePing thread id fd =>
    refine iff_of_true ?_ trivial
    simp only [step]
    split
    · split <;> rfl
    · rfl
  | handleHeight thread id fd height =>
    refine iff_of_true ?_ trivial
    simp only [step]
    split
    · split <;> rfl
    · rfl
  | dealHeart thread self =>
    refine iff_of_true ?_ trivial
    simp only [step]
    split <;> rfl
  | deleteNode addr => exact iff_of_true rfl trivial
  | register node chainHeight verified => exact iff_of_true rfl trivial
  | next thread chainHeight =>
    simp only [step, advance, CopyFresh]
    cases hthread : threads thread with
    | idle => exact iff_of_true rfl trivial
    | ping copy => exact addOrUpdate_eq_modifyNode_iff table copy
    | height copy height => exact update_eq_setHeight_iff lim table chainHeight copy height
    | heart nodelist deleted =>
      cases nodelist with
      | nil => exact iff_of_true rfl trivial
      | cons copy nodelist =>
        simp only
        split
        · rename_i hdelete
          exact iff_of_true rfl fun hnot => absurd hdelete hnot
        · rename_i hkeep
          simp only [hkeep, not_false_eq_true, true_imp_iff]
          exact update_eq_beat_iff lim table chainHeight copy

/-- The table and the handlers at the start: nobody is under way. -/
def PeerState.start (m : NodeMap Addr) : PeerState Addr := ⟨m, m, fun _ => .idle⟩

/-- In every interleaving, nothing is ever overwritten by an older copy and no deleted node comes back
    exactly when every copy is up to date when it is written back. -/
theorem nothingOverwritten_iff (m : NodeMap Addr) (acts : List (PeerStep Addr)) :
    (∀ done, done <+: acts → (done.foldl (PeerState.step lim) (.start m)).NothingOverwritten) ↔
      EveryStep (PeerState.step lim) (PeerState.CopyFresh lim) (.start m) acts :=
  always_iff_everyStep (fun s a => PeerState.step_iff lim s a) (rfl : (PeerState.start m).NothingOverwritten)

/-- A ping that copied a node before its height changed writes the old height back. -/
theorem nothingOverwritten_fails_stalePing :
    ¬ ∀ (lim : HeightLimits) (m : NodeMap String) (acts done : List (PeerStep String)), done <+: acts →
      (done.foldl (PeerState.step lim) (.start m)).NothingOverwritten := by
  intro h
  let m : NodeMap String := SortedMap.empty.upsert "p" fun _ => ⟨"p", 5, 9, 2⟩
  have hlost := h ⟨1, 1000⟩ m [.handlePing 0 "p" 9, .handleHeight 1 "p" 9 7, .next 1 (some 100),
    .next 0 (some 100)] _ (List.prefix_refl _)
  have hheight := congrArg (fun t : NodeMap String => (t.find "p").map PeerInfo.height) hlost
  exact absurd hheight (by decide)

-- one that copied it before it was deleted brings it back
example : ((([.handlePing 0 "p" 9, .deleteNode "p", .next 0 none] : List (PeerStep String)).foldl
    (PeerState.step ⟨1, 1000⟩) (.start (SortedMap.empty.upsert "p" fun _ => ⟨"p", 5, 9, 2⟩))).table.find
      "p").isSome = true := by decide

end Tfs.Net
