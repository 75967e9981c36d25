import Tfs.Basic
import Tfs.Lib.OrderedSet
import Tfs.Lib.Runs

/-! Transactions that wait for their height (`ca/failed_transaction_cache.cpp`).

    A message is added under a height. A check, which the timer starts, reads the block top, the
    heights of the nodes and the beginning of the map without the lock; it then takes the lock and
    goes from there to the end of the map. What enough nodes have reached is handed over, what is
    too far above the top is dropped, the rest stays. Messages are added, and the top moves, between
    any two of these steps.

    Below, a message is lost only by a check that works with a top the store did not hold
    (`never_lost_iff`), and none is where every read of the block top succeeds (`not_lost_of_reads`). -/

namespace Tfs.Ca.FailedTransactionCache

variable {M : Type}

/-! ### The state -/

/-- How far a check has come; `tops` are the block tops that the store held since it began. -/
inductive Check where
  | idle
  | topRead (top : UInt64) (tops : List UInt64)
  | begun (top : UInt64) (tops : List UInt64) (nodelist : List UInt32) (begin : Option ℕ)

/-- A message that was dropped, with its height and the tops of the check that dropped it. -/
structure Dropped (M : Type) where
  height : ℕ
  msg : M
  tops : List UInt64
  deriving DecidableEq

/-- The cache, the block top in the store, the check, and what became of the messages. -/
structure State (M : Type) where
  txPending : SortedMap ℕ (List M)
  blockTop : UInt64
  check : Check
  added : List (ℕ × M)
  handled : List (ℕ × M)
  dropped : List (Dropped M)

/-- Nothing was added. -/
def start (M : Type) (blockTop : UInt64) : State M := ⟨.empty, blockTop, .idle, [], [], []⟩

/-- The messages of entries, each with its height. -/
def messages (entries : List (ℕ × List M)) : List (ℕ × M) :=
  entries.flatMap fun entry => entry.2.map (entry.1, ·)

/-! ### The functions -/

/-- What `_Check` does with the messages of a height. -/
inductive Verdict where
  | handle
  | drop
  | keep
  deriving DecidableEq

/-- Not enough nodes have reached the height, or the node itself has not. -/
def Waits (kConsensus : ℕ) (top : UInt64) (nodelist : List UInt32) (txHeight : ℕ) : Prop :=
  nodelist.countP (fun height => txHeight ≤ height.toNat) < kConsensus * 2 ∨ top.toNat < txHeight

instance (kConsensus : ℕ) (top : UInt64) (nodelist : List UInt32) (txHeight : ℕ) :
    Decidable (Waits kConsensus top nodelist txHeight) :=
  inferInstanceAs (Decidable (_ ∨ _))

/-- The loop of `_Check` on one entry; what stands before the beginning is not visited. -/
def verdict (kConsensus : ℕ) (top : UInt64) (nodelist : List UInt32) (begin : Option ℕ) (txHeight : ℕ) :
    Verdict :=
  if begin.all (txHeight < ·) then .keep
  else if Waits kConsensus top nodelist txHeight then
    if txHeight > (top + 2).toNat then .drop else .keep
  else .handle

/-- `FailedTransactionCache::Add`. -/
def State.add (s : State M) (height : UInt64) (msg : M) : State M :=
  { s with
    txPending := s.txPending.upsert height.toNat fun msgs => msgs.getD [] ++ [msg]
    added := s.added ++ [(height.toNat, msg)] }

/-- A check notices a top. -/
def Check.see (check : Check) (blockTop : UInt64) : Check :=
  match check with
  | .idle => .idle
  | .topRead top tops => .topRead top (tops ++ [blockTop])
  | .begun top tops nodelist begin => .begun top (tops ++ [blockTop]) nodelist begin

/-- The locked part of `_Check`. -/
def State.finish (kConsensus : ℕ) (s : State M) (top : UInt64) (tops : List UInt64) (nodelist : List UInt32)
    (begin : Option ℕ) : State M :=
  let fate := verdict kConsensus top nodelist begin
  let entriesOf := fun v => s.txPending.entries.filter fun iter => fate iter.1 = v
  { s with
    txPending := ⟨entriesOf .keep, s.txPending.sorted.filter _⟩
    check := .idle
    handled := s.handled ++ messages (entriesOf .handle)
    dropped := s.dropped ++ (messages (entriesOf .drop)).map fun txmsg => ⟨txmsg.1, txmsg.2, tops⟩ }

/-- One step: a message is added, the store gets another block top, or the check goes on. The timer
    starts no check while one is running. -/
inductive Action (M : Type) where
  | add (height : UInt64) (msg : M)
  | setTop (blockTop : UInt64)
  | getBlockTop (success : Bool)
  | getNodelist (nodelist : List UInt32)
  | lock

def step (kConsensus : ℕ) (s : State M) (action : Action M) : State M :=
  match action, s.check with
  | .add height msg, _ => s.add height msg
  | .setTop blockTop, check => { s with blockTop := blockTop, check := check.see blockTop }
  -- after a failed read `top` is what it was set to at first
  | .getBlockTop success, .idle =>
    { s with check := .topRead (if success then s.blockTop else 0) [s.blockTop] }
  | .getNodelist nodelist, .topRead top tops =>
    { s with check := .begun top tops nodelist (s.txPending.entries.head?.map Prod.fst) }
  | .lock, .begun top tops nodelist begin => s.finish kConsensus top tops nodelist begin
  | _, _ => s

/-- What a step does, by the state of the check. -/
inductive Moves (kConsensus : ℕ) (s : State M) : Action M → State M → Prop where
  | add (height : UInt64) (msg : M) : Moves kConsensus s (.add height msg) (s.add height msg)
  | setTop (blockTop : UInt64) :
      Moves kConsensus s (.setTop blockTop) { s with blockTop := blockTop, check := s.check.see blockTop }
  | getBlockTop (success : Bool) (h : s.check = .idle) :
      Moves kConsensus s (.getBlockTop success)
        { s with check := .topRead (if success then s.blockTop else 0) [s.blockTop] }
  | getNodelist (nodelist : List UInt32) {top : UInt64} {tops : List UInt64}
    (h : s.check = .topRead top tops) :
      Moves kConsensus s (.getNodelist nodelist)
        { s with check := .begun top tops nodelist (s.txPending.entries.head?.map Prod.fst) }
  | lock {top : UInt64} {tops : List UInt64} {nodelist : List UInt32} {begin : Option ℕ}
      (h : s.check = .begun top tops nodelist begin) :
      Moves kConsensus s .lock (s.finish kConsensus top tops nodelist begin)
  | nothing (action : Action M) (h : action = .lock → ∀ top tops nodelist begin,
    s.check ≠ .begun top tops nodelist begin) :
      Moves kConsensus s action s

theorem step_moves (kConsensus : ℕ) (s : State M) (action : Action M) :
    Moves kConsensus s action (step kConsensus s action) := by
  unfold step
  split
  · exact .add _ _
  · exact .setTop _
  · exact .getBlockTop _ ‹_›
  · exact .getNodelist _ ‹_›
  · exact .lock ‹_›
  · rename_i hlock
    exact .nothing _ fun haction top tops nodelist begin => hlock top tops nodelist begin haction

/-! ### Nothing gets out of sight -/

/-- Every added message is pending, or was handed over, or was dropped, and only one of these, once. -/
def Accounted (s : State M) : Prop :=
  s.added.Perm (messages s.txPending.entries ++ s.handled ++ s.dropped.map fun gone =>
    (gone.height, gone.msg))

/-- What was dropped was more than 2 above a top that the store held during the check. -/
def DroppedRightly (gone : Dropped M) : Prop := ∃ blockTop ∈ gone.tops, blockTop.toNat + 2 < gone.height

/-- No message is lost. -/
structure NotLost (s : State M) : Prop where
  accounted : Accounted s
  rightly : ∀ gone ∈ s.dropped, DroppedRightly gone

theorem messages_append (entries entries' : List (ℕ × List M)) :
    messages (entries ++ entries') = messages entries ++ messages entries' := List.flatMap_append

/-- A message is added to the messages of its height. -/
theorem messages_upsertEntry (height : ℕ) (msg : M) (entries : List (ℕ × List M)) :
    (messages (SortedMap.upsertEntry height (fun msgs => msgs.getD [] ++ [msg]) entries)).Perm
      ((height, msg) :: messages entries) := by
  induction entries with
  | nil => exact .refl _
  | cons entry entries ih =>
    rw [SortedMap.upsertEntry]
    split_ifs with hlt hgt
    · exact .refl _
    · exact (ih.append_left _).trans List.perm_middle
    · have heq : entry.1 = height := le_antisymm (not_lt.mp hlt) (not_lt.mp hgt)
      simp only [messages, List.flatMap_cons, Option.getD_some, List.map_append, List.map_cons,
        List.map_nil, heq,
        List.append_assoc]
      exact List.perm_middle

/-- Every message of the map meets one of the three verdicts. -/
theorem messages_by_verdict (fate : ℕ → Verdict) (entries : List (ℕ × List M)) :
    (messages entries).Perm (messages (entries.filter fun iter => fate iter.1 = .keep)
      ++ messages (entries.filter fun iter => fate iter.1 = .handle)
      ++ messages (entries.filter fun iter => fate iter.1 = .drop)) := by
  rw [← messages_append, ← messages_append]
  refine List.Perm.flatMap_right _ ?_
  induction entries with
  | nil => exact .refl _
  | cons iter entries ih =>
    cases hfate : fate iter.1 with
    | keep => simpa [hfate] using ih
    | handle =>
      simp only [hfate, List.filter_cons, reduceCtorEq, decide_false, decide_true, if_true,
        Bool.false_eq_true, if_false]
      simp only [List.append_assoc, List.cons_append] at ih ⊢
      exact (ih.cons iter).trans List.perm_middle.symm
    | drop =>
      simp only [hfate, List.filter_cons, reduceCtorEq, decide_false, decide_true, if_true,
        Bool.false_eq_true, if_false]
      exact (ih.cons iter).trans List.perm_middle.symm

theorem Accounted.add {s : State M} (h : Accounted s) (height : UInt64) (msg : M) :
    Accounted (s.add height msg) := by
  have hpending := messages_upsertEntry height.toNat msg s.txPending.entries
  rw [Accounted] at h ⊢
  refine List.perm_append_singleton _ _ |>.trans ((h.cons _).trans ?_)
  exact ((hpending.symm.append_right _).append_right _)

theorem Accounted.finish {s : State M} (h : Accounted s) (kConsensus : ℕ) (top : UInt64) (tops : List UInt64)
    (nodelist : List UInt32) (begin : Option ℕ) :
    Accounted (s.finish kConsensus top tops nodelist begin) := by
  rw [Accounted, State.finish]
  refine h.trans ?_
  have hsplit := messages_by_verdict (verdict kConsensus top nodelist begin) s.txPending.entries
  refine ((hsplit.append_right _).append_right _).trans ?_
  simp only [List.map_append, List.map_map]
  -- what is handled and what is dropped goes behind what was before
  set kept := messages (s.txPending.entries.filter fun iter =>
    verdict kConsensus top nodelist begin iter.1 = .keep)
  set handled := messages (s.txPending.entries.filter fun iter =>
    verdict kConsensus top nodelist begin iter.1 = .handle)
  set dropped := messages (s.txPending.entries.filter fun iter =>
    verdict kConsensus top nodelist begin iter.1 = .drop)
  have hid : dropped.map ((fun gone : Dropped M => (gone.height, gone.msg)) ∘ fun txmsg =>
    ⟨txmsg.1, txmsg.2, tops⟩) = dropped :=
    List.map_id _
  rw [hid]
  simp only [List.append_assoc]
  refine List.Perm.append_left kept ?_
  refine (List.Perm.append_left handled List.perm_append_comm).trans ?_
  simp only [List.append_assoc]
  exact (List.perm_append_comm_assoc _ _ _)

/-- No step loses sight of a message. -/
theorem Accounted.moves {kConsensus : ℕ} {s s' : State M} {action : Action M} (h : Accounted s)
    (hmoves : Moves kConsensus s action s') : Accounted s' := by
  cases hmoves with
  | add height msg => exact h.add height msg
  | setTop blockTop => exact h
  | getBlockTop success hidle => exact h
  | getNodelist nodelist hread => exact h
  | lock hbegun => exact h.finish _ _ _ _ _
  | nothing action hnot => exact h

/-! ### What is dropped -/

/-- A check goes through the entries without dropping a message that is not more than 2 above every
    top of its time. -/
def LocksSafely (kConsensus : ℕ) (s : State M) (action : Action M) : Prop :=
  match action, s.check with
  | .lock, .begun top tops nodelist begin =>
    ∀ txmsg ∈ messages s.txPending.entries, (begin.any (· ≤ txmsg.1)) →
      Waits kConsensus top nodelist txmsg.1 →
      (top + 2).toNat < txmsg.1 → ∃ blockTop ∈ tops, blockTop.toNat + 2 < txmsg.1
  | _, _ => True

/-- A step that takes no lock is safe. -/
theorem locksSafely_of_not {kConsensus : ℕ} {s : State M} {action : Action M}
    (h : action = .lock → ∀ top tops nodelist begin, s.check ≠ .begun top tops nodelist begin) :
    LocksSafely kConsensus s action := by
  unfold LocksSafely
  split
  · exact (h rfl _ _ _ _ ‹_›).elim
  · trivial

theorem verdict_eq_drop_iff {kConsensus : ℕ} {top : UInt64} {nodelist : List UInt32} {begin : Option ℕ}
    {txHeight : ℕ} :
    verdict kConsensus top nodelist begin txHeight = .drop ↔
      begin.any (· ≤ txHeight) ∧ Waits kConsensus top nodelist txHeight ∧ (top + 2).toNat < txHeight := by
  rw [verdict]
  cases begin with
  | none => simp
  | some first =>
    simp only [Option.all_some, Option.any_some, decide_eq_true_eq, ← not_lt]
    split_ifs <;> simp_all

/-- The messages that a check drops. -/
theorem mem_messages_filter {p : ℕ → Prop} [DecidablePred p] {entries : List (ℕ × List M)} {txmsg : ℕ × M} :
    txmsg ∈ messages (entries.filter fun iter => p iter.1) ↔ txmsg ∈ messages entries ∧ p txmsg.1 := by
  simp only [messages, List.mem_flatMap, List.mem_filter, List.mem_map, decide_eq_true_eq]
  constructor
  · rintro ⟨iter, ⟨hiter, hp⟩, msg, hmsg, rfl⟩
    exact ⟨⟨iter, hiter, msg, hmsg, rfl⟩, hp⟩
  · rintro ⟨⟨iter, hiter, msg, hmsg, rfl⟩, hp⟩
    exact ⟨iter, ⟨hiter, hp⟩, msg, hmsg, rfl⟩

/-- The locked part drops rightly what it drops. -/
theorem finish_rightly_iff {s : State M} (h : ∀ gone ∈ s.dropped, DroppedRightly gone) {kConsensus : ℕ}
    {top : UInt64}
    {tops : List UInt64} {nodelist : List UInt32} {begin : Option ℕ} :
    (∀ gone ∈ (s.finish kConsensus top tops nodelist begin).dropped, DroppedRightly gone) ↔
      ∀ txmsg ∈ messages s.txPending.entries, begin.any (· ≤ txmsg.1) →
        Waits kConsensus top nodelist txmsg.1 →
        (top + 2).toNat < txmsg.1 → ∃ blockTop ∈ tops, blockTop.toNat + 2 < txmsg.1 := by
  have hmem : ∀ txmsg, txmsg ∈ messages (s.txPending.entries.filter fun iter =>
      verdict kConsensus top nodelist begin iter.1 = .drop) ↔ txmsg ∈ messages s.txPending.entries ∧
        begin.any (· ≤ txmsg.1) ∧ Waits kConsensus top nodelist txmsg.1 ∧ (top + 2).toNat < txmsg.1 := by
    intro txmsg
    rw [mem_messages_filter (p := fun txHeight => verdict kConsensus top nodelist begin txHeight = .drop),
      verdict_eq_drop_iff]
  rw [State.finish, List.forall_mem_append, and_iff_right h, List.forall_mem_map]
  simp only [hmem, and_imp]
  rfl

/-- What one step keeps: no message is lost exactly when the step is safe. -/
theorem NotLost.moves_iff {kConsensus : ℕ} {s s' : State M} {action : Action M} (h : NotLost s)
    (hmoves : Moves kConsensus s action s') : NotLost s' ↔ LocksSafely kConsensus s action := by
  have haccounted := h.accounted.moves hmoves
  cases hmoves with
  | add height msg => exact iff_of_true ⟨haccounted, h.rightly⟩ trivial
  | setTop blockTop => exact iff_of_true ⟨haccounted, h.rightly⟩ trivial
  | getBlockTop success hidle => exact iff_of_true ⟨haccounted, h.rightly⟩ trivial
  | getNodelist nodelist hread => exact iff_of_true ⟨haccounted, h.rightly⟩ trivial
  | lock hbegun =>
    unfold LocksSafely
    rw [hbegun]
    refine Iff.trans ?_ (finish_rightly_iff h.rightly)
    exact ⟨fun hlost => hlost.rightly, fun hrightly => ⟨haccounted, hrightly⟩⟩
  | nothing action hnot => exact iff_of_true h (locksSafely_of_not hnot)

theorem notLost_start (blockTop : UInt64) : NotLost (start M blockTop) := ⟨.refl _, nofun⟩

/-! ### Reads that succeed -/

/-- A check works with a top that the store held since it began. -/
def Check.HoldsTop : Check → Prop
  | .idle => True
  | .topRead top tops => top ∈ tops ∧ top.toNat + 2 < 2 ^ 64
  | .begun top tops _ _ => top ∈ tops ∧ top.toNat + 2 < 2 ^ 64

/-- The block top is read, and is not at the end of the words. -/
def Reads : Action M → Prop
  | .getBlockTop success => success = true
  | .setTop blockTop => blockTop.toNat + 2 < 2 ^ 64
  | _ => True

theorem Check.HoldsTop.see {check : Check} (h : check.HoldsTop) (blockTop : UInt64) :
    (check.see blockTop).HoldsTop := by
  cases check with
  | idle => trivial
  | topRead top tops => exact ⟨List.mem_append_left _ h.1, h.2⟩
  | begun top tops nodelist begin => exact ⟨List.mem_append_left _ h.1, h.2⟩

/-- A step with its reads is safe, and the next check works with a top that the store holds. -/
theorem Moves.locksSafely_of_reads {kConsensus : ℕ} {s s' : State M} {action : Action M}
    (hmoves : Moves kConsensus s action s')
    (h : s.blockTop.toNat + 2 < 2 ^ 64 ∧ s.check.HoldsTop) (hreads : Reads action) :
    LocksSafely kConsensus s action ∧ s'.blockTop.toNat + 2 < 2 ^ 64 ∧ s'.check.HoldsTop := by
  obtain ⟨hsmall, hholds⟩ := h
  cases hmoves with
  | add height msg => exact ⟨trivial, hsmall, hholds⟩
  | setTop blockTop => exact ⟨trivial, hreads, hholds.see blockTop⟩
  | getBlockTop success hidle =>
    obtain rfl : success = true := hreads
    exact ⟨trivial, hsmall, List.mem_singleton.mpr rfl, hsmall⟩
  | getNodelist nodelist hread =>
    rw [hread] at hholds
    exact ⟨trivial, hsmall, hholds⟩
  | @lock top tops nodelist begin hbegun =>
    rw [hbegun] at hholds
    unfold LocksSafely
    rw [hbegun]
    refine ⟨fun txmsg _ _ _ hlt => ⟨top, hholds.1, ?_⟩, hsmall, trivial⟩
    have htwo : (top + 2).toNat = top.toNat + 2 := by
      rw [UInt64.toNat_add]
      exact Nat.mod_eq_of_lt hholds.2
    rwa [htwo] at hlt
  | nothing action hnot => exact ⟨locksSafely_of_not hnot, hsmall, hholds⟩

/-! ### Every run -/

/-- All along a run no message is lost exactly when every check in it is safe. -/
theorem never_lost_iff (kConsensus : ℕ) (blockTop : UInt64) (actions : List (Action M)) :
    (∀ done, done <+: actions → NotLost (done.foldl (step kConsensus) (start M blockTop))) ↔
      EveryStep (step kConsensus) (LocksSafely kConsensus) (start M blockTop) actions :=
  always_iff_everyStep (fun s action h => h.moves_iff (step_moves kConsensus s action)) (notLost_start blockTop)

/-- So no message is lost in a run in which every read of the block top succeeds. -/
theorem not_lost_of_reads (kConsensus : ℕ) {blockTop : UInt64} (hsmall : blockTop.toNat + 2 < 2 ^ 64)
    {actions : List (Action M)} (h : ∀ action ∈ actions, Reads action) :
    NotLost (actions.foldl (step kConsensus) (start M blockTop)) := by
  have hreads := show EveryStep (step kConsensus) (fun _ => Reads) (start M blockTop) actions from
    everyStep_const.mpr h
  have hsafe : EveryStep (step kConsensus) (LocksSafely kConsensus) (start M blockTop) actions :=
    hreads.imp (P := fun s => s.blockTop.toNat + 2 < 2 ^ 64 ∧ s.check.HoldsTop)
      (fun s action hinv hread => (step_moves kConsensus s action).locksSafely_of_reads hinv hread) ⟨hsmall, trivial⟩
  exact hsafe.invariant (fun s action hsafe h =>
    (h.moves_iff (step_moves kConsensus s action)).mpr hsafe) (notLost_start blockTop)

/-- The read of the block top fails: a message of height 100 is dropped while the block top is 100. -/
theorem failed_read_drops : ¬ ∀ (kConsensus : ℕ) (blockTop : UInt64) (actions : List (Action ℕ)),
    NotLost (actions.foldl (step kConsensus) (start ℕ blockTop)) := by
  intro h
  have hrightly := (h 7 100 [.add 100 1, .getBlockTop false, .getNodelist [], .lock]).rightly
  obtain ⟨blockTop, hmem, hlt⟩ := hrightly ⟨100, 1, [100]⟩ (by decide)
  obtain rfl := List.mem_singleton.mp hmem
  exact absurd hlt (by decide)

end Tfs.Ca.FailedTransactionCache
