import Tfs.Lib.TwoPhase
import Tfs.Db.Schema

/-! Transactions of the chain database side by side (`DBReadWriter` in `db/db_api.cpp` over
    `RocksDBReadWriter` in `db/rocksdb_read_write.cpp`).

    Every `DBReadWriter` is a RocksDB transaction of its own, and several threads work with one each.
    A setter locks its key, also where it first reads the list it changes, and the lock stays until
    the transaction is committed or rolled back. -/

namespace Tfs.Db

open TwoPhase

/-! ### A setter as an operation on its key -/

/-- A writer no one else works beside. -/
def lone (data : StdMap Str Str) : RocksDBReadWriter := ⟨true, some ⟨data, fun _ => false⟩⟩

/-- What a setter does, by what it finds under its key. -/
def Setter.op (s : Setter) : Op Str Str DBStatus where
  key := s.action.key
  answer content := (s.call (lone fun _ => content)).1
  update content := (s.call (lone fun _ => content)).2.stored s.action.key

/-- The setters of a transaction one after the other. -/
def RocksDBReadWriter.runSetters (w : RocksDBReadWriter) : List Setter → List DBStatus × RocksDBReadWriter
  | [] => ([], w)
  | s :: rest =>
    let (status, w) := s.call w
    let (statuses, w) := w.runSetters rest
    (status :: statuses, w)

theorem KeyArg.utxo_text_ne_nil : ∀ u : KeyArg .utxo, u.text ≠ []
  | .utxo a h => by simp [KeyArg.text]

theorem DbKey.text_ne_nil (k : DbKey) : k.text ≠ [] := by
  obtain ⟨table, arg⟩ := k
  by_cases ht : table = .utxoValueByUtxoHashs
  · subst ht
    exact fun h => KeyArg.utxo_text_ne_nil arg (List.append_eq_nil_iff.mp h).2
  · intro h
    have hhead := (List.append_eq_nil_iff.mp h).1
    have hmem := Table.heads_checked.2.2 table ht
    rw [hhead] at hmem
    cases hmem

theorem Setter.key_ne_nil (s : Setter) : s.action.key ≠ [] := s.action_key ▸ s.key.text_ne_nil

theorem accepts_lone (data : StdMap Str Str) {key : Str} (h : key ≠ []) : (lone data).accepts key := by
  simp [RocksDBReadWriter.accepts, RocksDBReadWriter.checked, lone, h]

/-- Two writers reply the same, and are left alike under the key. -/
def RepliesAlike (w w' : RocksDBReadWriter) (key : Str) (r r' : Reply) : Prop :=
  ∃ returned status content,
    r = ⟨returned, status, w.put key content⟩ ∧ r' = ⟨returned, status, w'.put key content⟩

section Alike
variable {w w' : RocksDBReadWriter} {key : Str} (ha : w.accepts key) (ha' : w'.accepts key)
include ha ha'

/-- A reply that leaves both writers as they are. -/
theorem repliesAlike_unchanged (hs : w'.stored key = w.stored key) (returned : Bool)
    (status : Status) : RepliesAlike w w' key ⟨returned, status, w⟩ ⟨returned, status, w'⟩ := by
  refine ⟨returned, status, w.stored key, ?_, ?_⟩
  · rw [RocksDBReadWriter.put_stored ha]
  · rw [← hs, RocksDBReadWriter.put_stored ha']

theorem repliesAlike_writeData (hs : w'.stored key = w.stored key) (value : Str) :
    RepliesAlike w w' key (w.writeData key value) (w'.writeData key value) := by
  by_cases hv : value = []
  · obtain ⟨_, -, hc, -⟩ := RocksDBReadWriter.exists_txn ha
    obtain ⟨_, -, hc', -⟩ := RocksDBReadWriter.exists_txn ha'
    simpa only [RocksDBReadWriter.writeData, hc, hc', if_pos hv, RocksDBReadWriter.refuse]
      using repliesAlike_unchanged ha ha' hs false .aborted
  · exact ⟨_, _, _, RocksDBReadWriter.writeData_of_accepts ha hv,
      RocksDBReadWriter.writeData_of_accepts ha' hv⟩

theorem repliesAlike_deleteData :
    RepliesAlike w w' key (w.deleteData key) (w'.deleteData key) :=
  ⟨_, _, _, RocksDBReadWriter.deleteData_of_accepts ha, RocksDBReadWriter.deleteData_of_accepts ha'⟩

end Alike

/-- On an accepted key an action's result depends on what is stored there, and on nothing else. -/
theorem Action.perform_alike {w w' : RocksDBReadWriter} {a : Action} (ha : w.accepts a.key)
    (ha' : w'.accepts a.key) (hs : w'.stored a.key = w.stored a.key) :
    RepliesAlike w w' a.key (a.perform w) (a.perform w') := by
  have hread := RocksDBReadWriter.readForUpdate_of_accepts ha
  have hread' := RocksDBReadWriter.readForUpdate_of_accepts ha'
  rw [hs] at hread'
  obtain ⟨_, -, hc, -⟩ := RocksDBReadWriter.exists_txn ha
  obtain ⟨_, -, hc', -⟩ := RocksDBReadWriter.exists_txn ha'
  cases a with
  | writeData key value => exact repliesAlike_writeData ha ha' hs value
  | deleteData key => exact repliesAlike_deleteData ha ha'
  | mergeValue key value firstOrLast =>
    simp only [Action.key] at ha ha' hread hread' hc hc' hs ⊢
    simp only [Action.perform, RocksDBReadWriter.mergeValue, hread, hread', hc, hc', Option.isNone_some,
      Bool.false_eq_true, false_or]
    by_cases hv : value = []
    · simpa only [if_pos hv, RocksDBReadWriter.refuse]
        using repliesAlike_unchanged ha ha' hs false .aborted
    · simp only [if_neg hv]
      cases hstored : w.stored key with
      | none => exact repliesAlike_writeData ha ha' hs value
      | some old => exact repliesAlike_writeData ha ha' hs _
  | removeMergeValue key value =>
    simp only [Action.key] at ha ha' hread hread' hc hc' hs ⊢
    simp only [Action.perform, RocksDBReadWriter.removeMergeValue, hread, hread', hc, hc',
      Option.isNone_some, Bool.false_eq_true, false_or]
    by_cases hv : value = []
    · simpa only [if_pos hv, RocksDBReadWriter.refuse]
        using repliesAlike_unchanged ha ha' hs false .aborted
    · simp only [if_neg hv]
      cases hstored : w.stored key with
      | none => simpa using repliesAlike_unchanged ha ha' hs true .notFound
      | some old =>
        simp only [Option.elim_some]
        split
        · exact repliesAlike_deleteData ha ha'
        · exact repliesAlike_writeData ha ha' hs _

/-- On an accepted key a setter is the operation. -/
theorem Setter.call_of_accepts {w : RocksDBReadWriter} (s : Setter) (ha : w.accepts s.action.key) :
    s.call w = (s.op.answer (w.stored s.op.key),
      w.put s.op.key (s.op.update (w.stored s.op.key))) := by
  have hlone := accepts_lone (fun _ => w.stored s.action.key) s.key_ne_nil
  obtain ⟨returned, status, content, hw, hl⟩ := Action.perform_alike ha hlone rfl
  simp only [Setter.op, Setter.call, hw, hl, RocksDBReadWriter.stored_put hlone]

theorem Setter.call_lone (s : Setter) (data : StdMap Str Str) :
    s.call (lone data) = (s.op.answer (data s.op.key), lone (s.op.apply data)) :=
  s.call_of_accepts (accepts_lone data s.key_ne_nil)

/-- The operations alone are the setters on a writer of their own. -/
theorem runSetters_of_serial {d d' : StdMap Str Str} : ∀ {calls : List (Setter × DBStatus)},
    Serial d (calls.map fun call => (call.1.op, call.2)) d' →
      (lone d).runSetters (calls.map Prod.fst) = (calls.map Prod.snd, lone d')
  | [], h => by
    cases h
    rfl
  | (s, status) :: calls, h => by
    simp only [List.map_cons] at h ⊢
    cases h with
    | cons hrest =>
      simp only [RocksDBReadWriter.runSetters, s.call_lone, runSetters_of_serial hrest]

/-! ### The handles -/

/-- The value of an action is not empty. With an empty one it is refused before any lock is taken. -/
def Action.hasValue : Action → Bool
  | .writeData _ value => value ≠ []
  | .deleteData _ => true
  | .mergeValue _ value _ => value ≠ []
  | .removeMergeValue _ value => value ≠ []

/-- A `DBReadWriter`: it is constructed once, used, and destroyed. -/
inductive Life where
  | unborn | alive | dead
  deriving DecidableEq, Repr

/-- `auto_oper_trans`, and whether `txn_` is not null. -/
structure Handle where
  life : Life
  autoOperTrans : Bool
  txn : Bool
  deriving DecidableEq, Repr

/-- How RocksDB ends a commit. A failing one may have dropped what the transaction held. -/
inductive Outcome where
  | done | kept | dropped
  deriving DecidableEq, Repr

/-- The store and the handles. `calls` are those each open transaction carried out, with the answers,
    and `committed` those of the committed ones, in the order of the commits. -/
structure Database (ι : Type) where
  isInitSuccess : Bool
  store : Store ι Str Str
  handles : ι → Handle
  calls : ι → List (Setter × DBStatus)
  committed : List (List (Setter × DBStatus))

namespace Database

variable {ι : Type} [DecidableEq ι] (db : Database ι) (i : ι)

/-- The open store before the first handle. -/
def start (data : StdMap Str Str) : Database ι :=
  ⟨true, .unlocked data, fun _ => ⟨.unborn, false, false⟩, fun _ => [], []⟩

/-- The writer inside a handle: its transaction reads what is committed and what it wrote itself. -/
def writer : RocksDBReadWriter :=
  ⟨db.isInitSuccess,
    if (db.handles i).txn then some ⟨db.store.view i, db.store.lockedFor i⟩ else none⟩

/-- The handle changes. -/
def setHandle (handle : Handle) : Database ι := { db with handles := Function.update db.handles i handle }

/-- Its transaction is gone with its locks. -/
def drop : Database ι :=
  { db with store := db.store.release i, calls := Function.update db.calls i [] }

/-- `DBReadWriter::TransactionRollBack`; `rollback`: whether RocksDB's own goes through. -/
def transactionRollBack (rollback : Bool) : DBStatus × Database ι :=
  let handle := db.handles i
  if handle.autoOperTrans then
    if db.isInitSuccess ∧ handle.txn ∧ rollback then
      (.success, (db.drop i).setHandle i { handle with txn := false })
    else (.error, db)
  else (.success, db)

/-- `DBReadWriter::ReTransactionInit`; `begins`: whether RocksDB gives a transaction. -/
def reTransactionInit (rollback begins : Bool) : DBStatus × Database ι :=
  let rolledBack := db.transactionRollBack i rollback
  let handle := rolledBack.2.handles i
  if rolledBack.1 ≠ .success then rolledBack
  else
    (if begins then .success else .error,
      rolledBack.2.setHandle i { handle with autoOperTrans := true, txn := begins })

/-- `DBReadWriter::TransactionCommit`. -/
def transactionCommit (outcome : Outcome) : DBStatus × Database ι :=
  let handle := db.handles i
  if db.isInitSuccess ∧ handle.txn then
    match outcome with
    | .done =>
      (.success,
        { db with
          store := db.store.commit i
          handles := Function.update db.handles i { handle with autoOperTrans := false, txn := false }
          calls := Function.update db.calls i []
          committed := db.committed ++ [db.calls i] })
    | .kept => (.error, db)
    | .dropped => (.error, db.drop i)
  else (.error, db)

/-- A setter. It asks RocksDB for the lock unless a check fails before. -/
def set (s : Setter) : DBStatus × Database ι :=
  let reply := s.call (db.writer i)
  if (db.writer i).accepts s.action.key ∧ s.action.hasValue then
    (reply.1,
      { db with
        store := db.store.leave i s.action.key (reply.2.stored s.action.key)
        calls := Function.update db.calls i (db.calls i ++ [(s, reply.1)]) })
  else (reply.1, db)

/-- What happens to the database. -/
inductive Event (ι : Type) where
  | construct (i : ι) (begins : Bool)
  | destruct (i : ι) (rollback : Bool)
  | reTransactionInit (i : ι) (rollback begins : Bool)
  | transactionCommit (i : ι) (outcome : Outcome)
  | set (i : ι) (s : Setter)
  | destoryDB

/-- One call. A handle is constructed before it is used and not used once it is destroyed. -/
def step (db : Database ι) : Event ι → Database ι
  | .construct i begins =>
    if (db.handles i).life = .unborn then
      ((db.setHandle i ⟨.alive, false, false⟩).reTransactionInit i true begins).2
    else db
  | .destruct i rollback =>
    if (db.handles i).life = .alive then
      let db := (db.transactionRollBack i rollback).2
      db.setHandle i { db.handles i with life := .dead }
    else db
  | .reTransactionInit i rollback begins =>
    if (db.handles i).life = .alive then (db.reTransactionInit i rollback begins).2 else db
  | .transactionCommit i outcome =>
    if (db.handles i).life = .alive then (db.transactionCommit i outcome).2 else db
  | .set i s => if (db.handles i).life = .alive then (db.set i s).2 else db
  | .destoryDB => { db with isInitSuccess := false }

/-- The database after calls on its handles, in whatever order the threads make them. -/
def run : Database ι → List (Event ι) → Database ι := List.foldl step

/-! ### What the handles do to the transactions -/

/-- A setter with its answer as an operation with its answer. -/
def entry (call : Setter × DBStatus) : Op Str Str DBStatus × DBStatus := (call.1.op, call.2)

/-- The transactions of the handles. -/
def asRun : Run ι Str Str DBStatus :=
  ⟨db.store, fun i => (db.calls i).map entry, db.committed.map (List.map entry)⟩

/-- Beside the soundness of the transactions: a handle without one has nothing to commit, and none
    drops its pointer to one that is open. -/
structure Sound (data : StdMap Str Str) (db : Database ι) : Prop where
  asRun : db.asRun.Sound data
  calls : ∀ i, (db.handles i).txn = false → db.calls i = []
  auto : ∀ i, (db.handles i).txn → (db.handles i).autoOperTrans
  unborn : ∀ i, (db.handles i).life = .unborn → (db.handles i).txn = false

variable {db i} {data : StdMap Str Str}

theorem map_update (calls : List (Setter × DBStatus)) :
    (fun j => (Function.update db.calls i calls j).map entry)
      = Function.update (fun j => (db.calls j).map entry) i (calls.map entry) := by
  funext j
  exact Function.apply_update (fun _ => List.map entry) db.calls i calls j

theorem asRun_drop : (db.drop i).asRun = db.asRun.step (.release i) := by
  rw [asRun, drop, map_update]
  rfl

theorem asRun_commit :
    asRun { db with
      store := db.store.commit i
      calls := Function.update db.calls i []
      committed := db.committed ++ [db.calls i] } = db.asRun.step (.commit i) := by
  simp only [asRun, map_update, List.map_append, List.map_cons, List.map_nil, Run.step]

omit [DecidableEq ι] in
theorem asRun_start : (start data : Database ι).asRun = Run.start data := rfl

theorem asRun_set (s : Setter) (h : db.store.lockedFor i s.op.key = false) :
    asRun { db with
      store := db.store.leave i s.op.key (s.op.update (db.store.view i s.op.key))
      calls := Function.update db.calls i
        (db.calls i ++ [(s, s.op.answer (db.store.view i s.op.key))]) }
      = db.asRun.step (.access i s.op) := by
  have hlocked : db.asRun.store.lockedFor i s.op.key = false := h
  rw [Run.step, hlocked, if_neg Bool.false_ne_true]
  simp only [asRun, map_update, List.map_append, List.map_cons, List.map_nil, entry]

theorem sound_start : Sound data (start data : Database ι) := by
  refine ⟨?_, fun _ _ => rfl, fun _ h => absurd h Bool.false_ne_true, fun _ _ => rfl⟩
  rw [asRun_start]
  exact Run.sound_start

/-- The handle may change as long as it does not lose an open transaction. -/
theorem Sound.setHandle (h : Sound data db) {handle : Handle}
    (hcalls : handle.txn = false → db.calls i = []) (hauto : handle.txn → handle.autoOperTrans)
    (hunborn : handle.life = .unborn → handle.txn = false) : Sound data (db.setHandle i handle) := by
  refine ⟨h.asRun, fun j => ?_, fun j => ?_, fun j => ?_⟩ <;> by_cases hj : j = i
  · subst hj
    simpa [Database.setHandle] using hcalls
  · simpa [Database.setHandle, hj] using h.calls j
  · subst hj
    simpa [Database.setHandle] using hauto
  · simpa [Database.setHandle, hj] using h.auto j
  · subst hj
    simpa [Database.setHandle] using hunborn
  · simpa [Database.setHandle, hj] using h.unborn j

/-- A transaction that ends leaves the handles as they are, and its own without calls. -/
theorem Sound.ended (h : Sound data db) {db' : Database ι} (hrun : db'.asRun.Sound data)
    (hhandles : db'.handles = db.handles) (hcalls : db'.calls = Function.update db.calls i []) :
    Sound data db' ∧ db'.calls i = [] := by
  have hnil : db'.calls i = [] := by
    rw [hcalls, Function.update_self]
  refine ⟨⟨hrun, fun j hj => ?_, hhandles ▸ h.auto, hhandles ▸ h.unborn⟩, hnil⟩
  by_cases hji : j = i
  · rw [hji, hnil]
  · rw [hhandles] at hj
    rw [hcalls, Function.update_of_ne hji, h.calls j hj]

theorem Sound.drop (h : Sound data db) : Sound data (db.drop i) ∧ (db.drop i).calls i = [] := by
  have hrun := h.asRun.step (.release i)
  rw [← asRun_drop] at hrun
  exact h.ended hrun rfl rfl

/-- After a rollback that answers with success the handle has no transaction. -/
theorem Sound.transactionRollBack (h : Sound data db) (rollback : Bool) :
    Sound data (db.transactionRollBack i rollback).2
      ∧ (((db.transactionRollBack i rollback).2.handles i).life = (db.handles i).life)
      ∧ ((db.transactionRollBack i rollback).1 = .success →
        ((db.transactionRollBack i rollback).2.handles i).txn = false
          ∧ (db.transactionRollBack i rollback).2.calls i = []) := by
  rw [Database.transactionRollBack]
  by_cases hauto : (db.handles i).autoOperTrans
  · simp only [hauto, if_true]
    split
    · obtain ⟨hdrop, hnil⟩ := h.drop (i := i)
      refine ⟨hdrop.setHandle (fun _ => hnil) (by simp) (by simp), ?_, fun _ => ⟨?_, hnil⟩⟩
      · simp [Database.setHandle]
      · simp [Database.setHandle]
    · exact ⟨h, rfl, by simp⟩
  · simp only [hauto, Bool.false_eq_true, if_false]
    have htxn : (db.handles i).txn = false := by
      cases htxn : (db.handles i).txn with
      | false => rfl
      | true => exact absurd (h.auto i htxn) hauto
    simpa [htxn] using And.intro h (h.calls i htxn)

theorem Sound.reTransactionInit (h : Sound data db) (hlife : (db.handles i).life = .alive)
    (rollback begins : Bool) : Sound data (db.reTransactionInit i rollback begins).2 := by
  obtain ⟨hsound, hsame, hclosed⟩ := h.transactionRollBack (i := i) rollback
  rw [Database.reTransactionInit]
  split
  · exact hsound
  · rename_i hstatus
    obtain ⟨-, hnil⟩ := hclosed (by simpa using hstatus)
    refine hsound.setHandle (fun _ => hnil) (fun _ => rfl) fun hunborn => ?_
    rw [hsame, hlife] at hunborn
    cases hunborn

theorem Sound.transactionCommit (h : Sound data db) (outcome : Outcome) :
    Sound data (db.transactionCommit i outcome).2 := by
  simp only [Database.transactionCommit]
  split
  · cases outcome with
    | kept => exact h
    | dropped => exact h.drop.1
    | done =>
      have hrun := h.asRun.step (.commit i)
      rw [← asRun_commit] at hrun
      obtain ⟨hcommit, hnil⟩ := h.ended hrun rfl rfl
      exact hcommit.setHandle (fun _ => hnil) (by simp) fun _ => rfl
  · exact h

/-- A writer that would be let through has a transaction, and the key is free for it. -/
theorem writer_of_accepts {key : Str} (h : (db.writer i).accepts key) :
    (db.handles i).txn ∧ db.store.lockedFor i key = false
      ∧ (db.writer i).stored key = db.store.view i key := by
  obtain ⟨txn, htxn, -, hfree⟩ := RocksDBReadWriter.exists_txn h
  rw [RocksDBReadWriter.stored, htxn, Option.bind_some]
  rw [writer] at htxn
  split at htxn
  · rename_i hopen
    cases htxn
    exact ⟨hopen, hfree, rfl⟩
  · cases htxn

/-- A setter that gets its lock is the operation, and one that does not leaves everything alone. -/
theorem Sound.set (h : Sound data db) (s : Setter) : Sound data (db.set i s).2 := by
  rw [Database.set]
  split
  · rename_i hset
    have hcall := s.call_of_accepts hset.1
    obtain ⟨hopen, hfree, hstored⟩ := writer_of_accepts hset.1
    have hleft : ((db.writer i).put s.op.key (s.op.update ((db.writer i).stored s.op.key))).stored
        s.action.key = s.op.update (db.store.view i s.op.key) :=
      (RocksDBReadWriter.stored_put hset.1 _).trans (congrArg s.op.update hstored)
    refine ⟨?_, fun j hj => ?_, h.auto, h.unborn⟩
    · have hrun := h.asRun.step (.access i s.op)
      rw [← asRun_set s hfree] at hrun
      have hanswer : s.op.answer ((db.writer i).stored s.op.key)
          = s.op.answer (db.store.view i s.op.key) := congrArg s.op.answer hstored
      simp only [hcall, hleft, hanswer]
      exact hrun
    · have hji : j ≠ i := by
        rintro rfl
        exact absurd hopen (by simpa using hj)
      simpa [hji] using h.calls j hj
  · exact h

theorem Sound.step (h : Sound data db) (event : Event ι) : Sound data (db.step event) := by
  cases event with
  | construct i begins =>
    rw [Database.step]
    split
    · rename_i hunborn
      have hnil := h.calls i (h.unborn i hunborn)
      have halive : Sound data (db.setHandle i ⟨.alive, false, false⟩) :=
        h.setHandle (fun _ => hnil) (by simp) (by simp)
      refine halive.reTransactionInit ?_ true begins
      simp [Database.setHandle]
    · exact h
  | destruct i rollback =>
    rw [Database.step]
    split
    · obtain ⟨hsound, -, -⟩ := h.transactionRollBack (i := i) rollback
      exact hsound.setHandle (hsound.calls i) (hsound.auto i) fun hdead => by cases hdead
    · exact h
  | reTransactionInit i rollback begins =>
    rw [Database.step]
    split
    · rename_i hlife
      exact h.reTransactionInit hlife rollback begins
    · exact h
  | transactionCommit i outcome =>
    rw [Database.step]
    split
    · exact h.transactionCommit outcome
    · exact h
  | set i s =>
    rw [Database.step]
    split
    · exact h.set s
    · exact h
  | destoryDB => exact ⟨h.asRun, h.calls, h.auto, h.unborn⟩

theorem Sound.run (h : Sound data db) (events : List (Event ι)) : Sound data (db.run events) := by
  induction events generalizing db with
  | nil => exact h
  | cons event events ih => exact ih (h.step event)

end Database

/-- Whatever the threads do with their handles, and whichever calls, commits and rollbacks fail: the
    committed transactions together did to the database, and answered, what their setters do one after
    the other with no one beside them, in the order of the commits. Each open one stands where it would
    stand alone after these, and a key is locked only for an open transaction that called a setter of
    it. -/
theorem transactions_serializable {ι : Type} [DecidableEq ι] (data : StdMap Str Str)
    (events : List (Database.Event ι)) :
    let db := (Database.start data).run events
    (lone data).runSetters (db.committed.flatten.map Prod.fst)
        = (db.committed.flatten.map Prod.snd, lone db.store.data)
      ∧ (∀ i, (lone db.store.data).runSetters ((db.calls i).map Prod.fst)
        = ((db.calls i).map Prod.snd, lone (db.store.view i)))
      ∧ ∀ i key, db.store.owns i key →
        (db.handles i).txn ∧ ∃ call ∈ db.calls i, call.1.action.key = key := by
  intro db
  have h : Database.Sound data db := Database.sound_start.run events
  refine ⟨runSetters_of_serial ?_, fun i => runSetters_of_serial (h.asRun.log i), fun i key hkey => ?_⟩
  · have hhistory := h.asRun.history
    rw [Database.asRun, ← List.map_flatten] at hhistory
    exact hhistory
  · obtain ⟨e, he, hkey⟩ := (h.asRun.owns i key).mp hkey
    obtain ⟨call, hcall, rfl⟩ := List.mem_map.mp he
    refine ⟨?_, call, hcall, hkey⟩
    cases htxn : (db.handles i).txn with
    | true => rfl
    | false =>
      rw [h.calls i htxn] at hcall
      cases hcall

/-! ### The lists behind the values -/

/-- What an action does to the list its value stands for. -/
def Action.onList : Action → List Str → List Str
  | .writeData _ value, l => if value = [] then l else listOf (some value)
  | .deleteData _, _ => []
  | .mergeValue _ value firstOrLast, l => insertAbsent value firstOrLast l
  | .removeMergeValue _ value, l => l.filter (· ≠ value)

/-- A value that is merged into a list is a member: not empty, and without the separator. -/
def Action.Plain : Action → Prop
  | .mergeValue _ value _ => PlainValue value
  | .removeMergeValue _ value => value ≠ []
  | _ => True

instance : ∀ a : Action, Decidable a.Plain
  | .mergeValue _ value _ => inferInstanceAs (Decidable (PlainValue value))
  | .removeMergeValue _ value => inferInstanceAs (Decidable (value ≠ []))
  | .writeData _ _ => .isTrue trivial
  | .deleteData _ => .isTrue trivial

theorem Setter.listOf_update {s : Setter} (h : s.action.Plain) (content : Option Str) :
    listOf (s.op.update content) = s.action.onList (listOf content) := by
  have ha := accepts_lone (fun _ => content) s.key_ne_nil
  have hput := RocksDBReadWriter.stored_put ha
  have hstored : (lone fun _ => content).stored s.action.key = content := rfl
  simp only [Setter.op, Setter.call]
  cases hact : s.action with
  | writeData key value =>
    simp only [hact, Action.key] at ha hput hstored
    simp only [Action.perform, Action.onList, Action.key]
    by_cases hv : value = []
    · obtain ⟨_, -, hc, -⟩ := RocksDBReadWriter.exists_txn ha
      simp only [RocksDBReadWriter.writeData, hc, if_pos hv, RocksDBReadWriter.refuse, hstored]
    · rw [RocksDBReadWriter.writeData_of_accepts ha hv, if_neg hv, hput]
  | deleteData key =>
    simp only [hact, Action.key] at ha hput
    simp only [Action.perform, Action.onList, Action.key]
    rw [RocksDBReadWriter.deleteData_of_accepts ha, hput]
    rfl
  | mergeValue key value firstOrLast =>
    simp only [hact, Action.key, Action.Plain] at ha hput hstored h
    obtain ⟨merged, hcall, hlist⟩ := RocksDBReadWriter.mergeValue_listOf ha h firstOrLast
    simp only [Action.perform, Action.onList, Action.key]
    rw [hcall, hput, hlist, hstored]
  | removeMergeValue key value =>
    simp only [hact, Action.key, Action.Plain] at ha hput hstored h
    obtain ⟨status, left, hcall, hlist, -⟩ := RocksDBReadWriter.removeMergeValue_listOf ha h
    simp only [Action.perform, Action.onList, Action.key]
    rw [hcall, hput, hlist, hstored, eraseValues_eq_filter]

theorem listOf_serial {key : Str} : ∀ {calls : List (Setter × DBStatus)} {d d' : StdMap Str Str},
    Serial d (calls.map Database.entry) d' → (∀ call ∈ calls, call.1.action.Plain) →
      listOf (d' key) = ((calls.map fun call => call.1.action).filter fun a => a.key = key).foldl
        (fun l a => a.onList l) (listOf (d key))
  | [], _, _, h, _ => by
    cases h
    rfl
  | (s, status) :: calls, d, d', h, hplain => by
    simp only [List.map_cons, Database.entry] at h ⊢
    cases h with
    | cons hrest =>
      rw [listOf_serial hrest fun call hcall => hplain call (List.mem_cons_of_mem _ hcall)]
      have hs := s.listOf_update (hplain _ List.mem_cons_self) (d s.op.key)
      by_cases hkey : s.action.key = key
      · subst hkey
        have happly : s.op.apply d s.action.key = s.op.update (d s.op.key) := Function.update_self ..
        rw [happly, hs, List.filter_cons_of_pos (by simp), List.foldl_cons]
        rfl
      · have happly : s.op.apply d key = d key := Function.update_of_ne (Ne.symm hkey) ..
        rw [happly, List.filter_cons_of_neg (by simpa using hkey)]

/-- No member is lost or left over for the interleaving: under every key, the list is what the
    committed transactions' insertions and removals make of the list there was, in the order of the
    commits. -/
theorem transactions_lists {ι : Type} [DecidableEq ι] (data : StdMap Str Str)
    (events : List (Database.Event ι)) (key : Str)
    (hplain : ∀ call ∈ ((Database.start data).run events).committed.flatten, call.1.action.Plain) :
    let db := (Database.start data).run events
    listOf (db.store.data key)
      = ((db.committed.flatten.map fun call => call.1.action).filter fun a => a.key = key).foldl
        (fun l a => a.onList l) (listOf (data key)) := by
  intro db
  have h : Database.Sound data db := Database.sound_start.run events
  have hhistory := h.asRun.history
  rw [Database.asRun, ← List.map_flatten] at hhistory
  exact listOf_serial hhistory hplain

/-- Two threads at the same list: the second is refused until the first has committed, and then adds
    to what the first left. -/
def sampleThreads : List (Database.Event ℕ) :=
  [.construct 0 true, .construct 1 true, .set 0 (.setStakeAddresses (str "a")),
    .set 1 (.setStakeAddresses (str "b")), .transactionCommit 0 .done,
    .set 1 (.setStakeAddresses (str "c")), .transactionCommit 1 .done]

theorem transactions_lists_sample :
    listOf (((Database.start StdMap.empty).run sampleThreads).store.data kStakeAddrKey)
      = [str "a", str "c"] :=
  (transactions_lists StdMap.empty sampleThreads kStakeAddrKey (by decide)).trans (by decide)

end Tfs.Db
