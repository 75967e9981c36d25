import Tfs.Db.DbApi

/-! The transactional writer (`RocksDBReadWriter` in `db/rocksdb_read_write.cpp`).

    Almost every index of the chain is a list of texts kept in one value, its members separated by
    underscores. `mergeValue` and `removeMergeValue` read the value, split it, change the list and
    write it back joined. Below, any sequence of them is compared with the same sequence run on
    plain lists, key by key. -/

namespace Tfs.Db

/-- `rocksdb::Status`, as far as the writer tells the answers apart. -/
inductive Status where
  | ok | notFound | aborted | busy
  deriving DecidableEq, Repr

/-- A RocksDB transaction: what it reads under each key, its own writes included, and the keys
    another transaction holds, on which the locking calls answer with an error. -/
structure Txn where
  data : StdMap Str Str
  locked : Str → Bool

/-- `RocksDBReadWriter`: whether the store is open, and the transaction (`none`: the null pointer). -/
structure RocksDBReadWriter where
  isInitSuccess : Bool
  txn : Option Txn

/-- What a writing call gives back: its result, `retStatus`, and the writer it leaves. -/
structure Reply where
  returned : Bool
  retStatus : Status
  writer : RocksDBReadWriter

namespace RocksDBReadWriter

variable (w : RocksDBReadWriter) (key value : Str)

/-- The three checks every call makes first: the store is open, there is a transaction, the key is
    not empty. -/
def checked : Option Txn := if w.isInitSuccess ∧ key ≠ [] then w.txn else none

/-- A call that ends with `return false` and the given status. -/
def refuse (status : Status) : Reply := ⟨false, status, w⟩

/-- `RocksDBReadWriter::ReadData`. -/
def readData : Except Status Str :=
  match w.checked key with
  | none => .error .aborted
  | some txn => (txn.data key).elim (.error .notFound) .ok

/-- `RocksDBReadWriter::ReadForUpdate`: the read takes the key's lock. -/
def readForUpdate : Except Status Str :=
  match w.checked key with
  | none => .error .aborted
  | some txn =>
    if txn.locked key then .error .busy else (txn.data key).elim (.error .notFound) .ok

/-- `RocksDBReadWriter::WriteData`: an empty value is refused. -/
def writeData : Reply :=
  match w.checked key with
  | none => w.refuse .aborted
  | some txn =>
    if value = [] then w.refuse .aborted
    else if txn.locked key then w.refuse .busy
    else ⟨true, .ok, { w with txn := some { txn with data := txn.data.set key value } }⟩

/-- `RocksDBReadWriter::DeleteData`. -/
def deleteData : Reply :=
  match w.checked key with
  | none => w.refuse .aborted
  | some txn =>
    if txn.locked key then w.refuse .busy
    else ⟨true, .ok, { w with txn := some { txn with data := Function.update txn.data key none } }⟩

end RocksDBReadWriter

/-- The rejoining loop: every non-empty piece, followed by an underscore. -/
def joinValues : List Str → Str
  | [] => []
  | split_value :: rest =>
    if split_value = [] then joinValues rest else split_value ++ underline :: joinValues rest

/-- The `find`/`erase` loop of `RemoveMergeValue`. -/
def eraseValues (value : Str) (split_values : List Str) : List Str :=
  if value ∈ split_values then eraseValues value (split_values.erase value) else split_values
termination_by split_values.length
decreasing_by
  rename_i h
  have := List.length_erase_add_one h
  omega

namespace RocksDBReadWriter

variable (w : RocksDBReadWriter) (key value : Str)

/-- `RocksDBReadWriter::MergeValue`. A first value is written as it is, without an underscore. -/
def mergeValue (firstOrLast : Bool) : Reply :=
  if (w.checked key).isNone ∨ value = [] then w.refuse .aborted
  else match w.readForUpdate key with
    | .ok ret_value =>
      let split_values := splitString ret_value underline
      let split_values :=
        if value ∈ split_values then split_values
        else if firstOrLast then value :: split_values
        else split_values ++ [value]
      w.writeData key (joinValues split_values)
    | .error .notFound => w.writeData key value
    | .error status => w.refuse status

/-- `RocksDBReadWriter::RemoveMergeValue`. The key goes with its last value; a key that is not there
    counts as done. -/
def removeMergeValue : Reply :=
  if (w.checked key).isNone ∨ value = [] then w.refuse .aborted
  else match w.readForUpdate key with
    | .ok ret_value =>
      let ret_value := joinValues (eraseValues value (splitString ret_value underline))
      if ret_value = [] then w.deleteData key else w.writeData key ret_value
    | .error .notFound => ⟨true, .notFound, w⟩
    | .error status => w.refuse status

end RocksDBReadWriter

/-! ### Splitting what was joined -/

/-- A value the lists may hold: not empty, and without the separator. -/
def PlainValue (v : Str) : Prop := v ≠ [] ∧ underline ∉ v

instance (v : Str) : Decidable (PlainValue v) := inferInstanceAs (Decidable (_ ∧ _))

theorem splitString_plain {v : Str} (h : PlainValue v) : splitString v underline = [v] := by
  rw [splitString, List.splitOn_eq_singleton h.2]
  simp [h.1]

theorem splitString_cons {v : Str} (h : PlainValue v) (rest : Str) :
    splitString (v ++ underline :: rest) underline = v :: splitString rest underline := by
  rw [splitString, List.splitOn_append_cons_self_of_not_mem h.2]
  simp [h.1, splitString]

/-- No piece of a split is empty or holds the separator. -/
theorem plainValue_of_mem {s v : Str} (h : v ∈ splitString s underline) : PlainValue v := by
  obtain ⟨hv, hne⟩ := List.mem_filter.mp h
  refine ⟨by simpa using hne, ?_⟩
  clear h hne
  induction s generalizing v with
  | nil =>
    rw [List.splitOn_nil, List.mem_singleton] at hv
    simp [hv]
  | cons c s ih =>
    rw [List.splitOn_cons_eq_if_modifyHead] at hv
    split at hv
    · rcases List.mem_cons.mp hv with rfl | hv
      · simp
      · exact ih hv
    · rename_i hc
      obtain ⟨piece, pieces, hs⟩ := List.exists_cons_of_ne_nil (List.splitOn_ne_nil underline s)
      rw [hs, List.modifyHead_cons] at hv
      rcases List.mem_cons.mp hv with rfl | hv
      · have := ih (v := piece) (hs ▸ List.mem_cons_self)
        intro hmem
        rcases List.mem_cons.mp hmem with rfl | hmem
        · simp at hc
        · exact this hmem
      · exact ih (hs ▸ List.mem_cons_of_mem _ hv)

/-- Splitting undoes joining. -/
theorem splitString_joinValues : ∀ {l : List Str}, (∀ v ∈ l, PlainValue v) →
    splitString (joinValues l) underline = l
  | [], _ => rfl
  | v :: l, h => by
    have hv := h v List.mem_cons_self
    rw [joinValues, if_neg hv.1, splitString_cons hv,
      splitString_joinValues fun x hx => h x (List.mem_cons_of_mem _ hx)]

theorem joinValues_eq_nil {l : List Str} (h : ∀ v ∈ l, PlainValue v) : joinValues l = [] ↔ l = [] := by
  cases l with
  | nil => simp [joinValues]
  | cons v l => simp [joinValues, (h v List.mem_cons_self).1]

/-- The erasing loop takes out every copy. -/
theorem eraseValues_eq_filter (v : Str) (l : List Str) : eraseValues v l = l.filter (· ≠ v) := by
  fun_induction eraseValues v l with
  | case1 l h ih =>
    rw [ih]
    clear ih h
    induction l with
    | nil => rfl
    | cons x l ih =>
      by_cases hx : x = v
      · simp [hx]
      · rw [List.erase_cons_tail (by simpa using hx), List.filter_cons, List.filter_cons, ih]
  | case2 l h =>
    refine (List.filter_eq_self.mpr fun x hx => ?_).symm
    rw [decide_eq_true_eq]
    rintro rfl
    exact h hx

/-- On a list without repetition the erasing loop is one erasure. -/
theorem eraseValues_eq_erase {v : Str} {l : List Str} (h : l.Nodup) :
    eraseValues v l = l.erase v := by
  rw [eraseValues_eq_filter, h.erase_eq_filter]
  exact List.filter_congr fun x _ => by simp [bne, beq_eq_decide]

/-! ### What one call does to the store -/

namespace RocksDBReadWriter

variable {w : RocksDBReadWriter} {key value : Str}

/-- What the transaction holds under a key. -/
def stored (w : RocksDBReadWriter) (key : Str) : Option Str := w.txn.bind fun txn => txn.data key

/-- The writer goes through with a change of this key: none of the checks fails and RocksDB grants
    the lock. -/
def accepts (w : RocksDBReadWriter) (key : Str) : Bool :=
  (w.checked key).elim false fun txn => !txn.locked key

/-- The writer whose transaction holds `content` under `key`. -/
def put (w : RocksDBReadWriter) (key : Str) (content : Option Str) : RocksDBReadWriter :=
  { w with txn := w.txn.map fun txn => { txn with data := Function.update txn.data key content } }

theorem exists_txn (h : w.accepts key) :
    ∃ txn, w.txn = some txn ∧ w.checked key = some txn ∧ txn.locked key = false := by
  rw [accepts] at h
  cases hc : w.checked key with
  | none => simp [hc] at h
  | some txn =>
    rw [hc, Option.elim_some, Bool.not_eq_true'] at h
    rw [checked] at hc
    split at hc
    · exact ⟨txn, hc, rfl, h⟩
    · cases hc

theorem stored_put (h : w.accepts key) (content : Option Str) :
    (w.put key content).stored key = content := by
  obtain ⟨txn, htxn, -, -⟩ := exists_txn h
  simp [put, stored, htxn]

theorem stored_put_ne {key' : Str} (hne : key' ≠ key) (content : Option Str) :
    (w.put key content).stored key' = w.stored key' := by
  cases htxn : w.txn with
  | none => simp [put, stored, htxn]
  | some txn => simp [put, stored, htxn, hne]

/-- Writing a key changes neither the checks nor the locks. -/
@[simp] theorem accepts_put (key' : Str) (content : Option Str) :
    (w.put key content).accepts key' = w.accepts key' := by
  cases htxn : w.txn with
  | none => simp [put, accepts, checked, htxn]
  | some txn =>
    by_cases hc : w.isInitSuccess ∧ key' ≠ []
    · simp [put, accepts, checked, htxn, hc]
    · simp [put, accepts, checked, htxn, hc]

theorem put_stored (h : w.accepts key) : w.put key (w.stored key) = w := by
  obtain ⟨txn, htxn, -, -⟩ := exists_txn h
  rcases w with ⟨isInit, txn'⟩
  cases htxn
  simp [put, stored]

theorem readForUpdate_of_accepts (h : w.accepts key) :
    w.readForUpdate key = (w.stored key).elim (.error .notFound) .ok := by
  obtain ⟨txn, htxn, hc, hl⟩ := exists_txn h
  simp [readForUpdate, stored, htxn, hc, hl]

theorem writeData_of_accepts (h : w.accepts key) (hv : value ≠ []) :
    w.writeData key value = ⟨true, .ok, w.put key (some value)⟩ := by
  obtain ⟨txn, htxn, hc, hl⟩ := exists_txn h
  simp [writeData, put, htxn, hc, hl, hv, StdMap.set]

theorem deleteData_of_accepts (h : w.accepts key) :
    w.deleteData key = ⟨true, .ok, w.put key none⟩ := by
  obtain ⟨txn, htxn, hc, hl⟩ := exists_txn h
  simp [deleteData, put, htxn, hc, hl]

/-- A refused write leaves the writer as it was. -/
theorem writeData_of_refused (h : w.accepts key = false) :
    (w.writeData key value).returned = false ∧ (w.writeData key value).writer = w := by
  cases hc : w.checked key with
  | none => simp [writeData, hc, refuse]
  | some txn =>
    have hl : txn.locked key = true := by simpa [accepts, hc] using h
    by_cases hv : value = [] <;> simp [writeData, hc, hl, hv, refuse]

theorem deleteData_of_refused (h : w.accepts key = false) :
    (w.deleteData key).returned = false ∧ (w.deleteData key).writer = w := by
  cases hc : w.checked key with
  | none => simp [deleteData, hc, refuse]
  | some txn =>
    have hl : txn.locked key = true := by simpa [accepts, hc] using h
    simp [deleteData, hc, hl, refuse]

theorem readForUpdate_of_refused (h : w.accepts key = false) :
    w.readForUpdate key = .error .aborted ∨ w.readForUpdate key = .error .busy := by
  cases hc : w.checked key with
  | none => simp [readForUpdate, hc]
  | some txn =>
    have hl : txn.locked key = true := by simpa [accepts, hc] using h
    simp [readForUpdate, hc, hl]

theorem mergeValue_of_refused (h : w.accepts key = false) (firstOrLast : Bool) :
    (w.mergeValue key value firstOrLast).returned = false
      ∧ (w.mergeValue key value firstOrLast).writer = w := by
  rw [mergeValue]
  split
  · exact ⟨rfl, rfl⟩
  · rcases readForUpdate_of_refused h with hr | hr <;> rw [hr] <;> exact ⟨rfl, rfl⟩

theorem removeMergeValue_of_refused (h : w.accepts key = false) :
    (w.removeMergeValue key value).returned = false
      ∧ (w.removeMergeValue key value).writer = w := by
  rw [removeMergeValue]
  split
  · exact ⟨rfl, rfl⟩
  · rcases readForUpdate_of_refused h with hr | hr <;> rw [hr] <;> exact ⟨rfl, rfl⟩

/-! ### The lists behind the values -/

end RocksDBReadWriter

/-- The list a stored value stands for: no value, no members. -/
def listOf (content : Option Str) : List Str := content.elim [] fun value => splitString value underline

/-- The value is one the calls leave behind: none for the empty list, and no member twice. -/
structure Composite (content : Option Str) : Prop where
  nodup : (listOf content).Nodup
  absent : content = none ↔ listOf content = []

theorem composite_none : Composite none := ⟨List.nodup_nil, by simp [listOf]⟩

theorem plainValue_of_mem_listOf {content : Option Str} {v : Str} (h : v ∈ listOf content) :
    PlainValue v := by
  cases content with
  | none => cases h
  | some value => exact plainValue_of_mem h

/-- Insertion of an absent value, at the front or at the back. -/
def insertAbsent (value : Str) (firstOrLast : Bool) (l : List Str) : List Str :=
  if value ∈ l then l else if firstOrLast then value :: l else l ++ [value]

theorem mem_insertAbsent {value x : Str} {firstOrLast : Bool} {l : List Str}
    (h : x ∈ insertAbsent value firstOrLast l) : x = value ∨ x ∈ l := by
  rw [insertAbsent] at h
  split at h
  · exact .inr h
  · split at h
    · exact List.mem_cons.mp h
    · simpa [or_comm] using h

theorem insertAbsent_ne_nil (value : Str) (firstOrLast : Bool) (l : List Str) :
    insertAbsent value firstOrLast l ≠ [] := by
  rw [insertAbsent]
  split
  · rename_i h
    exact List.ne_nil_of_mem h
  · split <;> simp

theorem nodup_insertAbsent {value : Str} {firstOrLast : Bool} {l : List Str} (h : l.Nodup) :
    (insertAbsent value firstOrLast l).Nodup := by
  rw [insertAbsent]
  split
  · exact h
  · rename_i hv
    split
    · exact List.nodup_cons.mpr ⟨hv, h⟩
    · exact (List.perm_append_singleton value l).nodup_iff.mpr (List.nodup_cons.mpr ⟨hv, h⟩)

namespace RocksDBReadWriter

variable {w : RocksDBReadWriter} {key value : Str}

/-- `MergeValue` of a plain value is the insertion, on an accepted key, whatever text is there. -/
theorem mergeValue_listOf (ha : w.accepts key) (hv : PlainValue value) (firstOrLast : Bool) :
    ∃ content, w.mergeValue key value firstOrLast = ⟨true, .ok, w.put key (some content)⟩
      ∧ listOf (some content) = insertAbsent value firstOrLast (listOf (w.stored key)) := by
  obtain ⟨txn, -, hchk, -⟩ := exists_txn ha
  have hguard : ¬ ((w.checked key).isNone ∨ value = []) := by simp [hchk, hv.1]
  rw [mergeValue, if_neg hguard, readForUpdate_of_accepts ha]
  cases hs : w.stored key with
  | none =>
    refine ⟨value, writeData_of_accepts ha hv.1, ?_⟩
    have heq : listOf (some value) = [value] := splitString_plain hv
    rw [heq]
    cases firstOrLast <;> rfl
  | some old =>
    have hplain : ∀ x ∈ insertAbsent value firstOrLast (listOf (some old)), PlainValue x := by
      intro x hx
      rcases mem_insertAbsent hx with rfl | hx
      · exact hv
      · exact plainValue_of_mem_listOf hx
    have hne := insertAbsent_ne_nil value firstOrLast (listOf (some old))
    exact ⟨_, writeData_of_accepts ha (fun h => hne ((joinValues_eq_nil hplain).mp h)),
      splitString_joinValues hplain⟩

/-- From such a list to such a list. -/
theorem mergeValue_spec (ha : w.accepts key) (hv : PlainValue value) (hc : Composite (w.stored key))
    (firstOrLast : Bool) : ∃ content,
      w.mergeValue key value firstOrLast = ⟨true, .ok, w.put key content⟩
        ∧ listOf content = insertAbsent value firstOrLast (listOf (w.stored key))
        ∧ Composite content := by
  obtain ⟨content, hmerge, hlist⟩ := mergeValue_listOf ha hv firstOrLast
  refine ⟨some content, hmerge, hlist, hlist ▸ nodup_insertAbsent hc.nodup, ?_⟩
  simp [hlist, insertAbsent_ne_nil]

/-- `RemoveMergeValue` of a value takes out its copies, on an accepted key, whatever text is there. The
    key is gone when none is left. -/
theorem removeMergeValue_listOf (ha : w.accepts key) (hv : value ≠ []) :
    ∃ status content, w.removeMergeValue key value = ⟨true, status, w.put key content⟩
      ∧ listOf content = eraseValues value (listOf (w.stored key))
      ∧ (content = none ↔ listOf content = []) := by
  obtain ⟨txn, -, hchk, -⟩ := exists_txn ha
  have hguard : ¬ ((w.checked key).isNone ∨ value = []) := by simp [hchk, hv]
  rw [removeMergeValue, if_neg hguard, readForUpdate_of_accepts ha]
  cases hs : w.stored key with
  | none =>
    have hput : w.put key none = w := by rw [← hs, put_stored ha]
    refine ⟨.notFound, none, by rw [hput]; rfl, ?_, composite_none.absent⟩
    rw [eraseValues_eq_filter]
    rfl
  | some old =>
    have hplain : ∀ x ∈ eraseValues value (listOf (some old)), PlainValue x := by
      intro x hx
      rw [eraseValues_eq_filter] at hx
      exact plainValue_of_mem_listOf (List.mem_of_mem_filter hx)
    have hlist : splitString old underline = listOf (some old) := rfl
    simp only [Option.elim_some, hlist]
    split
    · rename_i hempty
      rw [joinValues_eq_nil hplain] at hempty
      exact ⟨.ok, none, deleteData_of_accepts ha, hempty.symm, composite_none.absent⟩
    · rename_i hne
      have hjoined : listOf (some (joinValues (eraseValues value (listOf (some old)))))
          = eraseValues value (listOf (some old)) := splitString_joinValues hplain
      refine ⟨.ok, _, writeData_of_accepts ha hne, hjoined, ?_⟩
      rw [hjoined, ← joinValues_eq_nil hplain]
      simp [hne]

/-- On such a list it is the removal. -/
theorem removeMergeValue_spec (ha : w.accepts key) (hv : value ≠ []) (hc : Composite (w.stored key)) :
    ∃ status content,
      w.removeMergeValue key value = ⟨true, status, w.put key content⟩
        ∧ listOf content = (listOf (w.stored key)).erase value ∧ Composite content := by
  obtain ⟨status, content, hremove, hlist, habsent⟩ := removeMergeValue_listOf ha hv
  rw [eraseValues_eq_erase hc.nodup] at hlist
  exact ⟨status, content, hremove, hlist, hlist ▸ hc.nodup.erase value, habsent⟩

end RocksDBReadWriter

/-! ### Runs -/

/-- One call on a composite value. -/
inductive MergeOp where
  | mergeValue (key value : Str) (firstOrLast : Bool)
  | removeMergeValue (key value : Str)
  deriving DecidableEq, Repr

namespace MergeOp

def key : MergeOp → Str
  | .mergeValue key _ _ => key
  | .removeMergeValue key _ => key

def value : MergeOp → Str
  | .mergeValue _ value _ => value
  | .removeMergeValue _ value => value

/-- The call on the writer. -/
def call (w : RocksDBReadWriter) : MergeOp → Reply
  | .mergeValue key value firstOrLast => w.mergeValue key value firstOrLast
  | .removeMergeValue key value => w.removeMergeValue key value

/-- The call on a plain list. -/
def onList : MergeOp → List Str → List Str
  | .mergeValue _ value firstOrLast, l => insertAbsent value firstOrLast l
  | .removeMergeValue _ value, l => l.erase value

/-- The list of `key` after the calls, of which only those that `accepts` lets through count. -/
def lists (accepts : Str → Bool) (key : Str) : List MergeOp → List Str → List Str
  | [], l => l
  | op :: ops, l => lists accepts key ops (if op.key = key ∧ accepts op.key then op.onList l else l)

end MergeOp

/-- The writer after the calls. -/
def RocksDBReadWriter.run (w : RocksDBReadWriter) : List MergeOp → RocksDBReadWriter
  | [] => w
  | op :: ops => (op.call w).writer.run ops

namespace RocksDBReadWriter

/-- An accepted call puts one value, which stands for the changed list. -/
theorem call_spec {w : RocksDBReadWriter} {op : MergeOp} (ha : w.accepts op.key)
    (hv : PlainValue op.value) (hc : Composite (w.stored op.key)) : ∃ content,
      (op.call w).returned = true ∧ (op.call w).writer = w.put op.key content
        ∧ listOf content = op.onList (listOf (w.stored op.key)) ∧ Composite content := by
  cases op with
  | mergeValue key value firstOrLast =>
    obtain ⟨content, hcall, hspec⟩ := mergeValue_spec ha hv hc firstOrLast
    exact ⟨content, congrArg Reply.returned hcall, congrArg Reply.writer hcall, hspec⟩
  | removeMergeValue key value =>
    obtain ⟨status, content, hcall, hspec⟩ := removeMergeValue_spec ha hv.1 hc
    exact ⟨content, congrArg Reply.returned hcall, congrArg Reply.writer hcall, hspec⟩

theorem call_of_refused {w : RocksDBReadWriter} {op : MergeOp} (h : w.accepts op.key = false) :
    (op.call w).returned = false ∧ (op.call w).writer = w := by
  cases op with
  | mergeValue key value firstOrLast => exact mergeValue_of_refused h firstOrLast
  | removeMergeValue key value => exact removeMergeValue_of_refused h

/-- One call changes at most the value of its own key, and neither checks nor locks. -/
theorem call_frame {w : RocksDBReadWriter} {op : MergeOp} (hv : PlainValue op.value)
    (hc : Composite (w.stored op.key)) (key : Str) :
    (op.call w).writer.accepts key = w.accepts key
      ∧ (op.key ≠ key → (op.call w).writer.stored key = w.stored key) := by
  cases ha : w.accepts op.key with
  | false => rw [(call_of_refused ha).2]; exact ⟨rfl, fun _ => rfl⟩
  | true =>
    obtain ⟨content, -, hw, -⟩ := call_spec ha hv hc
    rw [hw]
    exact ⟨accepts_put key content, fun hne => stored_put_ne (Ne.symm hne) content⟩

/-- One call acts on the list of every key as the plain list operation does. -/
theorem call_listOf {w : RocksDBReadWriter} {op : MergeOp} (hv : PlainValue op.value)
    (hc : ∀ key, Composite (w.stored key)) (key : Str) :
    listOf ((op.call w).writer.stored key)
        = (if op.key = key ∧ w.accepts op.key then op.onList (listOf (w.stored key))
          else listOf (w.stored key))
      ∧ Composite ((op.call w).writer.stored key) := by
  by_cases hkey : op.key = key
  · subst hkey
    cases ha : w.accepts op.key with
    | false =>
      rw [(call_of_refused ha).2]
      exact ⟨by simp, hc op.key⟩
    | true =>
      obtain ⟨content, -, hw, hlist, hcomp⟩ := call_spec ha hv (hc op.key)
      rw [hw, stored_put ha]
      exact ⟨by simp [hlist], hcomp⟩
  · rw [(call_frame hv (hc op.key) key).2 hkey]
    exact ⟨by simp [hkey], hc key⟩

end RocksDBReadWriter

/-- Along every sequence of calls with plain values, from any store of such lists, each key stands
    for the duplicate-free list the same calls give, is absent exactly when that list is empty, and
    keeps its very value when no call names it. A call on a key the writer does not accept (the empty
    one among them) counts for nothing. -/
theorem composite_lists : ∀ (ops : List MergeOp) (w : RocksDBReadWriter),
    (∀ key, Composite (w.stored key)) → (∀ op ∈ ops, PlainValue op.value) → ∀ key,
      let expected := MergeOp.lists w.accepts key ops (listOf (w.stored key))
      listOf ((w.run ops).stored key) = expected ∧ expected.Nodup
        ∧ ((w.run ops).stored key = none ↔ expected = [])
        ∧ ((∀ op ∈ ops, op.key ≠ key) → (w.run ops).stored key = w.stored key)
  | [], w, hw, _, key => ⟨rfl, (hw key).nodup, (hw key).absent, fun _ => rfl⟩
  | op :: ops, w, hw, hops, key => by
    have hv := hops op List.mem_cons_self
    have hstep := RocksDBReadWriter.call_listOf hv hw
    have hacc : (op.call w).writer.accepts = w.accepts :=
      funext fun key => (RocksDBReadWriter.call_frame hv (hw op.key) key).1
    have ih := composite_lists ops (op.call w).writer (fun key => (hstep key).2)
      (fun o ho => hops o (List.mem_cons_of_mem _ ho)) key
    rw [hacc, (hstep key).1] at ih
    obtain ⟨hlist, hnd, habs, hsame⟩ := ih
    refine ⟨hlist, hnd, habs, fun hother => ?_⟩
    have hrest := hsame fun o ho => hother o (List.mem_cons_of_mem _ ho)
    have hfirst := hother op List.mem_cons_self
    rw [RocksDBReadWriter.run, hrest, (RocksDBReadWriter.call_frame hv (hw op.key) key).2 hfirst]

/-- A writer at work on an empty store, of which no one else holds a key. -/
def freshWriter : RocksDBReadWriter := ⟨true, some ⟨StdMap.empty, fun _ => false⟩⟩

/-- Two values put under one key, the second at the front, then the first removed: the members and
    their order come out of the joined text. -/
def sampleOps : List MergeOp :=
  [.mergeValue (str "stakeaddr_") (str "a") false, .mergeValue (str "stakeaddr_") (str "ab") true,
    .mergeValue (str "stakeaddr_") (str "b") false, .removeMergeValue (str "stakeaddr_") (str "a")]

theorem composite_lists_sample :
    listOf ((freshWriter.run sampleOps).stored (str "stakeaddr_")) = [str "ab", str "b"]
      ∧ (freshWriter.run sampleOps).stored (str "stakeaddr_") ≠ none
      ∧ (freshWriter.run sampleOps).stored (str "mutlisign_") = none := by
  have hfresh : ∀ key, Composite (freshWriter.stored key) := fun _ => composite_none
  have hplain : ∀ op ∈ sampleOps, PlainValue op.value := by decide
  have hstake := composite_lists sampleOps freshWriter hfresh hplain (str "stakeaddr_")
  have hother := composite_lists sampleOps freshWriter hfresh hplain (str "mutlisign_")
  have hexpected : MergeOp.lists freshWriter.accepts (str "stakeaddr_") sampleOps
      (listOf (freshWriter.stored (str "stakeaddr_"))) = [str "ab", str "b"] := by decide
  refine ⟨hstake.1.trans hexpected, ?_, hother.2.2.2 (by decide)⟩
  intro hnone
  exact absurd (hexpected.symm.trans (hstake.2.2.1.mp hnone)) (by decide)

/-- The empty key takes no value, so there the plain lists and the store part. -/
theorem composite_lists_empty_key :
    ¬ ∀ ops : List MergeOp, (∀ op ∈ ops, PlainValue op.value) → ∀ key,
      listOf ((freshWriter.run ops).stored key) = MergeOp.lists (fun _ => true) key ops [] := by
  intro h
  exact absurd (h [.mergeValue [] (str "a") false] (by decide) []) (by decide)

end Tfs.Db
