import Tfs.Lib.Decimal

/-! Waiting for the answers of other nodes (`GlobalDataManager` in `common/global_data.cpp`).

    `CreateWait` makes an object under an id taken from the clock, `AddResNode` names a node that will
    be asked, `AddWaitData` brings the answer of a node and `WaitData` hands the answers back. Every
    call finds its object under the lock of the map and works on it under the lock of the object, so
    other calls come in between, and an object lives on in the calls that hold it after it has left
    the map.

    What one object collects is right whatever the order is: one answer for each node that was named.
    Whether two requests share an object is another matter. The id is the hash of the time, so two
    calls of `CreateWait` at one time get one id and one object, and one of them is handed the answers
    that were sent to the other. -/

namespace Tfs.Common

/-! ### The objects -/

/-- An element of `data`, with the number of the call of `AddWaitData` that brought it (which no step
    looks at). -/
structure Datum where
  data : Str
  call : ℕ
  deriving DecidableEq, Repr

/-- `struct GlobalData`, without its mutex and condition variable. -/
structure GlobalData where
  msgId : Str
  retNum : UInt32
  timeOutSec : UInt32
  data : List Datum
  resIds : Finset Str
  deriving DecidableEq

namespace GlobalData

/-- The object `CreateWait` makes. -/
def create (timeOutSec retNum : UInt32) (msgId : Str) : GlobalData := ⟨msgId, retNum, timeOutSec, [], ∅⟩

/-- `AddResNode`, under the lock of the object. -/
def insertRes (g : GlobalData) (resId : Str) : GlobalData := { g with resIds := insert resId g.resIds }

/-- `AddWaitData`, under the lock of the object: an answer nobody waits for is refused. -/
def pushData (g : GlobalData) (resId : Str) (datum : Datum) : Bool × GlobalData :=
  if resId ∈ g.resIds then
    (true, { g with resIds := g.resIds.erase resId, data := g.data ++ [datum] })
  else (false, g)

@[simp] theorem pushData_msgId (g : GlobalData) (resId : Str) (datum : Datum) :
    (g.pushData resId datum).2.msgId = g.msgId := by
  unfold pushData
  split <;> rfl

@[simp] theorem pushData_retNum (g : GlobalData) (resId : Str) (datum : Datum) :
    (g.pushData resId datum).2.retNum = g.retNum := by
  unfold pushData
  split <;> rfl

/-- `data.size() >= retNum`. -/
def enough (g : GlobalData) : Bool := g.retNum.toNat ≤ g.data.length

end GlobalData

/-! ### The calls -/

/-- A call of a member function of `GlobalDataManager`. -/
inductive Call where
  | createWait (timeOutSec retNum : UInt32)
  | addResNode (msgId resId : Str)
  | addWaitData (msgId resId data : Str)
  | waitData (msgId : Str)
  deriving DecidableEq, Repr

/-- How far a call has come. -/
inductive Frame where
  /-- `CreateWait` has its id and has not inserted the object yet -/
  | named (outMsgId : Str)
  /-- `CreateWait` has returned -/
  | created (outMsgId : Str)
  /-- the object has been found in the map -/
  | found (ptr : ℕ)
  /-- `WaitData` waits on the condition variable -/
  | waiting (ptr : ℕ)
  /-- `WaitData` has copied the data and has not erased the object yet -/
  | copied (flag : Bool) (retData : List Datum)
  /-- `WaitData` has returned what it copied -/
  | handed (flag : Bool) (retData : List Datum)
  /-- the call has returned without data -/
  | returned (ret : Bool)
  deriving DecidableEq, Repr

/-- A call and how far it has come. -/
structure Thread where
  call : Call
  frame : Frame
  deriving DecidableEq, Repr

/-- `GlobalDataManager`, with the objects ever made and the calls ever made. A shared pointer is the
    number of its object. -/
structure Manager where
  globalData : StdMap Str ℕ
  heap : List GlobalData
  calls : List Thread

/-- A new call comes in, or a call that has not returned goes on. Waking up from `wait_for` is going
    on: it may be notified, time out, or wake without a reason. -/
inductive Action where
  | call (c : Call)
  | resume (n : ℕ)
  deriving DecidableEq, Repr

/-- What a step does to an object, under the lock of the object. -/
inductive Event where
  /-- `AddResNode` names a node -/
  | registered (ptr : ℕ) (resId : Str)
  /-- `AddWaitData` brings an answer, wanted or not -/
  | answered (ptr : ℕ) (resId : Str) (datum : Datum)
  /-- the given call of `WaitData` copies the data -/
  | copied (ptr : ℕ) (call : ℕ)
  deriving DecidableEq, Repr

namespace Manager

/-- No call has been made. -/
def start : Manager := ⟨.empty, [], []⟩

/-- The n-th call goes on to the given point. -/
def goTo (s : Manager) (n : ℕ) (c : Call) (f : Frame) : Manager :=
  { s with calls := s.calls.set n ⟨c, f⟩ }

/-- `*dataPtr = g`. -/
def store (s : Manager) (ptr : ℕ) (g : GlobalData) : Manager := { s with heap := s.heap.set ptr g }

/-- The lookup under the lock of the map with which three of the calls begin. -/
def find (s : Manager) (msgId : Str) : Frame :=
  match s.globalData msgId with
  | none => .returned false
  | some ptr => .found ptr

/-- What a call does first. -/
def enter (getsha256hash : Str → Str) (timestamp : ℕ) (s : Manager) : Call → Frame
  | .createWait _ _ => .named (getsha256hash (decimal timestamp))
  | .addResNode msgId _ => s.find msgId
  | .addWaitData msgId _ _ => s.find msgId
  | .waitData msgId => s.find msgId

/-- `_globalData.insert`: an id that is there keeps its object. -/
def insertWait (s : Manager) (g : GlobalData) : Manager :=
  { s with
    heap := s.heap ++ [g]
    globalData :=
      if (s.globalData g.msgId).isSome then s.globalData else s.globalData.set g.msgId s.heap.length }

/-- `_globalData.erase`. -/
def eraseWait (s : Manager) (msgId : Str) : Manager :=
  { s with globalData := Function.update s.globalData msgId none }

/-- The next part of the n-th call on the object it has found. -/
def work (s : Manager) (n ptr : ℕ) (g : GlobalData) : Call → Frame → Manager × Option Event
  | .addResNode msgId resId, .found _ =>
    ((s.store ptr (g.insertRes resId)).goTo n (.addResNode msgId resId) (.returned true),
      some (.registered ptr resId))
  | .addWaitData msgId resId data, .found _ =>
    ((s.store ptr (g.pushData resId ⟨data, n⟩).2).goTo n (.addWaitData msgId resId data)
      (.returned (g.pushData resId ⟨data, n⟩).1), some (.answered ptr resId ⟨data, n⟩))
  | .waitData msgId, .found _ =>
    if g.enough then
      (s.goTo n (.waitData msgId) (.copied g.enough g.data), some (.copied ptr n))
    else (s.goTo n (.waitData msgId) (.waiting ptr), none)
  | .waitData msgId, .waiting _ =>
    (s.goTo n (.waitData msgId) (.copied g.enough g.data), some (.copied ptr n))
  | _, _ => (s, none)

/-- The next part of the n-th call, by the call and the point it has reached. -/
def resumeFrom (s : Manager) (n : ℕ) (c : Call) (f : Frame) : Manager × Option Event :=
  match f with
  | .named outMsgId =>
    match c with
    | .createWait timeOutSec retNum =>
      ((s.insertWait (.create timeOutSec retNum outMsgId)).goTo n c (.created outMsgId), none)
    | _ => (s, none)
  | .found ptr | .waiting ptr =>
    match s.heap[ptr]? with
    | none => (s, none)
    | some g => s.work n ptr g c f
  | .copied flag retData =>
    match c with
    | .waitData msgId => ((s.eraseWait msgId).goTo n c (.handed flag retData), none)
    | _ => (s, none)
  | _ => (s, none)

/-- One step of some thread at the given time, and what it does to an object. -/
def step (getsha256hash : Str → Str) (timestamp : ℕ) (s : Manager) : Action → Manager × Option Event
  | .call c => ({ s with calls := s.calls ++ [⟨c, s.enter getsha256hash timestamp c⟩] }, none)
  | .resume n =>
    match s.calls[n]? with
    | none => (s, none)
    | some t => s.resumeFrom n t.call t.frame

end Manager

/-- The state after some steps, and what was done to objects on the way. -/
structure Run where
  state : Manager
  history : List Event

/-- One step more. -/
def Run.next (getsha256hash : Str → Str) (timestamp : ℕ) (r : Run) (a : Action) : Run :=
  ⟨(r.state.step getsha256hash timestamp a).1,
    r.history ++ (r.state.step getsha256hash timestamp a).2.toList⟩

/-- Steps in the order they happen, the i-th at the time `clock i`. -/
def run (getsha256hash : Str → Str) (clock : ℕ →o ℕ) (actions : List Action) : Run :=
  actions.zipIdx.foldl (fun r step => r.next getsha256hash (clock step.2) step.1) ⟨.start, []⟩

/-- The time `CreateWait` makes its id of. -/
def Action.createTime (timestamp : ℕ) : Action → Option ℕ
  | .call (.createWait _ _) => some timestamp
  | _ => none

/-- The times at which `CreateWait` is called. -/
def createTimes (clock : ℕ →o ℕ) (actions : List Action) : List ℕ :=
  actions.zipIdx.filterMap fun step => step.1.createTime (clock step.2)

theorem run_concat (getsha256hash : Str → Str) (clock : ℕ →o ℕ) (actions : List Action) (a : Action) :
    run getsha256hash clock (actions ++ [a])
      = (run getsha256hash clock actions).next getsha256hash (clock actions.length) a := by
  simp [run, List.zipIdx_append]

/-! ### What a step can do -/

/-- The steps, with what each of them needs and does. -/
inductive Moves (getsha256hash : Str → Str) (timestamp : ℕ) (s : Manager) :
    Action → Manager → Option Event → Prop where
  | enter (c : Call) : Moves getsha256hash timestamp s (.call c)
      { s with calls := s.calls ++ [⟨c, s.enter getsha256hash timestamp c⟩] } none
  | create {n : ℕ} {timeOutSec retNum : UInt32} {outMsgId : Str}
      (h : s.calls[n]? = some ⟨.createWait timeOutSec retNum, .named outMsgId⟩) :
      Moves getsha256hash timestamp s (.resume n)
        ((s.insertWait (.create timeOutSec retNum outMsgId)).goTo n (.createWait timeOutSec retNum)
          (.created outMsgId)) none
  | register {n ptr : ℕ} {g : GlobalData} {msgId resId : Str}
      (h : s.calls[n]? = some ⟨.addResNode msgId resId, .found ptr⟩) (hg : s.heap[ptr]? = some g) :
      Moves getsha256hash timestamp s (.resume n)
        ((s.store ptr (g.insertRes resId)).goTo n (.addResNode msgId resId) (.returned true))
        (some (.registered ptr resId))
  | answer {n ptr : ℕ} {g : GlobalData} {msgId resId data : Str}
      (h : s.calls[n]? = some ⟨.addWaitData msgId resId data, .found ptr⟩)
      (hg : s.heap[ptr]? = some g) :
      Moves getsha256hash timestamp s (.resume n)
        ((s.store ptr (g.pushData resId ⟨data, n⟩).2).goTo n (.addWaitData msgId resId data)
          (.returned (g.pushData resId ⟨data, n⟩).1)) (some (.answered ptr resId ⟨data, n⟩))
  | wait {n ptr : ℕ} {g : GlobalData} {msgId : Str}
      (h : s.calls[n]? = some ⟨.waitData msgId, .found ptr⟩) (hg : s.heap[ptr]? = some g) :
      Moves getsha256hash timestamp s (.resume n) (s.goTo n (.waitData msgId) (.waiting ptr)) none
  | copy {n ptr : ℕ} {g : GlobalData} {msgId : Str} {f : Frame}
      (h : s.calls[n]? = some ⟨.waitData msgId, f⟩) (hf : f = .found ptr ∨ f = .waiting ptr)
      (hg : s.heap[ptr]? = some g) :
      Moves getsha256hash timestamp s (.resume n)
        (s.goTo n (.waitData msgId) (.copied g.enough g.data)) (some (.copied ptr n))
  | erase {n : ℕ} {msgId : Str} {flag : Bool} {retData : List Datum}
      (h : s.calls[n]? = some ⟨.waitData msgId, .copied flag retData⟩) :
      Moves getsha256hash timestamp s (.resume n)
        ((s.eraseWait msgId).goTo n (.waitData msgId) (.handed flag retData)) none
  | idle (n : ℕ) : Moves getsha256hash timestamp s (.resume n) s none

section Steps
variable {getsha256hash : Str → Str} {timestamp : ℕ} {s s' : Manager} {a : Action} {o : Option Event}

/-- Every step is one of them. -/
theorem step_moves (getsha256hash : Str → Str) (timestamp : ℕ) (s : Manager) (a : Action) :
    Moves getsha256hash timestamp s a (s.step getsha256hash timestamp a).1
      (s.step getsha256hash timestamp a).2 := by
  rcases a with c | n
  · exact .enter c
  · rw [Manager.step]
    rcases hn : s.calls[n]? with _ | ⟨c, f⟩
    · exact .idle n
    · rcases f with outMsgId | _ | ptr | ptr | ⟨flag, retData⟩ | _ | _
      · cases c with
        | createWait timeOutSec retNum => exact .create hn
        | _ => exact .idle n
      · exact .idle n
      · simp only [Manager.resumeFrom]
        rcases hg : s.heap[ptr]? with _ | g
        · exact .idle n
        · cases c with
          | createWait timeOutSec retNum => exact .idle n
          | addResNode msgId resId => exact .register hn hg
          | addWaitData msgId resId data => exact .answer hn hg
          | waitData msgId =>
            simp only [Manager.work]
            split
            · exact .copy hn (.inl rfl) hg
            · exact .wait hn hg
      · simp only [Manager.resumeFrom]
        rcases hg : s.heap[ptr]? with _ | g
        · exact .idle n
        · cases c with
          | waitData msgId => exact .copy hn (.inr rfl) hg
          | _ => exact .idle n
      · cases c with
        | waitData msgId => exact .erase hn
        | _ => exact .idle n
      · exact .idle n
      · exact .idle n

theorem getElem?_goTo {n : ℕ} {t : Thread} (h : s.calls[n]? = some t) (c : Call) (f : Frame) (m : ℕ) :
    (s.goTo n c f).calls[m]? = if n = m then some ⟨c, f⟩ else s.calls[m]? := by
  obtain ⟨hn, -⟩ := List.getElem?_eq_some_iff.mp h
  simp [Manager.goTo, List.getElem?_set, hn]

/-- After a call has gone on, the calls are the others and that one. -/
theorem of_getElem?_goTo {s₁ : Manager} (hs : s₁.calls = s.calls) {n m : ℕ} {t t' : Thread} {c : Call}
    {f : Frame} (h : s.calls[n]? = some t) (h' : (s₁.goTo n c f).calls[m]? = some t') :
    s.calls[m]? = some t' ∨ n = m ∧ t' = ⟨c, f⟩ := by
  rw [getElem?_goTo (hs ▸ h), hs] at h'
  split at h'
  · next hnm => exact .inr ⟨hnm, (Option.some.inj h').symm⟩
  · exact .inl h'

theorem getElem?_store {ptr : ℕ} {g : GlobalData} (h : s.heap[ptr]? = some g) (g' : GlobalData) (q : ℕ) :
    (s.store ptr g').heap[q]? = if ptr = q then some g' else s.heap[q]? := by
  obtain ⟨hn, -⟩ := List.getElem?_eq_some_iff.mp h
  simp [Manager.store, List.getElem?_set, hn]

/-- The call has returned. -/
def Frame.Final : Frame → Prop
  | .created _ => True
  | .handed _ _ => True
  | .returned _ => True
  | _ => False

/-- A call that goes on is still the same call, and one that has returned does not go on. -/
theorem Moves.call_kept (hm : Moves getsha256hash timestamp s a s' o) {n : ℕ} {c : Call} {f : Frame}
    (h : s.calls[n]? = some ⟨c, f⟩) : ∃ f', s'.calls[n]? = some ⟨c, f'⟩ ∧ (f.Final → f' = f) := by
  have hset {s₁ : Manager} (hs : s₁.calls = s.calls) {m : ℕ} {c₁ : Call} {f₁ f₂ : Frame}
      (h₁ : s.calls[m]? = some ⟨c₁, f₁⟩) (hf : ¬ f₁.Final) :
      ∃ f', (s₁.goTo m c₁ f₂).calls[n]? = some ⟨c, f'⟩ ∧ (f.Final → f' = f) := by
    rw [getElem?_goTo (hs ▸ h₁), hs]
    split
    · next hmn =>
      rw [hmn, h] at h₁
      cases h₁
      exact ⟨f₂, rfl, fun hfin => absurd hfin hf⟩
    · exact ⟨f, h, fun _ => rfl⟩
  cases hm with
  | enter c' =>
    refine ⟨f, ?_, fun _ => rfl⟩
    obtain ⟨hn, -⟩ := List.getElem?_eq_some_iff.mp h
    rw [List.getElem?_append_left hn, h]
  | create h₁ => exact hset rfl h₁ id
  | register h₁ hg => exact hset rfl h₁ id
  | answer h₁ hg => exact hset rfl h₁ id
  | wait h₁ hg => exact hset rfl h₁ id
  | copy h₁ hf hg => exact hset rfl h₁ (by rcases hf with rfl | rfl <;> exact id)
  | erase h₁ => exact hset rfl h₁ id
  | idle n => exact ⟨f, h, fun _ => rfl⟩

theorem Moves.final_kept (hm : Moves getsha256hash timestamp s a s' o) {n : ℕ} {c : Call} {f : Frame}
    (h : s.calls[n]? = some ⟨c, f⟩) (hf : f.Final) : s'.calls[n]? = some ⟨c, f⟩ := by
  obtain ⟨f', h', heq⟩ := hm.call_kept h
  rw [h', heq hf]

/-- An object keeps its id and its `retNum`. -/
theorem Moves.object_kept (hm : Moves getsha256hash timestamp s a s' o) {ptr : ℕ} {g : GlobalData}
    (h : s.heap[ptr]? = some g) :
    ∃ g', s'.heap[ptr]? = some g' ∧ g'.msgId = g.msgId ∧ g'.retNum = g.retNum := by
  have hset {q : ℕ} {g₁ g₂ : GlobalData} (h₁ : s.heap[q]? = some g₁) (hid : g₂.msgId = g₁.msgId)
      (hret : g₂.retNum = g₁.retNum) :
      ∃ g', (s.store q g₂).heap[ptr]? = some g' ∧ g'.msgId = g.msgId ∧ g'.retNum = g.retNum := by
    rw [getElem?_store h₁]
    split
    · next hq =>
      rw [hq, h] at h₁
      cases h₁
      exact ⟨g₂, rfl, hid, hret⟩
    · exact ⟨g, h, rfl, rfl⟩
  cases hm with
  | create h₁ =>
    refine ⟨g, ?_, rfl, rfl⟩
    obtain ⟨hn, -⟩ := List.getElem?_eq_some_iff.mp h
    exact (List.getElem?_append_left hn).trans h
  | register h₁ hg => exact hset hg rfl rfl
  | answer h₁ hg => exact hset hg (GlobalData.pushData_msgId ..) (GlobalData.pushData_retNum ..)
  | _ => exact ⟨g, h, rfl, rfl⟩

/-! ### A datum came with the id it is handed back under -/

theorem getElem?_concat_eq_some {α : Type} {l : List α} {x y : α} {n : ℕ} (h : (l ++ [x])[n]? = some y) :
    l[n]? = some y ∨ n = l.length ∧ x = y := by
  rcases lt_trichotomy n l.length with hn | rfl | hn
  · exact .inl ((List.getElem?_append_left hn).symm.trans h)
  · exact .inr ⟨rfl, Option.some.inj (List.getElem?_concat_length.symm.trans h)⟩
  · rw [List.getElem?_eq_none (by simpa using hn)] at h
    cases h

/-- The id a call is given. -/
def Call.msgId : Call → Option Str
  | .createWait _ _ => none
  | .addResNode msgId _ => some msgId
  | .addWaitData msgId _ _ => some msgId
  | .waitData msgId => some msgId

/-- The object the call holds. -/
def Frame.ptr : Frame → Option ℕ
  | .found ptr => some ptr
  | .waiting ptr => some ptr
  | _ => none

/-- The data the call has copied. -/
def Frame.retData : Frame → List Datum
  | .copied _ retData => retData
  | .handed _ retData => retData
  | _ => []

/-- The datum came with an accepted call of `AddWaitData` for the id. -/
def Accepted (s : Manager) (msgId : Str) (d : Datum) : Prop :=
  ∃ resId, s.calls[d.call]? = some ⟨.addWaitData msgId resId d.data, .returned true⟩

/-- The map and the calls lead to objects of their own id, and the data of an object, as well as what
    was copied from it, came with that id. -/
structure Valid (s : Manager) : Prop where
  mapped : ∀ {msgId : Str} {ptr : ℕ}, s.globalData msgId = some ptr →
    ∃ g, s.heap[ptr]? = some g ∧ g.msgId = msgId
  held : ∀ {n ptr : ℕ} {c : Call} {f : Frame}, s.calls[n]? = some ⟨c, f⟩ → f.ptr = some ptr →
    ∃ g, s.heap[ptr]? = some g ∧ c.msgId = some g.msgId
  data : ∀ {ptr : ℕ} {g : GlobalData}, s.heap[ptr]? = some g → ∀ d ∈ g.data, Accepted s g.msgId d
  copied : ∀ {n : ℕ} {c : Call} {f : Frame}, s.calls[n]? = some ⟨c, f⟩ → ∀ d ∈ f.retData,
    ∃ msgId, c = .waitData msgId ∧ Accepted s msgId d

theorem Accepted.kept (hm : Moves getsha256hash timestamp s a s' o) {msgId : Str} {d : Datum}
    (h : Accepted s msgId d) : Accepted s' msgId d := by
  obtain ⟨resId, h⟩ := h
  exact ⟨resId, hm.final_kept h trivial⟩

theorem find_ptr {msgId : Str} {ptr : ℕ} (h : (s.find msgId).ptr = some ptr) :
    s.globalData msgId = some ptr := by
  unfold Manager.find at h
  split at h
  · cases h
  · next hp => rw [hp]; exact h

theorem find_retData (msgId : Str) : (s.find msgId).retData = [] := by
  unfold Manager.find
  split <;> rfl

/-- A call that has just come in holds the object of its id. -/
theorem Valid.enter_ptr (hv : Valid s) {c : Call} {ptr : ℕ}
    (h : (s.enter getsha256hash timestamp c).ptr = some ptr) :
    ∃ g, s.heap[ptr]? = some g ∧ c.msgId = some g.msgId := by
  have hfound {msgId : Str} (h : (s.find msgId).ptr = some ptr) :
      ∃ g, s.heap[ptr]? = some g ∧ some msgId = some g.msgId := by
    obtain ⟨g, hg, hid⟩ := hv.mapped (find_ptr h)
    exact ⟨g, hg, by rw [hid]⟩
  cases c with
  | createWait timeOutSec retNum => cases h
  | addResNode msgId resId => exact hfound h
  | addWaitData msgId resId data => exact hfound h
  | waitData msgId => exact hfound h

theorem enter_retData (c : Call) : (s.enter getsha256hash timestamp c).retData = [] := by
  cases c with
  | createWait timeOutSec retNum => rfl
  | _ => exact find_retData _

/-- The map keeps leading to objects of its ids. -/
theorem Valid.mapped_step (hv : Valid s) (hm : Moves getsha256hash timestamp s a s' o) {msgId : Str}
    {ptr : ℕ} (h : s'.globalData msgId = some ptr) : ∃ g, s'.heap[ptr]? = some g ∧ g.msgId = msgId := by
  have hold (h : s.globalData msgId = some ptr) : ∃ g, s'.heap[ptr]? = some g ∧ g.msgId = msgId := by
    obtain ⟨g, hg, hid⟩ := hv.mapped h
    obtain ⟨g', hg', hid', -⟩ := hm.object_kept hg
    exact ⟨g', hg', hid'.trans hid⟩
  cases hm with
  | @create n timeOutSec retNum outMsgId h₁ =>
    simp only [Manager.goTo, Manager.insertWait] at h
    split at h
    · exact hold h
    · by_cases hid : msgId = outMsgId
      · subst hid
        obtain rfl : s.heap.length = ptr := by simpa [GlobalData.create] using h
        exact ⟨.create timeOutSec retNum msgId, by simp [Manager.goTo, Manager.insertWait], rfl⟩
      · exact hold ((StdMap.set_ne _ _ hid).symm.trans h)
  | @erase n msgId' flag retData h₁ =>
    simp only [Manager.goTo, Manager.eraseWait, Function.update_apply] at h
    split at h
    · cases h
    · exact hold h
  | _ => exact hold h

/-- The calls keep holding objects of their ids. -/
theorem Valid.held_step (hv : Valid s) (hm : Moves getsha256hash timestamp s a s' o) {n ptr : ℕ} {c : Call}
    {f : Frame} (h : s'.calls[n]? = some ⟨c, f⟩) (hf : f.ptr = some ptr) :
    ∃ g, s'.heap[ptr]? = some g ∧ c.msgId = some g.msgId := by
  have hkept (h : ∃ g, s.heap[ptr]? = some g ∧ c.msgId = some g.msgId) :
      ∃ g, s'.heap[ptr]? = some g ∧ c.msgId = some g.msgId := by
    obtain ⟨g, hg, hid⟩ := h
    obtain ⟨g', hg', hid', -⟩ := hm.object_kept hg
    exact ⟨g', hg', hid.trans (by rw [hid'])⟩
  refine hkept ?_
  -- the call that goes on keeps its object or lets it go
  have hset {s₁ : Manager} (hs : s₁.calls = s.calls) {m : ℕ} {c₁ : Call} {f₁ f₂ : Frame}
      (h₁ : s.calls[m]? = some ⟨c₁, f₁⟩) (h : (s₁.goTo m c₁ f₂).calls[n]? = some ⟨c, f⟩)
      (hf₂ : f₂.ptr = none ∨ f₂.ptr = f₁.ptr) :
      ∃ g, s.heap[ptr]? = some g ∧ c.msgId = some g.msgId := by
    rcases of_getElem?_goTo hs h₁ h with h | ⟨-, heq⟩
    · exact hv.held h hf
    · cases heq
      rcases hf₂ with hf₂ | hf₂
      · rw [hf₂] at hf; cases hf
      · exact hv.held h₁ (hf₂ ▸ hf)
  cases hm with
  | enter c' =>
    rcases getElem?_concat_eq_some h with h | ⟨-, h⟩
    · exact hv.held h hf
    · cases h
      exact hv.enter_ptr hf
  | create h₁ => exact hset rfl h₁ h (.inl rfl)
  | register h₁ hg => exact hset rfl h₁ h (.inl rfl)
  | answer h₁ hg => exact hset rfl h₁ h (.inl rfl)
  | wait h₁ hg => exact hset rfl h₁ h (.inr rfl)
  | copy h₁ hf₁ hg => exact hset rfl h₁ h (.inl rfl)
  | erase h₁ => exact hset rfl h₁ h (.inl rfl)
  | idle m => exact hv.held h hf

theorem pushData_data {g : GlobalData} {resId : Str} {datum d : Datum}
    (h : d ∈ (g.pushData resId datum).2.data) : d ∈ g.data ∨ d = datum ∧ (g.pushData resId datum).1 := by
  unfold GlobalData.pushData at h ⊢
  split
  · next hr =>
    rw [if_pos hr, List.mem_append, List.mem_singleton] at h
    exact h.imp_right fun h => ⟨h, rfl⟩
  · next hr =>
    rw [if_neg hr] at h
    exact .inl h

/-- The data of an object keep coming with its id. -/
theorem Valid.data_step (hv : Valid s) (hm : Moves getsha256hash timestamp s a s' o) {ptr : ℕ}
    {g : GlobalData} (h : s'.heap[ptr]? = some g) : ∀ d ∈ g.data, Accepted s' g.msgId d := by
  intro d hd
  have hold {q : ℕ} {g₁ : GlobalData} (h : s.heap[q]? = some g₁) (hd : d ∈ g₁.data) :
      Accepted s' g₁.msgId d := (hv.data h d hd).kept hm
  cases hm with
  | create h₁ =>
    rcases getElem?_concat_eq_some h with h | ⟨-, rfl⟩
    · exact hold h hd
    · cases hd
  | @register n q g₁ msgId resId h₁ hg =>
    replace h := (getElem?_store hg _ _).symm.trans h
    split at h
    · cases h
      exact @hold q g₁ hg hd
    · exact hold h hd
  | @answer n q g₁ msgId resId data h₁ hg =>
    replace h := (getElem?_store hg _ _).symm.trans h
    split at h
    · cases h
      rw [GlobalData.pushData_msgId]
      rcases pushData_data hd with hd | ⟨rfl, hok⟩
      · exact hold hg hd
      · -- the call that brought the datum found the object under its own id
        obtain ⟨g₂, hg₂, hid⟩ := hv.held h₁ rfl
        obtain rfl : g₁ = g₂ := Option.some.inj (hg.symm.trans hg₂)
        cases hid
        refine ⟨resId, ?_⟩
        have hcall : (s.store q (g₁.pushData resId ⟨data, n⟩).2).calls[n]? =
          some ⟨.addWaitData g₁.msgId resId data, .found q⟩ := h₁
        rw [getElem?_goTo hcall, if_pos rfl, hok]
    · exact hold h hd
  | _ => exact hold h hd

/-- What was copied keeps having come with the id. -/
theorem Valid.copied_step (hv : Valid s) (hm : Moves getsha256hash timestamp s a s' o) {n : ℕ} {c : Call}
    {f : Frame} (h : s'.calls[n]? = some ⟨c, f⟩) :
    ∀ d ∈ f.retData, ∃ msgId, c = .waitData msgId ∧ Accepted s' msgId d := by
  intro d hd
  suffices hs : ∃ msgId, c = .waitData msgId ∧ Accepted s msgId d by
    obtain ⟨msgId, hc, hacc⟩ := hs
    exact ⟨msgId, hc, hacc.kept hm⟩
  have hset {s₁ : Manager} (hs : s₁.calls = s.calls) {m : ℕ} {c₁ : Call} {f₁ f₂ : Frame}
      (h₁ : s.calls[m]? = some ⟨c₁, f₁⟩) (h : (s₁.goTo m c₁ f₂).calls[n]? = some ⟨c, f⟩)
      (hf₂ : ∀ d ∈ f₂.retData, ∃ msgId, c₁ = .waitData msgId ∧ Accepted s msgId d) :
      ∃ msgId, c = .waitData msgId ∧ Accepted s msgId d := by
    rcases of_getElem?_goTo hs h₁ h with h | ⟨-, heq⟩
    · exact hv.copied h d hd
    · cases heq
      exact hf₂ d hd
  have hnone {c₁ : Call} : ∀ d ∈ ([] : List Datum), ∃ msgId, c₁ = .waitData msgId ∧ Accepted s msgId d :=
    fun _ hd => absurd hd List.not_mem_nil
  cases hm with
  | enter c' =>
    rcases getElem?_concat_eq_some h with h | ⟨-, h⟩
    · exact hv.copied h d hd
    · cases h
      rw [enter_retData] at hd
      cases hd
  | create h₁ => exact hset rfl h₁ h hnone
  | register h₁ hg => exact hset rfl h₁ h hnone
  | answer h₁ hg => exact hset rfl h₁ h hnone
  | wait h₁ hg => exact hset rfl h₁ h hnone
  | @copy m ptr g msgId f₁ h₁ hf₁ hg =>
    refine hset rfl h₁ h (fun d hd => ⟨msgId, rfl, ?_⟩)
    have hptr : f₁.ptr = some ptr := by rcases hf₁ with rfl | rfl <;> rfl
    obtain ⟨g', hg', hid⟩ := hv.held h₁ hptr
    obtain rfl : g = g' := Option.some.inj (hg.symm.trans hg')
    cases hid
    exact hv.data hg d hd
  | erase h₁ => exact hset rfl h₁ h fun d hd => hv.copied h₁ d hd
  | idle m => exact hv.copied h d hd

theorem Valid.step (hv : Valid s) (hm : Moves getsha256hash timestamp s a s' o) : Valid s' where
  mapped h := hv.mapped_step hm h
  held h hf := hv.held_step hm h hf
  data h := hv.data_step hm h
  copied h := hv.copied_step hm h

end Steps

/-! ### Whole runs -/

section Runs
variable {getsha256hash : Str → Str} {clock : ℕ →o ℕ}

/-- What holds at the start and after each further step holds after every run. -/
theorem run_induction {P : List Action → Run → Prop} (hstart : P [] ⟨.start, []⟩)
    (hnext : ∀ (actions : List Action) (a : Action) (s' : Manager) (o : Option Event),
      P actions (run getsha256hash clock actions) →
      Moves getsha256hash (clock actions.length) (run getsha256hash clock actions).state a s' o →
      P (actions ++ [a]) ⟨s', (run getsha256hash clock actions).history ++ o.toList⟩)
    (actions : List Action) : P actions (run getsha256hash clock actions) := by
  induction actions using List.reverseRecOn with
  | nil => exact hstart
  | append_singleton actions a ih =>
    rw [run_concat]
    exact hnext actions a _ _ ih (step_moves ..)

theorem valid_run (actions : List Action) : Valid (run getsha256hash clock actions).state := by
  refine run_induction (P := fun _ r => Valid r.state) ?_ (fun _ _ _ _ hv hm => hv.step hm) actions
  exact ⟨fun h => (nomatch h), fun h => (nomatch h), fun h => (nomatch h), fun h => (nomatch h)⟩

/-! ### Requests that do not share a time do not share answers -/

/-- The id `CreateWait` has handed out. -/
def Thread.outMsgId (t : Thread) : Option Str :=
  match t.frame with
  | .named outMsgId => some outMsgId
  | .created outMsgId => some outMsgId
  | _ => none

theorem createTimes_concat (clock : ℕ →o ℕ) (actions : List Action) (a : Action) :
    createTimes clock (actions ++ [a])
      = createTimes clock actions ++ (a.createTime (clock actions.length)).toList := by
  simp only [createTimes, List.zipIdx_append, List.zipIdx_singleton, List.filterMap_append, zero_add]
  congr 1

theorem filterMap_set {α β : Type} {f : α → Option β} {l : List α} {n : ℕ} {x y : α} (h : l[n]? = some x)
    (hf : f y = f x) : (l.set n y).filterMap f = l.filterMap f := by
  obtain ⟨hn, rfl⟩ := List.getElem?_eq_some_iff.mp h
  have hmap : (l.set n y).map f = l.map f := by
    rw [List.map_set, hf, ← List.getElem_map f (h := by simpa using hn), List.set_getElem_self]
  simpa [List.filterMap_map] using congrArg (List.filterMap id) hmap

/-- A value that a list gives once is given at one place. -/
theorem index_unique {α β : Type} {f : α → Option β} {b : β} : ∀ {l : List α} {i j : ℕ} {x y : α},
    (l.filterMap f).Nodup → l[i]? = some x → l[j]? = some y → f x = some b → f y = some b → i = j
  | [], _, _, _, _, _, h, _, _, _ => by cases h
  | z :: l, i, j, x, y, hnd, hi, hj, hx, hy => by
    have hmem {k : ℕ} {w : α} (hk : l[k]? = some w) (hw : f w = some b) : b ∈ l.filterMap f :=
      List.mem_filterMap.mpr ⟨w, List.mem_of_getElem? hk, hw⟩
    have htail : (l.filterMap f).Nodup := by
      rw [List.filterMap_cons] at hnd
      split at hnd
      · exact hnd
      · exact hnd.of_cons
    have hhead (hz : f z = some b) : b ∉ l.filterMap f := by
      rw [List.filterMap_cons_some hz] at hnd
      exact (List.nodup_cons.mp hnd).1
    rcases i with _ | i <;> rcases j with _ | j
    · rfl
    · cases hi
      exact absurd (hmem hj hy) (hhead hx)
    · cases hj
      exact absurd (hmem hi hx) (hhead hy)
    · exact congrArg _ (index_unique htail hi hj hx hy)

theorem find_outMsgId {s : Manager} (c : Call) (msgId : Str) :
    (⟨c, s.find msgId⟩ : Thread).outMsgId = none := by
  unfold Manager.find
  split <;> rfl

/-- The ids handed out are the hashes of the times. -/
theorem outMsgIds_run (actions : List Action) :
    (run getsha256hash clock actions).state.calls.filterMap Thread.outMsgId
      = (createTimes clock actions).map fun time => getsha256hash (decimal time) := by
  refine run_induction (P := fun actions r => r.state.calls.filterMap Thread.outMsgId
    = (createTimes clock actions).map fun time => getsha256hash (decimal time)) rfl ?_ actions
  intro actions a s' o ih hm
  rw [createTimes_concat, List.map_append, ← ih]
  have hset {n : ℕ} {t : Thread} {c : Call} {f : Frame}
      (h : (run getsha256hash clock actions).state.calls[n]? = some t)
      (hf : (⟨c, f⟩ : Thread).outMsgId = t.outMsgId) :
      ((run getsha256hash clock actions).state.calls.set n ⟨c, f⟩).filterMap Thread.outMsgId
        = (run getsha256hash clock actions).state.calls.filterMap Thread.outMsgId ++ [] := by
    rw [filterMap_set h hf, List.append_nil]
  cases hm with
  | enter c =>
    rw [List.filterMap_append]
    congr 1
    cases c with
    | createWait timeOutSec retNum => rfl
    | addResNode msgId resId => exact List.filterMap_cons_none (find_outMsgId ..)
    | addWaitData msgId resId data => exact List.filterMap_cons_none (find_outMsgId ..)
    | waitData msgId => exact List.filterMap_cons_none (find_outMsgId ..)
  | create h => exact hset h rfl
  | register h hg => exact hset h rfl
  | answer h hg => exact hset h rfl
  | wait h hg => exact hset h rfl
  | copy h hf hg => exact hset h (by rcases hf with rfl | rfl <;> rfl)
  | erase h => exact hset h rfl
  | idle n => exact (List.append_nil _).symm

/-- The call of `CreateWait` a call was made for: it was given the id which that call handed out. Calls
    made for no request have no number. -/
def Labelled (request : ℕ → Option ℕ) (s : Manager) : Prop :=
  ∀ n t r, s.calls[n]? = some t → request n = some r →
    ∃ msgId t', t.call.msgId = some msgId ∧ s.calls[r]? = some t' ∧ t'.outMsgId = some msgId

/-- No datum handed back for one call of `CreateWait` was sent in answer to another one. -/
def Isolated (request : ℕ → Option ℕ) (s : Manager) : Prop :=
  ∀ w msgId flag retData r, s.calls[w]? = some ⟨.waitData msgId, .handed flag retData⟩ →
    request w = some r → ∀ d ∈ retData, ∀ r', request d.call = some r' → r' = r

/-- When no two calls of `CreateWait` see the same time, every datum is handed back to the request it
    answers. -/
theorem isolated_of_distinct_times (request : ℕ → Option ℕ) (actions : List Action)
    (hreq : Labelled request (run getsha256hash clock actions).state)
    (htimes : (createTimes clock actions).Nodup)
    (hinj : Set.InjOn getsha256hash (decimal '' {time | time ∈ createTimes clock actions})) :
    Isolated request (run getsha256hash clock actions).state := by
  intro w msgId flag retData r hw hr d hd r' hr'
  obtain ⟨msgId', hcall, resId, hd⟩ := (valid_run actions).copied hw d hd
  cases hcall
  obtain ⟨_, t, hid, ht, hout⟩ := hreq _ _ _ hw hr
  obtain ⟨_, t', hid', ht', hout'⟩ := hreq _ _ _ hd hr'
  cases hid
  cases hid'
  -- both requests handed out the one id
  refine index_unique (f := Thread.outMsgId) ?_ ht' ht hout' hout
  rw [outMsgIds_run]
  refine htimes.map_on fun x hx y hy hxy => decimal_injective ?_
  exact hinj ⟨x, hx, rfl⟩ ⟨y, hy, rfl⟩ hxy

/-! ### One answer for each node that was named -/

/-- The answer of the node to the object. -/
def Event.answerOf (ptr : ℕ) (resId : Str) : Event → Option Datum
  | .answered ptr' resId' datum => if ptr' = ptr ∧ resId' = resId then some datum else none
  | _ => none

/-- The first answer of the node after it was named. -/
def firstAnswer (ptr : ℕ) (resId : Str) (history : List Event) : Option Datum :=
  ((history.dropWhile (· ≠ .registered ptr resId)).filterMap (Event.answerOf ptr resId)).head?

/-- The data are the first answers of the nodes that were named and have answered, one for each. -/
def Collected (ptr : ℕ) (nodes : List Str) (data : List Datum) (history : List Event) : Prop :=
  nodes.Nodup ∧ (∀ resId, resId ∈ nodes ↔ (firstAnswer ptr resId history).isSome) ∧
    data.map some = nodes.map fun resId => firstAnswer ptr resId history

theorem dropWhile_of_not_registered {ptr : ℕ} {resId : Str} {history : List Event}
    (h : .registered ptr resId ∉ history) : history.dropWhile (· ≠ .registered ptr resId) = [] := by
  rw [List.dropWhile_eq_nil_iff]
  intro x hx
  simpa using fun hx' : x = .registered ptr resId => h (hx' ▸ hx)

theorem firstAnswer_of_not_registered {ptr : ℕ} {resId : Str} {history : List Event}
    (h : .registered ptr resId ∉ history) : firstAnswer ptr resId history = none := by
  rw [firstAnswer, dropWhile_of_not_registered h]
  rfl

/-- An answer counts when the node was named before it and has not answered since. -/
theorem firstAnswer_concat (ptr : ℕ) (resId : Str) (history : List Event) (e : Event) :
    firstAnswer ptr resId (history ++ [e]) =
      if .registered ptr resId ∈ history then (firstAnswer ptr resId history).or (e.answerOf ptr resId)
      else none := by
  unfold firstAnswer
  split
  · next hreg =>
    have hdrop : (history.dropWhile (· ≠ .registered ptr resId)).isEmpty = false := by
      rw [List.isEmpty_eq_false_iff, ne_eq, List.dropWhile_eq_nil_iff]
      intro hall
      simpa using hall _ hreg
    rw [List.dropWhile_append, hdrop, if_neg (by simp), List.filterMap_append, List.head?_append]
    congr 1
    rw [List.filterMap_cons]
    split <;> simp_all
  · next hreg =>
    rw [List.dropWhile_append, dropWhile_of_not_registered hreg]
    by_cases he : e = .registered ptr resId
    · subst he
      simp [Event.answerOf]
    · simp [he]

theorem mem_of_firstAnswer {ptr : ℕ} {resId : Str} {history : List Event} {d : Datum}
    (h : firstAnswer ptr resId history = some d) :
    .registered ptr resId ∈ history ∧ .answered ptr resId d ∈ history := by
  constructor
  · by_contra hreg
    rw [firstAnswer_of_not_registered hreg] at h
    cases h
  · obtain ⟨e, he, hd⟩ := List.mem_filterMap.mp (List.mem_of_mem_head? h)
    have hmem : e ∈ history := (List.dropWhile_suffix _).subset he
    cases e with
    | answered ptr' resId' datum =>
      simp only [Event.answerOf, Option.ite_none_right_eq_some, Option.some.injEq] at hd
      obtain ⟨⟨rfl, rfl⟩, rfl⟩ := hd
      exact hmem
    | _ => cases hd

/-- A step that brings no answer of the node leaves its first answer as it is. -/
theorem firstAnswer_concat_of_none {ptr : ℕ} {resId : Str} {history : List Event} {e : Event}
    (h : e.answerOf ptr resId = none) : firstAnswer ptr resId (history ++ [e]) = firstAnswer ptr resId history := by
  rw [firstAnswer_concat, h, Option.or_none]
  split
  · rfl
  · next hreg => exact (firstAnswer_of_not_registered hreg).symm

/-- What is known of an object: it has the first answers, and waits for the nodes that were named and
    have not answered. -/
structure Fresh (history : List Event) (ptr : ℕ) (g : GlobalData) : Prop where
  collected : ∃ nodes, Collected ptr nodes g.data history
  waits : ∀ resId, resId ∈ g.resIds ↔
    .registered ptr resId ∈ history ∧ firstAnswer ptr resId history = none

/-- A step that does nothing to the object. -/
theorem Fresh.other {history : List Event} {ptr : ℕ} {g : GlobalData} {e : Event} (h : Fresh history ptr g)
    (he : ∀ resId, e ≠ .registered ptr resId ∧ e.answerOf ptr resId = none) :
    Fresh (history ++ [e]) ptr g := by
  have hfirst (resId : Str) : firstAnswer ptr resId (history ++ [e]) = firstAnswer ptr resId history :=
    firstAnswer_concat_of_none (he resId).2
  obtain ⟨⟨nodes, hnd, hmem, hdata⟩, hwaits⟩ := h
  refine ⟨⟨nodes, hnd, fun resId => by rw [hfirst, hmem], by simp only [hfirst, hdata]⟩, fun resId => ?_⟩
  rw [hwaits, hfirst, List.mem_append, List.mem_singleton, or_iff_left (he resId).1.symm]

/-- A node is named for the first time. -/
theorem Fresh.register {history : List Event} {ptr : ℕ} {g : GlobalData} {resId : Str}
    (h : Fresh history ptr g) (hnew : .registered ptr resId ∉ history) :
    Fresh (history ++ [.registered ptr resId]) ptr (g.insertRes resId) := by
  have hfirst (resId' : Str) : firstAnswer ptr resId' (history ++ [.registered ptr resId])
      = firstAnswer ptr resId' history := firstAnswer_concat_of_none rfl
  obtain ⟨⟨nodes, hnd, hmem, hdata⟩, hwaits⟩ := h
  refine ⟨⟨nodes, hnd, fun resId' => by rw [hfirst, hmem], by simp only [hfirst]; exact hdata⟩,
    fun resId' => ?_⟩
  rw [GlobalData.insertRes, Finset.mem_insert, hwaits, hfirst, List.mem_append, List.mem_singleton]
  by_cases heq : resId' = resId
  · subst heq
    simp [firstAnswer_of_not_registered hnew]
  · simp [heq]

/-- An answer comes. -/
theorem Fresh.answer {history : List Event} {ptr : ℕ} {g : GlobalData} (h : Fresh history ptr g)
    (resId : Str) (datum : Datum) :
    Fresh (history ++ [.answered ptr resId datum]) ptr (g.pushData resId datum).2 := by
  have hother {resId' : Str} (hne : resId ≠ resId') :
      firstAnswer ptr resId' (history ++ [.answered ptr resId datum]) = firstAnswer ptr resId' history :=
    firstAnswer_concat_of_none (by simp [Event.answerOf, hne])
  have hself : firstAnswer ptr resId (history ++ [.answered ptr resId datum]) =
      if .registered ptr resId ∈ history then (firstAnswer ptr resId history).or (some datum) else none := by
    rw [firstAnswer_concat]
    simp [Event.answerOf]
  obtain ⟨⟨nodes, hnd, hmem, hdata⟩, hwaits⟩ := h
  by_cases hres : resId ∈ g.resIds
  · obtain ⟨hreg, hnone⟩ := (hwaits resId).mp hres
    have hnot : resId ∉ nodes := by rw [hmem, hnone]; exact Bool.false_ne_true
    rw [hnone, if_pos hreg, Option.none_or] at hself
    rw [GlobalData.pushData, if_pos hres]
    refine ⟨⟨nodes ++ [resId], ?_, fun resId' => ?_, ?_⟩, fun resId' => ?_⟩
    · exact List.nodup_append.mpr ⟨hnd, List.nodup_singleton _, by rintro a ha b hb rfl; simp_all⟩
    · by_cases heq : resId = resId'
      · subst heq
        simp [hself]
      · simp [hother heq, hmem, Ne.symm heq]
    · rw [List.map_append, List.map_append, hdata, List.map_singleton, List.map_singleton, hself]
      congr 1
      refine List.map_congr_left fun resId' hin => (hother ?_).symm
      rintro rfl
      exact hnot hin
    · rw [Finset.mem_erase, hwaits, List.mem_append, List.mem_singleton]
      by_cases heq : resId = resId'
      · subst heq
        simp [hself]
      · simp [hother heq, Ne.symm heq]
  · -- the answer is refused: the node was not named, or it has answered already
    have hsame (resId' : Str) : firstAnswer ptr resId' (history ++ [.answered ptr resId datum])
        = firstAnswer ptr resId' history := by
      by_cases heq : resId = resId'
      · subst heq
        rw [hself]
        split
        · next hreg =>
          cases hfirst : firstAnswer ptr resId history with
          | none => exact absurd ((hwaits resId).mpr ⟨hreg, hfirst⟩) hres
          | some d => rfl
        · next hreg => exact (firstAnswer_of_not_registered hreg).symm
      · exact hother heq
    rw [GlobalData.pushData, if_neg hres]
    refine ⟨⟨nodes, hnd, fun resId' => by rw [hsame, hmem], by simp only [hsame, hdata]⟩, fun resId' => ?_⟩
    rw [hwaits, hsame, List.mem_append, List.mem_singleton, or_iff_left (by simp)]

/-- The node a call names, and for which id. -/
def Call.resNode : Call → Option (Str × Str)
  | .addResNode msgId resId => some (msgId, resId)
  | _ => none

/-- The call a step begins. -/
def Action.newCall : Action → Option Call
  | .call c => some c
  | .resume _ => none

/-- `AddResNode` is called at most once for each id and node. -/
def OncePerNode (actions : List Action) : Prop :=
  (actions.filterMap fun a => a.newCall.bind Call.resNode).Nodup

instance (actions : List Action) : Decidable (OncePerNode actions) := inferInstanceAs (Decidable (List.Nodup _))

/-- The calls of a state are those the steps have begun. -/
theorem calls_run (actions : List Action) :
    (run getsha256hash clock actions).state.calls.map Thread.call = actions.filterMap Action.newCall := by
  refine run_induction (P := fun actions r => r.state.calls.map Thread.call
    = actions.filterMap Action.newCall) rfl ?_ actions
  intro actions a s' o ih hm
  rw [List.filterMap_append, ← ih]
  have hset {n : ℕ} {t : Thread} {c : Call} {f : Frame}
      (h : (run getsha256hash clock actions).state.calls[n]? = some t) (hc : c = t.call) :
      ((run getsha256hash clock actions).state.calls.set n ⟨c, f⟩).map Thread.call
        = (run getsha256hash clock actions).state.calls.map Thread.call ++ [] := by
    obtain ⟨hn, rfl⟩ := List.getElem?_eq_some_iff.mp h
    rw [List.map_set, hc, ← List.getElem_map Thread.call (h := by simpa using hn),
      List.set_getElem_self, List.append_nil]
  cases hm with
  | enter c => rw [List.map_append]; rfl
  | create h => exact hset h rfl
  | register h hg => exact hset h rfl
  | answer h hg => exact hset h rfl
  | wait h hg => exact hset h rfl
  | copy h hf hg => exact hset h rfl
  | erase h => exact hset h rfl
  | idle n => exact (List.append_nil _).symm

/-- Two calls that name one node for one id are the same call. -/
theorem resNode_unique {actions : List Action} (honce : OncePerNode actions) {n m : ℕ} {t t' : Thread}
    {node : Str × Str} (h : (run getsha256hash clock actions).state.calls[n]? = some t)
    (h' : (run getsha256hash clock actions).state.calls[m]? = some t') (ht : t.call.resNode = some node)
    (ht' : t'.call.resNode = some node) : n = m := by
  refine index_unique (f := Call.resNode) (l := (run getsha256hash clock actions).state.calls.map Thread.call)
    ?_ (by rw [List.getElem?_map, h]; rfl) (by rw [List.getElem?_map, h']; rfl) ht ht'
  rw [calls_run, List.filterMap_filterMap]
  exact honce

/-- What was done to an object was done by a call for its id. -/
def Event.Grounded (s : Manager) : Event → Prop
  | .registered ptr resId => ∃ (c : ℕ) (g : GlobalData), s.heap[ptr]? = some g ∧
    s.calls[c]? = some ⟨.addResNode g.msgId resId, .returned true⟩
  | .answered ptr resId datum => ∃ (ret : Bool) (g : GlobalData), s.heap[ptr]? = some g ∧
    s.calls[datum.call]? = some ⟨.addWaitData g.msgId resId datum.data, .returned ret⟩
  | .copied ptr _ => ∃ g, s.heap[ptr]? = some g

theorem Event.Grounded.kept {timestamp : ℕ} {s s' : Manager} {a : Action} {o : Option Event} {e : Event}
    (h : e.Grounded s) (hm : Moves getsha256hash timestamp s a s' o) : e.Grounded s' := by
  cases e with
  | registered ptr resId =>
    obtain ⟨c, g, hg, hc⟩ := h
    obtain ⟨g', hg', hid, -⟩ := hm.object_kept hg
    exact ⟨c, g', hg', hid ▸ hm.final_kept hc trivial⟩
  | answered ptr resId datum =>
    obtain ⟨ret, g, hg, hc⟩ := h
    obtain ⟨g', hg', hid, -⟩ := hm.object_kept hg
    exact ⟨ret, g', hg', hid ▸ hm.final_kept hc trivial⟩
  | copied ptr call =>
    obtain ⟨g, hg⟩ := h
    obtain ⟨g', hg', -⟩ := hm.object_kept hg
    exact ⟨g', hg'⟩

/-- The object an event is about. -/
def Event.ptr : Event → ℕ
  | .registered ptr _ => ptr
  | .answered ptr _ _ => ptr
  | .copied ptr _ => ptr

theorem Event.Grounded.lt {s : Manager} {e : Event} (h : e.Grounded s) : e.ptr < s.heap.length := by
  cases e with
  | registered ptr resId =>
    obtain ⟨c, g, hg, -⟩ := h
    exact (List.getElem?_eq_some_iff.mp hg).1
  | answered ptr resId datum =>
    obtain ⟨ret, g, hg, -⟩ := h
    exact (List.getElem?_eq_some_iff.mp hg).1
  | copied ptr call =>
    obtain ⟨g, hg⟩ := h
    exact (List.getElem?_eq_some_iff.mp hg).1

/-- The step that works on an object is a call for its id. -/
theorem Moves.grounded {timestamp : ℕ} {s s' : Manager} {a : Action} {e : Event} (hv : Valid s)
    (hm : Moves getsha256hash timestamp s a s' (some e)) : e.Grounded s' := by
  have hkept := @Moves.object_kept _ _ _ _ _ _ hm
  cases hm with
  | @register n ptr g msgId resId h hg =>
    obtain ⟨g₁, hg₁, hid⟩ := hv.held h rfl
    obtain ⟨g', hg', hid', -⟩ := hkept hg₁
    cases hid
    refine ⟨n, g', hg', ?_⟩
    rw [getElem?_goTo (s := s.store ptr _) h, if_pos rfl, hid']
  | @answer n ptr g msgId resId data h hg =>
    obtain ⟨g₁, hg₁, hid⟩ := hv.held h rfl
    obtain ⟨g', hg', hid', -⟩ := hkept hg₁
    cases hid
    refine ⟨(g.pushData resId ⟨data, n⟩).1, g', hg', ?_⟩
    rw [getElem?_goTo (s := s.store ptr _) h, if_pos rfl, hid']
  | @copy n ptr g msgId f h hf hg =>
    obtain ⟨g', hg', -⟩ := hkept hg
    exact ⟨g', hg'⟩

theorem grounded_run (actions : List Action) :
    ∀ e ∈ (run getsha256hash clock actions).history, e.Grounded (run getsha256hash clock actions).state := by
  refine run_induction (P := fun _ r => ∀ e ∈ r.history, e.Grounded r.state) (by simp) ?_ actions
  intro actions a s' o ih hm e he
  rcases List.mem_append.mp he with he | he
  · exact (ih e he).kept hm
  · rw [Option.mem_toList] at he
    exact (he ▸ hm).grounded (valid_run actions)

/-- The n-th call of `WaitData` has handed back what the object of its id had collected when it was
    copied. -/
def HandedBack (r : Run) (n : ℕ) (msgId : Str) (flag : Bool) (retData : List Datum) : Prop :=
  ∃ ptr g before later nodes, r.history = before ++ .copied ptr n :: later ∧
    r.state.heap[ptr]? = some g ∧ g.msgId = msgId ∧ Collected ptr nodes retData before ∧
    (flag = true ↔ g.retNum.toNat ≤ nodes.length)

theorem HandedBack.kept {timestamp : ℕ} {r : Run} {s' : Manager} {a : Action} {o : Option Event} {n : ℕ}
    {msgId : Str} {flag : Bool} {retData : List Datum} (h : HandedBack r n msgId flag retData)
    (hm : Moves getsha256hash timestamp r.state a s' o) :
    HandedBack ⟨s', r.history ++ o.toList⟩ n msgId flag retData := by
  obtain ⟨ptr, g, before, later, nodes, hh, hg, hid, hcol, hflag⟩ := h
  obtain ⟨g', hg', hid', hret⟩ := hm.object_kept hg
  refine ⟨ptr, g', before, later ++ o.toList, nodes, ?_, hg', hid'.trans hid, hcol, hret ▸ hflag⟩
  rw [hh, List.append_assoc, List.cons_append]

/-- What the data and the answers of an object are, and what was copied from it. -/
structure Tracked (r : Run) : Prop where
  fresh : ∀ {ptr : ℕ} {g : GlobalData}, r.state.heap[ptr]? = some g → Fresh r.history ptr g
  handed : ∀ {n : ℕ} {msgId : Str} {f : Frame} {flag : Bool} {retData : List Datum},
    r.state.calls[n]? = some ⟨.waitData msgId, f⟩ → f = .copied flag retData ∨ f = .handed flag retData →
    HandedBack r n msgId flag retData

/-- Nothing was done to an object that is not there yet. -/
theorem fresh_create {actions : List Action} (timeOutSec retNum : UInt32) (msgId : Str) :
    Fresh (run getsha256hash clock actions).history (run getsha256hash clock actions).state.heap.length
      (.create timeOutSec retNum msgId) := by
  have hreg (resId : Str) : Event.registered (run getsha256hash clock actions).state.heap.length resId ∉
      (run getsha256hash clock actions).history := by
    intro h
    exact lt_irrefl _ (grounded_run actions _ h).lt
  refine ⟨⟨[], List.nodup_nil, fun resId => ?_, rfl⟩, fun resId => ?_⟩
  · rw [firstAnswer_of_not_registered (hreg resId)]
    simp
  · simp [GlobalData.create, hreg resId]

/-- A step keeps the objects right. -/
theorem fresh_step {actions : List Action} {a : Action} {s' : Manager} {o : Option Event}
    (honce : OncePerNode actions)
    (ih : ∀ {ptr : ℕ} {g : GlobalData}, (run getsha256hash clock actions).state.heap[ptr]? = some g →
      Fresh (run getsha256hash clock actions).history ptr g)
    (hm : Moves getsha256hash (clock actions.length) (run getsha256hash clock actions).state a s' o)
    {ptr : ℕ} {g : GlobalData} (h : s'.heap[ptr]? = some g) :
    Fresh ((run getsha256hash clock actions).history ++ o.toList) ptr g := by
  have hv : Valid (run getsha256hash clock actions).state := valid_run actions
  have hold (h : (run getsha256hash clock actions).state.heap[ptr]? = some g) :
      Fresh ((run getsha256hash clock actions).history ++ (none : Option Event).toList) ptr g := by
    rw [Option.toList_none, List.append_nil]
    exact ih h
  cases hm with
  | create h₁ =>
    rcases getElem?_concat_eq_some h with h | ⟨rfl, rfl⟩
    · exact hold h
    · rw [Option.toList_none, List.append_nil]
      exact fresh_create ..
  | @register n q g₁ msgId resId h₁ hg =>
    replace h := (getElem?_store hg _ _).symm.trans h
    split at h
    · next hq =>
      subst hq
      cases h
      refine (ih hg).register fun hreg => ?_
      -- the node would have been named by another call, for the same id
      obtain ⟨c, g₂, hg₂, hc⟩ := grounded_run actions _ hreg
      obtain ⟨g₃, hg₃, hid⟩ := hv.held h₁ rfl
      obtain rfl : g₃ = g₂ := Option.some.inj (hg₃.symm.trans hg₂)
      cases hid
      obtain rfl : n = c := resNode_unique honce h₁ hc rfl rfl
      cases h₁.symm.trans hc
    · next hq => exact (ih h).other fun resId' => ⟨fun heq => hq (by cases heq; rfl), rfl⟩
  | @answer n q g₁ msgId resId data h₁ hg =>
    replace h := (getElem?_store hg _ _).symm.trans h
    split at h
    · next hq =>
      subst hq
      cases h
      exact (ih hg).answer resId _
    · next hq => exact (ih h).other fun resId' => ⟨nofun, by simp [Event.answerOf, hq]⟩
  | copy h₁ hf hg => exact (ih h).other fun resId' => ⟨nofun, rfl⟩
  | _ => exact hold h

/-- A step keeps right what was copied. -/
theorem handed_step {actions : List Action} {a : Action} {s' : Manager} {o : Option Event}
    (ih : Tracked (run getsha256hash clock actions))
    (hm : Moves getsha256hash (clock actions.length) (run getsha256hash clock actions).state a s' o)
    {n : ℕ} {msgId : Str} {f : Frame} {flag : Bool} {retData : List Datum}
    (h : s'.calls[n]? = some ⟨.waitData msgId, f⟩) (hf : f = .copied flag retData ∨ f = .handed flag retData) :
    HandedBack ⟨s', (run getsha256hash clock actions).history ++ o.toList⟩ n msgId flag retData := by
  have hold {f : Frame} (h : (run getsha256hash clock actions).state.calls[n]? = some ⟨.waitData msgId, f⟩)
      (hf : f = .copied flag retData ∨ f = .handed flag retData) := (ih.handed h hf).kept hm
  cases hm with
  | enter c =>
    rcases getElem?_concat_eq_some h with h | ⟨-, h⟩
    · exact hold h hf
    · cases h
      simp only [Manager.enter, Manager.find] at hf
      split at hf <;> rcases hf with hf | hf <;> cases hf
  | create h₁ =>
    rcases of_getElem?_goTo rfl h₁ h with h | ⟨-, hc⟩
    · exact hold h hf
    · cases hc
  | register h₁ hg =>
    rcases of_getElem?_goTo rfl h₁ h with h | ⟨-, hc⟩
    · exact hold h hf
    · cases hc
  | answer h₁ hg =>
    rcases of_getElem?_goTo rfl h₁ h with h | ⟨-, hc⟩
    · exact hold h hf
    · cases hc
  | wait h₁ hg =>
    rcases of_getElem?_goTo rfl h₁ h with h | ⟨-, hc⟩
    · exact hold h hf
    · cases hc
      rcases hf with hf | hf <;> cases hf
  | @copy m ptr g msgId₁ f₁ h₁ hf₁ hg =>
    rcases of_getElem?_goTo rfl h₁ h with h | ⟨rfl, hc⟩
    · exact hold h hf
    · cases hc
      rcases hf with hf | hf <;> cases hf
      obtain ⟨g₂, hg₂, hid⟩ := (valid_run actions).held h₁ (by rcases hf₁ with rfl | rfl <;> rfl)
      obtain rfl : g = g₂ := Option.some.inj (hg.symm.trans hg₂)
      cases hid
      obtain ⟨nodes, hcol⟩ := (ih.fresh hg).collected
      refine ⟨ptr, g, _, [], nodes, rfl, hg, rfl, hcol, ?_⟩
      have hlen : g.data.length = nodes.length := by simpa using congrArg List.length hcol.2.2
      rw [← hlen, GlobalData.enough, decide_eq_true_iff]
  | @erase m msgId₁ flag₁ retData₁ h₁ =>
    rcases of_getElem?_goTo rfl h₁ h with h | ⟨rfl, hc⟩
    · exact hold h hf
    · cases hc
      rcases hf with hf | hf <;> cases hf
      exact hold h₁ (.inl rfl)
  | idle m => exact hold h hf

theorem tracked_run {actions : List Action} (honce : OncePerNode actions) :
    Tracked (run getsha256hash clock actions) := by
  refine run_induction (P := fun actions r => OncePerNode actions → Tracked r) ?_ ?_ actions honce
  · exact fun _ => ⟨fun h => (nomatch h), fun h => (nomatch h)⟩
  · intro actions a s' o ih hm honce
    rw [OncePerNode, List.filterMap_append] at honce
    have hbefore : OncePerNode actions := (List.nodup_append.mp honce).1
    exact ⟨fun h => fresh_step hbefore (ih hbefore).fresh hm h, fun h hf => handed_step (ih hbefore) hm h hf⟩

/-- A call of `WaitData` that returns without data found no object under its id. -/
theorem returned_run (actions : List Action) {n : ℕ} {msgId : Str} {ret : Bool}
    (h : (run getsha256hash clock actions).state.calls[n]? = some ⟨.waitData msgId, .returned ret⟩) :
    ret = false ∧ ∃ before later, actions = before ++ .call (.waitData msgId) :: later ∧
      (run getsha256hash clock before).state.calls.length = n ∧
      (run getsha256hash clock before).state.globalData msgId = none := by
  refine run_induction (P := fun actions r => r.state.calls[n]? = some ⟨.waitData msgId, .returned ret⟩ →
    ret = false ∧ ∃ before later, actions = before ++ .call (.waitData msgId) :: later ∧
      (run getsha256hash clock before).state.calls.length = n ∧
      (run getsha256hash clock before).state.globalData msgId = none) nofun ?_ actions h
  intro actions a s' o ih hm h
  have hold (h : (run getsha256hash clock actions).state.calls[n]? = some ⟨.waitData msgId, .returned ret⟩) :
      ret = false ∧ ∃ before later, actions ++ [a] = before ++ .call (.waitData msgId) :: later ∧
      (run getsha256hash clock before).state.calls.length = n ∧
      (run getsha256hash clock before).state.globalData msgId = none := by
    obtain ⟨hret, before, later, hact, hn, hnone⟩ := ih h
    exact ⟨hret, before, later ++ [a], by rw [hact, List.append_assoc, List.cons_append], hn, hnone⟩
  have hset {s₁ : Manager} (hs : s₁.calls = (run getsha256hash clock actions).state.calls) {m : ℕ} {c₁ : Call}
      {f₁ f₂ : Frame} (h₁ : (run getsha256hash clock actions).state.calls[m]? = some ⟨c₁, f₁⟩)
      (h : (s₁.goTo m c₁ f₂).calls[n]? = some ⟨.waitData msgId, .returned ret⟩)
      (hne : (⟨c₁, f₂⟩ : Thread) ≠ ⟨.waitData msgId, .returned ret⟩) :
      (run getsha256hash clock actions).state.calls[n]? = some ⟨.waitData msgId, .returned ret⟩ := by
    rcases of_getElem?_goTo hs h₁ h with h | ⟨-, heq⟩
    · exact h
    · exact absurd heq.symm hne
  cases hm with
  | enter c =>
    rcases getElem?_concat_eq_some h with h | ⟨hn, h⟩
    · exact hold h
    · obtain ⟨rfl, hret⟩ := Thread.mk.inj h
      simp only [Manager.enter, Manager.find] at hret
      split at hret
      · next hnone =>
        cases hret
        exact ⟨rfl, actions, [], rfl, hn.symm, hnone⟩
      · cases hret
  | create h₁ => exact hold (hset rfl h₁ h nofun)
  | register h₁ hg => exact hold (hset rfl h₁ h nofun)
  | answer h₁ hg => exact hold (hset rfl h₁ h nofun)
  | wait h₁ hg => exact hold (hset rfl h₁ h nofun)
  | copy h₁ hf hg => exact hold (hset rfl h₁ h nofun)
  | erase h₁ => exact hold (hset rfl h₁ h nofun)
  | idle m => exact hold h

/-- One answer for each node that was named: what `WaitData` hands back are the first answers of the
    nodes that `AddResNode` had named for the id and that had answered when it copied the data, one
    for each of them, and it returns true exactly when there are `retNum` of them. Without an object
    under the id it returns false and no data. -/
theorem waitData_one_answer_per_node (actions : List Action) (honce : OncePerNode actions) {n : ℕ}
    {msgId : Str} {f : Frame}
    (h : (run getsha256hash clock actions).state.calls[n]? = some ⟨.waitData msgId, f⟩) :
    (∀ flag retData, f = .handed flag retData →
      ∃ (ptr : ℕ) (g : GlobalData) (before later : List Event) (nodes : List Str),
      (run getsha256hash clock actions).history = before ++ .copied ptr n :: later ∧
      (run getsha256hash clock actions).state.heap[ptr]? = some g ∧ g.msgId = msgId ∧
      nodes.Nodup ∧ (∀ resId, resId ∈ nodes ↔ (firstAnswer ptr resId before).isSome) ∧
      retData.map some = nodes.map (fun resId => firstAnswer ptr resId before) ∧
      (∀ resId ∈ nodes, ∃ (c : ℕ) (d : Datum), firstAnswer ptr resId before = some d ∧
        (run getsha256hash clock actions).state.calls[c]?
          = some ⟨.addResNode msgId resId, .returned true⟩ ∧
        (run getsha256hash clock actions).state.calls[d.call]?
          = some ⟨.addWaitData msgId resId d.data, .returned true⟩) ∧
      (flag = true ↔ g.retNum.toNat ≤ nodes.length)) ∧
    (∀ ret, f = .returned ret → ret = false ∧ ∃ before later,
      actions = before ++ .call (.waitData msgId) :: later ∧
      (run getsha256hash clock before).state.calls.length = n ∧
      (run getsha256hash clock before).state.globalData msgId = none) := by
  refine ⟨?_, fun ret hret => returned_run actions (hret ▸ h)⟩
  rintro flag retData rfl
  obtain ⟨ptr, g, before, later, nodes, hh, hg, hid, ⟨hnd, hmem, hdata⟩, hflag⟩ :=
    (tracked_run honce).handed h (.inr rfl)
  refine ⟨ptr, g, before, later, nodes, hh, hg, hid, hnd, hmem, hdata, ?_, hflag⟩
  intro resId hres
  obtain ⟨d, hd⟩ := Option.isSome_iff_exists.mp ((hmem resId).mp hres)
  have hin {e : Event} (he : e ∈ before) : e ∈ (run getsha256hash clock actions).history := by
    rw [hh]
    exact List.mem_append_left _ he
  obtain ⟨hreg, hans⟩ := mem_of_firstAnswer hd
  obtain ⟨c, g₁, hg₁, hc⟩ := grounded_run actions _ (hin hreg)
  obtain ⟨ret, g₂, hg₂, hcall⟩ := grounded_run actions _ (hin hans)
  obtain rfl : g = g₁ := Option.some.inj (hg.symm.trans hg₁)
  obtain rfl : g = g₂ := Option.some.inj (hg.symm.trans hg₂)
  subst hid
  refine ⟨c, d, hd, hc, ?_⟩
  -- the datum was handed back, so its call was accepted
  have hmem : some d ∈ retData.map some := by
    rw [hdata]
    exact List.mem_map.mpr ⟨resId, hres, hd⟩
  obtain ⟨d', hd', heq⟩ := List.mem_map.mp hmem
  cases heq
  obtain ⟨_, _, resId', hacc⟩ := (valid_run actions).copied h d hd'
  cases hcall.symm.trans hacc
  exact hcall

end Runs

/-! Two requests, one node asked for the first of them, and its answer taken up by the second. -/

/-- Two times, a microsecond apart. -/
@[irreducible] def sampleTime (later : Bool) : ℕ := if later then 1700000000000001 else 1700000000000000

theorem sampleTime_le : sampleTime false ≤ sampleTime true := by decide +kernel

/-- `Getsha256hash` of these times. -/
def sampleSha (text : Str) : Str :=
  if text = decimal (sampleTime false) then
    str "c44439a977809e220026df9467e344fb5211d94871750098294a9c5be6436681"
  else if text = decimal (sampleTime true) then
    str "2ca9bda28aadd6a75b4da5812af7f808a552a4657c0eb59e280b741d5b08b38b"
  else text

/-- The clock stands still, or goes on after two steps. -/
def sampleClock (moves : Bool) : ℕ →o ℕ where
  toFun n := if moves ∧ 2 ≤ n then sampleTime true else sampleTime false
  monotone' := by
    intro m n hmn
    have hle := sampleTime_le
    cases moves <;> grind

/-- The steps: two requests are made, a node is registered and answers for the first, and the data are
    collected for the second. -/
def sampleActions (first second : Str) : List Action :=
  [.call (.createWait 30 1), .resume 0, .call (.createWait 30 1), .resume 1,
    .call (.addResNode first (str "node")), .resume 2,
    .call (.addWaitData first (str "node") (str "ack")), .resume 3,
    .call (.waitData second), .resume 4, .resume 4, .resume 4]

/-- The node was asked and answers for the first request, the data are collected for the second. -/
def sampleRequest : ℕ → Option ℕ
  | 2 => some 0
  | 3 => some 0
  | 4 => some 1
  | _ => none

/-- The ids of the two requests. -/
def sampleId (second : Bool) : Str := sampleSha (decimal (sampleTime second))

theorem isolated_of_distinct_times_sample :
    Isolated sampleRequest (run sampleSha (sampleClock true)
      (sampleActions (sampleId false) (sampleId true))).state := by
  refine isolated_of_distinct_times _ _ ?_ ?_ ?_
  · have hcalls : (run sampleSha (sampleClock true)
        (sampleActions (sampleId false) (sampleId true))).state.calls =
        [⟨.createWait 30 1, .created (sampleId false)⟩, ⟨.createWait 30 1, .created (sampleId true)⟩,
          ⟨.addResNode (sampleId false) (str "node"), .returned true⟩,
          ⟨.addWaitData (sampleId false) (str "node") (str "ack"), .returned true⟩,
          ⟨.waitData (sampleId true), .handed false []⟩] := by decide +kernel
    intro n t r hn hr
    rw [hcalls] at hn ⊢
    match n, hr with
    | 2, rfl => cases hn; exact ⟨sampleId false, _, rfl, rfl, rfl⟩
    | 3, rfl => cases hn; exact ⟨sampleId false, _, rfl, rfl, rfl⟩
    | 4, rfl => cases hn; exact ⟨sampleId true, _, rfl, rfl, rfl⟩
  · decide +kernel
  · have htimes : createTimes (sampleClock true) (sampleActions (sampleId false) (sampleId true)) =
        [sampleTime false, sampleTime true] := by decide +kernel
    rw [htimes]
    have hne : sampleSha (decimal (sampleTime false)) ≠ sampleSha (decimal (sampleTime true)) := by
      decide +kernel
    rintro _ ⟨x, hx, rfl⟩ _ ⟨y, hy, rfl⟩ h
    rcases List.mem_pair.mp hx with rfl | rfl <;> rcases List.mem_pair.mp hy with rfl | rfl
    · rfl
    · exact absurd h hne
    · exact absurd h.symm hne
    · rfl

theorem shared_time_mixes_answers :
    Labelled sampleRequest (run sampleSha (sampleClock false)
      (sampleActions (sampleId false) (sampleId false))).state ∧
    ¬ Isolated sampleRequest (run sampleSha (sampleClock false)
      (sampleActions (sampleId false) (sampleId false))).state := by
  have hcalls : (run sampleSha (sampleClock false)
      (sampleActions (sampleId false) (sampleId false))).state.calls =
      [⟨.createWait 30 1, .created (sampleId false)⟩, ⟨.createWait 30 1, .created (sampleId false)⟩,
        ⟨.addResNode (sampleId false) (str "node"), .returned true⟩,
        ⟨.addWaitData (sampleId false) (str "node") (str "ack"), .returned true⟩,
        ⟨.waitData (sampleId false), .handed true [⟨str "ack", 3⟩]⟩] := by decide +kernel
  constructor
  · intro n t r hn hr
    rw [hcalls] at hn ⊢
    match n, hr with
    | 2, rfl => cases hn; exact ⟨sampleId false, _, rfl, rfl, rfl⟩
    | 3, rfl => cases hn; exact ⟨sampleId false, _, rfl, rfl, rfl⟩
    | 4, rfl => cases hn; exact ⟨sampleId false, _, rfl, rfl, rfl⟩
  · intro hiso
    have h := hiso 4 (sampleId false) true [⟨str "ack", 3⟩] 1 (by rw [hcalls]; rfl) rfl ⟨str "ack", 3⟩
      (List.mem_singleton.mpr rfl) 0 rfl
    cases h

theorem waitData_one_answer_sample :
    ∃ (ptr : ℕ) (before : List Event) (nodes : List Str), nodes.Nodup ∧
      [some ⟨str "ack", 3⟩] = nodes.map (fun resId => firstAnswer ptr resId before) ∧
      nodes.length = 1 := by
  have hcall : (run sampleSha (sampleClock false)
      (sampleActions (sampleId false) (sampleId false))).state.calls[4]? =
      some ⟨.waitData (sampleId false), .handed true [⟨str "ack", 3⟩]⟩ := by decide +kernel
  obtain ⟨ptr, g, before, later, nodes, -, -, -, hnd, -, hdata, -, -⟩ :=
    (waitData_one_answer_per_node (sampleActions (sampleId false) (sampleId false)) (by decide +kernel)
      hcall).1 _ _ rfl
  exact ⟨ptr, before, nodes, hnd, hdata, by simpa using (congrArg List.length hdata).symm⟩

end Tfs.Common
