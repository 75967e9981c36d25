import Mathlib.Data.List.Basic
import Mathlib.Logic.Function.Basic

/-! Transactions under two-phase locking.

    A transaction locks a key before it looks at it, and keeps the lock until it ends. What it would
    leave under a key lies in the lock until the transaction is committed, and is dropped when it is
    not. Transactions that run side by side then do what they would do one after the other, in the
    order of their commits, answers included. -/

namespace Tfs.TwoPhase

/-- An operation on one key: by what it finds there, what it answers and what it leaves. -/
structure Op (κ ν α : Type) where
  key : κ
  answer : Option ν → α
  update : Option ν → Option ν

/-- The committed contents, and for each locked key its owner and what the owner would leave there. -/
structure Store (ι κ ν : Type) where
  data : κ → Option ν
  locks : κ → Option (ι × Option ν)

variable {ι κ ν α : Type}

namespace Store

/-- A store without transactions. -/
def unlocked (data : κ → Option ν) : Store ι κ ν := ⟨data, fun _ => none⟩

variable [DecidableEq ι] (s : Store ι κ ν) (i : ι)

/-- The transaction holds the lock. -/
def owns (k : κ) : Bool := (s.locks k).any fun lock => lock.1 = i

/-- Another transaction holds the lock. -/
def lockedFor (k : κ) : Bool := (s.locks k).any fun lock => lock.1 ≠ i

/-- What the transaction reads. -/
def view (k : κ) : Option ν :=
  match s.locks k with
  | some (owner, content) => if owner = i then content else s.data k
  | none => s.data k

/-- The transaction leaves a content under a key that is not locked for it. -/
def leave [DecidableEq κ] (k : κ) (content : Option ν) : Store ι κ ν :=
  { s with locks := Function.update s.locks k (some (i, content)) }

/-- Its locks are released. -/
def release : Store ι κ ν := { s with locks := fun k => if s.owns i k then none else s.locks k }

/-- What it would leave is left. -/
def commit : Store ι κ ν := ⟨s.view i, (s.release i).locks⟩

variable {s i} {j : ι} {k k' : κ}

theorem owns_iff : s.owns i k ↔ ∃ content, s.locks k = some (i, content) := by
  rw [owns]
  cases s.locks k with
  | none => simp
  | some lock =>
    obtain ⟨owner, content⟩ := lock
    simp

theorem view_of_not_owns (h : ¬ s.owns i k) : s.view i k = s.data k := by
  rw [view]
  split
  · rename_i owner content hlock
    refine if_neg fun heq => h (owns_iff.mpr ⟨content, ?_⟩)
    rw [hlock, heq]
  · rfl

/-- A lock has one owner. -/
theorem not_owns_of_ne (h : s.owns i k) (hne : j ≠ i) : ¬ s.owns j k := by
  intro hj
  obtain ⟨c, hc⟩ := owns_iff.mp h
  obtain ⟨c', hc'⟩ := owns_iff.mp hj
  rw [hc] at hc'
  cases hc'
  exact hne rfl

theorem not_owns_of_lockedFor (h : s.lockedFor i k = false) (hne : j ≠ i) : ¬ s.owns j k := by
  intro hj
  obtain ⟨c, hc⟩ := owns_iff.mp hj
  rw [lockedFor, hc] at h
  simp [hne] at h

theorem owns_release : (s.release i).owns j k ↔ j ≠ i ∧ s.owns j k := by
  rw [owns, release]
  by_cases hk : s.owns i k
  · simp only [hk, if_true, Option.any_none, Bool.false_eq_true, false_iff, not_and]
    exact fun hne => not_owns_of_ne hk hne
  · simp only [hk, Bool.false_eq_true, if_false]
    refine ⟨fun hj => ⟨fun heq => hk (heq ▸ hj), hj⟩, And.right⟩

theorem view_release_ne (hne : j ≠ i) : (s.release i).view j = s.view j := by
  funext k
  by_cases hk : s.owns i k
  · rw [view_of_not_owns (not_owns_of_ne hk hne), view_of_not_owns]
    · rfl
    · exact fun hj => not_owns_of_ne hk hne (owns_release.mp hj).2
  · rw [view, view, release]
    simp [hk]

/-- What is read after another's commit: its contents where it had locked, the own ones where those
    are locked. -/
theorem view_commit_ne (hne : j ≠ i) (k : κ) :
    (s.commit i).view j k = if s.owns j k then s.view j k else s.view i k := by
  by_cases hj : s.owns j k
  · have hi : ¬ s.owns i k := not_owns_of_ne hj hne.symm
    rw [if_pos hj, view, view, commit, release]
    obtain ⟨c, hc⟩ := owns_iff.mp hj
    simp [hi, hc]
  · rw [if_neg hj, view_of_not_owns]
    · rfl
    · exact fun h => hj (owns_release.mp h).2

section Leave
variable [DecidableEq κ] {content : Option ν}

theorem owns_leave : (s.leave i k content).owns j k' ↔ if k' = k then j = i else s.owns j k' := by
  rw [owns, leave]
  by_cases hk : k' = k
  · subst hk
    simp [eq_comm]
  · simp [hk, owns]

theorem view_leave : (s.leave i k content).view i = Function.update (s.view i) k content := by
  funext k'
  by_cases hk : k' = k
  · subst hk
    simp [view, leave]
  · simp [view, leave, hk]

theorem view_leave_ne (h : s.lockedFor i k = false) (hne : j ≠ i) :
    (s.leave i k content).view j = s.view j := by
  funext k'
  by_cases hk : k' = k
  · subst hk
    rw [view_of_not_owns (not_owns_of_lockedFor h hne), view_of_not_owns]
    · rfl
    · rw [owns_leave, if_pos rfl]
      exact hne
  · simp [view, leave, hk]

end Leave
end Store

/-! ### One transaction alone -/

/-- The keys of operations. -/
def Touches (l : List (Op κ ν α × α)) (k : κ) : Prop := ∃ entry ∈ l, entry.1.key = k

@[simp] theorem not_touches_nil {k : κ} : ¬ Touches ([] : List (Op κ ν α × α)) k := by
  rintro ⟨entry, hentry, -⟩
  cases hentry

theorem touches_cons {entry : Op κ ν α × α} {l : List (Op κ ν α × α)} {k : κ} :
    Touches (entry :: l) k ↔ entry.1.key = k ∨ Touches l k := by
  simp [Touches]

theorem touches_concat {entry : Op κ ν α × α} {l : List (Op κ ν α × α)} {k : κ} :
    Touches (l ++ [entry]) k ↔ entry.1.key = k ∨ Touches l k := by
  simp [Touches, or_and_right, exists_or, or_comm]

variable [DecidableEq κ]

/-- The contents an operation leaves behind when nothing runs beside it. -/
def Op.apply (op : Op κ ν α) (data : κ → Option ν) : κ → Option ν :=
  Function.update data op.key (op.update (data op.key))

/-- The operations of a transaction one after the other, each with its answer. -/
inductive Serial : (κ → Option ν) → List (Op κ ν α × α) → (κ → Option ν) → Prop where
  | nil {data} : Serial data [] data
  | cons {data data' op rest} : Serial (op.apply data) rest data' →
      Serial data ((op, op.answer (data op.key)) :: rest) data'

theorem Serial.append {d d' d'' : κ → Option ν} {l l' : List (Op κ ν α × α)} (h : Serial d l d')
    (h' : Serial d' l' d'') : Serial d (l ++ l') d'' := by
  induction h with
  | nil => exact h'
  | cons _ ih => exact .cons (ih h')

theorem Serial.concat {d d' : κ → Option ν} {l : List (Op κ ν α × α)} (h : Serial d l d') (op : Op κ ν α) :
    Serial d (l ++ [(op, op.answer (d' op.key))]) (op.apply d') := h.append (.cons .nil)

/-- The other keys are left as they are. -/
theorem Serial.frame {d d' : κ → Option ν} {l : List (Op κ ν α × α)} (h : Serial d l d') {k : κ}
    (hk : ¬ Touches l k) : d' k = d k := by
  induction h with
  | nil => rfl
  | @cons d d' op rest _ ih =>
    rw [touches_cons, not_or] at hk
    rw [ih hk.2, Op.apply, Function.update_of_ne (Ne.symm hk.1)]

/-- Started on contents that agree on their keys, the operations answer the same and leave the same
    there. -/
theorem Serial.transfer {d d' e : κ → Option ν} {l : List (Op κ ν α × α)} (h : Serial d l d')
    (hagree : ∀ k, Touches l k → e k = d k) :
    ∃ e', Serial e l e' ∧ ∀ k, Touches l k → e' k = d' k := by
  induction h generalizing e with
  | nil => exact ⟨e, .nil, fun k hk => absurd hk not_touches_nil⟩
  | @cons d d' op rest hrest ih =>
    have hkey : e op.key = d op.key := hagree _ (touches_cons.mpr (.inl rfl))
    have hstep : ∀ k, Touches rest k → op.apply e k = op.apply d k := by
      intro k hk
      by_cases heq : k = op.key
      · simp [Op.apply, heq, hkey]
      · simpa only [Op.apply, Function.update_of_ne heq] using hagree _ (touches_cons.mpr (.inr hk))
    obtain ⟨e', hserial, hsame⟩ := ih hstep
    refine ⟨e', ?_, fun k hk => ?_⟩
    · have hcons : Serial e ((op, op.answer (e op.key)) :: rest) e' := .cons hserial
      rwa [hkey] at hcons
    · by_cases hin : Touches rest k
      · exact hsame k hin
      · -- only the first operation is about this key
        obtain rfl : op.key = k := (touches_cons.mp hk).resolve_right hin
        rw [hserial.frame hin, hrest.frame hin]
        simp [Op.apply, hkey]

/-! ### Transactions side by side -/

/-- What a transaction does next. -/
inductive Event (ι κ ν α : Type) where
  | access (i : ι) (op : Op κ ν α)
  | commit (i : ι)
  | release (i : ι)

/-- The store, what each open transaction was answered so far, and the committed transactions in the
    order of their commits. -/
structure Run (ι κ ν α : Type) where
  store : Store ι κ ν
  log : ι → List (Op κ ν α × α)
  history : List (List (Op κ ν α × α))

namespace Run

variable [DecidableEq ι]

/-- A run begins without transactions. -/
def start (data : κ → Option ν) : Run ι κ ν α := ⟨.unlocked data, fun _ => [], []⟩

/-- One step. An operation on a key another transaction has locked is refused. -/
def step (s : Run ι κ ν α) : Event ι κ ν α → Run ι κ ν α
  | .access i op =>
    if s.store.lockedFor i op.key then s
    else
      { s with
        store := s.store.leave i op.key (op.update (s.store.view i op.key))
        log := Function.update s.log i (s.log i ++ [(op, op.answer (s.store.view i op.key))]) }
  | .commit i => ⟨s.store.commit i, Function.update s.log i [], s.history ++ [s.log i]⟩
  | .release i => { s with store := s.store.release i, log := Function.update s.log i [] }

/-- The committed contents are those of the committed transactions one after the other; each open one
    stands where it would stand had it run alone on them; and it has locked what it touched. -/
structure Sound (data : κ → Option ν) (s : Run ι κ ν α) : Prop where
  history : Serial data s.history.flatten s.store.data
  log : ∀ i, Serial s.store.data (s.log i) (s.store.view i)
  owns : ∀ i k, s.store.owns i k ↔ Touches (s.log i) k

variable {data : κ → Option ν} {s : Run ι κ ν α} {i : ι}

theorem sound_start : Sound data (start data : Run ι κ ν α) :=
  ⟨.nil, fun _ => .nil, fun _ _ => by simp [start, Store.unlocked, Store.owns]⟩

theorem Sound.access (h : Sound data s) {op : Op κ ν α} (hfree : s.store.lockedFor i op.key = false) :
    Sound data (s.step (.access i op)) := by
  rw [step, hfree, if_neg Bool.false_ne_true]
  refine ⟨h.history, fun j => ?_, fun j k => ?_⟩
  · by_cases hj : j = i
    · subst hj
      simp only [Function.update_self, Store.view_leave]
      exact (h.log j).concat op
    · simp only [Function.update_of_ne hj, Store.view_leave_ne hfree hj]
      exact h.log j
  · simp only [Store.owns_leave]
    by_cases hj : j = i
    · subst hj
      rw [Function.update_self, touches_concat, ← h.owns]
      by_cases hk : k = op.key
      · simp [hk]
      · simp [hk, Ne.symm hk]
    · rw [Function.update_of_ne hj, ← h.owns]
      by_cases hk : k = op.key
      · -- the key was free, and is now locked for another
        subst hk
        simpa [hj] using Store.not_owns_of_lockedFor hfree hj
      · simp [hk]

theorem Sound.release (h : Sound data s) : Sound data (s.step (.release i)) := by
  refine ⟨h.history, fun j => ?_, fun j k => ?_⟩
  · by_cases hj : j = i
    · subst hj
      have hview : (s.store.release j).view j = s.store.data := by
        funext k
        exact Store.view_of_not_owns fun hk => (Store.owns_release.mp hk).1 rfl
      simp only [step, Function.update_self, hview]
      exact .nil
    · simp only [step, Function.update_of_ne hj, Store.view_release_ne hj]
      exact h.log j
  · by_cases hj : j = i
    · subst hj
      simp [step, Store.owns_release]
    · simp only [step, Function.update_of_ne hj, Store.owns_release, ← h.owns]
      simp [hj]

theorem Sound.commit (h : Sound data s) : Sound data (s.step (.commit i)) := by
  have hlocks : ∀ j, (s.store.commit i).owns j = (s.store.release i).owns j := fun _ => rfl
  refine ⟨?_, fun j => ?_, fun j k => ?_⟩
  · simp only [step, List.flatten_append, List.flatten_singleton]
    exact h.history.append (h.log i)
  · by_cases hj : j = i
    · subst hj
      have hview : (s.store.commit j).view j = s.store.view j := by
        funext k
        refine Store.view_of_not_owns fun hk => ?_
        rw [hlocks] at hk
        exact (Store.owns_release.mp hk).1 rfl
      simp only [step, Function.update_self, hview]
      exact .nil
    · -- its keys were locked, so what is committed has not changed there
      have hagree : ∀ k, Touches (s.log j) k → s.store.view i k = s.store.data k := fun k hk =>
        Store.view_of_not_owns (Store.not_owns_of_ne ((h.owns j k).mpr hk) (Ne.symm hj))
      obtain ⟨e, he, hsame⟩ := (h.log j).transfer hagree
      have hview : (s.store.commit i).view j = e := by
        funext k
        rw [Store.view_commit_ne hj]
        by_cases hk : Touches (s.log j) k
        · rw [if_pos ((h.owns j k).mpr hk), hsame k hk]
        · rw [if_neg fun howns => hk ((h.owns j k).mp howns), he.frame hk]
      simp only [step, Function.update_of_ne hj, hview]
      exact he
  · simp only [step, hlocks, Store.owns_release]
    by_cases hj : j = i
    · subst hj
      simp
    · simp [hj, h.owns]

theorem Sound.step (h : Sound data s) (event : Event ι κ ν α) : Sound data (s.step event) := by
  cases event with
  | access i op =>
    cases hfree : s.store.lockedFor i op.key with
    | true => simpa only [Run.step, hfree, if_true] using h
    | false => exact h.access hfree
  | commit i => exact h.commit
  | release i => exact h.release

end Run
end Tfs.TwoPhase
