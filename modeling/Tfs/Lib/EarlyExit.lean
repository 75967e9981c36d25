import Mathlib.Data.List.Basic

/-! Functions with several ways out: returns in the middle, guards that are run when the scope is left, a
    status that is carried along to the end, and exceptions.

    What a guard does is done on every way out behind it, and on none before it. A status that is already good
    when a check fails is returned as it is. What a function throws is thrown by one of its parts. -/

namespace Tfs.EarlyExit

/-! ### Scope guards -/

section Guards
variable {σ : Type}

/-- A statement changes the state and may return, or it puts a guard on the rest of the scope. -/
inductive Stmt (σ : Type) where
  | run (f : σ → σ × Bool)
  | guard (f : σ → σ)

/-- The state when the scope has been left. -/
def runScope : List (Stmt σ) → σ → σ
  | [], s => s
  | .run f :: rest, s => if (f s).2 then (f s).1 else runScope rest (f s).1
  | .guard f :: rest, s => f (runScope rest s)

/-- A statement that never returns. -/
def Stmt.set (f : σ → σ) : Stmt σ := .run fun s => (f s, false)

/-- A statement that only returns. -/
def Stmt.returnIf (cond : σ → Bool) : Stmt σ := .run fun s => (s, cond s)

variable {f : σ → σ} {cond : σ → Bool} {rest : List (Stmt σ)} {s : σ}

@[simp] theorem runScope_nil : runScope [] s = s := rfl

@[simp] theorem runScope_set : runScope (.set f :: rest) s = runScope rest (f s) := rfl

@[simp] theorem runScope_returnIf :
    runScope (.returnIf cond :: rest) s = if cond s then s else runScope rest s := rfl

@[simp] theorem runScope_guard : runScope (.guard f :: rest) s = f (runScope rest s) := rfl

/-- Statements without guards: the state behind them, and whether one of them has returned. -/
def runAll : List (σ → σ × Bool) → σ → σ × Bool
  | [], s => (s, false)
  | f :: fs, s => if (f s).2 then ((f s).1, true) else runAll fs (f s).1

/-- A scope that begins with such statements. -/
theorem runScope_map_run (rest : List (Stmt σ)) : ∀ (fs : List (σ → σ × Bool)) (s : σ),
    runScope (fs.map .run ++ rest) s = if (runAll fs s).2 then (runAll fs s).1 else runScope rest (runAll fs s).1
  | [], _ => rfl
  | f :: fs, s => by
    rw [List.map_cons, List.cons_append, runScope, runAll]
    cases (f s).2
    · exact runScope_map_run rest fs _
    · rfl

/-- What a guard brings about holds when the scope is left, unless a statement before the guard returns. -/
theorem runScope_behind_guard {P : σ → Prop} (hguard : ∀ s, P (f s)) (fs : List (σ → σ × Bool)) (s : σ) :
    P (runScope (fs.map .run ++ .guard f :: rest) s) ↔ ((runAll fs s).2 → P (runAll fs s).1) := by
  rw [runScope_map_run]
  split_ifs with hreturn
  · exact ⟨fun h _ => h, fun h => h hreturn⟩
  · exact iff_of_true (hguard _) fun h => absurd h hreturn

end Guards

/-! ### A status -/

section Status
variable {ρ : Type}

/-- A step with its outcome: a check leaves the function when it fails, an ignored step goes on all the same.
    Between the steps the status is assigned. -/
inductive Step (ρ : Type) where
  | check (ok : Bool)
  | ignore (ok : Bool)
  | assign (status : ρ)

/-- A step as a statement on the status. -/
def Step.stmt : Step ρ → Stmt ρ
  | .check ok => .returnIf fun _ => !ok
  | .ignore _ => .set id
  | .assign status => .set fun _ => status

/-- The status at the end. -/
def status (steps : List (Step ρ)) (ret : ρ) : ρ := runScope (steps.map Step.stmt) ret

/-- The outcome of a step. -/
def Step.Ok : Step ρ → Prop
  | .check ok | .ignore ok => ok
  | .assign _ => True

/-- Success is returned only if no step failed. -/
def ReportsFailures (Success : ρ → Prop) (steps : List (Step ρ)) (ret : ρ) : Prop :=
  Success (status steps ret) → ∀ step ∈ steps, step.Ok

variable {Success : ρ → Prop} {ok : Bool} {new ret : ρ} {steps : List (Step ρ)}

@[simp] theorem status_nil : status [] ret = ret := rfl

@[simp] theorem status_check : status (.check ok :: steps) ret = if ok then status steps ret else ret := by
  cases ok <;> rfl

@[simp] theorem status_ignore : status (.ignore ok :: steps) ret = status steps ret := rfl

@[simp] theorem status_assign (new : ρ) : status (.assign new :: steps) ret = status steps new := rfl

@[simp] theorem reportsFailures_nil : ReportsFailures Success [] ret := fun _ _ h => by cases h

/-- A check that fails must not find a good status. -/
theorem reportsFailures_check : ReportsFailures Success (.check ok :: steps) ret ↔
    if ok then ReportsFailures Success steps ret else ¬ Success ret := by
  cases ok
  · simp [ReportsFailures, Step.Ok]
  · simp [ReportsFailures, Step.Ok]

/-- An ignored step must not have failed when success is returned. -/
@[simp] theorem reportsFailures_ignore : ReportsFailures Success (.ignore ok :: steps) ret ↔
    (Success (status steps ret) → ok) ∧ ReportsFailures Success steps ret := by
  rw [ReportsFailures, ReportsFailures, status_ignore, ← imp_and, List.forall_mem_cons]
  rfl

@[simp] theorem reportsFailures_assign (new : ρ) : ReportsFailures Success (.assign new :: steps) ret ↔
    ReportsFailures Success steps new := by
  simp [ReportsFailures, Step.Ok]

/-! A check passes for success when it fails with a good status, and stops what follows with a bad one. -/

theorem reportsFailures_check_good (hret : Success ret) :
    ReportsFailures Success (.check ok :: steps) ret ↔ ok ∧ ReportsFailures Success steps ret := by
  rw [reportsFailures_check]
  cases ok <;> simp [hret]

theorem reportsFailures_check_bad (hret : ¬ Success ret) :
    ReportsFailures Success (.check ok :: steps) ret ↔ (ok → ReportsFailures Success steps ret) := by
  rw [reportsFailures_check]
  cases ok <;> simp [hret]

theorem success_check_good (hret : Success ret) :
    Success (status (.check ok :: steps) ret) ↔ (ok → Success (status steps ret)) := by
  rw [status_check]
  cases ok <;> simp [hret]

theorem success_check_bad (hret : ¬ Success ret) :
    Success (status (.check ok :: steps) ret) ↔ ok ∧ Success (status steps ret) := by
  rw [status_check]
  cases ok <;> simp [hret]

/-- Where every step is checked and the status gets good at the end only, every failure is reported. -/
theorem reportsFailures_of_checks (hret : ¬ Success ret) : ∀ oks : List Bool,
    ReportsFailures Success (oks.map .check ++ [.assign new]) ret
  | [] => by simp
  | ok :: oks => by
    rw [List.map_cons, List.cons_append, reportsFailures_check_bad hret]
    exact fun _ => reportsFailures_of_checks hret oks

end Status

/-! ### Exceptions -/

/-- The exceptions satisfy `P`. -/
def Throws {ε α : Type} (P : ε → Prop) (r : Except ε α) : Prop := ∀ e, r = .error e → P e

section Throws
variable {ε ε' α β : Type} {P : ε → Prop}

theorem Throws.ok (a : α) : Throws P (.ok a : Except ε α) := nofun

theorem Throws.error {e : ε} (h : P e) : Throws P (.error e : Except ε α) := fun _ heq =>
  Except.error.inj heq ▸ h

theorem Throws.bind {r : Except ε α} {f : α → Except ε β} (h : Throws P r) (hf : ∀ a, Throws P (f a)) :
    Throws P (r >>= f) := by
  cases r with
  | error e => exact .error (h e rfl)
  | ok a => exact hf a

theorem Throws.mapError {r : Except ε α} {P : ε' → Prop} {f : ε → ε'} (h : Throws (fun e => P (f e)) r) :
    Throws P (r.mapError f) := by
  cases r with
  | error e => exact .error (h e rfl)
  | ok a => exact .ok a

theorem Throws.mapM {f : β → Except ε α} (hf : ∀ b, Throws P (f b)) : ∀ l : List β, Throws P (l.mapM f)
  | [] => .ok _
  | b :: l => by
    rw [List.mapM_cons]
    exact (hf b).bind fun _ => (Throws.mapM hf l).bind fun _ => .ok _

end Throws

end Tfs.EarlyExit
