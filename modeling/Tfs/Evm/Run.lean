import Tfs.Evm.Host

/-! Runs of the host.

    What the virtual machine does inside a call is any sequence of host operations, nested calls
    included, followed by a status and an output. Such a run is also a flat sequence of events: a
    nested call is its entry, the events of its own run and, for a contract creation, the entry of the
    code it returned. Properties of every state of a run are proved over events. -/

namespace Tfs.Evm

/-- An operation the machine asks of the host. The queries that only record an account access are one
    operation; a call comes with what the machine does when the call runs it. -/
inductive HostOp where
  | accountAccess (addr : Address)
  | getStorage (addr : Address) (key : Bytes32)
  | setStorage (addr : Address) (key value : Bytes32)
  | accessStorage (addr : Address) (key : Bytes32)
  | selfdestruct (addr beneficiary : Address)
  | emitLog (log : LogRecord)
  | call (msg : Message) (ops : List HostOp) (result : VmResult)

/-- A step of a run: an operation, the entry of a call, or the end of a contract creation. -/
inductive Event where
  | accountAccess (addr : Address)
  | getStorage (addr : Address) (key : Bytes32)
  | setStorage (addr : Address) (key value : Bytes32)
  | accessStorage (addr : Address) (key : Bytes32)
  | selfdestruct (addr beneficiary : Address)
  | emitLog (log : LogRecord)
  | enter (msg : Message)
  | created (contractAddress output : Str)
  deriving DecidableEq, Repr

/-- The call returned without success before the machine ran. -/
def Entry.failed : Entry → Bool
  | .returned result => result.statusCode ≠ .success
  | _ => false

variable (env : HostEnv)

/-- One event; with `strict`, a call has to succeed. -/
def step (strict : Bool) (h : Host) : Event → Option Host
  | .accountAccess addr => some (recordAccountAccess env h addr)
  | .getStorage addr key => (getStorage env h addr key).map Prod.snd
  | .setStorage addr key value => (setStorage env h addr key value).map Prod.snd
  | .accessStorage addr key => some (accessStorage h addr key).2
  | .selfdestruct addr beneficiary => some (selfdestruct env h addr beneficiary)
  | .emitLog log => some (emitLog h log)
  | .enter msg => (callEnter env h msg).bind fun r => if strict ∧ r.2.failed then none else some r.1
  | .created contractAddress output => some (createLeave h contractAddress output).1

/-- A sequence of events. -/
def runEvents (strict : Bool) (h : Host) : List Event → Option Host
  | [] => some h
  | e :: es => (step env strict h e).bind fun h' => runEvents strict h' es

mutual

/-- An operation with all it brings about. -/
def runOp : HostOp → Host → Option Host
  | .accountAccess addr, h => step env false h (.accountAccess addr)
  | .getStorage addr key, h => step env false h (.getStorage addr key)
  | .setStorage addr key value, h => step env false h (.setStorage addr key value)
  | .accessStorage addr key, h => step env false h (.accessStorage addr key)
  | .selfdestruct addr beneficiary, h => step env false h (.selfdestruct addr beneficiary)
  | .emitLog log, h => step env false h (.emitLog log)
  | .call msg ops result, h =>
    (call env h msg fun h => (runOps ops h).map (·, result)).map Prod.fst

/-- Operations one after the other. -/
def runOps : List HostOp → Host → Option Host
  | [], h => some h
  | op :: ops, h => (runOp op h).bind (runOps ops)

end

/-- The machine that performs `ops` and returns `result`. -/
def vmRun (ops : List HostOp) (result : VmResult) (h : Host) : Option (Host × VmResult) :=
  (runOps env ops h).map (·, result)

mutual

/-- The events of an operation. -/
def opEvents : HostOp → Host → List Event
  | .accountAccess addr, _ => [.accountAccess addr]
  | .getStorage addr key, _ => [.getStorage addr key]
  | .setStorage addr key value, _ => [.setStorage addr key value]
  | .accessStorage addr key, _ => [.accessStorage addr key]
  | .selfdestruct addr beneficiary, _ => [.selfdestruct addr beneficiary]
  | .emitLog log, _ => [.emitLog log]
  | .call msg ops result, h => .enter msg ::
    match callEnter env h msg with
    | some (h₁, .execute) => opsEvents ops h₁
    | some (h₁, .create contractAddress) => opsEvents ops h₁ ++
        if result.statusCode = .success then [.created contractAddress result.output] else []
    | _ => []

/-- The events of operations one after the other. -/
def opsEvents : List HostOp → Host → List Event
  | [], _ => []
  | op :: ops, h => opEvents op h ++
    match runOp env op h with
    | some h' => opsEvents ops h'
    | none => []

end

variable {env}

theorem runEvents_append {strict : Bool} : ∀ (es es' : List Event) (h : Host),
    runEvents env strict h (es ++ es') = (runEvents env strict h es).bind
      fun h' => runEvents env strict h' es'
  | [], _, _ => rfl
  | e :: es, es', h => by
    simp only [List.cons_append, runEvents, Option.bind_assoc]
    congr 1
    funext h'
    exact runEvents_append es es' h'

theorem runEvents_single {strict : Bool} (h : Host) (e : Event) :
    runEvents env strict h [e] = step env strict h e := by
  simp [runEvents]

theorem step_enter (h : Host) (msg : Message) :
    step env false h (.enter msg) = (callEnter env h msg).map Prod.fst := by
  cases hc : callEnter env h msg <;> simp [step, hc]

mutual

/-- The events of an operation lead where the operation does. -/
theorem runOp_events : ∀ (op : HostOp) (h h' : Host), runOp env op h = some h' →
    runEvents env false h (opEvents env op h) = some h'
  | .accountAccess addr, h, h', hop => by rw [opEvents, runEvents_single]; exact hop
  | .getStorage addr key, h, h', hop => by rw [opEvents, runEvents_single]; exact hop
  | .setStorage addr key value, h, h', hop => by rw [opEvents, runEvents_single]; exact hop
  | .accessStorage addr key, h, h', hop => by rw [opEvents, runEvents_single]; exact hop
  | .selfdestruct addr beneficiary, h, h', hop => by rw [opEvents, runEvents_single]; exact hop
  | .emitLog log, h, h', hop => by rw [opEvents, runEvents_single]; exact hop
  | .call msg ops result, h, h', hop => by
    rw [runOp] at hop
    obtain ⟨⟨h₀, r⟩, hcall, rfl⟩ := Option.map_eq_some_iff.mp hop
    rw [call, Option.bind_eq_some_iff] at hcall
    obtain ⟨⟨h₁, entry⟩, henter, hleave⟩ := hcall
    rw [opEvents, runEvents, step_enter, henter]
    simp only [Option.map_some, Option.bind_some]
    cases entry with
    | returned result => cases hleave; rfl
    | execute =>
      simp only [callLeave, Option.bind_eq_bind, Option.bind_eq_some_iff] at hleave
      obtain ⟨⟨h₂, r₂⟩, hvm, heq⟩ := hleave
      obtain ⟨h₃, hops, heq'⟩ := Option.map_eq_some_iff.mp hvm
      cases heq
      cases heq'
      exact runOps_events ops h₁ _ hops
    | create contractAddress =>
      simp only [callLeave, Option.bind_eq_bind, Option.bind_eq_some_iff] at hleave
      obtain ⟨⟨h₂, r₂⟩, hvm, heq⟩ := hleave
      obtain ⟨h₃, hops, heq'⟩ := Option.map_eq_some_iff.mp hvm
      cases heq'
      rw [runEvents_append, runOps_events ops h₁ _ hops, Option.bind_some]
      by_cases hs : result.statusCode = .success
      · rw [if_neg (not_not.mpr hs)] at heq
        rw [if_pos hs, runEvents_single]
        exact congrArg (Option.map Prod.fst) heq
      · rw [if_pos hs] at heq
        rw [if_neg hs]
        cases heq
        rfl

/-- The events of a run of operations lead where the run does. -/
theorem runOps_events : ∀ (ops : List HostOp) (h h' : Host), runOps env ops h = some h' →
    runEvents env false h (opsEvents env ops h) = some h'
  | [], h, h', hops => hops
  | op :: ops, h, h', hops => by
    rw [runOps, Option.bind_eq_some_iff] at hops
    obtain ⟨h₁, hop, hrest⟩ := hops
    rw [opsEvents, runEvents_append, runOp_events op h h₁ hop, Option.bind_some, hop]
    exact runOps_events ops h₁ h' hrest

end

end Tfs.Evm
