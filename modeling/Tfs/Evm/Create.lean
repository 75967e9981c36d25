import Tfs.Lib.Decimal
import Tfs.Evm.Run

/-! Contract creation by the host (`CREATE` and `CREATE2` in `EvmHost::call`, `createContract`).

    The address of a created contract is derived from what the creation is made of: the creator and a
    number for `CREATE`, the creator, a salt and the init code for `CREATE2`. The number comes from a
    counter that starts, in every transaction, from the number of contracts of the transaction's
    sender, whichever contract does the creating. Below, a creation meets an address that has code
    exactly when a creation made of the same parts has been there before. -/

namespace Tfs.Evm

/-! ### What an address is made of -/

theorem length_evmAddrToString (keccak : Str → Str) (addr : Address) :
    (evmAddrToString keccak addr).length = 40 := by
  have hskip : Rlp.skipPrefix (Rlp.toHex addr.1) = Rlp.toHex addr.1 :=
    skipPrefix_of_digits fun c hc => (isDigit_toHex addr.1 c hc).imp fun _ h => h.1
  rw [evmAddrToString, toChecksumAddress, List.length_mapIdx, List.length_map, hskip, Rlp.toHex_length,
    addr.2]

/-- The text of an account. -/
abbrev AccountText := {s : Str // s.length = 40}

/-- The parts of a creation. -/
inductive Origin where
  | create (creator : AccountText) (nonce : ℤ)
  | create2 (creator : Address) (salt : Bytes32) (initCode : Str)
  deriving DecidableEq

section Host
variable (env : HostEnv)

/-- The seed `calculateCreate2Address` hashes. -/
def create2Seed (creator : Address) (salt : Bytes32) (initCode : Str) : Str :=
  [0xff] ++ creator.1 ++ salt.1 ++ env.keccak256 initCode

/-- The last twenty bytes of the seed's hash. -/
def create2Base (seed : Str) : Address :=
  let base := (env.keccak256 seed).drop 12
  if hb : (base.take 20).length = 20 then ⟨base.take 20, hb⟩ else ⟨List.replicate 20 0, length_zeroBytes⟩

/-- The address of a contract with these parts. -/
def Origin.address : Origin → Str
  | .create creator nonce => env.generateAddr (creator.1 ++ signedDecimal nonce)
  | .create2 creator salt initCode =>
    env.addrString (create2Base env (create2Seed env creator salt initCode))

/-- The parts a creating message has, the counter being what it is. -/
def originOf (h : Host) (msg : Message) : Origin :=
  match msg.kind with
  | .create2 => .create2 msg.sender msg.create2Salt msg.input
  | _ => .create ⟨env.addrString msg.sender, length_evmAddrToString _ _⟩ (h.nonceCache + 1)

/-- The address `call` gives to a creating message is that of its parts. -/
theorem payee_eq_address {h : Host} {msg : Message} (hc : msg.creates) :
    payee env h msg = (originOf env h msg).address env := by
  rcases hc with hk | hk <;> simp only [payee, originOf, hk] <;> rfl

instance (msg : Message) : Decidable msg.creates := inferInstanceAs (Decidable (_ ∨ _))

instance (h : Host) (msg : Message) : Decidable (Destroyed h msg) :=
  inferInstanceAs (Decidable (∃ item ∈ _, _))

/-- The creation an event enters, if it does. -/
def creation (h : Host) : Event → Option Origin
  | .enter msg => if msg.creates ∧ ¬ Destroyed h msg then some (originOf env h msg) else none
  | _ => none

/-- The creations entered along the events. -/
def origins : Host → List Event → List Origin
  | _, [] => []
  | h, e :: es => (creation env h e).toList ++
    match step env false h e with
    | some h' => origins h' es
    | none => []

/-- The address of a creation that comes to its end. -/
def Event.completes : Event → Option Str
  | .created contractAddress _ => some contractAddress
  | _ => none

/-- The addresses of the contracts created along the events. -/
def createdAddresses (es : List Event) : List Str := es.filterMap Event.completes

end Host

/-! ### What one event does to the counter and the created contracts -/

section Step
variable {env : HostEnv}

/-- `createContract` up to the run keeps both, and the run it starts is for the address it was given. -/
theorem createEnter_frame {h h' : Host} {amount : UInt64} {fromAddr contractAddress : Str}
    {entry : Entry} (hc : createEnter env h amount fromAddr contractAddress = (h', entry)) :
    h'.nonceCache = h.nonceCache ∧ h'.createdContract = h.createdContract ∧
      ∀ a, entry = .create a → a = contractAddress := by
  rw [createEnter] at hc
  rcases htr : h.transfer env amount fromAddr contractAddress with ⟨h₁, ok⟩
  obtain ⟨coins, spend, rfl⟩ := transfer_frame htr
  rw [htr] at hc
  cases ok with
  | false =>
    cases hc
    exact ⟨rfl, rfl, nofun⟩
  | true =>
    by_cases hvm : env.evmInstance = true
    · simp only [hvm, if_true] at hc
      cases hc
      exact ⟨rfl, rfl, fun a ha => (Entry.create.inj ha).symm⟩
    · simp only [hvm, if_false, Bool.false_eq_true] at hc
      cases hc
      exact ⟨rfl, rfl, nofun⟩

/-- Entering a call counts a creation, and only a creation; no contract is created yet. -/
theorem callEnter_creation {h h' : Host} {msg : Message} {entry : Entry}
    (hc : callEnter env h msg = some (h', entry)) :
    h'.nonceCache = h.nonceCache + (creation env h (.enter msg)).toList.length ∧
      h'.createdContract = h.createdContract ∧
      ∀ a, entry = .create a → ∃ o, creation env h (.enter msg) = some o ∧ o.address env = a := by
  have hmap := congrArg Books.createdContract (@recordAccountAccess_toBooks env h msg.recipient)
  rcases callEnter_cases hc with ⟨hgone, rfl, rfl⟩ | ⟨hgone, ⟨hcr, hce⟩ | ⟨hcr, h₁, ok, htr, hrest⟩⟩
  · have hnone : creation env h (.enter msg) = none := if_neg fun hand => hand.2 hgone
    rw [hnone]
    exact ⟨by simp, hmap, nofun⟩
  · have hsome : creation env h (.enter msg) = some (originOf env h msg) := if_pos ⟨hcr, hgone⟩
    obtain ⟨hn, hcc, hentry⟩ := createEnter_frame hce
    rw [hsome]
    refine ⟨?_, hcc.trans hmap, fun a ha => ⟨_, rfl, ?_⟩⟩
    · simp [hn, Host.nextNonce]
    · rw [hentry a ha, payee_eq_address env hcr]
  · have hnone : creation env h (.enter msg) = none := if_neg fun hand => hcr hand.1
    obtain ⟨coins, spend, rfl⟩ := transfer_frame htr
    rw [hnone]
    rcases hrest with ⟨-, rfl, rfl⟩ | ⟨-, hp⟩
    · exact ⟨by simp, hmap, nofun⟩
    · obtain ⟨rfl | ⟨acc, -, rfl⟩, hentry⟩ := callPrepare_cases hp
      · exact ⟨by simp, hmap, fun a ha => absurd ha (hentry a)⟩
      · exact ⟨by simp [Host.attach], hmap, fun a ha => absurd ha (hentry a)⟩

theorem origins_append : ∀ (es : List Event) {es' : List Event} {h h' : Host},
    runEvents env false h es = some h' →
    origins env h (es ++ es') = origins env h es ++ origins env h' es'
  | [], es', h, h', hrun => by
    cases hrun
    rfl
  | e :: es, es', h, h', hrun => by
    rw [runEvents, Option.bind_eq_some_iff] at hrun
    obtain ⟨h₁, hs, hrest⟩ := hrun
    simp only [List.cons_append, origins, hs, origins_append es hrest, List.append_assoc]

theorem createdAddresses_append (es es' : List Event) :
    createdAddresses (es ++ es') = createdAddresses es ++ createdAddresses es' :=
  List.filterMap_append

/-- At every moment of the events, no address has seen more creations end than begin. -/
def CreationsBalanced (env : HostEnv) (h : Host) (es : List Event) : Prop :=
  ∀ pre post h', es = pre ++ post → runEvents env false h pre = some h' → ∀ a,
    (createdAddresses pre).count a ≤ ((origins env h pre).map (Origin.address env)).count a

theorem CreationsBalanced.nil (h : Host) : CreationsBalanced env h [] := by
  intro pre post h' hsplit _ a
  have hpre : pre = [] := (List.append_eq_nil_iff.mp hsplit.symm).1
  simp [hpre, createdAddresses]

/-- An event that ends no creation keeps the balance. -/
theorem CreationsBalanced.cons {h : Host} {e : Event} {es : List Event} (he : e.completes = none)
    (hes : ∀ h₁, step env false h e = some h₁ → CreationsBalanced env h₁ es) : CreationsBalanced env h (e :: es) := by
  intro pre post h' hsplit hrun a
  cases pre with
  | nil => simp [createdAddresses]
  | cons e' pre =>
    obtain ⟨rfl, hrest⟩ := List.cons.inj hsplit
    rw [runEvents, Option.bind_eq_some_iff] at hrun
    obtain ⟨h₁, hs, hrun⟩ := hrun
    have hle := hes h₁ hs pre post h' hrest hrun a
    have hcreated : createdAddresses (e :: pre) = createdAddresses pre :=
      List.filterMap_cons_none he
    simp only [hcreated, origins, hs, List.map_append, List.count_append]
    omega

theorem CreationsBalanced.append {h : Host} {es es' : List Event} (hes : CreationsBalanced env h es)
    (hes' : ∀ h₁, runEvents env false h es = some h₁ → CreationsBalanced env h₁ es') :
    CreationsBalanced env h (es ++ es') := by
  intro pre post h' hsplit hrun a
  rcases List.append_eq_append_iff.mp hsplit with ⟨rest, rfl, hrest⟩ | ⟨rest, hpre, -⟩
  · rw [runEvents_append, Option.bind_eq_some_iff] at hrun
    obtain ⟨h₁, hrun₁, hrun₂⟩ := hrun
    have hfirst := hes es [] h₁ (List.append_nil es).symm hrun₁ a
    have hsecond := hes' h₁ hrun₁ rest post h' hrest hrun₂ a
    rw [createdAddresses_append, origins_append es hrun₁, List.map_append, List.count_append,
      List.count_append]
    omega
  · exact hes pre rest h' hpre hrun a

/-- A creation entered, the run inside it and its end. -/
theorem CreationsBalanced.create {h h₁ : Host} {msg : Message} {o : Origin} {inner : List Event} {output : Str}
    (hcr : creation env h (.enter msg) = some o) (hs : step env false h (.enter msg) = some h₁)
    (hin : CreationsBalanced env h₁ inner) :
    CreationsBalanced env h (.enter msg :: (inner ++ [.created (o.address env) output])) := by
  intro pre post h' hsplit hrun a
  cases pre with
  | nil => simp [createdAddresses]
  | cons e' pre =>
    obtain ⟨rfl, hrest⟩ := List.cons.inj hsplit
    rw [runEvents, hs, Option.bind_some] at hrun
    have hcreated : createdAddresses (.enter msg :: pre) = createdAddresses pre :=
      List.filterMap_cons_none rfl
    have horigins : origins env h (.enter msg :: pre) = o :: origins env h₁ pre := by
      simp only [origins, hcr, hs, Option.toList_some, List.singleton_append]
    rw [hcreated, horigins, List.map_cons, List.count_cons]
    rcases List.append_eq_append_iff.mp hrest with ⟨rest, rfl, hlast⟩ | ⟨rest, hpre, -⟩
    · -- at most the one end of this creation is beyond the inner events
      rw [runEvents_append, Option.bind_eq_some_iff] at hrun
      obtain ⟨h₂, hrun₁, -⟩ := hrun
      have hinner := hin inner [] h₂ (List.append_nil inner).symm hrun₁ a
      have hone : (createdAddresses rest).count a ≤ if o.address env == a then 1 else 0 := by
        rcases List.append_eq_singleton_iff.mp hlast.symm with ⟨rfl, -⟩ | ⟨rfl, -⟩
        · simp [createdAddresses]
        · simp [createdAddresses, Event.completes, List.count_singleton]
      rw [createdAddresses_append, origins_append inner hrun₁, List.map_append, List.count_append,
        List.count_append]
      omega
    · have := hin pre rest h' hpre hrun a
      omega

mutual

/-- The events of an operation are balanced. -/
theorem opEvents_balanced : ∀ (op : HostOp) (h : Host), CreationsBalanced env h (opEvents env op h)
  | .accountAccess addr, h => .cons rfl fun _ _ => .nil _
  | .getStorage addr key, h => .cons rfl fun _ _ => .nil _
  | .setStorage addr key value, h => .cons rfl fun _ _ => .nil _
  | .accessStorage addr key, h => .cons rfl fun _ _ => .nil _
  | .selfdestruct addr beneficiary, h => .cons rfl fun _ _ => .nil _
  | .emitLog log, h => .cons rfl fun _ _ => .nil _
  | .call msg ops result, h => by
    rw [opEvents]
    cases hc : callEnter env h msg with
    | none => exact .cons rfl fun _ _ => .nil _
    | some entered =>
      obtain ⟨h₁, entry⟩ := entered
      have hs : step env false h (.enter msg) = some h₁ := by rw [step_enter, hc]; rfl
      have hrun : ∀ h', step env false h (.enter msg) = some h' →
          CreationsBalanced env h' (opsEvents env ops h₁) := by
        intro h' hs'
        rw [hs] at hs'
        cases hs'
        exact opsEvents_balanced ops h₁
      cases entry with
      | returned r => exact .cons rfl fun _ _ => .nil _
      | execute => exact .cons rfl hrun
      | create contractAddress =>
        obtain ⟨o, hcr, rfl⟩ := (callEnter_creation hc).2.2 contractAddress rfl
        by_cases hok : result.statusCode = .success
        · simp only [hok, if_true]
          exact .create hcr hs (opsEvents_balanced ops h₁)
        · simp only [hok, if_false, List.append_nil]
          exact .cons rfl hrun

/-- The events of a run of operations are balanced. -/
theorem opsEvents_balanced : ∀ (ops : List HostOp) (h : Host), CreationsBalanced env h (opsEvents env ops h)
  | [], h => .nil h
  | op :: ops, h => by
    rw [opsEvents]
    refine (opEvents_balanced op h).append fun h₁ hrun => ?_
    cases hop : runOp env op h with
    | none => exact .nil h₁
    | some h' =>
      rw [runOp_events op h h' hop] at hrun
      rw [← Option.some.inj hrun]
      exact opsEvents_balanced ops h'

end

/-! ### Creations and code -/

variable {recorded : Set Origin} {h₀ h : Host} {es pre post : List Event}

/-- A creation that is about to end has been entered once more than it has ended. -/
theorem CreationsBalanced.created {contractAddress output : Str} (hbal : CreationsBalanced env h₀ es)
    (hsplit : es = pre ++ .created contractAddress output :: post)
    (hrun : runEvents env false h₀ pre = some h) :
    (createdAddresses pre).count contractAddress + 1
      ≤ ((origins env h₀ pre).map (Origin.address env)).count contractAddress := by
  have hrun' : runEvents env false h₀ (pre ++ [.created contractAddress output])
      = some (createLeave h contractAddress output).1 := by
    rw [runEvents_append, hrun, Option.bind_some, runEvents_single]
    rfl
  have hle := hbal (pre ++ [.created contractAddress output]) post _ (by simp [hsplit]) hrun'
    contractAddress
  have horigins : origins env h₀ (pre ++ [.created contractAddress output]) = origins env h₀ pre := by
    rw [origins_append pre hrun]
    simp [origins, creation, step]
  have hends : createdAddresses (pre ++ [.created contractAddress output])
      = createdAddresses pre ++ [contractAddress] := createdAddresses_append pre _
  rw [horigins, hends, List.count_append, List.count_singleton_self] at hle
  exact hle

end Step

/-! ### A factory called by two senders -/

end Tfs.Evm
