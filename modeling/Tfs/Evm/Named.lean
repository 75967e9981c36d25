import Tfs.Evm.Run

/-! The names of the tries of a host, and the host with its accounts in a list.

    A trie carries the name of its contract as text, and its account is found by the bytes of that name.
    The host makes a trie for the recipient of a message under the name of the code's address, so it is
    the calls to the recipient's own code that keep the two together. Then no two accounts have tries of
    one name. -/

namespace Tfs.Evm
open Tfs.Mpt (Node)

/-- Every account has a trie of its own name, or one that was never opened. -/
def Host.Named (h : Host) : Prop :=
  ∀ a, (h.account a).storageRoot.contractAddr = [] ∨ stringToEvmAddr (h.account a).storageRoot.contractAddr = a

/-- A plain call is one of the recipient's own code. -/
def Event.CallsOwn : Event → Prop
  | .enter msg => msg.kind = .call → msg.recipient = msg.codeAddress
  | _ => True

instance : (e : Event) → Decidable e.CallsOwn
  | .enter msg => inferInstanceAs (Decidable (msg.kind = .call → msg.recipient = msg.codeAddress))
  | .accountAccess _ | .getStorage _ _ | .setStorage _ _ _ | .accessStorage _ _ | .selfdestruct _ _
  | .emitLog _ | .created _ _ => inferInstanceAs (Decidable True)

/-- No trie has another name than before. -/
def SameNames (h h' : Host) : Prop :=
  ∀ a, (h'.account a).storageRoot.contractAddr = (h.account a).storageRoot.contractAddr

variable {env : HostEnv} {h h' : Host}

theorem SameNames.trans {h₁ h₂ h₃ : Host} (h12 : SameNames h₁ h₂) (h23 : SameNames h₂ h₃) :
    SameNames h₁ h₃ := fun a => (h23 a).trans (h12 a)

theorem SameNames.named (hsame : SameNames h h') (hnamed : h.Named) : h'.Named := fun a => by
  rw [hsame a]
  exact hnamed a

/-- An account is written back under the name it had. -/
theorem SameNames.of_set {addr : Address} {acc : TfsAccount}
    (hname : acc.storageRoot.contractAddr = (h.account addr).storageRoot.contractAddr) :
    SameNames h (h.setAccount addr acc) := fun a => by
  rw [setAccount_account]
  split_ifs with ha
  · rw [ha, hname]
  · rfl

/-- A trie is put up under the name of its address. -/
theorem Host.Named.set {addr : Address} {acc : TfsAccount} (hnamed : h.Named)
    (hname : stringToEvmAddr acc.storageRoot.contractAddr = addr) : (h.setAccount addr acc).Named := fun a => by
  rw [setAccount_account]
  split_ifs with ha
  · rw [ha]
    exact .inr hname
  · exact hnamed a

theorem recordAccountAccess_sameNames (h : Host) (addr : Address) :
    SameNames h (recordAccountAccess env h addr) := fun a => by
  obtain ⟨code, heq⟩ : ∃ code, (recordAccountAccess env h addr).account a = (h.account a).setCode code :=
    recordAccountAccess_account h addr a
  rw [heq]
  rfl

theorem trieGetOf_name {acc acc' : TfsAccount} {key : Bytes32} {v : Str}
    (hget : trieGetOf env acc key = some (v, acc')) :
    acc'.storageRoot.contractAddr = acc.storageRoot.contractAddr := by
  obtain ⟨r, -, heq⟩ := Option.map_eq_some_iff.mp hget
  cases heq
  rfl

theorem writeTrie_name {acc acc' : TfsAccount} {mptv : Str} {key value : Bytes32}
    (hwrite : writeTrie env acc mptv key value = some acc') :
    acc'.storageRoot.contractAddr = acc.storageRoot.contractAddr := by
  rw [writeTrie] at hwrite
  split_ifs at hwrite
  · cases hwrite
    rfl
  · obtain ⟨r, -, rfl⟩ := Option.map_eq_some_iff.mp hwrite
    rfl

theorem getStorage_sameNames {addr : Address} {key v : Bytes32}
    (hget : getStorage env h addr key = some (v, h')) : SameNames h h' := by
  have hrecord : SameNames h (recordAccountAccess env h addr) := recordAccountAccess_sameNames h addr
  simp only [getStorage] at hget
  split at hget
  · cases hget
    exact hrecord
  · rename_i acc hacc
    obtain ⟨⟨w, acc'⟩, hr, heq⟩ := Option.map_eq_some_iff.mp hget
    cases heq
    refine hrecord.trans (.of_set ?_)
    rw [trieGetOf_name hr, Host.account, hacc]
    rfl

theorem setStorage_sameNames {addr : Address} {key value : Bytes32} {st : StorageStatus}
    (hset : setStorage env h addr key value = some (st, h')) : SameNames h h' := by
  simp only [setStorage, Option.bind_eq_bind, Option.bind_eq_some_iff] at hset
  obtain ⟨⟨w, acc⟩, hget, acc', hwrite, heq⟩ := hset
  cases heq
  exact (recordAccountAccess_sameNames h addr).trans
    (.of_set ((writeTrie_name hwrite).trans (trieGetOf_name hget)))

/-- Loading a trie names it after the code's address. -/
theorem Loads.name {msg : Message} {acc : TfsAccount} (hload : Loads env h msg acc) :
    acc.storageRoot.contractAddr = env.addrString msg.codeAddress := by
  obtain ⟨-, -, -, rootHash, -, hcreate⟩ := hload
  rw [TfsAccount.createTrie] at hcreate
  split_ifs at hcreate
  · cases hcreate
    rfl
  · obtain ⟨root, -, rfl⟩ := Option.map_eq_some_iff.mp hcreate
    rfl

theorem transfer_sameNames {amount : UInt64} {fromAddr toAddr : Str} {ok : Bool}
    (ht : h.transfer env amount fromAddr toAddr = (h', ok)) : SameNames h h' := by
  obtain ⟨coins, spend, rfl⟩ := transfer_frame ht
  exact fun _ => rfl

theorem createEnter_named {amount : UInt64} {fromAddr contractAddress : Str} {entry : Entry}
    (hnamed : h.Named) (hc : createEnter env h amount fromAddr contractAddress = (h', entry)) :
    h'.Named := by
  simp only [createEnter] at hc
  split at hc
  · rename_i h₁ ht
    cases hc
    exact (transfer_sameNames ht).named hnamed
  · rename_i h₁ ht
    have hset : (h₁.setAccount (stringToEvmAddr contractAddress)
        { h₁.account (stringToEvmAddr contractAddress) with
          storageRoot := ⟨env.addrString (stringToEvmAddr contractAddress), .null⟩ }).Named :=
      ((transfer_sameNames ht).named hnamed).set (stringToEvmAddr_evmAddrToString _ _)
    split at hc <;> cases hc <;> exact hset

theorem callEnter_named {msg : Message} {entry : Entry} (hnamed : h.Named)
    (hown : (Event.enter msg).CallsOwn) (hc : callEnter env h msg = some (h', entry)) : h'.Named := by
  have hrecord : SameNames h (recordAccountAccess env h msg.recipient) :=
    recordAccountAccess_sameNames h msg.recipient
  rcases callEnter_cases hc with ⟨-, rfl, -⟩ | ⟨-, ⟨-, hcreate⟩ | ⟨-, h₁, ok, ht, hrest⟩⟩
  · exact hrecord.named hnamed
  · have hnonce : SameNames h (recordAccountAccess env h msg.recipient).nextNonce :=
      hrecord.trans fun _ => rfl
    exact createEnter_named (hnonce.named hnamed) hcreate
  · have h₁named : h₁.Named := (hrecord.trans (transfer_sameNames ht)).named hnamed
    rcases hrest with ⟨-, rfl, -⟩ | ⟨-, hprepare⟩
    · exact h₁named
    · rcases (callPrepare_cases hprepare).1 with rfl | ⟨acc, hload, rfl⟩
      · exact h₁named
      · have hset : (h₁.setAccount msg.recipient acc).Named := by
          refine h₁named.set ?_
          rw [hload.name, hown hload.1]
          exact stringToEvmAddr_evmAddrToString _ _
        exact hset

/-- A step keeps the names and the addresses together. -/
theorem step_named {strict : Bool} {e : Event} (hnamed : h.Named) (hown : e.CallsOwn)
    (hs : step env strict h e = some h') : h'.Named := by
  cases e with
  | accountAccess addr =>
    cases hs
    exact (recordAccountAccess_sameNames h addr).named hnamed
  | getStorage addr key =>
    obtain ⟨⟨v, h₁⟩, hget, rfl⟩ := Option.map_eq_some_iff.mp hs
    exact (getStorage_sameNames hget).named hnamed
  | setStorage addr key value =>
    obtain ⟨⟨st, h₁⟩, hset, rfl⟩ := Option.map_eq_some_iff.mp hs
    exact (setStorage_sameNames hset).named hnamed
  | accessStorage addr key =>
    cases hs
    exact SameNames.named (.of_set rfl) hnamed
  | selfdestruct addr beneficiary =>
    cases hs
    have hrecord : ∀ h, SameNames h (recordAccountAccess env h addr) :=
      fun h => recordAccountAccess_sameNames h addr
    have hfirst : SameNames h { recordAccountAccess env h addr with
        recordedSelfdestructs :=
          (recordAccountAccess env h addr).recordedSelfdestructs ++ [⟨addr, beneficiary⟩] } := hrecord h
    have hsame : SameNames h (selfdestruct env h addr beneficiary) := hfirst.trans (hrecord _)
    exact hsame.named hnamed
  | emitLog log =>
    cases hs
    exact hnamed
  | enter msg =>
    obtain ⟨⟨h₁, entry⟩, henter, hs⟩ := Option.bind_eq_some_iff.mp hs
    split at hs
    · cases hs
    · cases hs
      exact callEnter_named hnamed hown henter
  | created contractAddress output =>
    cases hs
    rw [createLeave_eq]
    exact SameNames.named (.of_set rfl) hnamed

/-- And so does a run. -/
theorem run_named {strict : Bool} : ∀ {es : List Event} {h h' : Host}, h.Named → (∀ e ∈ es, e.CallsOwn) →
    runEvents env strict h es = some h' → h'.Named
  | [], h, h', hnamed, _, hrun => by
    cases hrun
    exact hnamed
  | e :: es, h, h', hnamed, hown, hrun => by
    obtain ⟨h₁, hs, hrun⟩ := Option.bind_eq_some_iff.mp hrun
    exact run_named (step_named hnamed (hown e List.mem_cons_self) hs)
      (fun e' he' => hown e' (List.mem_cons_of_mem _ he')) hrun

theorem makeHost_named {contractType : ContractType} {sender recipient : Str} {transferAmount : UInt64}
    {code : Str} (hm : makeHost env contractType sender recipient transferAmount code = .ok h) : h.Named := by
  obtain ⟨acc, rootHash, -, -, ⟨c, hcreate⟩, hacc⟩ := makeHost_ok hm
  intro a
  rw [hacc]
  split_ifs with ha
  · refine .inr ?_
    rw [ha]
    rw [TfsAccount.createTrie] at hcreate
    split_ifs at hcreate
    · cases hcreate
      rfl
    · obtain ⟨root, -, rfl⟩ := Option.map_eq_some_iff.mp hcreate
      rfl
  · exact .inl rfl

/-! ### The accounts in a list -/

/-- A host with the order in which a loop goes through its accounts. -/
structure ListedHost where
  host : Host
  order : List Address
  nodup : order.Nodup
  complete : ∀ a, a ∈ order ↔ (host.accounts a).isSome = true

/-- What the loop goes through. -/
def ListedHost.accounts (l : ListedHost) : List (Address × TfsAccount) :=
  l.order.map fun a => (a, l.host.account a)

/-- Accounts whose tries have one name are one account. -/
theorem ListedHost.names_nodup {l : ListedHost} (hnamed : l.host.Named) :
    ((l.accounts.filter fun e => e.2.storageRoot.contractAddr ≠ []).map
      fun e => e.2.storageRoot.contractAddr).Nodup := by
  have hkeys : (l.accounts.filter fun e => e.2.storageRoot.contractAddr ≠ []).Nodup :=
    (l.nodup.map (Function.LeftInverse.injective (g := Prod.fst) fun _ => rfl)).filter _
  refine List.Nodup.map_on (fun e he e' he' hname => ?_) hkeys
  obtain ⟨he, hne⟩ := List.mem_filter.mp he
  obtain ⟨he', hne'⟩ := List.mem_filter.mp he'
  obtain ⟨a, -, rfl⟩ := List.mem_map.mp he
  obtain ⟨b, -, rfl⟩ := List.mem_map.mp he'
  have ha := (hnamed a).resolve_left (by simpa using hne)
  have hb := (hnamed b).resolve_left (by simpa using hne')
  have hab : a = b := by rw [← ha, ← hb]; exact congrArg stringToEvmAddr hname
  rw [hab]

/-! ### Runs at one account -/

/-- No account is lost, and only this one can be new. -/
def Adds (addr : Address) (h h' : Host) : Prop := ∀ a,
  ((h.accounts a).isSome = true → (h'.accounts a).isSome = true) ∧
    ((h'.accounts a).isSome = true → (h.accounts a).isSome = true ∨ a = addr)

theorem Adds.of_accounts {addr : Address} (haccounts : h'.accounts = h.accounts) : Adds addr h h' := fun a => by
  rw [haccounts]
  exact ⟨id, .inl⟩

theorem Adds.trans {addr : Address} {h₁ h₂ h₃ : Host} (h12 : Adds addr h₁ h₂) (h23 : Adds addr h₂ h₃) :
    Adds addr h₁ h₃ := fun a =>
  ⟨fun ha => (h23 a).1 ((h12 a).1 ha), fun ha => ((h23 a).2 ha).elim (h12 a).2 .inr⟩

theorem Adds.setAccount (addr : Address) (h : Host) (acc : TfsAccount) :
    Adds addr h (h.setAccount addr acc) := fun a => by
  by_cases ha : a = addr
  · simp [Host.setAccount, ha]
  · simp [Host.setAccount, StdMap.set_ne _ _ ha, ha]

theorem Adds.recordAccountAccess (addr : Address) (h : Host) :
    Adds addr h (recordAccountAccess env h addr) := by
  rcases recordAccountAccess_cases env h addr with heq | ⟨code, heq⟩
  · rw [heq]
    exact .of_accounts rfl
  · rw [heq]
    exact .trans (.of_accounts rfl) (.setAccount addr _ _)

/-- The event is one of the account, and no creation. -/
def Event.OnlyAt (addr : Address) : Event → Prop
  | .accountAccess a | .getStorage a _ | .setStorage a _ _ | .accessStorage a _ | .selfdestruct a _ => a = addr
  | .emitLog _ => True
  | .enter msg => ¬ msg.creates ∧ msg.recipient = addr
  | .created _ _ => False

instance (addr : Address) : (e : Event) → Decidable (e.OnlyAt addr)
  | .accountAccess a | .getStorage a _ | .setStorage a _ _ | .accessStorage a _ | .selfdestruct a _ =>
    inferInstanceAs (Decidable (a = addr))
  | .emitLog _ => inferInstanceAs (Decidable True)
  | .enter msg =>
    inferInstanceAs (Decidable (¬ (msg.kind = .create ∨ msg.kind = .create2) ∧ msg.recipient = addr))
  | .created _ _ => inferInstanceAs (Decidable False)

theorem step_adds {strict : Bool} {addr : Address} {e : Event} (he : e.OnlyAt addr)
    (hs : step env strict h e = some h') : Adds addr h h' := by
  cases e with
  | accountAccess a =>
    cases he
    cases hs
    exact .recordAccountAccess addr h
  | getStorage a key =>
    cases he
    obtain ⟨⟨v, h₁⟩, hget, rfl⟩ := Option.map_eq_some_iff.mp hs
    simp only [getStorage] at hget
    split at hget
    · cases hget
      exact .recordAccountAccess addr h
    · obtain ⟨r, -, heq⟩ := Option.map_eq_some_iff.mp hget
      cases heq
      exact .trans (.recordAccountAccess addr h) (.setAccount addr _ _)
  | setStorage a key value =>
    cases he
    obtain ⟨⟨st, h₁⟩, hset, rfl⟩ := Option.map_eq_some_iff.mp hs
    simp only [setStorage, Option.bind_eq_bind, Option.bind_eq_some_iff] at hset
    obtain ⟨r, -, acc, -, heq⟩ := hset
    cases heq
    exact .trans (.recordAccountAccess addr h) (.setAccount addr _ _)
  | accessStorage a key =>
    cases he
    cases hs
    exact .setAccount addr h _
  | selfdestruct a beneficiary =>
    cases he
    cases hs
    have hfirst : Adds addr h { recordAccountAccess env h addr with
        recordedSelfdestructs :=
          (recordAccountAccess env h addr).recordedSelfdestructs ++ [⟨addr, beneficiary⟩] } :=
      Adds.recordAccountAccess addr h
    exact hfirst.trans (Adds.recordAccountAccess addr _)
  | emitLog log =>
    cases hs
    exact .of_accounts rfl
  | enter msg =>
    obtain ⟨hnot, rfl⟩ := he
    obtain ⟨⟨h₁, entry⟩, henter, hs⟩ := Option.bind_eq_some_iff.mp hs
    split at hs
    · cases hs
    cases hs
    have hrecord : Adds msg.recipient h (recordAccountAccess env h msg.recipient) :=
      .recordAccountAccess msg.recipient h
    rcases callEnter_cases henter with ⟨-, rfl, -⟩ | ⟨-, ⟨hcreates, -⟩ | ⟨-, h₂, ok, ht, hrest⟩⟩
    · exact hrecord
    · exact absurd hcreates hnot
    · obtain ⟨coins, spend, rfl⟩ := transfer_frame ht
      rcases hrest with ⟨-, rfl, -⟩ | ⟨-, hprepare⟩
      · exact hrecord.trans (.of_accounts rfl)
      · rcases (callPrepare_cases hprepare).1 with rfl | ⟨acc, -, rfl⟩
        · exact hrecord.trans (.of_accounts rfl)
        · exact hrecord.trans (.trans (.of_accounts rfl) (.trans (.setAccount msg.recipient _ acc)
            (.of_accounts rfl)))
  | created contractAddress output => exact he.elim

theorem run_adds {strict : Bool} {addr : Address} : ∀ {es : List Event} {h h' : Host},
    (∀ e ∈ es, e.OnlyAt addr) → runEvents env strict h es = some h' → Adds addr h h'
  | [], h, h', _, hrun => by
    cases hrun
    exact .of_accounts rfl
  | e :: es, h, h', he, hrun => by
    obtain ⟨h₁, hs, hrun⟩ := Option.bind_eq_some_iff.mp hrun
    exact (step_adds (he e List.mem_cons_self) hs).trans
      (run_adds (fun e' he' => he e' (List.mem_cons_of_mem _ he')) hrun)

/-- The list after such a run. -/
def ListedHost.add (l : ListedHost) (addr : Address) (h' : Host) (hadds : Adds addr l.host h') : ListedHost :=
  if hnew : addr ∉ l.order ∧ (h'.accounts addr).isSome = true then
    { host := h'
      order := l.order ++ [addr]
      nodup := by
        rw [← List.concat_eq_append]
        exact l.nodup.concat hnew.1
      complete := fun a => by
        rw [List.mem_append, List.mem_singleton, l.complete]
        constructor
        · rintro (ha | rfl)
          · exact (hadds a).1 ha
          · exact hnew.2
        · exact (hadds a).2 }
  else
    { host := h'
      order := l.order
      nodup := l.nodup
      complete := fun a => by
        refine ⟨fun ha => (hadds a).1 ((l.complete a).mp ha), fun ha => ?_⟩
        rcases (hadds a).2 ha with ha' | rfl
        · exact (l.complete a).mpr ha'
        · exact not_not.mp fun hmem => hnew ⟨hmem, ha⟩ }

theorem ListedHost.add_host (l : ListedHost) (addr : Address) (h' : Host) (hadds : Adds addr l.host h') :
    (l.add addr h' hadds).host = h' := by
  rw [ListedHost.add]
  split <;> rfl

end Tfs.Evm
