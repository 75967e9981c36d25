import Tfs.Mpt.Expands
import Tfs.Evm.Storage

/-! What a failed call leaves behind.

    The host has no undo: a call that fails keeps whatever happened before the failure was known. The
    ledgers and records only ever advance, so a failed call leaves them as they were exactly when none
    of its events touched them. Storage tries and created contracts stay as they were when none of its
    events changes them; a run that changes one of them finds it changed unless it writes it back
    itself. -/

namespace Tfs.Evm
open Tfs.Mpt (Answers Expands wapperKey trieGet_answers trieGet_expands)

variable {env : HostEnv} {h h' : Host}

/-! ### The six components -/

/-- The coin ledgers and the records are the same. -/
structure SameLedgers (h h' : Host) : Prop where
  coins : h'.coinTransferrings = h.coinTransferrings
  spend : h'.dbSpendMap = h.dbSpendMap
  logs : h'.recordedLogs = h.recordedLogs
  selfdestructs : h'.recordedSelfdestructs = h.recordedSelfdestructs

/-- What a trie answers for a slot. -/
def TrieAnswers (env : HostEnv) (trie : StorageRoot) (key : Bytes32) (mptv : Str) : Prop :=
  Answers (env.trieEnv trie.contractAddr) trie.root (wapperKey (Rlp.toHex key.1)) mptv

/-- Two tries have the same contents. -/
def SameTrie (env : HostEnv) (trie trie' : StorageRoot) : Prop :=
  ∀ key mptv, TrieAnswers env trie' key mptv ↔ TrieAnswers env trie key mptv

/-- The created contracts and the contents of every trie are the same. -/
structure SameStores (env : HostEnv) (h h' : Host) : Prop where
  created : h'.createdContract = h.createdContract
  tries : ∀ a, SameTrie env (h.account a).storageRoot (h'.account a).storageRoot

/-- All six components are the same. -/
def Unchanged (env : HostEnv) (h h' : Host) : Prop := SameLedgers h h' ∧ SameStores env h h'

theorem SameLedgers.refl (h : Host) : SameLedgers h h := ⟨rfl, rfl, rfl, rfl⟩

theorem SameLedgers.trans {h₁ h₂ h₃ : Host} (h12 : SameLedgers h₁ h₂) (h23 : SameLedgers h₂ h₃) :
    SameLedgers h₁ h₃ :=
  ⟨h23.coins.trans h12.coins, h23.spend.trans h12.spend, h23.logs.trans h12.logs,
    h23.selfdestructs.trans h12.selfdestructs⟩

theorem SameLedgers.symm (hs : SameLedgers h h') : SameLedgers h' h :=
  ⟨hs.coins.symm, hs.spend.symm, hs.logs.symm, hs.selfdestructs.symm⟩

theorem SameLedgers.of_books (hb : h'.toBooks = h.toBooks) : SameLedgers h h' :=
  ⟨congrArg Books.coinTransferrings hb, congrArg Books.dbSpendMap hb,
    congrArg Books.recordedLogs hb, congrArg Books.recordedSelfdestructs hb⟩

theorem SameStores.refl (h : Host) : SameStores env h h := ⟨rfl, fun _ _ _ => Iff.rfl⟩

theorem SameStores.trans {h₁ h₂ h₃ : Host} (h12 : SameStores env h₁ h₂)
    (h23 : SameStores env h₂ h₃) : SameStores env h₁ h₃ :=
  ⟨h23.created.trans h12.created,
    fun a key mptv => (h23.tries a key mptv).trans (h12.tries a key mptv)⟩

theorem SameStores.symm (hs : SameStores env h h') : SameStores env h' h :=
  ⟨hs.created.symm, fun a key mptv => (hs.tries a key mptv).symm⟩

/-- The very same tries. -/
theorem SameStores.of_roots (hcreated : h'.createdContract = h.createdContract)
    (hroots : ∀ a, (h'.account a).storageRoot = (h.account a).storageRoot) : SameStores env h h' :=
  ⟨hcreated, fun a key mptv => by rw [hroots a]⟩

/-- One account is replaced by one whose trie has the same contents. -/
theorem SameStores.of_setAccount {addr : Address} {acc : TfsAccount}
    (htrie : SameTrie env (h.account addr).storageRoot acc.storageRoot) :
    SameStores env h (h.setAccount addr acc) := by
  refine ⟨rfl, fun a => ?_⟩
  rw [setAccount_account]
  split_ifs with ha
  · rw [ha]
    exact htrie
  · exact fun _ _ => Iff.rfl

theorem SameStores.attach {addr : Address} {acc : TfsAccount}
    (htrie : SameTrie env (h.account addr).storageRoot acc.storageRoot) (contractAddress : Str) :
    SameStores env h (h.attach addr acc contractAddress) :=
  ⟨rfl, (SameStores.of_setAccount htrie).tries⟩

/-! ### Ledgers only advance -/

/-- Total of all amounts. -/
def totalAmount (coins : List TransferInfo) : ℕ := (coins.map fun e => e.amount.toNat).sum

/-- Number of entries of the ledger and the records. -/
def recordCount (h : Host) : ℕ :=
  h.coinTransferrings.length + h.recordedLogs.length + h.recordedSelfdestructs.length

/-- The ledgers have advanced for good: there are more entries, or as many with less in them. -/
def Advances (h h' : Host) : Prop :=
  recordCount h < recordCount h' ∨
    (recordCount h = recordCount h' ∧
      totalAmount h'.coinTransferrings < totalAmount h.coinTransferrings)

theorem SameLedgers.count (hs : SameLedgers h h') : recordCount h' = recordCount h ∧
    totalAmount h'.coinTransferrings = totalAmount h.coinTransferrings := by
  simp only [recordCount, hs.coins, hs.logs, hs.selfdestructs, and_self]

theorem SameLedgers.not_advances (hs : SameLedgers h h') : ¬ Advances h h' := by
  obtain ⟨hc, ht⟩ := hs.count
  rintro (hlt | ⟨-, hlt⟩) <;> omega

theorem Advances.trans_same {h₁ h₂ h₃ : Host} (ha : Advances h₁ h₂) (hs : SameLedgers h₂ h₃) :
    Advances h₁ h₃ := by
  obtain ⟨hc, ht⟩ := hs.count
  rcases ha with hlt | ⟨heq, hlt⟩
  · exact .inl (by omega)
  · exact .inr ⟨by omega, by omega⟩

theorem SameLedgers.trans_advances {h₁ h₂ h₃ : Host} (hs : SameLedgers h₁ h₂) (ha : Advances h₂ h₃) :
    Advances h₁ h₃ := by
  obtain ⟨hc, ht⟩ := hs.count
  rcases ha with hlt | ⟨heq, hlt⟩
  · exact .inl (by omega)
  · exact .inr ⟨by omega, by omega⟩

theorem Advances.trans {h₁ h₂ h₃ : Host} (h12 : Advances h₁ h₂) (h23 : Advances h₂ h₃) :
    Advances h₁ h₃ := by
  rcases h12 with hlt | ⟨heq, hlt⟩ <;> rcases h23 with hlt' | ⟨heq', hlt'⟩
  · exact .inl (by omega)
  · exact .inl (by omega)
  · exact .inl (by omega)
  · exact .inr ⟨by omega, by omega⟩

/-- The netting loop keeps the number of entries and never raises their total; where it fails, it has
    used up an entry. -/
theorem nettingLoop_total {balance : Str → UInt64} {fromAddr toAddr : Str} :
    ∀ {coins : List TransferInfo} {st : NettingState} {coins' st' ok},
      nettingLoop balance fromAddr toAddr coins st = (coins', st', ok) →
      coins'.length = coins.length ∧ totalAmount coins' ≤ totalAmount coins ∧
        (ok = false → totalAmount coins' < totalAmount coins)
  | [], st, coins', st', ok, hl => by
    simp only [nettingLoop, Prod.mk.injEq] at hl
    obtain ⟨rfl, rfl, rfl⟩ := hl
    simp
  | iter :: rest, st, coins', st', ok, hl => by
    have hpos : iter.amount ≠ 0 → 0 < iter.amount.toNat := by
      intro hne
      exact Nat.pos_of_ne_zero fun h0 => hne (UInt64.toNat_inj.mp h0)
    rcases nettingLoop_cons hl with ⟨-, r, rfl, hr⟩ | ⟨-, -, hle, rfl, rfl, rfl⟩ |
      ⟨hne, -, -, ⟨-, rfl, rfl, rfl⟩ | ⟨-, r, rfl, hr⟩⟩
    · obtain ⟨h1, h2, h3⟩ := nettingLoop_total hr
      simp only [totalAmount, List.length_cons, List.map_cons, List.sum_cons] at h2 h3 ⊢
      exact ⟨by omega, by omega, fun hok => by have := h3 hok; omega⟩
    · have := UInt64.le_iff_toNat_le.mp (UInt64.sub_le hle)
      simp only [totalAmount, List.length_cons, List.map_cons, List.sum_cons]
      exact ⟨trivial, by omega, by simp⟩
    · have := hpos hne
      simp only [totalAmount, List.length_cons, List.map_cons, List.sum_cons, UInt64.toNat_zero]
      exact ⟨trivial, by omega, fun _ => by omega⟩
    · obtain ⟨h1, h2, h3⟩ := nettingLoop_total hr
      simp only [totalAmount, List.length_cons, List.map_cons, List.sum_cons, UInt64.toNat_zero]
        at h2 h3 ⊢
      exact ⟨by omega, by omega, fun hok => by have := h3 hok; omega⟩

/-- A transfer without value does nothing; any other one advances the ledger, whether it succeeds or
    not. -/
theorem transfer_advances {h₁ : Host} {amount : UInt64} {fromAddr toAddr : Str} {ok : Bool}
    (ht : h.transfer env amount fromAddr toAddr = (h₁, ok)) :
    (amount = 0 ∧ ok = true ∧ h₁ = h) ∨ (amount ≠ 0 ∧ Advances h h₁) := by
  by_cases hzero : amount = 0
  · have hgt : ¬ amount > 0 := by simp [hzero]
    simp only [Host.transfer, getContractTransfer, if_neg hgt, List.append_nil] at ht
    obtain ⟨rfl, rfl⟩ := Prod.mk.inj ht
    exact .inl ⟨hzero, rfl, rfl⟩
  · refine .inr ⟨hzero, ?_⟩
    have hgt : amount > 0 := UInt64.pos_iff_ne_zero.mpr hzero
    simp only [Host.transfer, getContractTransfer, if_pos hgt] at ht
    rcases hl : nettingLoop env.balanceByUtxo fromAddr toAddr h.coinTransferrings
      ⟨amount, h.dbSpendMap, []⟩ with ⟨coins', st, done⟩
    rw [hl] at ht
    obtain ⟨hlen, -, hfail⟩ := nettingLoop_total hl
    cases done with
    | true =>
      simp only [ne_eq, not_true_eq_false, if_false] at ht
      obtain ⟨rfl, -⟩ := Prod.mk.inj ht
      refine .inl ?_
      simp only [recordCount, List.length_append, List.length_singleton]
      omega
    | false =>
      simp only [ne_eq, show ¬ (-1 : ℤ) = 0 by decide, not_false_eq_true, if_true] at ht
      obtain ⟨rfl, -⟩ := Prod.mk.inj ht
      refine .inr ⟨?_, hfail rfl⟩
      simp only [recordCount]
      omega

/-- The entry of a creation, like its transfer. -/
theorem createEnter_advances {amount : UInt64} {fromAddr contractAddress : Str} {entry : Entry}
    (hc : createEnter env h amount fromAddr contractAddress = (h', entry)) :
    (amount = 0 ∧ SameLedgers h h') ∨ (amount ≠ 0 ∧ Advances h h') := by
  unfold createEnter at hc
  rcases htr : h.transfer env amount fromAddr contractAddress with ⟨h₁, ok⟩
  rw [htr] at hc
  have hsame : SameLedgers h₁ h' := by
    cases ok with
    | false =>
      obtain ⟨rfl, -⟩ := Prod.mk.inj hc
      exact .refl _
    | true =>
      simp only at hc
      split_ifs at hc <;> obtain ⟨rfl, -⟩ := Prod.mk.inj hc <;> exact .of_books rfl
  rcases transfer_advances htr with ⟨h0, -, rfl⟩ | ⟨h0, hadv⟩
  · exact .inl ⟨h0, hsame⟩
  · exact .inr ⟨h0, hadv.trans_same hsame⟩

/-- The entry of a call leaves the ledgers alone when its target is gone or it carries no value, and
    advances them for good otherwise. -/
theorem callEnter_advances {msg : Message} {entry : Entry}
    (hc : callEnter env h msg = some (h', entry)) :
    ((Destroyed h msg ∨ msg.amount = 0) ∧ SameLedgers h h') ∨
      (¬ (Destroyed h msg ∨ msg.amount = 0) ∧ Advances h h') := by
  have hrec : SameLedgers h (recordAccountAccess env h msg.recipient) :=
    .of_books (recordAccountAccess_toBooks h msg.recipient)
  rcases callEnter_cases hc with ⟨hd, rfl, -⟩ | ⟨hd, ⟨-, hcreate⟩ | ⟨-, h₁, ok, htr, hrest⟩⟩
  · exact .inl ⟨.inl hd, hrec⟩
  · have hnonce : SameLedgers h (recordAccountAccess env h msg.recipient).nextNonce :=
      hrec.trans ⟨rfl, rfl, rfl, rfl⟩
    rcases createEnter_advances hcreate with ⟨h0, hsame⟩ | ⟨h0, hadv⟩
    · exact .inl ⟨.inr h0, hnonce.trans hsame⟩
    · exact .inr ⟨by simp [hd, h0], hnonce.trans_advances hadv⟩
  · have hsame : SameLedgers h₁ h' := by
      rcases hrest with ⟨-, rfl, -⟩ | ⟨-, hprep⟩
      · exact .refl _
      · rcases (callPrepare_cases hprep).1 with rfl | ⟨acc, -, rfl⟩
        · exact .refl _
        · exact ⟨rfl, rfl, rfl, rfl⟩
    rcases transfer_advances htr with ⟨h0, -, rfl⟩ | ⟨h0, hadv⟩
    · exact .inl ⟨.inr h0, hrec.trans hsame⟩
    · exact .inr ⟨by simp [hd, h0], hrec.trans_advances (hadv.trans_same hsame)⟩

/-- An event that leaves the ledgers and records alone: it writes no log, destroys nothing, and calls
    without value or calls a contract that is gone. -/
def Event.Quiet (h : Host) : Event → Prop
  | .emitLog _ => False
  | .selfdestruct _ _ => False
  | .enter msg => Destroyed h msg ∨ msg.amount = 0
  | _ => True

theorem redirect_length (fromAddr toAddr : Str) : ∀ (coins : List TransferInfo) (amount : UInt64),
    (redirect fromAddr toAddr coins amount).1.length = coins.length
  | [], _ => rfl
  | iter :: rest, amount => by
    rw [redirect]
    split_ifs <;> simp only [List.length_cons, redirect_length fromAddr toAddr rest]

/-- One event is quiet and leaves the ledgers alone, or is not and advances them. -/
theorem step_advances {e : Event} (hs : step env false h e = some h') :
    (e.Quiet h ∧ SameLedgers h h') ∨ (¬ e.Quiet h ∧ Advances h h') := by
  cases e with
  | accountAccess addr =>
    cases hs
    exact .inl ⟨trivial, .of_books (by simp)⟩
  | getStorage addr key =>
    obtain ⟨⟨v, h₁⟩, hget, rfl⟩ := Option.map_eq_some_iff.mp hs
    exact .inl ⟨trivial, .of_books (getStorage_toBooks hget)⟩
  | setStorage addr key value =>
    obtain ⟨⟨st, h₁⟩, hset, rfl⟩ := Option.map_eq_some_iff.mp hs
    exact .inl ⟨trivial, .of_books (setStorage_toBooks hset)⟩
  | accessStorage addr key =>
    cases hs
    exact .inl ⟨trivial, .of_books (by simp)⟩
  | selfdestruct addr beneficiary =>
    cases hs
    refine .inr ⟨id, .inl ?_⟩
    have hbooks := @selfdestruct_toBooks env h addr beneficiary
    have hcoins := congrArg (List.length ∘ Books.coinTransferrings) hbooks
    have hlogs := congrArg (List.length ∘ Books.recordedLogs) hbooks
    have hsds := congrArg (List.length ∘ Books.recordedSelfdestructs) hbooks
    simp only [Function.comp, List.length_append, List.length_singleton, redirect_length]
      at hcoins hlogs hsds
    simp only [recordCount]
    omega
  | emitLog log =>
    cases hs
    refine .inr ⟨id, .inl ?_⟩
    simp only [recordCount, emitLog, List.length_append, List.length_singleton]
    omega
  | enter msg =>
    rw [step_enter] at hs
    obtain ⟨⟨h₁, entry⟩, hc, rfl⟩ := Option.map_eq_some_iff.mp hs
    exact callEnter_advances hc
  | created contractAddress output =>
    cases hs
    rw [createLeave_eq]
    exact .inl ⟨trivial, ⟨rfl, rfl, rfl, rfl⟩⟩

/-- The records decide what is quiet. -/
theorem SameLedgers.quiet_iff (hs : SameLedgers h h') (e : Event) : e.Quiet h' ↔ e.Quiet h := by
  cases e <;> simp only [Event.Quiet, Destroyed, hs.selfdestructs]

/-- A run is quiet throughout and leaves the ledgers alone, or advances them. -/
theorem run_advances : ∀ (es : List Event) {h h' : Host}, runEvents env false h es = some h' →
    ((∀ e ∈ es, e.Quiet h) ∧ SameLedgers h h') ∨ (¬ (∀ e ∈ es, e.Quiet h) ∧ Advances h h')
  | [], h, h', hrun => by
    cases hrun
    exact .inl ⟨by simp, .refl h⟩
  | e :: es, h, h', hrun => by
    rw [runEvents, Option.bind_eq_some_iff] at hrun
    obtain ⟨h₁, hs, hrest⟩ := hrun
    rw [List.forall_mem_cons]
    rcases step_advances hs with ⟨hq, hsame⟩ | ⟨hq, hadv⟩
    · -- what is quiet after the first event was quiet before it
      have hquiet := hsame.quiet_iff
      rcases run_advances es hrest with ⟨hall, hsame'⟩ | ⟨hall, hadv⟩
      · exact .inl ⟨⟨hq, fun e he => (hquiet e).mp (hall e he)⟩, hsame.trans hsame'⟩
      · refine .inr ⟨fun hc => hall fun e he => (hquiet e).mpr (hc.2 e he), hsame.trans_advances hadv⟩
    · refine .inr ⟨fun hc => hq hc.1, ?_⟩
      rcases run_advances es hrest with ⟨-, hsame⟩ | ⟨-, hadv'⟩
      · exact hadv.trans_same hsame
      · exact hadv.trans hadv'

/-! ### Events that change no store -/

/-- A trie without contents. -/
def EmptyTrie (env : HostEnv) (trie : StorageRoot) : Prop :=
  ∀ key mptv, TrieAnswers env trie key mptv ↔ mptv = []

/-- An event that changes no created contract and no contents of a trie: what it writes to a slot is
    what the trie answers, the address at which a creation begins has an empty trie, a trie that is
    opened from the database has the contents of the one in its place, and the code of a creation that
    ends is the code recorded. -/
def Event.Keeps (env : HostEnv) (h : Host) : Event → Prop
  | .setStorage addr key value => ∀ mptv, TrieAnswers env (h.account addr).storageRoot key mptv →
      mptv ≠ [] ∧ wordOf mptv = value
  | .enter msg => (¬ Destroyed h msg → msg.creates →
        EmptyTrie env (h.account (stringToEvmAddr (payee env h msg))).storageRoot) ∧
      ∀ acc, Opens env h msg acc → SameTrie env (h.account msg.recipient).storageRoot acc.storageRoot
  | .created contractAddress output =>
      h.createdContract contractAddress = some (Rlp.toHex output)
  | _ => True

/-- No event of a run changes a store. -/
def KeepsAlong (env : HostEnv) : Host → List Event → Prop
  | _, [] => True
  | h, e :: es => e.Keeps env h ∧ ∀ h', step env false h e = some h' → KeepsAlong env h' es

theorem recordAccountAccess_root (h : Host) (addr a : Address) :
    ((recordAccountAccess env h addr).account a).storageRoot = (h.account a).storageRoot := by
  obtain ⟨code, hcode⟩ := @recordAccountAccess_account env h addr a
  rw [hcode]
  rfl

theorem recordAccountAccess_sameStores (h : Host) (addr : Address) :
    SameStores env h (recordAccountAccess env h addr) :=
  .of_roots (congrArg Books.createdContract (recordAccountAccess_toBooks h addr))
    (recordAccountAccess_root h addr)

/-- Reading a slot only loads nodes. -/
theorem trieGetOf_sameTrie {acc acc' : TfsAccount} {key : Bytes32} {mptv : Str}
    (hget : trieGetOf env acc key = some (mptv, acc')) :
    TrieAnswers env acc.storageRoot key mptv ∧ SameTrie env acc.storageRoot acc'.storageRoot := by
  obtain ⟨⟨answer, root⟩, htrie, heq⟩ := Option.map_eq_some_iff.mp hget
  cases heq
  exact ⟨trieGet_answers htrie, fun _ _ => (trieGet_expands htrie).answers_iff⟩

theorem getStorage_sameStores {addr : Address} {key v : Bytes32}
    (hget : getStorage env h addr key = some (v, h')) : SameStores env h h' := by
  refine (recordAccountAccess_sameStores h addr).trans ?_
  simp only [getStorage] at hget
  split at hget
  · cases hget
    exact .refl _
  · rename_i acc hacc
    obtain ⟨r, hr, heq⟩ := Option.map_eq_some_iff.mp hget
    cases heq
    have haccount : (recordAccountAccess env h addr).account addr = acc := by
      simp [Host.account, hacc]
    refine .of_setAccount ?_
    rw [haccount]
    exact (trieGetOf_sameTrie hr).2

/-- A slot that has the value already is not written to its trie. -/
theorem setStorage_sameStores {addr : Address} {key value : Bytes32} {status : StorageStatus}
    (hk : Event.Keeps env h (.setStorage addr key value))
    (hset : setStorage env h addr key value = some (status, h')) : SameStores env h h' := by
  refine (recordAccountAccess_sameStores h addr).trans ?_
  simp only [setStorage, Option.bind_eq_bind, Option.bind_eq_some_iff] at hset
  obtain ⟨⟨mptv, acc⟩, hget, acc', hwrite, heq⟩ := hset
  obtain ⟨hanswer, hsame⟩ := trieGetOf_sameTrie hget
  rw [recordAccountAccess_root] at hanswer
  rw [writeTrie, if_pos (hk mptv hanswer)] at hwrite
  cases hwrite
  cases heq
  exact .of_setAccount hsame

theorem selfdestruct_sameStores (h : Host) (addr beneficiary : Address) :
    SameStores env h (selfdestruct env h addr beneficiary) := by
  refine .of_roots (by rw [selfdestruct_toBooks]) fun a => ?_
  refine (recordAccountAccess_root _ addr a).trans ?_
  exact recordAccountAccess_root h addr a

/-- A new trie has no contents. -/
theorem emptyTrie_null (contractAddr : Str) : EmptyTrie env ⟨contractAddr, .null⟩ := by
  refine fun key mptv => ⟨?_, ?_⟩
  · rintro ⟨fuel, r, hr, rfl⟩
    cases fuel with
    | zero => cases hr
    | succ fuel =>
      cases hr
      rfl
  · rintro rfl
    exact ⟨1, ⟨.null, .null⟩, rfl, rfl⟩

theorem EmptyTrie.sameTrie {trie trie' : StorageRoot} (he : EmptyTrie env trie)
    (he' : EmptyTrie env trie') : SameTrie env trie trie' :=
  fun key mptv => (he' key mptv).trans (he key mptv).symm

/-- A creation begins with a new trie, so it keeps the stores where the trie was empty. -/
theorem createEnter_sameStores {amount : UInt64} {fromAddr contractAddress : Str} {entry : Entry}
    (hempty : EmptyTrie env (h.account (stringToEvmAddr contractAddress)).storageRoot)
    (hc : createEnter env h amount fromAddr contractAddress = (h', entry)) : SameStores env h h' := by
  rw [createEnter] at hc
  rcases htr : h.transfer env amount fromAddr contractAddress with ⟨h₁, ok⟩
  obtain ⟨coins, spend, rfl⟩ := transfer_frame htr
  have hpaid : SameStores env h { h with coinTransferrings := coins, dbSpendMap := spend } :=
    .of_roots rfl fun _ => rfl
  rw [htr] at hc
  cases ok with
  | false =>
    cases hc
    exact hpaid
  | true =>
    refine hpaid.trans ?_
    have hnew := hempty.sameTrie (emptyTrie_null (env.addrString (stringToEvmAddr contractAddress)))
    simp only at hc
    split_ifs at hc <;> cases hc <;> exact .of_setAccount hnew

/-- Which trie is opened does not depend on the account it is for. -/
theorem createTrie_root {acc₁ acc₂ : TfsAccount} {rootHash contractAddr : Str}
    (hopen : acc₁.createTrie env rootHash contractAddr = some acc₂) (acc : TfsAccount) :
    ∃ acc', acc.createTrie env rootHash contractAddr = some acc'
      ∧ acc'.storageRoot = acc₂.storageRoot := by
  rw [TfsAccount.createTrie] at hopen ⊢
  split_ifs at hopen ⊢
  · cases hopen
    exact ⟨_, rfl, rfl⟩
  · obtain ⟨root, hroot, rfl⟩ := Option.map_eq_some_iff.mp hopen
    exact ⟨_, Option.map_eq_some_iff.mpr ⟨root, hroot, rfl⟩, rfl⟩

/-- The entry of a call keeps the stores when the trie it begins or opens has the contents of the one in
    its place. -/
theorem callEnter_sameStores {msg : Message} {entry : Entry} (hk : Event.Keeps env h (.enter msg))
    (hc : callEnter env h msg = some (h', entry)) : SameStores env h h' := by
  have hrec := @recordAccountAccess_sameStores env h msg.recipient
  have hroots := @recordAccountAccess_root env h msg.recipient
  have hbooks := @recordAccountAccess_toBooks env h msg.recipient
  rcases callEnter_cases hc with ⟨-, rfl, -⟩ | ⟨hd, ⟨hcreates, hcreate⟩ | ⟨hn, h₁, ok, htr, hrest⟩⟩
  · exact hrec
  · have hnonce : SameStores env h (recordAccountAccess env h msg.recipient).nextNonce :=
      hrec.trans (.of_roots rfl fun _ => rfl)
    refine hnonce.trans (createEnter_sameStores ?_ hcreate)
    have hempty := hk.1 hd hcreates
    rwa [← hroots] at hempty
  · generalize recordAccountAccess env h msg.recipient = h₀ at hrec hroots hbooks htr
    obtain ⟨coins, spend, rfl⟩ := transfer_frame htr
    have hpaid : SameStores env h { h₀ with coinTransferrings := coins, dbSpendMap := spend } :=
      hrec.trans (.of_roots rfl fun _ => rfl)
    rcases hrest with ⟨-, rfl, -⟩ | ⟨rfl, hprep⟩
    · exact hpaid
    rcases (callPrepare_opens hprep).1 with rfl | ⟨acc, hin, hpre, hfind, hloads, rfl⟩
    · exact hpaid
    -- the trie is opened on `h` as well
    obtain ⟨hkind, hcreated, hnot, rootHash, hroot, hopen⟩ := hloads
    obtain ⟨acc', hopen', hacc'⟩ := createTrie_root hopen (h.account msg.recipient)
    have hmap : h₀.createdContract = h.createdContract := congrArg Books.createdContract hbooks
    have hload : h₀.loadContract = h.loadContract := congrArg Books.loadContract hbooks
    have hopens : Opens env h msg acc' := by
      refine ⟨hd, ?_, hin, hpre, ?_, hkind, hmap ▸ hcreated, hload ▸ hnot, rootHash, hroot, hopen'⟩
      · rw [payee_of_not_creates hn] at htr
        rw [← transfer_ok_congr (congrArg Books.coinTransferrings hbooks)
          (congrArg Books.dbSpendMap hbooks), htr]
      · simp only [findCode, hmap] at hfind ⊢
        exact hfind
    have hsame := hk.2 acc' hopens
    rw [hacc', ← hroots] at hsame
    refine hpaid.trans (.attach ?_ _)
    exact hsame

/-- One event. -/
theorem step_keeps {e : Event} (hk : e.Keeps env h) (hs : step env false h e = some h') :
    SameStores env h h' := by
  cases e with
  | accountAccess addr =>
    cases hs
    exact recordAccountAccess_sameStores h addr
  | getStorage addr key =>
    obtain ⟨⟨v, h₁⟩, hget, rfl⟩ := Option.map_eq_some_iff.mp hs
    exact getStorage_sameStores hget
  | setStorage addr key value =>
    obtain ⟨⟨status, h₁⟩, hset, rfl⟩ := Option.map_eq_some_iff.mp hs
    exact setStorage_sameStores hk hset
  | accessStorage addr key =>
    cases hs
    exact .of_setAccount fun _ _ => Iff.rfl
  | selfdestruct addr beneficiary =>
    cases hs
    exact selfdestruct_sameStores h addr beneficiary
  | emitLog log =>
    cases hs
    exact .of_roots rfl fun _ => rfl
  | enter msg =>
    rw [step_enter] at hs
    obtain ⟨⟨h₁, entry⟩, hc, rfl⟩ := Option.map_eq_some_iff.mp hs
    exact callEnter_sameStores hk hc
  | created contractAddress output =>
    cases hs
    rw [createLeave_eq]
    have hcode : SameStores env h (h.setAccount (stringToEvmAddr contractAddress)
        ((h.account (stringToEvmAddr contractAddress)).setCode output)) :=
      .of_setAccount fun _ _ => Iff.rfl
    have hmap : h.createdContract.set contractAddress (Rlp.toHex output) = h.createdContract := by
      funext name
      by_cases hname : name = contractAddress
      · rw [hname, StdMap.set_self]
        exact hk.symm
      · exact StdMap.set_ne _ _ hname
    exact ⟨hmap, hcode.tries⟩

/-- A run of such events. -/
theorem run_keeps : ∀ (es : List Event) {h h' : Host}, KeepsAlong env h es →
    runEvents env false h es = some h' → SameStores env h h'
  | [], h, h', _, hrun => by
    cases hrun
    exact .refl h
  | e :: es, h, h', hk, hrun => by
    rw [runEvents, Option.bind_eq_some_iff] at hrun
    obtain ⟨h₁, hs, hrest⟩ := hrun
    exact (step_keeps hk.1 hs).trans (run_keeps es (hk.2 h₁ hs) hrest)

/-! ### No event less

    Where the tries are well formed the condition on the events is exact at every moment: an event
    without it changes a store. -/

/-- Every trie of the host is well formed. -/
def TriesOk (env : HostEnv) (h : Host) : Prop := ∀ a, ∃ m, TrieMeans env (h.account a) m

theorem TriesOk.of_sameStorage (hok : TriesOk env h) (hsame : SameStorage env h h') : TriesOk env h' := by
  intro a
  obtain ⟨m, hm⟩ := hok a
  exact ⟨m, hsame.tries a m hm⟩

theorem TriesOk.setAccount (hok : TriesOk env h) {addr : Address} {acc : TfsAccount} {m : Mpt.Meaning}
    (hm : TrieMeans env acc m) : TriesOk env (h.setAccount addr acc) := by
  intro a
  rw [setAccount_account]
  split_ifs with ha
  · exact ⟨m, hm⟩
  · exact hok a

/-- A well-formed trie answers by its meaning. -/
theorem TrieMeans.answers {acc : TfsAccount} {m : Mpt.Meaning} (hm : TrieMeans env acc m)
    (key : Bytes32) : TrieAnswers env acc.storageRoot key (slotText m key) := by
  obtain ⟨acc', hget, -⟩ := trieGetOf_spec hm key
  exact (trieGetOf_sameTrie hget).1

theorem trieGetOf_means {acc acc' : TfsAccount} {m : Mpt.Meaning} {key : Bytes32} {mptv : Str}
    (hm : TrieMeans env acc m) (hget : trieGetOf env acc key = some (mptv, acc')) :
    TrieMeans env acc' m := by
  obtain ⟨acc₁, hget₁, hm₁, -⟩ := trieGetOf_spec hm key
  rw [hget] at hget₁
  cases hget₁
  exact hm₁

/-- What a trie write leaves is well formed, and answers with the value where it wrote. -/
theorem writeTrie_means {acc acc' : TfsAccount} {m : Mpt.Meaning} {key value : Bytes32} {mptv : Str}
    (hm : TrieMeans env acc m) (hwrite : writeTrie env acc mptv key value = some acc') :
    (∃ m', TrieMeans env acc' m') ∧ (¬ (mptv ≠ [] ∧ wordOf mptv = value) →
      TrieAnswers env acc'.storageRoot key (Rlp.toHex value.1)) := by
  rw [writeTrie] at hwrite
  split_ifs at hwrite with hsame
  · cases hwrite
    exact ⟨⟨m, hm⟩, fun hne => absurd hsame hne⟩
  · obtain ⟨acc₁, m', hupdate, hm', -, htext⟩ := trieUpdateOf_spec hm key value
    rw [hwrite] at hupdate
    cases hupdate
    refine ⟨⟨m', hm'⟩, fun _ => ?_⟩
    have hanswer := hm'.answers key
    rwa [htext, if_pos rfl] at hanswer

/-- One event keeps the tries well formed. -/
theorem step_triesOk (hcommitted : CommittedOk env) (hok : TriesOk env h) {e : Event}
    (hs : step env false h e = some h') : TriesOk env h' := by
  have hrec : ∀ addr, TriesOk env (recordAccountAccess env h addr) :=
    fun addr => hok.of_sameStorage (recordAccountAccess_sameStorage h addr)
  cases e with
  | accountAccess addr =>
    cases hs
    exact hrec addr
  | getStorage addr key =>
    obtain ⟨⟨v, h₁⟩, hget, rfl⟩ := Option.map_eq_some_iff.mp hs
    simp only [getStorage] at hget
    split at hget
    · cases hget
      exact hrec addr
    · rename_i acc hacc
      obtain ⟨r, hr, heq⟩ := Option.map_eq_some_iff.mp hget
      cases heq
      obtain ⟨m, hm⟩ := hrec addr addr
      have haccount : (recordAccountAccess env h addr).account addr = acc := by
        simp [Host.account, hacc]
      rw [haccount] at hm
      exact (hrec addr).setAccount (trieGetOf_means hm hr)
  | setStorage addr key value =>
    obtain ⟨⟨status, h₁⟩, hset, rfl⟩ := Option.map_eq_some_iff.mp hs
    simp only [setStorage, Option.bind_eq_bind, Option.bind_eq_some_iff] at hset
    obtain ⟨⟨mptv, acc⟩, hget, acc', hwrite, heq⟩ := hset
    cases heq
    obtain ⟨m, hm⟩ := hrec addr addr
    obtain ⟨⟨m', hm'⟩, -⟩ := writeTrie_means (trieGetOf_means hm hget) hwrite
    exact (hrec addr).setAccount hm'
  | accessStorage addr key =>
    cases hs
    exact hok.of_sameStorage (accessStorage_sameStorage h addr key)
  | selfdestruct addr beneficiary =>
    cases hs
    exact hok.of_sameStorage (selfdestruct_sameStorage h addr beneficiary)
  | emitLog log =>
    cases hs
    exact hok
  | enter msg =>
    rw [step_enter] at hs
    obtain ⟨⟨h₁, entry⟩, hc, rfl⟩ := Option.map_eq_some_iff.mp hs
    rcases callEnter_cases hc with ⟨-, hh, -⟩ | ⟨-, ⟨-, hcreate⟩ | ⟨-, h₂, ok, htr, hrest⟩⟩
    · exact hh ▸ hrec msg.recipient
    · rw [createEnter] at hcreate
      rcases htr : (recordAccountAccess env h msg.recipient).nextNonce.transfer env msg.amount
        (env.addrString msg.sender) (payee env h msg) with ⟨h₂, ok⟩
      obtain ⟨coins, spend, rfl⟩ := transfer_frame htr
      rw [htr] at hcreate
      cases ok with
      | false =>
        cases hcreate
        exact hrec msg.recipient
      | true =>
        have hpaid : TriesOk env { (recordAccountAccess env h msg.recipient).nextNonce with
            coinTransferrings := coins, dbSpendMap := spend } := hrec msg.recipient
        simp only at hcreate
        split_ifs at hcreate <;> cases hcreate <;> exact hpaid.setAccount (trieMeans_null _ _ _)
    · obtain ⟨coins, spend, rfl⟩ := transfer_frame htr
      have hpaid : TriesOk env { recordAccountAccess env h msg.recipient with
          coinTransferrings := coins, dbSpendMap := spend } := hrec msg.recipient
      rcases hrest with ⟨-, rfl, -⟩ | ⟨-, hprep⟩
      · exact hpaid
      · rcases (callPrepare_cases hprep).1 with rfl | ⟨acc, hloads, rfl⟩
        · exact hpaid
        · obtain ⟨-, -, -, rootHash, hroot, hopen⟩ := hloads
          obtain ⟨acc₀, m, hfresh, hm⟩ := hcommitted _ _ hroot
          rw [createTrie_eq hfresh] at hopen
          cases hopen
          exact hpaid.setAccount (hm.withTrie _)
  | created contractAddress output =>
    cases hs
    rw [createLeave_eq]
    obtain ⟨m, hm⟩ := hok (stringToEvmAddr contractAddress)
    exact hok.setAccount hm

/-- A write that leaves the stores alone writes what the trie answers. -/
theorem setStorage_keeps (hok : TriesOk env h) {addr : Address} {key value : Bytes32}
    {status : StorageStatus} (hset : setStorage env h addr key value = some (status, h'))
    (hsame : SameStores env h h') : Event.Keeps env h (.setStorage addr key value) := by
  intro mptv hanswer
  by_contra hne
  simp only [setStorage, Option.bind_eq_bind, Option.bind_eq_some_iff] at hset
  obtain ⟨⟨mptv', acc⟩, hget, acc', hwrite, heq⟩ := hset
  cases heq
  obtain ⟨m, hm⟩ := hok.of_sameStorage (recordAccountAccess_sameStorage h addr) addr
  have hread := (trieGetOf_sameTrie hget).1
  rw [recordAccountAccess_root] at hread
  obtain rfl := Answers.unique hanswer hread
  -- the trie is written, and answers with the value from then on
  have hwritten := (writeTrie_means (trieGetOf_means hm hget) hwrite).2 hne
  have hafter := hsame.tries addr key (Rlp.toHex value.1)
  rw [setAccount_account, if_pos rfl] at hafter
  have hbefore : TrieAnswers env (h.account addr).storageRoot key (Rlp.toHex value.1) :=
    hafter.mp hwritten
  rw [Answers.unique hanswer hbefore] at hne
  exact hne ⟨toHex_ne_nil value, wordOf_toHex value⟩

/-- A creation without value begins with a new trie. -/
theorem createEnter_root {fromAddr contractAddress : Str} {entry : Entry}
    (hc : createEnter env h 0 fromAddr contractAddress = (h', entry)) :
    ∃ name, (h'.account (stringToEvmAddr contractAddress)).storageRoot = ⟨name, .null⟩ := by
  rw [createEnter] at hc
  rcases htr : h.transfer env 0 fromAddr contractAddress with ⟨h₁, ok⟩
  rw [htr] at hc
  rcases transfer_advances htr with ⟨-, rfl, rfl⟩ | ⟨hne, -⟩
  · refine ⟨env.addrString (stringToEvmAddr contractAddress), ?_⟩
    simp only at hc
    split_ifs at hc <;> cases hc <;> rw [setAccount_account, if_pos rfl]
  · exact absurd rfl hne

/-- A call that gets as far opens the trie. -/
theorem callPrepare_of_loads {msg : Message} {acc : TfsAccount} {entry : Entry}
    (hin : msg.input ≠ []) (hpre : env.callPrecompile msg = none)
    (hfind : findCode env h (env.addrString msg.codeAddress) = .inr false)
    (hloads : Loads env h msg acc) (hp : callPrepare env h msg = some (h', entry)) :
    h' = h.attach msg.recipient acc (env.addrString msg.codeAddress) := by
  obtain ⟨hkind, -, hnot, rootHash, hroot, hopen⟩ := hloads
  have hload : loadTrie env h msg (env.addrString msg.codeAddress) false
      = some (.inr (h.attach msg.recipient acc (env.addrString msg.codeAddress))) := by
    rw [loadTrie, if_pos ⟨hkind, rfl, hnot⟩, hroot]
    simp only [hopen, Option.map_some]
  simp only [callPrepare, if_neg hin, hpre, hfind, hload] at hp
  split_ifs at hp <;> cases hp <;> rfl

theorem attach_account (h : Host) (addr : Address) (acc : TfsAccount) (contractAddress : Str) :
    (h.attach addr acc contractAddress).account addr = acc := by
  simp [Host.attach, Host.account, Host.setAccount]

/-- The entry of a call without value that leaves the stores alone. -/
theorem callEnter_keeps {msg : Message} {entry : Entry} (hq : Event.Quiet h (.enter msg))
    (hc : callEnter env h msg = some (h', entry)) (hsame : SameStores env h h') :
    Event.Keeps env h (.enter msg) := by
  have hroots := @recordAccountAccess_root env h msg.recipient
  have hbooks := @recordAccountAccess_toBooks env h msg.recipient
  rcases callEnter_cases hc with ⟨hd, -, -⟩ | ⟨hd, ⟨hcreates, hcreate⟩ | ⟨hn, h₁, ok, htr, hrest⟩⟩
  · exact ⟨fun h => absurd hd h, fun _ hopens => absurd hd hopens.1⟩
  · rw [hq.resolve_left hd] at hcreate
    refine ⟨fun _ _ => ?_, fun acc hopens => ?_⟩
    · obtain ⟨name, hroot⟩ := createEnter_root hcreate
      have htrie := hsame.tries (stringToEvmAddr (payee env h msg))
      rw [hroot] at htrie
      exact fun key mptv => (htrie key mptv).symm.trans (emptyTrie_null name key mptv)
    · -- a creation opens nothing
      obtain ⟨-, -, -, -, -, hkind, -⟩ := hopens
      rcases hcreates with hk | hk <;> rw [hkind] at hk <;> cases hk
  · refine ⟨fun _ hcreates => absurd hcreates hn, fun acc hopens => ?_⟩
    obtain ⟨-, hpaid, hin, hpre, hfind, hkind, hcreated, hnot, rootHash, hroot, hopen⟩ := hopens
    generalize recordAccountAccess env h msg.recipient = h₀ at hroots hbooks htr
    have hmap : h₀.createdContract = h.createdContract := congrArg Books.createdContract hbooks
    have hload : h₀.loadContract = h.loadContract := congrArg Books.loadContract hbooks
    obtain ⟨coins, spend, rfl⟩ := transfer_frame htr
    have hok : ok = true := by
      rw [payee_of_not_creates hn] at htr
      rw [← transfer_ok_congr (congrArg Books.coinTransferrings hbooks)
        (congrArg Books.dbSpendMap hbooks), htr] at hpaid
      exact hpaid
    rcases hrest with ⟨hfalse, -⟩ | ⟨-, hprep⟩
    · rw [hok] at hfalse
      cases hfalse
    obtain ⟨acc', hopen', hacc'⟩ := createTrie_root hopen (h₀.account msg.recipient)
    have hfind' : findCode env { h₀ with coinTransferrings := coins, dbSpendMap := spend }
        (env.addrString msg.codeAddress) = .inr false := by
      simp only [findCode, hmap] at hfind ⊢
      exact hfind
    have hloads : Loads env { h₀ with coinTransferrings := coins, dbSpendMap := spend } msg acc' :=
      ⟨hkind, hmap.symm ▸ hcreated, hload.symm ▸ hnot, rootHash, hroot, hopen'⟩
    obtain rfl := callPrepare_of_loads hin hpre hfind' hloads hprep
    have htrie := hsame.tries msg.recipient
    rw [attach_account, hacc'] at htrie
    exact htrie

/-- A quiet event changes a store unless it keeps them. -/
theorem step_keeps_iff (hok : TriesOk env h) {e : Event} (hq : e.Quiet h)
    (hs : step env false h e = some h') : SameStores env h h' ↔ e.Keeps env h := by
  refine ⟨fun hsame => ?_, fun hk => step_keeps hk hs⟩
  cases e with
  | setStorage addr key value =>
    obtain ⟨⟨status, h₁⟩, hset, rfl⟩ := Option.map_eq_some_iff.mp hs
    exact setStorage_keeps hok hset hsame
  | enter msg =>
    rw [step_enter] at hs
    obtain ⟨⟨h₁, entry⟩, hc, rfl⟩ := Option.map_eq_some_iff.mp hs
    exact callEnter_keeps hq hc hsame
  | created contractAddress output =>
    cases hs
    have hcreated := congrFun hsame.created contractAddress
    rw [createLeave_eq] at hcreated
    exact hcreated.symm.trans (StdMap.set_self _ _ _)
  | accountAccess _ => trivial
  | getStorage _ _ => trivial
  | accessStorage _ _ => trivial
  | selfdestruct _ _ => trivial
  | emitLog _ => trivial

/-- In a quiet run the stores are as before it at every moment exactly when none of its events changes
    one. -/
theorem keepsAlong_iff (hcommitted : CommittedOk env) : ∀ (es : List Event) {h h' : Host},
    TriesOk env h → (∀ e ∈ es, e.Quiet h) → runEvents env false h es = some h' →
      ((∀ done rest h₁, es = done ++ rest → runEvents env false h done = some h₁ →
        SameStores env h h₁) ↔ KeepsAlong env h es)
  | [], h, h', _, _, _ => by
    refine iff_of_true (fun done rest h₁ hes hrun => ?_) trivial
    obtain ⟨rfl, rfl⟩ := List.append_eq_nil_iff.mp hes.symm
    cases hrun
    exact .refl h
  | e :: es, h, h', hok, hquiet, hrun => by
    rw [runEvents, Option.bind_eq_some_iff] at hrun
    obtain ⟨h₁, hs, hrest⟩ := hrun
    obtain ⟨hq, hquiet⟩ := List.forall_mem_cons.mp hquiet
    have hledgers : SameLedgers h h₁ := by
      rcases step_advances hs with ⟨-, hsame⟩ | ⟨hnot, -⟩
      · exact hsame
      · exact absurd hq hnot
    have hstep := step_keeps_iff hok hq hs
    have ih := keepsAlong_iff hcommitted es (step_triesOk hcommitted hok hs)
      (fun e he => (hledgers.quiet_iff e).mpr (hquiet e he)) hrest
    constructor
    · intro hmoments
      have hfirst : SameStores env h h₁ :=
        hmoments [e] es h₁ rfl (by rw [runEvents_single, hs])
      refine ⟨hstep.mp hfirst, fun h₂ hs₂ => ?_⟩
      rw [hs] at hs₂
      cases hs₂
      refine ih.mp fun done rest h₂ hes hdone => hfirst.symm.trans ?_
      refine hmoments (e :: done) rest h₂ (congrArg (List.cons e) hes) ?_
      rw [runEvents, hs, Option.bind_some, hdone]
    · rintro ⟨hk, hrestKeeps⟩ done rest h₂ hes hdone
      cases done with
      | nil =>
        cases hdone
        exact .refl h
      | cons d done =>
        obtain ⟨rfl, hrest'⟩ := List.cons.inj hes
        rw [runEvents, hs, Option.bind_some] at hdone
        exact (hstep.mpr hk).trans (ih.mpr (hrestKeeps h₁ hs) done rest h₂ hrest' hdone)

/-- The ledgers are as before a run exactly when its events are quiet. -/
theorem sameLedgers_iff {es : List Event} (hrun : runEvents env false h es = some h') :
    SameLedgers h h' ↔ ∀ e ∈ es, e.Quiet h := by
  rcases run_advances es hrun with ⟨hquiet, hsame⟩ | ⟨hquiet, hadv⟩
  · exact iff_of_true hsame hquiet
  · exact iff_of_false (fun hsame => hsame.not_advances hadv) hquiet


/-! ### Failed calls -/

/-- The events of the machine's run inside a call, from the call's entry. -/
def innerEvents (env : HostEnv) (ops : List HostOp) : Host × Entry → List Event
  | (_, .returned _) => []
  | (h, .execute) => opsEvents env ops h
  | (h, .create _) => opsEvents env ops h

/-- A failed call ends where the events of the machine's run lead from its entry. -/
theorem callLeave_failed {ops : List HostOp} {result : VmResult} {entered : Host × Entry}
    {r : CallResult} (hl : callLeave (vmRun env ops result) entered = some (h', r))
    (hr : r.statusCode ≠ .success) :
    runEvents env false entered.1 (innerEvents env ops entered) = some h' := by
  obtain ⟨h₁, entry⟩ := entered
  cases entry with
  | returned result => cases hl; rfl
  | execute =>
    simp only [callLeave, Option.bind_eq_bind, Option.bind_eq_some_iff] at hl
    obtain ⟨⟨h₂, r₂⟩, hvm, heq⟩ := hl
    obtain ⟨h₃, hops, heq'⟩ := Option.map_eq_some_iff.mp hvm
    cases heq
    cases heq'
    exact runOps_events ops h₁ _ hops
  | create contractAddress =>
    simp only [callLeave, Option.bind_eq_bind, Option.bind_eq_some_iff] at hl
    obtain ⟨⟨h₂, r₂⟩, hvm, heq⟩ := hl
    obtain ⟨h₃, hops, heq'⟩ := Option.map_eq_some_iff.mp hvm
    cases heq'
    split_ifs at heq with hs
    · cases heq
      exact runOps_events ops h₁ _ hops
    · rw [createLeave_eq] at heq
      cases heq
      exact absurd rfl hr

/-- A failed call leaves the ledgers and records as they were exactly when every event of it, its own
    entry included, is quiet: it carries no value or its target was gone from the start, and the
    machine's run wrote no log, destroyed nothing and moved no coins. All six components are as they
    were when, besides, none of the events changes a store. Nothing is ever undone. The same holds of a
    failed creation. -/
theorem failed_call_iff (env : HostEnv) (h h' : Host) (ops : List HostOp) (result : VmResult)
    (r : CallResult) (hr : r.statusCode ≠ .success) :
    (∀ msg, call env h msg (vmRun env ops result) = some (h', r) →
      let events := opEvents env (.call msg ops result) h
      (SameLedgers h h' ↔ ∀ e ∈ events, e.Quiet h) ∧
        ((∀ e ∈ events, e.Quiet h) → KeepsAlong env h events → Unchanged env h h')) ∧
    ∀ amount fromAddr contractAddress,
      createContract env h amount fromAddr contractAddress (vmRun env ops result) = some (h', r) →
      let entered := createEnter env h amount fromAddr contractAddress
      let events := innerEvents env ops entered
      (SameLedgers h h' ↔ amount = 0 ∧ ∀ e ∈ events, e.Quiet h) ∧
        (amount = 0 → (∀ e ∈ events, e.Quiet h) →
          EmptyTrie env (h.account (stringToEvmAddr contractAddress)).storageRoot →
          KeepsAlong env entered.1 events → Unchanged env h h') := by
  constructor
  · intro msg hcall events
    have hop : runOp env (.call msg ops result) h = some h' := congrArg (Option.map Prod.fst) hcall
    have hrun := runOp_events _ h h' hop
    have hledgers := sameLedgers_iff hrun
    exact ⟨hledgers, fun hquiet hkeeps => ⟨hledgers.mpr hquiet, run_keeps _ hkeeps hrun⟩⟩
  · intro amount fromAddr contractAddress hcreate entered events
    have henter : createEnter env h amount fromAddr contractAddress = (entered.1, entered.2) := rfl
    have hrun : runEvents env false entered.1 events = some h' := callLeave_failed hcreate hr
    have hledgers : SameLedgers h h' ↔ amount = 0 ∧ ∀ e ∈ events, e.Quiet h := by
      rcases createEnter_advances henter with ⟨h0, hsame⟩ | ⟨h0, hadv⟩
      · have hquiet : (∀ e ∈ events, e.Quiet entered.1) ↔ ∀ e ∈ events, e.Quiet h :=
          forall₂_congr fun e _ => hsame.quiet_iff e
        have hinner := sameLedgers_iff hrun
        rw [and_iff_right h0, ← hquiet, ← hinner]
        exact ⟨fun hs => hsame.symm.trans hs, fun hs => hsame.trans hs⟩
      · refine iff_of_false (fun hs => ?_) fun hc => h0 hc.1
        rcases run_advances events hrun with ⟨-, hsame⟩ | ⟨-, hadv'⟩
        · exact hs.not_advances (hadv.trans_same hsame)
        · exact hs.not_advances (hadv.trans hadv')
    refine ⟨hledgers, fun h0 hquiet hempty hkeeps => ⟨hledgers.mpr ⟨h0, hquiet⟩, ?_⟩⟩
    exact (createEnter_sameStores hempty henter).trans (run_keeps events hkeeps hrun)

/-- A host whose second address has destroyed itself. -/
def sampleGone : Host :=
  { Host.fresh with recordedSelfdestructs := [⟨sampleAddr 34, sampleAddr 17⟩] }

/-- Its call is an entry and no more. -/
theorem events_gone : opEvents sampleEnv (.call (sampleCall 17 34 10 [0]) [] ⟨.success, []⟩) sampleGone
    = [.enter (sampleCall 17 34 10 [0])] := by
  decide

/-- A call of a contract that is gone fails and changes nothing. -/
theorem failed_call_iff_gone : ∃ h' r,
    call sampleEnv sampleGone (sampleCall 17 34 10 [0]) (vmRun sampleEnv [] ⟨.success, []⟩) = some (h', r) ∧
      r.statusCode = .failure ∧ Unchanged sampleEnv sampleGone h' := by
  have heval : ((call sampleEnv sampleGone (sampleCall 17 34 10 [0])
      (vmRun sampleEnv [] ⟨.success, []⟩)).map fun x => x.2.statusCode) = some .failure := by
    decide
  obtain ⟨⟨h', r⟩, hcall, hr⟩ := Option.map_eq_some_iff.mp heval
  refine ⟨h', r, hcall, hr, ?_⟩
  have hne : r.statusCode ≠ .success := by rw [show r.statusCode = _ from hr]; decide
  have hgone : Destroyed sampleGone (sampleCall 17 34 10 [0]) := ⟨_, List.mem_singleton_self _, rfl⟩
  refine ((failed_call_iff sampleEnv sampleGone h' [] ⟨.success, []⟩ r hne).1 _ hcall).2 ?_ ?_
  · intro e he
    rw [events_gone, List.mem_singleton] at he
    rw [he]
    exact .inl hgone
  · rw [events_gone]
    exact ⟨⟨fun hd => absurd hgone hd, fun acc hopens => absurd hgone hopens.1⟩, fun _ _ => trivial⟩

/-- A call with value that reverts at once keeps its transfer. -/
theorem failed_call_keeps_transfer : ∃ h' r,
    call sampleEnv Host.fresh (sampleCall 17 34 10 [0]) (vmRun sampleEnv [] ⟨.revert, []⟩) = some (h', r) ∧
      r.statusCode ≠ .success ∧ ¬ Unchanged sampleEnv Host.fresh h' := by
  have heval : ((call sampleEnv Host.fresh (sampleCall 17 34 10 [0])
      (vmRun sampleEnv [] ⟨.revert, []⟩)).map fun x =>
        (x.2.statusCode, x.1.coinTransferrings.length)) = some (.revert, 1) := by
    decide
  obtain ⟨⟨h', r⟩, hcall, heq⟩ := Option.map_eq_some_iff.mp heval
  obtain ⟨hr, hlen⟩ := Prod.mk.inj heq
  refine ⟨h', r, hcall, by rw [show r.statusCode = _ from hr]; decide, fun hsame => ?_⟩
  have hcoins : h'.coinTransferrings = [] := hsame.1.coins
  rw [show h'.coinTransferrings = [] from hcoins] at hlen
  cases hlen

end Tfs.Evm
