import Tfs.Mpt.Persist
import Tfs.Evm.Run

/-! Contract storage over whole runs.

    A contract's storage is its trie with a slot cache behind it. `EvmHost::call` opens the trie of a
    contract once, guarded by `loadContract`; `MakeHost` opens the trie of the first contract without
    entering it there, so the first nested call into that contract opens its trie a second time, on the
    committed root. Along every run in which this second opening loses nothing, storage is a map: the
    last value written, else the committed one. -/

namespace Tfs.Evm
open Tfs.Mpt

variable {env : HostEnv} {h h' : Host} {acc : TfsAccount} {a A : Address} {key : Bytes32}

/-! ### What an account answers -/

/-- What `get_storage` answers from an account: the trie first, then the slot cache. -/
def answerOf (env : HostEnv) (acc : TfsAccount) (key : Bytes32) : Option Bytes32 :=
  (trieGetOf env acc key).map fun r => if r.1 ≠ [] then wordOf r.1 else slotValue acc key

/-- The value of a slot in the committed trie of a contract, zero when there is none. -/
def committedWord (env : HostEnv) (a : Address) (key : Bytes32) : Option Bytes32 :=
  match env.contractRootHash (env.addrString a) with
  | none => some Bytes32.zero
  | some rootHash => (TfsAccount.fresh.createTrie env rootHash (env.addrString a)).bind fun acc =>
    answerOf env acc key

/-- The trie of an account is well formed and means `m`. -/
def TrieMeans (env : HostEnv) (acc : TfsAccount) (m : Meaning) : Prop :=
  ∃ R F K, Resolves (env.trieEnv acc.storageRoot.contractAddr) R F ∧
    (∀ K L m, F newFlag K L m) ∧ Rep R F K 66 acc.storageRoot.root m

/-- The text a meaning holds for a slot, empty when there is none. -/
def slotText (m : Meaning) (key : Bytes32) : Str := (m (wapperKey (Rlp.toHex key.1))).getD []

/-- The answer of an account whose trie means `m`. -/
def answer (m : Meaning) (acc : TfsAccount) (key : Bytes32) : Bytes32 :=
  if slotText m key ≠ [] then wordOf (slotText m key) else slotValue acc key

theorem toHex_isHexChar (b : Str) : ∀ c ∈ Rlp.toHex b, isHexChar c := by
  have hdigit : ∀ n : Fin 256, isHexChar (Rlp.hexDigit (UInt8.ofNat n / 16)) ∧
      isHexChar (Rlp.hexDigit (UInt8.ofNat n % 16)) := by decide +kernel
  induction b with
  | nil => intro c hc; cases hc
  | cons x rest ih =>
    intro c hc
    have hx := hdigit ⟨x.toNat, x.toNat_lt⟩
    simp only [UInt8.ofNat_toNat] at hx
    simp only [Rlp.toHex, List.mem_cons] at hc
    rcases hc with rfl | rfl | hc
    · exact hx.1
    · exact hx.2
    · exact ih c hc

/-- A slot is a key of 64 hexadecimal characters. -/
theorem hexKey_toHex (key : Bytes32) : HexKey 64 (Rlp.toHex key.1) :=
  ⟨by rw [Rlp.toHex_length, key.2], toHex_isHexChar key.1⟩

theorem toHex_ne_nil (value : Bytes32) : Rlp.toHex value.1 ≠ [] := by
  intro hnil
  have := Rlp.toHex_length value.1
  rw [hnil, value.2] at this
  cases this

theorem wordOf_toHex (value : Bytes32) : wordOf (Rlp.toHex value.1) = value := by
  rw [wordOf, evmcFromHexInto_toHex, Option.getD_some]

/-- Reading a well-formed trie gives the text of the slot and keeps meaning and slots. -/
theorem trieGetOf_spec {m : Meaning} (hm : TrieMeans env acc m) (key : Bytes32) :
    ∃ acc', trieGetOf env acc key = some (slotText m key, acc') ∧ TrieMeans env acc' m ∧
      acc'.storage = acc.storage := by
  obtain ⟨R, F, K, hR, hF, hrep⟩ := hm
  obtain ⟨root', hget, hrep'⟩ := trieGet_spec hR (by omega) hrep (hexKey_toHex key)
  refine ⟨{ acc with storageRoot := { acc.storageRoot with root := root' } }, ?_,
    ⟨R, F, K, hR, hF, hrep'⟩, rfl⟩
  rw [trieGetOf, hget]
  rfl

/-- Writing a well-formed trie changes the text of one slot. -/
theorem trieUpdateOf_spec {m : Meaning} (hm : TrieMeans env acc m) (key value : Bytes32) :
    ∃ acc' m', trieUpdateOf env acc key value = some acc' ∧ TrieMeans env acc' m' ∧
      acc'.storage = acc.storage ∧
      ∀ k, slotText m' k = if k = key then Rlp.toHex value.1 else slotText m k := by
  obtain ⟨R, F, K, hR, hF, hrep⟩ := hm
  obtain ⟨root', K', m', hupd, hrep', hm'⟩ := trieUpdate_spec hR hF (by omega) hrep
    (hexKey_toHex key) (toHex_ne_nil value)
  refine ⟨{ acc with storageRoot := { acc.storageRoot with root := root' } }, m', ?_,
    ⟨R, F, K', hR, hF, hrep'⟩, rfl, fun k => ?_⟩
  · rw [trieUpdateOf, hupd]
    rfl
  · rw [slotText, hm' _ (hexKey_toHex k)]
    by_cases hk : k = key
    · rw [if_pos hk, if_pos (congrArg (fun x : Bytes32 => Rlp.toHex x.1) hk), Option.getD_some]
    · rw [if_neg hk, if_neg fun heq => hk (Subtype.ext (Rlp.toHex_injective heq)), slotText]

theorem answerOf_eq {m : Meaning} (hm : TrieMeans env acc m) (key : Bytes32) :
    answerOf env acc key = some (answer m acc key) := by
  obtain ⟨acc', hget, -, -⟩ := trieGetOf_spec hm key
  rw [answerOf, hget]
  rfl

/-- A new trie means nothing. -/
theorem trieMeans_null (code : Str) (storage : StdMap Bytes32 StorageValue) (contractAddr : Str) :
    TrieMeans env ⟨code, storage, ⟨contractAddr, .null⟩⟩ fun _ => none :=
  ⟨_, _, .null, resolves_memory _, fun _ _ _ => trivial, .null 66⟩

/-- `get_storage` answers from the account. -/
theorem getStorage_answer (h : Host) (a : Address) (key : Bytes32) :
    (getStorage env h a key).map Prod.fst = answerOf env (h.account a) key := by
  have hsame : answerOf env ((recordAccountAccess env h a).account a) key
      = answerOf env (h.account a) key := by
    obtain ⟨code, hcode⟩ : ∃ code, (recordAccountAccess env h a).account a
        = (h.account a).setCode code := recordAccountAccess_account h a a
    rw [hcode, answerOf, answerOf, trieGetOf, trieGetOf, Option.map_map, Option.map_map]
    rfl
  rw [← hsame, getStorage]
  cases hacc : (recordAccountAccess env h a).accounts a with
  | none =>
    simp only [Host.account, hacc, Option.getD_none, Option.map_some]
    exact (answerOf_eq (trieMeans_null [] .empty []) key).symm
  | some acc =>
    simp only [Host.account, hacc, Option.getD_some, Option.map_map]
    rfl

/-! ### What the database promises -/

/-- Every committed root opens a well-formed trie. -/
def CommittedOk (env : HostEnv) : Prop :=
  ∀ a rootHash, env.contractRootHash (env.addrString a) = some rootHash →
    ∃ acc m, TfsAccount.fresh.createTrie env rootHash (env.addrString a) = some acc ∧
      TrieMeans env acc m

/-- The promise is what saving tries maintains: it holds when every committed root is the root of a
    disk that rounds of updates can leave. -/
theorem committedOk_of_disks {sha : Str → Str} {S : Set Str}
    (hdisk : ∀ a rootHash, env.contractRootHash (env.addrString a) = some rootHash → rootHash ≠ [] →
      ∃ d history, d.rootHash = rootHash ∧ DiskOk sha env.codec (env.addrString a) S 64 d history ∧
        d.env env.codec (env.addrString a) = env.trieEnv (env.addrString a)) : CommittedOk env := by
  intro a rootHash hroot
  by_cases hnil : rootHash = []
  · exact ⟨_, _, by rw [TfsAccount.createTrie, if_pos hnil], trieMeans_null _ _ _⟩
  · obtain ⟨d, history, rfl, hok, henv⟩ := hdisk a rootHash hroot hnil
    obtain ⟨opened, K, m, hopen, hrep, -⟩ := hok.opened
    have hres := hok.resolves
    rw [Disk.openTrie, henv] at hopen
    rw [henv] at hrep hres
    refine ⟨{ TfsAccount.fresh with storageRoot := ⟨env.addrString a, opened⟩ }, m, ?_,
      _, _, K, hres, fun K L m => .inl rfl, hrep⟩
    rw [TfsAccount.createTrie, if_neg hnil, hopen]
    rfl

/-- An account with its trie replaced. -/
def TfsAccount.withTrie (acc : TfsAccount) (trie : StorageRoot) : TfsAccount :=
  { acc with storageRoot := trie }

@[simp] theorem TfsAccount.withTrie_storageRoot (acc : TfsAccount) (trie : StorageRoot) :
    (acc.withTrie trie).storageRoot = trie := rfl

theorem TrieMeans.withTrie {acc₀ : TfsAccount} {m : Meaning} (hm : TrieMeans env acc₀ m)
    (acc : TfsAccount) : TrieMeans env (acc.withTrie acc₀.storageRoot) m := hm

/-- Opening a trie for an account that has slots already. -/
theorem createTrie_eq {acc₀ : TfsAccount} {rootHash contractAddr : Str}
    (hfresh : TfsAccount.fresh.createTrie env rootHash contractAddr = some acc₀) (acc : TfsAccount) :
    acc.createTrie env rootHash contractAddr = some (acc.withTrie acc₀.storageRoot) := by
  rw [TfsAccount.createTrie] at hfresh ⊢
  split_ifs at hfresh ⊢ with hnil
  · cases hfresh
    rfl
  · obtain ⟨root, hroot, rfl⟩ := Option.map_eq_some_iff.mp hfresh
    rw [hroot]
    rfl

/-! ### Runs that lose nothing -/

/-- What an event writes to a slot. -/
def Event.writes (a : Address) (key : Bytes32) : Event → Option Bytes32
  | .setStorage addr k value => if addr = a ∧ k = key then some value else none
  | _ => none

/-- The last value written to a slot. -/
def lastSet (a : Address) (key : Bytes32) (es : List Event) : Option Bytes32 :=
  es.reverse.findSome? (Event.writes a key)

/-- What storage has to hold after the events `es`: the last value written, else the committed one. -/
def expectedWord (env : HostEnv) (es : List Event) (a : Address) (key : Bytes32) : Option Bytes32 :=
  match lastSet a key es with
  | some value => some value
  | none => committedWord env a key

/-- The trie of `a` has been opened: `a` is the contract `A` the host was made for, or a call has
    loaded it. -/
def Attached (env : HostEnv) (A : Address) (h : Host) (a : Address) : Prop :=
  a = A ∨ env.addrString a ∈ h.loadContract

/-- The call gets as far as opening the trie of its recipient, with `acc` the account afterwards. -/
def Opens (env : HostEnv) (h : Host) (msg : Message) (acc : TfsAccount) : Prop :=
  ¬ Destroyed h msg ∧
    (h.transfer env msg.amount (env.addrString msg.sender) (env.addrString msg.codeAddress)).2 = true ∧
    msg.input ≠ [] ∧ env.callPrecompile msg = none ∧
    findCode env h (env.addrString msg.codeAddress) = .inr false ∧ Loads env h msg acc

/-- A step as the machine makes it, storage being touched only for contracts whose trie is open and
    plain calls running the code of their recipient; a call that opens the trie of `A` again finds in
    it, for every slot, what the host answered before. -/
def SoundStep (env : HostEnv) (A : Address) (h : Host) : Event → Prop
  | .setStorage addr _ _ => Attached env A h addr
  | .getStorage addr _ => Attached env A h addr
  | .enter msg => ¬ msg.creates ∧ (msg.kind = .call → msg.recipient = msg.codeAddress) ∧
      (msg.recipient = A → ∀ acc, Opens env h msg acc →
        ∀ key, answerOf env acc key = answerOf env (h.account A) key)
  | .created _ _ => False
  | _ => True

/-- Every step of a run is sound. -/
def SoundRun (env : HostEnv) (A : Address) : Host → List Event → Prop
  | _, [] => True
  | h, e :: es => SoundStep env A h e ∧
      ∀ h', step env false h e = some h' → SoundRun env A h' es

theorem lastSet_concat (a : Address) (key : Bytes32) (es : List Event) (e : Event) :
    lastSet a key (es ++ [e]) = (e.writes a key).or (lastSet a key es) := by
  rw [lastSet, List.reverse_append, List.reverse_singleton, List.singleton_append,
    List.findSome?_cons]
  cases e.writes a key <;> rfl

theorem expectedWord_set (a b : Address) (key k value : Bytes32) (es : List Event) :
    expectedWord env (es ++ [.setStorage a key value]) b k
      = if a = b ∧ key = k then some value else expectedWord env es b k := by
  rw [expectedWord, lastSet_concat, Event.writes]
  split_ifs
  · rfl
  · rw [Option.none_or]
    rfl

/-- Storage after the events `done`: an open trie answers what is expected, and a contract that is not
    open has not been written to. -/
structure StorageOk (env : HostEnv) (A : Address) (done : List Event) (h : Host) : Prop where
  isOpen : ∀ a, Attached env A h a → ∃ m, TrieMeans env (h.account a) m ∧
    ∀ key, some (answer m (h.account a) key) = expectedWord env done a key
  isClosed : ∀ a, ¬ Attached env A h a → ∀ key, lastSet a key done = none ∧
    slotValue (h.account a) key = Bytes32.zero

/-- Every trie keeps its meaning and every slot its value. -/
structure SameStorage (env : HostEnv) (h h' : Host) : Prop where
  tries : ∀ a m, TrieMeans env (h.account a) m → TrieMeans env (h'.account a) m
  slots : ∀ a key, slotValue (h'.account a) key = slotValue (h.account a) key

theorem SameStorage.trans {h₁ h₂ h₃ : Host} (h12 : SameStorage env h₁ h₂)
    (h23 : SameStorage env h₂ h₃) : SameStorage env h₁ h₃ :=
  ⟨fun a m hm => h23.tries a m (h12.tries a m hm),
    fun a key => (h23.slots a key).trans (h12.slots a key)⟩

theorem SameStorage.of_code (hacc : ∀ a, ∃ code, h'.account a = (h.account a).setCode code) :
    SameStorage env h h' := by
  constructor
  · intro a m hm
    obtain ⟨code, heq⟩ := hacc a
    rw [heq]
    exact hm
  · intro a key
    obtain ⟨code, heq⟩ := hacc a
    rw [heq]
    rfl

/-- One account is replaced by one with the same meaning and slots. -/
theorem SameStorage.of_set {addr : Address} (htrie : ∀ m, TrieMeans env (h.account addr) m →
      TrieMeans env acc m)
    (hslot : ∀ key, slotValue acc key = slotValue (h.account addr) key) :
    SameStorage env h (h.setAccount addr acc) := by
  constructor
  · intro a m hm
    rw [setAccount_account]
    split_ifs with ha
    · subst ha; exact htrie m hm
    · exact hm
  · intro a key
    rw [setAccount_account]
    split_ifs with ha
    · subst ha; exact hslot key
    · rfl

theorem recordAccountAccess_sameStorage (h : Host) (addr : Address) :
    SameStorage env h (recordAccountAccess env h addr) :=
  .of_code fun a => recordAccountAccess_account h addr a

/-- An event that writes nothing and keeps storage and `loadContract`. -/
theorem StorageOk.frame {done : List Event} {e : Event} (hok : StorageOk env A done h)
    (he : ∀ a key, e.writes a key = none) (hload : h'.loadContract = h.loadContract)
    (hsame : SameStorage env h h') : StorageOk env A (done ++ [e]) h' := by
  have hlast : ∀ a key, lastSet a key (done ++ [e]) = lastSet a key done := by
    intro a key
    rw [lastSet_concat, he, Option.none_or]
  constructor
  · intro a hatt
    rw [Attached, hload] at hatt
    obtain ⟨m, hm, hans⟩ := hok.isOpen a hatt
    refine ⟨m, hsame.tries a m hm, fun key => ?_⟩
    rw [expectedWord, hlast, answer, hsame.slots]
    exact hans key
  · intro a hatt key
    rw [Attached, hload] at hatt
    rw [hlast, hsame.slots]
    exact hok.isClosed a hatt key

/-! ### One step -/

theorem getStorage_sound {done : List Event} (hok : StorageOk env A done h) (ha : Attached env A h a)
    (key : Bytes32) : ∃ v h', getStorage env h a key = some (v, h') ∧
      StorageOk env A (done ++ [.getStorage a key]) h' := by
  obtain ⟨m, hm, -⟩ := hok.isOpen a ha
  have hrec : SameStorage env h (recordAccountAccess env h a) := recordAccountAccess_sameStorage h a
  have hm' := hrec.tries a m hm
  obtain ⟨v, h', hget, hsame⟩ : ∃ v h', getStorage env h a key = some (v, h') ∧
      SameStorage env (recordAccountAccess env h a) h' := by
    simp only [getStorage]
    cases hacc : (recordAccountAccess env h a).accounts a with
    | none => exact ⟨_, _, rfl, fun a m hm => hm, fun a key => rfl⟩
    | some acc =>
      have heq : (recordAccountAccess env h a).account a = acc := by simp [Host.account, hacc]
      rw [heq] at hm'
      obtain ⟨acc', hget, -, hstorage⟩ := trieGetOf_spec hm' key
      refine ⟨_, _, by dsimp only; rw [hget]; rfl, .of_set (fun m₂ hm₂ => ?_) fun k => ?_⟩
      · rw [heq] at hm₂
        obtain ⟨acc₂, hget₂, hmean, -⟩ := trieGetOf_spec hm₂ key
        rw [hget] at hget₂
        obtain ⟨-, rfl⟩ := Prod.mk.inj (Option.some.inj hget₂)
        exact hmean
      · rw [heq, slotValue, hstorage]
        rfl
  refine ⟨v, h', hget, hok.frame (fun _ _ => rfl) ?_ (hrec.trans hsame)⟩
  exact congrArg Books.loadContract (getStorage_toBooks hget)

/-- After the trie write of `set_storage` the slot holds the value, and the others are as before. -/
theorem writeTrie_spec {m : Meaning} (hm : TrieMeans env acc m) (key value : Bytes32) :
    ∃ acc' m', writeTrie env acc (slotText m key) key value = some acc' ∧ TrieMeans env acc' m' ∧
      acc'.storage = acc.storage ∧ slotText m' key ≠ [] ∧ wordOf (slotText m' key) = value ∧
      ∀ k, k ≠ key → slotText m' k = slotText m k := by
  by_cases hsame : slotText m key ≠ [] ∧ wordOf (slotText m key) = value
  · refine ⟨acc, m, ?_, hm, rfl, hsame.1, hsame.2, fun _ _ => rfl⟩
    rw [writeTrie, if_pos hsame]
  · obtain ⟨acc', m', hupd, hm', hstorage, htext⟩ := trieUpdateOf_spec hm key value
    have hkey := htext key
    rw [if_pos rfl] at hkey
    refine ⟨acc', m', ?_, hm', hstorage, ?_, ?_, fun k hk => ?_⟩
    · rw [writeTrie, if_neg hsame, hupd]
    · rw [hkey]; exact toHex_ne_nil value
    · rw [hkey, wordOf_toHex]
    · rw [htext, if_neg hk]

theorem slotValue_set (acc : TfsAccount) {key k : Bytes32} (slot : StorageValue) (hk : k ≠ key) :
    slotValue { acc with storage := acc.storage.set key slot } k = slotValue acc k := by
  simp only [slotValue, StdMap.set_ne _ _ hk]

theorem setStorage_sound {done : List Event} (hok : StorageOk env A done h) (ha : Attached env A h a)
    (key value : Bytes32) : ∃ st h', setStorage env h a key value = some (st, h') ∧
      StorageOk env A (done ++ [.setStorage a key value]) h' := by
  obtain ⟨m, hm, hans⟩ := hok.isOpen a ha
  have hrec : SameStorage env h (recordAccountAccess env h a) := recordAccountAccess_sameStorage h a
  obtain ⟨acc₁, hget, hm₁, hst₁⟩ := trieGetOf_spec (hrec.tries a m hm) key
  obtain ⟨acc₂, m₂, hwrite, hm₂, hst₂, hne, hword, hothers⟩ := writeTrie_spec hm₁ key value
  refine ⟨_, _, by simp only [setStorage, hget, hwrite, Option.bind_eq_bind, Option.bind_some]; rfl,
    ?_⟩
  have hbooks : (recordAccountAccess env h a).loadContract = h.loadContract :=
    congrArg Books.loadContract (recordAccountAccess_toBooks h a)
  constructor
  · intro b hb
    have hb' : Attached env A h b := by
      rwa [Attached, ← hbooks]
    rw [setAccount_account]
    split_ifs with hba
    · subst hba
      refine ⟨m₂, hm₂, fun k => ?_⟩
      rw [expectedWord_set]
      split_ifs with hk
      · obtain rfl := hk.2
        rw [answer, if_pos hne, hword]
      · have hk' : k ≠ key := fun heq => hk ⟨rfl, heq.symm⟩
        rw [answer, hothers k hk', slotValue_set acc₂ _ hk', slotValue, hst₂, hst₁, ← slotValue,
          hrec.slots]
        exact hans k
    · obtain ⟨m', hm', hans'⟩ := hok.isOpen b hb'
      refine ⟨m', hrec.tries b m' hm', fun k => ?_⟩
      rw [expectedWord_set, if_neg fun heq => hba heq.1.symm, answer, hrec.slots]
      exact hans' k
  · intro b hb k
    have hb' : ¬ Attached env A h b := by
      rwa [Attached, ← hbooks]
    have hba : b ≠ a := by
      rintro rfl
      exact hb' ha
    rw [setAccount_account, if_neg hba, hrec.slots, lastSet_concat, Event.writes,
      if_neg fun h => hba h.1.symm, Option.none_or]
    exact hok.isClosed b hb' k

theorem accessStorage_sameStorage (h : Host) (a : Address) (key : Bytes32) :
    SameStorage env h (accessStorage h a key).2 := by
  refine .of_set (fun m hm => hm) fun k => ?_
  by_cases hk : k = key
  · subst hk
    simp only [slotValue, StdMap.set_self]
    cases (h.account a).storage k <;> rfl
  · exact slotValue_set _ _ hk

theorem selfdestruct_sameStorage (h : Host) (a b : Address) :
    SameStorage env h (selfdestruct env h a b) := by
  have hrec : ∀ h : Host, SameStorage env h (recordAccountAccess env h a) :=
    fun h => recordAccountAccess_sameStorage h a
  have hfirst : SameStorage env h { recordAccountAccess env h a with
      recordedSelfdestructs := (recordAccountAccess env h a).recordedSelfdestructs ++ [⟨a, b⟩] } :=
    ⟨(hrec h).tries, (hrec h).slots⟩
  have hsecond := hfirst.trans (hrec _)
  exact ⟨hsecond.tries, hsecond.slots⟩

/-- Loading a trie returns, keeps the host, or opens the trie of the recipient; it never throws. -/
theorem loadTrie_opened (hcommitted : CommittedOk env) {msg : Message} {newly : Bool}
    (hfind : findCode env h (env.addrString msg.codeAddress) = .inr newly) :
    ∃ r, loadTrie env h msg (env.addrString msg.codeAddress) newly = some r ∧
      ((∃ result, r = .inl result) ∨ r = .inr h ∨ newly = false ∧ ∃ acc, Loads env h msg acc ∧
        r = .inr (h.attach msg.recipient acc (env.addrString msg.codeAddress))) := by
  rw [loadTrie]
  split_ifs with hcond
  · obtain ⟨hkind, rfl, hnot⟩ := hcond
    cases hroot : env.contractRootHash (env.addrString msg.codeAddress) with
    | none => exact ⟨_, rfl, .inl ⟨_, rfl⟩⟩
    | some rootHash =>
      obtain ⟨acc₀, m, hfresh, -⟩ := hcommitted _ _ hroot
      have hopen := createTrie_eq hfresh (h.account msg.recipient)
      refine ⟨_, by dsimp only; rw [hopen]; rfl, .inr (.inr ⟨rfl, _, ?_, rfl⟩)⟩
      exact ⟨hkind, findCode_false hfind, hnot, rootHash, hroot, hopen⟩
  · exact ⟨_, rfl, .inr (.inl rfl)⟩

/-- What preparing a call does: nothing to storage, or it opens the trie of the recipient. -/
theorem callPrepare_opened (hcommitted : CommittedOk env) (h : Host) (msg : Message) :
    ∃ h' entry, callPrepare env h msg = some (h', entry) ∧ (h' = h ∨
      ∃ acc, msg.input ≠ [] ∧ env.callPrecompile msg = none ∧
        findCode env h (env.addrString msg.codeAddress) = .inr false ∧ Loads env h msg acc ∧
        h' = h.attach msg.recipient acc (env.addrString msg.codeAddress)) := by
  simp only [callPrepare]
  by_cases hin : msg.input = []
  · rw [if_pos hin]
    exact ⟨_, _, rfl, .inl rfl⟩
  rw [if_neg hin]
  cases hpre : env.callPrecompile msg with
  | some result => exact ⟨_, _, rfl, .inl rfl⟩
  | none =>
    cases hfind : findCode env h (env.addrString msg.codeAddress) with
    | inl result => exact ⟨_, _, rfl, .inl rfl⟩
    | inr newly =>
      obtain ⟨r, hr, hcases⟩ := loadTrie_opened hcommitted hfind
      simp only [hr]
      -- whether a machine can be made does not matter: the trie is open by then
      have hentry : ∀ h' : Host, ∃ entry, (if env.evmInstance then some (h', Entry.execute)
          else some (h', .returned (plainResult .failure))) = some (h', entry) := by
        intro h'
        split_ifs
        · exact ⟨_, rfl⟩
        · exact ⟨_, rfl⟩
      rcases hcases with ⟨result, rfl⟩ | rfl | ⟨rfl, acc, hloads, rfl⟩
      · exact ⟨_, _, rfl, .inl rfl⟩
      · obtain ⟨entry, he⟩ := hentry h
        exact ⟨h, entry, he, .inl rfl⟩
      · obtain ⟨entry, he⟩ := hentry (h.attach msg.recipient acc (env.addrString msg.codeAddress))
        exact ⟨_, entry, he, .inr ⟨acc, hin, trivial, rfl, hloads, rfl⟩⟩

/-- What the entry of a call that creates nothing does to storage: nothing, or it opens the trie of the
    recipient. -/
theorem callEnter_opened (hcommitted : CommittedOk env) {msg : Message} (hn : ¬ msg.creates) :
    ∃ h' entry, callEnter env h msg = some (h', entry) ∧
      ((SameStorage env h h' ∧ h'.loadContract = h.loadContract) ∨
        ∃ acc h₁, Opens env h msg acc ∧ SameStorage env h h₁ ∧ h₁.loadContract = h.loadContract ∧
          h' = h₁.attach msg.recipient ((h₁.account msg.recipient).withTrie acc.storageRoot)
            (env.addrString msg.codeAddress)) := by
  have hrec : SameStorage env h (recordAccountAccess env h msg.recipient) :=
    recordAccountAccess_sameStorage h msg.recipient
  have hbooks : (recordAccountAccess env h msg.recipient).toBooks = h.toBooks :=
    recordAccountAccess_toBooks h msg.recipient
  simp only [callEnter, payee_of_not_creates hn]
  generalize recordAccountAccess env h msg.recipient = h₀ at hrec hbooks
  have hload : h₀.loadContract = h.loadContract := congrArg Books.loadContract hbooks
  have hgone : h₀.recordedSelfdestructs = h.recordedSelfdestructs :=
    congrArg Books.recordedSelfdestructs hbooks
  rw [hgone]
  by_cases hd : h.recordedSelfdestructs.any (fun item => item.selfdestructed = msg.codeAddress) = true
  · rw [if_pos hd]
    exact ⟨_, _, rfl, .inl ⟨hrec, hload⟩⟩
  have hkinds : ¬ (msg.kind = .create ∨ msg.kind = .create2) := hn
  rw [if_neg hd, if_neg hkinds]
  rcases htr : h₀.transfer env msg.amount (env.addrString msg.sender) (env.addrString msg.codeAddress)
    with ⟨h₁, ok⟩
  obtain ⟨coins, spend, rfl⟩ := transfer_frame htr
  cases ok with
  | false => exact ⟨_, _, rfl, .inl ⟨⟨hrec.tries, hrec.slots⟩, hload⟩⟩
  | true =>
    obtain ⟨h', entry, hprep, hcases⟩ := callPrepare_opened hcommitted
      { h₀ with coinTransferrings := coins, dbSpendMap := spend } msg
    refine ⟨h', entry, hprep, ?_⟩
    rcases hcases with rfl | ⟨acc, hin, hpre, hfind, hloads, rfl⟩
    · exact .inl ⟨⟨hrec.tries, hrec.slots⟩, hload⟩
    · obtain ⟨hkind, hcreated, hnot, rootHash, hroot, hcreate⟩ := hloads
      obtain ⟨acc₀, m, hfresh, -⟩ := hcommitted _ _ hroot
      obtain rfl := Option.some.inj ((createTrie_eq hfresh _).symm.trans hcreate)
      refine .inr ⟨(h.account msg.recipient).withTrie acc₀.storageRoot,
        { h₀ with coinTransferrings := coins, dbSpendMap := spend }, ⟨?_, ?_, hin, hpre, ?_, hkind, ?_,
          ?_, rootHash, hroot, createTrie_eq hfresh _⟩, ⟨hrec.tries, hrec.slots⟩, hload, rfl⟩
      · intro hdes
        exact hd (by simpa [Destroyed] using hdes)
      · rw [← transfer_ok_congr (congrArg Books.coinTransferrings hbooks)
          (congrArg Books.dbSpendMap hbooks), htr]
      · have hmap : h₀.createdContract = h.createdContract := congrArg Books.createdContract hbooks
        simp only [findCode, hmap] at hfind ⊢
        exact hfind
      · have hmap : h₀.createdContract = h.createdContract := congrArg Books.createdContract hbooks
        rw [← hmap]
        exact hcreated
      · rw [← hload]
        exact hnot

/-- The entry of a sound call. -/
theorem enter_sound (hcommitted : CommittedOk env) {done : List Event} (hok : StorageOk env A done h)
    {msg : Message} (hs : SoundStep env A h (.enter msg)) : ∃ h' entry,
      callEnter env h msg = some (h', entry) ∧ StorageOk env A (done ++ [.enter msg]) h' := by
  obtain ⟨hn, hcode, hkeep⟩ := hs
  obtain ⟨h', entry, hc, ⟨hsame, hload⟩ | ⟨acc, h₁, hopens, hsame, hload, rfl⟩⟩ :=
    @callEnter_opened env h hcommitted msg hn
  · exact ⟨h', entry, hc, hok.frame (fun _ _ => rfl) hload hsame⟩
  refine ⟨_, entry, hc, ?_⟩
  obtain ⟨hkind, -, hnot, rootHash, hroot, hcreate⟩ := hopens.2.2.2.2.2
  rw [← hcode hkind] at hnot hroot hcreate ⊢
  obtain ⟨acc₀, m₀, hfresh, hm₀⟩ := hcommitted _ _ hroot
  obtain rfl := Option.some.inj ((createTrie_eq hfresh _).symm.trans hcreate)
  rw [TfsAccount.withTrie_storageRoot]
  have hlast : ∀ a key, lastSet a key (done ++ [.enter msg]) = lastSet a key done := by
    intro a key
    rw [lastSet_concat]
    rfl
  -- which contracts are open after the call, and with which account
  have hatt : ∀ a, Attached env A (h₁.attach msg.recipient
      ((h₁.account msg.recipient).withTrie acc₀.storageRoot) (env.addrString msg.recipient)) a ↔
      Attached env A h a ∨ a = msg.recipient := by
    intro a
    simp only [Attached, Host.attach, Host.setAccount, hload, List.mem_append, List.mem_singleton,
      or_assoc]
    refine or_congr_right (or_congr_right ⟨fun heq => ?_, fun heq => by rw [heq]⟩)
    exact evmAddrToString_injective _ heq
  have hacc : ∀ a, (h₁.attach msg.recipient ((h₁.account msg.recipient).withTrie acc₀.storageRoot)
      (env.addrString msg.recipient)).account a = if a = msg.recipient then
        (h₁.account msg.recipient).withTrie acc₀.storageRoot else h₁.account a :=
    fun a => setAccount_account h₁ msg.recipient a _
  constructor
  · intro a ha
    rw [hatt] at ha
    rw [hacc]
    split_ifs with hrec
    · subst hrec
      refine ⟨m₀, hm₀.withTrie _, fun key => ?_⟩
      have hslot : slotValue ((h₁.account msg.recipient).withTrie acc₀.storageRoot) key
          = slotValue (h.account msg.recipient) key := hsame.slots msg.recipient key
      rw [answer, hslot, expectedWord, hlast]
      by_cases hA : msg.recipient = A
      · obtain ⟨m, hm, hans⟩ := hok.isOpen A (.inl rfl)
        have hsaved := hkeep hA _ hopens key
        rw [answerOf_eq (hm₀.withTrie _), answerOf_eq hm, hans key] at hsaved
        rw [hA] at hsaved ⊢
        exact hsaved
      · obtain ⟨hnone, hzero⟩ := hok.isClosed msg.recipient (fun hatt => hatt.elim hA hnot) key
        rw [hnone, hzero]
        simp only [committedWord, hroot, hfresh, Option.bind_some]
        rw [createTrie_eq hfresh, Option.some.injEq] at hfresh
        rw [answerOf_eq hm₀, ← hfresh]
        rfl
    · obtain ⟨m, hm, hans⟩ := hok.isOpen a (ha.resolve_right hrec)
      refine ⟨m, hsame.tries a m hm, fun key => ?_⟩
      rw [expectedWord, hlast, answer, hsame.slots]
      exact hans key
  · intro a ha key
    rw [hatt, not_or] at ha
    rw [hlast, hacc, if_neg ha.2, hsame.slots]
    exact hok.isClosed a ha.1 key

/-! ### Whole runs -/

/-- One sound step goes through and keeps storage as expected. -/
theorem step_sound (hcommitted : CommittedOk env) {done : List Event} (hok : StorageOk env A done h)
    {e : Event} (hs : SoundStep env A h e) :
    ∃ h', step env false h e = some h' ∧ StorageOk env A (done ++ [e]) h' := by
  cases e with
  | accountAccess addr =>
    refine ⟨_, rfl, hok.frame (fun _ _ => rfl) ?_ (recordAccountAccess_sameStorage h addr)⟩
    exact congrArg Books.loadContract (recordAccountAccess_toBooks h addr)
  | getStorage addr key =>
    obtain ⟨v, h', hget, hok'⟩ := getStorage_sound hok hs key
    exact ⟨h', by rw [step, hget]; rfl, hok'⟩
  | setStorage addr key value =>
    obtain ⟨st, h', hset, hok'⟩ := setStorage_sound hok hs key value
    exact ⟨h', by rw [step, hset]; rfl, hok'⟩
  | accessStorage addr key =>
    exact ⟨_, rfl, hok.frame (fun _ _ => rfl) rfl (accessStorage_sameStorage h addr key)⟩
  | selfdestruct addr beneficiary =>
    have hload := congrArg Books.loadContract (@selfdestruct_toBooks env h addr beneficiary)
    exact ⟨_, rfl, hok.frame (fun _ _ => rfl) hload (selfdestruct_sameStorage h addr beneficiary)⟩
  | emitLog log =>
    exact ⟨_, rfl, hok.frame (fun _ _ => rfl) rfl ⟨fun _ _ hm => hm, fun _ _ => rfl⟩⟩
  | enter msg =>
    obtain ⟨h', entry, hc, hok'⟩ := enter_sound hcommitted hok hs
    exact ⟨h', by rw [step_enter, hc]; rfl, hok'⟩
  | created contractAddress output => exact hs.elim

theorem run_sound (hcommitted : CommittedOk env) : ∀ (es done : List Event) {h : Host},
    StorageOk env A done h → SoundRun env A h es →
    ∃ h', runEvents env false h es = some h' ∧ StorageOk env A (done ++ es) h'
  | [], done, h, hok, _ => ⟨h, rfl, by rwa [List.append_nil]⟩
  | e :: es, done, h, hok, hs => by
    obtain ⟨h₁, hstep, hok₁⟩ := step_sound hcommitted hok hs.1
    obtain ⟨h', hrun, hok'⟩ := run_sound hcommitted es (done ++ [e]) hok₁ (hs.2 h₁ hstep)
    rw [List.append_assoc, List.singleton_append] at hok'
    exact ⟨h', by rw [runEvents, hstep, Option.bind_some, hrun], hok'⟩

/-- A host made for a call of `A` has the trie of `A` open, as committed. -/
theorem makeHost_storageOk (hcommitted : CommittedOk env) {sender code : Str} {amount : UInt64}
    (hm : makeHost env .callContract sender (env.addrString A) amount code = .ok h) :
    StorageOk env A [] h := by
  obtain ⟨acc, rootHash, hbooks, hroot, ⟨c, hcreate⟩, hacc⟩ := makeHost_ok hm
  have hload : h.loadContract = [] := congrArg Books.loadContract hbooks
  have hatt : ∀ a, Attached env A h a ↔ a = A := by
    intro a
    rw [Attached, hload]
    simp
  have haddr : stringToEvmAddr (env.addrString A) = A := stringToEvmAddr_evmAddrToString _ A
  rw [haddr] at hacc
  obtain ⟨acc₀, m, hfresh, hm₀⟩ := hcommitted A rootHash (hroot rfl)
  obtain rfl := Option.some.inj ((createTrie_eq hfresh _).symm.trans hcreate)
  constructor
  · intro a ha
    obtain rfl := (hatt a).mp ha
    rw [hacc, if_pos rfl]
    refine ⟨m, hm₀.withTrie _, fun key => ?_⟩
    simp only [expectedWord, lastSet, List.reverse_nil, List.findSome?_nil, committedWord, hroot rfl,
      hfresh, Option.bind_some]
    rw [createTrie_eq hfresh, Option.some.injEq] at hfresh
    rw [answerOf_eq hm₀, ← hfresh]
    rfl
  · intro a ha key
    rw [hacc, if_neg fun heq => ha ((hatt a).mpr heq)]
    exact ⟨rfl, rfl⟩

/-- From a host made for a call of `A`, after every sound run `get_storage` answers, for every contract
    whose trie is open, the last value written in the run, else the committed one. -/
theorem storage_is_map (env : HostEnv) (hcommitted : CommittedOk env) (A : Address)
    (sender code : Str) (amount : UInt64) (h : Host)
    (hmake : makeHost env .callContract sender (env.addrString A) amount code = .ok h)
    (es : List Event) (hsound : SoundRun env A h es) :
    ∃ h', runEvents env false h es = some h' ∧ ∀ a, Attached env A h' a → ∀ key,
      (getStorage env h' a key).map Prod.fst = expectedWord env es a key := by
  obtain ⟨h', hrun, hok⟩ := run_sound hcommitted es [] (makeHost_storageOk hcommitted hmake) hsound
  refine ⟨h', hrun, fun a ha key => ?_⟩
  obtain ⟨m, hm, hans⟩ := hok.isOpen a ha
  rw [getStorage_answer, answerOf_eq hm]
  exact hans key

/-- The word that ends in `b`. -/
def sampleWord (b : UInt8) : Bytes32 := ⟨List.replicate 31 0 ++ [b], rfl⟩

/-- A trie of one leaf: the first slot holds one. -/
def sampleLeaf : Node :=
  .short (wapperKey (Rlp.toHex Bytes32.zero.1)) (.value (Rlp.toHex (sampleWord 1).1)) newFlag

/-- The SHA-256 hash of that leaf. -/
def sampleRoot : Str := str "c01239305328283aac3ad1e23665c13e98fd16b0b05c492b209a439da928da18"

/-- The sample world, with that trie committed for the first contract. -/
def sampleStore : HostEnv :=
  { sampleEnv with
    contractRootHash := fun a => some (if a = List.replicate 40 49 then sampleRoot else [])
    mpt := fun k => if k = mptKey (List.replicate 40 49) sampleRoot then
      some (hexEncode Rlp.rlp sampleLeaf) else none }

/-- A stored leaf reads back as a leaf that is not new. -/
theorem parse_leaf {c : Rlp.Codec} (hc : c.Lawful) {hash k d : Str} (hk : hasTerm k) (fl : NodeFlag) :
    (c.parse (Rlp.fromHex (hexEncode c (.short k (.value d) fl)))).map (decodeNode c hash)
      = some (.short k (.value d) ⟨hash, false⟩) := by
  have hparse : c.parse (c.out (encode c (.short k (.value d) fl)))
      = some (encode c (.short k (.value d) fl)) := hc.parse_list 2 _
  rw [hexEncode, Rlp.fromHex_toHex, hparse, Option.map_some, decodeNode_leaf hc hk]

theorem sampleStore_committedOk : CommittedOk sampleStore := by
  intro a rootHash hroot
  have hr : (if sampleStore.addrString a = List.replicate 40 49 then sampleRoot else []) = rootHash :=
    Option.some.inj hroot
  split_ifs at hr with ha
  · subst hr
    have hvalue : (sampleStore.trieEnv (List.replicate 40 49)).mptValue sampleRoot
        = hexEncode Rlp.rlp sampleLeaf := by
      simp [TrieEnv.mptValue, HostEnv.trieEnv, sampleStore, sampleEnv]
    have hopen : descendKey (sampleStore.trieEnv (List.replicate 40 49)) sampleRoot
        = some (.short (wapperKey (Rlp.toHex Bytes32.zero.1)) (.value (Rlp.toHex (sampleWord 1).1))
          ⟨sampleRoot, false⟩) := by
      have hcodec : (sampleStore.trieEnv (List.replicate 40 49)).codec = Rlp.rlp := rfl
      have hterm : hasTerm (wapperKey (Rlp.toHex Bytes32.zero.1)) = true := by
        simp only [hasTerm, wapperKey, List.getLast?_append, List.getLast?_cons_cons,
          List.getLast?_singleton, Option.some_or, decide_true]
      rw [descendKey, hvalue, if_neg (hexEncode_ne_nil Rlp.rlp_lawful _), hcodec, sampleLeaf,
        parse_leaf Rlp.rlp_lawful hterm]
    rw [ha]
    have hcreate : TfsAccount.fresh.createTrie sampleStore sampleRoot (List.replicate 40 49)
        = some (TfsAccount.fresh.withTrie ⟨List.replicate 40 49, .short
          (wapperKey (Rlp.toHex Bytes32.zero.1)) (.value (Rlp.toHex (sampleWord 1).1))
          ⟨sampleRoot, false⟩⟩) := by
      rw [TfsAccount.createTrie, if_neg (by decide), hopen]
      rfl
    exact ⟨_, _, hcreate, _, _, _, resolves_memory _, fun _ _ _ => trivial,
      .leaf ((hexKey_toHex Bytes32.zero).wapperKey (by omega)) trivial⟩
  · exact ⟨_, _, by rw [TfsAccount.createTrie, if_pos hr.symm], trieMeans_null _ _ _⟩

/-- The first contract writes two into its first slot and calls the second contract. -/
theorem storage_is_map_other_call : ∃ h h', makeHost sampleStore .callContract (str "s")
      (sampleStore.addrString (sampleAddr 17)) 0 (str "c") = .ok h ∧
    runEvents sampleStore false h [.setStorage (sampleAddr 17) Bytes32.zero (sampleWord 2),
      .enter (sampleCall 17 34 0 [1])] = some h' ∧
    (getStorage sampleStore h' (sampleAddr 17) Bytes32.zero).map Prod.fst = some (sampleWord 2) := by
  obtain ⟨h, hmake, -⟩ : ∃ h, makeHost sampleStore .callContract (str "s")
      (sampleStore.addrString (sampleAddr 17)) 0 (str "c") = .ok h ∧ h.nonceCache = 0 :=
    ok_of_eval (by decide +kernel)
  obtain ⟨h', hrun, hget⟩ := storage_is_map sampleStore sampleStore_committedOk (sampleAddr 17) _ _ _ h
    hmake [.setStorage (sampleAddr 17) Bytes32.zero (sampleWord 2), .enter (sampleCall 17 34 0 [1])]
    ⟨.inl rfl, fun _ _ => ⟨⟨by simp [Message.creates, sampleCall], fun _ => rfl,
      fun heq => absurd heq (by decide)⟩, fun _ _ => trivial⟩⟩
  exact ⟨h, h', hmake, hrun, hget _ (.inl rfl) _⟩

/-- A contract that writes its slot and is then called again reads the committed value. -/
theorem storage_loses_write : ∃ h h', makeHost sampleStore .callContract (str "s")
      (sampleStore.addrString (sampleAddr 17)) 0 (str "c") = .ok h ∧
    runEvents sampleStore false h [.setStorage (sampleAddr 17) Bytes32.zero (sampleWord 2),
      .enter (sampleCall 17 17 0 [1])] = some h' ∧
    (getStorage sampleStore h' (sampleAddr 17) Bytes32.zero).map Prod.fst = some (sampleWord 1) ∧
    expectedWord sampleStore [.setStorage (sampleAddr 17) Bytes32.zero (sampleWord 2),
      .enter (sampleCall 17 17 0 [1])] (sampleAddr 17) Bytes32.zero = some (sampleWord 2) := by
  obtain ⟨h', hrun, hget⟩ : ∃ h', ((makeHost sampleStore .callContract (str "s")
      (sampleStore.addrString (sampleAddr 17)) 0 (str "c")).toOption.bind fun h =>
        runEvents sampleStore false h [.setStorage (sampleAddr 17) Bytes32.zero (sampleWord 2),
          .enter (sampleCall 17 17 0 [1])]) = some h' ∧
      (getStorage sampleStore h' (sampleAddr 17) Bytes32.zero).map Prod.fst = some (sampleWord 1) :=
    Option.map_eq_some_iff.mp (by decide +kernel)
  obtain ⟨h, hmake, hrun⟩ := Option.bind_eq_some_iff.mp hrun
  exact ⟨h, h', toOption_eq_some.mp hmake, hrun, hget, by decide⟩

end Tfs.Evm
