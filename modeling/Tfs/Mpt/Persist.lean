import Tfs.Mpt.Walk

/-! `Save` and the store: a trie written out and opened again answers as before.

    A hash stands for the text it was taken of, and a text for the node it encodes; as long as no two
    texts that were hashed share a hash, this gives every hash at most one meaning (`Den`). `hash`
    hands out hashes with the meaning of their nodes, `Commit` writes under each of them a node that
    has that meaning and refers to stored hashes only, and so the store resolves every hash it holds
    after any number of rounds. -/

namespace Tfs.Mpt
open Tfs.Rlp

variable {sha : Str → Str} {c : Codec} {S : Set Str}

/-! ### What a hash stands for -/

/-- `Den sha c S K L n m`: the node `n`, whose hashes are hashes of texts in `S`, means `m`. -/
inductive Den (sha : Str → Str) (c : Codec) (S : Set Str) : Kind → ℕ → Node → Meaning → Prop
  | null (L : ℕ) : Den sha c S .null L .null fun _ => none
  | leaf {L : ℕ} {k d : Str} {fl : NodeFlag} : Suffix L k →
      Den sha c S .short L (.short k (.value d) fl) (below k fun _ => some d)
  | ext {L : ℕ} {k : Str} {n : Node} {m : Meaning} {fl : NodeFlag} : (∀ x ∈ k, isHexChar x) →
      Den sha c S .branch L n m → Den sha c S .short (k.length + L) (.short k n fl) (below k m)
  | full {L : ℕ} {K : Fin 17 → Kind} {ch : Fin 17 → Node} {ms : Fin 17 → Meaning} {fl : NodeFlag} :
      1 ≤ L → (∀ i, Den sha c S (K i) L (ch i) (ms i)) → K 16 = .null → (∃ i, K i ≠ .null) →
      Den sha c S .branch (L + 1) (.full ch fl) (branchOf ms)
  | hash {K : Kind} {L : ℕ} {n : Node} {m : Meaning} : hexEncode c n ∈ S → n.isLoaded →
      Den sha c S K L n m → Den sha c S K L (.hash (toHash sha c n)) m

theorem Den.eq_null {L : ℕ} {n : Node} {m : Meaning} (h : Den sha c S .null L n m) :
    n = .null ∧ m = fun _ => none := by
  generalize hK : Kind.null = K at h
  induction h with
  | null => exact ⟨rfl, rfl⟩
  | leaf => cases hK
  | ext => cases hK
  | full => cases hK
  | hash _ hload _ ih =>
    obtain ⟨rfl, -⟩ := ih hK
    cases hload

theorem Den.hash_length (hlen : ∀ x, (sha x).length = 64) {K : Kind} {L : ℕ} {h : Str} {m : Meaning}
    (hd : Den sha c S K L (.hash h) m) : h.length = 64 := by
  cases hd with
  | hash => exact hlen _

/-- The encoding of a node is a string or a list of strings, so the written form determines it. -/
theorem encode_inj (hc : c.Lawful) {n n' : Node} (h : c.out (encode c n) = c.out (encode c n')) :
    encode c n = encode c n' := by
  have hform : ∀ n, (∃ b, encode c n = .data b) ∨
      ∃ (j : ℕ) (f : Fin j → Str), encode c n = .list j fun i => .data (f i) := by
    intro n
    cases n with
    | null => exact .inl ⟨_, rfl⟩
    | value d => exact .inl ⟨_, rfl⟩
    | hash d => exact .inl ⟨_, rfl⟩
    | short k v fl => exact .inr ⟨2, _, rfl⟩
    | full ch fl => exact .inr ⟨17, _, rfl⟩
  rcases hform n with ⟨b, hb⟩ | ⟨j, f, hf⟩ <;> rcases hform n' with ⟨b', hb'⟩ | ⟨j', f', hf'⟩
  · rw [hb, hb'] at h ⊢
    rw [hc.data_inj h]
  · rw [hb, hf'] at h
    exact absurd h hc.data_ne_list
  · rw [hf, hb'] at h
    exact absurd h.symm hc.data_ne_list
  · rw [hf, hf'] at h ⊢
    obtain rfl := hc.list_length_inj h
    rw [hc.list_inj h]

theorem encode_short_inj (hc : c.Lawful) {k k' : Str} {v v' : Node} {fl fl' : NodeFlag}
    (h : encode c (.short k v fl) = encode c (.short k' v' fl')) :
    k = k' ∧ encode c v = encode c v' := by
  simp only [encode, Item.list.injEq, heq_eq_eq, true_and] at h
  have h0 := congrFun h 0
  have h1 := congrFun h 1
  simp only [Item.data.injEq, Matrix.cons_val_zero, Matrix.cons_val_one] at h0 h1
  exact ⟨h0, encode_inj hc h1⟩

theorem encode_full_inj (hc : c.Lawful) {ch ch' : Fin 17 → Node} {fl fl' : NodeFlag}
    (h : encode c (.full ch fl) = encode c (.full ch' fl')) (i : Fin 17) :
    (ch i).isNull = (ch' i).isNull ∧ encode c (ch i) = encode c (ch' i) := by
  simp only [encode, Item.list.injEq, heq_eq_eq, true_and] at h
  have hi := congrFun h i
  simp only [Item.data.injEq] at hi
  cases h1 : (ch i).isNull <;> cases h2 : (ch' i).isNull <;> simp only [h1, h2] at hi
  · exact ⟨rfl, encode_inj hc (by simpa using hi)⟩
  · exact absurd (by simpa using hi) (hc.out_ne_nil _)
  · exact absurd (by simpa using hi) (hc.out_ne_nil _)
  · rw [Node.eq_null h1, Node.eq_null h2]
    exact ⟨rfl, rfl⟩

theorem Suffix.hasTerm {L : ℕ} {k : Str} (h : Suffix L k) : hasTerm k = true := by
  obtain ⟨t, rfl, -, -⟩ := h
  simp [Mpt.hasTerm]

theorem hasTerm_of_hex {k : Str} (h : ∀ x ∈ k, isHexChar x) : hasTerm k = false := by
  rw [hasTerm, decide_eq_false_iff_not]
  intro hlast
  have := h term (List.mem_of_getLast? hlast)
  rw [isHexChar_term] at this
  cases this

/-- Nodes with one encoding have one meaning, when no two hashed texts share a hash. -/
theorem Den.functional (hc : c.Lawful) (hinj : Set.InjOn sha S) {K : Kind} {L : ℕ} {n : Node}
    {m : Meaning} (h : Den sha c S K L n m) : ∀ {K' : Kind} {L' : ℕ} {n' : Node} {m' : Meaning},
      Den sha c S K' L' n' m' → n.isNull = n'.isNull → encode c n = encode c n' →
      K = K' ∧ m = m' ∧ (K ≠ .null → L = L') := by
  induction h with
  | null L =>
    intro K' L' n' m' h' hnull _
    cases h' with
    | null => exact ⟨rfl, rfl, fun h => absurd rfl h⟩
    | leaf => cases hnull
    | ext => cases hnull
    | full => cases hnull
    | hash => cases hnull
  | @leaf L k d fl hk =>
    intro K' L' n' m' h' hnull henc
    cases h' with
    | null => cases hnull
    | @leaf _ k' d' fl' hk' =>
      obtain ⟨rfl, hv⟩ := encode_short_inj hc henc
      simp only [encode, Item.data.injEq] at hv
      rw [hv]
      exact ⟨rfl, rfl, fun _ => hk.length.symm.trans hk'.length⟩
    | ext hhex =>
      obtain ⟨rfl, -⟩ := encode_short_inj hc henc
      have := hk.hasTerm.symm.trans (hasTerm_of_hex hhex)
      cases this
    | full => simp [encode] at henc
    | hash => simp [encode] at henc
  | @ext L k n m fl hk hn ih =>
    intro K' L' n' m' h' hnull henc
    cases h' with
    | null => cases hnull
    | leaf hk' =>
      obtain ⟨rfl, -⟩ := encode_short_inj hc henc
      have := hk'.hasTerm.symm.trans (hasTerm_of_hex hk)
      cases this
    | @ext L'' _ n'' m'' _ _ hn'' =>
      obtain ⟨rfl, hv⟩ := encode_short_inj hc henc
      have hloaded : ∀ {L : ℕ} {n : Node} {m : Meaning}, Den sha c S .branch L n m →
          n.isNull = false := by
        intro L n m h
        cases h <;> rfl
      obtain ⟨-, rfl, hL⟩ := ih hn'' ((hloaded hn).trans (hloaded hn'').symm) hv
      obtain rfl := hL (by simp)
      exact ⟨rfl, rfl, fun _ => rfl⟩
    | full => simp [encode] at henc
    | hash => simp [encode] at henc
  | @full L K ch ms fl hL hch h16 hex ih =>
    intro K' L' n' m' h' hnull henc
    cases h' with
    | null => cases hnull
    | leaf => simp [encode] at henc
    | ext => simp [encode] at henc
    | @full L'' K'' ch'' ms'' _ _ hch'' _ _ =>
      have hkid := fun i => ih i (hch'' i) (encode_full_inj hc henc i).1 (encode_full_inj hc henc i).2
      have hms : ms = ms'' := funext fun i => (hkid i).2.1
      obtain ⟨i, hi⟩ := hex
      rw [hms, (hkid i).2.2 hi]
      exact ⟨rfl, rfl, fun _ => rfl⟩
    | hash => simp [encode] at henc
  | @hash K L n m hS hload hn ih =>
    intro K' L' n' m' h' hnull henc
    cases h' with
    | null => cases hnull
    | leaf => simp [encode] at henc
    | ext => simp [encode] at henc
    | full => simp [encode] at henc
    | @hash _ _ n'' _ hS' hload' hn' =>
      simp only [encode, Item.data.injEq] at henc
      have htext := hinj hS hS' henc
      have hnull : n.isNull = n''.isNull :=
        (Node.isNull_of_isLoaded hload).trans (Node.isNull_of_isLoaded hload').symm
      exact ih hn' hnull (encode_inj hc (toHex_injective htext))

/-! ### Nodes as they are stored -/

/-- A stored node: a leaf, or a node whose children are hashes with a meaning in `R`. -/
inductive Collapsed (R : Str → Kind → ℕ → Meaning → Prop) : Kind → ℕ → Node → Meaning → Prop
  | leaf {L : ℕ} {k d : Str} {fl : NodeFlag} : Suffix L k →
      Collapsed R .short L (.short k (.value d) fl) (below k fun _ => some d)
  | ext {L : ℕ} {k h : Str} {m : Meaning} {fl : NodeFlag} : (∀ x ∈ k, isHexChar x) →
      R h .branch L m → Collapsed R .short (k.length + L) (.short k (.hash h) fl) (below k m)
  | full {L : ℕ} {K : Fin 17 → Kind} {ch : Fin 17 → Node} {ms : Fin 17 → Meaning} {fl : NodeFlag} :
      1 ≤ L → (∀ i, (K i = .null ∧ ch i = .null ∧ ms i = fun _ => none) ∨
        ∃ h, ch i = .hash h ∧ R h (K i) L (ms i)) → K 16 = .null → ch 16 = .null →
      (∃ i, K i ≠ .null) → Collapsed R .branch (L + 1) (.full ch fl) (branchOf ms)

/-- Reading a stored node back gives the node itself, with its store key as clean hash. -/
theorem Collapsed.decode (hc : c.Lawful) {R : Str → Kind → ℕ → Meaning → Prop}
    {F : NodeFlag → Kind → ℕ → Meaning → Prop} (hR : ∀ h K L m, R h K L m → h.length = 64)
    {K : Kind} {L : ℕ} {n : Node} {m : Meaning} (hn : Collapsed R K L n m) {hash : Str}
    (hF : F ⟨hash, false⟩ K L m) :
    ∃ n', (c.parse (c.out (encode c n))).map (decodeNode c hash) = some n' ∧ n'.isLoaded ∧
      Rep R F K L n' m := by
  cases hn with
  | @leaf L k d fl hk =>
    refine ⟨.short k (.value d) ⟨hash, false⟩, ?_, rfl, .leaf hk hF⟩
    rw [show encode c (.short k (.value d) fl) = .list 2 fun i => .data _ from rfl, hc.parse_list]
    exact congrArg some (decodeNode_leaf hc hk.hasTerm fl)
  | @ext L k h m fl hk hh =>
    refine ⟨.short k (.hash h) ⟨hash, false⟩, ?_, rfl, .ext hk (.hash hh) hF⟩
    rw [show encode c (.short k (.hash h) fl) = .list 2 fun i => .data _ from rfl, hc.parse_list]
    exact congrArg some (decodeNode_ext hc (hasTerm_of_hex hk) (hR _ _ _ _ hh) fl)
  | @full L K ch ms fl hL hch h16 hch16 hex =>
    refine ⟨.full ch ⟨hash, false⟩, ?_, rfl, .full hL (fun i => ?_) h16 hex hF⟩
    · rw [show encode c (.full ch fl) = .list 17 fun i => .data _ from rfl, hc.parse_list]
      refine congrArg some (decodeNode_full hc (fun i => ?_) hch16 fl)
      rcases hch i with ⟨-, hi, -⟩ | ⟨h, hi, hh⟩
      · exact .inl hi
      · exact .inr ⟨h, hR _ _ _ _ hh, hi⟩
    · rcases hch i with ⟨hK, hi, hm⟩ | ⟨h, hi, hh⟩
      · rw [hK, hi, hm]; exact .null L
      · rw [hi]; exact .hash hh

/-! ### Save -/

/-- A hash with a meaning that is among the hashes `A`. -/
def Known (sha : Str → Str) (c : Codec) (S A : Set Str) (h : Str) (K : Kind) (L : ℕ) (m : Meaning) :
    Prop := Den sha c S K L (.hash h) m ∧ h ∈ A

/-- Flags are new, or carry the hash of the node's meaning. -/
def FlagOk (sha : Str → Str) (c : Codec) (S A : Set Str) (fl : NodeFlag) (K : Kind) (L : ℕ)
    (m : Meaning) : Prop :=
  fl = newFlag ∨ fl.dirty = false ∧ Known sha c S A fl.hash K L m

/-- An entry that stores, under a hash, a node with the meaning of the hash. -/
def GoodEntry (sha : Str → Str) (c : Codec) (S A : Set Str) (e : Str × Str) : Prop :=
  ∃ K L m n, Den sha c S K L (.hash e.1) m ∧ e.2 = hexEncode c n ∧
    Collapsed (Known sha c S A) K L n m

/-- What `hash` and then `Commit` do at a well-formed node; `A` are the hashes the store knows
    afterwards. -/
structure SaveSpec (sha : Str → Str) (c : Codec) (S A : Set Str) (K : Kind) (L : ℕ) (n : Node)
    (m : Meaning) : Prop where
  same : Den sha c S K L (hashNode sha c n).1 m
  stands : (K = .null ∧ (hashNode sha c n).2 = .null ∧ m = fun _ => none) ∨
    ∃ h, (hashNode sha c n).2 = .hash h ∧ Known sha c S A h K L m
  root : (commit c (hashNode sha c n).1).1 = (hashNode sha c n).2
  entries : ∀ e ∈ (commit c (hashNode sha c n).1).2, GoodEntry sha c S A e

theorem Rep.den {A : Set Str} {F : NodeFlag → Kind → ℕ → Meaning → Prop} {K : Kind} {L : ℕ} {n : Node}
    {m : Meaning} (h : Rep (Known sha c S A) F K L n m) : Den sha c S K L n m := by
  induction h with
  | null L => exact .null L
  | leaf hk _ => exact .leaf hk
  | ext hk _ _ ih => exact .ext hk ih
  | full hL _ h16 hex _ ih => exact .full hL ih h16 hex
  | hash hh => exact hh.1

section SaveStep

variable {A B : Set Str} (hlen : ∀ x, (sha x).length = 64)

include hlen in
theorem Known.ne_nil {h : Str} {K : Kind} {L : ℕ} {m : Meaning} (hk : Known sha c S A h K L m) :
    h ≠ [] := by
  rintro rfl
  have := hk.1.hash_length hlen
  simp at this

include hlen in
/-- A clean node is left alone: its hash is known and nothing is written. -/
theorem save_clean (hBA : B ⊆ A) {K : Kind} {L : ℕ} {n : Node} {m : Meaning} {fl : NodeFlag}
    (hn : Den sha c S K L n m) (hfl : fl.dirty = false ∧ Known sha c S B fl.hash K L m)
    (hform : (∃ k v, n = .short k v fl) ∨ ∃ ch, n = .full ch fl) : SaveSpec sha c S A K L n m := by
  have hne := hfl.2.ne_nil hlen
  have hhash : hashNode sha c n = (n, .hash fl.hash) := by
    rcases hform with ⟨k, v, rfl⟩ | ⟨ch, rfl⟩ <;> simp [hashNode, hne]
  have hcommit : commit c n = (.hash fl.hash, []) := by
    rcases hform with ⟨k, v, rfl⟩ | ⟨ch, rfl⟩ <;> simp [commit, hne, hfl.1]
  refine ⟨?_, .inr ⟨fl.hash, ?_, hfl.2.1, hBA hfl.2.2⟩, ?_, ?_⟩
  · rw [hhash]; exact hn
  · rw [hhash]
  · rw [hhash, hcommit]
  · rw [hhash, hcommit]
    intro e he
    cases he

/-- Hashing and committing a new short node, in terms of its child. -/
theorem save_short (k : Str) (v : Node) :
    let child := if v.isLoaded then (hashNode sha c v).1 else v
    let text := hexEncode c (.short k child newFlag)
    let fl : NodeFlag := { newFlag with hash := sha text }
    let kid := if child.isFull then commit c child else (child, [])
    hashNode sha c (.short k v newFlag) = (.short k child fl, .hash (sha text)) ∧
      hashedTexts sha c (.short k v newFlag)
        = (if v.isLoaded then hashedTexts sha c v else []) ++ [text] ∧
      commit c (.short k child fl)
        = (.hash (sha text), kid.2 ++ [(sha text, hexEncode c (.short k kid.1 fl))]) := by
  refine ⟨?_, ?_, ?_⟩
  · simp [hashNode, newFlag, toHash]
  · simp [hashedTexts, newFlag]
  · simp [commit, newFlag]

/-- Hashing and committing a new full node, in terms of its children. -/
theorem save_full (ch : Fin 17 → Node) :
    let collapsed := fun i => if i = 16 then .null else (hashNode sha c (ch i)).2
    let text := hexEncode c (.full collapsed newFlag)
    let fl : NodeFlag := { newFlag with hash := sha text }
    let ch' := fun i => if i = 16 then ch i else (hashNode sha c (ch i)).1
    let kids := fun i => if i = 16 then ch i else (commit c (hashNode sha c (ch i)).1).1
    hashNode sha c (.full ch newFlag) = (.full ch' fl, .hash (sha text)) ∧
      hashedTexts sha c (.full ch newFlag)
        = (List.ofFn fun i => if i = 16 then [] else hashedTexts sha c (ch i)).flatten ++ [text] ∧
      commit c (.full ch' fl) = (.hash (sha text),
        (List.ofFn fun i => if i = 16 then [] else (commit c (hashNode sha c (ch i)).1).2).flatten
          ++ [(sha text, hexEncode c (.full kids fl))]) := by
  refine ⟨?_, ?_, ?_⟩
  · simp [hashNode, newFlag, toHash]
  · simp only [hashedTexts, newFlag, ne_eq, not_true_eq_false, if_false]
  · have hkids : ∀ i : Fin 17, (if i = 16 then (if i = 16 then ch i else (hashNode sha c (ch i)).1)
        else (commit c (if i = 16 then ch i else (hashNode sha c (ch i)).1)).1)
          = if i = 16 then ch i else (commit c (hashNode sha c (ch i)).1).1 := by
      intro i
      split_ifs <;> rfl
    have hentries : ∀ i : Fin 17, (if i = 16 then []
        else (commit c (if i = 16 then ch i else (hashNode sha c (ch i)).1)).2)
          = if i = 16 then [] else (commit c (hashNode sha c (ch i)).1).2 := by
      intro i
      split_ifs <;> rfl
    simp only [commit, newFlag, Bool.true_eq_false, false_and, if_false, hkids, hentries]

/-- What the used children of a full node yield one after the other. -/
theorem mem_kids {α : Type} {f : Fin 17 → List α} {x : α} :
    x ∈ (List.ofFn fun i => if i = 16 then [] else f i).flatten ↔ ∃ i, i ≠ 16 ∧ x ∈ f i := by
  simp only [List.mem_flatten, List.mem_ofFn]
  constructor
  · rintro ⟨l, ⟨i, rfl⟩, hx⟩
    split_ifs at hx with hi
    · cases hx
    · exact ⟨i, hi, hx⟩
  · rintro ⟨i, hi, hx⟩
    exact ⟨_, ⟨i, rfl⟩, by rwa [if_neg hi]⟩

/-- `hash` and `Commit` at a well-formed node, given that every text hashed is in `S` and every hash
    written in `A`. -/
theorem save_spec (hlen : ∀ x, (sha x).length = 64) (hBA : B ⊆ A) {K : Kind} {L : ℕ} {n : Node}
    {m : Meaning} (h : Rep (Known sha c S B) (FlagOk sha c S B) K L n m) :
    (∀ x ∈ hashedTexts sha c n, x ∈ S) →
    (∀ e ∈ (commit c (hashNode sha c n).1).2, e.1 ∈ A) → SaveSpec sha c S A K L n m := by
  induction h with
  | null L =>
    intro _ _
    exact ⟨.null L, .inl ⟨rfl, rfl, rfl⟩, rfl, fun e he => by cases he⟩
  | hash hh =>
    intro _ _
    exact ⟨hh.1, .inr ⟨_, rfl, hh.1, hBA hh.2⟩, rfl, fun e he => by cases he⟩
  | @leaf L k d fl hk hfl =>
    intro htexts hkeys
    have hden : ∀ fl, Den sha c S .short L (.short k (.value d) fl) (below k fun _ => some d) :=
      fun fl => .leaf hk
    rcases hfl with rfl | hfl
    · obtain ⟨h1, h2, h3⟩ := @save_short sha c k (.value d)
      simp only [Node.isLoaded, Bool.false_eq_true, if_false, Node.isFull, List.nil_append] at h1 h2 h3
      rw [h2] at htexts
      have hS := htexts _ (List.mem_singleton_self _)
      rw [h1, h3] at hkeys
      have hA := hkeys _ (List.mem_singleton_self _)
      refine ⟨?_, ?_, ?_, ?_⟩
      · rw [h1]; exact hden _
      · rw [h1]; exact .inr ⟨_, rfl, .hash hS rfl (hden _), hA⟩
      · rw [h1, h3]
      · rw [h1, h3]
        intro e he
        obtain rfl := List.mem_singleton.mp he
        exact ⟨_, _, _, _, .hash hS rfl (hden _), rfl, .leaf hk⟩
    · exact save_clean hlen hBA (hden fl) hfl (.inl ⟨_, _, rfl⟩)
  | @ext L k v m fl hk hv hfl ih =>
    intro htexts hkeys
    rcases hfl with rfl | hfl
    · obtain ⟨h1, h2, h3⟩ := @save_short sha c k v
      set child := if v.isLoaded then (hashNode sha c v).1 else v with hchild
      set kid := if child.isFull then commit c child else (child, []) with hkid
      rw [h2] at htexts
      rw [h1, h3] at hkeys
      have hS := htexts _ (List.mem_append_right _ (List.mem_singleton_self _))
      have hA := hkeys _ (List.mem_append_right _ (List.mem_singleton_self _))
      -- the child, a branch, is in memory and was committed, or is a hash already
      obtain ⟨hden, ⟨h, hh, hknown⟩, hgood⟩ : Den sha c S .branch L child m ∧
          (∃ h, kid.1 = .hash h ∧ Known sha c S A h .branch L m) ∧
          ∀ e ∈ kid.2, GoodEntry sha c S A e := by
        cases hv with
        | hash hh => exact ⟨hh.1, ⟨_, rfl, hh.1, hBA hh.2⟩, fun e he => by cases he⟩
        | @full L K ch ms fl hL hch h16 hex hfl =>
          have hfull : child.isFull := by
            simp only [hchild, Node.isLoaded, if_true, hashNode]
            split <;> rfl
          rw [if_pos hfull] at hkid
          have hspec := ih (fun x hx => htexts x (List.mem_append_left _ hx))
            fun e he => hkeys e (List.mem_append_left _ (by rw [hkid]; exact he))
          rw [hkid]
          refine ⟨hspec.same, ?_, hspec.entries⟩
          rcases hspec.stands with ⟨hK, -⟩ | ⟨h, hh, hknown⟩
          · cases hK
          · exact ⟨h, hspec.root.trans hh, hknown⟩
      have hnode : ∀ fl, Den sha c S .short (k.length + L) (.short k child fl) (below k m) :=
        fun fl => .ext hk hden
      refine ⟨?_, ?_, ?_, ?_⟩
      · rw [h1]; exact hnode _
      · rw [h1]; exact .inr ⟨_, rfl, .hash hS rfl (hnode _), hA⟩
      · rw [h1, h3]
      · rw [h1, h3]
        intro e he
        rcases List.mem_append.mp he with he | he
        · exact hgood e he
        · obtain rfl := List.mem_singleton.mp he
          refine ⟨_, _, _, _, .hash hS rfl (hnode _), rfl, ?_⟩
          rw [hh]
          exact .ext hk hknown
    · exact save_clean hlen hBA (.ext hk hv.den) hfl (.inl ⟨_, _, rfl⟩)
  | @full L K ch ms fl hL hch h16 hex hfl ih =>
    intro htexts hkeys
    rcases hfl with rfl | hfl
    · obtain ⟨h1, h2, h3⟩ := @save_full sha c ch
      rw [h2] at htexts
      rw [h1, h3] at hkeys
      have hS := htexts _ (List.mem_append_right _ (List.mem_singleton_self _))
      have hA := hkeys _ (List.mem_append_right _ (List.mem_singleton_self _))
      have hspec : ∀ i, i ≠ 16 → SaveSpec sha c S A (K i) L (ch i) (ms i) := by
        intro i hi
        refine ih i (fun x hx => ?_) fun e he => ?_
        · exact htexts x (List.mem_append_left _ (mem_kids.mpr ⟨i, hi, hx⟩))
        · exact hkeys e (List.mem_append_left _ (mem_kids.mpr ⟨i, hi, he⟩))
      have hden16 := (hch 16).den
      rw [h16] at hden16
      obtain ⟨hnull, hm16⟩ := hden16.eq_null
      -- the three forms of the node: with its children in memory, as it is hashed, as it is stored
      have hmemory : ∀ fl, Den sha c S .branch (L + 1)
          (.full (fun i => if i = 16 then ch i else (hashNode sha c (ch i)).1) fl) (branchOf ms) := by
        refine fun fl => .full hL (fun i => ?_) h16 hex
        split_ifs with hi
        · exact (hch i).den
        · exact (hspec i hi).same
      have hhashed : Den sha c S .branch (L + 1)
          (.full (fun i => if i = 16 then .null else (hashNode sha c (ch i)).2) newFlag)
            (branchOf ms) := by
        refine .full hL (fun i => ?_) h16 hex
        split_ifs with hi
        · rw [hi, h16, hm16]; exact .null L
        · rcases (hspec i hi).stands with ⟨hK, hh, hm⟩ | ⟨h, hh, hknown⟩
          · rw [hK, hh, hm]; exact .null L
          · rw [hh]; exact hknown.1
      have hstored : ∀ fl, Collapsed (Known sha c S A) .branch (L + 1) (.full (fun i =>
          if i = 16 then ch i else (commit c (hashNode sha c (ch i)).1).1) fl) (branchOf ms) := by
        refine fun fl => .full hL (fun i => ?_) h16 (by rw [if_pos rfl]; exact hnull) hex
        split_ifs with hi
        · subst hi
          exact .inl ⟨h16, hnull, hm16⟩
        · rw [(hspec i hi).root]
          exact (hspec i hi).stands
      refine ⟨?_, ?_, ?_, ?_⟩
      · rw [h1]; exact hmemory _
      · rw [h1]; exact .inr ⟨_, rfl, .hash hS rfl hhashed, hA⟩
      · rw [h1, h3]
      · rw [h1, h3]
        intro e he
        rcases List.mem_append.mp he with he | he
        · obtain ⟨i, hi, he⟩ := mem_kids.mp he
          exact (hspec i hi).entries e he
        · obtain rfl := List.mem_singleton.mp he
          exact ⟨_, _, _, _, .hash hS rfl hhashed, rfl, hstored _⟩
    · exact save_clean hlen hBA (.full hL (fun i => (hch i).den) h16 hex) hfl (.inr ⟨_, rfl⟩)

end SaveStep

/-! ### The store -/

/-- Writing pairs to the store one after the other. -/
def writeAll (mpt : StdMap Str Str) (entries : List (Str × Str)) : StdMap Str Str :=
  entries.foldl (fun m e => m.set e.1 e.2) mpt

theorem writeAll_cases : ∀ (entries : List (Str × Str)) (mpt : StdMap Str Str) (k : Str),
    (∃ v, (k, v) ∈ entries ∧ writeAll mpt entries k = some v) ∨
      (∀ e ∈ entries, e.1 ≠ k) ∧ writeAll mpt entries k = mpt k
  | [], mpt, k => .inr ⟨by simp, rfl⟩
  | e :: entries, mpt, k => by
    rcases writeAll_cases entries (mpt.set e.1 e.2) k with ⟨v, hv, hw⟩ | ⟨hne, hw⟩
    · exact .inl ⟨v, List.mem_cons_of_mem _ hv, hw⟩
    · by_cases hk : k = e.1
      · subst hk
        exact .inl ⟨e.2, List.mem_cons_self, by rw [StdMap.set_self] at hw; exact hw⟩
      · rw [StdMap.set_ne _ _ hk] at hw
        refine .inr ⟨fun e' he' => ?_, hw⟩
        rcases List.mem_cons.mp he' with rfl | he'
        · exact fun h => hk h.symm
        · exact hne e' he'

/-- `dirtyHash` holds written entries, and one for every hash written. -/
theorem foldl_setEntry : ∀ (ws entries : List (Str × Str)),
    (∀ e ∈ ws.foldl setEntry entries, e ∈ entries ∨ e ∈ ws) ∧
      ∀ e, e ∈ entries ∨ e ∈ ws → ∃ e' ∈ ws.foldl setEntry entries, e'.1 = e.1
  | [], entries => ⟨fun e he => .inl he, fun e he => ⟨e, by simpa using he, rfl⟩⟩
  | w :: ws, entries => by
    obtain ⟨hsub, hkey⟩ := foldl_setEntry ws (setEntry entries w)
    refine ⟨fun e he => ?_, fun e he => ?_⟩
    · rcases hsub e he with he | he
      · rcases List.mem_append.mp he with he | he
        · exact .inl (List.mem_of_mem_filter he)
        · exact .inr (List.mem_cons.mpr (.inl (List.mem_singleton.mp he)))
      · exact .inr (List.mem_cons_of_mem _ he)
    · by_cases hew : e.1 = w.1
      · obtain ⟨e', he', hk⟩ := hkey w (.inl (List.mem_append_right _ (List.mem_singleton_self w)))
        exact ⟨e', he', hk.trans hew.symm⟩
      · rcases he with he | he
        · exact hkey e (.inl (List.mem_append_left _ (List.mem_filter.mpr ⟨he, by simpa using hew⟩)))
        · rcases List.mem_cons.mp he with rfl | he
          · exact absurd rfl hew
          · exact hkey e (.inr he)

/-- When anything is written, the node itself is. -/
theorem commit_root (n : Node) (h : (commit c n).2 ≠ []) :
    ∃ hash data, (commit c n).1 = .hash hash ∧ (hash, data) ∈ (commit c n).2 := by
  cases n with
  | null => exact absurd rfl h
  | value d => exact absurd rfl h
  | hash d => exact absurd rfl h
  | short k v fl =>
    by_cases hclean : fl.dirty = false ∧ fl.hash ≠ []
    · rw [commit, if_pos hclean] at h
      exact absurd rfl h
    · rw [commit, if_neg hclean]
      exact ⟨_, _, rfl, List.mem_append_right _ (List.mem_singleton_self _)⟩
  | full ch fl =>
    by_cases hclean : fl.dirty = false ∧ fl.hash ≠ []
    · rw [commit, if_pos hclean] at h
      exact absurd rfl h
    · rw [commit, if_neg hclean]
      exact ⟨_, _, rfl, List.mem_append_right _ (List.mem_singleton_self _)⟩

theorem hexEncode_ne_nil (hc : c.Lawful) (n : Node) : hexEncode c n ≠ [] := by
  intro h
  have hzero := congrArg List.length h
  rw [hexEncode, toHex_length, List.length_nil] at hzero
  have hout : (c.out (encode c n)).length = 0 := by omega
  exact hc.out_ne_nil _ (List.length_eq_zero_iff.mp hout)

/-! ### Rounds -/

/-- What outlives a round: the contract's root hash and the store. -/
structure Disk where
  rootHash : Str
  mpt : StdMap Str Str

/-- What a trie opened on a disk reads from. -/
def Disk.env (c : Codec) (addr : Str) (d : Disk) : TrieEnv := ⟨c, addr, .empty, d.mpt⟩

/-- The constructor `Trie(rootHash, addr, contractDataCache)`, with an empty cache. (That without the
    last argument leaves the pointer to the cache as it is; no trie of a committed root is opened so.) -/
def Disk.openTrie (c : Codec) (addr : Str) (d : Disk) : Option Node := descendKey (d.env c addr) d.rootHash

/-- `Save`, `GetBlockStorage` and the writes of `GetStorage`, from the root of the trie. -/
def Disk.saved (sha : Str → Str) (c : Codec) (addr : Str) (d : Disk) (root : Node) : Option Disk :=
  (((⟨root, []⟩ : Trie).save sha c).getBlockStorage).map fun r =>
    let s := storageEntries addr r.1
    ⟨s.1.getD d.rootHash, writeAll d.mpt s.2⟩

/-- A round up to `Save`: the root in memory. -/
def Disk.run (c : Codec) (addr : Str) (d : Disk) (ops : List TrieOp) : Option Node := do
  let root ← d.openTrie c addr
  let r ← runOps (d.env c addr) root ops
  some r.1

/-- Rounds one after the other: the disk afterwards and all texts that were hashed. -/
def runRounds (sha : Str → Str) (c : Codec) (addr : Str) : Disk → List (List TrieOp) →
    Option Disk × List Str
  | d, [] => (some d, [])
  | d, ops :: rounds =>
    match d.run c addr ops with
    | none => (none, [])
    | some root =>
      match d.saved sha c addr root with
      | none => (none, hashedTexts sha c root)
      | some d' =>
        let r := runRounds sha c addr d' rounds
        (r.1, hashedTexts sha c root ++ r.2)

/-- The hashes a disk has a node for. -/
def onDisk (env : TrieEnv) : Set Str := {h | env.mptValue h ≠ []}

/-- The disk resolves every hash it holds, and its root stands for the map left by a history. -/
structure DiskOk (sha : Str → Str) (c : Codec) (addr : Str) (S : Set Str) (n : ℕ) (d : Disk)
    (history : List TrieOp) : Prop where
  resolves : Resolves (d.env c addr) (Known sha c S (onDisk (d.env c addr)))
    (FlagOk sha c S (onDisk (d.env c addr)))
  root : ∃ m, Reflects n m history ∧ (((∀ k, d.mpt k = none) ∧ m = fun _ => none) ∨
    ∃ K, Known sha c S (onDisk (d.env c addr)) d.rootHash K (n + 2) m)

theorem Rep.mono {R R' : Str → Kind → ℕ → Meaning → Prop}
    {F F' : NodeFlag → Kind → ℕ → Meaning → Prop} (hR : ∀ h K L m, R h K L m → R' h K L m)
    (hF : ∀ fl K L m, F fl K L m → F' fl K L m) {K : Kind} {L : ℕ} {n : Node} {m : Meaning}
    (h : Rep R F K L n m) : Rep R' F' K L n m := by
  induction h with
  | null L => exact .null L
  | leaf hk hfl => exact .leaf hk (hF _ _ _ _ hfl)
  | ext hk _ hfl ih => exact .ext hk ih (hF _ _ _ _ hfl)
  | full hL _ h16 hex hfl ih => exact .full hL ih h16 hex (hF _ _ _ _ hfl)
  | hash hh => exact .hash (hR _ _ _ _ hh)

theorem Rep.null_meaning {R : Str → Kind → ℕ → Meaning → Prop}
    {F : NodeFlag → Kind → ℕ → Meaning → Prop} {K : Kind} {L : ℕ} {m : Meaning}
    (h : Rep R F K L .null m) : m = fun _ => none := by
  cases h
  rfl

theorem mptKey_injective (addr : Str) {h h' : Str} (heq : mptKey addr h = mptKey addr h') : h = h' :=
  List.append_cancel_left heq

theorem Disk.mptValue_env (addr : Str) (d : Disk) (h : Str) :
    (d.env c addr).mptValue h = (d.mpt (mptKey addr h)).getD [] := by
  simp [TrieEnv.mptValue, Disk.env]

/-- A trie opened on a good disk means the map left by the history. -/
theorem DiskOk.opened {addr : Str} {n : ℕ} {d : Disk} {history : List TrieOp}
    (hd : DiskOk sha c addr S n d history) :
    ∃ root K m, d.openTrie c addr = some root ∧
      Rep (Known sha c S (onDisk (d.env c addr))) (FlagOk sha c S (onDisk (d.env c addr))) K (n + 2)
        root m ∧ Reflects n m history := by
  obtain ⟨m, href, hroot⟩ := hd.root
  rcases hroot with ⟨hempty, rfl⟩ | ⟨K, hknown⟩
  · refine ⟨.null, .null, _, ?_, .null _, href⟩
    rw [Disk.openTrie, descendKey, Disk.mptValue_env, hempty]
    rfl
  · obtain ⟨root, hopen, -, hrep⟩ := hd.resolves _ _ _ _ hknown
    exact ⟨root, K, m, hopen, hrep, href⟩

/-- What a round writes: the disk gets one entry for every hash `Commit` wrote to. -/
theorem Disk.saved_entries (addr : Str) (d : Disk) {root : Node} {h : Str} (hne : h ≠ [])
    (hnull : root.isNull = false) (hroot : (commit c (hashNode sha c root).1).1 = .hash h)
    (hdata : ∀ e ∈ (commit c (hashNode sha c root).1).2, e.2 ≠ []) :
    ∃ pairs : List (Str × Str), d.saved sha c addr root
        = some ⟨h, writeAll d.mpt (pairs.map fun e => (mptKey addr e.1, e.2))⟩ ∧
      (∀ e ∈ pairs, e ∈ (commit c (hashNode sha c root).1).2) ∧
      ∀ e ∈ (commit c (hashNode sha c root).1).2, ∃ e' ∈ pairs, e'.1 = e.1 := by
  obtain ⟨hsub, hkey⟩ := foldl_setEntry (commit c (hashNode sha c root).1).2 []
  set dirty := (commit c (hashNode sha c root).1).2.foldl setEntry [] with hdirty
  have hsave : (⟨root, []⟩ : Trie).save sha c = ⟨.hash h, dirty⟩ := by
    simp [Trie.save, hnull, hroot, hdirty]
  by_cases hnil : dirty = []
  · refine ⟨[], ?_, by simp, fun e he => ?_⟩
    · simp [Disk.saved, hsave, Trie.getBlockStorage, hnil, storageEntries, hne]
    · obtain ⟨e', he', -⟩ := hkey e (.inr he)
      rw [hnil] at he'
      cases he'
  · -- something was written, so the root was
    have hws : (commit c (hashNode sha c root).1).2 ≠ [] := by
      intro hws
      rw [hws] at hdirty
      exact hnil hdirty
    obtain ⟨h', data, hh', hmem⟩ := commit_root _ hws
    rw [hroot] at hh'
    cases hh'
    obtain ⟨e, he, hek⟩ := hkey _ (.inr hmem)
    obtain ⟨r, hr⟩ : ∃ r, dirty.find? (fun e => e.1 = h) = some r := by
      rw [← Option.isSome_iff_exists, List.find?_isSome]
      exact ⟨e, he, by simpa using hek⟩
    have hrk : r.1 = h := by simpa using List.find?_some hr
    have hrmem := List.mem_of_find?_eq_some hr
    have hr2 : r.2 ≠ [] := hdata r ((hsub r hrmem).resolve_left (by simp))
    refine ⟨r :: dirty.filter fun e => e.1 ≠ h, ?_, fun e he => ?_, fun e he => ?_⟩
    · simp [Disk.saved, hsave, Trie.getBlockStorage, hnil, hr, storageEntries, hne, hrk, hr2]
    · rcases List.mem_cons.mp he with rfl | he
      · exact (hsub _ hrmem).resolve_left (by simp)
      · exact (hsub _ (List.mem_of_mem_filter he)).resolve_left (by simp)
    · obtain ⟨e', he', hk⟩ := hkey e (.inr he)
      by_cases hh : e'.1 = h
      · exact ⟨r, List.mem_cons_self, by rw [hrk, ← hh, hk]⟩
      · exact ⟨e', List.mem_cons_of_mem _ (List.mem_filter.mpr ⟨he', by simpa using hh⟩), hk⟩

/-- After a round's writes a hash reads an entry of the round, or what it read before. -/
theorem Disk.reads_written (c : Codec) (addr : Str) (d : Disk) (rootHash : Str) (pairs : List (Str × Str)) :
    let d' : Disk := ⟨rootHash, writeAll d.mpt (pairs.map fun e => (mptKey addr e.1, e.2))⟩
    ∀ h, (∃ e ∈ pairs, e.1 = h ∧ (d'.env c addr).mptValue h = e.2) ∨
      (∀ e ∈ pairs, e.1 ≠ h) ∧ (d'.env c addr).mptValue h = (d.env c addr).mptValue h := by
  intro d' h
  rw [Disk.mptValue_env, Disk.mptValue_env]
  rcases writeAll_cases (pairs.map fun e => (mptKey addr e.1, e.2)) d.mpt (mptKey addr h) with
    ⟨v, hv, hw⟩ | ⟨hne, hw⟩
  · obtain ⟨e, he, heq⟩ := List.mem_map.mp hv
    obtain ⟨hk, rfl⟩ := Prod.mk.inj heq
    exact .inl ⟨e, he, mptKey_injective addr hk, congrArg (Option.getD · []) hw⟩
  · refine .inr ⟨fun e he h' => ?_, congrArg (Option.getD · []) hw⟩
    exact hne _ (List.mem_map_of_mem he) (by rw [h'])

/-- A round that leaves nothing in memory writes nothing. -/
theorem Disk.saved_null (addr : Str) (d : Disk) : d.saved sha c addr .null = some d := by
  cases d
  simp [Disk.saved, Trie.save, Node.isNull, Trie.getBlockStorage, storageEntries, writeAll]

/-- A store that took good entries for new hashes resolves all it holds. -/
theorem resolves_written (hc : c.Lawful) (hlen : ∀ x, (sha x).length = 64) (hinj : Set.InjOn sha S)
    {addr : Str} {d : Disk} (rootHash : Str) {pairs : List (Str × Str)} {A : Set Str}
    (hd : Resolves (d.env c addr) (Known sha c S (onDisk (d.env c addr)))
      (FlagOk sha c S (onDisk (d.env c addr))))
    (hA : ∀ h, h ∈ A ↔ h ∈ onDisk (d.env c addr) ∨ ∃ e ∈ pairs, e.1 = h)
    (hgood : ∀ e ∈ pairs, GoodEntry sha c S A e) :
    let d' : Disk := ⟨rootHash, writeAll d.mpt (pairs.map fun e => (mptKey addr e.1, e.2))⟩
    onDisk (d'.env c addr) = A ∧ Resolves (d'.env c addr) (Known sha c S A) (FlagOk sha c S A) := by
  intro d'
  have hread := d.reads_written c addr rootHash pairs
  have hon : onDisk (d'.env c addr) = A := by
    ext h
    rw [hA]
    rcases hread h with ⟨e, he, heh, hv⟩ | ⟨hne, hv⟩
    · obtain ⟨K, L, m, n, -, hdata, -⟩ := hgood e he
      refine ⟨fun _ => .inr ⟨e, he, heh⟩, fun _ => ?_⟩
      rw [onDisk, Set.mem_ofPred_eq, hv, hdata]
      exact hexEncode_ne_nil hc n
    · rw [onDisk, Set.mem_ofPred_eq, hv]
      refine ⟨.inl, ?_⟩
      rintro (hh | ⟨e, he, heh⟩)
      · exact hh
      · exact absurd heh (hne e he)
  have hmono : ∀ h K L m, Known sha c S (onDisk (d.env c addr)) h K L m → Known sha c S A h K L m :=
    fun h K L m hk => ⟨hk.1, (hA h).mpr (.inl hk.2)⟩
  refine ⟨hon, fun h K L m hknown => ?_⟩
  have hne : (d'.env c addr).mptValue h ≠ [] := by
    have : h ∈ onDisk (d'.env c addr) := hon ▸ hknown.2
    exact this
  rcases hread h with ⟨e, he, rfl, hv⟩ | ⟨-, hv⟩
  · obtain ⟨K', L', m', n, hden, hdata, hcol⟩ := hgood e he
    obtain ⟨rfl, rfl, hL⟩ := hknown.1.functional hc hinj hden rfl rfl
    have hK : K ≠ .null := by
      rintro rfl
      cases (hden.eq_null).1
    obtain rfl := hL hK
    obtain ⟨n', hn', hload, hrep⟩ := hcol.decode hc (F := FlagOk sha c S A)
      (fun h K L m hk => hk.1.hash_length hlen)
      (show FlagOk sha c S A ⟨e.1, false⟩ K L m from .inr ⟨rfl, hknown⟩)
    refine ⟨n', ?_, hload, hrep⟩
    rw [descendKey, if_neg hne, hv, hdata, hexEncode, fromHex_toHex]
    exact hn'
  · have hold : h ∈ onDisk (d.env c addr) := by rw [onDisk, Set.mem_ofPred_eq, ← hv]; exact hne
    obtain ⟨n, hdesc, hload, hrep⟩ := hd h K L m ⟨hknown.1, hold⟩
    refine ⟨n, ?_, hload, hrep.mono hmono fun fl K L m hfl => ?_⟩
    · rw [descendKey, hv]; exact hdesc
    · exact hfl.imp id fun hfl => ⟨hfl.1, hmono _ _ _ _ hfl.2⟩

/-- The end of a round: the disk is good for the longer history. -/
theorem DiskOk.saved (hc : c.Lawful) (hlen : ∀ x, (sha x).length = 64) (hinj : Set.InjOn sha S)
    {addr : Str} {n : ℕ} {d : Disk} {history ops : List TrieOp}
    (hd : DiskOk sha c addr S n d history) {K : Kind} {root : Node} {m : Meaning}
    (hrep : Rep (Known sha c S (onDisk (d.env c addr))) (FlagOk sha c S (onDisk (d.env c addr))) K
      (n + 2) root m) (href : Reflects n m (history ++ ops))
    (htexts : ∀ x ∈ hashedTexts sha c root, x ∈ S) :
    ∃ d', d.saved sha c addr root = some d' ∧ DiskOk sha c addr S n d' (history ++ ops) := by
  set A : Set Str := {h | h ∈ onDisk (d.env c addr) ∨
    ∃ e ∈ (commit c (hashNode sha c root).1).2, e.1 = h} with hA
  have hspec : SaveSpec sha c S A K (n + 2) root m :=
    save_spec hlen (fun h hh => .inl hh) hrep htexts fun e he => .inr ⟨e, he, rfl⟩
  cases hroot : root.isNull with
  | true =>
    obtain rfl := Node.eq_null hroot
    obtain rfl := hrep.null_meaning
    obtain ⟨m₀, href₀, hroot₀⟩ := hd.root
    refine ⟨d, d.saved_null addr, hd.resolves, m₀, fun k hk => ?_, hroot₀⟩
    -- nothing was ever updated, so the old root says the same
    have hnone : lastUpdate k (history ++ ops) = none := (href k hk).symm
    rw [href₀ k hk, hnone]
    rw [lastUpdate_append, Option.or_eq_none_iff] at hnone
    exact hnone.2
  | false =>
    obtain ⟨h, hh, hknown⟩ : ∃ h, (hashNode sha c root).2 = .hash h ∧ Known sha c S A h K (n + 2) m := by
      rcases hspec.stands with ⟨rfl, -⟩ | h
      · rw [hrep.den.eq_null.1] at hroot
        cases hroot
      · exact h
    have hdata : ∀ e ∈ (commit c (hashNode sha c root).1).2, e.2 ≠ [] := by
      intro e he
      obtain ⟨-, -, -, n', -, hdata, -⟩ := hspec.entries e he
      rw [hdata]
      exact hexEncode_ne_nil hc n'
    obtain ⟨pairs, hsaved, hsub, hkeys⟩ := Disk.saved_entries addr d (hknown.ne_nil hlen) hroot
      (hspec.root.trans hh) hdata
    have hstored (x : Str) : (∃ e ∈ (commit c (hashNode sha c root).1).2, e.1 = x) ↔ ∃ e ∈ pairs, e.1 = x := by
      constructor
      · rintro ⟨e, he, hx⟩
        exact (hkeys e he).imp fun _ h => ⟨h.1, h.2.trans hx⟩
      · rintro ⟨e, he, hx⟩
        exact ⟨e, hsub e he, hx⟩
    obtain ⟨hon, hres⟩ := resolves_written hc hlen hinj h hd.resolves (A := A)
      (fun x => or_congr_right (hstored x)) fun e he => hspec.entries e (hsub e he)
    refine ⟨_, hsaved, ?_, m, href, .inr ⟨K, ?_⟩⟩
    · rw [hon]; exact hres
    · rw [hon]; exact hknown

/-- A round's texts are among those of the rounds from it on. -/
theorem hashedTexts_logged {addr : Str} {d : Disk} {ops : List TrieOp} {root : Node}
    (hrun : d.run c addr ops = some root) (later : List (List TrieOp)) :
    ∀ x ∈ hashedTexts sha c root, x ∈ (runRounds sha c addr d (ops :: later)).2 := by
  intro x hx
  simp only [runRounds, hrun]
  cases d.saved sha c addr root with
  | none => exact hx
  | some d' => exact List.mem_append_left _ hx

/-- One round on a good disk: the trie in memory means the map of the longer history, and the disk is
    good for it. `S` holds all texts hashed. -/
theorem DiskOk.round (hc : c.Lawful) (hlen : ∀ x, (sha x).length = 64) (hinj : Set.InjOn sha S)
    {addr : Str} {n : ℕ} (hn : 1 ≤ n) {d : Disk} {history ops : List TrieOp}
    (hd : DiskOk sha c addr S n d history) (hops : ∀ op ∈ ops, op.Valid n)
    {later : List (List TrieOp)} (htexts : ∀ x ∈ (runRounds sha c addr d (ops :: later)).2, x ∈ S) :
    ∃ root d' K m, d.run c addr ops = some root ∧ d.saved sha c addr root = some d' ∧
      Rep (Known sha c S (onDisk (d.env c addr))) (FlagOk sha c S (onDisk (d.env c addr))) K (n + 2)
        root m ∧ Reflects n m (history ++ ops) ∧ DiskOk sha c addr S n d' (history ++ ops) := by
  obtain ⟨root₀, K₀, m₀, hopen, hrep₀, href₀⟩ := hd.opened
  obtain ⟨root, K, m, hans, hrep, href⟩ :=
    runOps_spec hd.resolves (fun _ _ _ => .inl rfl) hn ops history hops hrep₀ href₀
  have hrun : d.run c addr ops = some root := by
    simp only [Disk.run, hopen, hans, Option.bind_eq_bind, Option.bind_some]
  obtain ⟨d', hsaved, hd'⟩ := hd.saved hc hlen hinj hrep href fun x hx =>
    htexts x (hashedTexts_logged hrun later x hx)
  exact ⟨root, d', K, m, hrun, hsaved, hrep, href, hd'⟩

/-- Whole runs of rounds: the disk is good before every round. -/
theorem runRounds_spec (hc : c.Lawful) (hlen : ∀ x, (sha x).length = 64) (hinj : Set.InjOn sha S)
    {addr : Str} {n : ℕ} (hn : 1 ≤ n) (later : List (List TrieOp)) :
    ∀ (done : List (List TrieOp)) (d : Disk) (history : List TrieOp),
      DiskOk sha c addr S n d history → (∀ ops ∈ done ++ later, ∀ op ∈ ops, op.Valid n) →
      (∀ x ∈ (runRounds sha c addr d (done ++ later)).2, x ∈ S) →
      ∃ d', (runRounds sha c addr d done).1 = some d' ∧
        DiskOk sha c addr S n d' (history ++ done.flatten) ∧
        ∀ x ∈ (runRounds sha c addr d' later).2, x ∈ S := by
  intro done
  induction done with
  | nil =>
    intro d history hd _ htexts
    exact ⟨d, rfl, by simpa using hd, htexts⟩
  | cons ops done ih =>
    intro d history hd hops htexts
    obtain ⟨root, d₁, K, m, hrun, hsaved, -, -, hd₁⟩ :=
      hd.round hc hlen hinj hn (hops ops (by simp)) htexts
    simp only [List.cons_append, runRounds, hrun, hsaved] at htexts
    obtain ⟨d', hdone, hd', hlog⟩ := ih d₁ _ hd₁
      (fun ops' ho => hops ops' (List.mem_cons_of_mem _ ho))
      fun x hx => htexts x (List.mem_append_right _ hx)
    refine ⟨d', ?_, by simpa using hd', hlog⟩
    simp only [runRounds, hrun, hsaved]
    exact hdone

/-- An empty disk is good for the empty history. -/
theorem diskOk_empty (addr rootHash : Str) (n : ℕ) :
    DiskOk sha c addr S n ⟨rootHash, .empty⟩ [] where
  resolves h K L m hk := by
    have : ((⟨rootHash, .empty⟩ : Disk).env c addr).mptValue h ≠ [] := hk.2
    rw [Disk.mptValue_env] at this
    exact absurd rfl this
  root := ⟨fun _ => none, fun _ _ => rfl, .inl ⟨fun _ => rfl, rfl⟩⟩

/-- After every round, a trie opened on the new root hash answers every key as the trie in memory
    did just before `Save`, that is, like the plain map of all updates of all rounds so far. -/
theorem trie_persistence (sha : Str → Str) (c : Codec) (hc : c.Lawful)
    (hlen : ∀ x, (sha x).length = 64) (addr rootHash : Str) (n : ℕ) (hn : 1 ≤ n)
    (rounds : List (List TrieOp)) (hops : ∀ ops ∈ rounds, ∀ op ∈ ops, op.Valid n)
    (hinj : Set.InjOn sha {x | x ∈ (runRounds sha c addr ⟨rootHash, .empty⟩ rounds).2})
    (done : List (List TrieOp)) (ops : List TrieOp) (later : List (List TrieOp))
    (hrounds : rounds = done ++ ops :: later) :
    ∃ d root d' opened, (runRounds sha c addr ⟨rootHash, .empty⟩ done).1 = some d ∧
      d.run c addr ops = some root ∧ d.saved sha c addr root = some d' ∧
      d'.openTrie c addr = some opened ∧
      ∀ k, HexKey n k → ∃ r r',
        trieGet (d.env c addr) root k = some ((lastUpdate k (done.flatten ++ ops)).getD [], r) ∧
        trieGet (d'.env c addr) opened k
          = some ((lastUpdate k (done.flatten ++ ops)).getD [], r') := by
  subst hrounds
  obtain ⟨d, hdone, hd, hlog⟩ := runRounds_spec hc hlen hinj hn (ops :: later) done _ []
    (diskOk_empty addr rootHash n) hops fun x hx => hx
  obtain ⟨root, d', K, m, hrun, hsaved, hrep, href, hd'⟩ :=
    hd.round hc hlen hinj hn (hops ops (by simp)) hlog
  obtain ⟨opened, K', m', hopen, hrep', href'⟩ := hd'.opened
  refine ⟨d, root, d', opened, hdone, hrun, hsaved, hopen, fun k hk => ?_⟩
  obtain ⟨r, hget, -⟩ := trieGet_spec hd.resolves hn hrep hk
  obtain ⟨r', hget', -⟩ := trieGet_spec hd'.resolves hn hrep' hk
  rw [href k hk] at hget
  rw [href' k hk] at hget'
  exact ⟨r, r', hget, hget'⟩

/-- The leaves and roots of a run of two rounds, with their SHA-256 hashes. -/
def sampleHashes : List (Node × String) :=
  let leafX := "fce30505d7594d483a28c4d38b65c50d0d84a8099492563a562bfaf68d2e3afc"
  let leafY := "29761c0d481da749ead6042ecda12bf4cceb5f3b96b1facaaf26b10f5e96734b"
  let leafV := "a957d04440c89906e0e8546feec9fa79b4933600fc66d796626177eefcaeb914"
  let root := fun l₀ l₇ : String => Node.full
    (fun i => if i = 0 then .hash (str l₀) else if i = 7 then .hash (str l₇) else .null) newFlag
  [(.short (str "aaz") (.value (str "x")) newFlag, leafX),
    (.short (str "bbz") (.value (str "y")) newFlag, leafY),
    (.short (str "aaz") (.value (str "v")) newFlag, leafV),
    (root leafX leafY, "7cb5f2b8f714024999e6966f9e10c5b24bfa46142c9f3f7b5d6ecb8d97b7cef3"),
    (root leafV leafY, "6e2f8eefbd0587a7f6b3d120942578bba5529dabaab7269e539731983d600c0e")]

/-- SHA-256 on the texts of the sample. -/
def sampleSha (text : Str) : Str :=
  match sampleHashes.find? fun e => hexEncode rlp e.1 = text with
  | some e => str e.2
  | none => List.replicate 64 48

/-- A table of hashes can be read with both columns as bytes, which is quicker to evaluate. -/
theorem find_hashes (table : List (Node × String)) (text : Str) :
    (match table.find? fun e => hexEncode rlp e.1 = text with
      | some e => str e.2
      | none => List.replicate 64 48) =
      match (table.map fun e => (hexEncode rlp e.1, str e.2)).find? fun e => e.1 = text with
      | some e => e.2
      | none => List.replicate 64 48 := by
  rw [List.find?_map]
  simp only [Function.comp_def]
  cases table.find? fun e => hexEncode rlp e.1 = text with
  | none => rfl
  | some e => rfl

theorem sampleSha_eq : sampleSha = fun text =>
    match (sampleHashes.map fun e => (hexEncode rlp e.1, str e.2)).find? fun e => e.1 = text with
    | some e => e.2
    | none => List.replicate 64 48 :=
  funext (find_hashes sampleHashes)

/-- The first round stores two leaves; the second loads one and overwrites the other. -/
def sampleRounds : List (List TrieOp) :=
  [[.update (str "0a") (str "x"), .update (str "7b") (str "y")],
    [.get (str "7b"), .update (str "0a") (str "v")]]

theorem sampleSha_length (x : Str) : (sampleSha x).length = 64 := by
  have hall : ∀ e ∈ sampleHashes, (str e.2).length = 64 := by
    simp only [sampleHashes, List.forall_mem_cons]
    repeat rw [str_ofList]
    decide
  unfold sampleSha
  split
  · rename_i e he
    exact hall e (List.mem_of_find?_eq_some he)
  · rfl

theorem injOn_of_nodup {f : Str → Str} {l : List Str} (h : (l.map f).Nodup) :
    Set.InjOn f {x | x ∈ l} := by
  intro x hx y hy hxy
  exact List.inj_on_of_nodup_map h hx hy hxy

/-- The second round of the sample, its trie in memory and the one opened afterwards. -/
theorem trie_persistence_sample :
    ∃ d root d' opened r r', (runRounds sampleSha rlp (str "c") ⟨[], .empty⟩
        [[.update (str "0a") (str "x"), .update (str "7b") (str "y")]]).1 = some d ∧
      d.run rlp (str "c") [.get (str "7b"), .update (str "0a") (str "v")] = some root ∧
      d.saved sampleSha rlp (str "c") root = some d' ∧ d'.openTrie rlp (str "c") = some opened ∧
      trieGet (d.env rlp (str "c")) root (str "0a") = some (str "v", r) ∧
      trieGet (d'.env rlp (str "c")) opened (str "0a") = some (str "v", r') := by
  obtain ⟨d, root, d', opened, hd, hroot, hd', hopened, hget⟩ := trie_persistence sampleSha rlp
    rlp_lawful sampleSha_length (str "c") [] 2 (by decide) sampleRounds (by
      rw [sampleRounds]
      repeat rw [str_ofList]
      decide +kernel)
    (injOn_of_nodup (by
      simp only [sampleSha_eq, sampleHashes, sampleRounds, List.map_cons, List.map_nil]
      repeat rw [str_ofList]
      decide +kernel))
    [[.update (str "0a") (str "x"), .update (str "7b") (str "y")]]
    [.get (str "7b"), .update (str "0a") (str "v")] [] rfl
  obtain ⟨r, r', h, h'⟩ := hget (str "0a") (by decide +kernel)
  have hv : (lastUpdate (str "0a") ([[TrieOp.update (str "0a") (str "x"),
      .update (str "7b") (str "y")]].flatten ++ [.get (str "7b"), .update (str "0a") (str "v")])).getD []
        = str "v" := by decide
  rw [hv] at h h'
  exact ⟨d, root, d', opened, r, r', hd, hroot, hd', hopened, h, h'⟩

end Tfs.Mpt
