import Tfs.Mpt.Persist

/-! Content addressing: which pairs that `Save` puts into `dirtyHash` are a hash and its text.

    `hash` takes the hash of a full node from its collapsed children, as `Store` writes it. The hash
    of a short node is taken from the node as it stands in memory: when its child is a full node in
    memory, the text hashed holds that child in full, while `Commit` has put the child's hash in its
    place by the time `Store` writes the node. -/

namespace Tfs.Mpt
open Tfs.Rlp

variable {sha : Str → Str} {c : Codec} {S : Set Str}

/-- Among the new nodes, a short node stands above a full node in memory. -/
def newOverFull : Node → Prop
  | .short _ nodeVal nodeFlags => nodeFlags.dirty = true ∧ nodeVal.isFull = true
  | .full children flags => flags.dirty = true ∧ ∃ i, i ≠ 16 ∧ newOverFull (children i)
  | _ => False

instance decidableNewOverFull : (n : Node) → Decidable (newOverFull n)
  | .null => inferInstanceAs (Decidable False)
  | .value _ => inferInstanceAs (Decidable False)
  | .hash _ => inferInstanceAs (Decidable False)
  | .short _ _ _ => inferInstanceAs (Decidable (_ ∧ _))
  | .full children _ =>
    have := fun i => decidableNewOverFull (children i)
    inferInstanceAs (Decidable (_ ∧ ∃ i, i ≠ 16 ∧ newOverFull (children i)))

/-- The text of a short node with a full node written out inside. -/
def Bloated (c : Codec) (text : Str) : Prop :=
  ∃ k ch fl fl', text = hexEncode c (.short k (.full ch fl) fl')

/-- `hash` only fills hashes in. -/
theorem encode_hashNode (n : Node) : encode c (hashNode sha c n).1 = encode c n ∧
    (hashNode sha c n).1.isNull = n.isNull := by
  induction n with
  | null => exact ⟨rfl, rfl⟩
  | value d => exact ⟨rfl, rfl⟩
  | hash d => exact ⟨rfl, rfl⟩
  | short k v fl ih =>
    rw [hashNode]
    split_ifs with hhash hload
    · exact ⟨rfl, rfl⟩
    · exact ⟨by simp only [encode, ih.1], rfl⟩
    · exact ⟨rfl, rfl⟩
  | full ch fl ih =>
    rw [hashNode]
    split_ifs with hhash
    · exact ⟨rfl, rfl⟩
    · refine ⟨?_, rfl⟩
      have hkid : ∀ i, encode c (if i = 16 then ch i else (hashNode sha c (ch i)).1)
          = encode c (ch i) ∧
          (if i = 16 then ch i else (hashNode sha c (ch i)).1).isNull = (ch i).isNull := by
        intro i
        split_ifs
        · exact ⟨rfl, rfl⟩
        · exact ih i
      simp only [encode, (hkid _).1, (hkid _).2]

theorem hexEncode_inj (hc : c.Lawful) {n n' : Node} (h : hexEncode c n = hexEncode c n') :
    encode c n = encode c n' := encode_inj hc (toHex_injective h)

theorem not_bloated_short (hc : c.Lawful) {k : Str} {v : Node} {fl : NodeFlag} {b : Str}
    (hv : encode c v = .data b) : ¬ Bloated c (hexEncode c (.short k v fl)) := by
  rintro ⟨k', ch, fl₁, fl₂, h⟩
  obtain ⟨-, henc⟩ := encode_short_inj hc (hexEncode_inj hc h)
  rw [hv] at henc
  cases henc

theorem not_bloated_full (hc : c.Lawful) {ch : Fin 17 → Node} {fl : NodeFlag} :
    ¬ Bloated c (hexEncode c (.full ch fl)) := by
  rintro ⟨k', ch', fl₁, fl₂, h⟩
  have henc := hexEncode_inj hc h
  simp [encode] at henc

/-- What `Save` hashes and writes at a node. Every entry's key is the hash of a text; the text is the
    entry's own unless it is bloated, and it is bloated exactly below a new short node above a full
    node. -/
structure Addressed (sha : Str → Str) (c : Codec) (n : Node) : Prop where
  entry : ∀ e ∈ (commit c (hashNode sha c n).1).2, ∃ text ∈ hashedTexts sha c n,
    e.1 = sha text ∧ (Bloated c text → e.2 ≠ text) ∧ (¬ Bloated c text → e.2 = text)
  written : ∀ text ∈ hashedTexts sha c n, ∃ e ∈ (commit c (hashNode sha c n).1).2, e.1 = sha text
  bloated : (∃ text ∈ hashedTexts sha c n, Bloated c text) ↔ newOverFull n

/-- Nothing is hashed or written at a node that is clean or no node in memory. -/
theorem Addressed.of_nothing {n : Node} (htexts : hashedTexts sha c n = [])
    (hentries : (commit c (hashNode sha c n).1).2 = []) (hn : ¬ newOverFull n) :
    Addressed sha c n := by
  refine ⟨?_, ?_, ?_⟩
  · rw [hentries]
    simp
  · rw [htexts]
    simp
  · rw [htexts]
    simpa using hn

theorem Addressed.clean {n : Node} {fl : NodeFlag} (hfl : fl.dirty = false) (hne : fl.hash ≠ [])
    (hform : (∃ k v, n = .short k v fl) ∨ ∃ ch, n = .full ch fl) : Addressed sha c n := by
  rcases hform with ⟨k, v, rfl⟩ | ⟨ch, rfl⟩
  · exact .of_nothing (by simp [hashedTexts, hne]) (by simp [hashNode, commit, hne, hfl])
      (by simp [newOverFull, hfl])
  · exact .of_nothing (by simp [hashedTexts, hne]) (by simp [hashNode, commit, hne, hfl])
      (by simp [newOverFull, hfl])

/-- A new short node over a value or a hash: the text hashed is the text written. -/
theorem Addressed.short_plain (hc : c.Lawful) {k b : Str} {v : Node} (hv : encode c v = .data b)
    (hload : v.isLoaded = false) (hfull : v.isFull = false) :
    Addressed sha c (.short k v newFlag) := by
  obtain ⟨h1, h2, h3⟩ := @save_short sha c k v
  simp only [hload, Bool.false_eq_true, if_false, hfull, List.nil_append] at h1 h2 h3
  have hplain : ¬ Bloated c (hexEncode c (.short k v newFlag)) := not_bloated_short hc hv
  refine ⟨?_, ?_, ?_⟩
  · rw [h1, h2, h3]
    intro e he
    obtain rfl := List.mem_singleton.mp he
    exact ⟨_, List.mem_singleton_self _, rfl, fun h => absurd h hplain, fun _ => rfl⟩
  · rw [h1, h2, h3]
    intro text htext
    obtain rfl := List.mem_singleton.mp htext
    exact ⟨_, List.mem_singleton_self _, rfl⟩
  · rw [h2]
    simpa [newOverFull, hfull] using hplain

/-- A new short node over a full node in memory. -/
theorem Addressed.short_full (hc : c.Lawful) {k : Str} {v : Node} (hv : v.isFull)
    (hkid : Addressed sha c v) (hroot : ∃ h, (commit c (hashNode sha c v).1).1 = .hash h) :
    Addressed sha c (.short k v newFlag) := by
  obtain ⟨h1, h2, h3⟩ := @save_short sha c k v
  obtain ⟨ch, fl, hch⟩ : ∃ ch fl, (hashNode sha c v).1 = .full ch fl := by
    cases v with
    | full ch fl =>
      rw [hashNode]
      split
      · exact ⟨_, _, rfl⟩
      · exact ⟨_, _, rfl⟩
    | null => cases hv
    | value d => cases hv
    | hash d => cases hv
    | short k v fl => cases hv
  have hload : v.isLoaded = true := Node.isLoaded_of_isFull hv
  have hfull : (hashNode sha c v).1.isFull = true := by rw [hch]; rfl
  simp only [hload, if_true, hfull] at h1 h2 h3
  obtain ⟨h, hh⟩ := hroot
  -- the text hashed has the full node inside, the text written its hash
  have hbloated : ∀ fl, Bloated c (hexEncode c (.short k (hashNode sha c v).1 fl)) :=
    fun fl => ⟨k, ch, _, fl, by rw [hch]⟩
  have hne : ∀ fl fl', hexEncode c (.short k (commit c (hashNode sha c v).1).1 fl)
      ≠ hexEncode c (.short k (hashNode sha c v).1 fl') := by
    intro fl fl' heq
    rw [hh] at heq
    exact not_bloated_short hc (b := h) rfl (heq ▸ hbloated fl')
  refine ⟨?_, ?_, ?_⟩
  · rw [h1, h2, h3]
    intro e he
    rcases List.mem_append.mp he with he | he
    · obtain ⟨text, htext, hrest⟩ := hkid.entry e he
      exact ⟨text, List.mem_append_left _ htext, hrest⟩
    · obtain rfl := List.mem_singleton.mp he
      exact ⟨_, List.mem_append_right _ (List.mem_singleton_self _), rfl, fun _ => hne _ _,
        fun h => absurd (hbloated _) h⟩
  · rw [h1, h2, h3]
    intro text htext
    rcases List.mem_append.mp htext with htext | htext
    · obtain ⟨e, he, hk⟩ := hkid.written text htext
      exact ⟨e, List.mem_append_left _ he, hk⟩
    · obtain rfl := List.mem_singleton.mp htext
      exact ⟨_, List.mem_append_right _ (List.mem_singleton_self _), rfl⟩
  · rw [h2]
    exact ⟨fun _ => ⟨rfl, hv⟩,
      fun _ => ⟨_, List.mem_append_right _ (List.mem_singleton_self _), hbloated _⟩⟩

/-- A new full node: its children's entries, and its own text as it was hashed. -/
theorem Addressed.full (hc : c.Lawful) {ch : Fin 17 → Node} (h16 : ch 16 = .null)
    (hkids : ∀ i, i ≠ 16 → Addressed sha c (ch i))
    (hroot : ∀ i, i ≠ 16 → (commit c (hashNode sha c (ch i)).1).1 = (hashNode sha c (ch i)).2) :
    Addressed sha c (.full ch newFlag) := by
  obtain ⟨h1, h2, h3⟩ := @save_full sha c ch
  have hstored : (fun i => if i = 16 then ch i else (commit c (hashNode sha c (ch i)).1).1)
      = fun i => if i = 16 then .null else (hashNode sha c (ch i)).2 := by
    funext i
    split_ifs with hi
    · rw [hi, h16]
    · exact hroot i hi
  rw [hstored] at h3
  set text := hexEncode c (.full (fun i => if i = 16 then .null else (hashNode sha c (ch i)).2)
    newFlag) with htext
  have hplain : ¬ Bloated c text := not_bloated_full hc
  -- a hashed text or an entry is the node's own or belongs to a child
  have hkid : ∀ {α : Type} (f : Fin 17 → List α) (own x : α),
      x ∈ (List.ofFn fun i => if i = 16 then [] else f i).flatten ++ [own] →
        x = own ∨ ∃ i, i ≠ 16 ∧ x ∈ f i := by
    intro α f own x hx
    rcases List.mem_append.mp hx with hx | hx
    · exact .inr (mem_kids.mp hx)
    · exact .inl (List.mem_singleton.mp hx)
  have hmem : ∀ {α : Type} (f : Fin 17 → List α) (own x : α) (i : Fin 17), i ≠ 16 → x ∈ f i →
      x ∈ (List.ofFn fun i => if i = 16 then [] else f i).flatten ++ [own] :=
    fun f own x i hi hx => List.mem_append_left _ (mem_kids.mpr ⟨i, hi, hx⟩)
  refine ⟨?_, ?_, ?_⟩
  · rw [h1, h2, h3]
    intro e he
    rcases hkid _ _ _ he with rfl | ⟨i, hi, he⟩
    · exact ⟨text, List.mem_append_right _ (List.mem_singleton_self _), rfl,
        fun h => absurd h hplain, fun _ => rfl⟩
    · obtain ⟨t, ht, hrest⟩ := (hkids i hi).entry e he
      exact ⟨t, hmem _ _ _ i hi ht, hrest⟩
  · rw [h1, h2, h3]
    intro t ht
    rcases hkid _ _ _ ht with rfl | ⟨i, hi, ht⟩
    · exact ⟨_, List.mem_append_right _ (List.mem_singleton_self _), rfl⟩
    · obtain ⟨e, he, hk⟩ := (hkids i hi).written t ht
      exact ⟨e, hmem _ _ _ i hi he, hk⟩
  · rw [h2]
    constructor
    · rintro ⟨t, ht, hb⟩
      rcases hkid _ _ _ ht with rfl | ⟨i, hi, ht⟩
      · exact absurd hb hplain
      · exact ⟨rfl, i, hi, (hkids i hi).bloated.mp ⟨t, ht, hb⟩⟩
    · rintro ⟨-, i, hi, hn⟩
      obtain ⟨t, ht, hb⟩ := (hkids i hi).bloated.mpr hn
      exact ⟨t, hmem _ _ _ i hi ht, hb⟩

/-! ### Every well-formed trie -/

theorem Rep.addressed (hc : c.Lawful) (hlen : ∀ x, (sha x).length = 64) {A : Set Str} {K : Kind}
    {L : ℕ} {n : Node} {m : Meaning} (h : Rep (Known sha c S A) (FlagOk sha c S A) K L n m) :
    (∀ x ∈ hashedTexts sha c n, x ∈ S) → Addressed sha c n := by
  induction h with
  | null L => exact fun _ => .of_nothing rfl rfl fun h => h
  | hash hh => exact fun _ => .of_nothing rfl rfl fun h => h
  | @leaf L k d fl hk hfl =>
    intro _
    rcases hfl with rfl | ⟨hclean, hknown⟩
    · exact .short_plain hc rfl rfl rfl
    · exact .clean hclean (hknown.ne_nil hlen) (.inl ⟨_, _, rfl⟩)
  | @ext L k v m fl hk hv hfl ih =>
    intro htexts
    rcases hfl with rfl | ⟨hclean, hknown⟩
    · cases hv with
      | hash hh => exact .short_plain hc rfl rfl rfl
      | @full L K ch ms fl hL hch h16 hex hfl =>
        have hsub : ∀ x ∈ hashedTexts sha c (.full ch fl), x ∈ S := by
          intro x hx
          refine htexts x ?_
          rw [(save_short k (.full ch fl)).2.1]
          exact List.mem_append_left _ hx
        have hspec := save_spec hlen (Set.subset_univ A) (.full hL hch h16 hex hfl) hsub
          fun _ _ => Set.mem_univ _
        refine .short_full hc rfl (ih hsub) ?_
        rcases hspec.stands with ⟨hK, -⟩ | ⟨h, hh, -⟩
        · cases hK
        · exact ⟨h, hspec.root.trans hh⟩
    · exact .clean hclean (hknown.ne_nil hlen) (.inl ⟨_, _, rfl⟩)
  | @full L K ch ms fl hL hch h16 hex hfl ih =>
    intro htexts
    rcases hfl with rfl | ⟨hclean, hknown⟩
    · have hsub : ∀ i, i ≠ 16 → ∀ x ∈ hashedTexts sha c (ch i), x ∈ S := by
        intro i hi x hx
        refine htexts x ?_
        rw [(save_full ch).2.1]
        exact List.mem_append_left _ (mem_kids.mpr ⟨i, hi, hx⟩)
      have hnull : ch 16 = .null := by
        have hden := (hch 16).den
        rw [h16] at hden
        exact hden.eq_null.1
      exact .full hc hnull (fun i hi => ih i (hsub i hi)) fun i hi =>
        (save_spec hlen (Set.subset_univ A) (hch i) (hsub i hi) fun _ _ => Set.mem_univ _).root
    · exact .clean hclean (hknown.ne_nil hlen) (.inr ⟨_, rfl⟩)

/-- All pairs in `dirtyHash` are a hash and its text exactly when no bloated text was hashed. -/
theorem Addressed.dirtyHash_iff {root : Node} (h : Addressed sha c root)
    (hinj : Set.InjOn sha {x | x ∈ hashedTexts sha c root
      ++ ((⟨root, []⟩ : Trie).save sha c).dirtyHash.map Prod.snd}) :
    (∀ e ∈ ((⟨root, []⟩ : Trie).save sha c).dirtyHash, sha e.2 = e.1) ↔ ¬ newOverFull root := by
  cases hnull : root.isNull with
  | true =>
    obtain rfl := Node.eq_null hnull
    exact ⟨fun _ h => h, fun _ e he => by cases he⟩
  | false =>
    have hsave : ((⟨root, []⟩ : Trie).save sha c).dirtyHash
        = (commit c (hashNode sha c root).1).2.foldl setEntry [] := by
      simp [Trie.save, hnull]
    obtain ⟨hsub, hkey⟩ := foldl_setEntry (commit c (hashNode sha c root).1).2 []
    rw [← hsave] at hsub hkey
    constructor
    · intro hall hnew
      obtain ⟨text, htext, hb⟩ := h.bloated.mpr hnew
      obtain ⟨e, he, hek⟩ := h.written text htext
      obtain ⟨e', he', hek'⟩ := hkey e (.inr he)
      obtain ⟨text', htext', hk, hne, -⟩ := h.entry e' ((hsub e' he').resolve_left (by simp))
      -- the entry left under that hash was made of the same text
      have hsame : text' = text :=
        hinj (List.mem_append_left _ htext') (List.mem_append_left _ htext)
          (hk.symm.trans (hek'.trans hek))
      subst hsame
      refine hne hb (hinj (List.mem_append_right _ (List.mem_map_of_mem he'))
        (List.mem_append_left _ htext') ?_)
      rw [hall e' he', hk]
    · intro hnew e he
      obtain ⟨text, htext, hk, -, heq⟩ := h.entry e ((hsub e he).resolve_left (by simp))
      rw [heq fun hb => hnew (h.bloated.mp ⟨text, htext, hb⟩), hk]

/-- The texts that `Save` leaves in `dirtyHash` after a run of rounds and the calls of one more. -/
def dirtyTexts (sha : Str → Str) (c : Codec) (addr : Str) (d : Disk) (done : List (List TrieOp))
    (ops : List TrieOp) : List Str :=
  match (runRounds sha c addr d done).1.bind fun d' => d'.run c addr ops with
  | some root => ((⟨root, []⟩ : Trie).save sha c).dirtyHash.map Prod.snd
  | none => []

/-- After any rounds and any calls, `Save` puts only pairs of a hash and its text into `dirtyHash`
    exactly when no new short node of the trie stands above a full node in memory. -/
theorem save_addressed_iff (sha : Str → Str) (c : Codec) (hc : c.Lawful)
    (hlen : ∀ x, (sha x).length = 64) (addr rootHash : Str) (n : ℕ) (hn : 1 ≤ n)
    (done : List (List TrieOp)) (ops : List TrieOp)
    (hops : ∀ ops' ∈ done ++ [ops], ∀ op ∈ ops', op.Valid n)
    (hinj : Set.InjOn sha {x | x ∈ (runRounds sha c addr ⟨rootHash, .empty⟩ (done ++ [ops])).2
      ++ dirtyTexts sha c addr ⟨rootHash, .empty⟩ done ops}) :
    ∃ d root, (runRounds sha c addr ⟨rootHash, .empty⟩ done).1 = some d ∧
      d.run c addr ops = some root ∧
      ((∀ e ∈ ((⟨root, []⟩ : Trie).save sha c).dirtyHash, sha e.2 = e.1) ↔ ¬ newOverFull root) := by
  set S : Set Str := {x | x ∈ (runRounds sha c addr ⟨rootHash, .empty⟩ (done ++ [ops])).2
    ++ dirtyTexts sha c addr ⟨rootHash, .empty⟩ done ops} with hS
  obtain ⟨d, hdone, hd, hlog⟩ := runRounds_spec hc hlen hinj hn [ops] done _ []
    (diskOk_empty addr rootHash n) hops fun x hx => List.mem_append_left _ hx
  obtain ⟨root, d', K, m, hrun, hsaved, hrep, -, -⟩ := hd.round hc hlen hinj hn (hops ops (by simp)) hlog
  have htexts : ∀ x ∈ hashedTexts sha c root, x ∈ S := by
    intro x hx
    refine hlog x ?_
    simp only [runRounds, hrun, hsaved]
    exact List.mem_append_left _ hx
  refine ⟨d, root, hdone, hrun, (hrep.addressed hc hlen htexts).dirtyHash_iff (hinj.mono ?_)⟩
  intro x hx
  rcases List.mem_append.mp hx with hx | hx
  · exact htexts x hx
  · refine List.mem_append_right _ ?_
    rw [dirtyTexts, hdone, Option.bind_some, hrun]
    exact hx

theorem injOn_of_nodup_dedup {f : Str → Str} {l : List Str} (h : (l.dedup.map f).Nodup) :
    Set.InjOn f {x | x ∈ l} := by
  intro x hx y hy hxy
  exact List.inj_on_of_nodup_map h (List.mem_dedup.mpr hx) (List.mem_dedup.mpr hy) hxy

/-- A function with the given hashes on the texts of the given nodes. -/
def shaTable (table : List (Node × String)) (text : Str) : Str :=
  match table.find? fun e => hexEncode rlp e.1 = text with
  | some e => str e.2
  | none => List.replicate 64 48

theorem shaTable_eq (table : List (Node × String)) : shaTable table = fun text =>
    match (table.map fun e => (hexEncode rlp e.1, str e.2)).find? fun e => e.1 = text with
    | some e => e.2
    | none => List.replicate 64 48 :=
  funext (find_hashes table)

/-- SHA-256 on the texts of a trie of two keys with a common first character: the leaves, the full
    node, and the short node above it as it is hashed and as it is written. -/
def partingSha : Str → Str :=
  let leafX := Node.short (str "az") (.value (str "x")) newFlag
  let leafY := Node.short (str "bz") (.value (str "y")) newFlag
  let hashX := "08ecf3cad432326ada2623f1d945a134335c500ca43c33edceab193656dfb611"
  let hashY := "39e80e923b575f97861635faad6e7d31034fea391cce70957e6140fb697ffd12"
  let branch := fun x y : Node => Node.full
    (fun i => if i = 10 then x else if i = 11 then y else .null) newFlag
  let hashBranch := "fc2acc6ebd7d607733dd76a37c2b42996aab9a3b939311e3f235eb3e8b2b966f"
  shaTable [(leafX, hashX), (leafY, hashY),
    (branch (.hash (str hashX)) (.hash (str hashY)), hashBranch),
    (.short (str "0") (branch leafX leafY) newFlag,
      "6b1f81eec5fe895366a74fab0593329c505fc82918839b992740b578a7116cd4"),
    (.short (str "0") (.hash (str hashBranch)) newFlag,
      "535c7e2be7ce573f781be1c64149544a1f015580262e7c7e4a5c4206a269c4eb")]

/-- Two keys with a common first character, saved: the root's text does not have the root's hash. -/
theorem save_not_addressed :
    ∃ root, (⟨[], .empty⟩ : Disk).run rlp (str "c")
        [.update (str "0a") (str "x"), .update (str "0b") (str "y")] = some root ∧
      ¬ ∀ e ∈ ((⟨root, []⟩ : Trie).save partingSha rlp).dirtyHash, partingSha e.2 = e.1 := by
  have heval : ((⟨[], .empty⟩ : Disk).run rlp (str "c")
      [.update (str "0a") (str "x"), .update (str "0b") (str "y")]).map (fun root => decide
        (∀ e ∈ ((⟨root, []⟩ : Trie).save partingSha rlp).dirtyHash, partingSha e.2 = e.1))
      = some false := by
    simp only [partingSha, shaTable_eq, List.map_cons, List.map_nil]
    repeat rw [str_ofList]
    decide +kernel
  obtain ⟨root, hroot, hall⟩ := Option.map_eq_some_iff.mp heval
  exact ⟨root, hroot, by simpa using hall⟩

/-- The second round of the sample loads one leaf and overwrites the other: no short node stands
    above a full one, and all pairs are a hash and its text. -/
theorem save_addressed_sample :
    ∃ d root, (runRounds sampleSha rlp (str "c") ⟨[], .empty⟩
        [[.update (str "0a") (str "x"), .update (str "7b") (str "y")]]).1 = some d ∧
      d.run rlp (str "c") [.get (str "7b"), .update (str "0a") (str "v")] = some root ∧
      ∀ e ∈ ((⟨root, []⟩ : Trie).save sampleSha rlp).dirtyHash, sampleSha e.2 = e.1 := by
  obtain ⟨d, root, hd, hroot, hiff⟩ := save_addressed_iff sampleSha rlp rlp_lawful sampleSha_length
    (str "c") [] 2 (by decide) [[.update (str "0a") (str "x"), .update (str "7b") (str "y")]]
    [.get (str "7b"), .update (str "0a") (str "v")] (by
      repeat rw [str_ofList]
      decide +kernel)
    (injOn_of_nodup_dedup (by
      simp only [sampleSha_eq, sampleHashes, List.map_cons, List.map_nil]
      repeat rw [str_ofList]
      decide +kernel))
  have heval : ((runRounds sampleSha rlp (str "c") ⟨[], .empty⟩
      [[.update (str "0a") (str "x"), .update (str "7b") (str "y")]]).1.bind fun d =>
        (d.run rlp (str "c") [.get (str "7b"), .update (str "0a") (str "v")]).map
          fun root => decide (newOverFull root)) = some false := by
    simp only [sampleSha_eq, sampleHashes, List.map_cons, List.map_nil]
    repeat rw [str_ofList]
    decide +kernel
  rw [hd, Option.bind_some, hroot, Option.map_some] at heval
  exact ⟨d, root, hd, hroot, hiff.mpr (by simpa using heval)⟩

end Tfs.Mpt
