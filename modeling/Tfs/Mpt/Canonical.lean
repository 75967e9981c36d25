import Tfs.Mpt.Shape

/-! When the root hash depends on the map alone.

    Every map has one trie of new nodes in which every full node has two children at least and every
    extension has a key, and so one root hash. `Insert` makes no other trie unless it splits an
    extension at its last character, and `hash` gives that trie's root hash unless it takes the hash of
    an extension above stored nodes: that hash depends on what of the subtree happens to be in memory.
    So the condition is on the trie at each `Save`: no short node has an empty key, and what stands
    below a new one is all in memory. Histories without extensions meet it. -/

namespace Tfs.Mpt
open Tfs.Rlp

/-! ### The condition at `Save` -/

/-- No hash stands for a stored node, here or below. -/
def inMemory : Node → Prop
  | .hash _ => False
  | .short _ nodeVal _ => inMemory nodeVal
  | .full children _ => ∀ i, inMemory (children i)
  | _ => True

instance decidableInMemory : (n : Node) → Decidable (inMemory n)
  | .null => inferInstanceAs (Decidable True)
  | .value _ => inferInstanceAs (Decidable True)
  | .hash _ => inferInstanceAs (Decidable False)
  | .short _ nodeVal _ => decidableInMemory nodeVal
  | .full children _ =>
    have := fun i => decidableInMemory (children i)
    inferInstanceAs (Decidable (∀ i, inMemory (children i)))

/-- Every short node has a key, and what stands below a new one is all in memory. -/
def regular : Node → Prop
  | .short nodeKey nodeVal nodeFlags =>
    nodeKey ≠ [] ∧ (nodeFlags.dirty = true → inMemory nodeVal) ∧ regular nodeVal
  | .full children _ => ∀ i, regular (children i)
  | _ => True

instance decidableRegular : (n : Node) → Decidable (regular n)
  | .null => inferInstanceAs (Decidable True)
  | .value _ => inferInstanceAs (Decidable True)
  | .hash _ => inferInstanceAs (Decidable True)
  | .short _ nodeVal _ =>
    have := decidableRegular nodeVal
    inferInstanceAs (Decidable (_ ∧ (_ → _) ∧ _))
  | .full children _ =>
    have := fun i => decidableRegular (children i)
    inferInstanceAs (Decidable (∀ i, regular (children i)))

/-- The trie in memory is regular at every `Save` of these rounds. -/
def savesRegular (sha : Str → Str) (c : Codec) (addr : Str) : Disk → List (List TrieOp) → Bool
  | _, [] => true
  | d, ops :: rounds =>
    match d.run c addr ops with
    | none => true
    | some root => decide (regular root) &&
      match d.saved sha c addr root with
      | none => true
      | some d' => savesRegular sha c addr d' rounds

/-- Without extensions a trie is regular. -/
theorem Shaped.regular {E : Prop} (hext : ¬ E) {R : Str → Kind → ℕ → Meaning → Prop}
    {F : NodeFlag → Kind → ℕ → Meaning → Prop} {K : Kind} {L : ℕ} {n : Node} {m : Meaning}
    (hrep : Rep R F K L n m) : Shaped E n → regular n := by
  induction hrep with
  | null L => exact fun _ => trivial
  | hash hh => exact fun _ => trivial
  | leaf hk hfl =>
    intro _
    refine ⟨?_, fun _ => trivial, trivial⟩
    rintro rfl
    have := hk.pos
    rw [← hk.length] at this
    cases this
  | ext hk hn hfl ih => exact fun hshaped => absurd (hshaped.below_ext hn.ne_value).1 hext
  | full hL hch h16 hex hfl ih => exact fun hshaped i => ih i (hshaped.child i)

/-! ### The trie of a map -/

/-- `Expanded K L n m`: `n` is the trie of new nodes that means `m`, with two children at least at every
    full node and a key at every extension. -/
inductive Expanded : Kind → ℕ → Node → Meaning → Prop
  | null (L : ℕ) : Expanded .null L .null fun _ => none
  | leaf {L : ℕ} {k d : Str} : Suffix L k →
      Expanded .short L (.short k (.value d) newFlag) (below k fun _ => some d)
  | ext {L : ℕ} {k : Str} {n : Node} {m : Meaning} : k ≠ [] → (∀ x ∈ k, isHexChar x) →
      Expanded .branch L n m → Expanded .short (k.length + L) (.short k n newFlag) (below k m)
  | full {L : ℕ} {K : Fin 17 → Kind} {ch : Fin 17 → Node} {ms : Fin 17 → Meaning} : 1 ≤ L →
      (∀ i, Expanded (K i) L (ch i) (ms i)) → K 16 = .null →
      (∃ i j, i ≠ j ∧ K i ≠ .null ∧ K j ≠ .null) →
      Expanded .branch (L + 1) (.full ch newFlag) (branchOf ms)

/-- Every used child of a full node has its character. -/
theorem exists_hexChar : ∀ i : Fin 17, i ≠ 16 → ∃ x : UInt8, isHexChar x ∧ childIndex x = some i := by
  have h : ∀ i : Fin 17, i ≠ 16 → isHexChar (hexDigit (UInt8.ofNat i)) ∧
      childIndex (hexDigit (UInt8.ofNat i)) = some i := by decide
  exact fun i hi => ⟨_, (h i hi).1, (h i hi).2⟩

/-- A hexadecimal piece in front of a key rest. -/
theorem Suffix.append_mk {L : ℕ} {q t : Str} (hq : ∀ x ∈ q, isHexChar x) (ht : Suffix L t) :
    Suffix (q.length + L) (q ++ t) := by
  obtain ⟨t₀, rfl, ht₀, hlen⟩ := ht
  refine ⟨q ++ t₀, (List.append_assoc q t₀ [term]).symm, fun x hx => ?_, ?_⟩
  · rcases List.mem_append.mp hx with hx | hx
    · exact hq x hx
    · exact ht₀ x hx
  · rw [List.length_append, hlen]

theorem Suffix.cons_mk {L : ℕ} {x : UInt8} {t : Str} (hx : isHexChar x) (ht : Suffix L t) :
    Suffix (L + 1) (x :: t) := by
  have h := ht.append_mk (q := [x]) fun y hy => by rwa [List.mem_singleton.mp hy]
  rwa [List.length_singleton, Nat.add_comm] at h

/-- Two key rests of a map that part at once. -/
def Parting (L : ℕ) (m : Meaning) : Prop :=
  ∃ x y t u, x ≠ y ∧ Suffix L (x :: t) ∧ Suffix L (y :: u) ∧ m (x :: t) ≠ none ∧ m (y :: u) ≠ none

theorem Expanded.eq_null {L : ℕ} {n : Node} {m : Meaning} (h : Expanded .null L n m) :
    n = .null ∧ m = fun _ => none := by
  cases h
  exact ⟨rfl, rfl⟩

/-- A trie that is not null stands for a map that is not empty; below a full node two keys part at
    once. -/
theorem Expanded.inhabited {K : Kind} {L : ℕ} {n : Node} {m : Meaning} (h : Expanded K L n m) :
    (K ≠ .null → ∃ t, Suffix L t ∧ m t ≠ none) ∧ (K = .branch → Parting L m) := by
  induction h with
  | null L => exact ⟨fun h => absurd rfl h, fun h => by cases h⟩
  | @leaf L k d hk =>
    refine ⟨fun _ => ⟨k, hk, ?_⟩, fun h => by cases h⟩
    rw [below_suffix hk hk, if_pos rfl]
    simp
  | @ext L k n m hne hk hn ih =>
    refine ⟨fun _ => ?_, fun h => by cases h⟩
    obtain ⟨t, ht, hm⟩ := ih.1 (by simp)
    exact ⟨k ++ t, ht.append_mk hk, by rwa [below_append]⟩
  | @full L K ch ms hL hch h16 htwo ih =>
    have hkey : ∀ i, K i ≠ .null → ∃ x t, childIndex x = some i ∧ Suffix (L + 1) (x :: t) ∧
        branchOf ms (x :: t) ≠ none := by
      intro i hi
      obtain ⟨t, ht, hm⟩ := (ih i).1 hi
      have hi16 : i ≠ 16 := by
        rintro rfl
        exact hi h16
      obtain ⟨x, hx, hxi⟩ := exists_hexChar i hi16
      exact ⟨x, t, hxi, ht.cons_mk hx, by rwa [branchOf_cons hxi]⟩
    obtain ⟨i, j, hij, hi, hj⟩ := htwo
    obtain ⟨x, t, hx, ht, hm⟩ := hkey i hi
    obtain ⟨y, u, hy, hu, hm'⟩ := hkey j hj
    refine ⟨fun _ => ⟨_, ht, hm⟩, fun _ => ⟨x, y, t, u, ?_, ht, hu, hm, hm'⟩⟩
    rintro rfl
    rw [hx] at hy
    exact hij (Option.some.inj hy)

/-- All keys of a short node begin with its key, which is not empty. -/
theorem Expanded.begins {L : ℕ} {k : Str} {v : Node} {fl : NodeFlag} {m : Meaning}
    (h : Expanded .short L (.short k v fl) m) :
    k ≠ [] ∧ ∀ t, Suffix L t → m t ≠ none → k <+: t := by
  cases h with
  | leaf hk =>
    refine ⟨?_, fun t ht hm => ?_⟩
    · rintro rfl
      have := hk.pos
      rw [← hk.length] at this
      cases this
    · by_contra hpre
      exact hm (below_of_not hpre _)
  | ext hne hk hn =>
    refine ⟨hne, fun t ht hm => ?_⟩
    by_contra hpre
    exact hm (below_of_not hpre _)

/-- No keys of a short node part at once. -/
theorem Expanded.not_parting {L : ℕ} {n : Node} {m : Meaning} (h : Expanded .short L n m) :
    ¬ Parting L m := by
  obtain ⟨k, v, fl, rfl⟩ : ∃ k v fl, n = .short k v fl := by
    cases h with
    | leaf => exact ⟨_, _, _, rfl⟩
    | ext => exact ⟨_, _, _, rfl⟩
  rintro ⟨x, y, t, u, hxy, ht, hu, hm, hm'⟩
  obtain ⟨hne, hbegins⟩ := h.begins
  obtain ⟨z, k, rfl⟩ := List.exists_cons_of_ne_nil hne
  have hx := (List.cons_prefix_cons.mp (hbegins _ ht hm)).1
  have hy := (List.cons_prefix_cons.mp (hbegins _ hu hm')).1
  exact hxy (hx.symm.trans hy)

/-- The map determines the kind. -/
theorem Expanded.kind_eq {K K' : Kind} {L : ℕ} {n n' : Node} {m m' : Meaning}
    (h : Expanded K L n m) (h' : Expanded K' L n' m') (hm : ∀ t, Suffix L t → m t = m' t) : K = K' := by
  have hparting : Parting L m ↔ Parting L m' := by
    refine exists_congr fun x => exists_congr fun y => exists_congr fun t => exists_congr fun u =>
      and_congr_right fun _ => and_congr_right fun ht => and_congr_right fun hu => ?_
    rw [hm _ ht, hm _ hu]
  have hsome : (∃ t, Suffix L t ∧ m t ≠ none) ↔ ∃ t, Suffix L t ∧ m' t ≠ none :=
    exists_congr fun t => and_congr_right fun ht => by rw [hm t ht]
  -- a kind is told by whether there are keys, and whether two part at once
  have hkind : ∀ {K : Kind} {n : Node} {m : Meaning}, Expanded K L n m →
      (K ≠ .null ↔ ∃ t, Suffix L t ∧ m t ≠ none) ∧ (K = .branch ↔ Parting L m) := by
    intro K n m h
    refine ⟨⟨h.inhabited.1, ?_⟩, h.inhabited.2, fun hp => ?_⟩
    · rintro ⟨t, -, ht⟩ rfl
      rw [h.eq_null.2] at ht
      exact ht rfl
    · cases K with
      | null =>
        obtain ⟨x, y, t, u, -, -, -, hm, -⟩ := hp
        rw [h.eq_null.2] at hm
        exact absurd rfl hm
      | short => exact absurd hp h.not_parting
      | branch => rfl
  have hnull : K ≠ .null ↔ K' ≠ .null := (hkind h).1.trans (hsome.trans (hkind h').1.symm)
  have hbranch : K = .branch ↔ K' = .branch := (hkind h).2.trans (hparting.trans (hkind h').2.symm)
  cases K <;> cases K' <;> simp_all

/-- A key that two key rests begin with which part after `k` is no longer than `k`. -/
theorem prefix_of_parting {k k' t u : Str} {x y : UInt8} (hxy : x ≠ y) (hx : k' <+: k ++ x :: t)
    (hy : k' <+: k ++ y :: u) : k' <+: k := by
  rcases le_or_gt k'.length k.length with hle | hlt
  · exact List.prefix_of_prefix_length_le hx (List.prefix_append k _) hle
  · have hlast : ∀ {z : UInt8} {w : Str}, k' <+: k ++ z :: w → k ++ [z] <+: k' := by
      intro z w hz
      have hw : k ++ [z] <+: k ++ z :: w := ⟨w, by simp⟩
      refine List.prefix_of_prefix_length_le hw hz ?_
      rw [List.length_append, List.length_singleton]
      exact hlt
    have hboth := List.prefix_of_prefix_length_le (hlast hx) (hlast hy) (by simp)
    rw [List.prefix_append_right_inj, List.cons_prefix_cons] at hboth
    exact absurd hboth.1 hxy

/-- Two keys part after an extension's key. -/
theorem Expanded.parting_below {L : ℕ} {k : Str} {v : Node} {m : Meaning} (hk : ∀ x ∈ k, isHexChar x)
    (h : Expanded .branch L v m) : ∃ x y t u, x ≠ y ∧
      (Suffix (k.length + L) (k ++ x :: t) ∧ Mpt.below k m (k ++ x :: t) ≠ none) ∧
      Suffix (k.length + L) (k ++ y :: u) ∧ Mpt.below k m (k ++ y :: u) ≠ none := by
  obtain ⟨x, y, t, u, hxy, ht, hu, hm, hm'⟩ := h.inhabited.2 rfl
  refine ⟨x, y, t, u, hxy, ⟨ht.append_mk hk, ?_⟩, hu.append_mk hk, ?_⟩
  · rwa [below_append]
  · rwa [below_append]

/-- The key of a short node above a full node is the longest that all its keys begin with. -/
theorem Expanded.key_longest {L L' : ℕ} {k k' : Str} {v v' : Node} {fl : NodeFlag} {m m' : Meaning}
    (hk : ∀ x ∈ k, isHexChar x) (h : Expanded .branch L v m)
    (h' : Expanded .short L' (.short k' v' fl) m') (hL : k.length + L = L')
    (hm : ∀ t, Suffix (k.length + L) t → Mpt.below k m t = m' t) : k' <+: k := by
  subst hL
  obtain ⟨x, y, t, u, hxy, ⟨ht, hmt⟩, hu, hmu⟩ := h.parting_below hk
  rw [hm _ ht] at hmt
  rw [hm _ hu] at hmu
  exact prefix_of_parting hxy (h'.begins.2 _ ht hmt) (h'.begins.2 _ hu hmu)

/-- A leaf's key is too long for an extension. -/
theorem Expanded.leaf_ne_ext {L L' : ℕ} {k k' d : Str} {v : Node} {m : Meaning} (hk : Suffix L k)
    (hk' : ∀ x ∈ k', isHexChar x) (h : Expanded .branch L' v m) (hL : L = k'.length + L')
    (hm : ∀ t, Suffix L t → Mpt.below k (fun _ => some d) t = Mpt.below k' m t) : False := by
  have hpre : k <+: k' := by
    have hleaf : Expanded .short L (.short k (.value d) newFlag) (Mpt.below k fun _ => some d) :=
      .leaf hk
    refine h.key_longest hk' hleaf hL.symm fun t ht => ?_
    exact (hm t (hL ▸ ht)).symm
  have hmem : term ∈ k' := by
    obtain ⟨t, rfl, -, -⟩ := hk
    exact hpre.subset (by simp)
  have := hk' _ hmem
  rw [isHexChar_term] at this
  cases this

/-- A map has one trie. -/
theorem Expanded.unique {K : Kind} {L : ℕ} {n : Node} {m : Meaning} (h : Expanded K L n m) :
    ∀ {K' : Kind} {L' : ℕ} {n' : Node} {m' : Meaning}, Expanded K' L' n' m' → L = L' →
      (∀ t, Suffix L t → m t = m' t) → n = n' := by
  induction h with
  | null L =>
    intro K' L' n' m' h' hL hm
    subst hL
    obtain rfl := (Expanded.null L).kind_eq h' hm
    exact h'.eq_null.1.symm
  | @leaf L k d hk =>
    intro K' L' n' m' h' hL hm
    subst hL
    obtain rfl := (Expanded.leaf hk).kind_eq h' hm
    cases h' with
    | @leaf _ k' d' hk' =>
      have hval := hm k hk
      rw [below_suffix hk hk, if_pos rfl, below_suffix hk' hk] at hval
      split_ifs at hval with heq
      · cases hval
        rw [heq]
    | ext _ hk' hn' => exact (Expanded.leaf_ne_ext hk hk' hn' rfl hm).elim
  | @ext L k n m hne hk hn ih =>
    intro K' L' n' m' h' hL hm
    subst hL
    obtain rfl := (Expanded.ext hne hk hn).kind_eq h' hm
    generalize hL' : k.length + L = L' at h'
    cases h' with
    | leaf hk' =>
      exact (Expanded.leaf_ne_ext hk' hk hn hL'.symm fun t ht => (hm t (hL' ▸ ht)).symm).elim
    | @ext L'' k' n'' m'' hne' hk' hn' =>
      have hpre := hn.key_longest hk (.ext hne' hk' hn') hL' hm
      have hpre' := hn'.key_longest hk' (.ext hne hk hn) hL'.symm fun t ht =>
        (hm t (hL' ▸ ht)).symm
      obtain rfl := hpre.eq_of_length (le_antisymm hpre.length_le hpre'.length_le)
      rw [ih hn' (by omega) fun t ht => ?_]
      have := hm _ (ht.append_mk hk)
      rwa [below_append, below_append] at this
  | @full L K ch ms hL hch h16 htwo ih =>
    intro K' L' n' m' h' hL' hm
    subst hL'
    obtain rfl := (Expanded.full hL hch h16 htwo).kind_eq h' hm
    cases h' with
    | @full _ K'' ch'' ms'' _ hch'' h16'' _ =>
      have hkids : ch = ch'' := by
        funext i
        by_cases hi : i = 16
        · subst hi
          have h1 := hch 16
          have h2 := hch'' 16
          rw [h16] at h1
          rw [h16''] at h2
          rw [h1.eq_null.1, h2.eq_null.1]
        · refine ih i (hch'' i) rfl fun t ht => ?_
          obtain ⟨x, hx, hxi⟩ := exists_hexChar i hi
          have := hm (x :: t) (ht.cons_mk hx)
          rwa [branchOf_cons hxi, branchOf_cons hxi] at this
      rw [hkids]

theorem Expanded.den {sha : Str → Str} {c : Codec} {S : Set Str} {K : Kind} {L : ℕ} {n : Node}
    {m : Meaning} (h : Expanded K L n m) : Den sha c S K L n m := by
  induction h with
  | null L => exact .null L
  | leaf hk => exact .leaf hk
  | ext _ hk _ ih => exact .ext hk ih
  | full hL _ h16 htwo ih => exact .full hL ih h16 (htwo.imp fun i hi => hi.choose_spec.2.1)

/-- The kind `null` belongs to the null pointer only. -/
theorem Expanded.isNull {K : Kind} {L : ℕ} {n : Node} {m : Meaning} (h : Expanded K L n m) :
    n.isNull = true ↔ K = .null := by
  cases h <;> simp [Node.isNull]

/-- A branch is a full node. -/
theorem Expanded.isFull {L : ℕ} {n : Node} {m : Meaning} (h : Expanded .branch L n m) :
    n.isFull = true := by
  cases h
  rfl

theorem Expanded.ne_value {L : ℕ} {n : Node} {m : Meaning} (h : Expanded .branch L n m) (d : Str) :
    n ≠ .value d := by
  rintro rfl
  cases h

/-! ### Its hash -/

section Hashes

variable (sha : Str → Str) (c : Codec)

/-- The node that `hash` hands to the parent. -/
def reference (n : Node) : Node := (hashNode sha c n).2

/-- The entries that `Save` writes for a trie. -/
def savedEntries (n : Node) : List (Str × Str) := (commit c (hashNode sha c n).1).2

/-- The text hashed for a new node: that of a full node has its children's hashes, that of a short node
    has its child in full. -/
def ownText : Node → Str
  | .full children _ =>
    hexEncode c (.full (fun i => if i = 16 then .null else reference sha c (children i)) newFlag)
  | n => hexEncode c n

/-- The text stored for a new node: with hashes for the children. -/
def storedText : Node → Str
  | .short nodeKey nodeVal nodeFlags =>
    hexEncode c (.short nodeKey (if nodeVal.isFull then reference sha c nodeVal else nodeVal) nodeFlags)
  | n => ownText sha c n

/-- The entry of a new node. -/
def ownEntry (n : Node) : Str × Str := (sha (ownText sha c n), storedText sha c n)

/-- What `Save` does at a new node, given what it writes and hashes below. -/
structure SavedAs (n : Node) (kids : List (Str × Str)) (texts : List Str) : Prop where
  reference : reference sha c n = .hash (sha (ownText sha c n))
  root : (commit c (hashNode sha c n).1).1 = .hash (sha (ownText sha c n))
  entries : savedEntries sha c n = kids ++ [ownEntry sha c n]
  hashed : hashedTexts sha c n = texts ++ [ownText sha c n]

variable {sha c}

theorem savedAs_leaf (k d : Str) : SavedAs sha c (.short k (.value d) newFlag) [] [] := by
  obtain ⟨h1, h2, h3⟩ := @save_short sha c k (.value d)
  simp only [Node.isLoaded, Bool.false_eq_true, if_false, Node.isFull, List.nil_append] at h1 h2 h3
  refine ⟨?_, ?_, ?_, h2⟩
  · rw [reference, h1]
    rfl
  · rw [h1, h3]
    rfl
  · rw [savedEntries, h1, h3]
    rfl

/-- A new extension above a full node in memory. -/
theorem savedAs_ext {k : Str} {v : Node} (hv : v.isFull = true)
    (hroot : (commit c (hashNode sha c v).1).1 = reference sha c v) :
    SavedAs sha c (.short k v newFlag) (savedEntries sha c v) (hashedTexts sha c v) := by
  obtain ⟨h1, h2, h3⟩ := @save_short sha c k v
  have hload : v.isLoaded = true := Node.isLoaded_of_isFull hv
  have hfull : (hashNode sha c v).1.isFull = true := by
    cases v with
    | full ch fl => rw [hashNode]; split <;> rfl
    | null => cases hv
    | value d => cases hv
    | hash d => cases hv
    | short k v fl => cases hv
  simp only [hload, if_true, hfull, hroot] at h1 h2 h3
  have htext : hexEncode c (.short k (hashNode sha c v).1 newFlag)
      = ownText sha c (.short k v newFlag) := by
    simp only [ownText, hexEncode, encode, (encode_hashNode v).1]
  have hstored : storedText sha c (.short k v newFlag)
      = hexEncode c (.short k (reference sha c v) newFlag) := by
    rw [storedText, if_pos hv]
  rw [htext] at h1 h2 h3
  refine ⟨?_, ?_, ?_, h2⟩
  · rw [reference, h1]
  · rw [h1, h3]
  · rw [savedEntries, h1, h3, ownEntry, hstored]
    rfl

/-- A new full node. -/
theorem savedAs_full {ch : Fin 17 → Node} (h16 : ch 16 = .null)
    (hroot : ∀ i, i ≠ 16 → (commit c (hashNode sha c (ch i)).1).1 = reference sha c (ch i)) :
    SavedAs sha c (.full ch newFlag)
      (List.ofFn fun i => if i = 16 then [] else savedEntries sha c (ch i)).flatten
      (List.ofFn fun i => if i = 16 then [] else hashedTexts sha c (ch i)).flatten := by
  obtain ⟨h1, h2, h3⟩ := @save_full sha c ch
  have hstored : (fun i => if i = 16 then ch i else (commit c (hashNode sha c (ch i)).1).1)
      = fun i => if i = 16 then .null else reference sha c (ch i) := by
    funext i
    split_ifs with hi
    · rw [hi, h16]
    · exact hroot i hi
  rw [hstored] at h3
  refine ⟨?_, ?_, ?_, h2⟩
  · rw [reference, h1]
    rfl
  · rw [h1, h3]
    rfl
  · rw [savedEntries, h1, h3]
    rfl

/-- `Commit` leaves the reference that `hash` handed out. -/
theorem Expanded.root {K : Kind} {L : ℕ} {n : Node} {m : Meaning} (h : Expanded K L n m) :
    (commit c (hashNode sha c n).1).1 = reference sha c n := by
  induction h with
  | null => rfl
  | leaf hk => exact (savedAs_leaf _ _).root.trans (savedAs_leaf _ _).reference.symm
  | ext _ _ hn ih =>
    have h := savedAs_ext (k := ‹Str›) hn.isFull ih
    exact h.root.trans h.reference.symm
  | @full L K ch ms hL hch h16 htwo ih =>
    have hnull := hch 16
    rw [h16] at hnull
    have h := savedAs_full hnull.eq_null.1 fun i _ => ih i
    exact h.root.trans h.reference.symm

theorem Expanded.savedAs_ext {L : ℕ} {k : Str} {v : Node} {m : Meaning} (h : Expanded .branch L v m) :
    SavedAs sha c (.short k v newFlag) (savedEntries sha c v) (hashedTexts sha c v) :=
  Mpt.savedAs_ext h.isFull h.root

theorem Expanded.savedAs_full {L : ℕ} {K : Fin 17 → Kind} {ch : Fin 17 → Node} {ms : Fin 17 → Meaning}
    (hch : ∀ i, Expanded (K i) L (ch i) (ms i)) (h16 : K 16 = .null) :
    SavedAs sha c (.full ch newFlag)
      (List.ofFn fun i => if i = 16 then [] else savedEntries sha c (ch i)).flatten
      (List.ofFn fun i => if i = 16 then [] else hashedTexts sha c (ch i)).flatten := by
  have hnull := hch 16
  rw [h16] at hnull
  exact Mpt.savedAs_full hnull.eq_null.1 fun i _ => (hch i).root

/-- A trie that is not null is referred to by the hash of its text. -/
theorem Expanded.reference_eq {K : Kind} {L : ℕ} {n : Node} {m : Meaning} (h : Expanded K L n m)
    (hK : K ≠ .null) : reference sha c n = .hash (sha (ownText sha c n)) := by
  cases h with
  | null => exact absurd rfl hK
  | leaf hk => exact (savedAs_leaf _ _).reference
  | ext _ _ hn => exact hn.savedAs_ext.reference
  | full _ hch h16 _ => exact (Expanded.savedAs_full hch h16).reference

/-- One text is stored for each text hashed. -/
theorem Expanded.storedText_eq (hc : c.Lawful) {K K' : Kind} {L L' : ℕ} {n n' : Node} {m m' : Meaning}
    (h : Expanded K L n m) (h' : Expanded K' L' n' m') (hK : K ≠ .null) (hK' : K' ≠ .null)
    (htext : ownText sha c n = ownText sha c n') : storedText sha c n = storedText sha c n' := by
  -- only the text of an extension is not stored as it is hashed
  have hforms : ∀ {K : Kind} {L : ℕ} {n : Node} {m : Meaning}, Expanded K L n m → K ≠ .null →
      (∃ k v L m, n = .short k v newFlag ∧ Expanded .branch L v m ∧ Bloated c (ownText sha c n)) ∨
        ¬ Bloated c (ownText sha c n) ∧ storedText sha c n = ownText sha c n := by
    intro K L n m h hK
    cases h with
    | null => exact absurd rfl hK
    | leaf hk => exact .inr ⟨not_bloated_short hc rfl, rfl⟩
    | @ext L k v m _ hk hv =>
      refine .inl ⟨k, v, L, m, rfl, hv, ?_⟩
      cases hv
      exact ⟨_, _, _, _, rfl⟩
    | full => exact .inr ⟨not_bloated_full hc, rfl⟩
  rcases hforms h hK with ⟨k, v, l, w, rfl, hv, hb⟩ | ⟨hb, heq⟩
  · rcases hforms h' hK' with ⟨k', v', l', w', rfl, hv', -⟩ | ⟨hb', -⟩
    · obtain ⟨rfl, henc⟩ := encode_short_inj hc (hexEncode_inj hc htext)
      have hthere : ∀ {L : ℕ} {n : Node} {m : Meaning}, Expanded .branch L n m → n.isNull = false := by
        intro L n m h
        cases h
        rfl
      have hden : Den sha c ∅ .branch l v w := hv.den
      obtain ⟨-, rfl, hL⟩ := hden.functional hc (Set.injOn_empty sha) hv'.den
        ((hthere hv).trans (hthere hv').symm) henc
      have hsame : v = v' := hv.unique hv' (hL (by simp)) fun _ _ => rfl
      rw [hsame]
    · exact absurd (htext ▸ hb) hb'
  · rcases hforms h' hK' with ⟨k', v', l', w', rfl, hv', hb'⟩ | ⟨-, heq'⟩
    · exact absurd (htext ▸ hb') hb
    · rw [heq, heq', htext]

variable (sha c)

/-- An entry of a node of a map's trie, made of a text in `S`. -/
def OwnEntry (S : Set Str) (e : Str × Str) : Prop :=
  ∃ K L n m, Expanded K L n m ∧ K ≠ .null ∧ ownText sha c n ∈ S ∧ e = ownEntry sha c n

variable {sha c} {S : Set Str}

theorem OwnEntry.mono {S' : Set Str} (hsub : S ⊆ S') {e : Str × Str} (h : OwnEntry sha c S e) :
    OwnEntry sha c S' e := by
  obtain ⟨K, L, n, m, hn, hK, hS, rfl⟩ := h
  exact ⟨K, L, n, m, hn, hK, hsub hS, rfl⟩

/-- Entries under one hash are equal, when no two hashed texts share a hash. -/
theorem OwnEntry.eq (hc : c.Lawful) (hinj : Set.InjOn sha S) {e e' : Str × Str}
    (h : OwnEntry sha c S e) (h' : OwnEntry sha c S e') (hkey : e.1 = e'.1) : e.2 = e'.2 := by
  obtain ⟨K, L, n, m, hn, hK, hS, rfl⟩ := h
  obtain ⟨K', L', n', m', hn', hK', hS', rfl⟩ := h'
  exact hn.storedText_eq hc hn' hK hK' (hinj hS hS' hkey)

/-- Every text that `Commit` writes is an encoding. -/
theorem commit_ne_nil (hc : c.Lawful) (n : Node) : ∀ e ∈ (commit c n).2, e.2 ≠ [] := by
  induction n with
  | null => exact fun e he => by cases he
  | value d => exact fun e he => by cases he
  | hash d => exact fun e he => by cases he
  | short k v fl ih =>
    intro e he
    rw [commit] at he
    split_ifs at he
    · cases he
    · rcases List.mem_append.mp he with he | he
      · exact ih e he
      · obtain rfl := List.mem_singleton.mp he
        exact hexEncode_ne_nil hc _
    · obtain rfl := List.mem_singleton.mp he
      exact hexEncode_ne_nil hc _
  | full ch fl ih =>
    intro e he
    rw [commit] at he
    split_ifs at he
    · cases he
    · rcases List.mem_append.mp he with he | he
      · obtain ⟨i, -, he⟩ := mem_kids.mp he
        exact ih i e he
      · obtain rfl := List.mem_singleton.mp he
        exact hexEncode_ne_nil hc _

end Hashes

/-! ### Tries in the store -/

/-- The store holds the trie of the map `m` under the hash `h`; `E` says whether it may have
    extensions. -/
def StoredTrie (sha : Str → Str) (c : Codec) (value : Str → Str) (E : Prop) (h : Str) (K : Kind) (L : ℕ)
    (m : Meaning) : Prop :=
  ∃ t, Expanded K L t m ∧ Shaped E t ∧ reference sha c t = .hash h ∧
    ∀ e ∈ savedEntries sha c t, value e.1 = e.2

/-- Flags are new, or carry the hash of the node's map. -/
def StoredFlag (sha : Str → Str) (c : Codec) (value : Str → Str) (E : Prop) (fl : NodeFlag) (K : Kind)
    (L : ℕ) (m : Meaning) : Prop :=
  fl = newFlag ∨ fl.dirty = false ∧ StoredTrie sha c value E fl.hash K L m

section StoredHash

variable {sha : Str → Str} {c : Codec} {value value' : Str → Str} {E : Prop}

theorem StoredTrie.ne_null {K : Kind} {L : ℕ} {h : Str} {m : Meaning}
    (hs : StoredTrie sha c value E h K L m) : K ≠ .null := by
  rintro rfl
  obtain ⟨t, ht, -, href, -⟩ := hs
  rw [ht.eq_null.1] at href
  cases href

theorem StoredTrie.hash_length (hlen : ∀ x, (sha x).length = 64) {K : Kind} {L : ℕ} {h : Str}
    {m : Meaning} (hs : StoredTrie sha c value E h K L m) : h.length = 64 := by
  have hK := hs.ne_null
  obtain ⟨t, ht, -, href, -⟩ := hs
  rw [ht.reference_eq hK] at href
  rw [← Node.hash.inj href]
  exact hlen _

/-- A store that keeps what it has keeps the meaning of hashes. -/
theorem StoredTrie.mono (hc : c.Lawful) (hkeep : ∀ h, value h ≠ [] → value' h = value h) {K : Kind}
    {L : ℕ} {h : Str} {m : Meaning} (hs : StoredTrie sha c value E h K L m) :
    StoredTrie sha c value' E h K L m := by
  obtain ⟨t, ht, hshaped, href, hvalue⟩ := hs
  refine ⟨t, ht, hshaped, href, fun e he => ?_⟩
  rw [hkeep _ (by rw [hvalue e he]; exact commit_ne_nil hc _ e he), hvalue e he]

/-- A child of a stored trie's node is stored, unless it is null. -/
theorem Expanded.child_stored {K : Kind} {L : ℕ} {t : Node} {m : Meaning} (ht : Expanded K L t m)
    (hshaped : Shaped E t) (hvalue : ∀ e ∈ savedEntries sha c t, value e.1 = e.2) :
    (K = .null ∧ t = .null ∧ m = fun _ => none) ∨
      reference sha c t = .hash (sha (ownText sha c t)) ∧
        StoredTrie sha c value E (sha (ownText sha c t)) K L m := by
  by_cases hK : K = .null
  · subst hK
    exact .inl ⟨rfl, ht.eq_null⟩
  · exact .inr ⟨ht.reference_eq hK, t, ht, hshaped, ht.reference_eq hK, hvalue⟩

/-- What the stored text of a full node has for a child: nothing, or the hash of a stored trie. -/
theorem Expanded.kid_stored {L : ℕ} {K : Fin 17 → Kind} {ch : Fin 17 → Node} {ms : Fin 17 → Meaning}
    {fl : NodeFlag} (hch : ∀ i, Expanded (K i) L (ch i) (ms i)) (h16 : K 16 = .null)
    (hshaped : Shaped E (.full ch fl))
    (hvalue : ∀ e ∈ (List.ofFn fun i => if i = 16 then [] else savedEntries sha c (ch i)).flatten,
      value e.1 = e.2) :
    let kids := fun i => if i = 16 then Node.null else reference sha c (ch i)
    ∀ i, (K i = .null ∧ kids i = .null ∧ ms i = fun _ => none) ∨
      ∃ h, kids i = .hash h ∧ StoredTrie sha c value E h (K i) L (ms i) := by
  intro kids i
  by_cases hi : i = 16
  · subst hi
    have hnull := hch 16
    rw [h16] at hnull
    exact .inl ⟨h16, rfl, hnull.eq_null.2⟩
  · have hcase := (hch i).child_stored (hshaped.child i) fun e he =>
      hvalue e (mem_kids.mpr ⟨i, hi, he⟩)
    simp only [kids, if_neg hi]
    rcases hcase with ⟨hnull, hkid, hm⟩ | ⟨href, hstored⟩
    · exact .inl ⟨hnull, by rw [hkid]; rfl, hm⟩
    · exact .inr ⟨_, href, hstored⟩

/-- A stored node is read back with its children's hashes, and keeps the shape. -/
theorem stored_load (hc : c.Lawful) (hlen : ∀ x, (sha x).length = 64) {env : TrieEnv}
    (henv : env.codec = c) {h : Str} {K : Kind} {L : ℕ} {m : Meaning}
    (hs : StoredTrie sha c env.mptValue E h K L m) :
    ∃ n, descendKey env h = some n ∧ n.isLoaded ∧ Shaped E n ∧
      Rep (StoredTrie sha c env.mptValue E) (StoredFlag sha c env.mptValue E) K L n m := by
  have hflag : StoredFlag sha c env.mptValue E ⟨h, false⟩ K L m := .inr ⟨rfl, hs⟩
  have hread : ∀ n, env.mptValue h = hexEncode c n →
      descendKey env h = (c.parse (c.out (encode c n))).map (decodeNode c h) := by
    intro n hn
    rw [descendKey, if_neg (by rw [hn]; exact hexEncode_ne_nil hc n), hn, henv, hexEncode,
      fromHex_toHex]
  have hK := hs.ne_null
  obtain ⟨t, ht, hshaped, href, hvalue⟩ := hs
  rw [ht.reference_eq hK] at href
  cases href
  cases ht with
  | null => exact absurd rfl hK
  | @leaf _ k d hk =>
    have hv := hvalue _ (by rw [(savedAs_leaf k d).entries]; exact List.mem_singleton_self _)
    refine ⟨_, ?_, rfl, .leaf k d ⟨_, false⟩, .leaf hk hflag⟩
    rw [hread (.short k (.value d) newFlag) hv,
      show encode c (.short k (.value d) newFlag) = .list 2 fun i => .data _ from rfl, hc.parse_list]
    exact congrArg some (decodeNode_leaf hc hk.hasTerm newFlag)
  | @ext L k v m hne hk hv =>
    obtain ⟨hext, hkid⟩ := hshaped.below_ext hv.ne_value
    rw [hv.savedAs_ext.entries] at hvalue
    have hown := hvalue _ (List.mem_append_right _ (List.mem_singleton_self _))
    obtain ⟨hnull, -⟩ | ⟨href, hstored⟩ := hv.child_stored hkid fun e he =>
      hvalue e (List.mem_append_left _ he)
    · cases hnull
    refine ⟨.short k (.hash _) ⟨_, false⟩, ?_, rfl, .short hext (.hash _),
      .ext hk (.hash hstored) hflag⟩
    rw [hread (.short k (.hash (sha (ownText sha c v))) newFlag)
      (by rw [← href]; simpa [ownEntry, storedText, hv.isFull] using hown),
      show encode c (.short k (.hash (sha (ownText sha c v))) newFlag) = .list 2 fun i => .data _
        from rfl, hc.parse_list]
    exact congrArg some (decodeNode_ext hc (hasTerm_of_hex hk) (hlen _) newFlag)
  | @full L K ch ms hL hch h16 htwo =>
    rw [(Expanded.savedAs_full hch h16).entries] at hvalue
    have hown := hvalue _ (List.mem_append_right _ (List.mem_singleton_self _))
    have hkid := Expanded.kid_stored hch h16 hshaped fun e he => hvalue e (List.mem_append_left _ he)
    set kids := fun i => if i = 16 then Node.null else reference sha c (ch i)
    have hthere : ∀ i, K i ≠ .null → (kids i).isNull = false := by
      intro i hi
      obtain ⟨h, hh, -⟩ := (hkid i).resolve_left fun hnull => hi hnull.1
      rw [hh]
      rfl
    obtain ⟨i, j, hij, hi, hj⟩ := htwo
    refine ⟨.full kids ⟨_, false⟩, ?_, rfl, .full (fun i => ?_) ⟨i, j, hij, hthere i hi, hthere j hj⟩,
      .full hL (fun i => ?_) h16 ⟨i, hi⟩ hflag⟩
    · rw [hread (.full kids newFlag) hown,
        show encode c (.full kids newFlag) = .list 17 fun i => .data _ from rfl, hc.parse_list]
      refine congrArg some (decodeNode_full hc (fun i => ?_) rfl newFlag)
      rcases hkid i with ⟨-, hnull, -⟩ | ⟨h, hh, hstored⟩
      · exact .inl hnull
      · exact .inr ⟨h, hstored.hash_length hlen, hh⟩
    · rcases hkid i with ⟨-, hnull, -⟩ | ⟨h, hh, -⟩
      · rw [hnull]
        exact .null
      · rw [hh]
        exact .hash h
    · rcases hkid i with ⟨hK, hnull, hm⟩ | ⟨h, hh, hstored⟩
      · rw [hK, hnull, hm]
        exact .null L
      · rw [hh]
        exact .hash hstored

theorem stored_resolves (hc : c.Lawful) (hlen : ∀ x, (sha x).length = 64) {env : TrieEnv}
    (henv : env.codec = c) :
    Resolves env (StoredTrie sha c env.mptValue E) (StoredFlag sha c env.mptValue E) := by
  intro h K L m hs
  obtain ⟨n, hdesc, hload, -, hrep⟩ := stored_load hc hlen henv hs
  exact ⟨n, hdesc, hload, hrep⟩

theorem stored_loadsShaped (hc : c.Lawful) (hlen : ∀ x, (sha x).length = 64) {env : TrieEnv}
    (henv : env.codec = c) : LoadsShaped E env (StoredTrie sha c env.mptValue E) := by
  intro h K L m hs n hn
  obtain ⟨n', hdesc, -, hshaped, -⟩ := stored_load hc hlen henv hs
  rw [hdesc] at hn
  cases hn
  exact hshaped

/-! ### Saving -/

/-- `hash` and `Commit` do to the node `n` as to `t`, the trie of its map, but leave out what the store
    has. -/
structure SavesAs (sha : Str → Str) (c : Codec) (value : Str → Str) (E : Prop) (n t : Node) (K : Kind)
    (L : ℕ) (m : Meaning) : Prop where
  expanded : Expanded K L t m
  shaped : Shaped E t
  reference : reference sha c n = reference sha c t
  root : (commit c (hashNode sha c n).1).1 = Mpt.reference sha c n
  encoded : inMemory n → encode c n = encode c t
  written : ∀ e ∈ savedEntries sha c t, e ∈ savedEntries sha c n ∨ value e.1 = e.2
  own : ∀ e ∈ savedEntries sha c n, OwnEntry sha c {x | x ∈ hashedTexts sha c n} e

/-- A clean node stands for its stored trie, and nothing is written. -/
theorem SavesAs.clean (hlen : ∀ x, (sha x).length = 64) {K : Kind} {L : ℕ} {n t : Node} {m : Meaning}
    {fl : NodeFlag} (hfl : fl.dirty = false) (hs : StoredTrie sha c value E fl.hash K L m)
    (hform : (∃ k v, n = .short k v fl) ∨ ∃ ch, n = .full ch fl) (ht : Expanded K L t m)
    (henc : inMemory n → encode c n = encode c t) : SavesAs sha c value E n t K L m := by
  have hne : fl.hash ≠ [] := by
    intro hnil
    have := hs.hash_length hlen
    rw [hnil] at this
    cases this
  have hboth : hashNode sha c n = (n, .hash fl.hash) ∧ commit c n = (.hash fl.hash, []) := by
    rcases hform with ⟨k, v, rfl⟩ | ⟨ch, rfl⟩ <;> simp [hashNode, commit, hne, hfl]
  obtain ⟨t', ht', hshaped, href, hvalue⟩ := hs
  obtain rfl := ht.unique ht' rfl fun _ _ => rfl
  refine ⟨ht, hshaped, ?_, ?_, henc, fun e he => .inr (hvalue e he), fun e he => ?_⟩
  · rw [href, Mpt.reference, hboth.1]
  · rw [Mpt.reference, hboth.1, hboth.2]
  · rw [savedEntries, hboth.1, hboth.2] at he
    cases he

/-- A new node that is saved as a node of the trie of its map. -/
theorem SavesAs.new {K : Kind} {L : ℕ} {n t : Node} {m : Meaning} {kids kids' : List (Str × Str)}
    {texts texts' : List Str} (ht : Expanded K L t m) (hK : K ≠ .null) (hshaped : Shaped E t)
    (hn : SavedAs sha c n kids texts) (ht' : SavedAs sha c t kids' texts')
    (htext : ownText sha c n = ownText sha c t) (hstored : storedText sha c n = storedText sha c t)
    (henc : inMemory n → encode c n = encode c t)
    (hwritten : ∀ e ∈ kids', e ∈ kids ∨ value e.1 = e.2)
    (hown : ∀ e ∈ kids, OwnEntry sha c {x | x ∈ texts} e) : SavesAs sha c value E n t K L m := by
  have hentry : ownEntry sha c n = ownEntry sha c t := by rw [ownEntry, htext, hstored, ownEntry]
  refine ⟨ht, hshaped, ?_, ?_, henc, fun e he => ?_, fun e he => ?_⟩
  · rw [hn.reference, ht'.reference, htext]
  · rw [hn.root, hn.reference]
  · rw [ht'.entries] at he
    rw [hn.entries, hentry]
    rcases List.mem_append.mp he with he | he
    · exact (hwritten e he).imp_left (List.mem_append_left _)
    · exact .inl (List.mem_append_right _ he)
  · rw [hn.entries] at he
    rw [hn.hashed]
    rcases List.mem_append.mp he with he | he
    · exact (hown e he).mono fun x hx => List.mem_append_left _ hx
    · rw [List.mem_singleton.mp he, hentry]
      exact ⟨K, L, t, m, ht, hK, List.mem_append_right _ (by rw [htext]; exact List.mem_singleton_self _),
        rfl⟩

theorem rep_isNull {F : NodeFlag → Kind → ℕ → Meaning → Prop} {K : Kind} {L : ℕ} {n : Node} {m : Meaning}
    (h : Rep (StoredTrie sha c value E) F K L n m) : n.isNull = true ↔ K = .null := by
  cases h with
  | null => exact ⟨fun _ => rfl, fun _ => rfl⟩
  | leaf => simp [Node.isNull]
  | ext => simp [Node.isNull]
  | full => simp [Node.isNull]
  | hash hh => simpa [Node.isNull] using hh.ne_null

/-- `Save` treats a regular trie as the trie of its map. -/
theorem Rep.savesAs (hlen : ∀ x, (sha x).length = 64) {K : Kind} {L : ℕ} {n : Node} {m : Meaning}
    (hrep : Rep (StoredTrie sha c value E) (StoredFlag sha c value E) K L n m) :
    Shaped E n → regular n → ∃ t, SavesAs sha c value E n t K L m := by
  induction hrep with
  | null L =>
    exact fun _ _ => ⟨.null, .null L, .null, rfl, rfl, fun _ => rfl, fun e he => .inl he,
      fun e he => by cases he⟩
  | hash hh =>
    intro _ _
    obtain ⟨t, ht, hshaped, href, hvalue⟩ := hh
    exact ⟨t, ht, hshaped, href.symm, rfl, fun hmem => hmem.elim, fun e he => .inr (hvalue e he),
      fun e he => by cases he⟩
  | @leaf L k d fl hk hfl =>
    intro _ _
    have ht : Expanded .short L (.short k (.value d) newFlag) (Mpt.below k fun _ => some d) := .leaf hk
    refine ⟨.short k (.value d) newFlag, ?_⟩
    rcases hfl with rfl | ⟨hclean, hs⟩
    · exact .new ht (by simp) (.leaf k d _) (savedAs_leaf k d) (savedAs_leaf k d) rfl rfl (fun _ => rfl)
        (fun e he => by cases he) fun e he => by cases he
    · exact .clean hlen hclean hs (.inl ⟨_, _, rfl⟩) ht fun _ => rfl
  | @ext L k v m fl hk hv hfl ih =>
    intro hshaped hreg
    obtain ⟨hne, hmem, hregkid⟩ := hreg
    obtain ⟨hext, hkid⟩ := hshaped.below_ext hv.ne_value
    obtain ⟨t, ht⟩ := ih hkid hregkid
    have hnew : Expanded .short (k.length + L) (.short k t newFlag) (Mpt.below k m) :=
      .ext hne hk ht.expanded
    have henc : ∀ {fl : NodeFlag}, inMemory v → encode c (.short k v fl) = encode c (.short k t newFlag) := by
      intro fl hv
      simp only [encode, ht.encoded hv]
    refine ⟨.short k t newFlag, ?_⟩
    rcases hfl with rfl | ⟨hclean, hs⟩
    · have hall := hmem rfl
      have hfull : v.isFull = true := by
        cases hv with
        | full => rfl
        | hash => exact hall.elim
      refine .new hnew (by simp) (.short hext ht.shaped) (savedAs_ext hfull ht.root)
        ht.expanded.savedAs_ext (congrArg (fun i => toHex (c.out i)) (henc hall)) ?_ henc ht.written
        ht.own
      simp only [storedText, hfull, ht.expanded.isFull, if_true, ht.reference]
    · exact .clean hlen hclean hs (.inl ⟨_, _, rfl⟩) hnew henc
  | @full L K ch ms fl hL hch h16 hex hfl ih =>
    intro hshaped hreg
    choose t ht using fun i => ih i (hshaped.child i) (hreg i)
    have hnull : ∀ i, (t i).isNull = (ch i).isNull := by
      intro i
      rw [Bool.eq_iff_iff, (ht i).expanded.isNull, rep_isNull (hch i)]
    obtain ⟨i, j, hij, hi, hj⟩ : ∃ i j, i ≠ j ∧ (ch i).isNull = false ∧ (ch j).isNull = false := by
      cases hshaped with
      | full _ htwo => exact htwo
    have hthere : ∀ i, (ch i).isNull = false → K i ≠ .null := by
      intro i hi hK
      rw [(rep_isNull (hch i)).mpr hK] at hi
      cases hi
    have hnew : Expanded .branch (L + 1) (.full t newFlag) (branchOf ms) :=
      .full hL (fun i => (ht i).expanded) h16 ⟨i, j, hij, hthere i hi, hthere j hj⟩
    have hform : Shaped E (.full t newFlag) :=
      .full (fun i => (ht i).shaped) ⟨i, j, hij, (hnull i).trans hi, (hnull j).trans hj⟩
    have henc : inMemory (.full ch fl) → encode c (.full ch fl) = encode c (.full t newFlag) := by
      intro hmem
      simp only [encode, hnull, (ht _).encoded (hmem _)]
    refine ⟨.full t newFlag, ?_⟩
    rcases hfl with rfl | ⟨hclean, hs⟩
    · have htext : ownText sha c (.full ch newFlag) = ownText sha c (.full t newFlag) := by
        simp only [ownText, (ht _).reference]
      have h16' : ch 16 = .null := Node.eq_null ((rep_isNull (hch 16)).mpr h16)
      refine .new hnew (by simp) hform (savedAs_full h16' fun i _ => (ht i).root)
        (Expanded.savedAs_full (fun i => (ht i).expanded) h16) htext htext henc (fun e he => ?_)
        fun e he => ?_
      · obtain ⟨i, hi, he⟩ := mem_kids.mp he
        exact ((ht i).written e he).imp_left fun he => mem_kids.mpr ⟨i, hi, he⟩
      · obtain ⟨i, hi, he⟩ := mem_kids.mp he
        exact ((ht i).own e he).mono fun x hx => mem_kids.mpr ⟨i, hi, hx⟩
    · exact .clean hlen hclean hs (.inr ⟨_, rfl⟩) hnew henc

/-- On a store that has the entries and keeps what it had, the trie is stored. -/
theorem SavesAs.stored (hc : c.Lawful) (hkeep : ∀ h, value h ≠ [] → value' h = value h) {K : Kind} {L : ℕ}
    {n t : Node} {m : Meaning} (ht : SavesAs sha c value E n t K L m)
    (hnew : ∀ e ∈ savedEntries sha c n, value' e.1 = e.2) {h : Str}
    (hh : Mpt.reference sha c n = .hash h) :
    StoredTrie sha c value' E h K L m := by
  refine ⟨t, ht.expanded, ht.shaped, ht.reference.symm.trans hh, fun e he => ?_⟩
  rcases ht.written e he with hn | hold
  · exact hnew e hn
  · rw [hkeep _ (by rw [hold]; exact commit_ne_nil hc _ e he), hold]

end StoredHash

/-! ### Rounds -/

/-- Everything on the disk is an entry of some map's trie, and its root is that of the map left by a
    history (or nothing was ever written). -/
structure DiskCanonical (sha : Str → Str) (c : Codec) (addr : Str) (S : Set Str) (E : Prop) (n : ℕ)
    (rootHash : Str) (d : Disk) (history : List TrieOp) : Prop where
  entries : ∀ h, (d.env c addr).mptValue h ≠ [] → OwnEntry sha c S (h, (d.env c addr).mptValue h)
  root : ∃ m, Exact n m history ∧
    (((∀ k, d.mpt k = none) ∧ d.rootHash = rootHash ∧ m = fun _ => none) ∨
      ∃ K, StoredTrie sha c (d.env c addr).mptValue E d.rootHash K (n + 2) m)

section Rounds

variable {sha : Str → Str} {c : Codec} {S : Set Str} {addr rootHash : Str} {E : Prop} {n : ℕ} {d : Disk}
  {history : List TrieOp}

theorem DiskCanonical.opened (hc : c.Lawful) (hlen : ∀ x, (sha x).length = 64)
    (hd : DiskCanonical sha c addr S E n rootHash d history) :
    ∃ root K m, d.openTrie c addr = some root ∧
      Rep (StoredTrie sha c (d.env c addr).mptValue E)
        (StoredFlag sha c (d.env c addr).mptValue E) K (n + 2) root m ∧
      Shaped E root ∧ Exact n m history := by
  obtain ⟨m, hexact, hroot⟩ := hd.root
  rcases hroot with ⟨hempty, -, rfl⟩ | ⟨K, hs⟩
  · refine ⟨.null, .null, _, ?_, .null _, .null, hexact⟩
    rw [Disk.openTrie, descendKey, Disk.mptValue_env, hempty]
    rfl
  · obtain ⟨root, hopen, -, hshaped, hrep⟩ := stored_load hc hlen rfl hs
    exact ⟨root, K, m, hopen, hrep, hshaped, hexact⟩

/-- What a round writes does not change what the disk had, and can be read back. -/
theorem DiskCanonical.writes (hc : c.Lawful) (hinj : Set.InjOn sha S)
    (hd : DiskCanonical sha c addr S E n rootHash d history) {h : Str} {pairs : List (Str × Str)}
    (hpairs : ∀ e ∈ pairs, OwnEntry sha c S e) :
    let d' : Disk := ⟨h, writeAll d.mpt (pairs.map fun e => (mptKey addr e.1, e.2))⟩
    (∀ x, (d.env c addr).mptValue x ≠ [] → (d'.env c addr).mptValue x = (d.env c addr).mptValue x) ∧
      (∀ e ∈ pairs, (d'.env c addr).mptValue e.1 = e.2) ∧
      ∀ x, (d'.env c addr).mptValue x ≠ [] → OwnEntry sha c S (x, (d'.env c addr).mptValue x) := by
  intro d'
  have hread := d.reads_written c addr h pairs
  refine ⟨fun x hx => ?_, fun e he => ?_, fun x hx => ?_⟩
  · rcases hread x with ⟨e, he, rfl, hv⟩ | ⟨-, hv⟩
    · rw [hv]
      exact (hpairs e he).eq hc hinj (hd.entries _ hx) rfl
    · exact hv
  · rcases hread e.1 with ⟨e', he', heq, hv⟩ | ⟨hne, -⟩
    · rw [hv]
      exact (hpairs e' he').eq hc hinj (hpairs e he) heq
    · exact absurd rfl (hne e he)
  · rcases hread x with ⟨e, he, rfl, hv⟩ | ⟨-, hv⟩
    · rw [hv]
      exact hpairs e he
    · rw [hv] at hx ⊢
      exact hd.entries x hx

/-- The end of a round. -/
theorem DiskCanonical.saved (hc : c.Lawful) (hlen : ∀ x, (sha x).length = 64) (hinj : Set.InjOn sha S)
    {ops : List TrieOp} (hd : DiskCanonical sha c addr S E n rootHash d history) (hn : 1 ≤ n) {K : Kind}
    {root : Node} {m : Meaning}
    (hrep : Rep (StoredTrie sha c (d.env c addr).mptValue E)
      (StoredFlag sha c (d.env c addr).mptValue E) K (n + 2) root m)
    (hshaped : Shaped E root) (hreg : regular root) (hexact : Exact n m (history ++ ops))
    (htexts : ∀ x ∈ hashedTexts sha c root, x ∈ S) :
    ∃ d', d.saved sha c addr root = some d' ∧
      DiskCanonical sha c addr S E n rootHash d' (history ++ ops) := by
  obtain ⟨t, ht⟩ := hrep.savesAs hlen hshaped hreg
  cases hroot : root.isNull with
  | true =>
    obtain rfl := Node.eq_null hroot
    obtain rfl := hrep.null_meaning
    refine ⟨d, d.saved_null addr, hd.entries, ?_⟩
    -- nothing was ever updated, so the old root says the same
    obtain ⟨m₀, hexact₀, hroot₀⟩ := hd.root
    refine ⟨m₀, fun t ht v => ?_, hroot₀⟩
    have hnone : ∀ k, HexKey n k → lastUpdate k (history ++ ops) = none :=
      fun k hk => (hexact.at_key hn hk).symm
    rw [hexact₀ t ht v]
    constructor
    · rintro ⟨k, hk, -, hv⟩
      have := hnone k hk
      rw [lastUpdate_append, hv] at this
      exact absurd (Option.or_eq_none_iff.mp this).2 (by simp)
    · rintro ⟨k, hk, -, hv⟩
      rw [hnone k hk] at hv
      cases hv
  | false =>
    have hK : K ≠ .null := fun hK => by
      rw [(rep_isNull hrep).mpr hK] at hroot
      cases hroot
    have href := ht.reference.trans (ht.expanded.reference_eq hK)
    have hne : sha (ownText sha c t) ≠ [] := by
      intro hnil
      have := hlen (ownText sha c t)
      rw [hnil] at this
      cases this
    have hown : ∀ e ∈ savedEntries sha c root, OwnEntry sha c S e :=
      fun e he => (ht.own e he).mono htexts
    obtain ⟨pairs, hsaved, hsub, hkeys⟩ :=
      Disk.saved_entries addr d hne hroot (ht.root.trans href) (commit_ne_nil hc _)
    obtain ⟨hkeep, hnew, hentries⟩ :=
      hd.writes (h := sha (ownText sha c t)) hc hinj fun e he => hown e (hsub e he)
    refine ⟨_, hsaved, hentries, m, hexact, .inr ⟨K, ht.stored hc hkeep (fun e he => ?_) href⟩⟩
    -- the pair left under this hash has the same text
    obtain ⟨e', he', hek⟩ := hkeys e he
    rw [← hek, hnew e' he']
    exact (hown e' (hsub e' he')).eq hc hinj (hown e he) hek

/-- One round on a good disk. -/
theorem DiskCanonical.round (hc : c.Lawful) (hlen : ∀ x, (sha x).length = 64) (hinj : Set.InjOn sha S)
    (hn : 1 ≤ n) {ops : List TrieOp} {keys : List Str}
    (hd : DiskCanonical sha c addr S E n rootHash d history) (hops : ∀ op ∈ ops, op.Valid n)
    (hhex : ∀ x ∈ updatedKeys history, HexKey n x)
    (hkeys : ∀ x, x ∈ keys ↔ x ∈ updatedKeys history) (hext : E ∨ NoExtension keys ops)
    (hreg : E → ∀ root, d.run c addr ops = some root → regular root)
    {later : List (List TrieOp)} (htexts : ∀ x ∈ (runRounds sha c addr d (ops :: later)).2, x ∈ S) :
    ∃ root d', d.run c addr ops = some root ∧ d.saved sha c addr root = some d' ∧
      DiskCanonical sha c addr S E n rootHash d' (history ++ ops) := by
  obtain ⟨root₀, K₀, m₀, hopen, hrep₀, hshaped₀, hexact₀⟩ := hd.opened hc hlen
  obtain ⟨r, K, m, hans, hrep, hshaped, hexact⟩ := runOps_shaped (stored_resolves hc hlen rfl)
    (stored_loadsShaped hc hlen rfl) (fun _ _ _ => .inl rfl) hn ops history keys hops hhex hkeys hext
    hrep₀ hshaped₀ hexact₀
  have hrun : d.run c addr ops = some r.1 := by
    simp only [Disk.run, hopen, hans, Option.bind_eq_bind, Option.bind_some]
  have hlog : ∀ x ∈ hashedTexts sha c r.1, x ∈ S :=
    fun x hx => htexts x (hashedTexts_logged hrun later x hx)
  have hroot : regular r.1 := by
    by_cases hx : E
    · exact hreg hx _ hrun
    · exact hshaped.regular hx hrep
  obtain ⟨d', hsaved, hd'⟩ := hd.saved hc hlen hinj hn hrep hshaped hroot hexact hlog
  exact ⟨r.1, d', hrun, hsaved, hd'⟩

/-- Whole runs of rounds. -/
theorem runRounds_canonical (hc : c.Lawful) (hlen : ∀ x, (sha x).length = 64) (hinj : Set.InjOn sha S)
    (hn : 1 ≤ n) : ∀ (rounds : List (List TrieOp)) (d : Disk) (history : List TrieOp)
      (keys : List Str), DiskCanonical sha c addr S E n rootHash d history →
      (∀ ops ∈ rounds, ∀ op ∈ ops, op.Valid n) → (∀ x ∈ updatedKeys history, HexKey n x) →
      (∀ x, x ∈ keys ↔ x ∈ updatedKeys history) → E ∨ NoExtension keys rounds.flatten →
      (E → savesRegular sha c addr d rounds) →
      (∀ x ∈ (runRounds sha c addr d rounds).2, x ∈ S) →
      ∃ d', (runRounds sha c addr d rounds).1 = some d' ∧
        DiskCanonical sha c addr S E n rootHash d' (history ++ rounds.flatten) := by
  intro rounds
  induction rounds with
  | nil =>
    intro d history keys hd _ _ _ _ _ _
    exact ⟨d, rfl, by simpa using hd⟩
  | cons ops rounds ih =>
    intro d history keys hd hops hhex hkeys hext hreg htexts
    obtain ⟨keys', hext₁, hext₂, hmem⟩ : ∃ keys', (E ∨ NoExtension keys ops) ∧
        (E ∨ NoExtension keys' rounds.flatten) ∧
        ∀ x, x ∈ keys' ↔ x ∈ keys ∨ x ∈ updatedKeys ops := by
      rcases hext with hext | hext
      · exact ⟨keys ++ updatedKeys ops, .inl hext, .inl hext, fun x => List.mem_append⟩
      · rw [List.flatten_cons] at hext
        obtain ⟨keys', h₁, h₂, hmem⟩ := hext.append
        exact ⟨keys', .inr h₁, .inr h₂, hmem⟩
    have hvalid := hops ops List.mem_cons_self
    obtain ⟨root, d₁, hrun, hsaved, hd₁⟩ := hd.round hc hlen hinj hn hvalid hhex hkeys hext₁
      (fun hx root hroot => by
        have h := hreg hx
        simp only [savesRegular, hroot, Bool.and_eq_true, decide_eq_true_eq] at h
        exact h.1) htexts
    have hreg₁ : E → savesRegular sha c addr d₁ rounds := by
      intro hx
      have h := hreg hx
      simp only [savesRegular, hrun, hsaved, Bool.and_eq_true] at h
      exact h.2
    simp only [runRounds, hrun, hsaved] at htexts
    have hhex₁ : ∀ x ∈ updatedKeys (history ++ ops), HexKey n x := by
      intro x hx
      rw [updatedKeys_append] at hx
      rcases List.mem_append.mp hx with hx | hx
      · exact hhex x hx
      · exact hexKey_of_updated hvalid hx
    have hkeys₁ : ∀ x, x ∈ keys' ↔ x ∈ updatedKeys (history ++ ops) := by
      intro x
      rw [hmem, hkeys, updatedKeys_append, List.mem_append]
    obtain ⟨d', hdone, hd'⟩ := ih d₁ (history ++ ops) keys' hd₁
      (fun ops' ho => hops ops' (List.mem_cons_of_mem _ ho)) hhex₁ hkeys₁ hext₂ hreg₁
      fun x hx => htexts x (List.mem_append_right _ hx)
    refine ⟨d', ?_, by simpa using hd'⟩
    simp only [runRounds, hrun, hsaved]
    exact hdone

end Rounds

/-- An empty disk. -/
theorem diskCanonical_empty {sha : Str → Str} {c : Codec} {S : Set Str} (addr : Str) (E : Prop)
    (rootHash : Str) (n : ℕ) : DiskCanonical sha c addr S E n rootHash ⟨rootHash, .empty⟩ [] where
  entries h hne := by
    rw [Disk.mptValue_env] at hne
    exact absurd rfl hne
  root := by
    refine ⟨fun _ => none, fun t _ v => ?_, .inl ⟨fun _ => rfl, rfl, rfl⟩⟩
    simp [lastUpdate]

/-- The keys of a run part everywhere, or its tries are regular at every `Save`: at its end the disk has
    the trie of its map. -/
theorem run_canonical {sha : Str → Str} {c : Codec} (hc : c.Lawful) (hlen : ∀ x, (sha x).length = 64)
    {addr rootHash : Str} {n : ℕ} (hn : 1 ≤ n) {rounds : List (List TrieOp)}
    (hops : ∀ ops ∈ rounds, ∀ op ∈ ops, op.Valid n)
    (hext : NoExtension [] rounds.flatten ∨ savesRegular sha c addr ⟨rootHash, .empty⟩ rounds)
    (hinj : Set.InjOn sha {x | x ∈ (runRounds sha c addr ⟨rootHash, .empty⟩ rounds).2}) :
    ∃ E d, (runRounds sha c addr ⟨rootHash, .empty⟩ rounds).1 = some d ∧
      DiskCanonical sha c addr {x | x ∈ (runRounds sha c addr ⟨rootHash, .empty⟩ rounds).2} E n rootHash d
        rounds.flatten := by
  have hnothing : ∀ x : Str, x ∈ ([] : List Str) ↔ x ∈ updatedKeys [] := fun x => Iff.rfl
  have hempty : ∀ E : Prop, DiskCanonical sha c addr
      {x | x ∈ (runRounds sha c addr ⟨rootHash, .empty⟩ rounds).2} E n rootHash ⟨rootHash, .empty⟩ [] :=
    fun E => diskCanonical_empty addr E rootHash n
  rcases hext with hext | hext
  · exact ⟨False, runRounds_canonical hc hlen hinj hn rounds _ [] [] (hempty False) hops
      (by simp [updatedKeys]) hnothing (.inr hext) False.elim fun x hx => hx⟩
  · exact ⟨True, runRounds_canonical hc hlen hinj hn rounds _ [] [] (hempty True) hops
      (by simp [updatedKeys]) hnothing (.inl trivial) (fun _ => hext) fun x hx => hx⟩

/-- Two runs of rounds that end with the same map end with the same root hash, however the updates
    are ordered and batched, if in each every new key parts everywhere from the keys before it, or the
    trie is regular at every `Save`. -/
theorem root_canonical (sha : Str → Str) (c : Codec) (hc : c.Lawful)
    (hlen : ∀ x, (sha x).length = 64) (addr rootHash : Str) (n : ℕ) (hn : 1 ≤ n)
    (rounds rounds' : List (List TrieOp)) (hops : ∀ ops ∈ rounds, ∀ op ∈ ops, op.Valid n)
    (hops' : ∀ ops ∈ rounds', ∀ op ∈ ops, op.Valid n)
    (hext : NoExtension [] rounds.flatten ∨ savesRegular sha c addr ⟨rootHash, .empty⟩ rounds)
    (hext' : NoExtension [] rounds'.flatten ∨ savesRegular sha c addr ⟨rootHash, .empty⟩ rounds')
    (hinj : Set.InjOn sha {x | x ∈ (runRounds sha c addr ⟨rootHash, .empty⟩ rounds).2})
    (hinj' : Set.InjOn sha {x | x ∈ (runRounds sha c addr ⟨rootHash, .empty⟩ rounds').2})
    (hmap : ∀ k, lastUpdate k rounds.flatten = lastUpdate k rounds'.flatten) :
    ∃ d d', (runRounds sha c addr ⟨rootHash, .empty⟩ rounds).1 = some d ∧
      (runRounds sha c addr ⟨rootHash, .empty⟩ rounds').1 = some d' ∧ d.rootHash = d'.rootHash := by
  obtain ⟨E, d, hd, hcanon⟩ := run_canonical hc hlen hn hops hext hinj
  obtain ⟨E', d', hd', hcanon'⟩ := run_canonical hc hlen hn hops' hext' hinj'
  refine ⟨d, d', hd, hd', ?_⟩
  obtain ⟨m, hexact, hroot⟩ := hcanon.root
  obtain ⟨m', hexact', hroot'⟩ := hcanon'.root
  have hsame : ∀ t, Suffix (n + 2) t → m t = m' t := by
    intro t ht
    refine Option.ext fun v => ?_
    rw [hexact t ht v, hexact' t ht v]
    simp only [hmap]
  -- either nothing was ever updated, or both roots are the hash of the one map's trie
  have hempty : ∀ {value : Str → Str} {E : Prop} {K : Kind} {h : Str} {m : Meaning},
      StoredTrie sha c value E h K (n + 2) m → ¬ ∀ t, Suffix (n + 2) t → m t = none := by
    intro value E K h m hs hnone
    have hK := hs.ne_null
    obtain ⟨t, ht, -⟩ := hs
    obtain ⟨s, hs, hm⟩ := ht.inhabited.1 hK
    exact hm (hnone s hs)
  rcases hroot with ⟨-, hr, rfl⟩ | ⟨K, hs⟩
  · rcases hroot' with ⟨-, hr', -⟩ | ⟨K', hs'⟩
    · rw [hr, hr']
    · exact absurd (fun t ht => (hsame t ht).symm) (hempty hs')
  · rcases hroot' with ⟨-, -, rfl⟩ | ⟨K', hs'⟩
    · exact absurd hsame (hempty hs)
    · obtain ⟨t, ht, -, href, -⟩ := hs
      obtain ⟨t', ht', -, href', -⟩ := hs'
      rw [ht.unique ht' rfl hsame, href'] at href
      exact (Node.hash.inj href).symm

theorem shaTable_length {table : List (Node × String)} (h : ∀ e ∈ table, (str e.2).length = 64)
    (text : Str) : (shaTable table text).length = 64 := by
  unfold shaTable
  split
  · rename_i e he
    exact h e (List.mem_of_find?_eq_some he)
  · rfl

/-- The nodes hashed on the way to the map of the keys `0a0`, `0a1` and `7bc`, with their SHA-256
    hashes. -/
def batchHashes : List (Node × String) :=
  let leafX := Node.short (str "0z") (.value (str "x")) newFlag
  let leafY := Node.short (str "1z") (.value (str "y")) newFlag
  let hashX := "cd2cad13b57695d930cbc4cd37aea7b365ba2d667889bee0a71ec62c1def42a6"
  let hashY := "255285053cb74f2a21ce9ab31d59a7f9a22df82a9370f43e3c9781ddb7b27267"
  let hashW := "95827cfd6cf8002e248430b1e7433288c9a83c402934abf969fe5be7b23dfe4c"
  let hashV := "f0515c9d267fa41392cd88ea69cf50ff0bdd83c5a60bb2729f700e623cf50666"
  let hashExt := "4dc1313205747ee66bfa2e0d3d590b64b3c75d5306fdd52aad7e7c6b606294d1"
  let branch := fun x y : Node => Node.full
    (fun i => if i = 0 then x else if i = 1 then y else .null) newFlag
  let root := fun l₀ l₇ : String => Node.full
    (fun i => if i = 0 then .hash (str l₀) else if i = 7 then .hash (str l₇) else .null) newFlag
  [(leafX, hashX), (leafY, hashY),
    (.short (str "bccz") (.value (str "w")) newFlag, hashW),
    (.short (str "a11z") (.value (str "v")) newFlag, hashV),
    (branch (.hash (str hashX)) (.hash (str hashY)),
      "76b0db1aa322850dd9d39361bdfeb96fbb3d7c9b42958d15045312e99aba057e"),
    (.short (str "a") (branch leafX leafY) newFlag, hashExt),
    (root hashV hashW, "e17390b2afa7210034fd52d27e7422dd6cd39abb74bb09346958ceb82a502cac"),
    (root hashExt hashW, "ecf45b27b3ca59675629f27b01e7e6c131619a43d04f6c7a927a367d35a2e6ea")]

/-- One round or two, with an extension made on the way and a value overwritten: one root hash. -/
theorem root_canonical_sample :
    ∃ d d', (runRounds (shaTable batchHashes) rlp (str "c") ⟨[], .empty⟩
        [[.update (str "0a0") (str "x"), .update (str "0a1") (str "y"),
          .update (str "7bc") (str "w")]]).1 = some d ∧
      (runRounds (shaTable batchHashes) rlp (str "c") ⟨[], .empty⟩
        [[.update (str "7bc") (str "w"), .update (str "0a1") (str "v")],
          [.update (str "0a0") (str "x"), .update (str "0a1") (str "y")]]).1 = some d' ∧
      d.rootHash = d'.rootHash := by
  have hlen : ∀ x, (shaTable batchHashes x).length = 64 := by
    refine shaTable_length ?_
    simp only [batchHashes, List.forall_mem_cons]
    repeat rw [str_ofList]
    decide
  refine root_canonical (shaTable batchHashes) rlp rlp_lawful hlen (str "c") [] 3 (by decide) _ _
    ?_ ?_ (.inr ?_) (.inr ?_) (injOn_of_nodup_dedup ?_) (injOn_of_nodup_dedup ?_) fun k => ?_
  case refine_1 | refine_2 =>
    repeat rw [str_ofList]
    decide +kernel
  case refine_3 | refine_4 | refine_5 | refine_6 =>
    simp only [shaTable_eq, batchHashes, List.map_cons, List.map_nil]
    repeat rw [str_ofList]
    decide +kernel
  by_cases hx : str "0a0" = k
  · subst hx
    decide
  · by_cases hy : str "0a1" = k
    · subst hy
      decide
    · by_cases hw : str "7bc" = k
      · subst hw
        decide
      · simp [lastUpdate, hx, hy, hw]

/-- SHA-256 on the texts of two tries of the keys `00`, `01` and `10`. -/
def orderSha : Str → Str :=
  let leafX := Node.short (str "0z") (.value (str "x")) newFlag
  let leafY := Node.short (str "1z") (.value (str "y")) newFlag
  let leafW := Node.short (str "00z") (.value (str "w")) newFlag
  let hashX := "cd2cad13b57695d930cbc4cd37aea7b365ba2d667889bee0a71ec62c1def42a6"
  let hashY := "255285053cb74f2a21ce9ab31d59a7f9a22df82a9370f43e3c9781ddb7b27267"
  let hashW := "0e47fc17804af2da97fa9d9eda608e7480e68900779a99a1985574d2eb84c496"
  let branch := fun x y : Node => Node.full
    (fun i => if i = 0 then x else if i = 1 then y else .null) newFlag
  let hashBranch := "76b0db1aa322850dd9d39361bdfeb96fbb3d7c9b42958d15045312e99aba057e"
  let hashExt := "f15387e4e06009d8e1f3015756ce57c6f4dd87faaef88969a81cc8ec85a0efaf"
  shaTable [(leafX, hashX), (leafY, hashY), (leafW, hashW),
    (branch (.hash (str hashX)) (.hash (str hashY)), hashBranch),
    (.short [] (branch leafX leafY) newFlag, hashExt),
    (branch (.hash (str hashExt)) (.hash (str hashW)),
      "aac230f13ed136748492f89be100a925da4c3b93b56b843f23a355e4d253119a"),
    (branch (.hash (str hashBranch)) (.hash (str hashW)),
      "96dd2ab3766104b94b354a40f9e0d0d4f244189980ca9770b7dcd87b8326aa6f")]

/-- The three keys in two orders: when `10` comes last, it splits the extension that `00` and `01`
    made, and an extension with an empty key is left above their branch. -/
theorem root_depends_on_order :
    ∃ d d', (runRounds orderSha rlp (str "c") ⟨[], .empty⟩
        [[.update (str "00") (str "x"), .update (str "01") (str "y"),
          .update (str "10") (str "w")]]).1 = some d ∧
      (runRounds orderSha rlp (str "c") ⟨[], .empty⟩
        [[.update (str "00") (str "x"), .update (str "10") (str "w"),
          .update (str "01") (str "y")]]).1 = some d' ∧
      (∀ k, lastUpdate k [.update (str "00") (str "x"), .update (str "01") (str "y"),
          .update (str "10") (str "w")]
        = lastUpdate k [.update (str "00") (str "x"), .update (str "10") (str "w"),
          .update (str "01") (str "y")]) ∧
      d.rootHash ≠ d'.rootHash := by
  have heval : (runRounds orderSha rlp (str "c") ⟨[], .empty⟩
      [[.update (str "00") (str "x"), .update (str "01") (str "y"),
        .update (str "10") (str "w")]]).1.map Disk.rootHash
        = some (str "aac230f13ed136748492f89be100a925da4c3b93b56b843f23a355e4d253119a") := by
    simp only [orderSha, shaTable_eq, List.map_cons, List.map_nil]
    repeat rw [str_ofList]
    decide +kernel
  have heval' : (runRounds orderSha rlp (str "c") ⟨[], .empty⟩
      [[.update (str "00") (str "x"), .update (str "10") (str "w"),
        .update (str "01") (str "y")]]).1.map Disk.rootHash
        = some (str "96dd2ab3766104b94b354a40f9e0d0d4f244189980ca9770b7dcd87b8326aa6f") := by
    simp only [orderSha, shaTable_eq, List.map_cons, List.map_nil]
    repeat rw [str_ofList]
    decide +kernel
  obtain ⟨d, hd, hroot⟩ := Option.map_eq_some_iff.mp heval
  obtain ⟨d', hd', hroot'⟩ := Option.map_eq_some_iff.mp heval'
  refine ⟨d, d', hd, hd', fun k => ?_, ?_⟩
  · by_cases h01 : str "01" = k
    · subst h01
      decide
    · by_cases h10 : str "10" = k
      · subst h10
        decide
      · simp [lastUpdate, h01, h10]
  · rw [hroot, hroot', str_ofList, str_ofList]
    decide

end Tfs.Mpt
