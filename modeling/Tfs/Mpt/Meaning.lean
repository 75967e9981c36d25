import Tfs.Mpt.Trie

/-! What a trie means: a map from keys to values.

    Every node at height `L` stands for a map on the key rests of length `L`: hexadecimal characters
    with the terminator at the end. `Rep` says which nodes are well formed and what they mean; it is
    parametrised by the meaning of hashes, so that the same lemmas serve a trie in memory and one
    that is loaded from the store on the way. `Get` answers by that map and `Insert` updates it. -/

namespace Tfs.Mpt

/-! ### Keys and key rests -/

/-- A lowercase hexadecimal character. -/
def isHexChar (c : UInt8) : Bool := (48 ≤ c && c ≤ 57) || (97 ≤ c && c ≤ 102)

/-- A key of `n` lowercase hexadecimal characters. -/
def HexKey (n : ℕ) (k : Str) : Prop := k.length = n ∧ ∀ c ∈ k, isHexChar c

instance (n : ℕ) (k : Str) : Decidable (HexKey n k) := inferInstanceAs (Decidable (_ ∧ _))

/-- What is left of a wrapped key with `L` characters to go. -/
def Suffix (L : ℕ) (s : Str) : Prop :=
  ∃ t, s = t ++ [term] ∧ (∀ c ∈ t, isHexChar c) ∧ s.length = L

theorem hexChar_cases : ∀ c : UInt8, isHexChar c → ∃ i, childIndex c = some i ∧ i ≠ 16 ∧
    ∀ d : UInt8, isHexChar d → childIndex d = some i → c = d := by
  have h : ∀ n : Fin 256, isHexChar (UInt8.ofNat n) → ∃ i, childIndex (UInt8.ofNat n) = some i ∧
      i ≠ 16 := by decide +kernel
  have hinj : ∀ n : Fin 256, isHexChar (UInt8.ofNat n) →
      (childIndex (UInt8.ofNat n)).map (fun i => Rlp.hexDigit (UInt8.ofNat i.val))
        = some (UInt8.ofNat n) := by decide +kernel
  have hof : ∀ c : UInt8, ∃ n : Fin 256, UInt8.ofNat n = c :=
    fun c => ⟨⟨c.toNat, c.toNat_lt⟩, by simp⟩
  intro c hc
  obtain ⟨n, rfl⟩ := hof c
  obtain ⟨i, hi, h16⟩ := h n hc
  refine ⟨i, hi, h16, fun d hd hdi => ?_⟩
  obtain ⟨n', rfl⟩ := hof d
  have h1 := hinj n hc
  have h2 := hinj n' hd
  rw [hi] at h1
  rw [hdi, h1] at h2
  exact Option.some.inj h2

theorem isHexChar_term : isHexChar term = false := by decide

theorem Suffix.length {L : ℕ} {s : Str} (h : Suffix L s) : s.length = L := h.choose_spec.2.2

theorem Suffix.pos {L : ℕ} {s : Str} (h : Suffix L s) : 1 ≤ L := by
  obtain ⟨t, rfl, -, hlen⟩ := h
  rw [← hlen, List.length_append, List.length_singleton]
  omega

/-- With more than one character to go, the next one is hexadecimal. -/
theorem Suffix.cons {L : ℕ} {s : Str} (h : Suffix (L + 1) s) (hL : 1 ≤ L) :
    ∃ c rest, s = c :: rest ∧ isHexChar c ∧ Suffix L rest := by
  obtain ⟨t, rfl, ht, hlen⟩ := h
  cases t with
  | nil => simp at hlen; omega
  | cons c t =>
    refine ⟨c, t ++ [term], rfl, ht c List.mem_cons_self, t, rfl,
      fun x hx => ht x (List.mem_cons_of_mem _ hx), ?_⟩
    simpa using hlen

/-- Taking a hexadecimal piece off the front. -/
theorem Suffix.of_append {L : ℕ} {q s : Str} (hq : ∀ c ∈ q, isHexChar c)
    (h : Suffix (q.length + L) (q ++ s)) : Suffix L s := by
  obtain ⟨t, ht, hhex, hlen⟩ := h
  have hs : s ≠ [] := by
    rintro rfl
    rw [List.append_nil] at ht
    have := hq term (by rw [ht]; simp)
    rw [isHexChar_term] at this
    cases this
  obtain ⟨s', x, rfl⟩ := (List.eq_nil_or_concat s).resolve_left hs
  rw [List.concat_eq_append, ← List.append_assoc] at ht
  obtain ⟨rfl, hx⟩ := List.append_inj' ht rfl
  refine ⟨s', ?_, fun c hc => hhex c (List.mem_append_right _ hc), ?_⟩
  · rw [List.concat_eq_append, hx]
  · rw [List.length_append] at hlen; omega

/-- A character of a key rest that is not the last one is hexadecimal, and so is all before it. -/
theorem Suffix.parts {L : ℕ} {q s : Str} {a : UInt8} (h : Suffix L (q ++ a :: s)) (hs : s ≠ []) :
    (∀ c ∈ q, isHexChar c) ∧ isHexChar a ∧
      ∃ L', 1 ≤ L' ∧ L = q.length + (L' + 1) ∧ Suffix L' s := by
  obtain ⟨t, ht, hhex, hlen⟩ := h
  obtain ⟨s', x, rfl⟩ := (List.eq_nil_or_concat s).resolve_left hs
  rw [List.concat_eq_append] at ht hlen ⊢
  rw [← List.cons_append, ← List.append_assoc] at ht
  obtain ⟨rfl, hx⟩ := List.append_inj' ht rfl
  refine ⟨fun c hc => hhex c (by simp [hc]), hhex a (by simp), s'.length + 1, by omega, ?_, s', ?_,
    fun c hc => hhex c (by simp [hc]), by simp⟩
  · simpa using hlen.symm
  · rw [hx]

/-- Where two key rests of one length part, both characters are hexadecimal. -/
theorem Suffix.parting {L : ℕ} {q k s : Str} {a b : UInt8} (hk : Suffix L (q ++ a :: k))
    (hs : Suffix L (q ++ b :: s)) (hab : a ≠ b) : k ≠ [] ∧ s ≠ [] := by
  have hlen : k.length = s.length := by
    have := hk.length.trans hs.length.symm
    simpa using this
  have hk0 : k ≠ [] := by
    rintro rfl
    obtain rfl := List.length_eq_zero_iff.mp hlen.symm
    obtain ⟨t, ht, -⟩ := hk
    obtain ⟨t', ht', -⟩ := hs
    have ha := (List.append_inj' ht rfl).2
    have hb := (List.append_inj' ht' rfl).2
    rw [← hb] at ha
    exact hab (List.cons.inj ha).1
  refine ⟨hk0, ?_⟩
  rintro rfl
  exact hk0 (List.length_eq_zero_iff.mp hlen)

theorem HexKey.wapperKey {n : ℕ} {k : Str} (h : HexKey n k) (hn : 1 ≤ n) :
    Suffix (n + 2) (wapperKey k) := by
  obtain ⟨hlen, hhex⟩ := h
  have hne : k ≠ [] := by rintro rfl; simp at hlen; omega
  refine ⟨k ++ [k.getLastD 0], by simp [Mpt.wapperKey], fun c hc => ?_, by simp [Mpt.wapperKey, hlen]⟩
  rcases List.mem_append.mp hc with hc | hc
  · exact hhex c hc
  · rw [List.mem_singleton.mp hc, List.getLastD_eq_getLast?, List.getLast?_eq_some_getLast hne]
    exact hhex _ (List.getLast_mem hne)

theorem wapperKey_injective {n : ℕ} {k k' : Str} (h : HexKey n k) (h' : HexKey n k')
    (heq : wapperKey k = wapperKey k') : k = k' :=
  (List.append_inj heq (h.1.trans h'.1.symm)).1

/-- Where two keys part: the shorter one is used up, or they differ in the next character. -/
theorem prefixLen_cases : ∀ (s k : Str), k.length ≤ s.length →
    (prefixLen s k = k.length ∧ k <+: s) ∨
      ∃ q a k' b s', k = q ++ a :: k' ∧ s = q ++ b :: s' ∧ a ≠ b ∧ prefixLen s k = q.length
  | s, [], _ => .inl ⟨by cases s <;> rfl, List.nil_prefix⟩
  | [], _ :: _, h => by simp at h
  | b :: s, a :: k, h => by
    by_cases hab : b = a
    · subst hab
      rcases prefixLen_cases s k (by simpa using h) with ⟨hlen, hpre⟩ | ⟨q, x, k', y, s', rfl, rfl, hne, hlen⟩
      · exact .inl ⟨by simp [prefixLen, hlen], List.cons_prefix_cons.mpr ⟨rfl, hpre⟩⟩
      · exact .inr ⟨b :: q, x, k', y, s', rfl, rfl, hne, by simp [prefixLen, hlen]⟩
    · exact .inr ⟨[], a, k, b, s, rfl, rfl, fun h => hab h.symm, by simp [prefixLen, hab]⟩

/-! ### Meanings -/

/-- A map on key rests. -/
abbrev Meaning := Str → Option Str

/-- The map of `m` hung below the key piece `k`. -/
def below (k : Str) (m : Meaning) : Meaning := fun s =>
  if k <+: s then m (s.drop k.length) else none

/-- The map of a full node with children meaning `ms`. -/
def branchOf (ms : Fin 17 → Meaning) : Meaning
  | [] => none
  | c :: rest => (childIndex c).bind fun i => ms i rest

theorem below_append (k s : Str) (m : Meaning) : below k m (k ++ s) = m s := by
  simp [below]

theorem below_of_not {k s : Str} (h : ¬ k <+: s) (m : Meaning) : below k m s = none := by
  rw [below, if_neg h]

theorem branchOf_cons {ms : Fin 17 → Meaning} {c : UInt8} {i : Fin 17} (hi : childIndex c = some i)
    (rest : Str) : branchOf ms (c :: rest) = ms i rest := by simp [branchOf, hi]

/-- Two key rests of one length where one begins with the other are equal. -/
theorem Suffix.eq_of_begins {L : ℕ} {s t : Str} (hs : Suffix L s) (ht : Suffix L t) (h : s <+: t) : t = s :=
  (h.eq_of_length (hs.length.trans ht.length.symm)).symm

/-- A key rest below itself is the single entry. -/
theorem below_suffix {L : ℕ} {s t : Str} (hs : Suffix L s) (ht : Suffix L t) (v : Str) :
    below s (fun _ => some v) t = if t = s then some v else none := by
  by_cases h : s <+: t
  · obtain rfl := hs.eq_of_begins ht h
    simp [below]
  · rw [below_of_not h, if_neg]
    rintro rfl
    exact h List.prefix_rfl

/-! ### Well-formed nodes -/

/-- The kind of a position: nothing, a short node, or a full node (each possibly by its hash). -/
inductive Kind where
  | null
  | short
  | branch
  deriving DecidableEq, Repr

/-- `Rep R F K L n m`: the node `n` is well formed at height `L` and means `m`. `R` gives the meaning
    of hashes; `F` is required of the flags of every node. -/
inductive Rep (R : Str → Kind → ℕ → Meaning → Prop) (F : NodeFlag → Kind → ℕ → Meaning → Prop) :
    Kind → ℕ → Node → Meaning → Prop
  | null (L : ℕ) : Rep R F .null L .null fun _ => none
  | leaf {L : ℕ} {k d : Str} {fl : NodeFlag} : Suffix L k → F fl .short L (below k fun _ => some d) →
      Rep R F .short L (.short k (.value d) fl) (below k fun _ => some d)
  | ext {L : ℕ} {k : Str} {c : Node} {m : Meaning} {fl : NodeFlag} : (∀ x ∈ k, isHexChar x) →
      Rep R F .branch L c m → F fl .short (k.length + L) (below k m) →
      Rep R F .short (k.length + L) (.short k c fl) (below k m)
  | full {L : ℕ} {K : Fin 17 → Kind} {ch : Fin 17 → Node} {ms : Fin 17 → Meaning} {fl : NodeFlag} :
      1 ≤ L → (∀ i, Rep R F (K i) L (ch i) (ms i)) → K 16 = .null → (∃ i, K i ≠ .null) →
      F fl .branch (L + 1) (branchOf ms) → Rep R F .branch (L + 1) (.full ch fl) (branchOf ms)
  | hash {K : Kind} {L : ℕ} {h : Str} {m : Meaning} : R h K L m → Rep R F K L (.hash h) m

/-- Every hash with a meaning can be loaded, and the node loaded has that meaning. -/
def Resolves (env : TrieEnv) (R : Str → Kind → ℕ → Meaning → Prop)
    (F : NodeFlag → Kind → ℕ → Meaning → Prop) : Prop :=
  ∀ h K L m, R h K L m → ∃ n, descendKey env h = some n ∧ n.isLoaded ∧ Rep R F K L n m

/-- How many of the four steps per character a walk that stands at `n` has behind it. -/
def slack : Kind → Node → ℕ
  | .short, .hash _ => 0
  | .short, _ => 1
  | .branch, .hash _ => 2
  | _, _ => 3

section Walks

variable {env : TrieEnv} {R : Str → Kind → ℕ → Meaning → Prop}
  {F : NodeFlag → Kind → ℕ → Meaning → Prop}

theorem Rep.eq_null {L : ℕ} {n : Node} {m : Meaning} (h : Rep R F .null L n m)
    (hn : n.isLoaded) : False := by
  cases h with
  | null => cases hn
  | hash => cases hn

theorem slack_branch (n : Node) : 2 ≤ slack .branch n := by
  cases n <;> simp [slack]

/-- A branch has at least two characters to go. -/
theorem Rep.branch_two (hR : Resolves env R F) {L : ℕ} {n : Node} {m : Meaning}
    (h : Rep R F .branch L n m) : 2 ≤ L := by
  cases h with
  | full hL => omega
  | hash hh =>
    obtain ⟨n, -, hn, hrep⟩ := hR _ _ _ _ hh
    cases hrep with
    | full hL => omega
    | hash => cases hn

end Walks

end Tfs.Mpt
