import Tfs.Mpt.Addressing

/-! The shape of a trie.

    `Insert` splits short nodes where keys part, and every full node it makes has two children. Where it
    splits leaves at their first character only, no extension comes up. This is a condition on the keys
    alone: whatever prefix a new key shares with an earlier one, the earlier keys part from it at every
    character of that prefix. -/

namespace Tfs.Mpt
open Tfs.Rlp

/-! ### The condition on the keys -/

/-- The keys updated by a sequence of calls. -/
def updatedKeys : List TrieOp → List Str
  | [] => []
  | .update key _ :: ops => key :: updatedKeys ops
  | .get _ :: ops => updatedKeys ops

/-- Along every prefix that `key` shares with one of `keys`, one of `keys` parts from it at every
    character. -/
def PartsEverywhere (keys : List Str) (key : Str) : Prop :=
  ∀ k ∈ keys, ∀ j < prefixLen key k, ∃ k' ∈ keys, prefixLen key k' = j

instance (keys : List Str) (key : Str) : Decidable (PartsEverywhere keys key) :=
  inferInstanceAs (Decidable (∀ k ∈ keys, ∀ j < prefixLen key k, ∃ k' ∈ keys, prefixLen key k' = j))

/-- Every key that was not among `keys` parts everywhere from the keys before it. -/
def NoExtension : List Str → List TrieOp → Prop
  | _, [] => True
  | keys, .update key _ :: ops =>
    (key ∈ keys ∨ PartsEverywhere keys key) ∧ NoExtension (key :: keys) ops
  | keys, .get _ :: ops => NoExtension keys ops

instance decidableNoExtension : (keys : List Str) → (ops : List TrieOp) →
    Decidable (NoExtension keys ops)
  | _, [] => inferInstanceAs (Decidable True)
  | keys, .update key _ :: ops =>
    have := decidableNoExtension (key :: keys) ops
    inferInstanceAs (Decidable ((key ∈ keys ∨ PartsEverywhere keys key) ∧ _))
  | keys, .get _ :: ops => decidableNoExtension keys ops

theorem prefixLen_cons (a : UInt8) (s t : Str) :
    prefixLen (a :: s) (a :: t) = prefixLen s t + 1 := by simp [prefixLen]

/-- What follows two different keys of one length does not count. -/
theorem prefixLen_append : ∀ {a b : Str} (x y : Str), a.length = b.length → a ≠ b →
    prefixLen (a ++ x) (b ++ y) = prefixLen a b
  | [], [], _, _, _, hne => absurd rfl hne
  | c :: a, d :: b, x, y, hlen, hne => by
    by_cases hcd : c = d
    · subst hcd
      rw [List.cons_append, List.cons_append, prefixLen_cons, prefixLen_cons,
        prefixLen_append x y (by simpa using hlen) (fun h => hne (by rw [h]))]
    · simp [prefixLen, hcd]

/-! ### Shapes -/

/-- Leaves and full nodes, every full node with two children at least, and extensions if `E` allows
    them. -/
inductive Shaped (E : Prop) : Node → Prop
  | null : Shaped E .null
  | hash (h : Str) : Shaped E (.hash h)
  | leaf (k d : Str) (fl : NodeFlag) : Shaped E (.short k (.value d) fl)
  | short {k : Str} {n : Node} {fl : NodeFlag} : E → Shaped E n → Shaped E (.short k n fl)
  | full {ch : Fin 17 → Node} {fl : NodeFlag} : (∀ i, Shaped E (ch i)) →
      (∃ i j, i ≠ j ∧ (ch i).isNull = false ∧ (ch j).isNull = false) → Shaped E (.full ch fl)

section Shapes

variable {E : Prop} {env : TrieEnv} {R : Str → Kind → ℕ → Meaning → Prop}
  {F : NodeFlag → Kind → ℕ → Meaning → Prop}

theorem Shaped.child {ch : Fin 17 → Node} {fl : NodeFlag} (h : Shaped E (.full ch fl)) (i : Fin 17) :
    Shaped E (ch i) := by
  cases h with
  | full hch _ => exact hch i

/-- Below an extension. -/
theorem Shaped.below_ext {k : Str} {n : Node} {fl : NodeFlag} (h : Shaped E (.short k n fl))
    (hn : ∀ d, n ≠ .value d) : E ∧ Shaped E n := by
  cases h with
  | leaf k d => exact absurd rfl (hn d)
  | short hext hshaped => exact ⟨hext, hshaped⟩

theorem Rep.ne_value {L : ℕ} {n : Node} {m : Meaning} (h : Rep R F .branch L n m) (d : Str) :
    n ≠ .value d := by
  rintro rfl
  cases h

/-- Replacing a child by a node that is there. -/
theorem Shaped.update {ch : Fin 17 → Node} {fl fl' : NodeFlag} {i : Fin 17} {n : Node}
    (h : Shaped E (.full ch fl)) (hn : Shaped E n) (hnull : n.isNull = false) :
    Shaped E (.full (Function.update ch i n) fl') := by
  cases h with
  | full hch htwo =>
    have hstays : ∀ x, (ch x).isNull = false → (Function.update ch i n x).isNull = false := by
      intro x hx
      by_cases hxi : x = i
      · subst hxi
        rw [Function.update_self]
        exact hnull
      · rw [Function.update_of_ne hxi]
        exact hx
    refine .full (fun x => ?_) ?_
    · by_cases hxi : x = i
      · subst hxi
        rw [Function.update_self]
        exact hn
      · rw [Function.update_of_ne hxi]
        exact hch x
    · obtain ⟨x, y, hxy, hx, hy⟩ := htwo
      exact ⟨x, y, hxy, hstays x hx, hstays y hy⟩

/-- Where a new key rest is about to go: if it is not there yet, the ones that are there part from it
    at every character they share with it. -/
def Gapless (L : ℕ) (m : Meaning) (s : Str) : Prop :=
  m s = none → ∀ t, Suffix L t → m t ≠ none → ∀ j < prefixLen s t,
    ∃ t', Suffix L t' ∧ m t' ≠ none ∧ prefixLen s t' = j

/-- Below the first character of a full node. -/
theorem Gapless.child {L : ℕ} {ms : Fin 17 → Meaning} {c : UInt8} {rest : Str} {i : Fin 17}
    (hL : 1 ≤ L) (hc : isHexChar c) (hi : childIndex c = some i)
    (h : Gapless (L + 1) (branchOf ms) (c :: rest)) : Gapless L (ms i) rest := by
  intro hnone t ht hm j hj
  have hcons : ∀ t, branchOf ms (c :: t) = ms i t := fun t => branchOf_cons hi t
  obtain ⟨t₀, rfl, ht₀, hlen⟩ := ht
  have hsuf : Suffix (L + 1) (c :: (t₀ ++ [term])) :=
    ⟨c :: t₀, rfl, fun x hx => by
      rcases List.mem_cons.mp hx with rfl | hx
      · exact hc
      · exact ht₀ x hx, by simpa using hlen⟩
  obtain ⟨t', ht', hm', hlen'⟩ := h (by rw [hcons]; exact hnone) _ hsuf (by rw [hcons]; exact hm)
    (j + 1) (by rw [prefixLen_cons]; omega)
  obtain ⟨x, u, rfl, -, hu⟩ := ht'.cons hL
  have hx : c = x := by
    by_contra hne
    simp [prefixLen, hne] at hlen'
  subst hx
  rw [hcons] at hm'
  rw [prefixLen_cons] at hlen'
  exact ⟨u, hu, hm', by omega⟩

/-- A single leaf lets a new key in only at its first character. -/
theorem Gapless.leaf {L : ℕ} {k s d : Str} (hk : Suffix L k) (hs : Suffix L s) (hne : s ≠ k)
    (h : Gapless L (below k fun _ => some d) s) : prefixLen s k = 0 := by
  have hval : ∀ t, Suffix L t → below k (fun _ => some d) t = if t = k then some d else none :=
    fun t ht => below_suffix hk ht d
  by_contra hpos
  obtain ⟨t', ht', hm', hzero⟩ := h (by rw [hval s hs, if_neg hne]) k hk (by simp [hval k hk]) 0
    (by omega)
  rw [hval t' ht'] at hm'
  split_ifs at hm' with heq
  · rw [heq] at hzero
    exact hpos hzero
  · exact hm' rfl

/-! ### Get and Insert keep the shape -/

/-- What is loaded has the shape. -/
def LoadsShaped (E : Prop) (env : TrieEnv) (R : Str → Kind → ℕ → Meaning → Prop) : Prop :=
  ∀ h K L m, R h K L m → ∀ n, descendKey env h = some n → Shaped E n

theorem getNode_shaped (hR : Resolves env R F) (hload : LoadsShaped E env R) : ∀ (fuel : ℕ) {K : Kind}
    {L : ℕ} {n : Node} {m : Meaning} {s : Str} {r : ReturnNode}, Rep R F K L n m → Shaped E n →
      Suffix L s → getNode env fuel n s = some r → r.newNode.isNull = true ∨ Shaped E r.newNode := by
  intro fuel
  induction fuel with
  | zero =>
    intro K L n m s r _ _ _ hget
    cases hget
  | succ fuel ih =>
    intro K L n m s r hrep hshaped hs hget
    cases hrep with
    | null =>
      cases hget
      exact .inl rfl
    | @leaf _ k d fl hk hfl =>
      rw [getNode] at hget
      by_cases hpre : k <+: s
      · rw [if_neg (not_not.mpr hpre)] at hget
        cases fuel with
        | zero => simp [getNode] at hget
        | succ fuel =>
          simp only [getNode, Option.bind_eq_bind, Option.bind_some, Option.some.injEq] at hget
          rw [← hget]
          exact .inr (.leaf _ _ _)
      · rw [if_pos hpre] at hget
        cases hget
        exact .inl rfl
    | @ext L' k c m' fl hk hc hfl =>
      obtain ⟨hext, hkid⟩ := hshaped.below_ext hc.ne_value
      rw [getNode] at hget
      by_cases hpre : k <+: s
      · rw [if_neg (not_not.mpr hpre)] at hget
        obtain ⟨s', rfl⟩ := hpre
        rw [List.drop_left] at hget
        obtain ⟨r', hr', heq⟩ := Option.bind_eq_some_iff.mp hget
        cases heq
        refine .inr (.short hext ?_)
        split_ifs with hnull
        · exact hkid
        · exact (ih hc hkid (hs.of_append hk) hr').resolve_left hnull
      · rw [if_pos hpre] at hget
        cases hget
        exact .inl rfl
    | @full L' K' ch ms fl hL hch h16 hex hfl =>
      obtain ⟨c, rest, rfl, hc, hrest⟩ := hs.cons hL
      obtain ⟨i, hi, -, -⟩ := hexChar_cases c hc
      rw [getNode, hi, Option.bind_eq_bind, Option.bind_some] at hget
      obtain ⟨r', hr', heq⟩ := Option.bind_eq_some_iff.mp hget
      cases heq
      right
      split_ifs with hnull
      · exact hshaped
      · exact hshaped.update ((ih (hch i) (hshaped.child i) hrest hr').resolve_left hnull)
          (by simpa using hnull)
    | @hash _ _ h _ hh =>
      obtain ⟨child, hdesc, -, hrep⟩ := hR _ _ _ _ hh
      rw [getNode, hdesc, Option.bind_eq_bind, Option.bind_some] at hget
      exact ih hrep (hload _ _ _ _ hh child hdesc) hs hget

/-- `Get` keeps the shape of the trie. -/
theorem trieGet_shaped (hR : Resolves env R F) (hload : LoadsShaped E env R) {n : ℕ} (hn : 1 ≤ n)
    {K : Kind} {root root' : Node} {m : Meaning} {k a : Str} (hrep : Rep R F K (n + 2) root m)
    (hshaped : Shaped E root) (hk : HexKey n k) (hget : trieGet env root k = some (a, root')) :
    Shaped E root' := by
  obtain ⟨r, hr, hrest⟩ := Option.bind_eq_some_iff.mp hget
  have hnode := getNode_shaped hR hload _ hrep hshaped (hk.wapperKey hn) hr
  have hroot : root' = rootAfterGet root r := by
    split at hrest
    · cases hrest
      rfl
    · cases hrest
      rfl
  rw [hroot]
  unfold rootAfterGet
  by_cases hnull : r.newNode.isNull
  · rw [if_pos hnull]
    exact hshaped
  · have hnew := hnode.resolve_left hnull
    rw [if_neg hnull]
    split
    · split_ifs
      · exact hshaped
      · exact hnew
    · exact hnew

/-- The branch of a leaf and what is left of the short node it is split from. -/
theorem splitShort_shaped {a b : UInt8} {q k s v : Str} {n branch : Node} (ha : isHexChar a)
    (hb : isHexChar b) (hab : a ≠ b) (hn : Shaped E (.short k n newFlag))
    (h : splitShort q.length (q ++ a :: k) n (q ++ b :: s) (.value v) = some branch) :
    Shaped E branch ∧ branch.isNull = false := by
  obtain ⟨i, hi, -, hinj⟩ := hexChar_cases a ha
  obtain ⟨j, hj, -, -⟩ := hexChar_cases b hb
  have hij : i ≠ j := by
    rintro rfl
    exact hab (hinj b hb hj)
  simp only [splitShort, List.drop_left, hi, hj, Option.bind_eq_bind, Option.bind_some,
    Option.some.injEq] at h
  subst h
  refine ⟨.full (fun x => ?_) ⟨i, j, hij, ?_, ?_⟩, rfl⟩
  · by_cases hxj : x = j
    · subst hxj
      rw [Function.update_self]
      exact .leaf _ _ _
    · rw [Function.update_of_ne hxj]
      by_cases hxi : x = i
      · subst hxi
        rw [Function.update_self]
        exact hn
      · rw [Function.update_of_ne hxi]
        exact .null
  · rw [Function.update_of_ne hij, Function.update_self]
    rfl
  · rw [Function.update_self]
    rfl

theorem insertNode_shaped (hR : Resolves env R F) (hload : LoadsShaped E env R) (v : Str) :
    ∀ (fuel : ℕ) {K : Kind} {L : ℕ} {n : Node} {m : Meaning} {s : Str} {r : ReturnVal},
      Rep R F K L n m → Shaped E n → Suffix L s → E ∨ Gapless L m s →
      insertNode env v fuel n s = some r → Shaped E r.node ∧ r.node.isNull = false := by
  intro fuel
  induction fuel with
  | zero =>
    intro K L n m s r _ _ _ _ hins
    cases hins
  | succ fuel ih =>
    intro K L n m s r hrep hshaped hs hgap hins
    cases hrep with
    | null =>
      cases hins
      exact ⟨.leaf _ _ _, rfl⟩
    | @leaf _ k d fl hk hfl =>
      rw [insertNode] at hins
      rcases prefixLen_cases s k (hk.length.trans hs.length.symm).le with
        ⟨hlen, hpre⟩ | ⟨q, a, k', b, s', rfl, rfl, hab, hlen⟩
      · -- the same key: a leaf again
        obtain rfl := hk.eq_of_begins hs hpre
        simp only [hlen, if_true, List.drop_length] at hins
        obtain ⟨r', hr', heq⟩ := Option.bind_eq_some_iff.mp hins
        have hval : ∃ v', r'.node = .value v' := by
          cases fuel with
          | zero => cases hr'
          | succ fuel =>
            rw [insertNode, if_pos rfl] at hr'
            cases hr'
            exact ⟨_, rfl⟩
        obtain ⟨v', hv'⟩ := hval
        rw [hv'] at heq
        split_ifs at heq
        · cases heq
          exact ⟨.leaf _ _ _, rfl⟩
        · cases heq
          exact ⟨.leaf _ _ _, rfl⟩
      · -- without extensions, the keys part at their first character
        have hne : q ++ b :: s' ≠ q ++ a :: k' := by
          intro h
          exact hab (List.cons.inj (List.append_cancel_left h)).1.symm
        have hzero : E ∨ q.length = 0 := hgap.imp_right fun hgap => hlen ▸ hgap.leaf hk hs hne
        obtain ⟨hk0, hs0⟩ := hk.parting hs hab
        obtain ⟨-, ha, -⟩ := hk.parts hk0
        obtain ⟨-, hb, -⟩ := hs.parts hs0
        have hlong : q.length ≠ (q ++ a :: k').length := by simp
        simp only [hlen, if_neg hlong] at hins
        obtain ⟨branch, hbr, heq⟩ := Option.bind_eq_some_iff.mp hins
        have hleaf : Shaped E (.short k' (.value d) newFlag) := .leaf _ _ _
        have hbranch := splitShort_shaped ha hb hab hleaf hbr
        split_ifs at heq with hq
        · cases heq
          exact hbranch
        · cases heq
          exact ⟨.short (hzero.resolve_right hq) hbranch.1, rfl⟩
    | @ext L' k c m' fl hk hc hfl =>
      obtain ⟨hext, hkid⟩ := hshaped.below_ext hc.ne_value
      have hL' := hc.branch_two hR
      rw [insertNode] at hins
      rcases prefixLen_cases s k (by rw [hs.length]; omega) with
        ⟨hlen, s', rfl⟩ | ⟨q, a, k', b, s', rfl, rfl, hab, hlen⟩
      · simp only [hlen, if_true, List.drop_left] at hins
        obtain ⟨r', hr', heq⟩ := Option.bind_eq_some_iff.mp hins
        have hnew := ih hc hkid (hs.of_append hk) (.inl hext) hr'
        split_ifs at heq
        · cases heq
          exact ⟨.short hext hnew.1, rfl⟩
        · cases heq
          exact ⟨hshaped, rfl⟩
      · have hs0 : s' ≠ [] := by
          rintro rfl
          have := hs.length
          simp only [List.length_append, List.length_cons, List.length_nil] at this
          omega
        obtain ⟨-, hb, -⟩ := hs.parts hs0
        have hlong : q.length ≠ (q ++ a :: k').length := by simp
        simp only [hlen, if_neg hlong] at hins
        obtain ⟨branch, hbr, heq⟩ := Option.bind_eq_some_iff.mp hins
        have hbranch := splitShort_shaped (hk a (by simp)) hb hab (.short hext hkid) hbr
        split_ifs at heq
        · cases heq
          exact hbranch
        · cases heq
          exact ⟨.short hext hbranch.1, rfl⟩
    | @full L' K' ch ms fl hL hch h16 hex hfl =>
      obtain ⟨c, rest, rfl, hc, hrest⟩ := hs.cons hL
      obtain ⟨i, hi, -, -⟩ := hexChar_cases c hc
      rw [insertNode, hi, Option.bind_eq_bind, Option.bind_some] at hins
      obtain ⟨r', hr', heq⟩ := Option.bind_eq_some_iff.mp hins
      obtain ⟨hnew, hnull⟩ := ih (hch i) (hshaped.child i) hrest
        (hgap.imp_right fun hgap => hgap.child hL hc hi) hr'
      split_ifs at heq
      · cases heq
        exact ⟨hshaped.update hnew hnull, rfl⟩
      · cases heq
        exact ⟨hshaped, rfl⟩
    | @hash _ _ h _ hh =>
      obtain ⟨child, hdesc, hloaded, hrep⟩ := hR _ _ _ _ hh
      have hchild := hload _ _ _ _ hh child hdesc
      rw [insertNode, hdesc, Option.bind_eq_bind, Option.bind_some] at hins
      obtain ⟨r', hr', heq⟩ := Option.bind_eq_some_iff.mp hins
      have hnew := ih hrep hchild hs hgap hr'
      split_ifs at heq
      · cases heq
        exact hnew
      · cases heq
        exact ⟨hchild, Node.isNull_of_isLoaded hloaded⟩

end Shapes

/-! ### Runs -/

/-- The trie holds the updated keys and nothing else. -/
def Exact (n : ℕ) (m : Meaning) (history : List TrieOp) : Prop :=
  ∀ t, Suffix (n + 2) t → ∀ v, m t = some v ↔
    ∃ k, HexKey n k ∧ t = wapperKey k ∧ lastUpdate k history = some v

theorem mem_updatedKeys {k : Str} : ∀ {history : List TrieOp},
    k ∈ updatedKeys history ↔ lastUpdate k history ≠ none
  | [] => by simp [updatedKeys, lastUpdate]
  | .get _ :: history => by
    rw [updatedKeys, lastUpdate]
    exact mem_updatedKeys
  | .update key value :: history => by
    rw [updatedKeys, lastUpdate, List.mem_cons, mem_updatedKeys]
    by_cases hk : key = k
    · simp [hk]
    · simp [hk, Ne.symm hk]

theorem updatedKeys_append (h h' : List TrieOp) :
    updatedKeys (h ++ h') = updatedKeys h ++ updatedKeys h' := by
  induction h with
  | nil => rfl
  | cons op h ih => cases op <;> simp [updatedKeys, ih]

theorem hexKey_of_updated {n : ℕ} {k : Str} : ∀ {ops : List TrieOp}, (∀ op ∈ ops, op.Valid n) →
    k ∈ updatedKeys ops → HexKey n k
  | .get _ :: ops, hops, hk =>
    hexKey_of_updated (fun op ho => hops op (List.mem_cons_of_mem _ ho)) hk
  | .update key value :: ops, hops, hk => by
    rcases List.mem_cons.mp hk with rfl | hk
    · exact (hops _ List.mem_cons_self).1
    · exact hexKey_of_updated (fun op ho => hops op (List.mem_cons_of_mem _ ho)) hk

/-- The map of an exact trie at a key. -/
theorem Exact.at_key {n : ℕ} (hn : 1 ≤ n) {m : Meaning} {history : List TrieOp}
    (h : Exact n m history) {k : Str} (hk : HexKey n k) : m (wapperKey k) = lastUpdate k history := by
  refine Option.ext fun v => ?_
  rw [h _ (hk.wapperKey hn) v]
  constructor
  · rintro ⟨k', hk', heq, hv⟩
    rwa [wapperKey_injective hk hk' heq]
  · exact fun hv => ⟨k, hk, rfl, hv⟩

/-- One more update. -/
theorem Exact.update {n : ℕ} {m m' : Meaning} {history : List TrieOp} {k v : Str}
    (h : Exact n m history) (hk : HexKey n k) (hover : Overwrites (n + 2) m m' (wapperKey k) v) :
    Exact n m' (history ++ [.update k v]) := by
  have hlast : ∀ k', lastUpdate k' (history ++ [.update k v])
      = if k = k' then some v else lastUpdate k' history := by
    intro k'
    rw [lastUpdate_append]
    by_cases hkk : k = k'
    · simp [lastUpdate, hkk]
    · simp [lastUpdate, hkk]
  intro t ht v'
  rw [hover t ht]
  split_ifs with heq
  · subst heq
    constructor
    · intro hv
      exact ⟨k, hk, rfl, by rw [hlast, if_pos rfl]; exact hv⟩
    · rintro ⟨k', hk', hkk, hv⟩
      rwa [hlast, if_pos (wapperKey_injective hk hk' hkk)] at hv
  · rw [h t ht v']
    refine exists_congr fun k' => and_congr_right fun hk' => and_congr_right fun hkk => ?_
    rw [hlast, if_neg]
    rintro rfl
    exact heq hkk

/-- The condition on the keys, seen from the trie. -/
theorem Exact.gapless {n : ℕ} (hn : 1 ≤ n) {m : Meaning} {history : List TrieOp} {keys : List Str}
    {k : Str} (h : Exact n m history) (hk : HexKey n k)
    (hkeys : ∀ x, x ∈ keys ↔ x ∈ updatedKeys history) (hhex : ∀ x ∈ updatedKeys history, HexKey n x)
    (hparts : k ∈ keys ∨ PartsEverywhere keys k) : Gapless (n + 2) m (wapperKey k) := by
  intro hnone t ht hm j hj
  have hnew : k ∉ keys := by
    intro hmem
    rw [hkeys, mem_updatedKeys, ← h.at_key hn hk] at hmem
    exact hmem hnone
  have hlen : ∀ x ∈ keys, prefixLen (wapperKey k) (wapperKey x) = prefixLen k x := by
    intro x hx
    refine prefixLen_append _ _ (hk.1.trans (hhex x ((hkeys x).mp hx)).1.symm) ?_
    rintro rfl
    exact hnew hx
  obtain ⟨v, hv⟩ := Option.ne_none_iff_exists'.mp hm
  obtain ⟨k', hk', rfl, hlast⟩ := (h t ht v).mp hv
  have hmem : k' ∈ keys := by rw [hkeys, mem_updatedKeys, hlast]; simp
  rw [hlen k' hmem] at hj
  obtain ⟨x, hx, hxj⟩ := hparts.resolve_left hnew k' hmem j hj
  have hxhex := hhex x ((hkeys x).mp hx)
  refine ⟨wapperKey x, hxhex.wapperKey hn, ?_, (hlen x hx).trans hxj⟩
  rw [h.at_key hn hxhex]
  exact mem_updatedKeys.mp ((hkeys x).mp hx)

/-- `Update` overwrites one key of the whole map and keeps the shape. -/
theorem trieUpdate_overwrites {E : Prop} {env : TrieEnv} {R : Str → Kind → ℕ → Meaning → Prop}
    {F : NodeFlag → Kind → ℕ → Meaning → Prop} (hR : Resolves env R F)
    (hload : LoadsShaped E env R) (hF : ∀ K L m, F newFlag K L m) {n : ℕ} (hn : 1 ≤ n) {K : Kind}
    {root : Node} {m : Meaning} (hrep : Rep R F K (n + 2) root m) (hshaped : Shaped E root) {k v : Str}
    (hk : HexKey n k) (hv : v ≠ []) (hgap : E ∨ Gapless (n + 2) m (wapperKey k)) :
    ∃ root' K' m', trieUpdate env root k v = some root' ∧ Rep R F K' (n + 2) root' m' ∧
      Shaped E root' ∧ Overwrites (n + 2) m m' (wapperKey k) v := by
  obtain ⟨r, hr, hspec⟩ := insertNode_spec hR hF v _ hrep (hk.wapperKey hn) (walkBound_le hk K root)
  have hupd : trieUpdate env root k v = some r.node := by
    rw [trieUpdate, if_pos (by simpa using hv), hr]
    rfl
  have hform := (insertNode_shaped hR hload v _ hrep hshaped (hk.wapperKey hn) hgap hr).1
  cases hd : r.dirty with
  | false =>
    obtain ⟨hm, hrep'⟩ := hspec.clean hd
    refine ⟨r.node, K, m, hupd, hrep', hform, fun t ht => ?_⟩
    split_ifs with heq
    · rw [heq, hm]
    · rfl
  | true =>
    obtain ⟨K', m', hrep', -, -, hover⟩ := hspec.dirty hd
    exact ⟨r.node, K', m', hupd, hrep', hform, hover⟩

theorem runOps_shaped {E : Prop} {env : TrieEnv} {R : Str → Kind → ℕ → Meaning → Prop}
    {F : NodeFlag → Kind → ℕ → Meaning → Prop} (hR : Resolves env R F) (hload : LoadsShaped E env R)
    (hF : ∀ K L m, F newFlag K L m) {n : ℕ} (hn : 1 ≤ n) :
    ∀ (ops history : List TrieOp) (keys : List Str) {K : Kind} {root : Node} {m : Meaning},
      (∀ op ∈ ops, op.Valid n) → (∀ x ∈ updatedKeys history, HexKey n x) →
      (∀ x, x ∈ keys ↔ x ∈ updatedKeys history) → E ∨ NoExtension keys ops →
      Rep R F K (n + 2) root m → Shaped E root → Exact n m history →
      ∃ r K' m', runOps env root ops = some r ∧ Rep R F K' (n + 2) r.1 m' ∧ Shaped E r.1 ∧
        Exact n m' (history ++ ops) := by
  intro ops
  induction ops with
  | nil =>
    intro history keys K root m _ _ _ _ hrep hshaped hexact
    exact ⟨(root, []), K, m, rfl, hrep, hshaped, by simpa using hexact⟩
  | cons op ops ih =>
    intro history keys K root m hval hhex hkeys hext hrep hshaped hexact
    have hop := hval op List.mem_cons_self
    have hval' : ∀ o ∈ ops, o.Valid n := fun o ho => hval o (List.mem_cons_of_mem _ ho)
    cases op with
    | update k v =>
      have hparts : E ∨ k ∈ keys ∨ PartsEverywhere keys k := hext.imp_right And.left
      have hext' : E ∨ NoExtension (k :: keys) ops := hext.imp_right And.right
      obtain ⟨root₁, K₁, m₁, hupd, hrep₁, hshaped₁, hover⟩ := trieUpdate_overwrites hR hload hF hn
        hrep hshaped hop.1 hop.2 (hparts.imp_right (hexact.gapless hn hop.1 hkeys hhex))
      have hkeys' : updatedKeys (history ++ [.update k v]) = updatedKeys history ++ [k] := by
        rw [updatedKeys_append]
        rfl
      obtain ⟨r, K₂, m₂, hrun, hrest⟩ := ih (history ++ [.update k v]) (k :: keys) hval'
        (by
          rw [hkeys']
          intro x hx
          rcases List.mem_append.mp hx with hx | hx
          · exact hhex x hx
          · rw [List.mem_singleton.mp hx]
            exact hop.1)
        (by
          intro x
          rw [hkeys', List.mem_cons, List.mem_append, List.mem_singleton, hkeys, or_comm])
        hext' hrep₁ hshaped₁ (hexact.update hop.1 hover)
      refine ⟨r, K₂, m₂, ?_, by simpa using hrest⟩
      rw [runOps, hupd]
      exact hrun
    | get k =>
      obtain ⟨root₁, hget, hrep₁⟩ := trieGet_spec hR hn hrep hop
      have hshaped₁ := trieGet_shaped hR hload hn hrep hshaped hop hget
      have hkeys' : updatedKeys (history ++ [.get k]) = updatedKeys history := by
        rw [updatedKeys_append]
        exact List.append_nil _
      have hexact₁ : Exact n m (history ++ [.get k]) := by
        intro t ht v
        rw [hexact t ht v]
        simp [lastUpdate_append, lastUpdate]
      obtain ⟨r, K₂, m₂, hrun, hrest⟩ := ih (history ++ [.get k]) keys hval' (by rwa [hkeys'])
        (by rwa [hkeys']) hext hrep₁ hshaped₁ hexact₁
      refine ⟨(r.1, (m (wapperKey k)).getD [] :: r.2), K₂, m₂, ?_, by simpa using hrest⟩
      rw [runOps, hget, Option.bind_eq_bind, Option.bind_some, hrun]
      rfl

/-- The condition on a longer sequence splits at any point. -/
theorem NoExtension.append : ∀ {keys : List Str} {ops ops' : List TrieOp},
    NoExtension keys (ops ++ ops') → ∃ keys', NoExtension keys ops ∧ NoExtension keys' ops' ∧
      ∀ x, x ∈ keys' ↔ x ∈ keys ∨ x ∈ updatedKeys ops
  | keys, [], ops', h => ⟨keys, trivial, h, by simp [updatedKeys]⟩
  | keys, .update k v :: ops, ops', h => by
    obtain ⟨keys', hops, hops', hmem⟩ := NoExtension.append h.2
    refine ⟨keys', ⟨h.1, hops⟩, hops', fun x => ?_⟩
    rw [hmem, updatedKeys, List.mem_cons, List.mem_cons]
    tauto
  | keys, .get k :: ops, ops', h => by
    have hrest : NoExtension keys (ops ++ ops') := h
    obtain ⟨keys', hops, hops', hmem⟩ := hrest.append
    exact ⟨keys', hops, hops', hmem⟩

end Tfs.Mpt
