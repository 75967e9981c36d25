import Tfs.Mpt.Meaning

/-! `Get` and `Update` on well-formed tries, and runs of them.

    One step: `Get` answers by the meaning of the trie and leaves it as it is, `Insert` changes it at
    the given key and nowhere else, and neither runs out of steps. A run: any sequence of `Update`
    and `Get` calls on an empty trie answers like a plain map. -/

namespace Tfs.Mpt

section Walks

variable {env : TrieEnv} {R : Str → Kind → ℕ → Meaning → Prop}
  {F : NodeFlag → Kind → ℕ → Meaning → Prop}

/-! ### Get -/

/-- The value node of an answer. -/
def found : Option Str → Node
  | some d => .value d
  | none => .null

/-- What `Get` does below a well-formed node: it answers by the meaning, and what it hands back to
    be attached (if anything) means the same. -/
structure GetSpec (R : Str → Kind → ℕ → Meaning → Prop) (F : NodeFlag → Kind → ℕ → Meaning → Prop)
    (K : Kind) (L : ℕ) (m : Meaning) (s : Str) (r : ReturnNode) : Prop where
  answer : r.valueNode = found (m s)
  same : r.newNode = .null ∨ Rep R F K L r.newNode m

theorem GetSpec.attach {K : Kind} {L : ℕ} {n : Node} {m : Meaning} {s : Str} {r : ReturnNode}
    (h : GetSpec R F K L m s r) (hn : Rep R F K L n m) :
    Rep R F K L (if r.newNode.isNull then n else r.newNode) m := by
  rcases h.same with hnull | hrep
  · rw [hnull]; exact hn
  · split_ifs
    · exact hn
    · exact hrep

/-- Loading a hash takes one step, which the slack of the loaded node makes up for. -/
theorem slack_step {K : Kind} {L fuel : ℕ} {h : Str} {child : Node} {m : Meaning}
    (hrep : Rep R F K L child m) (hload : child.isLoaded)
    (hfuel : 4 * L ≤ fuel + 1 + slack K (.hash h)) : 4 * L ≤ fuel + slack K child := by
  cases K with
  | null => exact absurd hrep fun hrep => hrep.eq_null hload
  | short => cases child <;> simp [slack] at hfuel ⊢ <;> first | omega | cases hload
  | branch => cases child <;> simp [slack] at hfuel ⊢ <;> first | omega | cases hload

theorem getNode_spec (hR : Resolves env R F) : ∀ (fuel : ℕ) {K : Kind} {L : ℕ} {n : Node}
    {m : Meaning} {s : Str}, Rep R F K L n m → Suffix L s → 4 * L ≤ fuel + slack K n →
      ∃ r, getNode env fuel n s = some r ∧ GetSpec R F K L m s r := by
  intro fuel
  induction fuel with
  | zero =>
    intro K L n m s hrep hs hfuel
    have := hs.pos
    have : slack K n ≤ 3 := by unfold slack; split <;> omega
    omega
  | succ fuel ih =>
    intro K L n m s hrep hs hfuel
    cases hrep with
    | null => exact ⟨_, rfl, ⟨rfl, .inl rfl⟩⟩
    | @leaf _ k d fl hk hfl =>
      rw [getNode]
      by_cases hpre : k <+: s
      · obtain rfl := hk.eq_of_begins hs hpre
        have := hs.pos
        simp only [slack] at hfuel
        obtain ⟨f, rfl⟩ : ∃ f, fuel = f + 1 := ⟨fuel - 1, by omega⟩
        rw [if_neg (not_not.mpr List.prefix_rfl), List.drop_length]
        refine ⟨_, rfl, ⟨?_, ?_⟩⟩
        · simp [below, found]
        · exact .inr (.leaf hk hfl)
      · rw [if_pos hpre]
        exact ⟨_, rfl, ⟨by rw [below_of_not hpre]; rfl, .inl rfl⟩⟩
    | @ext L' k c m' fl hk hc hfl =>
      rw [getNode]
      by_cases hpre : k <+: s
      · obtain ⟨s', rfl⟩ := hpre
        have hs' := hs.of_append hk
        simp only [slack] at hfuel
        obtain ⟨r, hr, hspec⟩ := ih hc hs' (by have := slack_branch c; omega)
        rw [if_neg (not_not.mpr (List.prefix_append k s')), List.drop_left, hr]
        refine ⟨_, rfl, ⟨?_, ?_⟩⟩
        · rw [below_append]; exact hspec.answer
        · exact .inr (.ext hk (hspec.attach hc) hfl)
      · rw [if_pos hpre]
        exact ⟨_, rfl, ⟨by rw [below_of_not hpre]; rfl, .inl rfl⟩⟩
    | @full L' K' ch ms fl hL hch h16 hex hfl =>
      obtain ⟨c, rest, rfl, hc, hrest⟩ := hs.cons hL
      obtain ⟨i, hi, -, -⟩ := hexChar_cases c hc
      simp only [slack] at hfuel
      obtain ⟨r, hr, hspec⟩ := ih (hch i) hrest (by omega)
      rw [getNode, hi, Option.bind_eq_bind, Option.bind_some, hr]
      refine ⟨_, rfl, ⟨?_, ?_⟩⟩
      · rw [branchOf_cons hi]; exact hspec.answer
      · refine .inr (.full hL (fun j => ?_) h16 hex hfl)
        have hatt := hspec.attach (hch i)
        split_ifs with hnull
        · exact hch j
        · rw [if_neg hnull] at hatt
          by_cases hj : j = i
          · subst hj; rw [Function.update_self]; exact hatt
          · rw [Function.update_of_ne hj]; exact hch j
    | @hash _ _ h _ hh =>
      obtain ⟨child, hdesc, hload, hrep⟩ := hR _ _ _ _ hh
      obtain ⟨r, hr, hspec⟩ := ih hrep hs (slack_step hrep hload hfuel)
      exact ⟨r, by simp [getNode, hdesc, hr], hspec⟩

/-! ### Insert -/

/-- `m'` is `m` with `s` set to `v`, on the key rests of length `L`. -/
def Overwrites (L : ℕ) (m m' : Meaning) (s v : Str) : Prop :=
  ∀ t, Suffix L t → m' t = if t = s then some v else m t

/-- What `Insert` does below a well-formed node: a dirty result means the updated map, a clean one
    says that the value was there already. Branches stay branches. -/
structure InsertSpec (R : Str → Kind → ℕ → Meaning → Prop)
    (F : NodeFlag → Kind → ℕ → Meaning → Prop) (K : Kind) (L : ℕ) (m : Meaning) (s v : Str)
    (r : ReturnVal) : Prop where
  dirty : r.dirty = true → ∃ K' m', Rep R F K' L r.node m' ∧ (K = .branch → K' = .branch) ∧
    K' ≠ .null ∧ Overwrites L m m' s v
  clean : r.dirty = false → m s = some v ∧ Rep R F K L r.node m

/-- Below a common piece `k`, overwriting a rest overwrites the whole key. -/
theorem Overwrites.below {L : ℕ} {m m' : Meaning} {k s v : Str} (hk : ∀ x ∈ k, isHexChar x)
    (h : Overwrites L m m' s v) :
    Overwrites (k.length + L) (below k m) (below k m') (k ++ s) v := by
  intro t ht
  by_cases hpre : k <+: t
  · obtain ⟨t', rfl⟩ := hpre
    rw [below_append, below_append, h t' (ht.of_append hk)]
    simp
  · rw [below_of_not hpre, below_of_not hpre, if_neg]
    rintro rfl
    exact hpre (List.prefix_append k s)

/-- The meaning of a branch that parts two keys, `a :: k'` (below which is `m`) and `b :: s'`. -/
theorem overwrites_split {L : ℕ} {m : Meaning} {a b : UInt8} {k' s' v : Str} {i j : Fin 17}
    (hL : 1 ≤ L) (ha : isHexChar a) (hb : isHexChar b) (hab : a ≠ b) (hi : childIndex a = some i)
    (hj : childIndex b = some j) (hs' : Suffix L s') :
    Overwrites (L + 1) (below (a :: k') m)
      (branchOf (Function.update (Function.update (fun _ _ => none) i (below k' m)) j
        (below s' fun _ => some v))) (b :: s') v := by
  intro t ht
  obtain ⟨x, t', rfl, hx, ht'⟩ := ht.cons hL
  obtain ⟨l, hl, -, hlinj⟩ := hexChar_cases x hx
  rw [branchOf_cons hl]
  by_cases hxb : x = b
  · subst hxb
    obtain rfl : l = j := by rw [hl] at hj; exact Option.some.inj hj
    have hno : ¬ a :: k' <+: x :: t' := fun h => hab (List.cons_prefix_cons.mp h).1
    rw [Function.update_self, below_suffix hs' ht', below_of_not hno]
    simp
  · have hlj : l ≠ j := fun h => hxb (hlinj b hb (h ▸ hj))
    rw [Function.update_of_ne hlj, if_neg (by simp [hxb])]
    by_cases hxa : x = a
    · subst hxa
      obtain rfl : l = i := by rw [hl] at hi; exact Option.some.inj hi
      rw [Function.update_self]
      by_cases hpre : k' <+: t'
      · rw [below, below, if_pos hpre, if_pos (List.cons_prefix_cons.mpr ⟨rfl, hpre⟩)]; rfl
      · rw [below_of_not hpre, below_of_not fun h => hpre (List.cons_prefix_cons.mp h).2]
    · have hli : l ≠ i := fun h => hxa (hlinj a ha (h ▸ hi))
      rw [Function.update_of_ne hli, below_of_not fun h => hxa (List.cons_prefix_cons.mp h).1.symm]

theorem below_below (q k : Str) (m : Meaning) : below (q ++ k) m = below q (below k m) := by
  funext s
  by_cases hq : q <+: s
  · obtain ⟨s', rfl⟩ := hq
    rw [below_append, below, below, List.length_append, ← List.drop_drop, List.drop_left]
    simp only [List.prefix_append_right_inj]
  · rw [below_of_not hq, below_of_not fun h => hq ((List.prefix_append q k).trans h)]

/-- Splitting a short node: `q` is the common piece, `old` the rest of the node below `a`. -/
theorem split_spec (hF : ∀ K L m, F newFlag K L m) {L : ℕ} {q k' s' v : Str} {a b : UInt8}
    {c : Node} {m : Meaning} (hL : 1 ≤ L) (hq : ∀ x ∈ q, isHexChar x) (ha : isHexChar a)
    (hb : isHexChar b) (hab : a ≠ b) (hs' : Suffix L s')
    (hold : Rep R F .short L (.short k' c newFlag) (below k' m)) :
    ∃ branch, splitShort q.length (q ++ a :: k') c (q ++ b :: s') (.value v) = some branch ∧
      ∃ K' n' m', (if q.length = 0 then some (⟨true, branch⟩ : ReturnVal)
          else some ⟨true, .short ((q ++ a :: k').take q.length) branch newFlag⟩)
            = some ⟨true, n'⟩ ∧
        Rep R F K' (q.length + (L + 1)) n' m' ∧ K' ≠ .null ∧
        Overwrites (q.length + (L + 1)) (below (q ++ a :: k') m) m' (q ++ b :: s') v := by
  obtain ⟨i, hi, hi16, hiinj⟩ := hexChar_cases a ha
  obtain ⟨j, hj, hj16, -⟩ := hexChar_cases b hb
  have hji : j ≠ i := fun h => hab (hiinj b hb (h ▸ hj))
  set ms : Fin 17 → Meaning := Function.update (Function.update (fun _ _ => none) i (below k' m)) j
    (below s' fun _ => some v) with hms
  set ch : Fin 17 → Node := Function.update (Function.update (fun _ => Node.null) i
    (.short k' c newFlag)) j (.short s' (.value v) newFlag) with hch
  -- the branch itself: `i` carries the old rest, `j` the new leaf, all others are empty
  have hbranch : Rep R F .branch (L + 1) (.full ch newFlag) (branchOf ms) := by
    refine .full (K := fun x => if x = j then .short else if x = i then .short else .null) hL
      (fun x => ?_) ?_ ⟨j, by simp⟩ (hF _ _ _)
    · by_cases hxj : x = j
      · subst hxj
        simp only [hch, hms, Function.update_self, if_true]
        exact .leaf hs' (hF _ _ _)
      · by_cases hxi : x = i
        · subst hxi
          simp only [hch, hms, Function.update_of_ne hxj, Function.update_self, if_neg hxj, if_true]
          exact hold
        · simp only [hch, hms, Function.update_of_ne hxj, Function.update_of_ne hxi, if_neg hxj,
            if_neg hxi]
          exact .null L
    · rw [if_neg hj16.symm, if_neg hi16.symm]
  have hover : Overwrites (L + 1) (below (a :: k') m) (branchOf ms) (b :: s') v :=
    overwrites_split hL ha hb hab hi hj hs'
  refine ⟨.full ch newFlag, ?_, ?_⟩
  · simp [splitShort, hi, hj, hch]
  · by_cases hq0 : q.length = 0
    · obtain rfl := List.length_eq_zero_iff.mp hq0
      refine ⟨.branch, _, branchOf ms, if_pos hq0, ?_, by simp, ?_⟩
      · simpa using hbranch
      · simpa using hover
    · refine ⟨.short, _, below q (branchOf ms), if_neg hq0, ?_, by simp, ?_⟩
      · rw [List.take_left]; exact .ext hq hbranch (hF _ _ _)
      · rw [below_below]; exact hover.below hq

theorem insertNode_spec (hR : Resolves env R F) (hF : ∀ K L m, F newFlag K L m) (v : Str) :
    ∀ (fuel : ℕ) {K : Kind} {L : ℕ} {n : Node} {m : Meaning} {s : Str}, Rep R F K L n m →
      Suffix L s → 4 * L ≤ fuel + slack K n →
      ∃ r, insertNode env v fuel n s = some r ∧ InsertSpec R F K L m s v r := by
  intro fuel
  induction fuel with
  | zero =>
    intro K L n m s hrep hs hfuel
    have := hs.pos
    have : slack K n ≤ 3 := by unfold slack; split <;> omega
    omega
  | succ fuel ih =>
    intro K L n m s hrep hs hfuel
    cases hrep with
    | null =>
      refine ⟨_, rfl, ⟨fun _ => ⟨.short, _, .leaf hs (hF _ _ _), by simp, by simp, ?_⟩, by simp⟩⟩
      intro t ht
      exact below_suffix hs ht v
    | @leaf _ k d fl hk hfl =>
      have hpos := hs.pos
      simp only [slack] at hfuel
      rw [insertNode]
      rcases prefixLen_cases s k (hk.length.trans hs.length.symm).le with
        ⟨hlen, hpre⟩ | ⟨q, a, k', b, s', rfl, rfl, hab, hlen⟩
      · -- the same key: only the value is compared
        obtain rfl := hk.eq_of_begins hs hpre
        obtain ⟨f, rfl⟩ : ∃ f, fuel = f + 1 := ⟨fuel - 1, by omega⟩
        simp only [hlen, if_true, List.drop_length]
        rw [insertNode, if_pos rfl]
        by_cases hdv : d = v
        · subst hdv
          refine ⟨_, by simp; rfl, ⟨by simp, fun _ => ⟨by simp [below], .leaf hk hfl⟩⟩⟩
        · refine ⟨⟨true, .short s (.value v) newFlag⟩, by simp [hdv], ⟨fun _ => ?_, by simp⟩⟩
          refine ⟨.short, _, .leaf hs (hF _ _ _), by simp, by simp, fun t ht => ?_⟩
          rw [below_suffix hs ht, below_suffix hs ht]
          split_ifs <;> rfl
      · obtain ⟨hk0, hs0⟩ := hk.parting hs hab
        obtain ⟨hq, ha, L', hL', rfl, hk'⟩ := hk.parts hk0
        obtain ⟨-, hb, L'', -, hLL, hs'⟩ := hs.parts hs0
        obtain rfl : L' = L'' := by omega
        obtain ⟨branch, hbr, K', n', m', hn', hrep', hK', hover⟩ :=
          split_spec hF (m := fun _ => some d) (v := v) hL' hq ha hb hab hs' (.leaf hk' (hF _ _ _))
        have hne : q.length ≠ (q ++ a :: k').length := by simp
        simp only [hlen, if_neg hne, hbr]
        exact ⟨_, hn', ⟨fun _ => ⟨K', m', hrep', by simp, hK', hover⟩, by simp⟩⟩
    | @ext L' k c m' fl hk hc hfl =>
      have hL' := hc.branch_two hR
      simp only [slack] at hfuel
      rw [insertNode]
      rcases prefixLen_cases s k (by rw [hs.length]; omega) with
        ⟨hlen, s', rfl⟩ | ⟨q, a, k', b, s', rfl, rfl, hab, hlen⟩
      · have hs' := hs.of_append hk
        obtain ⟨r, hr, hspec⟩ := ih hc hs' (by have := slack_branch c; omega)
        simp only [hlen, if_true, List.drop_left, hr]
        cases hd : r.dirty with
        | false =>
          obtain ⟨hm, -⟩ := hspec.clean hd
          refine ⟨⟨false, .short k c fl⟩, by simp [hd], ⟨by simp, fun _ => ⟨?_, .ext hk hc hfl⟩⟩⟩
          rw [below_append, hm]
        | true =>
          obtain ⟨K', m'', hrep', hK', -, hover⟩ := hspec.dirty hd
          obtain rfl := hK' rfl
          refine ⟨⟨true, .short k r.node newFlag⟩, by simp [hd], ⟨fun _ => ?_, by simp⟩⟩
          exact ⟨.short, _, .ext hk hrep' (hF _ _ _), by simp, by simp, hover.below hk⟩
      · have hs0 : s' ≠ [] := by
          rintro rfl
          have := hs.length
          simp only [List.length_append, List.length_cons, List.length_nil] at this
          omega
        obtain ⟨-, hb, L'', hL'', hLL, hs'⟩ := hs.parts hs0
        have hq : ∀ x ∈ q, isHexChar x := fun x hx => hk x (by simp [hx])
        have ha : isHexChar a := hk a (by simp)
        have hkk : ∀ x ∈ k', isHexChar x := fun x hx => hk x (by simp [hx])
        simp only [List.length_append, List.length_cons] at hLL
        obtain rfl : k'.length + L' = L'' := by omega
        obtain ⟨branch, hbr, K', n', m'', hn', hrep', hK', hover⟩ :=
          split_spec hF (v := v) hL'' hq ha hb hab hs' (.ext hkk hc (hF _ _ _))
        have hne : q.length ≠ (q ++ a :: k').length := by simp
        have hL : (q ++ a :: k').length + L' = q.length + (k'.length + L' + 1) := by
          simp only [List.length_append, List.length_cons]; omega
        rw [hL]
        simp only [hlen, if_neg hne, hbr]
        exact ⟨_, hn', ⟨fun _ => ⟨K', m'', hrep', by simp, hK', hover⟩, by simp⟩⟩
    | @full L' K' ch ms fl hL hch h16 hex hfl =>
      obtain ⟨c, rest, rfl, hc, hrest⟩ := hs.cons hL
      obtain ⟨i, hi, hi16, hinj⟩ := hexChar_cases c hc
      simp only [slack] at hfuel
      obtain ⟨r, hr, hspec⟩ := ih (hch i) hrest (by omega)
      rw [insertNode, hi, Option.bind_eq_bind, Option.bind_some, hr]
      cases hd : r.dirty with
      | false =>
        obtain ⟨hm, -⟩ := hspec.clean hd
        refine ⟨⟨false, .full ch fl⟩, by simp [hd],
          ⟨by simp, fun _ => ⟨?_, .full hL hch h16 hex hfl⟩⟩⟩
        rw [branchOf_cons hi, hm]
      | true =>
        obtain ⟨K'', m'', hrep', -, hK'', hover⟩ := hspec.dirty hd
        refine ⟨⟨true, .full (Function.update ch i r.node) newFlag⟩, by simp [hd],
          ⟨fun _ => ⟨.branch, branchOf (Function.update ms i m''), ?_, by simp, by simp, ?_⟩,
            by simp⟩⟩
        · refine .full (K := Function.update K' i K'') hL (fun x => ?_) ?_ ⟨i, by simpa⟩ (hF _ _ _)
          · by_cases hx : x = i
            · subst hx; simpa using hrep'
            · simpa [Function.update_of_ne hx] using hch x
          · rw [Function.update_of_ne hi16.symm]; exact h16
        · intro t ht
          obtain ⟨x, t', rfl, hx, ht'⟩ := ht.cons hL
          obtain ⟨l, hl, -, -⟩ := hexChar_cases x hx
          rw [branchOf_cons hl, branchOf_cons hl]
          by_cases hxc : l = i
          · subst hxc
            obtain rfl := hinj x hx hl
            rw [Function.update_self, hover t' ht']
            simp
          · have hne : x ≠ c := by
              rintro rfl
              rw [hl] at hi
              exact hxc (Option.some.inj hi)
            rw [Function.update_of_ne hxc, if_neg (by simp [hne])]
    | @hash _ _ h _ hh =>
      obtain ⟨child, hdesc, hload, hrep⟩ := hR _ _ _ _ hh
      obtain ⟨r, hr, hspec⟩ := ih hrep hs (slack_step hrep hload hfuel)
      rw [insertNode, hdesc, Option.bind_eq_bind, Option.bind_some, hr]
      cases hd : r.dirty with
      | false =>
        obtain ⟨hm, -⟩ := hspec.clean hd
        exact ⟨⟨false, child⟩, by simp [hd], ⟨by simp, fun _ => ⟨hm, hrep⟩⟩⟩
      | true =>
        exact ⟨⟨true, r.node⟩, by simp [hd], ⟨fun _ => hspec.dirty hd, by simp⟩⟩

/-! ### One call -/

theorem walkBound_le {n : ℕ} {k : Str} (hk : HexKey n k) (K : Kind) (root : Node) :
    4 * (n + 2) ≤ walkBound (wapperKey k) + slack K root := by
  rw [walkBound, wapperKey, List.length_append, hk.1]
  simp

/-- `Get` answers by the meaning of the trie and keeps it. -/
theorem trieGet_spec (hR : Resolves env R F) {n : ℕ} (hn : 1 ≤ n) {K : Kind} {root : Node}
    {m : Meaning} (hrep : Rep R F K (n + 2) root m) {k : Str} (hk : HexKey n k) :
    ∃ root', trieGet env root k = some ((m (wapperKey k)).getD [], root') ∧
      Rep R F K (n + 2) root' m := by
  obtain ⟨r, hr, hspec⟩ := getNode_spec hR _ hrep (hk.wapperKey hn) (walkBound_le hk K root)
  refine ⟨rootAfterGet root r, ?_, ?_⟩
  · rw [trieGet, hr, Option.bind_eq_bind, Option.bind_some, hspec.answer]
    cases m (wapperKey k) <;> rfl
  · have hatt := hspec.attach hrep
    unfold rootAfterGet
    by_cases hnull : r.newNode.isNull
    · rw [if_pos hnull]; exact hrep
    · rw [if_neg hnull] at hatt ⊢
      split
      · split_ifs
        · exact hrep
        · exact hatt
      · exact hatt

/-- `Update` overwrites one key. -/
theorem trieUpdate_spec (hR : Resolves env R F) (hF : ∀ K L m, F newFlag K L m) {n : ℕ} (hn : 1 ≤ n)
    {K : Kind} {root : Node} {m : Meaning} (hrep : Rep R F K (n + 2) root m) {k v : Str}
    (hk : HexKey n k) (hv : v ≠ []) :
    ∃ root' K' m', trieUpdate env root k v = some root' ∧ Rep R F K' (n + 2) root' m' ∧
      ∀ k', HexKey n k' → m' (wapperKey k') = if k' = k then some v else m (wapperKey k') := by
  obtain ⟨r, hr, hspec⟩ := insertNode_spec hR hF v _ hrep (hk.wapperKey hn) (walkBound_le hk K root)
  have hupd : trieUpdate env root k v = some r.node := by
    rw [trieUpdate, if_pos (by simpa using hv), hr]; rfl
  cases hd : r.dirty with
  | false =>
    obtain ⟨hm, hrep'⟩ := hspec.clean hd
    refine ⟨r.node, K, m, hupd, hrep', fun k' hk' => ?_⟩
    split_ifs with hkk
    · rw [hkk, hm]
    · rfl
  | true =>
    obtain ⟨K', m', hrep', -, -, hover⟩ := hspec.dirty hd
    refine ⟨r.node, K', m', hupd, hrep', fun k' hk' => ?_⟩
    rw [hover _ (hk'.wapperKey hn)]
    by_cases hkk : k' = k
    · rw [if_pos (by rw [hkk]), if_pos hkk]
    · rw [if_neg fun h => hkk (wapperKey_injective hk' hk h), if_neg hkk]

end Walks

/-! ### Runs -/

/-- A call of the trie. -/
inductive TrieOp where
  | update (key value : Str)
  | get (key : Str)
  deriving DecidableEq, Repr

/-- Keys of `n` hexadecimal characters and no empty value. -/
def TrieOp.Valid (n : ℕ) : TrieOp → Prop
  | .update key value => HexKey n key ∧ value ≠ []
  | .get key => HexKey n key

instance (n : ℕ) (op : TrieOp) : Decidable (op.Valid n) :=
  match op with
  | .update _ _ => inferInstanceAs (Decidable (_ ∧ _))
  | .get key => inferInstanceAs (Decidable (HexKey n key))

/-- A sequence of calls: the root afterwards and the answers of the `Get` calls. -/
def runOps (env : TrieEnv) : Node → List TrieOp → Option (Node × List Str)
  | root, [] => some (root, [])
  | root, .update key value :: ops => do
    let root' ← trieUpdate env root key value
    runOps env root' ops
  | root, .get key :: ops => do
    let answer ← trieGet env root key
    let rest ← runOps env answer.2 ops
    some (rest.1, answer.1 :: rest.2)

/-- The value of the most recent `Update` of `key` in a history, if there was one. -/
def lastUpdate (key : Str) : List TrieOp → Option Str
  | [] => none
  | .update key' value :: later => (lastUpdate key later).or (if key' = key then some value else none)
  | .get _ :: later => lastUpdate key later

/-- What the `Get` calls of a sequence should answer after a history. -/
def expectedAnswers (history : List TrieOp) : List TrieOp → List Str
  | [] => []
  | .update key value :: ops => expectedAnswers (history ++ [.update key value]) ops
  | .get key :: ops => (lastUpdate key history).getD [] :: expectedAnswers (history ++ [.get key]) ops

theorem lastUpdate_append (key : Str) (h h' : List TrieOp) :
    lastUpdate key (h ++ h') = (lastUpdate key h').or (lastUpdate key h) := by
  induction h with
  | nil => simp [lastUpdate]
  | cons op h ih =>
    cases op with
    | update k v => simp [lastUpdate, ih, Option.or_assoc]
    | get k => simp [lastUpdate, ih]

/-- The meaning `m` of a trie is the plain map left by a history. -/
def Reflects (n : ℕ) (m : Meaning) (history : List TrieOp) : Prop :=
  ∀ k, HexKey n k → m (wapperKey k) = lastUpdate k history

/-- Whole runs: from a trie that reflects a history, a sequence of calls answers as expected and
    leaves a trie that reflects the longer history. -/
theorem runOps_spec {env : TrieEnv} {R : Str → Kind → ℕ → Meaning → Prop}
    {F : NodeFlag → Kind → ℕ → Meaning → Prop} (hR : Resolves env R F)
    (hF : ∀ K L m, F newFlag K L m) {n : ℕ} (hn : 1 ≤ n) :
    ∀ (ops history : List TrieOp) {K : Kind} {root : Node} {m : Meaning},
      (∀ op ∈ ops, op.Valid n) → Rep R F K (n + 2) root m → Reflects n m history →
      ∃ root' K' m', runOps env root ops = some (root', expectedAnswers history ops) ∧
        Rep R F K' (n + 2) root' m' ∧ Reflects n m' (history ++ ops) := by
  intro ops
  induction ops with
  | nil =>
    intro history K root m _ hrep href
    exact ⟨root, K, m, rfl, hrep, by simpa using href⟩
  | cons op ops ih =>
    intro history K root m hval hrep href
    have hop := hval op List.mem_cons_self
    have hval' : ∀ o ∈ ops, o.Valid n := fun o ho => hval o (List.mem_cons_of_mem _ ho)
    cases op with
    | update k v =>
      obtain ⟨root₁, K₁, m₁, hupd, hrep₁, hm₁⟩ := trieUpdate_spec hR hF hn hrep hop.1 hop.2
      have href₁ : Reflects n m₁ (history ++ [.update k v]) := by
        intro k' hk'
        rw [hm₁ k' hk', lastUpdate_append]
        by_cases hkk : k' = k
        · subst hkk; simp [lastUpdate]
        · have hkk' : k ≠ k' := fun h => hkk h.symm
          rw [if_neg hkk, href k' hk']
          simp [lastUpdate, hkk']
      obtain ⟨root₂, K₂, m₂, hrun, hrep₂, href₂⟩ := ih _ hval' hrep₁ href₁
      refine ⟨root₂, K₂, m₂, ?_, hrep₂, by simpa using href₂⟩
      rw [runOps, hupd]; exact hrun
    | get k =>
      obtain ⟨root₁, hget, hrep₁⟩ := trieGet_spec hR hn hrep hop
      have href₁ : Reflects n m (history ++ [.get k]) := by
        intro k' hk'
        rw [href k' hk', lastUpdate_append]
        simp [lastUpdate]
      obtain ⟨root₂, K₂, m₂, hrun, hrep₂, href₂⟩ := ih _ hval' hrep₁ href₁
      refine ⟨root₂, K₂, m₂, ?_, hrep₂, by simpa using href₂⟩
      rw [href k hop] at hget
      simp only [runOps, hget, hrun, expectedAnswers, Option.bind_eq_bind, Option.bind_some]

/-- In memory no hash has a meaning and flags do not matter. -/
theorem resolves_memory (env : TrieEnv) :
    Resolves env (fun _ _ _ _ => False) fun _ _ _ _ => True := fun _ _ _ _ h => h.elim

/-- Any sequence of `Update` and `Get` calls on an empty trie answers like a plain map, and an update
    of one key does not change the answer for another one. -/
theorem trie_map_semantics (env : TrieEnv) (n : ℕ) (hn : 1 ≤ n) (ops : List TrieOp)
    (hops : ∀ op ∈ ops, op.Valid n) :
    ∃ root, runOps env .null ops = some (root, expectedAnswers [] ops) ∧
      ∀ k k' v, HexKey n k → HexKey n k' → k ≠ k' → v ≠ [] →
        ∃ a r r' root', trieGet env root k = some (a, r) ∧ trieUpdate env root k' v = some root' ∧
          trieGet env root' k = some (a, r') := by
  have hR := resolves_memory env
  obtain ⟨root, K, m, hrun, hrep, -⟩ := runOps_spec hR (fun _ _ _ => trivial) hn ops []
    hops (.null (n + 2)) (fun _ _ => rfl)
  refine ⟨root, hrun, fun k k' v hk hk' hne hv => ?_⟩
  obtain ⟨r, hget, -⟩ := trieGet_spec hR hn hrep hk
  obtain ⟨root', K', m', hupd, hrep', hm'⟩ :=
    trieUpdate_spec hR (fun _ _ _ => trivial) hn hrep hk' hv
  obtain ⟨r', hget', -⟩ := trieGet_spec hR hn hrep' hk
  rw [hm' k hk, if_neg hne] at hget'
  exact ⟨_, r, r', root', hget, hupd, hget'⟩

/-- A trie that reads from nothing. -/
def emptyEnv : TrieEnv := ⟨Rlp.rlp, str "c", .empty, .empty⟩

/-- Three keys that part at both characters, with an overwritten value and a missing key. -/
theorem trie_map_semantics_parting :
    ∃ root, runOps emptyEnv .null [.update (str "0a") (str "x"), .update (str "0b") (str "y"),
        .update (str "7a") (str "w"), .get (str "0a"), .get (str "1c"), .update (str "0a") (str "v"),
        .get (str "0b"), .get (str "0a")]
      = some (root, [str "x", [], str "y", str "v"]) := by
  obtain ⟨root, hrun, -⟩ := trie_map_semantics emptyEnv 2 (by decide)
    [.update (str "0a") (str "x"), .update (str "0b") (str "y"), .update (str "7a") (str "w"),
      .get (str "0a"), .get (str "1c"), .update (str "0a") (str "v"), .get (str "0b"),
      .get (str "0a")] (by decide +kernel)
  exact ⟨root, hrun.trans (congrArg (fun as => some (root, as)) (by decide))⟩

end Tfs.Mpt
