import Tfs.Mpt.Persist

/-! What `Get` and `Insert` reach into (`Trie::Get`, `Trie::Insert` and `Trie::Toint` in
    `mpt/trie.cpp`).

    The index of a child is made from whatever character comes next in the key, and pieces of keys
    are taken from wherever the walk stands. In a well-formed trie more than one character is left
    at every full node, so the next one is a digit; two keys part only where more than the
    terminator is left of both; and a value is met when the key is used up. -/

namespace Tfs.Mpt
open Tfs.Rlp

/-- What can go wrong on a walk: the child of a character is taken (`none` behind the end of the
    key), a piece is taken from a position of a text of some length, or the last line of `Insert`
    is reached. -/
inductive Access where
  | child (c : Option UInt8)
  | substr (pos length : ℕ)
  | lastReturn
  deriving DecidableEq

/-- An index from 0 to 15 that is not made from the terminator, or a piece that starts in its text. -/
def Access.InRange : Access → Prop
  | .child c => ∃ x, c = some x ∧ x ≠ term ∧ 0 ≤ toint x ∧ toint x ≤ 15
  | .substr pos length => pos ≤ length
  | .lastReturn => False

/-! ### The walks -/

/-- `Trie::Get(n, key, pos)`. -/
def getAccesses (env : TrieEnv) : ℕ → Node → Str → ℕ → List Access
  | fuel + 1, .short nodeKey nodeVal _, key, pos =>
    -- the difference is unsigned, so it is not small where `pos` is behind the end
    if pos ≤ key.length ∧ key.length - pos < nodeKey.length then []
    else .substr pos key.length ::
      if nodeKey = (key.drop pos).take nodeKey.length then
        getAccesses env fuel nodeVal key (pos + nodeKey.length)
      else []
  | fuel + 1, .full children _, key, pos =>
    -- the child that comes back is assigned to the same element
    .child key[pos]? ::
      match key[pos]?.bind childIndex with
      | some i => getAccesses env fuel (children i) key (pos + 1)
      | none => []
  | fuel + 1, .hash data, key, pos =>
    .substr 0 key.length ::
      match descendKey env data with
      | some child => getAccesses env fuel child key pos
      | none => []
  | _, _, _, _ => []

/-- `Trie::Insert(n, prefix, key, value)`. -/
def insertAccesses (env : TrieEnv) : ℕ → Node → Str → List Access
  | fuel + 1, .short nodeKey nodeVal _, key =>
    let matchlen := prefixLen key nodeKey
    if matchlen = nodeKey.length then
      [.substr 0 key.length, .substr matchlen key.length]
        ++ insertAccesses env fuel nodeVal (key.drop matchlen)
    else
      [.substr 0 nodeKey.length, .substr (matchlen + 1) nodeKey.length, .child nodeKey[matchlen]?,
        .substr 0 key.length, .substr (matchlen + 1) key.length, .child key[matchlen]?]
        ++ if matchlen = 0 then [] else [.substr 0 nodeKey.length]
  | fuel + 1, .full children _, key =>
    [.child key[0]?, .substr 1 key.length] ++
      match key[0]?.bind childIndex with
      | some i => insertAccesses env fuel (children i) (key.drop 1)
      | none => []
  | fuel + 1, .hash data, key =>
    match descendKey env data with
    | some rn => insertAccesses env fuel rn key
    | none => []
  | _ + 1, .value _, key => if key.length = 0 then [] else [.lastReturn]
  | _, _, _ => []

/-! ### Digits -/

/-- A hexadecimal character gives an index from 0 to 15. -/
theorem Access.inRange_child {c : UInt8} (hc : isHexChar c) : (Access.child (some c)).InRange := by
  refine ⟨c, rfl, ?_, ?_⟩
  · rintro rfl
    rw [isHexChar_term] at hc
    cases hc
  · simp only [isHexChar, Bool.or_eq_true, Bool.and_eq_true, decide_eq_true_eq, UInt8.le_iff_toNat_le] at hc
    simp only [toint, UInt8.le_iff_toNat_le]
    split_ifs with hdigit
    · have hnum : (48 : UInt8).toNat = 48 ∧ (57 : UInt8).toNat = 57 := ⟨rfl, rfl⟩
      omega
    · have hnum : (97 : UInt8).toNat = 97 ∧ (102 : UInt8).toNat = 102 := ⟨rfl, rfl⟩
      omega

/-- The next character of a key, where it stands at `pos`. -/
theorem getElem?_of_drop {key : Str} {pos : ℕ} {c : UInt8} {rest : Str} (h : key.drop pos = c :: rest) :
    key[pos]? = some c ∧ key.drop (pos + 1) = rest ∧ pos + 1 ≤ key.length := by
  have hlt : pos < key.length := by
    by_contra hge
    rw [List.drop_eq_nil_of_le (by omega)] at h
    cases h
  rw [List.drop_eq_getElem_cons hlt] at h
  obtain ⟨rfl, rfl⟩ := List.cons.inj h
  exact ⟨List.getElem?_eq_getElem hlt, rfl, hlt⟩

section Walks

variable {env : TrieEnv} {R : Str → Kind → ℕ → Meaning → Prop}
  {F : NodeFlag → Kind → ℕ → Meaning → Prop}

theorem getAccesses_value (fuel : ℕ) (d key : Str) (pos : ℕ) :
    getAccesses env fuel (.value d) key pos = [] := by
  cases fuel <;> rfl

/-- On a well-formed trie `Get` stays in range, however far it is followed. -/
theorem getAccesses_inRange (hR : Resolves env R F) : ∀ (fuel : ℕ) {K : Kind} {L : ℕ} {n : Node}
    {m : Meaning} {key : Str} {pos : ℕ}, Rep R F K L n m → pos ≤ key.length →
      Suffix L (key.drop pos) → ∀ a ∈ getAccesses env fuel n key pos, a.InRange := by
  intro fuel
  induction fuel with
  | zero =>
    intro K L n m key pos _ _ _ a ha
    cases n <;> cases ha
  | succ fuel ih =>
    intro K L n m key pos hrep hpos hs
    cases hrep with
    | null => exact fun a ha => absurd ha List.not_mem_nil
    | @leaf _ k d fl hk hfl =>
      rw [getAccesses, getAccesses_value, ite_self]
      split_ifs
      · exact fun a ha => absurd ha List.not_mem_nil
      · exact List.forall_mem_singleton.mpr hpos
    | @ext L' k c m' fl hk hc hfl =>
      rw [getAccesses]
      split_ifs with hshort hmatch
      · exact fun a ha => absurd ha List.not_mem_nil
      · refine List.forall_mem_cons.mpr ⟨hpos, ?_⟩
        have hsplit : key.drop pos = k ++ key.drop (pos + k.length) := by
          rw [← List.drop_drop]
          conv_lhs => rw [← List.take_append_drop k.length (key.drop pos), ← hmatch]
        rw [hsplit] at hs
        refine ih hc ?_ (hs.of_append hk)
        omega
      · exact List.forall_mem_singleton.mpr hpos
    | @full L' K' ch ms fl hL hch h16 hex hfl =>
      obtain ⟨c, rest, hdrop, hc, hrest⟩ := hs.cons hL
      obtain ⟨hget, hnext, hlen⟩ := getElem?_of_drop hdrop
      obtain ⟨i, hi, -, -⟩ := hexChar_cases c hc
      rw [getAccesses, hget, Option.bind_some, hi]
      refine List.forall_mem_cons.mpr ⟨Access.inRange_child hc, ?_⟩
      exact ih (hch i) hlen (hnext.symm ▸ hrest)
    | @hash _ _ h _ hh =>
      obtain ⟨child, hdesc, -, hrep⟩ := hR _ _ _ _ hh
      rw [getAccesses, hdesc]
      exact List.forall_mem_cons.mpr ⟨Nat.zero_le _, ih hrep hpos hs⟩

/-- A key that is used up at a value. -/
theorem insertAccesses_value (fuel : ℕ) (d : Str) : insertAccesses env fuel (.value d) [] = [] := by
  cases fuel <;> rfl

/-- Where a short node is split, two characters are left of its key and of the key that is inserted. -/
theorem split_inRange {q k s : Str} {a b : UInt8} (ha : isHexChar a) (hb : isHexChar b) :
    ∀ x ∈ [Access.substr 0 (q ++ a :: k).length, .substr (q.length + 1) (q ++ a :: k).length,
        .child (q ++ a :: k)[q.length]?, .substr 0 (q ++ b :: s).length,
        .substr (q.length + 1) (q ++ b :: s).length, .child (q ++ b :: s)[q.length]?]
      ++ (if q.length = 0 then [] else [Access.substr 0 (q ++ a :: k).length]), x.InRange := by
  have hat : ∀ (c : UInt8) (rest : Str), (q ++ c :: rest)[q.length]? = some c := fun c rest => by
    rw [List.getElem?_append_right le_rfl, Nat.sub_self, List.getElem?_cons_zero]
  have hlen : ∀ (c : UInt8) (rest : Str), q.length + 1 ≤ (q ++ c :: rest).length := fun c rest => by
    rw [List.length_append, List.length_cons]
    omega
  rw [hat, hat]
  simp only [List.cons_append, List.nil_append, List.forall_mem_cons]
  refine ⟨Nat.zero_le _, hlen a k, Access.inRange_child ha, Nat.zero_le _, hlen b s,
    Access.inRange_child hb, ?_⟩
  split_ifs
  · exact fun a ha => absurd ha List.not_mem_nil
  · exact List.forall_mem_singleton.mpr (Nat.zero_le _)

/-- On a well-formed trie `Insert` stays in range, however far it is followed. -/
theorem insertAccesses_inRange (hR : Resolves env R F) : ∀ (fuel : ℕ) {K : Kind} {L : ℕ} {n : Node}
    {m : Meaning} {s : Str}, Rep R F K L n m → Suffix L s →
      ∀ a ∈ insertAccesses env fuel n s, a.InRange := by
  intro fuel
  induction fuel with
  | zero =>
    intro K L n m s _ _ a ha
    cases n <;> cases ha
  | succ fuel ih =>
    intro K L n m s hrep hs
    cases hrep with
    | null => exact fun a ha => absurd ha List.not_mem_nil
    | @leaf _ k d fl hk hfl =>
      rw [insertAccesses]
      rcases prefixLen_cases s k (hk.length.trans hs.length.symm).le with
        ⟨hlen, hpre⟩ | ⟨q, a, k', b, s', rfl, rfl, hab, hlen⟩
      · -- the same key: nothing is left of it at the value
        obtain rfl := hk.eq_of_begins hs hpre
        simp only [hlen, if_true, List.drop_length, insertAccesses_value, List.append_nil]
        exact List.forall_mem_cons.mpr ⟨Nat.zero_le _, List.forall_mem_singleton.mpr le_rfl⟩
      · obtain ⟨hk0, hs0⟩ := hk.parting hs hab
        obtain ⟨-, ha, -⟩ := hk.parts hk0
        obtain ⟨-, hb, -⟩ := hs.parts hs0
        have hne : q.length ≠ (q ++ a :: k').length := by simp
        simp only [hlen, if_neg hne]
        exact split_inRange ha hb
    | @ext L' k c m' fl hk hc hfl =>
      rw [insertAccesses]
      rcases prefixLen_cases s k (by rw [hs.length]; omega) with
        ⟨hlen, s', rfl⟩ | ⟨q, a, k', b, s', rfl, rfl, hab, hlen⟩
      · simp only [hlen, if_true, List.drop_left, List.cons_append, List.nil_append, List.forall_mem_cons]
        refine ⟨Nat.zero_le _, ?_, ih hc (hs.of_append hk)⟩
        rw [Access.InRange, List.length_append]
        omega
      · -- a branch with two characters to go hangs below the short node
        have hs0 : s' ≠ [] := by
          rintro rfl
          have hL' := hc.branch_two hR
          have hlen' := hs.length
          simp only [List.length_append, List.length_cons, List.length_nil] at hlen'
          omega
        obtain ⟨-, hb, -⟩ := hs.parts hs0
        have hne : q.length ≠ (q ++ a :: k').length := by simp
        simp only [hlen, if_neg hne]
        exact split_inRange (hk a (by simp)) hb
    | @full L' K' ch ms fl hL hch h16 hex hfl =>
      obtain ⟨c, rest, rfl, hc, hrest⟩ := hs.cons hL
      obtain ⟨i, hi, -, -⟩ := hexChar_cases c hc
      simp only [insertAccesses, List.getElem?_cons_zero, Option.bind_some, hi, List.cons_append,
        List.nil_append, List.forall_mem_cons, List.drop_succ_cons, List.drop_zero]
      refine ⟨Access.inRange_child hc, ?_, ih (hch i) hrest⟩
      rw [Access.InRange, List.length_cons]
      omega
    | @hash _ _ h _ hh =>
      obtain ⟨child, hdesc, -, hrep⟩ := hR _ _ _ _ hh
      rw [insertAccesses, hdesc]
      exact ih hrep hs

/-- Neither walk with such a key leaves its range. -/
def InRangeFor (env : TrieEnv) (n : ℕ) (root : Node) : Prop :=
  ∀ k, HexKey n k → ∀ fuel, (∀ a ∈ getAccesses env fuel root (wapperKey k) 0, a.InRange) ∧
    ∀ a ∈ insertAccesses env fuel root (wapperKey k), a.InRange

theorem Rep.inRangeFor (hR : Resolves env R F) {n : ℕ} (hn : 1 ≤ n) {K : Kind} {root : Node}
    {m : Meaning} (hrep : Rep R F K (n + 2) root m) : InRangeFor env n root := fun _ hk fuel =>
  ⟨getAccesses_inRange hR fuel hrep (Nat.zero_le _) (hk.wapperKey hn),
    insertAccesses_inRange hR fuel hrep (hk.wapperKey hn)⟩

end Walks

/-! ### Runs -/

/-- The key of a call. -/
def TrieOp.key : TrieOp → Str
  | .update key _ => key
  | .get key => key

/-- What every call with a key of its own leaves holds after any number of them. -/
theorem runOps_keeps {env : TrieEnv} {n : ℕ} {P : Node → Prop}
    (hget : ∀ root k, HexKey n k → P root →
      ∃ answer root', trieGet env root k = some (answer, root') ∧ P root')
    (hupdate : ∀ root k v, HexKey n k → P root →
      ∃ root', trieUpdate env root k v = some root' ∧ P root') :
    ∀ {ops : List TrieOp} {root : Node}, (∀ op ∈ ops, HexKey n op.key) → P root →
      ∃ root' answers, runOps env root ops = some (root', answers) ∧ P root'
  | [], root, _, hroot => ⟨root, [], rfl, hroot⟩
  | .update k v :: ops, root, hops, hroot => by
    obtain ⟨hk, hops⟩ := List.forall_mem_cons.mp hops
    obtain ⟨root₁, hupd, hroot₁⟩ := hupdate root k v hk hroot
    obtain ⟨root', answers, hrun, hroot'⟩ := runOps_keeps hget hupdate hops hroot₁
    exact ⟨root', answers, by rw [runOps, hupd]; exact hrun, hroot'⟩
  | .get k :: ops, root, hops, hroot => by
    obtain ⟨hk, hops⟩ := List.forall_mem_cons.mp hops
    obtain ⟨answer, root₁, hans, hroot₁⟩ := hget root k hk hroot
    obtain ⟨root', answers, hrun, hroot'⟩ := runOps_keeps hget hupdate hops hroot₁
    refine ⟨root', answer :: answers, ?_, hroot'⟩
    rw [runOps, hans]
    simp only [Option.bind_eq_bind, Option.bind_some, hrun]

theorem prefixLen_self : ∀ k : Str, prefixLen k k = k.length
  | [] => rfl
  | a :: k => by rw [prefixLen, if_pos rfl, prefixLen_self k, List.length_cons]

/-- The key of a leaf is inserted again: only the value is compared. -/
theorem insertNode_leaf (env : TrieEnv) (v d k : Str) (fl : NodeFlag) (fuel : ℕ) :
    insertNode env v (fuel + 2) (.short k (.value d) fl) k =
      some (if d ≠ v then ⟨true, .short k (.value v) newFlag⟩ else ⟨false, .short k (.value d) fl⟩) := by
  simp only [insertNode, prefixLen_self, if_true, List.drop_length, Option.bind_eq_bind, Option.bind_some,
    decide_eq_true_eq]
  split_ifs <;> rfl

/-- What a trie of the empty key can be: nothing, or one leaf. -/
def AtMostLeaf (root : Node) : Prop :=
  root = .null ∨ ∃ d fl, root = .short (wapperKey []) (.value d) fl

theorem AtMostLeaf.get {env : TrieEnv} {root : Node} (h : AtMostLeaf root) :
    ∃ answer root', trieGet env root [] = some (answer, root') ∧ AtMostLeaf root' := by
  rcases h with rfl | ⟨d, fl, rfl⟩
  · exact ⟨_, _, rfl, .inl rfl⟩
  · exact ⟨_, _, rfl, .inr ⟨d, fl, rfl⟩⟩

theorem AtMostLeaf.update {env : TrieEnv} {root : Node} (h : AtMostLeaf root) (v : Str) :
    ∃ root', trieUpdate env root [] v = some root' ∧ AtMostLeaf root' := by
  by_cases hv : v.length = 0
  · exact ⟨root, by rw [trieUpdate, if_neg (not_not.mpr hv)], h⟩
  rw [trieUpdate, if_pos hv]
  rcases h with rfl | ⟨d, fl, rfl⟩
  · exact ⟨_, rfl, .inr ⟨v, newFlag, rfl⟩⟩
  · rw [show walkBound (wapperKey []) = 6 + 2 from rfl, insertNode_leaf]
    split_ifs with hdv
    · exact ⟨_, rfl, .inr ⟨v, newFlag, rfl⟩⟩
    · exact ⟨_, rfl, .inr ⟨d, fl, rfl⟩⟩

theorem AtMostLeaf.inRangeFor {env : TrieEnv} {root : Node} (h : AtMostLeaf root) :
    InRangeFor env 0 root := by
  rintro k ⟨hk, -⟩ fuel
  obtain rfl := List.length_eq_zero_iff.mp hk
  rcases h with rfl | ⟨d, fl, rfl⟩
  · cases fuel <;>
      exact ⟨fun a ha => absurd ha List.not_mem_nil, fun a ha => absurd ha List.not_mem_nil⟩
  · cases fuel with
    | zero => exact ⟨fun a ha => absurd ha List.not_mem_nil, fun a ha => absurd ha List.not_mem_nil⟩
    | succ fuel =>
      constructor
      · rw [getAccesses, getAccesses_value, ite_self]
        split_ifs
        · exact fun a ha => absurd ha List.not_mem_nil
        · exact List.forall_mem_singleton.mpr (Nat.zero_le _)
      · simp only [insertAccesses, prefixLen_self, if_true, List.drop_length, insertAccesses_value,
          List.append_nil]
        exact List.forall_mem_cons.mpr ⟨Nat.zero_le _, List.forall_mem_singleton.mpr le_rfl⟩

/-- Every trie that is made by `Update` calls with keys of one length, `Get` calls between them
    included, keeps both walks with such keys in range. -/
theorem walks_inRange (env : TrieEnv) (n : ℕ) (ops : List TrieOp) (hops : ∀ op ∈ ops, HexKey n op.key) :
    ∃ root answers, runOps env .null ops = some (root, answers) ∧ InRangeFor env n root := by
  have hempty : ∀ {k : Str}, HexKey 0 k → k = [] := fun hk => List.length_eq_zero_iff.mp hk.1
  rcases Nat.eq_zero_or_pos n with rfl | hn
  · obtain ⟨root, answers, hrun, hroot⟩ := @runOps_keeps env 0 AtMostLeaf
      (fun root k hk h => hempty hk ▸ h.get)
      (fun root k v hk h => hempty hk ▸ h.update v) _ _ hops (.inl rfl)
    exact ⟨root, answers, hrun, hroot.inRangeFor⟩
  · have hR := resolves_memory env
    have hF : ∀ (K : Kind) (L : ℕ) (m : Meaning), True := fun _ _ _ => trivial
    obtain ⟨root, answers, hrun, K, m, hrep⟩ := @runOps_keeps env n
      (fun root => ∃ K m, Rep (fun _ _ _ _ => False) (fun _ _ _ _ => True) K (n + 2) root m)
      (fun root k hk ⟨K, m, hrep⟩ => by
        obtain ⟨root', hget, hrep'⟩ := trieGet_spec hR hn hrep hk
        exact ⟨_, root', hget, K, m, hrep'⟩)
      (fun root k v hk ⟨K, m, hrep⟩ => by
        by_cases hv : v = []
        · subst hv
          exact ⟨root, rfl, K, m, hrep⟩
        · obtain ⟨root', K', m', hupd, hrep', -⟩ := trieUpdate_spec hR hF hn hrep hk hv
          exact ⟨root', hupd, K', m', hrep'⟩)
      _ _ hops ⟨.null, _, .null (n + 2)⟩
    exact ⟨root, answers, hrun, hrep.inRangeFor hR hn⟩

/-- Three keys that part at both characters, one of them with an empty value. -/
theorem walks_inRange_parting : ∃ root answers,
    runOps emptyEnv .null [.update (str "0a") (str "x"), .update (str "0b") (str "y"),
      .update (str "7a") [], .get (str "1c"), .update (str "7b") (str "w")] = some (root, answers) ∧
      InRangeFor emptyEnv 2 root :=
  walks_inRange emptyEnv 2 _ (by decide +kernel)

/-- A second key parts from the first behind one character. -/
example : insertAccesses emptyEnv 2 (.short (str "0aaz") (.value (str "x")) newFlag) (str "0bbz") =
    [.substr 0 4, .substr 2 4, .child (some 97), .substr 0 4, .substr 2 4, .child (some 98),
      .substr 0 4] := by
  decide

/-- The same holds of a trie that is opened on the root hash that earlier rounds have saved. -/
theorem stored_walks_inRange (sha : Str → Str) (c : Codec) (hc : c.Lawful)
    (hlen : ∀ x, (sha x).length = 64) (addr rootHash : Str) (n : ℕ) (hn : 1 ≤ n)
    (rounds : List (List TrieOp)) (ops : List TrieOp)
    (hops : ∀ round ∈ rounds ++ [ops], ∀ op ∈ round, op.Valid n)
    (hinj : Set.InjOn sha {x | x ∈ (runRounds sha c addr ⟨rootHash, .empty⟩ (rounds ++ [ops])).2}) :
    ∃ d root, (runRounds sha c addr ⟨rootHash, .empty⟩ rounds).1 = some d ∧
      d.run c addr ops = some root ∧ InRangeFor (d.env c addr) n root := by
  obtain ⟨d, hdone, hd, hlog⟩ := runRounds_spec hc hlen hinj hn [ops] rounds _ []
    (diskOk_empty addr rootHash n) hops fun x hx => hx
  obtain ⟨root, d', K, m, hrun, -, hrep, -⟩ := hd.round hc hlen hinj hn (hops ops (by simp)) hlog
  exact ⟨d, root, hdone, hrun, hrep.inRangeFor hd.resolves hn⟩

end Tfs.Mpt
