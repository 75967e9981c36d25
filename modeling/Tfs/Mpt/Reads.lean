import Tfs.Mpt.Addressing
import Tfs.Mpt.Expands

/-! Reads and the state root: what `Get` calls between the updates change in what `Save` produces.

    `Save` does not look into a node whose hash is cached, so that a node loaded by a read counts as
    its hash did. There is one exception: the text hashed for a short node is the encoding of all that
    stands in memory below it. -/

namespace Tfs.Mpt
open Tfs.Rlp

/-- Among the nodes still to be hashed, a short node stands above a stored node in memory. -/
def newOverStored : Node → Prop
  | .short _ nodeVal nodeFlags => nodeFlags.hash = [] ∧ holdsStored nodeVal
  | .full children flags => flags.hash = [] ∧ ∃ i, i ≠ 16 ∧ newOverStored (children i)
  | _ => False

instance decidableNewOverStored : (n : Node) → Decidable (newOverStored n)
  | .null => inferInstanceAs (Decidable False)
  | .value _ => inferInstanceAs (Decidable False)
  | .hash _ => inferInstanceAs (Decidable False)
  | .short _ _ _ => inferInstanceAs (Decidable (_ ∧ _))
  | .full children _ =>
    have := fun i => decidableNewOverStored (children i)
    inferInstanceAs (Decidable (_ ∧ ∃ i, i ≠ 16 ∧ newOverStored (children i)))

/-! ### Save -/

section Save

variable {env : TrieEnv} {sha : Str → Str} {c : Codec} {S A : Set Str}

/-- The text hashed for a new short node is the encoding of all that is in memory below it. -/
theorem hashNode_short (k : Str) (v : Node) :
    (hashNode sha c (.short k v newFlag)).2 = .hash (sha (hexEncode c (.short k v newFlag))) ∧
      hexEncode c (.short k v newFlag) ∈ hashedTexts sha c (.short k v newFlag) := by
  obtain ⟨h1, h2, -⟩ := @save_short sha c k v
  have htext : hexEncode c (.short k (if v.isLoaded then (hashNode sha c v).1 else v) newFlag)
      = hexEncode c (.short k v newFlag) := by
    split_ifs
    · simp only [hexEncode, encode, (encode_hashNode v).1]
    · rfl
  rw [htext] at h1 h2
  rw [h1, h2]
  exact ⟨rfl, List.mem_append_right _ (List.mem_singleton_self _)⟩

/-- What stands where a hash was loaded: a node in memory with that hash cached. -/
theorem Expands.of_load {h : Str} {n b : Node} (hdesc : descendKey env h = some n)
    (hn : n.isLoaded) (hnb : Expands env n b) :
    (∃ k v, b = .short k v ⟨h, false⟩) ∨ ∃ ch, b = .full ch ⟨h, false⟩ := by
  rcases (descendKey_cases hdesc).1 with rfl | ⟨k, v, rfl⟩ | ⟨ch, rfl⟩
  · cases hn
  · cases hnb with
    | short => exact .inl ⟨_, _, rfl⟩
  · cases hnb with
    | full => exact .inr ⟨_, rfl⟩

variable (hlen : ∀ x, (sha x).length = 64)

include hlen in
/-- Flags of a well-formed node are new, or the node is clean with a hash. -/
theorem FlagOk.cases {fl : NodeFlag} {K : Kind} {L : ℕ} {m : Meaning}
    (h : FlagOk sha c S A fl K L m) : fl = newFlag ∨ fl.dirty = false ∧ fl.hash ≠ [] :=
  h.imp_right fun h => ⟨h.1, h.2.ne_nil hlen⟩

include hlen in
/-- A stored node in memory is left alone by `hash` and `Commit`, as its hash would be. -/
theorem save_stored {h : Str} {b : Node} {K : Kind} {L : ℕ} {m : Meaning}
    (hform : (∃ k v, b = .short k v ⟨h, false⟩) ∨ ∃ ch, b = .full ch ⟨h, false⟩)
    (hrep : Rep (Known sha c S A) (FlagOk sha c S A) K L b m) :
    holdsStored b ∧ ¬ newOverStored b ∧ hashNode sha c b = (b, .hash h) ∧ commit c b = (.hash h, []) := by
  have hne : h ≠ [] := by
    have hnew : (⟨h, false⟩ : NodeFlag) ≠ newFlag := by simp [newFlag]
    rcases hform with ⟨k, v, rfl⟩ | ⟨ch, rfl⟩
    · cases hrep with
      | leaf _ hfl => exact ((hfl.cases hlen).resolve_left hnew).2
      | ext _ _ hfl => exact ((hfl.cases hlen).resolve_left hnew).2
    · cases hrep with
      | full _ _ _ _ hfl => exact ((hfl.cases hlen).resolve_left hnew).2
  rcases hform with ⟨k, v, rfl⟩ | ⟨ch, rfl⟩
  · simp [holdsStored, newOverStored, hashNode, commit, hne]
  · simp [holdsStored, newOverStored, hashNode, commit, hne]

include hlen in
/-- Where nothing loaded is in memory, no hash was expanded. -/
theorem Expands.eq_of_not_holdsStored {a b : Node} (hab : Expands env a b) :
    ∀ {K : Kind} {L : ℕ} {m : Meaning}, Rep (Known sha c S A) (FlagOk sha c S A) K L b m →
      ¬ holdsStored b → a = b := by
  induction hab with
  | null => exact fun _ _ => rfl
  | value => exact fun _ _ => rfl
  | hash => exact fun _ _ => rfl
  | @short v v' k fl hv ih =>
    intro K L m hrep hb
    cases hrep with
    | leaf =>
      cases hv with
      | value => rfl
      | load hdesc hn hnb =>
        have := hnb.isLoaded hn
        cases this
    | ext _ hchild _ => rw [ih hchild fun h => hb (.inr h)]
  | @full ch ch' fl _ ih =>
    intro K L m hrep hb
    cases hrep with
    | full _ hkids _ _ _ => rw [funext fun i => ih i (hkids i) fun h => hb (.inr ⟨i, h⟩)]
  | load hdesc hn hnb _ =>
    intro K L m hrep hb
    exact absurd (save_stored hlen (hnb.of_load hdesc hn) hrep).1 hb

/-- Nodes written out alike have the same hashes expanded. -/
theorem Expands.not_holdsStored (hc : c.Lawful) {a b : Node} (hab : Expands env a b) :
    encode c a = encode c b → ¬ holdsStored a → ¬ holdsStored b := by
  induction hab with
  | null => exact fun _ => id
  | value => exact fun _ => id
  | hash => exact fun _ => id
  | @short v v' k fl _ ih =>
    intro henc ha hb
    obtain ⟨-, hv⟩ := encode_short_inj hc henc
    rcases hb with hfl | hb
    · exact ha (.inl hfl)
    · exact ih hv (fun h => ha (.inr h)) hb
  | @full ch ch' fl _ ih =>
    intro henc ha hb
    rcases hb with hfl | ⟨i, hb⟩
    · exact ha (.inl hfl)
    · exact ih i (encode_full_inj hc henc i).2 (fun h => ha (.inr ⟨i, h⟩)) hb
  | load hdesc hn hnb _ =>
    intro henc
    -- the hash is written as a string, the node as a list
    rcases hnb.of_load hdesc hn with ⟨k, v, rfl⟩ | ⟨ch, rfl⟩
    · cases henc
    · cases henc

include hlen in
/-- Where no new short node stands above a stored node in memory, the reads that loaded nodes make no
    difference to `hash` and `Commit`. -/
theorem Expands.save_eq {a b : Node} (hab : Expands env a b) : ∀ {K : Kind} {L : ℕ} {m : Meaning},
    Rep (Known sha c S A) (FlagOk sha c S A) K L b m → ¬ newOverStored b →
      (hashNode sha c a).2 = (hashNode sha c b).2 ∧
        commit c (hashNode sha c a).1 = commit c (hashNode sha c b).1 := by
  induction hab with
  | null => exact fun _ _ => ⟨rfl, rfl⟩
  | value => exact fun _ _ => ⟨rfl, rfl⟩
  | hash => exact fun _ _ => ⟨rfl, rfl⟩
  | @short v v' k fl hv _ =>
    intro K L m hrep hnew
    have hclean (hfl : fl.dirty = false ∧ fl.hash ≠ []) :
        (hashNode sha c (.short k v fl)).2 = (hashNode sha c (.short k v' fl)).2 ∧
          commit c (hashNode sha c (.short k v fl)).1
            = commit c (hashNode sha c (.short k v' fl)).1 := by
      simp [hashNode, commit, hfl]
    cases hrep with
    | leaf _ hfl =>
      rcases hfl.cases hlen with rfl | hfl
      · cases hv with
        | value => exact ⟨rfl, rfl⟩
        | load hdesc hn hnb =>
          have := hnb.isLoaded hn
          cases this
      · exact hclean hfl
    | ext _ hchild hfl =>
      rcases hfl.cases hlen with rfl | hfl
      · rw [hv.eq_of_not_holdsStored hlen hchild fun h => hnew ⟨rfl, h⟩]
        exact ⟨rfl, rfl⟩
      · exact hclean hfl
  | @full ch ch' fl hch ih =>
    intro K L m hrep hnew
    cases hrep with
    | @full L K _ ms _ _ hkids h16 _ hfl =>
      rcases hfl.cases hlen with rfl | hfl
      · have hnull' : ch' 16 = .null := by
          have hden := (hkids 16).den
          rw [h16] at hden
          exact hden.eq_null.1
        have hnull : ch 16 = .null := by
          have heq := (hch 16).isNull
          rw [hnull'] at heq
          cases h : ch 16 <;> rw [h] at heq <;> first | rfl | cases heq
        have hkid : ∀ i, i ≠ 16 → (hashNode sha c (ch i)).2 = (hashNode sha c (ch' i)).2 ∧
            commit c (hashNode sha c (ch i)).1 = commit c (hashNode sha c (ch' i)).1 :=
          fun i hi => ih i (hkids i) fun h => hnew ⟨rfl, i, hi, h⟩
        obtain ⟨h1, -, h3⟩ := @save_full sha c ch
        obtain ⟨h1', -, h3'⟩ := @save_full sha c ch'
        have hcollapsed : (fun i => if i = 16 then .null else (hashNode sha c (ch i)).2)
            = fun i => if i = 16 then .null else (hashNode sha c (ch' i)).2 := by
          funext i
          split_ifs with hi
          · rfl
          · exact (hkid i hi).1
        have hstored : (fun i => if i = 16 then ch i else (commit c (hashNode sha c (ch i)).1).1)
            = fun i => if i = 16 then ch' i else (commit c (hashNode sha c (ch' i)).1).1 := by
          funext i
          split_ifs with hi
          · rw [hi, hnull, hnull']
          · rw [(hkid i hi).2]
        have hentries : (fun i : Fin 17 =>
              if i = 16 then [] else (commit c (hashNode sha c (ch i)).1).2)
            = fun i => if i = 16 then [] else (commit c (hashNode sha c (ch' i)).1).2 := by
          funext i
          split_ifs with hi
          · rfl
          · rw [(hkid i hi).2]
        rw [h1, h1', h3, h3', hcollapsed, hstored, hentries]
        exact ⟨rfl, rfl⟩
      · simp [hashNode, commit, hfl]
  | load hdesc hn hnb _ =>
    intro K L m hrep _
    obtain ⟨-, -, hhash, hcommit⟩ := save_stored hlen (hnb.of_load hdesc hn) hrep
    rw [hhash, hcommit]
    exact ⟨rfl, rfl⟩

include hlen in
/-- The other way round: where the hashes come out alike, no new short node stands above a stored node
    in memory. `S` holds all texts hashed. -/
theorem Expands.not_newOverStored (hc : c.Lawful) (hinj : Set.InjOn sha S) {a b : Node}
    (hab : Expands env a b) : ∀ {K : Kind} {L : ℕ} {m : Meaning},
      Rep (Known sha c S A) (FlagOk sha c S A) K L b m → ¬ holdsStoredBelow a →
      (∀ x ∈ hashedTexts sha c a, x ∈ S) → (∀ x ∈ hashedTexts sha c b, x ∈ S) →
      encode c (hashNode sha c a).2 = encode c (hashNode sha c b).2 → ¬ newOverStored b := by
  induction hab with
  | null => exact fun _ _ _ _ _ => id
  | value => exact fun _ _ _ _ _ => id
  | hash => exact fun _ _ _ _ _ => id
  | @short v v' k fl hv _ =>
    rintro K L m hrep ha htexts htexts' henc ⟨hfl, hb⟩
    have hnew : fl = newFlag := by
      cases hrep with
      | leaf _ hflag => exact (hflag.cases hlen).resolve_right fun h => h.2 hfl
      | ext _ _ hflag => exact (hflag.cases hlen).resolve_right fun h => h.2 hfl
    subst hnew
    obtain ⟨hhash, htext⟩ := @hashNode_short sha c k v
    obtain ⟨hhash', htext'⟩ := @hashNode_short sha c k v'
    rw [hhash, hhash'] at henc
    have hsame := hinj (htexts _ htext) (htexts' _ htext') (Item.data.inj henc)
    exact hv.not_holdsStored hc (encode_short_inj hc (hexEncode_inj hc hsame)).2 ha hb
  | @full ch ch' fl hch ih =>
    rintro K L m hrep ha htexts htexts' henc ⟨hfl, i, hi, hb⟩
    cases hrep with
    | @full L K _ ms _ _ hkids h16 _ hflag =>
      obtain rfl := (hflag.cases hlen).resolve_right fun h => h.2 hfl
      obtain ⟨h1, h2, -⟩ := @save_full sha c ch
      obtain ⟨h1', h2', -⟩ := @save_full sha c ch'
      rw [h1, h1'] at henc
      rw [h2] at htexts
      rw [h2'] at htexts'
      have hsame := hinj (htexts _ (List.mem_append_right _ (List.mem_singleton_self _)))
        (htexts' _ (List.mem_append_right _ (List.mem_singleton_self _))) (Item.data.inj henc)
      have hkid := (encode_full_inj hc (hexEncode_inj hc hsame) i).2
      rw [if_neg hi, if_neg hi] at hkid
      refine ih i (hkids i) (fun h => ha ⟨i, holdsStored_of_below h⟩) ?_ ?_ hkid hb
      · intro x hx
        exact htexts x (List.mem_append_left _ (mem_kids.mpr ⟨i, hi, hx⟩))
      · intro x hx
        exact htexts' x (List.mem_append_left _ (mem_kids.mpr ⟨i, hi, hx⟩))
  | load hdesc hn hnb _ =>
    exact fun hrep _ _ _ _ => (save_stored hlen (hnb.of_load hdesc hn) hrep).2.1

include hlen in
/-- `Save` of both tries. -/
theorem Expands.save_iff (hc : c.Lawful) (hinj : Set.InjOn sha S) {a b : Node}
    (hab : Expands env a b) {K K' : Kind} {L L' : ℕ} {m m' : Meaning}
    (hrep : Rep (Known sha c S A) (FlagOk sha c S A) K L a m)
    (hrep' : Rep (Known sha c S A) (FlagOk sha c S A) K' L' b m') (ha : ¬ holdsStoredBelow a)
    (htexts : ∀ x ∈ hashedTexts sha c a, x ∈ S) (htexts' : ∀ x ∈ hashedTexts sha c b, x ∈ S) :
    (⟨b, []⟩ : Trie).save sha c = (⟨a, []⟩ : Trie).save sha c ↔ ¬ newOverStored b := by
  cases hnull : a.isNull with
  | true =>
    obtain rfl := Node.eq_null hnull
    have hb : b = .null := by
      cases hab
      rfl
    subst hb
    exact ⟨fun _ => id, fun _ => rfl⟩
  | false =>
    have hnull' : b.isNull = false := hab.isNull ▸ hnull
    simp only [Trie.save, hnull, hnull', Bool.false_eq_true, if_false]
    constructor
    · intro hsave
      have hroot := congrArg Trie.root hsave
      simp only at hroot
      have hspec := save_spec hlen (Set.subset_univ A) hrep htexts fun _ _ => Set.mem_univ _
      have hspec' := save_spec hlen (Set.subset_univ A) hrep' htexts' fun _ _ => Set.mem_univ _
      rw [hspec.root, hspec'.root] at hroot
      exact hab.not_newOverStored hlen hc hinj hrep' ha htexts htexts' (congrArg (encode c) hroot.symm)
    · intro hnew
      rw [(hab.save_eq hlen hrep' hnew).2]

end Save

/-! ### Runs with and without their reads -/

/-- A call whose key has `n` hexadecimal characters. -/
def TrieOp.Keyed (n : ℕ) : TrieOp → Prop
  | .update key _ => HexKey n key
  | .get key => HexKey n key

instance (n : ℕ) (op : TrieOp) : Decidable (op.Keyed n) :=
  match op with
  | .update key _ => inferInstanceAs (Decidable (HexKey n key))
  | .get key => inferInstanceAs (Decidable (HexKey n key))

/-- The calls of a run that do something: `Update` ignores an empty value. -/
def effective (ops : List TrieOp) : List TrieOp :=
  ops.filter fun op => match op with
    | .update _ value => value ≠ []
    | .get _ => true

theorem effective_valid {n : ℕ} {ops : List TrieOp} (h : ∀ op ∈ ops, op.Keyed n) :
    ∀ op ∈ effective ops, op.Valid n := by
  intro op hop
  obtain ⟨hmem, hkeep⟩ := List.mem_filter.mp hop
  cases op with
  | update key value => exact ⟨h _ hmem, by simpa using hkeep⟩
  | get key => exact h _ hmem

theorem updatesOnly_valid {n : ℕ} {ops : List TrieOp} (h : ∀ op ∈ ops, op.Valid n) :
    ∀ op ∈ updatesOnly ops, op.Valid n :=
  fun op hop => h op (List.mem_filter.mp hop).1

theorem updatesOnly_effective (ops : List TrieOp) :
    updatesOnly (effective ops) = effective (updatesOnly ops) := by
  rw [updatesOnly, updatesOnly, effective, effective, List.filter_filter, List.filter_filter]
  simp only [Bool.and_comm]

theorem runOps_effective (env : TrieEnv) : ∀ (ops : List TrieOp) (root : Node),
    runOps env root (effective ops) = runOps env root ops := by
  intro ops
  induction ops with
  | nil => exact fun _ => rfl
  | cons op ops ih =>
    intro root
    cases op with
    | update key value =>
      by_cases hvalue : value = []
      · subst hvalue
        rw [effective, List.filter_cons_of_neg (by simp), runOps]
        exact ih root
      · rw [effective, List.filter_cons_of_pos (by simpa using hvalue), runOps, runOps]
        exact congrArg _ (funext fun root' => ih root')
    | get key =>
      rw [effective, List.filter_cons_of_pos rfl, runOps, runOps]
      refine congrArg _ (funext fun answer => ?_)
      rw [← effective, ih]

theorem Disk.run_effective (c : Codec) (addr : Str) (d : Disk) (ops : List TrieOp) :
    d.run c addr (effective ops) = d.run c addr ops := by
  simp only [Disk.run, runOps_effective]

theorem Disk.run_eq_some {c : Codec} {addr : Str} {d : Disk} {ops : List TrieOp} {root : Node}
    (h : d.run c addr ops = some root) : ∃ opened answers, d.openTrie c addr = some opened ∧
      runOps (d.env c addr) opened ops = some (root, answers) := by
  obtain ⟨opened, hopen, h⟩ := Option.bind_eq_some_iff.mp h
  obtain ⟨⟨root', answers⟩, hrun, h⟩ := Option.bind_eq_some_iff.mp h
  cases h
  exact ⟨opened, answers, hopen, hrun⟩

theorem runRounds_effective (sha : Str → Str) (c : Codec) (addr : Str) :
    ∀ (rounds : List (List TrieOp)) (d : Disk),
      runRounds sha c addr d (rounds.map effective) = runRounds sha c addr d rounds := by
  intro rounds
  induction rounds with
  | nil => exact fun _ => rfl
  | cons ops rounds ih =>
    intro d
    simp only [List.map_cons, runRounds, Disk.run_effective, ih]

/-- After any rounds, the calls of one more and its updates alone both return, and `Save` leaves the
    same root hash and the same `dirtyHash` after both exactly when, in the trie that was read, no new
    short node stands above a node loaded from the store. -/
theorem save_ignores_reads_iff (sha : Str → Str) (c : Codec) (hc : c.Lawful)
    (hlen : ∀ x, (sha x).length = 64) (addr rootHash : Str) (n : ℕ) (hn : 1 ≤ n)
    (done : List (List TrieOp)) (ops : List TrieOp)
    (hops : ∀ ops' ∈ done ++ [ops], ∀ op ∈ ops', op.Keyed n)
    (hinj : Set.InjOn sha {x | x ∈ (runRounds sha c addr ⟨rootHash, .empty⟩ (done ++ [ops])).2
      ++ (runRounds sha c addr ⟨rootHash, .empty⟩ (done ++ [updatesOnly ops])).2}) :
    ∃ d root read, (runRounds sha c addr ⟨rootHash, .empty⟩ done).1 = some d ∧
      d.run c addr (updatesOnly ops) = some root ∧ d.run c addr ops = some read ∧
      ((⟨read, []⟩ : Trie).save sha c = (⟨root, []⟩ : Trie).save sha c ↔ ¬ newOverStored read) := by
  set S : Set Str := {x | x ∈ (runRounds sha c addr ⟨rootHash, .empty⟩ (done ++ [ops])).2
    ++ (runRounds sha c addr ⟨rootHash, .empty⟩ (done ++ [updatesOnly ops])).2} with hS
  have hvalid : ∀ ops' ∈ done.map effective ++ [effective ops], ∀ op ∈ ops', op.Valid n := by
    intro ops' ho
    rw [← List.map_singleton, ← List.map_append] at ho
    obtain ⟨ops'', hops'', rfl⟩ := List.mem_map.mp ho
    exact effective_valid (hops ops'' hops'')
  have hvalid' : ∀ ops' ∈ done.map effective ++ [updatesOnly (effective ops)],
      ∀ op ∈ ops', op.Valid n := by
    intro ops' ho
    rcases List.mem_append.mp ho with ho | ho
    · exact hvalid ops' (List.mem_append_left _ ho)
    · rw [List.mem_singleton.mp ho]
      exact updatesOnly_valid (hvalid _ (by simp))
  -- the rounds before end on one disk, good for both runs
  obtain ⟨d, hdone, hd, hlog⟩ := runRounds_spec hc hlen hinj hn [effective ops] (done.map effective)
    _ [] (diskOk_empty addr rootHash n) hvalid (by
      rw [← List.map_singleton, ← List.map_append, runRounds_effective]
      exact fun x hx => List.mem_append_left _ hx)
  obtain ⟨d', hdone', -, hlog'⟩ := runRounds_spec hc hlen hinj hn [updatesOnly (effective ops)]
    (done.map effective) _ [] (diskOk_empty addr rootHash n) hvalid' (by
      rw [updatesOnly_effective, ← List.map_singleton, ← List.map_append, runRounds_effective]
      exact fun x hx => List.mem_append_right _ hx)
  obtain rfl : d = d' := Option.some.inj (hdone.symm.trans hdone')
  rw [runRounds_effective] at hdone
  obtain ⟨read, d₁, K, m, hread, hsaved, hrep, -, -⟩ :=
    hd.round hc hlen hinj hn (hvalid _ (by simp)) hlog
  obtain ⟨root, d₂, K', m', hroot, hsaved', hrep', -, -⟩ :=
    hd.round hc hlen hinj hn (hvalid' _ (by simp)) hlog'
  have htexts : ∀ x ∈ hashedTexts sha c read, x ∈ S := by
    intro x hx
    refine hlog x ?_
    simp only [runRounds, hread, hsaved]
    exact List.mem_append_left _ hx
  have htexts' : ∀ x ∈ hashedTexts sha c root, x ∈ S := by
    intro x hx
    refine hlog' x ?_
    simp only [runRounds, hroot, hsaved']
    exact List.mem_append_left _ hx
  obtain ⟨opened, answers, hopen, hruns⟩ := Disk.run_eq_some hread
  obtain ⟨opened', answers', hopen', hruns'⟩ := Disk.run_eq_some hroot
  obtain rfl : opened = opened' := Option.some.inj (hopen.symm.trans hopen')
  have hexp := runOps_expands _ (.refl opened) hruns' hruns
  have hfresh := runOps_fresh _ (descendKey_cases hopen).2 hruns'
  rw [updatesOnly_effective, Disk.run_effective] at hroot
  rw [Disk.run_effective] at hread
  exact ⟨d, root, read, hdone, hroot, hread,
    hexp.save_iff hlen hc hinj hrep' hrep hfresh htexts' htexts⟩

/-- SHA-256 on the texts of the keys `0a` and `0b`, stored and then updated at `0a`: the leaves, the
    full nodes, and the extension above them with both leaves in memory and with one. -/
def readSha : Str → Str :=
  let leafX := Node.short (str "az") (.value (str "x")) newFlag
  let leafV := Node.short (str "az") (.value (str "v")) newFlag
  let leafY := Node.short (str "bz") (.value (str "y")) newFlag
  let hashX := "08ecf3cad432326ada2623f1d945a134335c500ca43c33edceab193656dfb611"
  let hashV := "e43a2e8cbef873162f093d67acf2f2e5337d52c15281793d5c9cdce29f155e28"
  let hashY := "39e80e923b575f97861635faad6e7d31034fea391cce70957e6140fb697ffd12"
  let branch := fun x y : Node => Node.full
    (fun i => if i = 10 then x else if i = 11 then y else .null) newFlag
  shaTable [(leafX, hashX), (leafV, hashV), (leafY, hashY),
    (branch (.hash (str hashX)) (.hash (str hashY)),
      "fc2acc6ebd7d607733dd76a37c2b42996aab9a3b939311e3f235eb3e8b2b966f"),
    (branch (.hash (str hashV)) (.hash (str hashY)),
      "11fba680137ad381581dcd2b98edee6a8a43d2d008ee4f2830ccdbc824b0c175"),
    (.short (str "0") (branch leafX leafY) newFlag,
      "6b1f81eec5fe895366a74fab0593329c505fc82918839b992740b578a7116cd4"),
    (.short (str "0") (branch leafV (.hash (str hashY))) newFlag,
      "341677d2ba91053f4f835c54ab79efaee6869ee066f9ff8deee29bdeb00e5ef5"),
    (.short (str "0") (branch leafV leafY) newFlag,
      "60cf6bbc42d9fbcf0979d31c70439f2aa929c9224fb04b18cb709aa87c7d3356")]

/-- A read of `0b` before the update of `0a` gives another root hash. -/
theorem root_depends_on_reads :
    ∃ d root read, (runRounds readSha rlp (str "c") ⟨[], .empty⟩
        [[.update (str "0a") (str "x"), .update (str "0b") (str "y")]]).1 = some d ∧
      d.run rlp (str "c") (updatesOnly [.get (str "0b"), .update (str "0a") (str "v")]) = some root ∧
      d.run rlp (str "c") [.get (str "0b"), .update (str "0a") (str "v")] = some read ∧
      ((⟨read, []⟩ : Trie).save readSha rlp).root ≠ ((⟨root, []⟩ : Trie).save readSha rlp).root := by
  have heval : ((runRounds readSha rlp (str "c") ⟨[], .empty⟩
      [[.update (str "0a") (str "x"), .update (str "0b") (str "y")]]).1.bind fun d =>
        (d.run rlp (str "c") (updatesOnly [.get (str "0b"), .update (str "0a") (str "v")])).bind
          fun root => (d.run rlp (str "c") [.get (str "0b"), .update (str "0a") (str "v")]).map
            fun read => decide ((encode rlp ((⟨read, []⟩ : Trie).save readSha rlp).root).toStr
              = (encode rlp ((⟨root, []⟩ : Trie).save readSha rlp).root).toStr)) = some false := by
    simp only [readSha, shaTable_eq, List.map_cons, List.map_nil]
    repeat rw [str_ofList]
    decide +kernel
  obtain ⟨d, hd, heval⟩ := Option.bind_eq_some_iff.mp heval
  obtain ⟨root, hroot, heval⟩ := Option.bind_eq_some_iff.mp heval
  obtain ⟨read, hread, heval⟩ := Option.map_eq_some_iff.mp heval
  refine ⟨d, root, read, hd, hroot, hread, fun hsame => ?_⟩
  rw [hsame] at heval
  simp at heval

/-- The read of a leaf below a full node changes nothing in what `Save` produces. -/
theorem save_ignores_reads_sample :
    ∃ d root read, (runRounds sampleSha rlp (str "c") ⟨[], .empty⟩
        [[.update (str "0a") (str "x"), .update (str "7b") (str "y")]]).1 = some d ∧
      d.run rlp (str "c") [.update (str "0a") (str "v")] = some root ∧
      d.run rlp (str "c") [.get (str "7b"), .update (str "0a") (str "v")] = some read ∧
      (⟨read, []⟩ : Trie).save sampleSha rlp = (⟨root, []⟩ : Trie).save sampleSha rlp := by
  obtain ⟨d, root, read, hd, hroot, hread, hiff⟩ := save_ignores_reads_iff sampleSha rlp rlp_lawful
    sampleSha_length (str "c") [] 2 (by decide)
    [[.update (str "0a") (str "x"), .update (str "7b") (str "y")]]
    [.get (str "7b"), .update (str "0a") (str "v")] (by
      repeat rw [str_ofList]
      decide +kernel)
    (injOn_of_nodup_dedup (by
      simp only [sampleSha_eq, sampleHashes, List.map_cons, List.map_nil]
      repeat rw [str_ofList]
      decide +kernel))
  have heval : ((runRounds sampleSha rlp (str "c") ⟨[], .empty⟩
      [[.update (str "0a") (str "x"), .update (str "7b") (str "y")]]).1.bind fun d =>
        (d.run rlp (str "c") [.get (str "7b"), .update (str "0a") (str "v")]).map
          fun read => decide (newOverStored read)) = some false := by
    simp only [sampleSha_eq, sampleHashes, List.map_cons, List.map_nil]
    repeat rw [str_ofList]
    decide +kernel
  rw [hd, Option.bind_some, hread, Option.map_some] at heval
  exact ⟨d, root, read, hd, hroot, hread, hiff.mpr (by simpa using heval)⟩

end Tfs.Mpt
