import Tfs.Basic
import Tfs.Lib.Merge

/-! Grouping of contract transactions by shared dependent contracts (`ContractDispatcher::
    GetDependentData` and the packager's copy of it, `packDispatch::GetDependentData`).

    Each transaction comes with the list of contracts it depends on. In the iteration order of the
    cache, a transaction is taken together with its direct neighbours (the transactions sharing a
    contract with it), and that set is added to the first group it overlaps. Groups already formed
    are never merged, so the outcome depends on the order: the theorems say exactly for which
    orders the groups are the connected components. -/

namespace Tfs.Ca
open Tfs.Merge

/-! Hashes leave a set in the order of their texts. -/

instance instIsTransStringLe : IsTrans String (· ≤ ·) := inferInstance

instance instAntisymmStringLe : Std.Antisymm fun a b : String => a ≤ b := inferInstance

/-- `_contractDependentCache` / `hash_dep`: transaction hash and dependent contracts, in the
    iteration order of the `unordered_map`; a hash occurs once. -/
structure DependentCache where
  entries : List (String × List String)
  nodup : (entries.map Prod.fst).Nodup

/-- `ContractDispatcher::HasDuplicate`: some element of `v2` is in the set of elements of `v1`. -/
def hasDuplicate (v1 v2 : List String) : Bool := v2.any fun s => v1.contains s

/-- The local `commonKeys` of one iteration: the transaction and its direct neighbours. -/
def commonKeys (entries : List (String × List String)) (e : String × List String) : Finset String :=
  insert e.1 ((entries.filter fun o => e.1 != o.1 && hasDuplicate e.2 o.2).map Prod.fst).toFinset

/-- The first loop of both `GetDependentData` functions (`groupedDependencies`, there also `res`). -/
def groupedDependencies (cache : DependentCache) : List (Finset String) :=
  cache.entries.foldl (fun groups e => absorb groups (commonKeys cache.entries e)) []

/-- `TxMsgReq`, reduced to the transaction it carries: the serialised body and its hash. -/
structure TxMsgReq where
  hash : String
  tx : String
  deriving DecidableEq

/-- `ContractDispatcher::GetDependentData`: groups of hashes turned into groups of cached messages;
    hashes without a message and groups without any message are dropped. -/
def getDependentData (cache : DependentCache) (msgReqCache : StdMap String TxMsgReq) :
    List (List TxMsgReq) :=
  ((groupedDependencies cache).map fun g => (g.sort (· ≤ ·)).filterMap msgReqCache).filter
    fun messageVec => messageVec.length != 0

/-- The two output maps of `packDispatch::GetDependentData`. -/
structure PackMaps (Tx : Type) where
  dependentContractTxMap : ℕ → StdMap String Tx
  nonContractTxMap : StdMap String Tx

/-- The body of the packager's second loop for one hash of group `n` (`size` hashes): a lone
    transaction goes to `nonContractTxMap`, any other to group `n`; `emplace` keeps what is there. -/
def packOne {Tx : Type} (n size : ℕ) (hash : String) (tx : Tx) (r : PackMaps Tx) : PackMaps Tx :=
  if size = 1 then { r with nonContractTxMap := r.nonContractTxMap.set hash tx }
  else if (r.dependentContractTxMap n hash).isSome then r
  else
    let groupN := (r.dependentContractTxMap n).set hash tx
    { r with dependentContractTxMap := Function.update r.dependentContractTxMap n groupN }

/-- All hashes of one group; `hash_tx.at` throws (`none`) for a hash without a transaction. -/
def packGroup {Tx : Type} (hashTx : StdMap String Tx) (n size : ℕ) :
    List String → PackMaps Tx → Option (PackMaps Tx)
  | [], r => some r
  | hash :: rest, r => do
    let tx ← hashTx hash
    packGroup hashTx n size rest (packOne n size hash tx r)

/-- All groups, numbered from `n` on. -/
def packGroups {Tx : Type} (hashTx : StdMap String Tx) :
    ℕ → List (Finset String) → PackMaps Tx → Option (PackMaps Tx)
  | _, [], r => some r
  | n, g :: gs, r => do
    let r' ← packGroup hashTx n g.card (g.sort (· ≤ ·)) r
    packGroups hashTx (n + 1) gs r'

/-- `packDispatch::GetDependentData`, called with two empty maps. -/
def packGetDependentData {Tx : Type} (cache : DependentCache) (hashTx : StdMap String Tx) :
    Option (PackMaps Tx) :=
  packGroups hashTx 1 (groupedDependencies cache) ⟨fun _ => StdMap.empty, StdMap.empty⟩

/-! ### Specification: the connected components of the sharing relation -/

/-- Two transactions of the cache that share a dependent contract. -/
def Shares (cache : DependentCache) (a b : String × List String) : Prop :=
  a ∈ cache.entries ∧ b ∈ cache.entries ∧ hasDuplicate a.2 b.2 = true

/-- Two transactions linked by a chain of transactions that pairwise share a dependent contract. -/
def Linked (cache : DependentCache) : String × List String → String × List String → Prop :=
  Relation.ReflTransGen (Shares cache)

/-- Groups of hashes that contain every transaction exactly once and keep linked ones together. -/
def IsComponentGrouping (cache : DependentCache) (groups : List (List String)) : Prop :=
  (∀ a ∈ cache.entries, groups.flatten.count a.1 = 1) ∧
    ∀ a ∈ cache.entries, ∀ b ∈ cache.entries, Linked cache a b → ∃ g ∈ groups, a.1 ∈ g ∧ b.1 ∈ g

/-- The same for the packager's maps: every transaction is either alone or in exactly one numbered
    group, and linked ones are in one group. -/
def IsComponentPacking {Tx : Type} (cache : DependentCache) (r : PackMaps Tx) : Prop :=
  (∀ a ∈ cache.entries,
    ((r.nonContractTxMap a.1).isSome ∧ ∀ n, r.dependentContractTxMap n a.1 = none) ∨
      (r.nonContractTxMap a.1 = none ∧ ∃! n, (r.dependentContractTxMap n a.1).isSome)) ∧
    ∀ a ∈ cache.entries, ∀ b ∈ cache.entries, Linked cache a b → a = b ∨
      ∃ n, (r.dependentContractTxMap n a.1).isSome ∧ (r.dependentContractTxMap n b.1).isSome

/-- Two transactions with a common member of their neighbourhoods: equal, neighbours, or at distance
    two in the sharing relation. -/
def Near (cache : DependentCache) (a b : String × List String) : Prop :=
  ∃ c ∈ cache.entries, (c = a ∨ hasDuplicate a.2 c.2 = true) ∧ (c = b ∨ hasDuplicate b.2 c.2 = true)

/-- In the iteration order, two earlier transactions near the current one are always already linked
    through earlier transactions that are near each other. -/
def LinkedInOrder (cache : DependentCache) : Prop :=
  ∀ pre k post, cache.entries = pre ++ k :: post → ∀ a ∈ pre, ∀ b ∈ pre,
    Near cache a k → Near cache b k →
      Relation.ReflTransGen (fun x y => x ∈ pre ∧ y ∈ pre ∧ Near cache x y) a b

/-! ### The groups of hashes -/

theorem groupedDependencies_eq (cache : DependentCache) :
    groupedDependencies cache = absorbAll (commonKeys cache.entries) cache.entries := rfl

theorem commonKeys_nonempty (entries : List (String × List String)) (e : String × List String) :
    (commonKeys entries e).Nonempty := ⟨e.1, by simp [commonKeys]⟩

/-- In one cache a hash names one entry. -/
theorem DependentCache.eq_of_fst (cache : DependentCache) {a b : String × List String}
    (ha : a ∈ cache.entries) (hb : b ∈ cache.entries) (h : a.1 = b.1) : a = b :=
  List.inj_on_of_nodup_map cache.nodup ha hb h

/-- The hashes in `commonKeys`: those of the entry itself and of the entries sharing with it. -/
theorem mem_commonKeys (cache : DependentCache) {e c : String × List String}
    (he : e ∈ cache.entries) (hc : c ∈ cache.entries) :
    c.1 ∈ commonKeys cache.entries e ↔ c = e ∨ hasDuplicate e.2 c.2 = true := by
  simp only [commonKeys, Finset.mem_insert, List.mem_toFinset, List.mem_map, List.mem_filter,
    Bool.and_eq_true, bne_iff_ne, ne_eq]
  constructor
  · rintro (h | ⟨o, ⟨ho, -, hdup⟩, hoc⟩)
    · exact .inl (cache.eq_of_fst hc he h)
    · rw [cache.eq_of_fst hc ho hoc.symm]; exact .inr hdup
  · rintro (rfl | hdup)
    · exact .inl rfl
    · by_cases h : c.1 = e.1
      · exact .inl h
      · exact .inr ⟨c, ⟨hc, fun h' => h h'.symm, hdup⟩, rfl⟩

theorem exists_of_mem_commonKeys {entries : List (String × List String)} {e : String × List String}
    (he : e ∈ entries) {x : String} (hx : x ∈ commonKeys entries e) : ∃ c ∈ entries, c.1 = x := by
  simp only [commonKeys, Finset.mem_insert, List.mem_toFinset, List.mem_map, List.mem_filter] at hx
  rcases hx with rfl | ⟨o, ⟨ho, -⟩, rfl⟩
  · exact ⟨e, he, rfl⟩
  · exact ⟨o, ho, rfl⟩

theorem touch_iff_near (cache : DependentCache) {a b : String × List String}
    (ha : a ∈ cache.entries) (hb : b ∈ cache.entries) :
    Touch (commonKeys cache.entries) a b ↔ Near cache a b := by
  constructor
  · rintro ⟨x, hx⟩
    rw [Finset.mem_inter] at hx
    obtain ⟨c, hc, rfl⟩ := exists_of_mem_commonKeys ha hx.1
    exact ⟨c, hc, (mem_commonKeys cache ha hc).mp hx.1, (mem_commonKeys cache hb hc).mp hx.2⟩
  · rintro ⟨c, hc, hca, hcb⟩
    exact ⟨c.1, Finset.mem_inter.mpr
      ⟨(mem_commonKeys cache ha hc).mpr hca, (mem_commonKeys cache hb hc).mpr hcb⟩⟩

/-- The order condition of the merge library, in terms of the cache. -/
theorem orderly_iff (cache : DependentCache) :
    Orderly (commonKeys cache.entries) cache.entries ↔ LinkedInOrder cache := by
  have hrel : ∀ pre : List (String × List String), (∀ x ∈ pre, x ∈ cache.entries) →
      (fun x y => x ∈ pre ∧ y ∈ pre ∧ Touch (commonKeys cache.entries) x y)
        = fun x y => x ∈ pre ∧ y ∈ pre ∧ Near cache x y := by
    intro pre hpre
    funext x y
    exact propext (and_congr_right fun hx => and_congr_right fun hy =>
      touch_iff_near cache (hpre x hx) (hpre y hy))
  refine forall_congr' fun pre => forall_congr' fun k => forall_congr' fun post =>
    forall_congr' fun he => forall₂_congr fun a ha => forall₂_congr fun b hb => ?_
  have hmem : ∀ x ∈ pre, x ∈ cache.entries := fun x hx => by rw [he]; exact List.mem_append_left _ hx
  have hk : k ∈ cache.entries := by rw [he]; simp
  rw [touch_iff_near cache (hmem a ha) hk, touch_iff_near cache (hmem b hb) hk, Chained, hrel pre hmem]

/-- Every transaction is in some group, together with all its neighbours. -/
theorem exists_group (cache : DependentCache) {a : String × List String} (ha : a ∈ cache.entries) :
    ∃ g ∈ groupedDependencies cache, ∀ b ∈ cache.entries,
      b = a ∨ hasDuplicate a.2 b.2 = true → b.1 ∈ g := by
  obtain ⟨g, hg, hsub⟩ := (covered_absorbAll (commonKeys cache.entries) cache.entries).covers a ha
  exact ⟨g, hg, fun b hb h => hsub ((mem_commonKeys cache ha hb).mpr h)⟩

/-- Groups hold hashes of the cache only. -/
theorem exists_of_mem_group (cache : DependentCache) {g : Finset String}
    (hg : g ∈ groupedDependencies cache) {x : String} (hx : x ∈ g) : ∃ a ∈ cache.entries, a.1 = x := by
  obtain ⟨e, he, hxe, -⟩ :=
    (covered_absorbAll (commonKeys cache.entries) cache.entries).filled g hg x hx
  exact exists_of_mem_commonKeys he hxe

/-- In disjoint groups, linked transactions are together. -/
theorem same_group_of_linked (cache : DependentCache)
    (hp : (groupedDependencies cache).Pairwise Disjoint) {a b : String × List String}
    (hab : Linked cache a b) {g : Finset String} (hg : g ∈ groupedDependencies cache)
    (hag : a.1 ∈ g) : b.1 ∈ g := by
  induction hab with
  | refl => exact hag
  | tail _ hxy ih =>
    obtain ⟨hx, hy, hdup⟩ := hxy
    obtain ⟨g', hg', hall⟩ := exists_group cache hx
    obtain rfl := eq_of_mem_of_pairwise hp hg hg' ih (hall _ hx (.inl rfl))
    exact hall _ hy (.inr hdup)

/-- Disjoint groups, read off the hashes of the cache. -/
theorem pairwise_iff_once (cache : DependentCache) :
    (groupedDependencies cache).Pairwise Disjoint ↔
      ∀ a ∈ cache.entries, (groupedDependencies cache).countP (fun g => decide (a.1 ∈ g)) = 1 := by
  rw [pairwise_iff_countP]
  constructor
  · intro h a ha
    obtain ⟨g, hg, hall⟩ := exists_group cache ha
    have hpos : 0 < (groupedDependencies cache).countP (fun g => decide (a.1 ∈ g)) :=
      List.countP_pos_iff.mpr ⟨g, hg, by simpa using hall a ha (.inl rfl)⟩
    have := h a.1
    omega
  · intro h x
    by_cases hx : ∃ g ∈ groupedDependencies cache, x ∈ g
    · obtain ⟨g, hg, hxg⟩ := hx
      obtain ⟨a, ha, rfl⟩ := exists_of_mem_group cache hg hxg
      exact (h a ha).le
    · rw [List.countP_eq_zero.mpr]
      · exact Nat.zero_le _
      · intro g hg
        simpa using fun hxg => hx ⟨g, hg, hxg⟩

/-! ### The dispatcher's groups of messages -/

/-- When every transaction has its message, the groups of messages carry the groups of hashes. -/
theorem getDependentData_hashes (cache : DependentCache) (msgReqCache : StdMap String TxMsgReq)
    (hmsg : ∀ a ∈ cache.entries, ∃ m, msgReqCache a.1 = some m ∧ m.hash = a.1) :
    (getDependentData cache msgReqCache).map (fun g => g.map TxMsgReq.hash)
      = (groupedDependencies cache).map fun g => g.sort (· ≤ ·) := by
  have hone : ∀ g ∈ groupedDependencies cache,
      ((g.sort (· ≤ ·)).filterMap msgReqCache).map TxMsgReq.hash = g.sort (· ≤ ·) := by
    intro g hg
    have hall : ∀ x ∈ g.sort (· ≤ ·), ∃ m, msgReqCache x = some m ∧ m.hash = x := by
      intro x hx
      obtain ⟨a, ha, rfl⟩ := exists_of_mem_group cache hg ((Finset.mem_sort _).mp hx)
      exact hmsg a ha
    generalize g.sort (· ≤ ·) = l at hall ⊢
    induction l with
    | nil => rfl
    | cons x l ih =>
      obtain ⟨m, hm, hmx⟩ := hall x List.mem_cons_self
      rw [List.filterMap_cons_some hm, List.map_cons, hmx,
        ih fun y hy => hall y (List.mem_cons_of_mem _ hy)]
  have hne : ∀ g ∈ groupedDependencies cache, g.Nonempty :=
    nonempty_of_mem_absorbAll (commonKeys_nonempty cache.entries) cache.entries
  rw [getDependentData, List.filter_eq_self.mpr, List.map_map]
  · exact List.map_congr_left fun g hg => hone g hg
  · intro v hv
    obtain ⟨g, hg, rfl⟩ := List.mem_map.mp hv
    have := congrArg List.length (hone g hg)
    rw [List.length_map, Finset.length_sort] at this
    simpa [this, Finset.card_eq_zero] using (hne g hg).ne_empty

theorem count_flatten_sort (gs : List (Finset String)) (x : String) :
    (gs.map fun g => g.sort (· ≤ ·)).flatten.count x = gs.countP fun g => decide (x ∈ g) := by
  induction gs with
  | nil => rfl
  | cons g gs ih =>
    rw [List.map_cons, List.flatten_cons, List.count_append, ih, List.countP_cons, add_comm]
    congr 1
    by_cases hx : x ∈ g
    · rw [List.count_eq_one_of_mem (Finset.sort_nodup _ _) ((Finset.mem_sort _).mpr hx)]
      simp [hx]
    · rw [List.count_eq_zero_of_not_mem fun h => hx ((Finset.mem_sort _).mp h)]
      simp [hx]

/-- The hash groups are a component grouping exactly when they are disjoint. -/
theorem isComponentGrouping_iff (cache : DependentCache) :
    IsComponentGrouping cache ((groupedDependencies cache).map fun g => g.sort (· ≤ ·)) ↔
      (groupedDependencies cache).Pairwise Disjoint := by
  rw [IsComponentGrouping]
  simp only [count_flatten_sort]
  rw [← pairwise_iff_once, and_iff_left_iff_imp]
  intro hp a ha b _ hab
  obtain ⟨g, hg, hall⟩ := exists_group cache ha
  have hag := hall a ha (.inl rfl)
  exact ⟨_, List.mem_map_of_mem hg, (Finset.mem_sort _).mpr hag,
    (Finset.mem_sort _).mpr (same_group_of_linked cache hp hab hg hag)⟩

/-! ### The packager's maps -/

/-- What one group adds to the maps: its hashes go to `nonContractTxMap` when it has one member, to
    map number `n` otherwise. -/
theorem packGroup_spec {Tx : Type} (hashTx : StdMap String Tx) (n size : ℕ) (l : List String)
    (hl : ∀ x ∈ l, (hashTx x).isSome) (r : PackMaps Tx) :
    ∃ r', packGroup hashTx n size l r = some r' ∧
      (∀ x, (r'.nonContractTxMap x).isSome ↔
        (r.nonContractTxMap x).isSome ∨ (size = 1 ∧ x ∈ l)) ∧
      ∀ m x, (r'.dependentContractTxMap m x).isSome ↔
        (r.dependentContractTxMap m x).isSome ∨ (m = n ∧ size ≠ 1 ∧ x ∈ l) := by
  induction l generalizing r with
  | nil => exact ⟨r, rfl, by simp, by simp⟩
  | cons h l ih =>
    obtain ⟨tx, htx⟩ := Option.isSome_iff_exists.mp (hl h List.mem_cons_self)
    obtain ⟨r', hr', hnon, hdep⟩ := ih (fun x hx => hl x (List.mem_cons_of_mem _ hx))
      (packOne n size h tx r)
    refine ⟨r', by rw [packGroup, htx]; exact hr', fun x => ?_, fun m x => ?_⟩
    · have hone : ((packOne n size h tx r).nonContractTxMap x).isSome ↔
          (r.nonContractTxMap x).isSome ∨ (size = 1 ∧ x = h) := by
        unfold packOne
        split_ifs with hs hd
        · by_cases hx : x = h
          · subst hx; simp [hs]
          · simp [StdMap.set_ne _ _ hx, hx]
        · simp [hs]
        · simp [hs]
      rw [hnon, hone, List.mem_cons]
      tauto
    · have hone : ((packOne n size h tx r).dependentContractTxMap m x).isSome ↔
          (r.dependentContractTxMap m x).isSome ∨ (m = n ∧ size ≠ 1 ∧ x = h) := by
        unfold packOne
        split_ifs with hs hd
        · simp [hs]
        · refine ⟨.inl, ?_⟩
          rintro (hx | ⟨rfl, -, rfl⟩)
          · exact hx
          · exact hd
        · by_cases hm : m = n
          · subst hm
            by_cases hx : x = h
            · subst hx; simp [hs]
            · simp [StdMap.set_ne _ _ hx, hx]
          · simp [hm]
      rw [hdep, hone, List.mem_cons]
      tauto

/-- What the maps hold after all groups. -/
theorem packGroups_spec {Tx : Type} (hashTx : StdMap String Tx) (gs : List (Finset String))
    (hgs : ∀ g ∈ gs, ∀ x ∈ g, (hashTx x).isSome) (n : ℕ) (r : PackMaps Tx) :
    ∃ r', packGroups hashTx n gs r = some r' ∧
      (∀ x, (r'.nonContractTxMap x).isSome ↔
        (r.nonContractTxMap x).isSome ∨ ∃ g ∈ gs, g.card = 1 ∧ x ∈ g) ∧
      ∀ m x, (r'.dependentContractTxMap m x).isSome ↔ (r.dependentContractTxMap m x).isSome ∨
        ∃ i g, gs[i]? = some g ∧ m = n + i ∧ g.card ≠ 1 ∧ x ∈ g := by
  induction gs generalizing n r with
  | nil => exact ⟨r, rfl, by simp, by simp⟩
  | cons g gs ih =>
    obtain ⟨r₁, hr₁, hnon₁, hdep₁⟩ := packGroup_spec hashTx n g.card (g.sort (· ≤ ·))
      (fun x hx => hgs g List.mem_cons_self x ((Finset.mem_sort _).mp hx)) r
    obtain ⟨r₂, hr₂, hnon₂, hdep₂⟩ := ih (fun g' hg' => hgs g' (List.mem_cons_of_mem _ hg'))
      (n + 1) r₁
    refine ⟨r₂, by rw [packGroups, hr₁]; exact hr₂, fun x => ?_, fun m x => ?_⟩
    · rw [hnon₂, hnon₁, Finset.mem_sort, List.exists_mem_cons_iff, or_assoc]
    · rw [hdep₂, hdep₁, Finset.mem_sort, or_assoc]
      refine or_congr_right ⟨?_, ?_⟩
      · rintro (⟨rfl, hc, hx⟩ | ⟨i, g', hi, rfl, hc, hx⟩)
        · exact ⟨0, g, rfl, rfl, hc, hx⟩
        · exact ⟨i + 1, g', hi, by omega, hc, hx⟩
      · rintro ⟨i, g', hi, rfl, hc, hx⟩
        cases i with
        | zero =>
          obtain rfl : g = g' := by simpa using hi
          exact .inl ⟨rfl, hc, hx⟩
        | succ i => exact .inr ⟨i, g', by simpa using hi, by omega, hc, hx⟩

/-- The packager's maps hold the groups of hashes. -/
theorem packGetDependentData_spec {Tx : Type} (cache : DependentCache) (hashTx : StdMap String Tx)
    (htx : ∀ a ∈ cache.entries, (hashTx a.1).isSome) :
    ∃ r, packGetDependentData cache hashTx = some r ∧
      (∀ x, (r.nonContractTxMap x).isSome ↔
        ∃ g ∈ groupedDependencies cache, g.card = 1 ∧ x ∈ g) ∧
      ∀ m x, (r.dependentContractTxMap m x).isSome ↔
        ∃ i g, (groupedDependencies cache)[i]? = some g ∧ m = 1 + i ∧ g.card ≠ 1 ∧ x ∈ g := by
  obtain ⟨r, hr, hnon, hdep⟩ := packGroups_spec hashTx (groupedDependencies cache)
    (fun g hg x hx => by
      obtain ⟨a, ha, rfl⟩ := exists_of_mem_group cache hg hx
      exact htx a ha) 1 ⟨fun _ => StdMap.empty, StdMap.empty⟩
  exact ⟨r, hr, fun x => by simpa using hnon x, fun m x => by simpa using hdep m x⟩

/-- In disjoint groups the index of a group holding `x` is unique. -/
theorem index_unique {gs : List (Finset String)} (hp : gs.Pairwise Disjoint) {i j : ℕ}
    {g g' : Finset String} (hi : gs[i]? = some g) (hj : gs[j]? = some g') {x : String} (hx : x ∈ g)
    (hx' : x ∈ g') : i = j := by
  rw [List.getElem?_eq_some_iff] at hi hj
  obtain ⟨hi, rfl⟩ := hi
  obtain ⟨hj, rfl⟩ := hj
  rw [List.pairwise_iff_getElem] at hp
  rcases lt_trichotomy i j with h | h | h
  · exact absurd hx' (Finset.disjoint_left.mp (hp i j hi hj h) hx)
  · exact h
  · exact absurd hx (Finset.disjoint_left.mp (hp j i hj hi h) hx')

/-- The maps are a component packing exactly when the groups are disjoint. -/
theorem isComponentPacking_iff {Tx : Type} (cache : DependentCache) (r : PackMaps Tx)
    (hnon : ∀ x, (r.nonContractTxMap x).isSome ↔
      ∃ g ∈ groupedDependencies cache, g.card = 1 ∧ x ∈ g)
    (hdep : ∀ m x, (r.dependentContractTxMap m x).isSome ↔
      ∃ i g, (groupedDependencies cache)[i]? = some g ∧ m = 1 + i ∧ g.card ≠ 1 ∧ x ∈ g) :
    IsComponentPacking cache r ↔ (groupedDependencies cache).Pairwise Disjoint := by
  constructor
  · rintro ⟨honce, -⟩
    have hapart := absorbAll_apart (commonKeys_nonempty cache.entries) cache.entries
    rw [← groupedDependencies_eq, List.pairwise_iff_getElem] at hapart
    rw [List.pairwise_iff_getElem]
    intro i j hi hj hij
    rw [Finset.disjoint_left]
    intro x hxi hxj
    obtain ⟨a, ha, rfl⟩ := exists_of_mem_group cache (List.getElem_mem hi) hxi
    -- the hash sits in groups `i` and `j`; each choice of their sizes contradicts `honce`
    have hdepi : ∀ k (hk : k < (groupedDependencies cache).length),
        a.1 ∈ (groupedDependencies cache)[k] → (groupedDependencies cache)[k].card ≠ 1 →
          (r.dependentContractTxMap (1 + k) a.1).isSome := fun k hk hx hc =>
      (hdep _ _).mpr ⟨k, _, List.getElem?_eq_getElem hk, rfl, hc, hx⟩
    have hnoni : ∀ k (hk : k < (groupedDependencies cache).length),
        a.1 ∈ (groupedDependencies cache)[k] → (groupedDependencies cache)[k].card = 1 →
          (r.nonContractTxMap a.1).isSome := fun k hk hx hc =>
      (hnon _).mpr ⟨_, List.getElem_mem hk, hc, hx⟩
    by_cases hci : (groupedDependencies cache)[i].card = 1
    · by_cases hcj : (groupedDependencies cache)[j].card = 1
      · obtain ⟨y, hy, z, hz, hne⟩ := hapart i j hi hj hij
        rw [Finset.card_le_one.mp hci.le _ hy _ hxi, Finset.card_le_one.mp hcj.le _ hz _ hxj] at hne
        exact hne rfl
      · rcases honce a ha with ⟨-, hnone⟩ | ⟨hnone, -⟩
        · simpa [hnone] using hdepi j hj hxj hcj
        · simpa [hnone] using hnoni i hi hxi hci
    · by_cases hcj : (groupedDependencies cache)[j].card = 1
      · rcases honce a ha with ⟨-, hnone⟩ | ⟨hnone, -⟩
        · simpa [hnone] using hdepi i hi hxi hci
        · simpa [hnone] using hnoni j hj hxj hcj
      · rcases honce a ha with ⟨-, hnone⟩ | ⟨-, huniq⟩
        · simpa [hnone] using hdepi j hj hxj hcj
        · have := huniq.unique (hdepi i hi hxi hci) (hdepi j hj hxj hcj)
          omega
  · intro hp
    refine ⟨fun a ha => ?_, fun a ha b hb hab => ?_⟩
    · obtain ⟨g, hg, hall⟩ := exists_group cache ha
      have hag := hall a ha (.inl rfl)
      obtain ⟨i, hi⟩ := List.mem_iff_getElem?.mp hg
      by_cases hc : g.card = 1
      · refine .inl ⟨(hnon _).mpr ⟨g, hg, hc, hag⟩, fun n => ?_⟩
        by_contra hsome
        obtain ⟨j, g', hj, -, hc', hag'⟩ := (hdep n a.1).mp (Option.isSome_iff_ne_none.mpr hsome)
        obtain rfl := eq_of_mem_of_pairwise hp hg (List.mem_of_getElem? hj) hag hag'
        exact hc' hc
      · refine .inr ⟨?_, 1 + i, (hdep _ _).mpr ⟨i, g, hi, rfl, hc, hag⟩, fun m hm => ?_⟩
        · by_contra hsome
          obtain ⟨g', hg', hc', hag'⟩ := (hnon a.1).mp (Option.isSome_iff_ne_none.mpr hsome)
          obtain rfl := eq_of_mem_of_pairwise hp hg hg' hag hag'
          exact hc hc'
        · obtain ⟨j, g', hj, rfl, -, hag'⟩ := (hdep m a.1).mp hm
          rw [index_unique hp hi hj hag hag']
    · obtain ⟨g, hg, hall⟩ := exists_group cache ha
      have hag := hall a ha (.inl rfl)
      have hbg := same_group_of_linked cache hp hab hg hag
      obtain ⟨i, hi⟩ := List.mem_iff_getElem?.mp hg
      by_cases hc : g.card = 1
      · exact .inl (cache.eq_of_fst ha hb (Finset.card_le_one.mp hc.le _ hag _ hbg))
      · exact .inr ⟨1 + i, (hdep _ _).mpr ⟨i, g, hi, rfl, hc, hag⟩,
          (hdep _ _).mpr ⟨i, g, hi, rfl, hc, hbg⟩⟩

/-! ### When the groups are the components -/

/-- The groups are disjoint exactly for the iteration orders that link early. -/
theorem groupedDependencies_pairwise_iff (cache : DependentCache) :
    (groupedDependencies cache).Pairwise Disjoint ↔ LinkedInOrder cache := by
  rw [groupedDependencies_eq, absorbAll_pairwise_iff (commonKeys_nonempty cache.entries),
    orderly_iff]

/-- Both groupings are the component partition exactly when, in the iteration order of the map, the
    transactions near the current one are already linked: a transaction that joins two groups formed
    earlier ends up in both. -/
theorem getDependentData_components_iff {Tx : Type} (cache : DependentCache)
    (msgReqCache : StdMap String TxMsgReq) (hashTx : StdMap String Tx)
    (hmsg : ∀ a ∈ cache.entries, ∃ m, msgReqCache a.1 = some m ∧ m.hash = a.1)
    (htx : ∀ a ∈ cache.entries, (hashTx a.1).isSome) :
    (IsComponentGrouping cache ((getDependentData cache msgReqCache).map fun g => g.map TxMsgReq.hash)
      ↔ LinkedInOrder cache) ∧
    ∃ r, packGetDependentData cache hashTx = some r ∧
      (IsComponentPacking cache r ↔ LinkedInOrder cache) := by
  refine ⟨?_, ?_⟩
  · rw [getDependentData_hashes cache msgReqCache hmsg, isComponentGrouping_iff,
      groupedDependencies_pairwise_iff]
  · obtain ⟨r, hr, hnon, hdep⟩ := packGetDependentData_spec cache hashTx htx
    refine ⟨r, hr, ?_⟩
    rw [isComponentPacking_iff cache r hnon hdep, groupedDependencies_pairwise_iff]

/-- Two transactions on one contract and one on another. -/
def cacheApart : DependentCache :=
  ⟨[("a", ["1"]), ("b", ["1"]), ("c", ["2"])], by decide⟩

/-- `a` and `b` share a contract, `c` stands alone; every order of this cache links early. -/
theorem getDependentData_components_apart :
    IsComponentGrouping cacheApart
      ((getDependentData cacheApart fun h => some ⟨h, h⟩).map fun g => g.map TxMsgReq.hash) := by
  have hiff := getDependentData_components_iff cacheApart (fun h => some ⟨h, h⟩)
    (fun h => some h) (fun a _ => ⟨_, rfl, rfl⟩) (fun _ _ => rfl)
  refine hiff.1.mpr ((groupedDependencies_pairwise_iff cacheApart).mp ?_)
  decide

/-- A chain of five transactions, met in an order that opens three groups before the links arrive. -/
def cacheChain : DependentCache :=
  ⟨[("a", ["1"]), ("e", ["4"]), ("c", ["2", "3"]), ("b", ["1", "2"]), ("d", ["3", "4"])], by decide⟩

/-- On that order `d` and `e` are in two groups, so each of them is sent to two packagers; neither
    grouping is the component partition. -/
theorem getDependentData_splits_chain :
    ¬ IsComponentGrouping cacheChain
      ((getDependentData cacheChain fun h => some ⟨h, h⟩).map fun g => g.map TxMsgReq.hash) ∧
    ∀ r, packGetDependentData cacheChain (fun h => some h) = some r →
      ¬ IsComponentPacking cacheChain r := by
  have hover : ¬ (groupedDependencies cacheChain).Pairwise Disjoint := by decide
  refine ⟨fun h => hover ?_, fun r hr h => hover ?_⟩
  · rwa [getDependentData_hashes cacheChain _ fun a _ => ⟨_, rfl, rfl⟩, isComponentGrouping_iff] at h
  · obtain ⟨r', hr', hnon, hdep⟩ := packGetDependentData_spec cacheChain (fun h => some h)
      fun _ _ => rfl
    obtain rfl : r' = r := by rw [hr] at hr'; exact (Option.some.inj hr').symm
    exact (isComponentPacking_iff cacheChain r' hnon hdep).mp h

end Tfs.Ca
