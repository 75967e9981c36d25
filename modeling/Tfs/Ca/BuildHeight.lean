import Tfs.Basic
import Tfs.Lib.Sorted
import Tfs.Lib.Tally

/-! The height of the next block (`TransactionCache::GetBuildBlockHeight` in `ca/transaction_cache.cpp`).

    The heights of the nodes are counted, and from the top down the first height that three quarters of the
    nodes have reached is taken, or before that the node's own height. The highest of the heights of the cached
    transactions, which come with the messages of other nodes, is kept in an `int`, while heights are numbers of
    64 bits. -/

namespace Tfs.Ca.BuildHeight

/-! ### The function -/

/-- `Node`, with what is used here. -/
structure Node where
  address : Str
  height : UInt64

/-- `global::ca::kNeed_node_threshold` and `global::ca::kMinUnstakeHeight`. -/
structure Limits where
  kNeedNodeThreshold : ℕ
  kMinUnstakeHeight : UInt64

/-- What a call meets. -/
structure BuildMeets where
  nodelist : List Node
  /-- `VerifyBonusAddr` returns 0, and the node has staked at some time -/
  qualified : Str → Bool
  /-- `GetBlockTop` -/
  top : Option UInt64

/-- A number of 64 bits assigned to an `int`. -/
def asInt (x : UInt64) : ℤ :=
  if x.toNat % 2 ^ 32 < 2 ^ 31 then x.toNat % 2 ^ 32 else x.toNat % 2 ^ 32 - 2 ^ 32

/-- An `int` compared with a number of 64 bits. -/
def asUnsigned (x : ℤ) : ℕ := (x % 2 ^ 64).toNat

/-- One round of the first loop. -/
def takeHeight (maxUtxoHeight : ℤ) (txUtxoHeight : UInt64) : ℤ :=
  if asUnsigned maxUtxoHeight < txUtxoHeight.toNat then asInt txUtxoHeight else maxUtxoHeight

/-- `maxUtxoHeight`, from the heights of the transactions. -/
def maxUtxoHeight (txUtxoHeights : List UInt64) : ℤ := txUtxoHeights.foldl takeHeight 0

section Function
variable (limits : Limits) (p : BuildMeets) (txUtxoHeights : List UInt64)

/-- `satisfiedAddrs` after the first loop. -/
def qualifiedAddrs : SortedMap Str UInt64 :=
  p.nodelist.foldl (fun m node => if p.qualified node.address then m.upsert node.address fun _ => node.height else m) .empty

/-- `satisfiedAddrs`, unless there are too few nodes. -/
def satisfiedAddrs (maxUtxoHeight : ℤ) : Option (SortedMap Str UInt64) :=
  if (qualifiedAddrs p).entries.length < limits.kNeedNodeThreshold ∧ asUnsigned maxUtxoHeight < limits.kMinUnstakeHeight.toNat then
    some (p.nodelist.foldl (fun m node =>
      if (m.find node.address).isSome then m else m.upsert node.address fun _ => node.height) (qualifiedAddrs p))
  else if (qualifiedAddrs p).entries.length < limits.kNeedNodeThreshold then none
  else some (qualifiedAddrs p)

/-- `count >= size * 0.75`. The product of a size and 0.75 is exact in a `double`. -/
def enough (size count : ℕ) : Bool := 3 * size ≤ 4 * count

/-- `heightCount`: for every height, how many nodes have reached it. -/
def heightCount (heights : List UInt64) : SortedMap UInt64 ℕ := SortedMap.sumsFromTop (SortedMap.tally heights)

/-- The last loop. -/
def searchHeight (size : ℕ) (maxUtxoHeight : ℤ) : List (UInt64 × ℕ) → ℤ
  | [] => -4
  | item :: rest =>
    if item.1.toNat < asUnsigned maxUtxoHeight then -3
    else if enough size item.2 then asInt item.1
    else searchHeight size maxUtxoHeight rest

/-- `TransactionCache::GetBuildBlockHeight`, once the heights of the nodes are known. -/
def chooseHeight (heights : List UInt64) (maxUtxoHeight : ℤ) (top : UInt64) : ℤ :=
  let heightMatchNum := heights.countP fun height => asUnsigned maxUtxoHeight ≤ height.toNat
  if ! enough heights.length heightMatchNum then -2
  else if asUnsigned maxUtxoHeight ≤ top.toNat ∧ ((heightCount heights).find top).any (enough heights.length) then asInt top
  else searchHeight heights.length maxUtxoHeight (heightCount heights).entries.reverse

/-- `TransactionCache::GetBuildBlockHeight`. -/
def getBuildBlockHeight : ℤ :=
  match satisfiedAddrs limits p (maxUtxoHeight txUtxoHeights) with
  | none => -1
  | some satisfiedAddrs =>
    chooseHeight (satisfiedAddrs.entries.map Prod.snd) (maxUtxoHeight txUtxoHeights) (p.top.getD 0)

end Function

/-! ### The search -/

section Search
variable {heights : List UInt64} {max : ℤ} {size : ℕ}

theorem mem_heightCount {height : UInt64} {count : ℕ} : (height, count) ∈ (heightCount heights).entries ↔
    height ∈ heights ∧ count = heights.countP (height ≤ ·) := SortedMap.mem_sumsFromTop_tally

/-- Going down, the search ends at the latest at a height that is high enough and has been reached by enough
    nodes. -/
theorem searchHeight_of_mem {good : UInt64 × ℕ} (hmax : asUnsigned max ≤ good.1.toNat) (hgood : enough size good.2) :
    ∀ {items : List (UInt64 × ℕ)}, items.Pairwise (fun a b => b.1 < a.1) → good ∈ items →
      ∃ item ∈ items, asUnsigned max ≤ item.1.toNat ∧ enough size item.2 ∧ searchHeight size max items = asInt item.1
  | [], _, hin => by cases hin
  | item :: items, h, hin => by
    obtain ⟨hitem, hitems⟩ := List.pairwise_cons.mp h
    have hhigh : asUnsigned max ≤ item.1.toNat := by
      rcases List.mem_cons.mp hin with rfl | hin
      · exact hmax
      · exact hmax.trans (UInt64.lt_iff_toNat_lt.mp (hitem good hin)).le
    rw [searchHeight, if_neg (not_lt.mpr hhigh)]
    split_ifs with henough
    · exact ⟨item, List.mem_cons_self, hhigh, henough, rfl⟩
    · have hrest : good ∈ items := (List.mem_cons.mp hin).resolve_left fun heq => henough (heq ▸ hgood)
      obtain ⟨found, hfound, hspec⟩ := searchHeight_of_mem hmax hgood hitems hrest
      exact ⟨found, List.mem_cons_of_mem _ hfound, hspec⟩

/-- The lowest of the heights that are high enough has been reached by all nodes of such heights. -/
theorem exists_lowest (hpos : 0 < heights.countP fun height => asUnsigned max ≤ height.toNat) :
    ∃ low ∈ heights, asUnsigned max ≤ low.toNat ∧
      heights.countP (low ≤ ·) = heights.countP fun height => asUnsigned max ≤ height.toNat := by
  obtain ⟨height, hin, hhigh⟩ := List.countP_pos_iff.mp hpos
  have hne : (heights.toFinset.filter fun height => asUnsigned max ≤ height.toNat).Nonempty :=
    ⟨height, by simpa using ⟨hin, by simpa using hhigh⟩⟩
  obtain ⟨low, hlow, hmin⟩ := Finset.exists_min_image _ id hne
  obtain ⟨hin, hhigh⟩ := Finset.mem_filter.mp hlow
  refine ⟨low, List.mem_toFinset.mp hin, hhigh, List.countP_congr fun height hheight => ?_⟩
  rw [decide_eq_true_eq, decide_eq_true_eq]
  constructor
  · exact fun hle => hhigh.trans (UInt64.le_iff_toNat_le.mp hle)
  · exact fun hle => hmin height (Finset.mem_filter.mpr ⟨List.mem_toFinset.mpr hheight, hle⟩)

/-- What is chosen, when enough nodes have reached the heights of the transactions. -/
theorem chooseHeight_of_enough (hne : heights ≠ [])
    (hmatch : enough heights.length (heights.countP fun height => asUnsigned max ≤ height.toNat)) (top : UInt64) :
    ∃ height ∈ heights, asUnsigned max ≤ height.toNat ∧ enough heights.length (heights.countP (height ≤ ·)) ∧
      chooseHeight heights max top = asInt height := by
  rw [chooseHeight]
  simp only [hmatch, Bool.not_true, Bool.false_eq_true, if_false]
  split_ifs with htop
  · obtain ⟨hhigh, hany⟩ := htop
    rcases hfind : (heightCount heights).find top with _ | count
    · rw [hfind] at hany
      cases hany
    · rw [hfind] at hany
      obtain ⟨hin, rfl⟩ := mem_heightCount.mp (SortedMap.mem_iff_find.mpr hfind)
      exact ⟨top, hin, hhigh, hany, rfl⟩
  · have hpos : 0 < heights.countP fun height => asUnsigned max ≤ height.toNat := by
      have hsize := List.length_pos_iff.mpr hne
      rw [enough, decide_eq_true_eq] at hmatch
      omega
    obtain ⟨low, hlow, hhigh, hcount⟩ := exists_lowest hpos
    have hgood : enough heights.length (heights.countP (low ≤ ·)) := by rwa [hcount]
    have hin : (low, heights.countP (low ≤ ·)) ∈ (heightCount heights).entries.reverse :=
      List.mem_reverse.mpr (mem_heightCount.mpr ⟨hlow, rfl⟩)
    obtain ⟨⟨height, count⟩, hitem, hspec, henough, hresult⟩ :=
      searchHeight_of_mem hhigh hgood (List.pairwise_reverse.mpr (heightCount heights).sorted) hin
    obtain ⟨hmem, rfl⟩ := mem_heightCount.mp (List.mem_reverse.mp hitem)
    exact ⟨height, hmem, hspec, henough, hresult⟩

end Search

/-! ### The highest of the heights of the transactions -/

section Highest

theorem asInt_of_lt {x : UInt64} (h : x.toNat < 2 ^ 31) : asInt x = x.toNat := by
  rw [asInt]
  omega

theorem asUnsigned_of_nonneg {max : ℤ} (h : 0 ≤ max) (hlt : max < 2 ^ 31) : (asUnsigned max : ℤ) = max := by
  rw [asUnsigned]
  omega

/-- An `int` below zero stays below zero: only a number that is itself negative as an `int` is larger. -/
theorem foldl_takeHeight_neg : ∀ {heights : List UInt64} {max : ℤ}, max < 0 → -2 ^ 31 ≤ max →
    heights.foldl takeHeight max < 0 ∧ -2 ^ 31 ≤ heights.foldl takeHeight max
  | [], _, hneg, hlow => ⟨hneg, hlow⟩
  | height :: heights, max, hneg, hlow => by
    have hlt := height.toNat_lt
    have hunsigned : (asUnsigned max : ℤ) = max + 2 ^ 64 := by rw [asUnsigned]; omega
    rw [List.foldl_cons, takeHeight]
    split_ifs with hlarger
    · refine foldl_takeHeight_neg ?_ ?_
      · rw [asInt]
        split_ifs <;> omega
      · rw [asInt]
        split_ifs <;> omega
    · exact foldl_takeHeight_neg hneg hlow

/-- A number that is negative as an `int` makes the result negative. -/
theorem foldl_takeHeight_of_neg : ∀ {heights : List UInt64} {max : ℤ}, 0 ≤ max → max < 2 ^ 31 →
    (∃ x ∈ heights, 2 ^ 31 ≤ x.toNat % 2 ^ 32) →
    heights.foldl takeHeight max < 0 ∧ -2 ^ 31 ≤ heights.foldl takeHeight max
  | [], _, _, _, hex => by simp at hex
  | height :: heights, max, hnonneg, hlt, hex => by
    have hunsigned := asUnsigned_of_nonneg hnonneg hlt
    rw [List.foldl_cons, takeHeight]
    rcases le_or_gt (2 ^ 31) (height.toNat % 2 ^ 32) with hbit | hbit
    · have hint : asInt height = height.toNat % 2 ^ 32 - 2 ^ 32 := if_neg (by omega)
      rw [if_pos (by omega), hint]
      exact foldl_takeHeight_neg (by omega) (by omega)
    · have hrest : ∃ x ∈ heights, 2 ^ 31 ≤ x.toNat % 2 ^ 32 := by
        obtain ⟨x, hx, hneg⟩ := hex
        exact ⟨x, (List.mem_cons.mp hx).resolve_left fun heq => absurd hneg (heq ▸ not_le.mpr hbit), hneg⟩
      have hint : asInt height = height.toNat % 2 ^ 32 := if_pos hbit
      split_ifs
      · exact foldl_takeHeight_of_neg (by omega) (by omega) hrest
      · exact foldl_takeHeight_of_neg hnonneg hlt hrest

/-- Without such a number the result is not negative. -/
theorem foldl_takeHeight_of_nonneg : ∀ {heights : List UInt64} {max : ℤ}, 0 ≤ max → max < 2 ^ 31 →
    (∀ x ∈ heights, x.toNat % 2 ^ 32 < 2 ^ 31) →
    0 ≤ heights.foldl takeHeight max ∧ heights.foldl takeHeight max < 2 ^ 31
  | [], _, hnonneg, hlt, _ => ⟨hnonneg, hlt⟩
  | height :: heights, max, hnonneg, hlt, hall => by
    obtain ⟨hheight, hrest⟩ := List.forall_mem_cons.mp hall
    have hint : asInt height = height.toNat % 2 ^ 32 := if_pos hheight
    rw [List.foldl_cons, takeHeight]
    split_ifs
    · exact foldl_takeHeight_of_nonneg (by omega) (by omega) hrest
    · exact foldl_takeHeight_of_nonneg hnonneg hlt hrest

/-- Of numbers below `2 ^ 31` it is the highest. -/
theorem foldl_takeHeight_ge : ∀ {heights : List UInt64} {max : ℤ}, 0 ≤ max → max < 2 ^ 31 →
    (∀ x ∈ heights, x.toNat < 2 ^ 31) →
    max ≤ heights.foldl takeHeight max ∧ ∀ x ∈ heights, (x.toNat : ℤ) ≤ heights.foldl takeHeight max
  | [], _, _, _, _ => ⟨le_rfl, nofun⟩
  | height :: heights, max, hnonneg, hlt, hall => by
    obtain ⟨hheight, hrest⟩ := List.forall_mem_cons.mp hall
    have hunsigned := asUnsigned_of_nonneg hnonneg hlt
    rw [List.foldl_cons, takeHeight, asInt_of_lt hheight, List.forall_mem_cons]
    split_ifs with hlarger
    · obtain ⟨hmax, hle⟩ := @foldl_takeHeight_ge heights height.toNat (by omega) (by omega) hrest
      exact ⟨by omega, hmax, hle⟩
    · obtain ⟨hmax, hle⟩ := foldl_takeHeight_ge hnonneg hlt hrest
      exact ⟨hmax, by omega, hle⟩

end Highest

/-! ### Safe heights -/

section Safe
variable (limits : Limits) (p : BuildMeets) (txUtxoHeights : List UInt64)

/-- Whenever there are eligible nodes, with heights below `2 ^ 31`: a height that is returned is not below that of
    any transaction, three quarters of the nodes have reached it, and the last two errors are not returned. -/
def BuildsSafely : Prop :=
  ∀ addrs, satisfiedAddrs limits p (maxUtxoHeight txUtxoHeights) = some addrs → addrs.entries ≠ [] →
    (∀ e ∈ addrs.entries, e.2.toNat < 2 ^ 31) →
    (∀ h : ℕ, getBuildBlockHeight limits p txUtxoHeights = h →
      (∀ x ∈ txUtxoHeights, x.toNat ≤ h) ∧
        3 * addrs.entries.length ≤ 4 * addrs.entries.countP fun e => h ≤ e.2.toNat) ∧
    getBuildBlockHeight limits p txUtxoHeights ≠ -3 ∧ getBuildBlockHeight limits p txUtxoHeights ≠ -4

variable {limits p txUtxoHeights}

/-- Either too few nodes have reached the heights of the transactions, or a height of the nodes is returned. -/
theorem getBuildBlockHeight_cases {addrs : SortedMap Str UInt64}
    (haddrs : satisfiedAddrs limits p (maxUtxoHeight txUtxoHeights) = some addrs) (hne : addrs.entries ≠ [])
    (hsmall : ∀ e ∈ addrs.entries, e.2.toNat < 2 ^ 31) :
    getBuildBlockHeight limits p txUtxoHeights = -2 ∨
    ∃ h : ℕ, getBuildBlockHeight limits p txUtxoHeights = h ∧ asUnsigned (maxUtxoHeight txUtxoHeights) ≤ h ∧ h < 2 ^ 31 ∧
      3 * addrs.entries.length ≤ 4 * addrs.entries.countP fun e => h ≤ e.2.toNat := by
  have hresult : getBuildBlockHeight limits p txUtxoHeights =
      chooseHeight (addrs.entries.map Prod.snd) (maxUtxoHeight txUtxoHeights) (p.top.getD 0) := by
    rw [getBuildBlockHeight, haddrs]
  rw [hresult]
  rcases hmatch : enough (addrs.entries.map Prod.snd).length ((addrs.entries.map Prod.snd).countP fun height =>
      asUnsigned (maxUtxoHeight txUtxoHeights) ≤ height.toNat) with _ | _
  · left
    rw [chooseHeight]
    simp only [hmatch, Bool.not_false, if_true]
  · right
    obtain ⟨height, hin, hhigh, henough, hchoose⟩ :=
      chooseHeight_of_enough (by simpa using hne) hmatch (p.top.getD 0)
    obtain ⟨e, he, rfl⟩ := List.mem_map.mp hin
    refine ⟨e.2.toNat, ?_, hhigh, hsmall e he, ?_⟩
    · rw [hchoose, asInt_of_lt (hsmall e he)]
    · rw [enough, decide_eq_true_eq, List.length_map, List.countP_map] at henough
      exact henough

end Safe

/-! ### Nodes that are all of one height -/

/-- Different addresses. -/
def addressOf (i : ℕ) : Str := List.replicate i 0

/-- So many nodes of one height, which have all invested and staked. -/
def nodesOf (count : ℕ) (height : UInt64) : BuildMeets :=
  ⟨(List.range count).map fun i => ⟨addressOf i, height⟩, fun _ => true, some height⟩

/-- Each of them has an entry with its height. -/
theorem qualifiedAddrs_nodesOf (count : ℕ) (height : UInt64) :
    (∀ e ∈ (qualifiedAddrs (nodesOf count height)).entries, e.2 = height) ∧
      count ≤ (qualifiedAddrs (nodesOf count height)).entries.length := by
  have hfold : qualifiedAddrs (nodesOf count height) =
      SortedMap.insertEach (fun _ v => v) .empty ((List.range count).map fun i => (addressOf i, height)) := by
    rw [qualifiedAddrs, nodesOf, SortedMap.insertEach, List.foldl_map, List.foldl_map]
    rfl
  have hfind (k : Str) := SortedMap.find_insertEach_last k ((List.range count).map fun i => (addressOf i, height))
  rw [← hfold] at hfind
  constructor
  · rintro ⟨k, v⟩ he
    have hlast := (hfind k).symm.trans (SortedMap.mem_iff_find.mp he)
    obtain ⟨i, -, heq⟩ := List.mem_map.mp (SortedMap.mem_valuesOf.mp (List.mem_of_getLast? hlast))
    exact (congrArg Prod.snd heq).symm
  · have hsub : (List.range count).map addressOf ⊆ (qualifiedAddrs (nodesOf count height)).entries.map Prod.fst := by
      intro k hk
      obtain ⟨i, hi, rfl⟩ := List.mem_map.mp hk
      have hvalue : height ∈ SortedMap.valuesOf (addressOf i) ((List.range count).map fun i => (addressOf i, height)) :=
        SortedMap.mem_valuesOf.mpr (List.mem_map.mpr ⟨i, hi, rfl⟩)
      have hlast := List.getLast?_eq_some_getLast (List.ne_nil_of_mem hvalue)
      exact List.mem_map.mpr ⟨_, SortedMap.mem_iff_find.mpr ((hfind _).trans hlast), rfl⟩
    have hnodup : ((List.range count).map addressOf).Nodup :=
      List.nodup_range.map fun i j h => by simpa [addressOf] using congrArg List.length h
    have hle := (hnodup.subperm hsub).length_le
    rwa [List.length_map, List.length_map, List.length_range] at hle

/-- Where all nodes have the height that the `int` holds, it is chosen. -/
theorem chooseHeight_of_same {heights : List UInt64} {height : UInt64} (hlt : height.toNat < 2 ^ 31) (hne : heights ≠ [])
    (hsame : ∀ height' ∈ heights, height' = height) (top : UInt64) : chooseHeight heights height.toNat top = height.toNat := by
  have hunsigned : (asUnsigned height.toNat : ℤ) = height.toNat := asUnsigned_of_nonneg (by omega) (by omega)
  have hreached : (heights.countP fun height' => asUnsigned height.toNat ≤ height'.toNat) = heights.length := by
    refine List.countP_eq_length.mpr fun height' hin => ?_
    rw [hsame height' hin, decide_eq_true_eq]
    omega
  have henough : enough heights.length (heights.countP fun height' => asUnsigned height.toNat ≤ height'.toNat) := by
    rw [hreached, enough, decide_eq_true_eq]
    omega
  obtain ⟨height', hin, -, -, hchoose⟩ := chooseHeight_of_enough hne henough top
  rw [hchoose, hsame height' hin, asInt_of_lt hlt]

/-- Enough nodes of the height that the `int` holds let it be returned. -/
theorem getBuildBlockHeight_nodesOf (limits : Limits) {txUtxoHeights : List UInt64} {height : UInt64}
    (hmax : maxUtxoHeight txUtxoHeights = height.toNat) (hlt : height.toNat < 2 ^ 31) :
    ∃ addrs, satisfiedAddrs limits (nodesOf (limits.kNeedNodeThreshold + 1) height) (maxUtxoHeight txUtxoHeights) = some addrs ∧
      addrs.entries ≠ [] ∧ (∀ e ∈ addrs.entries, e.2 = height) ∧
      getBuildBlockHeight limits (nodesOf (limits.kNeedNodeThreshold + 1) height) txUtxoHeights = height.toNat := by
  obtain ⟨hsame, hcount⟩ := qualifiedAddrs_nodesOf (limits.kNeedNodeThreshold + 1) height
  have haddrs : satisfiedAddrs limits (nodesOf (limits.kNeedNodeThreshold + 1) height) (maxUtxoHeight txUtxoHeights) =
      some (qualifiedAddrs (nodesOf (limits.kNeedNodeThreshold + 1) height)) := by
    rw [satisfiedAddrs, if_neg (by omega), if_neg (by omega)]
  have hne : (qualifiedAddrs (nodesOf (limits.kNeedNodeThreshold + 1) height)).entries ≠ [] :=
    List.length_pos_iff.mp (by omega)
  refine ⟨_, haddrs, hne, hsame, ?_⟩
  rw [getBuildBlockHeight, haddrs, hmax]
  refine chooseHeight_of_same hlt (by simpa using hne) (fun height' hin => ?_) _
  obtain ⟨e, he, rfl⟩ := List.mem_map.mp hin
  exact hsame e he

/-- The heights that are built on are safe whatever the nodes are, exactly when the heights of the transactions
    fit into an `int`, or one of them makes it negative, so that nothing is built. -/
theorem builds_safely_iff (limits : Limits) (txUtxoHeights : List UInt64) :
    (∀ p, BuildsSafely limits p txUtxoHeights) ↔
      (∀ x ∈ txUtxoHeights, x.toNat < 2 ^ 31) ∨ ∃ x ∈ txUtxoHeights, 2 ^ 31 ≤ x.toNat % 2 ^ 32 := by
  constructor
  · intro hall
    by_contra hnot
    push Not at hnot
    obtain ⟨⟨x, hx, hlarge⟩, hbits⟩ := hnot
    obtain ⟨hnonneg, hlt⟩ := foldl_takeHeight_of_nonneg le_rfl (by norm_num) hbits
    rw [← maxUtxoHeight] at hnonneg hlt
    obtain ⟨m, hm⟩ := Int.eq_ofNat_of_zero_le hnonneg
    have hheight : (UInt64.ofNat m).toNat = m := by rw [UInt64.toNat_ofNat']; omega
    obtain ⟨addrs, haddrs, hne, hsame, hresult⟩ :=
      getBuildBlockHeight_nodesOf limits (hm.trans (congrArg Nat.cast hheight.symm)) (by omega)
    have hsafe := (hall _ addrs haddrs hne fun e he => by rw [hsame e he]; omega).1 _ hresult
    have hle := hsafe.1 x hx
    omega
  · rintro (hfit | hneg) p addrs haddrs hne hsmall
    · obtain ⟨hnonneg, hge⟩ := foldl_takeHeight_ge le_rfl (by norm_num) hfit
      have hlt := (foldl_takeHeight_of_nonneg (le_refl 0) (by norm_num) fun x hx =>
        (Nat.mod_le _ _).trans_lt (hfit x hx)).2
      rw [← maxUtxoHeight] at hnonneg hge hlt
      have hunsigned := asUnsigned_of_nonneg hnonneg hlt
      rcases getBuildBlockHeight_cases haddrs hne hsmall with hfew | ⟨h, hresult, hhigh, -, hshare⟩
      · rw [hfew]
        exact ⟨fun h heq => by omega, by decide, by decide⟩
      · rw [hresult]
        refine ⟨fun h' heq => ?_, by omega, by omega⟩
        obtain rfl : h = h' := by omega
        exact ⟨fun x hx => by have := hge x hx; omega, hshare⟩
    · -- no node has reached a height that is negative as an `int`
      obtain ⟨hneg, hlow⟩ := foldl_takeHeight_of_neg le_rfl (by norm_num) hneg
      rw [← maxUtxoHeight] at hneg hlow
      have hunsigned : (asUnsigned (maxUtxoHeight txUtxoHeights) : ℤ) = maxUtxoHeight txUtxoHeights + 2 ^ 64 := by
        rw [asUnsigned]
        omega
      rcases getBuildBlockHeight_cases haddrs hne hsmall with hfew | ⟨h, -, hhigh, hlt, -⟩
      · rw [hfew]
        exact ⟨fun h heq => by omega, by decide, by decide⟩
      · omega

/-- A transaction with the height `2 ^ 32` is built on at the height of a node, which is 5. -/
theorem height_truncated :
    ¬ BuildsSafely ⟨1, 0⟩ ⟨[⟨[1], 5⟩], fun _ => true, some 5⟩ [4294967296] := by
  intro h
  have hbuilt := (h ⟨[([1], 5)], by decide⟩ rfl (by decide) (by decide)).1 5 (by decide)
  exact absurd (hbuilt.1 _ List.mem_cons_self) (by decide)

end Tfs.Ca.BuildHeight
