import Tfs.Basic
import Tfs.Lib.Sorted

/-! The height of the chain as the other nodes report it (`BlockHelper::ObtainChainHeight`).

    The reported heights are sorted, and the one three quarters up is taken. So it takes more than a
    quarter of the nodes to push it above the highest height an honest node reports, and more than three
    quarters to pull it below the lowest. -/

namespace Tfs.Ca.ChainHeight

/-- What is used of a `Node`. -/
structure Node where
  address : Str
  height : ℕ

/-- What `ObtainChainHeight` meets. -/
structure HeightMeets where
  /-- `GetBlockTop` -/
  top : Option ℕ
  /-- `GetNodelist` -/
  nodes : List Node
  kMinUnstakeHeight : ℕ
  verifyBonusAddr : Str → ℤ
  getPledgeTimeByAddr : Str → ℤ
  /-- a `Node` takes more than two hundred bytes: three quarters of those in memory are no number beyond
      an `int` -/
  nodes_fit : nodes.length * 3 / 4 < 2 ^ 31

/-- The nodes whose heights count. -/
def qualifyingNode (m : HeightMeets) (top : ℕ) : List Node :=
  if top < m.kMinUnstakeHeight then m.nodes
  else m.nodes.filter fun node => 0 < m.getPledgeTimeByAddr node.address ∧ m.verifyBonusAddr node.address = 0

/-- `int verifyNum = nodeHeights.size() * sampleRate`: three quarters of the number of nodes, rounded
    down. The product is exact in a `double`. Beyond the range of an `int` the language leaves the
    conversion open; the machine gives the smallest `int`. -/
def verifyNum (size : ℕ) : ℤ := if size * 3 / 4 < 2 ^ 31 then (size * 3 / 4 : ℕ) else -2 ^ 31

/-- `BlockHelper::ObtainChainHeight`, with `none` where it returns false. The index is compared with the
    number of heights as a `size_t`. -/
def obtainChainHeight (m : HeightMeets) : Option ℕ :=
  match m.top with
  | none => none
  | some top =>
    if m.nodes = [] then some top
    else if qualifyingNode m top = [] then some top
    else
      let nodeHeights := ((qualifyingNode m top).map Node.height).mergeSort (· ≤ ·)
      let index := (verifyNum nodeHeights.length % 2 ^ 64).toNat
      if index ≥ nodeHeights.length then none
      else nodeHeights[index]?

/-! ### Honest and dishonest nodes -/

/-- Where more elements satisfy one property than another, some element satisfies the first only. -/
theorem exists_of_countP_lt {α : Type} {p q : α → Bool} {l : List α} (h : l.countP q < l.countP p) :
    ∃ x ∈ l, p x = true ∧ q x = false := by
  by_contra hno
  push Not at hno
  have hle := List.countP_mono_left fun x hx hp => by simpa using hno x hx hp
  exact absurd h (not_lt.mpr hle)

theorem qualifyingNode_length_le (m : HeightMeets) (top : ℕ) :
    (qualifyingNode m top).length ≤ m.nodes.length := by
  rw [qualifyingNode]
  split
  · exact le_refl _
  · exact List.length_filter_le _ _

/-- The index is three quarters of the number of nodes that count. -/
theorem verifyNum_qualifying (m : HeightMeets) (top : ℕ) :
    (verifyNum (qualifyingNode m top).length % 2 ^ 64).toNat = (qualifyingNode m top).length * 3 / 4 := by
  have hle := qualifyingNode_length_le m top
  have hfit := m.nodes_fit
  rw [verifyNum, if_pos (by omega)]
  omega

/-- The result: the height three quarters up among the sorted ones. -/
theorem obtainChainHeight_eq {m : HeightMeets} {top : ℕ} (htop : m.top = some top)
    (hne : qualifyingNode m top ≠ []) :
    ∃ heights : List ℕ, ∃ hlt : (qualifyingNode m top).length * 3 / 4 < heights.length,
      heights.Pairwise (· ≤ ·) ∧ heights.Perm ((qualifyingNode m top).map Node.height) ∧
      obtainChainHeight m = some heights[(qualifyingNode m top).length * 3 / 4] := by
  have hperm := List.mergeSort_perm ((qualifyingNode m top).map Node.height) (· ≤ ·)
  have hlen : (((qualifyingNode m top).map Node.height).mergeSort (· ≤ ·)).length
      = (qualifyingNode m top).length := by rw [hperm.length_eq, List.length_map]
  have hpos := List.length_pos_iff.mpr hne
  have hlt : (qualifyingNode m top).length * 3 / 4 < (qualifyingNode m top).length := by omega
  have hnodes : m.nodes ≠ [] := by
    intro hnil
    refine hne ?_
    rw [qualifyingNode, hnil]
    split_ifs <;> rfl
  refine ⟨_, by rw [hlen]; exact hlt, List.pairwise_mergeSort' _ _, hperm, ?_⟩
  rw [obtainChainHeight, htop]
  simp only [if_neg hnodes, if_neg hne, hlen, verifyNum_qualifying]
  rw [if_neg (not_le.mpr hlt), List.getElem?_eq_getElem]

/-- The heights the honest nodes report; the flag marks a dishonest node. -/
def honestHeights (marked : List (Node × Bool)) : List ℕ :=
  (marked.filter fun e => ! e.2).map fun e => e.1.height

theorem mem_honestHeights {marked : List (Node × Bool)} {e : Node × Bool} (he : e ∈ marked)
    (hhonest : e.2 = false) : e.1.height ∈ honestHeights marked :=
  List.mem_map_of_mem (List.mem_filter.mpr ⟨he, by rw [hhonest]; rfl⟩)

/-- How many of the reported heights satisfy a property. -/
theorem countP_heights {marked : List (Node × Bool)} {heights : List ℕ}
    (hperm : heights.Perm (marked.map fun e => e.1.height)) (p : ℕ → Bool) :
    heights.countP p = marked.countP fun e => p e.1.height := by
  rw [hperm.countP_eq, List.countP_map]
  rfl

/-- With a qualifying node, whichever nodes are dishonest, `ObtainChainHeight` succeeds. For `n` nodes
    and `k` three quarters of them: the result is not above the highest honest height when fewer than
    `n - k` nodes are dishonest, and not below the lowest one when at most `k` are. -/
theorem chain_height_robust (m : HeightMeets) (top : ℕ) (htop : m.top = some top)
    (marked : List (Node × Bool)) (hmarked : marked.map Prod.fst = qualifyingNode m top)
    (hne : marked ≠ []) :
    ∃ chainHeight, obtainChainHeight m = some chainHeight ∧
      (marked.countP Prod.snd < marked.length - marked.length * 3 / 4 →
        (chainHeight : WithBot ℕ) ≤ (honestHeights marked).maximum) ∧
      (marked.countP Prod.snd ≤ marked.length * 3 / 4 →
        (honestHeights marked).minimum ≤ (chainHeight : WithTop ℕ)) := by
  have hqualify : qualifyingNode m top ≠ [] := by
    rw [← hmarked, ne_eq, List.map_eq_nil_iff]
    exact hne
  obtain ⟨heights, hlt, hsorted, hperm, hresult⟩ := obtainChainHeight_eq htop hqualify
  have hlen : (qualifyingNode m top).length = marked.length := by rw [← hmarked, List.length_map]
  rw [← hmarked, List.map_map] at hperm
  have hheights : heights.length = marked.length := by rw [hperm.length_eq, List.length_map]
  have hk : (qualifyingNode m top).length * 3 / 4 = marked.length * 3 / 4 := by rw [hlen]
  refine ⟨_, hresult, fun hfew => ?_, fun hmost => ?_⟩
  · -- as many nodes as lie from the index on report at least the result
    have habove := Sorted.le_countP_ge hsorted hlt
    rw [countP_heights hperm, hheights] at habove
    obtain ⟨e, he, hle, hhonest⟩ := exists_of_countP_lt (lt_of_lt_of_le (hk ▸ hfew) habove)
    exact le_trans (WithBot.coe_le_coe.mpr (by simpa using hle))
      (List.le_maximum_of_mem' (mem_honestHeights he hhonest))
  · -- one more than the index report at most the result
    have hbelow := Sorted.lt_countP_le hsorted hlt
    rw [countP_heights hperm] at hbelow
    obtain ⟨e, he, hle, hhonest⟩ := exists_of_countP_lt (lt_of_le_of_lt (hk ▸ hmost) hbelow)
    exact le_trans (List.minimum_le_of_mem' (mem_honestHeights he hhonest))
      (WithTop.coe_le_coe.mpr (by simpa using hle))

/-- Four nodes, the last of them dishonest: its low report does not pull the result below the honest
    heights. -/
theorem chain_height_robust_four :
    let node (height : ℕ) : Node := ⟨[], height⟩
    let m : HeightMeets := ⟨some 5, [node 10, node 12, node 11, node 3], 100, fun _ => 0, fun _ => 0,
      by decide⟩
    ∃ chainHeight, obtainChainHeight m = some chainHeight ∧
      (honestHeights [(node 10, false), (node 12, false), (node 11, false), (node 3, true)]).minimum
        ≤ (chainHeight : WithTop ℕ) := by
  intro node m
  obtain ⟨chainHeight, hresult, -, hmin⟩ := chain_height_robust m 5 rfl
    [(node 10, false), (node 12, false), (node 11, false), (node 3, true)] rfl (by simp)
  exact ⟨chainHeight, hresult, hmin (by decide)⟩

end Tfs.Ca.ChainHeight
