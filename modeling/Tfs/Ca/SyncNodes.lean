import Tfs.Ca.ChainHeight

/-! Which nodes are asked when a node synchronizes (`SyncBlock::_GetSyncNodeBasic` in `ca/sync_block.cpp`).

    Nodes are drawn at random and taken out of their list, so that a loop ends after as many draws as the list
    has nodes. A node that the comparator discards is taken out as well, but not chosen. -/

namespace Tfs.Ca.SyncNodes

open ChainHeight

/-! ### The function -/

/-- What the function reads. -/
structure SyncNodeMeets where
  /-- `GetBlockTop` -/
  getBlockTop : Option ℕ
  /-- `GetNodelist` -/
  nodes : List Node
  verifyBonusAddr : Str → ℤ
  getPledgeTimeByAddr : Str → ℤ
  kMinUnstakeHeight : ℕ
  kMinSyncQualNodes : UInt32

/-- The node of an address qualifies. -/
def Qualifies (m : SyncNodeMeets) (address : Str) : Prop :=
  0 < m.getPledgeTimeByAddr address ∧ m.verifyBonusAddr address = 0

instance (m : SyncNodeMeets) (address : Str) : Decidable (Qualifies m address) := inferInstanceAs (Decidable (_ ∧ _))

/-- `qualifyingNode`. -/
def qualifyingNode (m : SyncNodeMeets) : List Node := m.nodes.filter fun node => Qualifies m node.address

/-- `num`, as it is adjusted: the largest number stands for all nodes. -/
def adjustedNum (m : SyncNodeMeets) (top : ℕ) (num : UInt32) : UInt32 :=
  if num.toNat ≥ 2 ^ 32 - 1 then
    UInt32.ofNat (if top < m.kMinUnstakeHeight then m.nodes.length else (qualifyingNode m).length)
  else if num < m.kMinSyncQualNodes then m.kMinSyncQualNodes else num

/-- What the loops work on: how often was drawn, `sendNodeIdsSet`, and the nodes that are left. -/
structure Draws where
  drawn : ℕ
  sendNodeIdsSet : Finset Str
  nodes : List Node

section Loop
variable (discard : Node → Bool) (random : ℕ → ℕ)

/-- One round of a loop. Every index below the number of nodes can be drawn. -/
def drawNode (d : Draws) : Draws :=
  let index := random d.drawn % d.nodes.length
  match d.nodes[index]? with
  | none => d
  | some node =>
    { drawn := d.drawn + 1
      sendNodeIdsSet := if discard node then d.sendNodeIdsSet else insert node.address d.sendNodeIdsSet
      nodes := d.nodes.eraseIdx index }

/-- `while (sendNodeIdsSet.size() < num && !nodes.empty())`, with `none` when the fuel runs out first. -/
def drawNodes (num : ℕ) : ℕ → Draws → Option Draws
  | 0, _ => none
  | fuel + 1, d =>
    if d.sendNodeIdsSet.card < num ∧ d.nodes ≠ [] then drawNodes num fuel (drawNode discard random d) else some d

end Loop

/-- The end of the function: the ids are listed in their order, and too few are none. -/
def finish (num : ℕ) (sendNodeIds : List Str) (sendNodeIdsSet : Finset Str) : ℤ × List Str :=
  let sendNodeIds := sendNodeIds ++ sendNodeIdsSet.sort (· ≤ ·)
  if 2 * sendNodeIds.length < num then (-3, []) else (0, sendNodeIds)

/-- `SyncBlock::_GetSyncNodeBasic`: its return value, and `sendNodeIds` in the end. -/
def getSyncNodeBasic (m : SyncNodeMeets) (random : ℕ → ℕ) (fuel : ℕ) (num : UInt32) (heightBaseline : ℕ)
    (discardComparator : ℕ → ℕ → Bool) (sendNodeIds : List Str) : Option (ℤ × List Str) :=
  let discard (node : Node) := discardComparator node.height heightBaseline
  match m.getBlockTop with
  | none => some (-1, sendNodeIds)
  | some top =>
    let num := adjustedNum m top num
    if top < m.kMinUnstakeHeight then do
      let d ← drawNodes discard random num.toNat fuel ⟨0, ∅, qualifyingNode m⟩
      let d ← drawNodes discard random num.toNat fuel ⟨d.drawn, d.sendNodeIdsSet, m.nodes⟩
      some (finish num.toNat sendNodeIds d.sendNodeIdsSet)
    else if (qualifyingNode m).length < m.kMinSyncQualNodes.toNat ∨ num < m.kMinSyncQualNodes then some (-2, sendNodeIds)
    else do
      let d ← drawNodes discard random num.toNat fuel ⟨0, ∅, qualifyingNode m⟩
      some (finish num.toNat sendNodeIds d.sendNodeIdsSet)

/-! ### The loops -/

section Loop
variable (discard : Node → Bool) (random : ℕ → ℕ)

/-- The addresses of the nodes of a list that are not discarded. -/
def Drawable (nodes : List Node) (address : Str) : Prop := ∃ node ∈ nodes, node.address = address ∧ discard node = false

/-- One round takes a node out, and adds its address unless it is discarded. -/
theorem drawNode_spec {d : Draws} (hsome : d.nodes ≠ []) :
    (drawNode discard random d).nodes.length + 1 = d.nodes.length ∧
      (drawNode discard random d).nodes ⊆ d.nodes ∧
      (drawNode discard random d).sendNodeIdsSet.card ≤ d.sendNodeIdsSet.card + 1 ∧
      ∀ address ∈ (drawNode discard random d).sendNodeIdsSet,
        address ∈ d.sendNodeIdsSet ∨ Drawable discard d.nodes address := by
  have hpos := List.length_pos_iff.mpr hsome
  have hlt : random d.drawn % d.nodes.length < d.nodes.length := Nat.mod_lt _ hpos
  have hnode : d.nodes[random d.drawn % d.nodes.length] ∈ d.nodes := List.getElem_mem hlt
  rw [drawNode]
  simp only [List.getElem?_eq_getElem hlt]
  refine ⟨?_, List.eraseIdx_subset, ?_, fun address haddress => ?_⟩
  · rw [List.length_eraseIdx_of_lt hlt]
    omega
  · split_ifs
    · omega
    · exact Finset.card_insert_le _ _
  · split_ifs at haddress with hdiscard
    · exact .inl haddress
    · rcases Finset.mem_insert.mp haddress with rfl | haddress
      · exact .inr ⟨_, hnode, rfl, by simpa using hdiscard⟩
      · exact .inl haddress

/-- What a loop has reached from where it started. -/
structure Drawn (num : ℕ) (d d' : Draws) : Prop where
  card_le : d.sendNodeIdsSet.card ≤ num → d'.sendNodeIdsSet.card ≤ num
  drawable : ∀ address ∈ d'.sendNodeIdsSet, address ∈ d.sendNodeIdsSet ∨ Drawable discard d.nodes address

theorem Drawn.refl (num : ℕ) (d : Draws) : Drawn discard num d d := ⟨id, fun _ => .inl⟩

theorem Drawn.step {num : ℕ} {d d' : Draws} (hmore : d.sendNodeIdsSet.card < num) (hsome : d.nodes ≠ [])
    (h : Drawn discard num (drawNode discard random d) d') : Drawn discard num d d' := by
  obtain ⟨-, hsub, hcard, hnew⟩ := drawNode_spec discard random hsome
  refine ⟨fun _ => h.card_le (by omega), fun address haddress => ?_⟩
  rcases h.drawable address haddress with hin | ⟨node, hnode, rfl, hkept⟩
  · exact hnew address hin
  · exact .inr ⟨node, hsub hnode, rfl, hkept⟩

/-- A loop ends within as many rounds as there are nodes, whatever is drawn; more fuel changes nothing. -/
theorem drawNodes_ends (num : ℕ) : ∀ (n : ℕ) (d : Draws), d.nodes.length = n →
    ∃ d', Drawn discard num d d' ∧ ∀ fuel, n < fuel → drawNodes discard random num fuel d = some d' := by
  intro n
  induction n with
  | zero =>
    intro d hlen
    refine ⟨d, Drawn.refl discard num d, fun fuel hfuel => ?_⟩
    obtain ⟨fuel, rfl⟩ := Nat.exists_eq_add_of_lt hfuel
    have hnil := List.length_eq_zero_iff.mp hlen
    rw [Nat.zero_add, drawNodes, if_neg fun h => h.2 hnil]
  | succ n ih =>
    intro d hlen
    by_cases hgo : d.sendNodeIdsSet.card < num ∧ d.nodes ≠ []
    · have hshort := (drawNode_spec discard random hgo.2).1
      obtain ⟨d', hdrawn, hends⟩ := ih (drawNode discard random d) (by omega)
      refine ⟨d', hdrawn.step discard random hgo.1 hgo.2, fun fuel hfuel => ?_⟩
      cases fuel with
      | zero => omega
      | succ fuel =>
        rw [drawNodes, if_pos hgo]
        exact hends fuel (by omega)
    · refine ⟨d, Drawn.refl discard num d, fun fuel hfuel => ?_⟩
      cases fuel with
      | zero => omega
      | succ fuel => rw [drawNodes, if_neg hgo]

end Loop

/-! ### What is chosen -/

/-- The ids that a call returning 0 leaves. -/
structure ChosenWell (m : SyncNodeMeets) (top : ℕ) (num : UInt32) (heightBaseline : ℕ)
    (discardComparator : ℕ → ℕ → Bool) (sendNodeIds : List Str) : Prop where
  distinct : sendNodeIds.Nodup
  listed : ∀ id ∈ sendNodeIds, ∃ node ∈ m.nodes, node.address = id
  not_discarded : ∀ node ∈ m.nodes, node.address ∈ sendNodeIds → discardComparator node.height heightBaseline = false
  at_most : sendNodeIds.length ≤ (adjustedNum m top num).toNat
  at_least : (adjustedNum m top num).toNat ≤ 2 * sendNodeIds.length
  qualifying : m.kMinUnstakeHeight ≤ top → ∀ id ∈ sendNodeIds, Qualifies m id

/-- What a call leaves, as a result of its return value. -/
structure GoodResult (m : SyncNodeMeets) (num : UInt32) (heightBaseline : ℕ) (discardComparator : ℕ → ℕ → Bool)
    (r : ℤ × List Str) : Prop where
  chosen : r.1 = 0 → ∃ top, m.getBlockTop = some top ∧ ChosenWell m top num heightBaseline discardComparator r.2
  failed : r.1 ≠ 0 → r.2 = []

/-- A return before anything is drawn. -/
theorem goodResult_early (m : SyncNodeMeets) (num : UInt32) (heightBaseline : ℕ) (discardComparator : ℕ → ℕ → Bool)
    {ret : ℤ} (hret : ret ≠ 0) : GoodResult m num heightBaseline discardComparator (ret, []) :=
  ⟨fun h => absurd h hret, fun _ => rfl⟩

section Finish
variable {m : SyncNodeMeets} (num : UInt32) {heightBaseline : ℕ} {discardComparator : ℕ → ℕ → Bool} {top : ℕ}

/-- The end of the function, after a set was drawn that is small enough, from nodes that are not discarded. -/
theorem goodResult_finish (hdistinct : (m.nodes.map (·.address)).Nodup) (htop : m.getBlockTop = some top)
    {sendNodeIdsSet : Finset Str} (hcard : sendNodeIdsSet.card ≤ (adjustedNum m top num).toNat)
    (hdrawable : ∀ id ∈ sendNodeIdsSet,
      Drawable (fun node => discardComparator node.height heightBaseline) m.nodes id)
    (hqualify : m.kMinUnstakeHeight ≤ top → ∀ id ∈ sendNodeIdsSet, Qualifies m id) :
    GoodResult m num heightBaseline discardComparator (finish (adjustedNum m top num).toNat [] sendNodeIdsSet) := by
  rw [finish, List.nil_append]
  split_ifs with hfew
  · exact goodResult_early m num heightBaseline discardComparator (by decide)
  · refine ⟨fun _ => ⟨top, htop, ?_⟩, fun h => absurd rfl h⟩
    exact {
      distinct := Finset.sort_nodup _ _
      listed := fun id hid => by
        obtain ⟨node, hnode, haddress, -⟩ := hdrawable id ((Finset.mem_sort _).mp hid)
        exact ⟨node, hnode, haddress⟩
      not_discarded := fun node hnode hid => by
        obtain ⟨node', hnode', haddress, hkept⟩ := hdrawable _ ((Finset.mem_sort _).mp hid)
        -- the address has one node
        obtain rfl := List.inj_on_of_nodup_map hdistinct hnode' hnode haddress
        exact hkept
      at_most := by rwa [Finset.length_sort]
      at_least := not_lt.mp hfew
      qualifying := fun htop id hid => hqualify htop id ((Finset.mem_sort _).mp hid) }

end Finish

theorem mem_qualifyingNode {m : SyncNodeMeets} {node : Node} :
    node ∈ qualifyingNode m ↔ node ∈ m.nodes ∧ Qualifies m node.address := by
  rw [qualifyingNode, List.mem_filter, decide_eq_true_eq]

theorem Drawable.of_qualifying {m : SyncNodeMeets} {discard : Node → Bool} {address : Str}
    (h : Drawable discard (qualifyingNode m) address) : Drawable discard m.nodes address ∧ Qualifies m address := by
  obtain ⟨node, hnode, rfl, hkept⟩ := h
  obtain ⟨hin, hqualifies⟩ := mem_qualifyingNode.mp hnode
  exact ⟨⟨node, hin, rfl, hkept⟩, hqualifies⟩

/-- Whatever is drawn, the call ends, and leaves what its return value says. -/
theorem sync_nodes_chosen (m : SyncNodeMeets) (hdistinct : (m.nodes.map (·.address)).Nodup) (random : ℕ → ℕ)
    (num : UInt32) (heightBaseline : ℕ) (discardComparator : ℕ → ℕ → Bool) :
    ∃ r, GoodResult m num heightBaseline discardComparator r ∧ ∀ fuel, m.nodes.length < fuel →
      getSyncNodeBasic m random fuel num heightBaseline discardComparator [] = some r := by
  cases htop : m.getBlockTop with
  | none =>
    refine ⟨(-1, []), goodResult_early m num heightBaseline discardComparator (by decide), fun fuel _ => ?_⟩
    rw [getSyncNodeBasic, htop]
  | some top =>
    have hlen : (qualifyingNode m).length ≤ m.nodes.length := List.length_filter_le _ _
    obtain ⟨d, hdrawn, hends⟩ := drawNodes_ends (fun node => discardComparator node.height heightBaseline) random
      (adjustedNum m top num).toNat (qualifyingNode m).length ⟨0, ∅, qualifyingNode m⟩ rfl
    have hcard := hdrawn.card_le (Nat.zero_le _)
    have hdrawable : ∀ id ∈ d.sendNodeIdsSet, Drawable _ (qualifyingNode m) id := fun id hid =>
      (hdrawn.drawable id hid).resolve_left (Finset.notMem_empty id)
    by_cases hlow : top < m.kMinUnstakeHeight
    · obtain ⟨d', hdrawn', hends'⟩ := drawNodes_ends (fun node => discardComparator node.height heightBaseline) random
        (adjustedNum m top num).toNat m.nodes.length ⟨d.drawn, d.sendNodeIdsSet, m.nodes⟩ rfl
      refine ⟨_, goodResult_finish num hdistinct htop (hdrawn'.card_le hcard) (fun id hid => ?_)
        fun h => absurd h (not_le.mpr hlow), fun fuel hfuel => ?_⟩
      · exact (hdrawn'.drawable id hid).elim (fun hin => (hdrawable id hin).of_qualifying.1) fun h => h
      · rw [getSyncNodeBasic, htop]
        simp only [if_pos hlow]
        rw [hends fuel (by omega), Option.bind_eq_bind, Option.bind_some, hends' fuel hfuel]
        rfl
    · by_cases hfew : (qualifyingNode m).length < m.kMinSyncQualNodes.toNat ∨ adjustedNum m top num < m.kMinSyncQualNodes
      · refine ⟨(-2, []), goodResult_early m num heightBaseline discardComparator (by decide), fun fuel _ => ?_⟩
        rw [getSyncNodeBasic, htop]
        simp only [if_neg hlow, if_pos hfew]
      · refine ⟨_, goodResult_finish num hdistinct htop hcard
          (fun id hid => (hdrawable id hid).of_qualifying.1) fun _ id hid => (hdrawable id hid).of_qualifying.2,
          fun fuel hfuel => ?_⟩
        rw [getSyncNodeBasic, htop]
        simp only [if_neg hlow, if_neg hfew]
        rw [hends fuel (by omega)]
        rfl

/-- Two nodes at height 5, of which one qualifies, and a node below. -/
def threeNodes : SyncNodeMeets where
  getBlockTop := some 20
  nodes := [⟨[97], 5⟩, ⟨[98], 5⟩, ⟨[99], 1⟩]
  verifyBonusAddr _ := 0
  getPledgeTimeByAddr address := if address = [98] then 1 else 0
  kMinUnstakeHeight := 10
  kMinSyncQualNodes := 1

theorem sync_nodes_chosen_one : ∃ r, GoodResult threeNodes 1 5 (fun height baseline => height < baseline) r ∧
    ∀ fuel, 3 < fuel → getSyncNodeBasic threeNodes (fun i => i) fuel 1 5 (fun height baseline => height < baseline) [] =
      some r :=
  sync_nodes_chosen threeNodes (by decide) (fun i => i) 1 5 fun height baseline => height < baseline

/-- The node that qualifies is chosen. -/
example : getSyncNodeBasic threeNodes (fun i => i) 4 1 5 (fun height baseline => height < baseline) [] =
    some (0, [[98]]) := by decide +kernel

end Tfs.Ca.SyncNodes
