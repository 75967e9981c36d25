import Mathlib
import Tfs.Basic
import Tfs.Lib.Cyclic

/-! The broadcast of a block in two hops (`net_com::BroadBroadcastMessage` in `net/api.cpp`,
    `HandleBroadcastMsg` in `net/handle_event.cpp`, `utils/cycliclist.hpp`).

    The sender sends the block to some of the nodes it knows, and the list of them along with it. Each of
    these relays sorts that list into a circle, finds its own place, and sends the block on to the nodes of
    its own table between the one before it and the one behind it.

    Addresses are strings in the program; only their order matters here. A `Cycliclist` is a list, and an
    iterator an index into it. -/

namespace Tfs.Net

open Tfs.Cyclic

variable {Addr : Type} [LinearOrder Addr]

/-! ### The sender -/

/-- `g_broadcastThreshold`. -/
def g_broadcastThreshold : ℕ := 15

/-- A node in the table of the sender: its address and its descriptor. -/
structure CastNode (Addr : Type) where
  address : Addr
  fd : ℤ

/-- The loop of `getTargetIndexs`: indices are drawn until there are enough addresses. `none` when the
    draws given do not suffice. -/
def drawTargets (num : ℕ) (source : List (CastNode Addr)) : List ℕ → Finset Addr → Option (Finset Addr)
  | draws, allAddresses =>
    if num ≤ allAddresses.card then some allAddresses
    else match draws with
      | [] => none
      | index :: draws => match source[index % source.length]? with
        | none => none
        | some node => drawTargets num source draws (insert node.address allAddresses)

/-- `getTargetIndexs`. -/
def getTargetIndexs (num : ℕ) (source : List (CastNode Addr)) (draws : List ℕ) : Option (Finset Addr) :=
  if source.length < num then some ∅
  else if source.length = num then some (source.map (·.address)).toFinset
  else drawTargets num source draws ∅

/-- `getRootOfEquation`. -/
def getRootOfEquation (listSize : ℕ) : ℕ := (Nat.sqrt (1 + 4 * listSize) - 1) / 2

/-- How many staked nodes are sent to, at most. -/
def castLimit (listSize : ℕ) : ℕ :=
  if g_broadcastThreshold * g_broadcastThreshold ≤ listSize then getRootOfEquation listSize
  else g_broadcastThreshold

/-- The nodes that pass the check of the pledge. `getStakeAddressUtxo` is the read of the database (`none`
    unless it succeeds); what it finds is appended to the one vector that the check looks at. -/
def eligibleAddress (getStakeAddressUtxo : Addr → Option (List Str)) :
    List Str → List (CastNode Addr) → List (CastNode Addr)
  | _, [] => []
  | pledgeUtxoHashs, node :: nodeList =>
    match getStakeAddressUtxo node.address with
    | some utxos => node :: eligibleAddress getStakeAddressUtxo (pledgeUtxoHashs ++ utxos) nodeList
    | none =>
      if pledgeUtxoHashs.isEmpty then eligibleAddress getStakeAddressUtxo pledgeUtxoHashs nodeList
      else node :: eligibleAddress getStakeAddressUtxo pledgeUtxoHashs nodeList

/-- What the sender reads besides its table: `kMinUnstakeHeight`, the stakes in the database, and the
    indices it draws. -/
structure CastInputs (Addr : Type) where
  kMinUnstakeHeight : ℕ
  getStakeAddressUtxo : Addr → Option (List Str)
  draws : List ℕ

/-- `BroadBroadcastMessage`: the cast addresses of the message, each of which it is sent to. `none` where
    it returns `false` (no node known, or more than a quarter of them unconnected), or has not drawn enough
    indices yet. -/
def broadBroadcastMessage (inp : CastInputs Addr) (height : ℕ) (nodeList : List (CastNode Addr)) :
    Option (List Addr) :=
  let cntUnConnected := nodeList.countP fun node => node.fd == -1
  if nodeList.isEmpty then none
  else if nodeList.length < 4 * cntUnConnected then none
  else if height < inp.kMinUnstakeHeight then
    if nodeList.length ≤ g_broadcastThreshold then some (nodeList.map (·.address))
    else (getTargetIndexs g_broadcastThreshold nodeList inp.draws).map fun addrs => addrs.sort (· ≤ ·)
  else
    let eligible := eligibleAddress inp.getStakeAddressUtxo [] nodeList
    let limit := castLimit nodeList.length
    let threshold := if eligible.length > limit then limit else eligible.length
    (getTargetIndexs threshold eligible inp.draws).map fun addrs => addrs.sort (· ≤ ·)

/-! ### A relay -/

/-- The loop of `InitFindeTarget`: pairs of indices around a place, moving apart. -/
def boundaries (k : ℕ) : ℕ → ℕ → ℕ → List (ℕ × ℕ)
  | 0, _, _ => []
  | times + 1, up, down =>
    if up ≠ down ∧ prev k up ≠ down ∧ next k down ≠ up then
      (up, down) :: boundaries k times (prev k up) (next k down)
    else []

/-- `InitFindeTarget`: `upperBoundary` and `lowerBoundary`, or `none` when the address is not in the list.
    The last place of the address counts. -/
def initFindeTarget (addr : Addr) (clist : List Addr) : Option (List (Addr × Addr)) :=
  let k := clist.length
  ((List.range k).reverse.find? fun i => clist[i]? == some addr).map fun i =>
    (boundaries k (k / 2) (prev k i) (next k i)).filterMap fun b =>
      match clist[b.1]?, clist[b.2]? with
      | some up, some down => some (up, down)
      | _, _ => none

/-- The loop over the boundaries: the block is sent to the nodes between the first pair that is in the
    table. -/
def sendBetween (defaultAddress : Addr) (cyclicNodeList : List Addr) : List (Addr × Addr) → ℤ × List Addr
  | [] => (0, [])
  | (up, down) :: rest =>
    if cyclicNodeList.isEmpty then (-1, [])
    else if up ∈ cyclicNodeList ∧ down ∈ cyclicNodeList then
      (0, (walk cyclicNodeList up down).filter (· ≠ defaultAddress))
    else sendBetween defaultAddress cyclicNodeList rest

/-- `HandleBroadcastMsg` on a message of type 1 whose version and block are accepted: what it returns, and
    the addresses it sends the block to (as type 2, which is not sent on). -/
def handleBroadcastMsg (defaultAddress : Addr) (nodeList castaddrs : List Addr) : ℤ × List Addr :=
  match initFindeTarget defaultAddress (castaddrs.insertionSort (· ≤ ·)) with
  | none => (-1, [])
  | some bounds => sendBetween defaultAddress (nodeList.insertionSort (· ≤ ·)) bounds

/-! ### The network -/

/-- The table of a node that knows all the others, in the order of the map. -/
def nodelistOf (nodes : Finset Addr) (self : Addr) : List Addr := (nodes.erase self).sort (· ≤ ·)

/-- The table of the sender, with its descriptors. -/
def castNodes (nodes : Finset Addr) (fd : Addr → ℤ) (sender : Addr) : List (CastNode Addr) :=
  (nodelistOf nodes sender).map fun addr => ⟨addr, fd addr⟩

/-- A node gets the block from the sender or from a relay. -/
def Receives (nodes : Finset Addr) (castaddrs : List Addr) (node : Addr) : Prop :=
  node ∈ castaddrs ∨
    ∃ relay ∈ castaddrs, node ∈ (handleBroadcastMsg relay (nodelistOf nodes relay) castaddrs).2

/-! ### What a relay sends -/

/-- Where a relay finds itself in the list of the message. -/
theorem initFindeTarget_of_getElem? {casts : List Addr} (hcasts : casts.Pairwise (· < ·)) {i : ℕ} {r : Addr}
    (hi : casts[i]? = some r) : initFindeTarget r casts =
      some ((boundaries casts.length (casts.length / 2) (prev casts.length i) (next casts.length i)).filterMap
        fun b => match casts[b.1]?, casts[b.2]? with
          | some up, some down => some (up, down)
          | _, _ => none) := by
  have hlt : i < casts.length := (List.getElem?_eq_some_iff.mp hi).1
  have hfind : (List.range casts.length).reverse.find? (fun j => casts[j]? == some r) = some i := by
    have hsome : ((List.range casts.length).reverse.find? fun j => casts[j]? == some r).isSome := by
      rw [List.find?_isSome]
      exact ⟨i, by simpa using hlt, by simp [hi]⟩
    obtain ⟨j, hj⟩ := Option.isSome_iff_exists.mp hsome
    have hjr : casts[j]? = some r := by simpa using List.find?_some hj
    have hjlt : j < casts.length := (List.getElem?_eq_some_iff.mp hjr).1
    have hnodup : casts.Nodup := hcasts.imp fun h => h.ne
    rw [hj, (List.getElem?_inj hjlt hnodup).mp (hjr.trans hi.symm)]
  simp only [initFindeTarget, hfind, Option.map_some]

/-- With up to three cast addresses the two neighbours of a relay meet, and there is no boundary. -/
theorem boundaries_of_le_three {k i : ℕ} (hi : i < k) (hk : k ≤ 3) :
    boundaries k (k / 2) (prev k i) (next k i) = [] := by
  interval_cases k <;> interval_cases i <;> rfl

/-- From four on the first boundary is made of the two neighbours. -/
theorem boundaries_of_four_le {k i : ℕ} (hi : i < k) (hk : 4 ≤ k) :
    ∃ rest, boundaries k (k / 2) (prev k i) (next k i) = (prev k i, next k i) :: rest := by
  obtain ⟨times, htimes⟩ : ∃ times, k / 2 = times + 1 := Nat.exists_eq_succ_of_ne_zero (by omega)
  rw [htimes, boundaries, if_pos (neighbours_apart hk hi)]
  exact ⟨_, rfl⟩

/-- A sorted list is left alone by `std::sort`. -/
theorem insertionSort_eq_of_sorted {l : List Addr} (hl : l.Pairwise (· < ·)) :
    l.insertionSort (· ≤ ·) = l :=
  List.Pairwise.insertionSort_eq (hl.imp fun h => h.le)

theorem nodelistOf_sorted (nodes : Finset Addr) (self : Addr) :
    (nodelistOf nodes self).Pairwise (· < ·) := (Finset.sortedLT_sort _).pairwise

@[simp] theorem mem_nodelistOf {nodes : Finset Addr} {self node : Addr} :
    node ∈ nodelistOf nodes self ↔ node ≠ self ∧ node ∈ nodes := by
  simp [nodelistOf]

/-- The addresses of a message: some of the nodes the sender knows. -/
structure CastList (nodes : Finset Addr) (sender : Addr) (casts : List Addr) : Prop where
  sorted : casts.Pairwise (· < ·)
  known : ∀ addr ∈ casts, addr ∈ nodes.erase sender

variable {nodes : Finset Addr} {sender : Addr} {casts : List Addr}

/-- Another node of the list is in the table of a relay. -/
theorem CastList.mem_nodelistOf (h : CastList nodes sender casts) {i j : ℕ} {relay other : Addr}
    (hrelay : casts[i]? = some relay) (hother : casts[j]? = some other) (hne : j ≠ i) :
    other ∈ nodelistOf nodes relay := by
  have hmem : other ∈ casts := List.mem_of_getElem? hother
  have hlt : j < casts.length := (List.getElem?_eq_some_iff.mp hother).1
  have hnodup : casts.Nodup := h.sorted.imp fun h => h.ne
  refine Net.mem_nodelistOf.mpr ⟨fun heq => hne ?_, Finset.mem_of_mem_erase (h.known other hmem)⟩
  exact (List.getElem?_inj hlt hnodup).mp (by rw [hother, hrelay, heq])

theorem CastList.up_mem (h : CastList nodes sender casts) (hlen : 4 ≤ casts.length) {i : ℕ}
    {relay up : Addr} (hrelay : casts[i]? = some relay)
    (hup : casts[prev casts.length i]? = some up) : up ∈ nodelistOf nodes relay := by
  have hlt : i < casts.length := (List.getElem?_eq_some_iff.mp hrelay).1
  refine h.mem_nodelistOf hrelay hup ?_
  rw [prev_eq hlt]
  split_ifs <;> omega

/-- Relays of a short list send nothing. -/
theorem handleBroadcastMsg_of_le_three (h : CastList nodes sender casts) (hlen : casts.length ≤ 3)
    {relay : Addr} (hrelay : relay ∈ casts) (nodeList : List Addr) :
    (handleBroadcastMsg relay nodeList casts).2 = [] := by
  obtain ⟨i, hi⟩ := List.mem_iff_getElem?.mp hrelay
  have hlt : i < casts.length := (List.getElem?_eq_some_iff.mp hi).1
  rw [handleBroadcastMsg, insertionSort_eq_of_sorted h.sorted, initFindeTarget_of_getElem? h.sorted hi,
    boundaries_of_le_three hlt hlen]
  rfl

/-- A relay of a longer list sends to everything between its two neighbours. -/
theorem handleBroadcastMsg_of_four_le (h : CastList nodes sender casts) (hlen : 4 ≤ casts.length) {i : ℕ}
    {relay up down : Addr} (hrelay : casts[i]? = some relay)
    (hup : casts[prev casts.length i]? = some up) (hdown : casts[next casts.length i]? = some down) :
    (handleBroadcastMsg relay (nodelistOf nodes relay) casts).2
      = (walk (nodelistOf nodes relay) up down).filter (· ≠ relay) := by
  have hlt : i < casts.length := (List.getElem?_eq_some_iff.mp hrelay).1
  obtain ⟨rest, hrest⟩ := boundaries_of_four_le hlt hlen
  have hupMem := h.up_mem hlen hrelay hup
  have hdownMem := h.mem_nodelistOf hrelay hdown (by rw [next_eq hlt]; split_ifs <;> omega)
  have hne : (nodelistOf nodes relay).isEmpty = false := by
    simpa using List.ne_nil_of_mem hupMem
  rw [handleBroadcastMsg, insertionSort_eq_of_sorted h.sorted, initFindeTarget_of_getElem? h.sorted hrelay,
    hrest, insertionSort_eq_of_sorted (nodelistOf_sorted nodes relay)]
  simp [hup, hdown, sendBetween, hne, hupMem, hdownMem]

/-! ### Who gets the block -/

theorem receives_of_four_le (h : CastList nodes sender casts) (hlen : 4 ≤ casts.length) {node : Addr}
    (hnode : node ∈ nodes) : Receives nodes casts node := by
  by_cases hcast : node ∈ casts
  · exact .inl hcast
  obtain ⟨i, relay, up, down, hrelay, hup, hdown, hbetween⟩ :=
    exists_neighbours_between h.sorted (by omega) hcast
  have hmem : relay ∈ casts := List.mem_of_getElem? hrelay
  have hne : node ≠ relay := fun heq => hcast (heq ▸ hmem)
  refine .inr ⟨relay, hmem, ?_⟩
  rw [handleBroadcastMsg_of_four_le h hlen hrelay hup hdown]
  have hwalk := mem_walk_of_between (nodelistOf_sorted nodes relay) (h.up_mem hlen hrelay hup)
    (mem_nodelistOf.mpr ⟨hne, hnode⟩) hbetween
  simpa [hne] using hwalk

/-- With up to three cast addresses only these get the block. -/
theorem receives_iff_of_le_three (h : CastList nodes sender casts) (hlen : casts.length ≤ 3) {node : Addr} :
    Receives nodes casts node ↔ node ∈ casts := by
  constructor
  · rintro (hnode | ⟨relay, hrelay, hnode⟩)
    · exact hnode
    · rw [handleBroadcastMsg_of_le_three h hlen hrelay] at hnode
      cases hnode
  · exact .inl

/-- Everybody gets the block exactly when there are at least four cast addresses, or all nodes are. -/
theorem receives_all_iff (h : CastList nodes sender casts) :
    (∀ node ∈ nodes, node ≠ sender → Receives nodes casts node) ↔
      4 ≤ casts.length ∨ casts.length = (nodes.erase sender).card := by
  have hcard : casts.toFinset.card = casts.length :=
    List.toFinset_card_of_nodup (h.sorted.imp fun h => h.ne)
  have hsub : casts.toFinset ⊆ nodes.erase sender := fun addr haddr =>
    h.known addr (List.mem_toFinset.mp haddr)
  rcases Nat.lt_or_ge casts.length 4 with hfew | hmany
  · constructor
    · intro hall
      right
      rw [← hcard]
      refine le_antisymm (Finset.card_le_card hsub) (Finset.card_le_card fun node hnode => ?_)
      obtain ⟨hne, hmem⟩ := Finset.mem_erase.mp hnode
      exact List.mem_toFinset.mpr ((receives_iff_of_le_three h (by omega)).mp (hall node hmem hne))
    · rintro (hmany | hall) node hnode hne
      · omega
      · have heq : casts.toFinset = nodes.erase sender :=
          Finset.eq_of_subset_of_card_le hsub (by omega)
        have hmem : node ∈ casts.toFinset := heq ▸ Finset.mem_erase.mpr ⟨hne, hnode⟩
        exact .inl (List.mem_toFinset.mp hmem)
  · exact iff_of_true (fun node hnode _ => receives_of_four_le h hmany hnode) (.inl hmany)

/-! ### What the sender chooses -/

omit [LinearOrder Addr] in
theorem eligibleAddress_sublist (getStakeAddressUtxo : Addr → Option (List Str)) :
    ∀ (nodeList : List (CastNode Addr)) (pledgeUtxoHashs : List Str),
      (eligibleAddress getStakeAddressUtxo pledgeUtxoHashs nodeList).Sublist nodeList := by
  intro nodeList
  induction nodeList with
  | nil => intro _; exact List.Sublist.refl _
  | cons node nodeList ih =>
    intro pledgeUtxoHashs
    rw [eligibleAddress]
    split
    · exact (ih _).cons_cons node
    · split
      · exact (ih _).cons node
      · exact (ih _).cons_cons node

/-- The loop of `getTargetIndexs` ends with as many addresses as asked for, all of them from the source. -/
theorem drawTargets_spec {num : ℕ} {source : List (CastNode Addr)} : ∀ {draws : List ℕ}
    {allAddresses addrs : Finset Addr}, drawTargets num source draws allAddresses = some addrs →
    allAddresses.card ≤ num → (∀ addr ∈ allAddresses, addr ∈ source.map (·.address)) →
    addrs.card = num ∧ ∀ addr ∈ addrs, addr ∈ source.map (·.address) := by
  intro draws
  induction draws with
  | nil =>
    intro allAddresses addrs h hcard hsub
    rw [drawTargets] at h
    split at h
    · cases h
      exact ⟨by omega, hsub⟩
    · cases h
  | cons index draws ih =>
    intro allAddresses addrs h hcard hsub
    rw [drawTargets] at h
    split at h
    · cases h
      exact ⟨by omega, hsub⟩
    · rename_i hmore
      split at h
      · cases h
      · rename_i node hnode
        refine ih h ?_ ?_
        · have := Finset.card_insert_le node.address allAddresses
          omega
        · intro addr haddr
          rcases Finset.mem_insert.mp haddr with rfl | haddr
          · exact List.mem_map_of_mem (List.mem_of_getElem? hnode)
          · exact hsub addr haddr

theorem getTargetIndexs_spec {num : ℕ} {source : List (CastNode Addr)} {draws : List ℕ}
    {addrs : Finset Addr} (h : getTargetIndexs num source draws = some addrs)
    (hnum : num ≤ source.length) (hnodup : (source.map (·.address)).Nodup) :
    addrs.card = num ∧ ∀ addr ∈ addrs, addr ∈ source.map (·.address) := by
  rw [getTargetIndexs, if_neg (by omega)] at h
  split at h
  · rename_i hall
    cases h
    refine ⟨?_, fun addr haddr => List.mem_toFinset.mp haddr⟩
    rw [List.toFinset_card_of_nodup hnodup, List.length_map, hall]
  · exact drawTargets_spec h (by simp) (by simp)

theorem four_le_castLimit (listSize : ℕ) : 4 ≤ castLimit listSize := by
  rw [castLimit, g_broadcastThreshold]
  split
  · have hroot : 30 ≤ Nat.sqrt (1 + 4 * listSize) := Nat.le_sqrt.mpr (by omega)
    rw [getRootOfEquation]
    omega
  · decide

variable {fd : Addr → ℤ}

@[simp] theorem castNodes_address : (castNodes nodes fd sender).map (·.address) = nodelistOf nodes sender := by
  simp [castNodes, Function.comp_def]

@[simp] theorem castNodes_length : (castNodes nodes fd sender).length = (nodes.erase sender).card := by
  simp [castNodes, nodelistOf]

/-- Addresses chosen from part of the table make a list of the message. -/
theorem castList_of_targets {num : ℕ} {source : List (CastNode Addr)} {draws : List ℕ}
    {addrs : Finset Addr} (hsource : source.Sublist (castNodes nodes fd sender))
    (h : getTargetIndexs num source draws = some addrs) (hnum : num ≤ source.length) :
    CastList nodes sender (addrs.sort (· ≤ ·)) ∧ (addrs.sort (· ≤ ·)).length = num := by
  have hmap : (source.map (·.address)).Sublist (nodelistOf nodes sender) := by
    have hsub := hsource.map (·.address)
    rwa [castNodes_address] at hsub
  have hnodup : (source.map (·.address)).Nodup :=
    ((nodelistOf_sorted nodes sender).imp fun h => h.ne).sublist hmap
  obtain ⟨hcard, hsub⟩ := getTargetIndexs_spec h hnum hnodup
  refine ⟨⟨(Finset.sortedLT_sort _).pairwise, ?_⟩, by simp [hcard]⟩
  intro addr haddr
  have hmem := hmap.subset (hsub addr (by simpa using haddr))
  exact Finset.mem_erase.mpr (mem_nodelistOf.mp hmem)

/-- How many of the nodes the sender takes for staked. -/
def eligibleCount (inp : CastInputs Addr) (nodeList : List (CastNode Addr)) : ℕ :=
  (eligibleAddress inp.getStakeAddressUtxo [] nodeList).length

/-- In a network where everybody knows everybody, a block that is broadcast reaches everybody exactly when
    stakes do not matter yet, or at least four of the other nodes are staked, or all of them are. -/
theorem broadcast_reaches_iff (inp : CastInputs Addr) (height : ℕ)
    (h : broadBroadcastMessage inp height (castNodes nodes fd sender) = some casts) :
    (∀ node ∈ nodes, node ≠ sender → Receives nodes casts node) ↔
      height < inp.kMinUnstakeHeight ∨ 4 ≤ eligibleCount inp (castNodes nodes fd sender) ∨
        eligibleCount inp (castNodes nodes fd sender) = (nodes.erase sender).card := by
  rw [broadBroadcastMessage] at h
  simp only at h
  split at h
  · cases h
  split at h
  · cases h
  split at h
  · rename_i hheight
    refine iff_of_true ?_ (.inl hheight)
    split at h
    · -- the table is sent to as a whole
      cases h
      intro node hnode hne
      exact .inl (by simp [hnode, hne])
    · rename_i hmany
      obtain ⟨addrs, haddrs, rfl⟩ := Option.map_eq_some_iff.mp h
      obtain ⟨hcast, hlen⟩ := castList_of_targets (List.Sublist.refl _) haddrs (by omega)
      rw [g_broadcastThreshold] at hlen
      exact fun node hnode _ => receives_of_four_le hcast (by omega) hnode
  · rename_i hheight
    obtain ⟨addrs, haddrs, rfl⟩ := Option.map_eq_some_iff.mp h
    have hlimit := four_le_castLimit (castNodes nodes fd sender).length
    obtain ⟨hcast, hlen⟩ := castList_of_targets
      (eligibleAddress_sublist inp.getStakeAddressUtxo _ []) haddrs (by split <;> omega)
    rw [receives_all_iff hcast, hlen, eligibleCount]
    split
    · -- more staked nodes than are sent to
      exact iff_of_true (.inl hlimit) (.inr (.inl (by omega)))
    · simp [hheight]

/-- The table of a node in a network given by a sorted list. -/
theorem nodelistOf_eq {l : List Addr} (hl : l.Pairwise (· < ·)) (h : nodes.erase sender = l.toFinset) :
    nodelistOf nodes sender = l := by
  rw [nodelistOf, h, List.toFinset_sort (· ≤ ·) (hl.imp fun h => h.ne)]
  exact hl.imp fun h => h.le

/-- Where all staked nodes are sent to, the message names them. -/
theorem broadBroadcastMessage_allStaked (inp : CastInputs Addr) {height : ℕ}
    {nodeList : List (CastNode Addr)} (hsorted : (nodeList.map (·.address)).Pairwise (· < ·))
    (hne : nodeList ≠ []) (hconnected : nodeList.countP (fun node => node.fd == -1) = 0)
    (hheight : inp.kMinUnstakeHeight ≤ height)
    (hfew : (eligibleAddress inp.getStakeAddressUtxo [] nodeList).length ≤ castLimit nodeList.length) :
    broadBroadcastMessage inp height nodeList
      = some ((eligibleAddress inp.getStakeAddressUtxo [] nodeList).map (·.address)) := by
  have hsub := (eligibleAddress_sublist inp.getStakeAddressUtxo nodeList []).map (·.address)
  have hpair := hsorted.sublist hsub
  have hsort := (List.toFinset_sort (· ≤ ·) (hpair.imp fun h => h.ne)).mpr (hpair.imp fun h => h.le)
  rw [broadBroadcastMessage, if_neg (by simpa using hne), if_neg (by omega), if_neg (by omega)]
  simp only [gt_iff_lt, Nat.not_lt.mpr hfew, if_false, getTargetIndexs, lt_irrefl, if_true,
    Option.map_some, hsort]

/-- Five other nodes, the last four of them staked: the first one gets the block from relays. -/
theorem broadcast_reaches_fourStaked :
    let nodes : Finset String := {"a", "b", "c", "d", "e", "f"}
    let inp : CastInputs String :=
      { kMinUnstakeHeight := 5, getStakeAddressUtxo := fun addr => if addr = "b" then none else some [[1]]
        draws := [] }
    broadBroadcastMessage inp 9 (castNodes nodes (fun _ => 3) "a") = some ["c", "d", "e", "f"] ∧
      ∀ node ∈ nodes, node ≠ "a" → Receives nodes ["c", "d", "e", "f"] node := by
  intro nodes inp
  have htable : castNodes nodes (fun _ => 3) "a"
      = ["b", "c", "d", "e", "f"].map fun addr => (⟨addr, 3⟩ : CastNode String) := by
    rw [castNodes, nodelistOf_eq (l := ["b", "c", "d", "e", "f"]) (by decide) (by decide)]
  have hcast : broadBroadcastMessage inp 9 (castNodes nodes (fun _ => 3) "a")
      = some ["c", "d", "e", "f"] := by
    rw [htable]
    exact broadBroadcastMessage_allStaked inp (by decide) (by decide) (by decide) (by decide) (by decide)
  refine ⟨hcast, (broadcast_reaches_iff inp 9 hcast).mpr (.inr (.inl ?_))⟩
  rw [htable]
  decide

/-- One of two other nodes is staked: it alone gets the block, and sends it to nobody. -/
theorem broadcast_reaches_fails_oneStaked :
    ¬ ∀ (nodes : Finset String) (fd : String → ℤ) (sender : String) (inp : CastInputs String) (height : ℕ)
      (casts : List String), broadBroadcastMessage inp height (castNodes nodes fd sender) = some casts →
        ∀ node ∈ nodes, node ≠ sender → Receives nodes casts node := by
  intro h
  let inp : CastInputs String :=
    { kMinUnstakeHeight := 5, getStakeAddressUtxo := fun addr => if addr = "c" then some [[1]] else none
      draws := [] }
  have htable : castNodes {"a", "b", "c"} (fun _ => 3) "a"
      = ["b", "c"].map fun addr => (⟨addr, 3⟩ : CastNode String) := by
    rw [castNodes, nodelistOf_eq (l := ["b", "c"]) (by decide) (by decide)]
  have hcast : broadBroadcastMessage inp 9 (castNodes {"a", "b", "c"} (fun _ => 3) "a") = some ["c"] := by
    rw [htable]
    exact broadBroadcastMessage_allStaked inp (by decide) (by decide) (by decide) (by decide) (by decide)
  have hlist : CastList {"a", "b", "c"} "a" ["c"] := ⟨by decide, by decide⟩
  have hall := h {"a", "b", "c"} (fun _ => 3) "a" inp 9 ["c"] hcast "b" (by decide) (by decide)
  rw [receives_iff_of_le_three hlist (by decide)] at hall
  exact absurd hall (by decide)

end Tfs.Net
