import Tfs.Lib.Ring
import Tfs.Lib.Runs

/-! The cyclic list (`utils/cycliclist.hpp`).

    The nodes of a list are linked to a ring, and the list knows its first and its last node. Pushing
    a node links it in between those two; removing a node links its neighbours to each other. What
    becomes of the first, the last and the number of the nodes is written apart from the links.

    A node is reached by its address, and `new` gives one that was not used before. What reads through
    a null pointer, or one to a node that is deleted, is `none` here. -/

namespace Tfs.Utils

/-- A pointer to a node. -/
abbrev NodePtr := Option ℕ

/-- `Cycliclist`, with the nodes by their address: what is in those that are there, and their links. -/
structure Cycliclist (α : Type) where
  data : ℕ → Option α
  pre : ℕ → NodePtr
  next : ℕ → NodePtr
  fresh : ℕ
  unused : ∀ a, fresh ≤ a → data a = none
  head : NodePtr
  last : NodePtr
  mSize : Int32

namespace Cycliclist
variable {α : Type}

/-- A new list. -/
def empty : Cycliclist α := ⟨fun _ => none, fun _ => none, fun _ => none, 0, fun _ _ => rfl, none, none, 0⟩

/-! ### Nodes -/

/-- The node a pointer leads to. -/
def deref (s : Cycliclist α) (p : NodePtr) : Option ℕ := p.filter fun a => (s.data a).isSome

/-- `new Node<T>(value)`, at the address `fresh`. -/
def new (s : Cycliclist α) (value : α) : Cycliclist α :=
  { s with
    data := Function.update s.data s.fresh (some value)
    pre := Function.update s.pre s.fresh none
    next := Function.update s.next s.fresh none
    fresh := s.fresh + 1
    unused := fun a ha => by rw [Function.update_of_ne (by omega), s.unused a (by omega)] }

/-- `p->next_`. -/
def getNext (s : Cycliclist α) (p : NodePtr) : Option NodePtr := (s.deref p).map s.next

/-- `p->pre`. -/
def getPre (s : Cycliclist α) (p : NodePtr) : Option NodePtr := (s.deref p).map s.pre

/-- `p->next_ = q`. -/
def setNext (s : Cycliclist α) (p q : NodePtr) : Option (Cycliclist α) :=
  (s.deref p).map fun a => { s with next := Function.update s.next a q }

/-- `p->pre = q`. -/
def setPre (s : Cycliclist α) (p q : NodePtr) : Option (Cycliclist α) :=
  (s.deref p).map fun a => { s with pre := Function.update s.pre a q }

/-- There is no node at an address any more. -/
def erase (s : Cycliclist α) (a : ℕ) : Cycliclist α :=
  { s with
    data := Function.update s.data a none
    unused := fun b hb => by
      by_cases hab : b = a
      · rw [hab, Function.update_self]
      · rw [Function.update_of_ne hab, s.unused b hb] }

/-- `delete p`. -/
def delete (s : Cycliclist α) (p : NodePtr) : Option (Cycliclist α) := (s.deref p).map s.erase

/-! ### Operations -/

/-- `push_front`. -/
def pushFront (s : Cycliclist α) (value : α) : Option (Cycliclist α) := do
  let node := some s.fresh
  let s := s.new value
  if s.head = none then
    let s := { s with head := node }
    let s ← s.setNext node node
    let s := { s with last := node }
    let s ← s.setPre node node
    some { s with mSize := s.mSize + 1 }
  else
    let tempHead := s.head
    let s := { s with head := node }
    let s ← s.setNext node tempHead
    let pre ← s.getPre tempHead
    let s ← s.setPre node pre
    let s ← s.setPre tempHead node
    let s ← s.setNext s.last node
    some { s with mSize := s.mSize + 1 }

/-- `push_back`. -/
def pushBack (s : Cycliclist α) (value : α) : Option (Cycliclist α) := do
  let node := some s.fresh
  let s := s.new value
  if s.head = none then
    let s := { s with head := node, last := node }
    let s ← s.setPre node node
    let s ← s.setNext node node
    some { s with mSize := s.mSize + 1 }
  else
    let tempLast := s.last
    let next ← s.getNext tempLast
    let s ← s.setNext node next
    let s ← s.setPre node tempLast
    let s ← s.setNext tempLast node
    let s := { s with last := node }
    let s ← s.setPre s.head node
    some { s with mSize := s.mSize + 1 }

/-- The loops of the iterator's `operator+` and `operator-`: so many links are followed. -/
def follow (s : Cycliclist α) (link : ℕ → NodePtr) : ℕ → NodePtr → Option NodePtr
  | 0, newPointer => some newPointer
  | times + 1, newPointer => do
    let a ← s.deref newPointer
    s.follow link times (link a)

/-- `iter + value`. -/
def iterAdd (s : Cycliclist α) (iter : NodePtr) (value : Int32) : Option NodePtr :=
  if iter = none then some none
  else if 0 < value.toInt then s.follow s.next value.toInt.toNat iter
  else s.follow s.pre (-value.toInt).toNat iter

/-- `iter - value`. -/
def iterSub (s : Cycliclist α) (iter : NodePtr) (value : Int32) : Option NodePtr :=
  if iter = none then some none
  else if 0 < value.toInt then s.follow s.pre value.toInt.toNat iter
  else s.follow s.next (-value.toInt).toNat iter

/-- `operator[]`. -/
def index (s : Cycliclist α) (i : Int32) : Option α := do
  let ite ← s.iterAdd s.head i
  let a ← s.deref ite
  s.data a

/-- `remove(iter)`: the iterator that is returned, and the list. -/
def remove (s : Cycliclist α) (iter : NodePtr) : Option (NodePtr × Cycliclist α) :=
  if s.head = none then some (none, s)
  else do
    let tempNode := iter
    let nextNode ← s.getNext tempNode
    let s := { s with head := if iter = s.head then nextNode else s.head }
    let pre ← s.getPre tempNode
    let s := { s with last := if iter = s.last then pre else s.last }
    let s ← s.setNext pre nextNode
    let s ← s.setPre nextNode pre
    let s ← s.delete tempNode
    let s := { s with mSize := s.mSize - 1 }
    if s.mSize = 0 then some (none, s) else some (nextNode, s)

/-- `lamda(iter)`: it looks at what is in the node, or is told that there is none. -/
def ask (s : Cycliclist α) (lamda : Option α → Bool) (iter : NodePtr) : Option Bool :=
  if iter = none then some (lamda none) else (s.deref iter).map fun a => lamda (s.data a)

/-- The body of both `if`s in `remove(lamda)`: what is removed is followed by what is returned. -/
def removeHere (s : Cycliclist α) (ite : NodePtr) : Option (NodePtr × Cycliclist α) := do
  let nextNode ← s.getNext ite
  let r ← s.remove ite
  some (nextNode, r.2)

/-- The loop of `remove(lamda)`. -/
def removeFrom (s : Cycliclist α) (lamda : Option α → Bool) : ℕ → NodePtr →
    Option (NodePtr × Cycliclist α)
  | 0, _ => none
  | times + 1, ite => do
    let found ← s.ask lamda ite
    if found then s.removeHere ite
    else if ite = s.last then some (none, s)
    else if ite = none then s.removeFrom lamda times none
    else s.removeFrom lamda times (← s.getNext ite)

/-- `remove(lamda)`; there are fewer nodes than addresses. -/
def removeIf (s : Cycliclist α) (lamda : Option α → Bool) : Option (NodePtr × Cycliclist α) :=
  s.removeFrom lamda (s.fresh + 1) s.head

/-- The loop of `clear`. -/
def deleteFrom (s : Cycliclist α) : ℕ → NodePtr → Option (Cycliclist α)
  | 0, _ => none
  | _ + 1, none => some s
  | times + 1, some node => do
    let following ← s.getNext (some node)
    let s ← s.delete (some node)
    s.deleteFrom times following

/-- `clear`. -/
def clear (s : Cycliclist α) : Option (Cycliclist α) :=
  if s.head = none then some s
  else do
    let nextNode ← s.getNext s.head
    let s ← s.setNext s.head none
    s.deleteFrom (s.fresh + 1) nextNode

/-! ### Rings of nodes -/

/-- The nodes of `s`, from the first to the last, make a ring and hold the values `vs`; there are no
    others. -/
structure RingOf (s : Cycliclist α) (nodes : List ℕ) (vs : List α) : Prop where
  ring : IsRing s.next s.pre nodes
  data : nodes.map s.data = vs.map some
  only : ∀ a, (s.data a).isSome → a ∈ nodes
  head : s.head = nodes.head?
  last : s.last = nodes.getLast?

section Rings

variable {s : Cycliclist α} {nodes : List ℕ} {vs : List α}

theorem deref_some {a : ℕ} (h : (s.data a).isSome) : s.deref (some a) = some a := by
  rw [deref, Option.filter_some, if_pos h]

theorem RingOf.length_eq (h : RingOf s nodes vs) : nodes.length = vs.length := by
  simpa using congrArg List.length h.data

theorem RingOf.isSome (h : RingOf s nodes vs) {a : ℕ} (ha : a ∈ nodes) : (s.data a).isSome := by
  have hmem := List.mem_map_of_mem (f := s.data) ha
  rw [h.data] at hmem
  obtain ⟨v, -, hv⟩ := List.mem_map.mp hmem
  rw [← hv, Option.isSome_some]

theorem RingOf.fresh_notMem (h : RingOf s nodes vs) : s.fresh ∉ nodes := fun hmem => by
  have hsome := h.isSome hmem
  rw [s.unused s.fresh le_rfl] at hsome
  cases hsome

/-- The value in the node at a position. -/
theorem RingOf.data_getElem (h : RingOf s nodes vs) {i : ℕ} (hi : i < nodes.length) :
    s.data nodes[i] = vs[i]? := by
  have hget := congrArg (fun l => l[i]?) h.data
  simp only [List.getElem?_map, List.getElem?_eq_getElem hi, Option.map_some] at hget
  rw [List.getElem?_eq_getElem (h.length_eq ▸ hi)] at hget ⊢
  exact Option.some.inj hget

/-- A node that is linked in between the last and the first one. -/
theorem RingOf.link (h : RingOf s nodes vs) (hne : nodes ≠ []) {next pre : ℕ → NodePtr}
    (hnext : next = Function.update (Function.update s.next s.fresh nodes.head?) (nodes.getLast hne) (some s.fresh))
    (hpre : pre = Function.update (Function.update s.pre s.fresh nodes.getLast?) (nodes.head hne) (some s.fresh)) :
    IsRing next pre (s.fresh :: nodes) := by
  have hnot := h.fresh_notMem
  have hother : ∀ a ∈ nodes, a ≠ s.fresh := fun a ha heq => hnot (heq ▸ ha)
  have hlast := hother _ (List.getLast_mem hne)
  have hhead := hother _ (List.head_mem hne)
  subst hnext hpre
  refine h.ring.cons hne hnot ?_ ?_ ?_ ?_ (fun a ha hdiff => ?_) fun a ha hdiff => ?_
  · rw [Function.update_of_ne hlast.symm, Function.update_self]
  · rw [Function.update_of_ne hhead.symm, Function.update_self]
  · rw [Function.update_self]
  · rw [Function.update_self]
  · rw [Function.update_of_ne hdiff, Function.update_of_ne (hother a ha)]
  · rw [Function.update_of_ne hdiff, Function.update_of_ne (hother a ha)]

/-- What `new` does to the values. -/
theorem RingOf.data_new (h : RingOf s nodes vs) (value : α) :
    nodes.map (Function.update s.data s.fresh (some value)) = vs.map some := by
  rw [← h.data]
  refine List.map_congr_left fun a ha => ?_
  have hne : a ≠ s.fresh := fun heq => h.fresh_notMem (heq ▸ ha)
  rw [Function.update_of_ne hne]

/-- No address has a node after `new` but that of the new one. -/
theorem RingOf.only_new (h : RingOf s nodes vs) {value : α} {a : ℕ}
    (ha : (Function.update s.data s.fresh (some value) a).isSome) : a = s.fresh ∨ a ∈ nodes := by
  by_cases heq : a = s.fresh
  · exact .inl heq
  · rw [Function.update_of_ne heq] at ha
    exact .inr (h.only a ha)

/-- The first node of all is linked to itself. -/
theorem RingOf.first (h : RingOf s [] vs) (value : α) {s' : Cycliclist α}
    (hdata : s'.data = Function.update s.data s.fresh (some value))
    (hnext : s'.next = Function.update s.next s.fresh (some s.fresh))
    (hpre : s'.pre = Function.update s.pre s.fresh (some s.fresh))
    (hhead : s'.head = some s.fresh) (hlast : s'.last = some s.fresh) : RingOf s' [s.fresh] [value] where
  ring := IsRing.singleton (by rw [hnext, Function.update_self]) (by rw [hpre, Function.update_self])
  data := by rw [hdata, List.map_singleton, Function.update_self, List.map_singleton]
  only a ha := by
    rw [hdata] at ha
    exact List.mem_singleton.mpr ((h.only_new ha).resolve_right List.not_mem_nil)
  head := hhead
  last := hlast

/-- The ends of a ring are there, and not where `new` puts a node. -/
theorem RingOf.ends (h : RingOf s nodes vs) (hne : nodes ≠ []) :
    (s.head = some (nodes.head hne) ∧ (s.data (nodes.head hne)).isSome ∧ nodes.head hne ≠ s.fresh) ∧
      s.last = some (nodes.getLast hne) ∧ (s.data (nodes.getLast hne)).isSome ∧
        nodes.getLast hne ≠ s.fresh := by
  refine ⟨⟨h.head.trans (List.head?_eq_some_head hne), h.isSome (List.head_mem hne), fun heq => ?_⟩,
    h.last.trans (List.getLast?_eq_some_getLast hne), h.isSome (List.getLast_mem hne), fun heq => ?_⟩
  · exact h.fresh_notMem (heq ▸ List.head_mem hne)
  · exact h.fresh_notMem (heq ▸ List.getLast_mem hne)

/-- What `push_front` leaves. -/
theorem RingOf.pushFront (h : RingOf s nodes vs) (value : α) : ∃ s', s.pushFront value = some s' ∧
    RingOf s' (s.fresh :: nodes) (value :: vs) ∧ s'.mSize = s.mSize + 1 := by
  by_cases hne : nodes = []
  · subst hne
    obtain rfl : vs = [] := List.length_eq_zero_iff.mp h.length_eq.symm
    have hhead : s.head = none := h.head
    have hrun : s.pushFront value = some { s.new value with
        next := Function.update s.next s.fresh (some s.fresh)
        pre := Function.update s.pre s.fresh (some s.fresh)
        head := some s.fresh, last := some s.fresh, mSize := s.mSize + 1 } := by
      simp [Cycliclist.pushFront, hhead, new, setNext, setPre, deref, Option.filter_some]
    exact ⟨_, hrun, h.first value rfl rfl rfl rfl rfl, rfl⟩
  · obtain ⟨⟨hhead, hh, hh'⟩, hlast, hz, hz'⟩ := h.ends hne
    have hrun : s.pushFront value = some { s.new value with
        next := Function.update (Function.update s.next s.fresh nodes.head?) (nodes.getLast hne)
          (some s.fresh)
        pre := Function.update (Function.update s.pre s.fresh nodes.getLast?) (nodes.head hne)
          (some s.fresh)
        head := some s.fresh, mSize := s.mSize + 1 } := by
      simp [Cycliclist.pushFront, hhead, hlast, new, setNext, setPre, getPre, deref, Option.filter_some,
        Function.update_of_ne hh', Function.update_of_ne hz', hh, hz, (h.ring.links_ends hne).2,
        List.head?_eq_some_head hne]
    refine ⟨_, hrun, ⟨h.link hne rfl rfl, ?_, fun a ha => ?_, rfl, ?_⟩, rfl⟩
    · rw [List.map_cons, List.map_cons, ← h.data_new value]
      exact congrArg (· :: _) (Function.update_self ..)
    · exact List.mem_cons.mpr (h.only_new ha)
    · rw [List.getLast?_cons, List.getLast?_eq_some_getLast hne, Option.getD_some]
      exact hlast

/-- What `push_back` leaves. -/
theorem RingOf.pushBack (h : RingOf s nodes vs) (value : α) : ∃ s', s.pushBack value = some s' ∧
    RingOf s' (nodes ++ [s.fresh]) (vs ++ [value]) ∧ s'.mSize = s.mSize + 1 := by
  by_cases hne : nodes = []
  · subst hne
    obtain rfl : vs = [] := List.length_eq_zero_iff.mp h.length_eq.symm
    have hhead : s.head = none := h.head
    have hrun : s.pushBack value = some { s.new value with
        next := Function.update s.next s.fresh (some s.fresh)
        pre := Function.update s.pre s.fresh (some s.fresh)
        head := some s.fresh, last := some s.fresh, mSize := s.mSize + 1 } := by
      simp [Cycliclist.pushBack, hhead, new, setNext, setPre, deref, Option.filter_some]
    exact ⟨_, hrun, h.first value rfl rfl rfl rfl rfl, rfl⟩
  · obtain ⟨⟨hhead, hh, hh'⟩, hlast, hz, hz'⟩ := h.ends hne
    have hrun : s.pushBack value = some { s.new value with
        next := Function.update (Function.update s.next s.fresh nodes.head?) (nodes.getLast hne)
          (some s.fresh)
        pre := Function.update (Function.update s.pre s.fresh nodes.getLast?) (nodes.head hne)
          (some s.fresh)
        last := some s.fresh, mSize := s.mSize + 1 } := by
      simp [Cycliclist.pushBack, hhead, hlast, new, setNext, setPre, getNext, deref, Option.filter_some,
        Function.update_of_ne hh', Function.update_of_ne hz', hh, hz, (h.ring.links_ends hne).1,
        List.getLast?_eq_some_getLast hne]
    -- the same ring as with the node in front, begun behind it
    have hring := (h.link hne rfl rfl).rotate 1
    rw [List.rotate_cons_succ, List.rotate_zero] at hring
    refine ⟨_, hrun, ⟨hring, ?_, fun a ha => ?_, ?_, ?_⟩, rfl⟩
    · rw [List.map_append, List.map_append, ← h.data_new value, List.map_singleton, List.map_singleton]
      exact congrArg (fun v => _ ++ [v]) (Function.update_self ..)
    · exact List.mem_append.mpr ((h.only_new ha).symm.imp_right List.mem_singleton.mpr)
    · rw [List.head?_append_of_ne_nil _ hne]
      exact h.head
    · rw [List.getLast?_concat]

/-! ### Indices -/

/-- Links that lead from the node at `i` to the one at `g i` are followed by counting. -/
theorem RingOf.follow_eq (h : RingOf s nodes vs) {link : ℕ → NodePtr} {g : ℕ → ℕ}
    (hlink : ∀ i (hi : i < nodes.length), link nodes[i] = nodes[g i]?)
    (hg : ∀ {i}, i < nodes.length → g i < nodes.length) : ∀ (times : ℕ) {i : ℕ} (hi : i < nodes.length),
      s.follow link times (some nodes[i]) = some nodes[g^[times] i]?
  | 0, i, hi => by rw [follow, Function.iterate_zero, id, List.getElem?_eq_getElem hi]
  | times + 1, i, hi => by
    rw [follow, deref_some (h.isSome (List.getElem_mem hi)), Option.bind_eq_bind, Option.bind_some,
      hlink i hi,
      List.getElem?_eq_getElem (hg hi), h.follow_eq hlink hg times (hg hi), Function.iterate_succ_apply]

/-- `iter + value` and `iter - value` are steps around the circle. -/
theorem RingOf.iterAdd_eq (h : RingOf s nodes vs) {i : ℕ} (hi : i < nodes.length) (value : Int32) :
    s.iterAdd (some nodes[i]) value = some nodes[Cyclic.stepBy nodes.length value.toInt i]? ∧
      s.iterSub (some nodes[i]) value = some nodes[Cyclic.stepBy nodes.length (-value.toInt) i]? := by
  have hnext := h.follow_eq h.ring.next_eq Cyclic.next_lt
  have hprev := h.follow_eq h.ring.prev_eq Cyclic.prev_lt
  rw [iterAdd, iterSub, if_neg (Option.some_ne_none _), if_neg (Option.some_ne_none _), Cyclic.stepBy,
    Cyclic.stepBy, neg_neg]
  rcases lt_trichotomy value.toInt 0 with hneg | hzero | hpos
  · rw [if_neg (by omega), if_neg (by omega), if_neg (by omega), if_pos (by omega)]
    exact ⟨hprev _ hi, hnext _ hi⟩
  · rw [hzero]
    exact ⟨hprev 0 hi, hnext 0 hi⟩
  · rw [if_pos hpos, if_pos hpos, if_pos hpos.le, if_neg (by omega)]
    exact ⟨hnext _ hi, hprev _ hi⟩

/-- `operator[]` counts around the circle. -/
theorem RingOf.index_eq (h : RingOf s nodes vs) (i : Int32) :
    s.index i = vs[(i.toInt % vs.length).toNat]? := by
  rcases Nat.eq_zero_or_pos nodes.length with hlen | hpos
  · obtain rfl := List.length_eq_zero_iff.mp hlen
    obtain rfl : vs = [] := List.length_eq_zero_iff.mp h.length_eq.symm
    have hhead : s.head = none := h.head
    rw [index, hhead, iterAdd, if_pos rfl]
    rfl
  · have hhead : s.head = some nodes[0] := by
      rw [h.head, List.head?_eq_getElem?, List.getElem?_eq_getElem hpos]
    have hlt := Cyclic.stepBy_lt hpos i.toInt
    have hstep := Cyclic.stepBy_eq hpos i.toInt
    rw [Nat.cast_zero, zero_add] at hstep
    rw [index, hhead, (h.iterAdd_eq hpos i).1, List.getElem?_eq_getElem hlt, Option.bind_eq_bind,
      Option.bind_some, deref_some (h.isSome (List.getElem_mem hlt)), Option.bind_eq_bind, Option.bind_some,
      h.data_getElem hlt, ← h.length_eq, ← hstep, Int.toNat_natCast]

/-- Indices in a row lead to different nodes. -/
theorem RingOf.iterAdd_nodup (h : RingOf s nodes vs) (first : Int32) {k : ℕ} (hk : k ≤ vs.length)
    (hlast : first.toInt + k ≤ 2 ^ 31) :
    ((List.range k).map fun j : ℕ => s.iterAdd s.head (Int32.ofInt (first.toInt + j))).Nodup := by
  rcases Nat.eq_zero_or_pos k with rfl | hpos
  · exact List.nodup_nil
  have hlen : 0 < nodes.length := by
    rw [h.length_eq]
    omega
  have hhead : s.head = some nodes[0] := by
    rw [h.head, List.head?_eq_getElem?, List.getElem?_eq_getElem hlen]
  refine (List.nodup_map_iff_inj_on List.nodup_range).mpr fun a ha b hb heq => ?_
  have hint : ∀ j, j < k → (Int32.ofInt (first.toInt + j)).toInt = first.toInt + j := fun j hj => by
    have hlow := first.le_toInt
    exact Int32.toInt_ofInt_of_le (by omega) (by omega)
  have ha := List.mem_range.mp ha
  have hb := List.mem_range.mp hb
  have hlt := fun j => Cyclic.stepBy_lt hlen (first.toInt + j)
  rw [hhead, (h.iterAdd_eq hlen _).1, (h.iterAdd_eq hlen _).1, hint a ha, hint b hb,
    List.getElem?_eq_getElem (hlt a), List.getElem?_eq_getElem (hlt b)] at heq
  have hpos := h.ring.nodup.getElem_inj_iff.mp (Option.some.inj (Option.some.inj heq))
  exact Cyclic.stepBy_inj hlen (h.length_eq ▸ hk) first.toInt ha hb hpos

/-! ### Removing -/

/-- The first node gives way to the one behind it, in the ring, where it is taken out. -/
theorem head?_removed {front back : List ℕ} {a : ℕ} (ha : a ∉ front) :
    (if some a = (front ++ a :: back).head? then (back ++ front).head? else (front ++ a :: back).head?) =
      (front ++ back).head? := by
  cases front with
  | nil => rw [List.nil_append, List.head?_cons, if_pos rfl, List.append_nil, List.nil_append]
  | cons b front =>
    have hab : some a ≠ some b := fun heq => ha (Option.some.inj heq ▸ List.mem_cons_self)
    rw [List.cons_append, List.head?_cons, if_neg hab, List.cons_append, List.head?_cons]

/-- The last node gives way to the one before it, where it is taken out. -/
theorem getLast?_removed {front back : List ℕ} {a : ℕ} (ha : a ∉ back) :
    (if some a = (front ++ a :: back).getLast? then (back ++ front).getLast?
      else (front ++ a :: back).getLast?) = (front ++ back).getLast? := by
  have hturned := @head?_removed back.reverse front.reverse a (List.mem_reverse.not.mpr ha)
  simp only [← List.head?_reverse, List.reverse_append, List.reverse_cons, List.append_assoc,
    List.singleton_append]
  exact hturned

/-- A node that is not the only one is removed. -/
theorem RingOf.remove {front back : List ℕ} {a : ℕ} (h : RingOf s (front ++ a :: back) vs)
    (hne : back ++ front ≠ []) : ∃ p s', s.remove (some a) = some (p, s') ∧
      RingOf s' (front ++ back) (vs.eraseIdx front.length) ∧ s'.mSize = s.mSize - 1 := by
  have hanot : a ∉ front ++ back := (List.nodup_cons.mp (List.perm_middle.nodup_iff.mp h.ring.nodup)).1
  have hdiff : ∀ b ∈ front ++ back, b ≠ a := fun b hb heq => hanot (heq ▸ hb)
  have hturned := h.ring.rotate front.length
  rw [List.rotate_append_length_eq, List.cons_append] at hturned
  obtain ⟨hnext, hpre⟩ := hturned.links_head hne
  have hhead : s.head ≠ none := by
    rw [h.head]
    cases front <;> exact Option.some_ne_none _
  have hrun : s.remove (some a) = some (if s.mSize - 1 = 0 then none else (back ++ front).head?,
      { s.erase a with
        next := Function.update s.next ((back ++ front).getLast hne) (back ++ front).head?
        pre := Function.update s.pre ((back ++ front).head hne) (back ++ front).getLast?
        head := if some a = s.head then (back ++ front).head? else s.head
        last := if some a = s.last then (back ++ front).getLast? else s.last
        mSize := s.mSize - 1 }) := by
    have hmem : ∀ {b}, b ∈ back ++ front → (s.data b).isSome := fun hb =>
      h.isSome (by simp only [List.mem_append, List.mem_cons] at hb ⊢; tauto)
    have hq := hmem (List.head_mem hne)
    have hp := hmem (List.getLast_mem hne)
    have ha : (s.data a).isSome := h.isSome (by simp)
    simp only [Cycliclist.remove, if_neg hhead, getNext, getPre, setNext, setPre, delete, erase, deref,
      Option.filter_some, ha, hp, hq, hnext, hpre, List.head?_eq_some_head hne,
      List.getLast?_eq_some_getLast hne, if_true, Option.map_some, Option.bind_eq_bind, Option.bind_some]
    split_ifs <;> rfl
  refine ⟨_, _, hrun, ⟨h.ring.eraseMiddle hne ?_ ?_ ?_ ?_, ?_, fun b hb => ?_, ?_, ?_⟩, rfl⟩
  · exact Function.update_self ..
  · exact Function.update_self ..
  · exact fun b _ hb => Function.update_of_ne hb ..
  · exact fun b _ hb => Function.update_of_ne hb ..
  · have hdata : (front ++ back).map (Function.update s.data a none) = (front ++ back).map s.data :=
      List.map_congr_left fun b hb => Function.update_of_ne (hdiff b hb) ..
    have hkept := congrArg (List.eraseIdx · front.length) h.data
    simp only [List.eraseIdx_map, List.eraseIdx_append_of_length_le le_rfl, Nat.sub_self,
      List.eraseIdx_cons_zero] at hkept
    exact hdata.trans hkept
  · have hb : (Function.update s.data a none b).isSome := hb
    have hba : b ≠ a := by
      rintro rfl
      rw [Function.update_self] at hb
      cases hb
    rw [Function.update_of_ne hba] at hb
    have hin := h.only b hb
    simp only [List.mem_append, List.mem_cons] at hin ⊢
    tauto
  · rw [← head?_removed fun hin => hanot (List.mem_append_left _ hin), ← h.head]
  · rw [← getLast?_removed fun hin => hanot (List.mem_append_right _ hin), ← h.last]

/-- The node at a position is removed, where there are others. -/
theorem RingOf.remove_getElem (h : RingOf s nodes vs) {j : ℕ} (hj : j < nodes.length)
    (hmore : nodes.length ≠ 1) : ∃ p s', s.remove (some nodes[j]) = some (p, s') ∧
      RingOf s' (nodes.eraseIdx j) (vs.eraseIdx j) ∧ s'.mSize = s.mSize - 1 := by
  have hsplit : nodes = nodes.take j ++ nodes[j] :: nodes.drop (j + 1) := by
    rw [List.getElem_cons_drop, List.take_append_drop]
  have hne : nodes.drop (j + 1) ++ nodes.take j ≠ [] := by
    rw [← List.length_pos_iff, List.length_append, List.length_drop, List.length_take]
    omega
  obtain ⟨p, s', hrun, hring, hsize⟩ := RingOf.remove (hsplit ▸ h) hne
  rw [List.length_take_of_le hj.le] at hring
  exact ⟨p, s', hrun, List.eraseIdx_eq_take_drop_succ nodes j ▸ hring, hsize⟩

/-- The only node is removed: it stays the first one. -/
theorem RingOf.remove_only {a : ℕ} (h : RingOf s [a] vs) :
    ∃ p s', s.remove (some a) = some (p, s') ∧ s'.head = some a := by
  obtain ⟨hnext, hpre⟩ := h.ring.links_ends (List.cons_ne_nil a [])
  have hhead : s.head = some a := h.head
  have hlast : s.last = some a := h.last
  have ha : (s.data a).isSome := h.isSome List.mem_cons_self
  have hnext : s.next a = some a := hnext
  have hpre : s.pre a = some a := hpre
  have hrun : s.remove (some a) = some (if s.mSize - 1 = 0 then none else some a,
      { s.erase a with
        next := Function.update s.next a (some a)
        pre := Function.update s.pre a (some a)
        head := some a, last := some a, mSize := s.mSize - 1 }) := by
    simp only [Cycliclist.remove, hhead, hlast, reduceCtorEq, getNext, getPre, setNext, setPre, delete, erase,
      deref, Option.filter_some, ha, hnext, hpre, if_true, if_false, Option.map_some, Option.bind_eq_bind,
      Option.bind_some]
    split_ifs <;> rfl
  exact ⟨_, _, hrun, rfl⟩

/-- The loop of `remove(lamda)` stops at the first node that `lamda` accepts, or at the last one. -/
theorem RingOf.removeFrom_eq (h : RingOf s nodes vs) (lamda : Option α → Bool) :
    ∀ (times : ℕ) {i : ℕ} (hi : i < nodes.length), nodes.length ≤ i + times →
      s.removeFrom lamda times (some nodes[i]) =
        match (vs.drop i).findIdx? fun v => lamda (some v) with
        | some d => s.removeHere nodes[i + d]?
        | none => some (none, s)
  | 0, i, hi, hle => by omega
  | times + 1, i, hi, hle => by
    have hi' : i < vs.length := h.length_eq ▸ hi
    have hdata : s.data nodes[i] = some vs[i] := by
      rw [h.data_getElem hi, List.getElem?_eq_getElem hi']
    have hask : s.ask lamda (some nodes[i]) = some (lamda (some vs[i])) := by
      rw [ask, if_neg (Option.some_ne_none _), deref_some (h.isSome (List.getElem_mem hi)),
        Option.map_some, hdata]
    rw [removeFrom, hask, Option.bind_eq_bind, Option.bind_some, List.drop_eq_getElem_cons hi',
      List.findIdx?_cons]
    cases hfound : lamda (some vs[i]) with
    | true => simp only [if_true, Nat.add_zero, List.getElem?_eq_getElem hi]
    | false =>
      simp only [Bool.false_eq_true, if_false]
      by_cases hend : i + 1 = nodes.length
      · have hlast : some nodes[i] = s.last := by
          rw [h.last, List.getLast?_eq_getElem?, ← hend, Nat.add_sub_cancel, List.getElem?_eq_getElem hi]
        rw [if_pos hlast, List.drop_eq_nil_of_le (by rw [← h.length_eq]; omega)]
        rfl
      · have hlast : some nodes[i] ≠ s.last := by
          rw [h.last, List.getLast?_eq_getElem?, List.getElem?_eq_getElem (by omega)]
          intro heq
          have := h.ring.nodup.getElem_inj_iff.mp (Option.some.inj heq)
          omega
        have hi₁ : i + 1 < nodes.length := by omega
        have hnext : s.getNext (some nodes[i]) = some (some nodes[i + 1]) := by
          rw [getNext, deref_some (h.isSome (List.getElem_mem hi)), Option.map_some, h.ring.next_eq i hi,
            Cyclic.next_eq hi, if_neg hend, List.getElem?_eq_getElem hi₁]
        rw [if_neg hlast, if_neg (Option.some_ne_none _), hnext, Option.bind_eq_bind, Option.bind_some,
          h.removeFrom_eq lamda times hi₁ (by omega)]
        cases (vs.drop (i + 1)).findIdx? fun v => lamda (some v) with
        | none => rfl
        | some d => simp only [Option.map_some, Nat.add_assoc, Nat.add_comm 1 d]

/-- There are fewer nodes than addresses. -/
theorem RingOf.length_le (h : RingOf s nodes vs) : nodes.length ≤ s.fresh := by
  have hlt : ∀ a ∈ nodes, a ∈ List.range s.fresh := fun a ha => by
    rw [List.mem_range]
    by_contra hge
    have hsome := h.isSome ha
    rw [s.unused a (Nat.not_lt.mp hge)] at hsome
    cases hsome
  exact (h.ring.nodup.subperm hlt).length_le.trans_eq List.length_range

/-- What `remove(lamda)` does to a list that has nodes. -/
theorem RingOf.removeIf_eq (h : RingOf s nodes vs) (hne : nodes ≠ []) (lamda : Option α → Bool) :
    s.removeIf lamda =
      match vs.findIdx? fun v => lamda (some v) with
      | some d => s.removeHere nodes[d]?
      | none => some (none, s) := by
  have hpos : 0 < nodes.length := List.length_pos_iff.mpr hne
  have hle := h.length_le
  have hrun := h.removeFrom_eq lamda (s.fresh + 1) hpos (by omega)
  rw [List.drop_zero] at hrun
  simp only [Nat.zero_add] at hrun
  rw [removeIf, h.head, List.head?_eq_getElem?, List.getElem?_eq_getElem hpos, hrun]

/-- `clear` does not write the first node. -/
theorem deleteFrom_head : ∀ (times : ℕ) {s s' : Cycliclist α} {p : NodePtr}, s.deleteFrom times p = some s' →
    s'.head = s.head
  | times + 1, s, s', none, h => by rw [← Option.some.inj h]
  | times + 1, s, s', some a, h => by
    rw [deleteFrom, Option.bind_eq_bind, Option.bind_eq_some_iff] at h
    obtain ⟨following, -, h⟩ := h
    rw [Option.bind_eq_bind, Option.bind_eq_some_iff] at h
    obtain ⟨s₁, hdelete, h⟩ := h
    rw [delete, Option.map_eq_some_iff] at hdelete
    obtain ⟨b, -, rfl⟩ := hdelete
    have hrest := deleteFrom_head times h
    exact hrest

theorem clear_head {s s' : Cycliclist α} (h : s.clear = some s') : s'.head = s.head := by
  rw [clear] at h
  split_ifs at h with hnone
  · rw [Option.some.inj h]
  · rw [Option.bind_eq_bind, Option.bind_eq_some_iff] at h
    obtain ⟨nextNode, -, h⟩ := h
    rw [Option.bind_eq_bind, Option.bind_eq_some_iff] at h
    obtain ⟨s₁, hset, h⟩ := h
    rw [setNext, Option.map_eq_some_iff] at hset
    obtain ⟨b, -, rfl⟩ := hset
    have hrest := deleteFrom_head _ h
    exact hrest

end Rings

/-! ### Runs -/

/-- The calls. -/
inductive Call (α : Type) where
  | pushFront (value : α)
  | pushBack (value : α)
  /-- `remove(begin() + value)` -/
  | remove (value : Int32)
  | removeIf (lamda : Option α → Bool)
  | clear

/-- What a call makes of the list. -/
def run (s : Cycliclist α) : Call α → Option (Cycliclist α)
  | .pushFront value => s.pushFront value
  | .pushBack value => s.pushBack value
  | .remove value => do
    let iter ← s.iterAdd s.head value
    let r ← s.remove iter
    some r.2
  | .removeIf lamda => (s.removeIf lamda).map Prod.snd
  | .clear => s.clear

/-- What it makes of a plain list. -/
def plain (vs : List α) : Call α → List α
  | .pushFront value => value :: vs
  | .pushBack value => vs ++ [value]
  | .remove value => vs.eraseIdx (value.toInt % vs.length).toNat
  | .removeIf lamda => vs.eraseP fun v => lamda (some v)
  | .clear => []

/-- The list, unless something was read through a bad pointer, and the plain list beside it. -/
structure Both (α : Type) where
  list : Option (Cycliclist α)
  contents : List α

/-- One call on both. -/
def step (b : Both α) (c : Call α) : Both α := ⟨b.list.bind (run · c), plain b.contents c⟩

/-- Nothing was pushed yet. -/
def start : Both α := ⟨some empty, []⟩

/-- The nodes make one ring of `size()` nodes from the first to the last, and hold the contents of the
    plain list. -/
def Both.IsGood (b : Both α) : Prop :=
  ∃ s nodes, b.list = some s ∧ RingOf s nodes b.contents ∧ s.mSize.toInt = nodes.length

/-- The calls that keep the ring: the size fits into an `int`, the only node is not removed, nothing is
    cleared that has nodes, and `lamda` does not accept the null iterator of an empty list. -/
def Allowed (vs : List α) : Call α → Prop
  | .pushFront _ | .pushBack _ => vs.length + 1 < 2 ^ 31
  | .remove _ => vs.length ≠ 1
  | .removeIf lamda =>
    match vs with
    | [] => lamda none = false
    | [v] => lamda (some v) = false
    | _ => True
  | .clear => vs = []

theorem isGood_start : (start : Both α).IsGood := by
  refine ⟨empty, [], rfl, ⟨⟨List.nodup_nil, ?_, ?_⟩, rfl, ?_, rfl, rfl⟩, rfl⟩
  · exact fun i hi => absurd hi (Nat.not_lt_zero i)
  · exact fun i hi => absurd hi (Nat.not_lt_zero i)
  · exact fun a ha => absurd ha Bool.false_ne_true

variable {s s' : Cycliclist α} {nodes : List ℕ} {vs : List α}

/-- With the ring given, only the size is left to say. -/
theorem RingOf.isGood_iff (h : RingOf s nodes vs) :
    (⟨some s, vs⟩ : Both α).IsGood ↔ s.mSize.toInt = vs.length := by
  constructor
  · rintro ⟨s', nodes', hs, hring, hsize⟩
    obtain rfl := Option.some.inj hs
    rw [hsize, hring.length_eq]
  · intro hsize
    exact ⟨s, nodes, rfl, h, by rw [hsize, h.length_eq]⟩

/-- A first node is left of nothing. -/
theorem not_isGood_of_head {a : ℕ} (h : s.head = some a) : ¬ (⟨some s, []⟩ : Both α).IsGood := by
  rintro ⟨s', nodes, hs, hring, -⟩
  obtain rfl := Option.some.inj hs
  obtain rfl : nodes = [] := List.length_eq_zero_iff.mp hring.length_eq
  rw [hring.head] at h
  cases h

/-- One more node is counted while the size fits. -/
theorem size_push {size : Int32} {n : ℕ} (h : size.toInt = n) :
    (size + 1).toInt = (n + 1 : ℕ) ↔ n + 1 < 2 ^ 31 := by
  have hlt := size.toInt_lt
  have hle := (size + 1).toInt_lt
  constructor
  · intro heq
    omega
  · intro hfits
    rw [Int32.toInt_add, h, show (1 : Int32).toInt = 1 from rfl]
    exact Int.bmod_eq_of_le (by omega) (by omega)

/-- A node less is counted, where there are some. -/
theorem size_remove {size : Int32} {n : ℕ} (h : size.toInt = n) (hpos : 0 < n) :
    (size - 1).toInt = (n - 1 : ℕ) := by
  have hlt := size.toInt_lt
  rw [Int32.toInt_sub, h, show (1 : Int32).toInt = 1 from rfl]
  refine (Int.bmod_eq_of_le (by omega) (by omega)).trans ?_
  omega

/-- A push keeps the ring while the size fits. -/
theorem RingOf.push_iff (h : RingOf s' nodes vs) {n : ℕ} (hlen : vs.length = n + 1) (hold : s.mSize.toInt = n)
    (hsize : s'.mSize = s.mSize + 1) : (⟨some s', vs⟩ : Both α).IsGood ↔ n + 1 < 2 ^ 31 := by
  rw [h.isGood_iff, hsize, hlen, size_push hold]

/-- A removal keeps the ring where the node is not the only one. -/
theorem RingOf.remove_iff (h : RingOf s nodes vs) (hold : s.mSize.toInt = nodes.length) {j : ℕ}
    (hj : j < nodes.length) : ∃ p s', s.remove (some nodes[j]) = some (p, s') ∧
      ((⟨some s', vs.eraseIdx j⟩ : Both α).IsGood ↔ vs.length ≠ 1) := by
  rw [← h.length_eq]
  by_cases hone : nodes.length = 1
  · obtain ⟨a, rfl⟩ := List.length_eq_one_iff.mp hone
    obtain rfl : j = 0 := by omega
    obtain ⟨p, s', hrun, hhead⟩ := h.remove_only
    have hempty : vs.eraseIdx 0 = [] := by
      rw [← List.length_eq_zero_iff, List.length_eraseIdx, ← h.length_eq]
      rfl
    exact ⟨p, s', hrun, iff_of_false (hempty ▸ not_isGood_of_head hhead) (not_not.mpr hone)⟩
  · obtain ⟨p, s', hrun, hring, hsize⟩ := h.remove_getElem hj hone
    refine ⟨p, s', hrun, iff_of_true ?_ hone⟩
    rw [hring.isGood_iff, hsize, size_remove hold (by omega), List.length_eraseIdx_of_lt (h.length_eq ▸ hj),
      h.length_eq]

/-- Nothing is left where a pointer was bad. -/
theorem not_isGood_none (vs : List α) : ¬ (⟨none, vs⟩ : Both α).IsGood := by
  rintro ⟨s, nodes, hs, -⟩
  cases hs

/-- `remove(begin() + value)`. -/
theorem RingOf.run_remove_iff (h : RingOf s nodes vs) (hold : s.mSize.toInt = nodes.length) (value : Int32) :
    (step ⟨some s, vs⟩ (.remove value)).IsGood ↔ vs.length ≠ 1 := by
  rcases Nat.eq_zero_or_pos nodes.length with hlen | hpos
  · -- the iterator is null, and an empty list is left alone
    obtain rfl := List.length_eq_zero_iff.mp hlen
    obtain rfl : vs = [] := List.length_eq_zero_iff.mp h.length_eq.symm
    have hhead : s.head = none := h.head
    have hrun : run s (.remove value) = some s := by
      simp only [run, hhead, iterAdd, if_true, Cycliclist.remove, Option.bind_eq_bind, Option.bind_some]
    rw [step, Option.bind_some, hrun]
    exact iff_of_true ⟨s, [], rfl, h, hold⟩ (Nat.zero_ne_one)
  · have hhead : s.head = some nodes[0] := by
      rw [h.head, List.head?_eq_getElem?, List.getElem?_eq_getElem hpos]
    have hlt := Cyclic.stepBy_lt hpos value.toInt
    have hstep := Cyclic.stepBy_eq hpos value.toInt
    rw [Nat.cast_zero, zero_add] at hstep
    have hindex : (value.toInt % vs.length).toNat = Cyclic.stepBy nodes.length value.toInt 0 := by
      rw [← h.length_eq, ← hstep, Int.toNat_natCast]
    obtain ⟨p, s', hrun, hiff⟩ := h.remove_iff hold hlt
    have hcall : run s (.remove value) = some s' := by
      rw [run, hhead, (h.iterAdd_eq hpos value).1, List.getElem?_eq_getElem hlt, Option.bind_eq_bind,
        Option.bind_some, hrun]
      rfl
    have hplain : plain vs (.remove value) = vs.eraseIdx (Cyclic.stepBy nodes.length value.toInt 0) := by
      rw [plain, hindex]
    rw [step, Option.bind_some, hcall, hplain]
    exact hiff

/-- `remove(lamda)`. -/
theorem RingOf.run_removeIf_iff (h : RingOf s nodes vs) (hold : s.mSize.toInt = nodes.length)
    (lamda : Option α → Bool) :
    (step ⟨some s, vs⟩ (.removeIf lamda)).IsGood ↔ Allowed vs (.removeIf lamda) := by
  rcases Nat.eq_zero_or_pos nodes.length with hlen | hpos
  · -- the loop is over at once, and `lamda` is asked about the null iterator
    obtain rfl := List.length_eq_zero_iff.mp hlen
    obtain rfl : vs = [] := List.length_eq_zero_iff.mp h.length_eq.symm
    have hhead : s.head = none := h.head
    have hlast : s.last = none := h.last
    rw [step, Option.bind_some, run, removeIf, hhead, removeFrom, ask, if_pos rfl, Option.bind_eq_bind,
      Option.bind_some, hlast, if_pos rfl]
    cases hnull : lamda none with
    | true => exact iff_of_false (not_isGood_none _) (by simp [Allowed, hnull])
    | false => exact iff_of_true ⟨s, [], rfl, h, hold⟩ hnull
  · have hne : nodes ≠ [] := List.length_pos_iff.mp hpos
    rw [step, Option.bind_some, run, h.removeIf_eq hne, plain, List.eraseP_eq_eraseIdx]
    cases hfind : vs.findIdx? fun v => lamda (some v) with
    | none =>
      have hnot := List.findIdx?_eq_none_iff.mp hfind
      refine iff_of_true ⟨s, nodes, rfl, h, hold⟩ ?_
      match vs, hnot with
      | [], _ => exact absurd h.length_eq hpos.ne'
      | [v], hnot => exact hnot v List.mem_cons_self
      | _ :: _ :: _, _ => trivial
    | some d =>
      obtain ⟨hd, hfound, -⟩ := List.findIdx?_eq_some_iff_getElem.mp hfind
      have hd' : d < nodes.length := h.length_eq ▸ hd
      obtain ⟨p, s', hrun, hiff⟩ := h.remove_iff hold hd'
      have hcall : (s.removeHere nodes[d]?).map Prod.snd = some s' := by
        rw [List.getElem?_eq_getElem hd', removeHere, getNext, deref_some (h.isSome (List.getElem_mem hd')),
          Option.map_some, Option.bind_eq_bind, Option.bind_some, hrun]
        rfl
      have hallowed : Allowed vs (.removeIf lamda) ↔ vs.length ≠ 1 := by
        match vs, hd, hfound with
        | [v], hd, hfound =>
          obtain rfl : d = 0 := by simpa using hd
          have hfound : lamda (some v) = true := hfound
          exact iff_of_false (by simp [Allowed, hfound]) (not_not.mpr rfl)
        | _ :: _ :: _, _, _ => exact iff_of_true trivial (by simp)
      simp only [hcall]
      rw [hallowed]
      exact hiff

/-- `clear`. -/
theorem RingOf.run_clear_iff (h : RingOf s nodes vs) (hold : s.mSize.toInt = nodes.length) :
    (step ⟨some s, vs⟩ .clear).IsGood ↔ vs = [] := by
  rw [step, Option.bind_some, run]
  cases nodes with
  | nil =>
    obtain rfl : vs = [] := List.length_eq_zero_iff.mp h.length_eq.symm
    have hhead : s.head = none := h.head
    rw [clear, if_pos hhead]
    exact iff_of_true ⟨s, [], rfl, h, hold⟩ rfl
  | cons a nodes =>
    have hvs : vs ≠ [] := by
      rintro rfl
      exact absurd h.length_eq (Nat.succ_ne_zero _)
    have hhead : s.head = some a := h.head
    refine iff_of_false ?_ hvs
    cases hrun : s.clear with
    | none => exact not_isGood_none _
    | some s' => exact not_isGood_of_head ((clear_head hrun).trans hhead)

/-- Exactly the allowed calls keep the ring. -/
theorem step_isGood_iff {b : Both α} (h : b.IsGood) (c : Call α) :
    (step b c).IsGood ↔ Allowed b.contents c := by
  obtain ⟨s, nodes, hs, hring, hsize⟩ := h
  obtain ⟨list, vs⟩ := b
  obtain rfl : list = some s := hs
  have hvs : s.mSize.toInt = vs.length := by rw [hsize, hring.length_eq]
  cases c with
  | pushFront value =>
    obtain ⟨s', hrun, hring', hsize'⟩ := hring.pushFront value
    rw [step, Option.bind_some, run, hrun]
    exact hring'.push_iff rfl hvs hsize'
  | pushBack value =>
    obtain ⟨s', hrun, hring', hsize'⟩ := hring.pushBack value
    rw [step, Option.bind_some, run, hrun]
    exact hring'.push_iff List.length_append hvs hsize'
  | remove value => exact hring.run_remove_iff hsize value
  | removeIf lamda => exact hring.run_removeIf_iff hsize lamda
  | clear => exact hring.run_clear_iff hsize

/-- The list is one ring with the contents of the plain list all along a run exactly when every call
    of it is allowed. -/
theorem ring_kept_iff (calls : List (Call α)) :
    (∀ done, done <+: calls → (done.foldl step start).IsGood) ↔
      EveryStep step (fun b c => Allowed b.contents c) start calls :=
  always_iff_everyStep (P := Both.IsGood) (fun _ c h => step_isGood_iff h c) isGood_start

/-- A value is pushed and the list is cleared: it still has a first node. -/
theorem cleared_keeps_head : ¬ ∀ (calls : List (Call ℕ)) done, done <+: calls →
    (done.foldl step start).IsGood := by
  intro h
  obtain ⟨s, nodes, hs, hring, -⟩ := h [.pushBack 7, .clear] _ List.prefix_rfl
  have hempty : nodes = [] := List.length_eq_zero_iff.mp hring.length_eq
  have hhead : (([.pushBack 7, .clear] : List (Call ℕ)).foldl step start).list.map (·.head) =
      some (some 0) := by
    rfl
  rw [hs, Option.map_some, hring.head, hempty] at hhead
  cases Option.some.inj hhead

/-- The same with the only node removed. -/
example : (([.pushBack 7, .remove 0] : List (Call ℕ)).foldl step start).list.map (·.head) =
    some (some 0) := rfl

/-! ### Lists made by `push_back` -/

theorem RingOf.pushBacks :
    ∀ (ws : List α) {s : Cycliclist α} {nodes : List ℕ} {vs : List α}, RingOf s nodes vs →
    ∃ s' nodes', ws.foldlM Cycliclist.pushBack s = some s' ∧ RingOf s' nodes' (vs ++ ws)
  | [], s, nodes, vs, h => ⟨s, nodes, rfl, by rwa [List.append_nil]⟩
  | w :: ws, s, nodes, vs, h => by
    obtain ⟨s₁, hrun, hring, -⟩ := h.pushBack w
    obtain ⟨s', nodes', hrest, hring'⟩ := RingOf.pushBacks ws hring
    refine ⟨s', nodes', ?_, by rwa [List.append_assoc, List.singleton_append] at hring'⟩
    rw [List.foldlM_cons, hrun]
    exact hrest

/-- `operator[]` takes the index modulo the size, whatever its sign, and indices in a row, no more
    than the list has nodes, lead to different nodes. -/
theorem index_pushBacks (vs : List α) : ∃ s, vs.foldlM Cycliclist.pushBack empty = some s ∧
    (∀ i : Int32, s.index i = vs[(i.toInt % vs.length).toNat]?) ∧
      ∀ (first : Int32) (k : ℕ), k ≤ vs.length → first.toInt + k ≤ 2 ^ 31 →
        ((List.range k).map fun j : ℕ => s.iterAdd s.head (Int32.ofInt (first.toInt + j))).Nodup := by
  obtain ⟨s₀, nodes₀, hs₀, hring₀, -⟩ := (isGood_start : (start : Both α).IsGood)
  obtain rfl : empty = s₀ := Option.some.inj hs₀
  obtain ⟨s, nodes, hrun, hring⟩ := hring₀.pushBacks vs
  exact ⟨s, hrun, hring.index_eq, fun first k hk hlast => hring.iterAdd_nodup first hk hlast⟩

/-- Three values: the index before the first is the last, and the index 7 the second. -/
theorem index_pushBacks_three : ∃ s, [10, 20, 30].foldlM Cycliclist.pushBack (empty : Cycliclist ℕ) = some s ∧
    s.index (-1) = some 30 ∧ s.index 7 = some 20 ∧
      ((List.range 3).map fun j : ℕ => s.iterAdd s.head (Int32.ofInt (-2 + j))).Nodup := by
  obtain ⟨s, hrun, hindex, hnodup⟩ := index_pushBacks [10, 20, 30]
  exact ⟨s, hrun, hindex (-1), hindex 7, hnodup (-2) 3 le_rfl (by decide)⟩

end Cycliclist

end Tfs.Utils
