import Tfs.Lib.Cyclic

/-! Doubly linked rings.

    The nodes of a list are linked in both directions, the last one to the first. Where the ring
    begins does not matter (`IsRing.rotate`), so it is enough to put a node in front of a ring
    (`IsRing.cons`) and to take the first one out (`IsRing.tail`). -/

namespace Tfs

variable {ι : Type} {next prev next' prev' : ι → Option ι} {x : ι} {l : List ι}

/-- Every node of the list is linked to the one behind it and to the one before it, around the ends. -/
structure IsRing (next prev : ι → Option ι) (l : List ι) : Prop where
  nodup : l.Nodup
  next_eq : ∀ i (h : i < l.length), next l[i] = l[Cyclic.next l.length i]?
  prev_eq : ∀ i (h : i < l.length), prev l[i] = l[Cyclic.prev l.length i]?

namespace IsRing

/-- A ring may begin anywhere. -/
theorem rotate (h : IsRing next prev l) (n : ℕ) : IsRing next prev (l.rotate n) := by
  have hget : ∀ j, j < l.length → (l.rotate n)[j]? = l[(j + n) % l.length]? := fun j hj => by
    rw [List.getElem?_rotate hj]
  refine ⟨List.nodup_rotate.mpr h.nodup, fun i hi => ?_, fun i hi => ?_⟩
  · rw [List.length_rotate] at hi ⊢
    rw [List.getElem_rotate, h.next_eq, hget _ (Cyclic.next_lt hi), Cyclic.next, Cyclic.next,
      Nat.mod_add_mod, Nat.mod_add_mod, Nat.add_right_comm]
  · rw [List.length_rotate] at hi ⊢
    have hsub : ∀ j, j + l.length - 1 = j + (l.length - 1) := fun j => by omega
    rw [List.getElem_rotate, h.prev_eq, hget _ (Cyclic.prev_lt hi), Cyclic.prev, Cyclic.prev, hsub,
      hsub, Nat.mod_add_mod, Nat.mod_add_mod, Nat.add_right_comm]

/-- One node that is linked to itself. -/
theorem singleton (hnext : next x = some x) (hprev : prev x = some x) : IsRing next prev [x] := by
  refine ⟨List.nodup_singleton x, fun i hi => ?_, fun i hi => ?_⟩
  · obtain rfl : i = 0 := by simpa using hi
    rw [Cyclic.next_eq hi]
    exact hnext
  · obtain rfl : i = 0 := by simpa using hi
    rw [Cyclic.prev_eq hi]
    exact hprev

/-- A node is put in front of a ring: only the links that pass it change. -/
theorem cons (h : IsRing next prev l) (hne : l ≠ []) (hx : x ∉ l)
    (hnext : next' x = l.head?) (hprev : prev' x = l.getLast?)
    (hlast : next' (l.getLast hne) = some x) (hhead : prev' (l.head hne) = some x)
    (hnexts : ∀ a ∈ l, a ≠ l.getLast hne → next' a = next a)
    (hprevs : ∀ a ∈ l, a ≠ l.head hne → prev' a = prev a) : IsRing next' prev' (x :: l) := by
  have hpos : 0 < l.length := List.length_pos_iff.mpr hne
  refine ⟨List.nodup_cons.mpr ⟨hx, h.nodup⟩, fun i hi => ?_, fun i hi => ?_⟩
  · rw [Cyclic.next_eq hi, List.length_cons]
    cases i with
    | zero =>
      rw [if_neg (by omega), List.getElem_cons_zero, hnext, List.getElem?_cons_succ, List.head?_eq_getElem?]
    | succ i =>
      rw [List.length_cons, Nat.add_lt_add_iff_right] at hi
      rw [List.getElem_cons_succ]
      by_cases hend : i + 1 = l.length
      · have heq : l[i] = l.getLast hne := by
          rw [List.getLast_eq_getElem]
          congr 1
          omega
        rw [heq, hlast, if_pos (by omega), List.getElem?_cons_zero]
      · have hdiff : l[i] ≠ l.getLast hne := by
          rw [List.getLast_eq_getElem]
          exact fun heq => hend (by have := h.nodup.getElem_inj_iff.mp heq; omega)
        rw [hnexts _ (List.getElem_mem hi) hdiff, h.next_eq i hi, Cyclic.next_eq hi, if_neg hend,
          if_neg (by omega), List.getElem?_cons_succ]
  · rw [Cyclic.prev_eq hi, List.length_cons]
    cases i with
    | zero =>
      rw [if_pos rfl, List.getElem_cons_zero, hprev, List.getLast?_eq_getElem?, Nat.add_sub_cancel]
      obtain ⟨m, hm⟩ : ∃ m, l.length = m + 1 := ⟨l.length - 1, by omega⟩
      rw [hm, List.getElem?_cons_succ, Nat.add_sub_cancel]
    | succ i =>
      rw [List.length_cons, Nat.add_lt_add_iff_right] at hi
      rw [List.getElem_cons_succ, if_neg (Nat.succ_ne_zero i), Nat.add_sub_cancel]
      cases i with
      | zero =>
        have heq : l[0] = l.head hne := (List.head_eq_getElem hne).symm
        rw [heq, hhead, List.getElem?_cons_zero]
      | succ i =>
        have hdiff : l[i + 1] ≠ l.head hne := by
          rw [List.head_eq_getElem hne]
          exact fun heq => absurd (h.nodup.getElem_inj_iff.mp heq) (Nat.succ_ne_zero i)
        rw [hprevs _ (List.getElem_mem hi) hdiff, h.prev_eq _ hi, Cyclic.prev_eq hi,
          if_neg (Nat.succ_ne_zero i), List.getElem?_cons_succ, Nat.add_sub_cancel]

/-- The first node is taken out of a ring: only the links that pass it change. -/
theorem tail (h : IsRing next prev (x :: l)) (hne : l ≠ [])
    (hlast : next' (l.getLast hne) = l.head?) (hhead : prev' (l.head hne) = l.getLast?)
    (hnexts : ∀ a ∈ l, a ≠ l.getLast hne → next' a = next a)
    (hprevs : ∀ a ∈ l, a ≠ l.head hne → prev' a = prev a) : IsRing next' prev' l := by
  have hnodup := (List.nodup_cons.mp h.nodup).2
  refine ⟨hnodup, fun i hi => ?_, fun i hi => ?_⟩
  · have hi' : i + 1 < (x :: l).length := Nat.succ_lt_succ hi
    rw [Cyclic.next_eq hi]
    by_cases hend : i + 1 = l.length
    · have heq : l[i] = l.getLast hne := by
        rw [List.getLast_eq_getElem]
        congr 1
        omega
      rw [heq, hlast, if_pos hend, List.head?_eq_getElem?]
    · have hdiff : l[i] ≠ l.getLast hne := by
        rw [List.getLast_eq_getElem]
        exact fun heq => hend (by have := hnodup.getElem_inj_iff.mp heq; omega)
      have hold := h.next_eq (i + 1) hi'
      rw [List.getElem_cons_succ, Cyclic.next_eq hi', List.length_cons, if_neg (by omega),
        List.getElem?_cons_succ] at hold
      rw [hnexts _ (List.getElem_mem hi) hdiff, hold, if_neg hend]
  · have hi' : i + 1 < (x :: l).length := Nat.succ_lt_succ hi
    rw [Cyclic.prev_eq hi]
    cases i with
    | zero =>
      have heq : l[0] = l.head hne := (List.head_eq_getElem hne).symm
      rw [heq, hhead, if_pos rfl, List.getLast?_eq_getElem?]
    | succ i =>
      have hdiff : l[i + 1] ≠ l.head hne := by
        rw [List.head_eq_getElem hne]
        exact fun heq => absurd (hnodup.getElem_inj_iff.mp heq) (Nat.succ_ne_zero i)
      have hold := h.prev_eq (i + 1 + 1) hi'
      rw [List.getElem_cons_succ, Cyclic.prev_eq hi', if_neg (Nat.succ_ne_zero _), Nat.add_sub_cancel,
        List.getElem?_cons_succ] at hold
      rw [hprevs _ (List.getElem_mem hi) hdiff, hold, if_neg (Nat.succ_ne_zero i), Nat.add_sub_cancel]

/-- The links of the first of several nodes. -/
theorem links_head (h : IsRing next prev (x :: l)) (hne : l ≠ []) :
    next x = l.head? ∧ prev x = l.getLast? := by
  have hpos : 0 < l.length := List.length_pos_iff.mpr hne
  have hfirst : 0 < (x :: l).length := Nat.succ_pos _
  have hnext := h.next_eq 0 hfirst
  have hprev := h.prev_eq 0 hfirst
  rw [Cyclic.next_eq hfirst, List.length_cons, if_neg (by omega), List.getElem?_cons_succ] at hnext
  rw [Cyclic.prev_eq hfirst, if_pos rfl, List.length_cons, Nat.add_sub_cancel,
    List.getElem?_cons, if_neg hpos.ne'] at hprev
  refine ⟨?_, ?_⟩
  · rw [List.head?_eq_getElem?]
    exact hnext
  · rw [List.getLast?_eq_getElem?]
    exact hprev

/-- The two ends are linked to each other. -/
theorem links_ends (h : IsRing next prev l) (hne : l ≠ []) :
    next (l.getLast hne) = l.head? ∧ prev (l.head hne) = l.getLast? := by
  have hpos : 0 < l.length := List.length_pos_iff.mpr hne
  have hend : l.length - 1 < l.length := by omega
  refine ⟨?_, ?_⟩
  · rw [List.getLast_eq_getElem, h.next_eq _ hend, Cyclic.next_eq hend, if_pos (by omega),
      List.head?_eq_getElem?]
  · rw [List.head_eq_getElem, h.prev_eq 0 hpos, Cyclic.prev_eq hpos, if_pos rfl,
      List.getLast?_eq_getElem?]

/-- The node in the middle is taken out. -/
theorem eraseMiddle {front back : List ι} (h : IsRing next prev (front ++ x :: back))
    (hne : back ++ front ≠ [])
    (hlast : next' ((back ++ front).getLast hne) = (back ++ front).head?)
    (hhead : prev' ((back ++ front).head hne) = (back ++ front).getLast?)
    (hnexts : ∀ a ∈ back ++ front, a ≠ (back ++ front).getLast hne → next' a = next a)
    (hprevs : ∀ a ∈ back ++ front, a ≠ (back ++ front).head hne → prev' a = prev a) :
    IsRing next' prev' (front ++ back) := by
  have hturned := h.rotate front.length
  rw [List.rotate_append_length_eq, List.cons_append] at hturned
  have hring := (hturned.tail hne hlast hhead hnexts hprevs).rotate back.length
  rwa [List.rotate_append_length_eq] at hring

end IsRing

end Tfs
