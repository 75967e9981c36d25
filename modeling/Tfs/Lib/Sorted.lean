import Mathlib

/-! Sorted ranges, as the algorithms of the C++ library use them.

    `std::set_intersection` and `std::set_difference` walk along two sorted ranges once. In a sorted
    range the element at an index says how many elements lie on either side of it. -/

namespace Tfs

/-- Bytes in the order of their values, and so strings in the order of `std::less`. -/
instance instLinearOrderUInt8 : LinearOrder UInt8 where
  le_refl := UInt8.le_refl
  le_trans _ _ _ := UInt8.le_trans
  le_antisymm _ _ := UInt8.le_antisymm
  le_total := UInt8.le_total
  lt_iff_le_not_ge _ _ := Std.LawfulOrderLT.lt_iff _ _
  toDecidableLE := inferInstance

instance instLinearOrderUInt64 : LinearOrder UInt64 where
  le_refl := UInt64.le_refl
  le_trans _ _ _ := UInt64.le_trans
  le_antisymm _ _ := UInt64.le_antisymm
  le_total := UInt64.le_total
  lt_iff_le_not_ge _ _ := Std.LawfulOrderLT.lt_iff _ _
  toDecidableLE := inferInstance

namespace Sorted
variable {α : Type} [LinearOrder α]

/-! ### Two ranges -/

/-- `std::set_intersection`: the second range is advanced up to each element of the first. -/
def setIntersection : List α → List α → List α
  | [], _ => []
  | a :: as, bs =>
    match bs.dropWhile (· < a) with
    | [] => []
    | b :: rest => if a < b then setIntersection as (b :: rest) else a :: setIntersection as rest

/-- `std::set_difference`. -/
def setDifference : List α → List α → List α
  | [], _ => []
  | a :: as, bs =>
    match bs.dropWhile (· < a) with
    | [] => a :: as
    | b :: rest => if a < b then a :: setDifference as (b :: rest) else setDifference as rest

/-- Nothing that is not smaller is passed over. -/
theorem mem_dropWhile {a x : α} {bs : List α} (hx : x ∈ bs) (ha : a ≤ x) : x ∈ bs.dropWhile (· < a) := by
  rw [← List.takeWhile_append_dropWhile (p := (· < a)) (l := bs)] at hx
  rcases List.mem_append.mp hx with hx | hx
  · have hlt := List.mem_takeWhile_imp hx
    exact absurd (by simpa using hlt) (not_lt.mpr ha)
  · exact hx

theorem mem_of_mem_dropWhile {a x : α} {bs : List α} (hx : x ∈ bs.dropWhile (· < a)) : x ∈ bs :=
  (List.dropWhile_sublist _).subset hx

/-- The element that advancing stops at. -/
theorem le_of_dropWhile_eq_cons {a b : α} {bs rest : List α} (h : bs.dropWhile (· < a) = b :: rest) : a ≤ b := by
  have hhead := List.head?_dropWhile_not (· < a) bs
  rw [h] at hhead
  simpa using hhead

theorem sorted_dropWhile {a b : α} {bs rest : List α} (hbs : bs.Pairwise (· ≤ ·))
    (h : bs.dropWhile (· < a) = b :: rest) : a ≤ b ∧ (∀ x ∈ rest, b ≤ x) ∧ rest.Pairwise (· ≤ ·) := by
  have hsorted := hbs.sublist (List.dropWhile_sublist (p := (· < a)))
  rw [h, List.pairwise_cons] at hsorted
  exact ⟨le_of_dropWhile_eq_cons h, hsorted⟩

theorem mem_setIntersection {x : α} : ∀ {as bs : List α}, as.Pairwise (· ≤ ·) → bs.Pairwise (· ≤ ·) →
    (x ∈ setIntersection as bs ↔ x ∈ as ∧ x ∈ bs) := by
  intro as
  induction as with
  | nil => simp [setIntersection]
  | cons a as ih =>
    intro bs has hbs
    obtain ⟨ha, has⟩ := List.pairwise_cons.mp has
    rw [setIntersection]
    split
    · next hdrop =>
      refine iff_of_false List.not_mem_nil fun hx => ?_
      have hle : a ≤ x := (List.mem_cons.mp hx.1).elim (fun h => h ▸ le_rfl) (ha x)
      have := mem_dropWhile hx.2 hle
      rw [hdrop] at this
      cases this
    · next b rest hdrop =>
      obtain ⟨hab, hb, hrest⟩ := sorted_dropWhile hbs hdrop
      have hmem : ∀ y, a ≤ y → (y ∈ bs ↔ y ∈ b :: rest) := fun y hy =>
        ⟨fun h => hdrop ▸ mem_dropWhile h hy, fun h => mem_of_mem_dropWhile (hdrop ▸ h)⟩
      split_ifs with hlt
      · rw [ih has (List.pairwise_cons.mpr ⟨hb, hrest⟩)]
        constructor
        · rintro ⟨hx, hxb⟩
          exact ⟨List.mem_cons_of_mem _ hx, (hmem x (ha x hx)).mpr hxb⟩
        · rintro ⟨hx, hxb⟩
          rcases List.mem_cons.mp hx with rfl | hx
          · rcases List.mem_cons.mp ((hmem x le_rfl).mp hxb) with rfl | hxr
            · exact absurd hlt (lt_irrefl _)
            · exact absurd (hb x hxr) (not_le.mpr hlt)
          · exact ⟨hx, (hmem x (ha x hx)).mp hxb⟩
      · obtain rfl : a = b := le_antisymm hab (not_lt.mp hlt)
        rw [List.mem_cons, List.mem_cons, ih has hrest]
        constructor
        · rintro (rfl | ⟨hx, hxr⟩)
          · exact ⟨.inl rfl, (hmem x le_rfl).mpr List.mem_cons_self⟩
          · exact ⟨.inr hx, (hmem x (ha x hx)).mpr (List.mem_cons_of_mem _ hxr)⟩
        · rintro ⟨rfl | hx, hxb⟩
          · exact .inl rfl
          · exact (List.mem_cons.mp ((hmem x (ha x hx)).mp hxb)).imp id fun hxr => ⟨hx, hxr⟩

theorem mem_of_mem_setDifference {x : α} : ∀ {as bs : List α}, x ∈ setDifference as bs → x ∈ as := by
  intro as
  induction as with
  | nil => exact fun h => h
  | cons a as ih =>
    intro bs h
    rw [setDifference] at h
    split at h
    · exact h
    · split_ifs at h
      · exact (List.mem_cons.mp h).elim (fun h => h ▸ List.mem_cons_self)
          fun h => List.mem_cons_of_mem _ (ih h)
      · exact List.mem_cons_of_mem _ (ih h)

/-- Advancing up to an element passes over nothing that is not smaller. -/
theorem count_takeWhile_dropWhile [BEq α] [LawfulBEq α] {a x : α} (hax : a ≤ x) : ∀ bs : List α,
    ((bs.dropWhile (· < a)).takeWhile (· ≤ x)).count x = (bs.takeWhile (· ≤ x)).count x
  | [] => rfl
  | b :: bs => by
    by_cases hlt : b < a
    · have hne : b ≠ x := (hlt.trans_le hax).ne
      rw [List.dropWhile_cons_of_pos (by simpa using hlt), List.takeWhile_cons_of_pos (by simpa using (hlt.trans_le hax).le),
        count_takeWhile_dropWhile hax bs, List.count_cons_of_ne hne]
    · rw [List.dropWhile_cons_of_neg (by simpa using hlt)]

theorem count_takeWhile_of_sorted [BEq α] [LawfulBEq α] (x : α) : ∀ {bs : List α}, bs.Pairwise (· ≤ ·) →
    (bs.takeWhile (· ≤ x)).count x = bs.count x
  | [], _ => rfl
  | b :: bs, h => by
    obtain ⟨hb, hbs⟩ := List.pairwise_cons.mp h
    by_cases hle : b ≤ x
    · rw [List.takeWhile_cons_of_pos (by simpa using hle), List.count_cons, List.count_cons,
        count_takeWhile_of_sorted x hbs]
    · rw [List.takeWhile_cons_of_neg (by simpa using hle), List.count_nil, List.count_eq_zero_of_not_mem]
      intro hx
      rcases List.mem_cons.mp hx with rfl | hx
      · exact hle le_rfl
      · exact hle (hb x hx)

/-- The second range may be in any order: what it has of an element before the first larger one is left out. -/
theorem count_setDifference_of_sorted_left [BEq α] [LawfulBEq α] (x : α) : ∀ {as bs : List α}, as.Pairwise (· ≤ ·) →
    (setDifference as bs).count x = as.count x - (bs.takeWhile (· ≤ x)).count x := by
  intro as
  induction as with
  | nil => simp [setDifference]
  | cons a as ih =>
    intro bs has
    obtain ⟨ha, has'⟩ := List.pairwise_cons.mp has
    by_cases hax : a ≤ x
    · -- from `a` on, advancing changes no count
      rw [← count_takeWhile_dropWhile hax bs, setDifference]
      split
      · next hdrop => rw [hdrop, List.takeWhile_nil, List.count_nil, Nat.sub_zero]
      · next b rest hdrop =>
        rw [hdrop]
        split_ifs with hlt
        · rw [List.count_cons, List.count_cons, ih has']
          by_cases heq : a = x
          · rw [List.takeWhile_cons_of_neg (by simpa [heq] using hlt), List.count_nil, Nat.sub_zero, Nat.sub_zero]
          · rw [if_neg (by simpa using heq), Nat.add_zero, Nat.add_zero]
        · obtain rfl : a = b := le_antisymm (le_of_dropWhile_eq_cons hdrop) (not_lt.mp hlt)
          rw [ih has', List.takeWhile_cons_of_pos (by simpa using hax), List.count_cons, List.count_cons,
            Nat.add_sub_add_right]
    · -- below `a` there is nothing to leave
      have hnone : x ∉ a :: as := fun hx => (List.mem_cons.mp hx).elim (fun h => hax h.ge) fun hx => hax (ha x hx)
      rw [List.count_eq_zero_of_not_mem hnone, Nat.zero_sub]
      exact List.count_eq_zero_of_not_mem fun hx => hnone (mem_of_mem_setDifference hx)

/-- The first range may be in any order: what comes after a larger element is kept, whatever the second one has. -/
theorem count_setDifference_of_sorted_right [BEq α] [LawfulBEq α] (x : α) : ∀ {as bs : List α}, bs.Pairwise (· ≤ ·) →
    (setDifference as bs).count x = as.count x - min ((as.takeWhile (· ≤ x)).count x) (bs.count x) := by
  intro as
  induction as with
  | nil => simp [setDifference]
  | cons a as ih =>
    intro bs hbs
    by_cases hax : a ≤ x
    · have hcount : bs.count x = (bs.dropWhile (· < a)).count x := by
        rw [← count_takeWhile_of_sorted x hbs, ← count_takeWhile_dropWhile hax,
          count_takeWhile_of_sorted x (hbs.sublist (List.dropWhile_sublist _))]
      rw [hcount, List.takeWhile_cons_of_pos (by simpa using hax), setDifference]
      split
      · next hdrop => rw [hdrop, List.count_nil, Nat.min_zero, Nat.sub_zero]
      · next b rest hdrop =>
        obtain ⟨hab, hb, hrest⟩ := sorted_dropWhile hbs hdrop
        rw [hdrop]
        split_ifs with hlt
        · by_cases heq : a = x
          · have hnone : (b :: rest).count x = 0 := List.count_eq_zero.mpr fun hx =>
              (List.mem_cons.mp hx).elim (fun h => absurd hlt (by rw [heq, h]; exact lt_irrefl _))
                fun hx => absurd (hb x hx) (not_le.mpr (heq ▸ hlt))
            rw [List.count_cons, List.count_cons, ih (List.pairwise_cons.mpr ⟨hb, hrest⟩), hnone, Nat.min_zero,
              Nat.min_zero, Nat.sub_zero, Nat.sub_zero]
          · rw [List.count_cons_of_ne heq, List.count_cons_of_ne heq, List.count_cons_of_ne heq,
              ih (List.pairwise_cons.mpr ⟨hb, hrest⟩)]
        · obtain rfl : a = b := le_antisymm hab (not_lt.mp hlt)
          rw [ih hrest, List.count_cons, List.count_cons, List.count_cons]
          omega
    · -- `a` is larger, and so is what is left of the second range
      have hne : a ≠ x := fun h => hax h.le
      rw [List.takeWhile_cons_of_neg (by simpa using hax), List.count_nil, Nat.zero_min, Nat.sub_zero,
        List.count_cons_of_ne hne, setDifference]
      split
      · exact List.count_cons_of_ne hne
      · next b rest hdrop =>
        obtain ⟨hab, hb, hrest⟩ := sorted_dropWhile hbs hdrop
        have hrestx : rest.count x = 0 := List.count_eq_zero.mpr fun hx => hax (hab.trans (hb x hx))
        split_ifs with hlt
        · have hbx : b ≠ x := fun h => hax (h ▸ hab)
          rw [List.count_cons_of_ne hne, ih (List.pairwise_cons.mpr ⟨hb, hrest⟩), List.count_cons_of_ne hbx, hrestx,
            Nat.min_zero, Nat.sub_zero]
        · rw [ih hrest, hrestx, Nat.min_zero, Nat.sub_zero]

/-- Of equal elements, as many are left as the first range has more. -/
theorem count_setDifference [BEq α] [LawfulBEq α] (x : α) {as bs : List α} (has : as.Pairwise (· ≤ ·))
    (hbs : bs.Pairwise (· ≤ ·)) : (setDifference as bs).count x = as.count x - bs.count x := by
  rw [count_setDifference_of_sorted_left x has, count_takeWhile_of_sorted x hbs]

theorem mem_setDifference [BEq α] [LawfulBEq α] {x : α} {as bs : List α} (has : as.Pairwise (· ≤ ·))
    (hbs : bs.Pairwise (· ≤ ·)) :
    x ∈ setDifference as bs ↔ bs.count x < as.count x := by
  rw [← List.count_pos_iff, count_setDifference x has hbs, Nat.sub_pos_iff_lt]

/-- In an ordered list, the elements up to which a property holds. -/
theorem mem_takeWhile_iff {β : Type} {f : β → α} {p : β → Bool} {x : β} : ∀ {l : List β},
    l.Pairwise (fun a b => f a < f b) → (x ∈ l.takeWhile p ↔ x ∈ l ∧ ∀ y ∈ l, f y ≤ f x → p y)
  | [], _ => by simp
  | a :: l, hl => by
    obtain ⟨ha, hl⟩ := List.pairwise_cons.mp hl
    rw [List.takeWhile_cons]
    by_cases hp : p a
    · rw [if_pos hp, List.mem_cons, List.mem_cons, mem_takeWhile_iff hl, List.forall_mem_cons]
      constructor
      · rintro (rfl | ⟨hx, hall⟩)
        · exact ⟨.inl rfl, fun _ => hp, fun y hy hle => absurd (ha y hy) (not_lt.mpr hle)⟩
        · exact ⟨.inr hx, fun _ => hp, hall⟩
      · rintro ⟨hx | hx, -, hall⟩
        · exact .inl hx
        · exact .inr ⟨hx, hall⟩
    · rw [if_neg hp]
      refine iff_of_false List.not_mem_nil fun ⟨hx, hall⟩ => hp (hall a List.mem_cons_self ?_)
      rcases List.mem_cons.mp hx with rfl | hx
      · exact le_rfl
      · exact (ha x hx).le

/-! ### One range -/

/-- The last element of a strictly ordered list is its largest. -/
theorem getLast?_eq_some_iff {x : α} {l : List α} (hl : l.Pairwise (· < ·)) :
    l.getLast? = some x ↔ x ∈ l ∧ ∀ y ∈ l, y ≤ x := by
  induction l using List.reverseRecOn with
  | nil => simp
  | append_singleton l last ih =>
    have hlast : ∀ y ∈ l, y < last := fun y hy =>
      (List.pairwise_append.mp hl).2.2 y hy last (List.mem_singleton_self last)
    rw [List.getLast?_concat, Option.some_inj]
    constructor
    · rintro rfl
      refine ⟨List.mem_concat_self, fun y hy => ?_⟩
      rcases List.mem_append.mp hy with hy | hy
      · exact (hlast y hy).le
      · exact (List.mem_singleton.mp hy).le
    · rintro ⟨hx, hmax⟩
      rcases List.mem_append.mp hx with hx | hx
      · exact absurd (hlast x hx) (not_lt.mpr (hmax last List.mem_concat_self))
      · exact (List.mem_singleton.mp hx).symm

variable {l : List α} (hl : l.Pairwise (· ≤ ·))

include hl in
/-- At least `k + 1` elements do not exceed the one at index `k`. -/
theorem lt_countP_le {k : ℕ} (hk : k < l.length) : k < l.countP (· ≤ l[k]) := by
  have hall : ∀ x ∈ l.take (k + 1), x ≤ l[k] := by
    intro x hx
    obtain ⟨i, hi, rfl⟩ := List.mem_take_iff_getElem.mp hx
    rcases Nat.lt_or_ge i k with hik | hik
    · exact List.pairwise_iff_getElem.mp hl i k (by omega) hk hik
    · obtain rfl : i = k := by omega
      exact le_rfl
  have hcount : (l.take (k + 1)).countP (· ≤ l[k]) = (l.take (k + 1)).length :=
    List.countP_eq_length.mpr fun x hx => by simpa using hall x hx
  have hlen : (l.take (k + 1)).length = k + 1 := by
    rw [List.length_take]
    omega
  have hsub := (List.take_sublist (k + 1) l).countP_le (p := (· ≤ l[k]))
  omega

include hl in
/-- At least `l.length - k` elements are not below the one at index `k`. -/
theorem le_countP_ge {k : ℕ} (hk : k < l.length) : l.length - k ≤ l.countP (l[k] ≤ ·) := by
  have hall : ∀ x ∈ l.drop k, l[k] ≤ x := by
    intro x hx
    obtain ⟨i, hi, rfl⟩ := List.mem_drop_iff_getElem.mp hx
    rcases Nat.eq_zero_or_pos i with rfl | hpos
    · exact le_rfl
    · exact List.pairwise_iff_getElem.mp hl k (k + i) hk (by omega) (by omega)
  have hcount : (l.drop k).countP (l[k] ≤ ·) = (l.drop k).length :=
    List.countP_eq_length.mpr fun x hx => by simpa using hall x hx
  have hlen : (l.drop k).length = l.length - k := List.length_drop
  have hsub := (List.drop_sublist k l).countP_le (p := (l[k] ≤ ·))
  omega

end Sorted

end Tfs
