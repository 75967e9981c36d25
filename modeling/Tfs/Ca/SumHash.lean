import Tfs.Basic
import Tfs.Lib.OrderedSet

/-! Sum hashes (`SumHeightHash` and `SyncBlock::SumHeightsHash` in `ca/sync_block.cpp`, `StringUtil::concat`
    in `utils/string_util.h`).

    The block hashes of a height are sorted, joined and hashed; the hashes of the heights are sorted,
    joined and hashed once more. Joining drops a last separator, and where there is no separator it
    drops a character of the last text. So the last character of the largest hash of a height does not
    get into the sum, and two segments that differ there have the same one.

    The heights themselves are not hashed, but a block hash belongs to one height, and texts of one
    length can be taken apart again: apart from that character, the sum hash says which hashes stand at
    which height. -/

namespace Tfs.Ca

/-- `StringUtil::concat`. The character that is dropped is meant to be the last separator. -/
def concat (v : List Str) (sign : Str) : Str :=
  let str := v.foldl (fun str text => str ++ (text ++ sign)) []
  if str.length = 0 then str else str.dropLast

/-- The sorted texts, joined. -/
def joinSorted (hashes : List Str) : Str := concat (hashes.insertionSort (· ≤ ·)) []

section Sums
variable (getsha256hash : Str → Str)

/-- `SumHeightHash`. -/
def sumHeightHash (blockHashes : List Str) : Str := getsha256hash (joinSorted blockHashes)

/-- `SyncBlock::SumHeightsHash`. -/
def sumHeightsHash (heightBlocks : SortedMap ℕ (List Str)) : Str :=
  sumHeightHash getsha256hash (heightBlocks.entries.map fun e => sumHeightHash getsha256hash e.2)

/-- The texts that are hashed on the way. -/
def sumTexts (heightBlocks : SortedMap ℕ (List Str)) : List Str :=
  joinSorted (heightBlocks.entries.map fun e => sumHeightHash getsha256hash e.2) ::
    heightBlocks.entries.map fun e => joinSorted e.2

end Sums

/-! ### Joining -/

/-- Without a separator, a character of the last text is dropped. -/
theorem concat_nil_sign (v : List Str) : concat v [] = v.flatten.dropLast := by
  have hfold (l : List Str) : ∀ str : Str,
      l.foldl (fun str text => str ++ (text ++ [])) str = str ++ l.flatten := by
    induction l with
    | nil => exact fun str => (List.append_nil str).symm
    | cons text l ih =>
      intro str
      rw [List.foldl_cons, ih, List.append_nil, List.flatten_cons, List.append_assoc]
  simp only [concat, hfold, List.nil_append]
  split_ifs with hlen
  · rw [List.length_eq_zero_iff.mp hlen, List.dropLast_nil]
  · rfl

theorem flatten_cons_ne_nil {α : Type} {n : ℕ} (hn : 0 < n) {x : List α} {l : List (List α)}
    (hx : x.length = n) : (x :: l).flatten ≠ [] := by
  rw [List.flatten_cons]
  refine List.append_ne_nil_of_left_ne_nil ?_ _
  rintro rfl
  exact hn.ne hx

/-- Texts of one length can be taken apart again. -/
theorem flatten_inj {α : Type} {n : ℕ} (hn : 0 < n) : ∀ {l l' : List (List α)}, (∀ x ∈ l, x.length = n) →
    (∀ x ∈ l', x.length = n) → l.flatten = l'.flatten → l = l'
  | [], [], _, _, _ => rfl
  | [], x :: l', _, hl', h => absurd h.symm (flatten_cons_ne_nil hn (hl' x List.mem_cons_self))
  | x :: l, [], hl, _, h => absurd h (flatten_cons_ne_nil hn (hl x List.mem_cons_self))
  | x :: l, y :: l', hl, hl', h => by
    have hxy : x.length = y.length := by
      rw [hl x List.mem_cons_self, hl' y List.mem_cons_self]
    obtain ⟨rfl, hrest⟩ := List.append_inj h hxy
    have hrest := flatten_inj hn (fun z hz => hl z (List.mem_cons_of_mem _ hz))
      (fun z hz => hl' z (List.mem_cons_of_mem _ hz)) hrest
    rw [hrest]

theorem insertionSort_eq_iff_perm {l l' : List Str} :
    l.insertionSort (· ≤ ·) = l'.insertionSort (· ≤ ·) ↔ l.Perm l' := by
  constructor
  · intro h
    exact (List.perm_insertionSort _ l).symm.trans (h ▸ List.perm_insertionSort _ l')
  · intro h
    refine List.Perm.eq_of_pairwise (fun a b _ _ hab hba => Std.le_antisymm hab hba)
      (List.pairwise_insertionSort _ l) (List.pairwise_insertionSort _ l') ?_
    exact (List.perm_insertionSort _ l).trans (h.trans (List.perm_insertionSort _ l').symm)

/-- A set is listed in its order. -/
theorem pairwise_sortedSet (l : List Str) : (sortedSet l).Pairwise (· ≤ ·) :=
  List.pairwise_insertionSort (· ≤ ·) l.dedup

theorem joinSorted_nil : joinSorted [] = [] := rfl

/-- Texts in any order are joined alike. -/
theorem joinSorted_perm {l l' : List Str} (h : l.Perm l') : joinSorted l = joinSorted l' := by
  rw [joinSorted, insertionSort_eq_iff_perm.mpr h, joinSorted]

/-- These are the largest text and the others. -/
def IsCut (l : List Str) (largest : Str) (others : List Str) : Prop :=
  l.Perm (largest :: others) ∧ ∀ x ∈ others, x ≤ largest

theorem exists_isCut {l : List Str} (h : l ≠ []) : ∃ largest others, IsCut l largest others := by
  have hperm := List.perm_insertionSort (· ≤ ·) l
  rcases List.eq_nil_or_concat (l.insertionSort (· ≤ ·)) with hnil | ⟨others, largest, hsort⟩
  · rw [hnil] at hperm
    exact absurd hperm.symm.eq_nil h
  · rw [List.concat_eq_append] at hsort
    have hsorted := List.pairwise_insertionSort (· ≤ ·) l
    rw [hsort, List.pairwise_append] at hsorted
    rw [hsort] at hperm
    exact ⟨largest, others, hperm.symm.trans List.perm_append_comm,
      fun x hx => hsorted.2.2 x hx largest List.mem_cons_self⟩

/-- The largest text is joined last, without its last character. -/
theorem joinSorted_cut {l others : List Str} {largest : Str} (h : IsCut l largest others) (hne : largest ≠ []) :
    joinSorted l = (others.insertionSort (· ≤ ·)).flatten ++ largest.dropLast := by
  have hsort : l.insertionSort (· ≤ ·) = others.insertionSort (· ≤ ·) ++ [largest] := by
    refine List.Perm.eq_of_pairwise (fun a b _ _ hab hba => Std.le_antisymm hab hba)
      (List.pairwise_insertionSort _ l) ?_ ?_
    · refine List.pairwise_append.mpr ⟨List.pairwise_insertionSort _ others, List.pairwise_singleton _ _, ?_⟩
      intro x hx y hy
      rw [List.mem_singleton.mp hy]
      exact h.2 x ((List.perm_insertionSort _ others).subset hx)
    · calc (l.insertionSort (· ≤ ·)).Perm l := List.perm_insertionSort _ l
        _ |>.Perm (largest :: others) := h.1
        _ |>.Perm (largest :: others.insertionSort (· ≤ ·)) :=
          (List.perm_insertionSort _ others).symm.cons largest
        _ |>.Perm (others.insertionSort (· ≤ ·) ++ [largest]) := (List.perm_append_singleton _ _).symm
  rw [joinSorted, concat_nil_sign, hsort, List.flatten_append, List.flatten_singleton,
    List.dropLast_append_of_ne_nil hne]

/-- The same texts, but for the last character of the largest ones. -/
def CutAlike (l l' : List Str) : Prop :=
  ∃ largest largest' others, IsCut l largest others ∧ IsCut l' largest' others ∧
    largest.dropLast = largest'.dropLast

theorem CutAlike.ne_nil {l l' : List Str} (h : CutAlike l l') : l ≠ [] := by
  obtain ⟨largest, -, others, hcut, -⟩ := h
  rintro rfl
  exact List.cons_ne_nil _ _ hcut.1.symm.eq_nil

/-- Joined texts of 64 characters are the same exactly when the texts are, but for the last character of
    the largest ones. -/
theorem joinSorted_eq_iff {l l' : List Str} (hl : ∀ x ∈ l, x.length = 64) (hl' : ∀ x ∈ l', x.length = 64) :
    joinSorted l = joinSorted l' ↔ l = [] ∧ l' = [] ∨ CutAlike l l' := by
  have hmem {l others : List Str} {largest : Str} (hl : ∀ x ∈ l, x.length = 64) (h : IsCut l largest others) :
      largest.length = 64 ∧ ∀ x ∈ others.insertionSort (· ≤ ·), x.length = 64 := by
    refine ⟨hl _ (h.1.symm.subset List.mem_cons_self), fun x hx => hl x (h.1.symm.subset ?_)⟩
    exact List.mem_cons_of_mem _ ((List.perm_insertionSort _ others).subset hx)
  have hcut {l others : List Str} {largest : Str} (hl : ∀ x ∈ l, x.length = 64) (h : IsCut l largest others) :
      joinSorted l = (others.insertionSort (· ≤ ·)).flatten ++ largest.dropLast ∧ largest.dropLast.length = 63 := by
    have hlargest := (hmem hl h).1
    refine ⟨joinSorted_cut h ?_, by rw [List.length_dropLast, hlargest]⟩
    rintro rfl
    cases hlargest
  have hjoinNe {l : List Str} (hl : ∀ x ∈ l, x.length = 64) (hne : l ≠ []) : joinSorted l ≠ [] := by
    obtain ⟨largest, others, h⟩ := exists_isCut hne
    obtain ⟨hjoin, hlen⟩ := hcut hl h
    rw [hjoin]
    refine List.append_ne_nil_of_right_ne_nil _ ?_
    intro hnil
    rw [hnil] at hlen
    cases hlen
  constructor
  · intro h
    by_cases hnil : l = []
    · refine .inl ⟨hnil, not_not.mp fun hnil' => hjoinNe hl' hnil' ?_⟩
      rw [← h, hnil, joinSorted_nil]
    by_cases hnil' : l' = []
    · refine absurd ?_ (hjoinNe hl hnil)
      rw [h, hnil', joinSorted_nil]
    obtain ⟨largest, others, hl₁⟩ := exists_isCut hnil
    obtain ⟨largest', others', hl₂⟩ := exists_isCut hnil'
    rw [(hcut hl hl₁).1, (hcut hl' hl₂).1] at h
    obtain ⟨hothers, hlargest⟩ := List.append_inj' h ((hcut hl hl₁).2.trans (hcut hl' hl₂).2.symm)
    have hperm : others'.Perm others := (insertionSort_eq_iff_perm.mp
      (flatten_inj (by decide : 0 < 64) (hmem hl hl₁).2 (hmem hl' hl₂).2 hothers)).symm
    refine .inr ⟨largest, largest', others, hl₁, ⟨hl₂.1.trans (hperm.cons _), ?_⟩, hlargest⟩
    exact fun x hx => hl₂.2 x (hperm.symm.subset hx)
  · rintro (⟨rfl, rfl⟩ | ⟨largest, largest', others, hl₁, hl₂, hlargest⟩)
    · rfl
    · rw [(hcut hl hl₁).1, (hcut hl' hl₂).1, hlargest]

/-! ### Heights -/

/-- At every height of the segment there are block hashes, of 64 characters, which belong to that
    height. -/
def IsSegment (heightOf : Str → ℕ) (heightBlocks : SortedMap ℕ (List Str)) : Prop :=
  ∀ e ∈ heightBlocks.entries, e.2 ≠ [] ∧ ∀ hash ∈ e.2, hash.length = 64 ∧ heightOf hash = e.1

/-- The heights are the same and at every height the hashes, as often. -/
def SameHashes (m m' : SortedMap ℕ (List Str)) : Prop :=
  ∀ height, (m.find height).map Multiset.ofList = (m'.find height).map Multiset.ofList

/-- The heights can be paired, each with one that has the same hashes but for the last character of the
    largest ones. -/
def CutPaired (l l' : List (ℕ × List Str)) : Prop :=
  ∃ paired, l.Perm paired ∧ List.Forall₂ (fun e e' => CutAlike e.2 e'.2) paired l'

/-- The heights can be paired so, but for one on each side: these two have the largest sums, which are
    different only in their last character. -/
def NearCollision (getsha256hash : Str → Str) (l l' : List (ℕ × List Str)) : Prop :=
  ∃ e e' rest rest', l.Perm (e :: rest) ∧ l'.Perm (e' :: rest') ∧ CutPaired rest rest' ∧
    (∀ f ∈ rest, sumHeightHash getsha256hash f.2 ≤ sumHeightHash getsha256hash e.2) ∧
    (∀ f ∈ rest', sumHeightHash getsha256hash f.2 ≤ sumHeightHash getsha256hash e'.2) ∧
    sumHeightHash getsha256hash e.2 ≠ sumHeightHash getsha256hash e'.2 ∧
    (sumHeightHash getsha256hash e.2).dropLast = (sumHeightHash getsha256hash e'.2).dropLast

/-! ### Pairing -/

/-- A rearrangement of the images is the image of a rearrangement. -/
theorem exists_perm_map_eq {α β : Type} {f : α → β} {l : List α} {l' : List β} (h : (l.map f).Perm l') :
    ∃ u, l.Perm u ∧ u.map f = l' := by
  have hforall : List.Forall₂ (fun a b => f a = b) l (l.map f) := by
    rw [List.forall₂_map_right_iff]
    exact List.forall₂_same.mpr fun _ _ => rfl
  have hcomp : Relation.Comp (List.Forall₂ fun a b => f a = b) List.Perm l l' := ⟨_, hforall, h⟩
  rw [List.forall₂_comp_perm_eq_perm_comp_forall₂] at hcomp
  obtain ⟨u, hperm, hu⟩ := hcomp
  rw [← List.forall₂_map_left_iff, List.forall₂_eq_eq_eq] at hu
  exact ⟨u, hperm, hu⟩

theorem forall₂_imp_mem {α β : Type} {R S : α → β → Prop} {l : List α} {l' : List β}
    (h : List.Forall₂ R l l') (hRS : ∀ a ∈ l, ∀ b ∈ l', R a b → S a b) : List.Forall₂ S l l' := by
  induction h with
  | nil => exact .nil
  | @cons a b l l' hab _ ih =>
    refine .cons (hRS a List.mem_cons_self b List.mem_cons_self hab) (ih fun a ha b hb => ?_)
    exact hRS a (List.mem_cons_of_mem _ ha) b (List.mem_cons_of_mem _ hb)

theorem exists_of_forall₂ {α β : Type} {R : α → β → Prop} {l : List α} {l' : List β}
    (h : List.Forall₂ R l l') {a : α} (ha : a ∈ l) : ∃ b ∈ l', R a b := by
  induction h with
  | nil => cases ha
  | @cons _ b l l' hab _ ih =>
    rcases List.mem_cons.mp ha with rfl | ha
    · exact ⟨b, List.mem_cons_self, hab⟩
    · obtain ⟨b', hb', hab'⟩ := ih ha
      exact ⟨b', List.mem_cons_of_mem _ hb', hab'⟩

/-- What is determined by `f` is the same along two lists on which `f` is. -/
theorem map_congr_of {α β γ : Type} {f : α → β} {g : α → γ} (hfg : ∀ a b, f a = f b → g a = g b) :
    ∀ {l l' : List α}, l.map f = l'.map f → l.map g = l'.map g
  | [], [], _ => rfl
  | [], _ :: _, h => by cases h
  | _ :: _, [], h => by cases h
  | a :: l, b :: l', h => by
    rw [List.map_cons, List.map_cons] at h
    obtain ⟨hab, hrest⟩ := List.cons.inj h
    rw [List.map_cons, List.map_cons, hfg a b hab, map_congr_of hfg hrest]

section Segments
variable {getsha256hash : Str → Str} {heightOf : Str → ℕ} {m m' : SortedMap ℕ (List Str)}

/-- Heights are paired exactly when their sums are the same, as often. -/
theorem cutPaired_iff {l l' : List (ℕ × List Str)}
    (h : ∀ e ∈ l, ∀ e' ∈ l', sumHeightHash getsha256hash e.2 = sumHeightHash getsha256hash e'.2 ↔
      CutAlike e.2 e'.2) :
    CutPaired l l' ↔ (l.map fun e => sumHeightHash getsha256hash e.2).Perm
      (l'.map fun e => sumHeightHash getsha256hash e.2) := by
  constructor
  · rintro ⟨paired, hperm, hpaired⟩
    have hsums := forall₂_imp_mem hpaired fun e he e' he' => (h e (hperm.symm.subset he) e' he').mpr
    rw [← List.forall₂_map_right_iff (f := fun e : ℕ × List Str => sumHeightHash getsha256hash e.2),
      ← List.forall₂_map_left_iff (f := fun e : ℕ × List Str => sumHeightHash getsha256hash e.2),
      List.forall₂_eq_eq_eq] at hsums
    rw [← hsums]
    exact hperm.map _
  · intro hperm
    obtain ⟨paired, hl, hsums⟩ := exists_perm_map_eq hperm
    rw [← List.forall₂_eq_eq_eq, List.forall₂_map_left_iff, List.forall₂_map_right_iff] at hsums
    exact ⟨paired, hl, forall₂_imp_mem hsums fun e he e' he' => (h e (hl.symm.subset he) e' he').mp⟩

/-- Two heights have the same sum exactly when their hashes are the same but for the last character of
    the largest ones. -/
theorem sumHeightHash_eq_iff (hm : IsSegment heightOf m) (hm' : IsSegment heightOf m')
    (hinj : Set.InjOn getsha256hash {text | text ∈ sumTexts getsha256hash m ++ sumTexts getsha256hash m'})
    {e e' : ℕ × List Str} (he : e ∈ m.entries) (he' : e' ∈ m'.entries) :
    sumHeightHash getsha256hash e.2 = sumHeightHash getsha256hash e'.2 ↔ CutAlike e.2 e'.2 := by
  have htext : joinSorted e.2 ∈ sumTexts getsha256hash m ++ sumTexts getsha256hash m' :=
    List.mem_append_left _ (List.mem_cons_of_mem _ (List.mem_map.mpr ⟨e, he, rfl⟩))
  have htext' : joinSorted e'.2 ∈ sumTexts getsha256hash m ++ sumTexts getsha256hash m' :=
    List.mem_append_right _ (List.mem_cons_of_mem _ (List.mem_map.mpr ⟨e', he', rfl⟩))
  rw [sumHeightHash, sumHeightHash, hinj.eq_iff htext htext',
    joinSorted_eq_iff (fun x hx => ((hm e he).2 x hx).1) fun x hx => ((hm' e' he').2 x hx).1]
  exact or_iff_right fun hnil => (hm e he).1 hnil.1

/-- Two segments have the same sum hash exactly when their heights can be paired. -/
theorem sumHeightsHash_eq_iff (hlen : ∀ text, (getsha256hash text).length = 64)
    (hm : IsSegment heightOf m) (hm' : IsSegment heightOf m')
    (hinj : Set.InjOn getsha256hash {text | text ∈ sumTexts getsha256hash m ++ sumTexts getsha256hash m'}) :
    sumHeightsHash getsha256hash m = sumHeightsHash getsha256hash m' ↔
      CutPaired m.entries m'.entries ∨ NearCollision getsha256hash m.entries m'.entries := by
  have hsumLen (m : SortedMap ℕ (List Str)) :
      ∀ x ∈ m.entries.map (fun e => sumHeightHash getsha256hash e.2), x.length = 64 := by
    intro x hx
    obtain ⟨e, -, rfl⟩ := List.mem_map.mp hx
    exact hlen _
  have hsums {l l' : List (ℕ × List Str)} (hl : ∀ e ∈ l, e ∈ m.entries) (hl' : ∀ e ∈ l', e ∈ m'.entries) :=
    cutPaired_iff (l := l) fun e he e' he' => sumHeightHash_eq_iff hm hm' hinj (hl e he) (hl' e' he')
  rw [sumHeightsHash, sumHeightsHash, sumHeightHash, sumHeightHash,
    hinj.eq_iff (List.mem_append_left _ List.mem_cons_self) (List.mem_append_right _ List.mem_cons_self),
    joinSorted_eq_iff (hsumLen m) (hsumLen m'), hsums (fun _ he => he) fun _ he => he]
  constructor
  · rintro (⟨hnil, hnil'⟩ | ⟨largest, largest', others, ⟨hS, hle⟩, ⟨hS', hle'⟩, hlast⟩)
    · exact .inl (by rw [hnil, hnil'])
    by_cases hne : largest = largest'
    · subst hne
      exact .inl (hS.trans hS'.symm)
    obtain ⟨u, hu, hcons⟩ := exists_perm_map_eq hS
    obtain ⟨e, rest, rfl, rfl, rfl⟩ := List.map_eq_cons_iff.mp hcons
    obtain ⟨u', hu', hcons'⟩ := exists_perm_map_eq hS'
    obtain ⟨e', rest', rfl, rfl, hrest⟩ := List.map_eq_cons_iff.mp hcons'
    have hpaired : CutPaired rest rest' := by
      refine (hsums (fun f hf => hu.symm.subset (List.mem_cons_of_mem _ hf))
        fun f hf => hu'.symm.subset (List.mem_cons_of_mem _ hf)).mpr ?_
      rw [hrest]
    refine .inr ⟨e, e', rest, rest', hu, hu', hpaired, fun f hf => hle _ (List.mem_map_of_mem hf), ?_, hne, hlast⟩
    intro f hf
    rw [← hrest] at hle'
    exact hle' _ (List.mem_map_of_mem hf)
  · rintro (hperm | ⟨e, e', rest, rest', hu, hu', hpaired, hle, hle', -, hlast⟩)
    · by_cases hnil : m.entries.map (fun e => sumHeightHash getsha256hash e.2) = []
      · rw [hnil] at hperm ⊢
        exact .inl ⟨rfl, hperm.symm.eq_nil⟩
      · obtain ⟨largest, others, hcut⟩ := exists_isCut hnil
        exact .inr ⟨largest, largest, others, hcut, ⟨hperm.symm.trans hcut.1, hcut.2⟩, rfl⟩
    · have hrest := (hsums (fun f hf => hu.symm.subset (List.mem_cons_of_mem _ hf))
        fun f hf => hu'.symm.subset (List.mem_cons_of_mem _ hf)).mp hpaired
      have hcut : IsCut (m.entries.map fun e => sumHeightHash getsha256hash e.2)
          (sumHeightHash getsha256hash e.2) (rest.map fun e => sumHeightHash getsha256hash e.2) :=
        ⟨hu.map _, List.forall_mem_map.mpr hle⟩
      have hcut' : IsCut (m'.entries.map fun e => sumHeightHash getsha256hash e.2)
          (sumHeightHash getsha256hash e'.2) (rest.map fun e => sumHeightHash getsha256hash e.2) := by
        refine ⟨(hu'.map _).trans (hrest.symm.cons _), fun x hx => ?_⟩
        obtain ⟨f, hf, rfl⟩ := List.mem_map.mp (hrest.subset hx)
        exact hle' f hf
      exact .inr ⟨_, _, _, hcut, hcut', hlast⟩

/-- Segments with the same hashes have the same sum hash. -/
theorem sumHeightsHash_of_same (h : SameHashes m m') :
    sumHeightsHash getsha256hash m = sumHeightsHash getsha256hash m' := by
  have hentries := SortedMap.map_entries_eq h
  have hsums : m.entries.map (fun e => sumHeightHash getsha256hash e.2)
      = m'.entries.map fun e => sumHeightHash getsha256hash e.2 := by
    refine map_congr_of (fun a b hab => ?_) hentries
    rw [sumHeightHash, sumHeightHash, joinSorted_perm (Multiset.coe_eq_coe.mp (Prod.mk.inj hab).2)]
  rw [sumHeightsHash, hsums, sumHeightsHash]

/-- The sum hash tells two segments apart unless they are different and their heights can be paired, so
    that only last characters of largest hashes, of blocks or of heights, are different. -/
theorem sumHeightsHash_commits_iff (hlen : ∀ text, (getsha256hash text).length = 64)
    (hm : IsSegment heightOf m) (hm' : IsSegment heightOf m')
    (hinj : Set.InjOn getsha256hash {text | text ∈ sumTexts getsha256hash m ++ sumTexts getsha256hash m'}) :
    (sumHeightsHash getsha256hash m = sumHeightsHash getsha256hash m' ↔ SameHashes m m') ↔
      ¬ (¬ SameHashes m m' ∧
        (CutPaired m.entries m'.entries ∨ NearCollision getsha256hash m.entries m'.entries)) := by
  rw [← sumHeightsHash_eq_iff hlen hm hm' hinj]
  have hsame : SameHashes m m' → sumHeightsHash getsha256hash m = sumHeightsHash getsha256hash m' :=
    sumHeightsHash_of_same
  tauto

/-! ### Hashes that are told apart without their last character -/

theorem SameHashes.of_entries
    (h : ∀ e ∈ m.entries, ∃ hashes, (e.1, hashes) ∈ m'.entries ∧ e.2.Perm hashes)
    (h' : ∀ e ∈ m'.entries, ∃ hashes, (e.1, hashes) ∈ m.entries) : SameHashes m m' := by
  intro height
  rcases hf : m.find height with _ | hashes
  · rcases hf' : m'.find height with _ | hashes'
    · rfl
    · obtain ⟨hashes, hfound⟩ := h' _ (SortedMap.mem_iff_find.mpr hf')
      cases hf.symm.trans (SortedMap.mem_iff_find.mp hfound)
  · obtain ⟨hashes', hfound, hp⟩ := h _ (SortedMap.mem_iff_find.mpr hf)
    rw [SortedMap.mem_iff_find.mp hfound, Option.map_some, Option.map_some, Multiset.coe_eq_coe.mpr hp]

/-- Where neither two block hashes nor two sums are different in their last character only, the sum hash
    says which hashes stand at which height. -/
theorem sumHeightsHash_eq_iff_same (hlen : ∀ text, (getsha256hash text).length = 64)
    (hm : IsSegment heightOf m) (hm' : IsSegment heightOf m')
    (hinj : Set.InjOn getsha256hash {text | text ∈ sumTexts getsha256hash m ++ sumTexts getsha256hash m'})
    (hhashes : ∀ e ∈ m.entries, ∀ x ∈ e.2, ∀ e' ∈ m'.entries, ∀ y ∈ e'.2, x.dropLast = y.dropLast → x = y)
    (hsums : ∀ e ∈ m.entries, ∀ e' ∈ m'.entries,
      (sumHeightHash getsha256hash e.2).dropLast = (sumHeightHash getsha256hash e'.2).dropLast →
        sumHeightHash getsha256hash e.2 = sumHeightHash getsha256hash e'.2) :
    sumHeightsHash getsha256hash m = sumHeightsHash getsha256hash m' ↔ SameHashes m m' := by
  refine (sumHeightsHash_commits_iff hlen hm hm' hinj).mpr fun ⟨hdiffer, hpaired⟩ => hdiffer ?_
  -- paired heights have the same hashes, so they are the same height
  have hpair {e e' : ℕ × List Str} (he : e ∈ m.entries) (he' : e' ∈ m'.entries) (h : CutAlike e.2 e'.2) :
      e'.1 = e.1 ∧ e.2.Perm e'.2 := by
    obtain ⟨largest, largest', others, hcut, hcut', hlast⟩ := h
    have hin := hcut.1.symm.subset List.mem_cons_self
    have hin' := hcut'.1.symm.subset List.mem_cons_self
    obtain rfl := hhashes e he _ hin e' he' _ hin' hlast
    exact ⟨((hm' e' he').2 _ hin').2.symm.trans ((hm e he).2 _ hin).2, hcut.1.trans hcut'.1.symm⟩
  rcases hpaired with ⟨paired, hperm, hforall⟩ | ⟨e, e', rest, rest', hl, hl', -, -, -, hne, hlast⟩
  · refine .of_entries (fun e he => ?_) fun e' he' => ?_
    · obtain ⟨e', he', hcut⟩ := exists_of_forall₂ hforall (hperm.subset he)
      obtain ⟨hheight, hp⟩ := hpair he he' hcut
      exact ⟨e'.2, hheight ▸ he', hp⟩
    · obtain ⟨e, he, hcut⟩ := exists_of_forall₂ hforall.flip he'
      have he := hperm.symm.subset he
      obtain ⟨hheight, -⟩ := hpair he he' hcut
      exact ⟨e.2, hheight ▸ he⟩
  · refine absurd (hsums e (hl.symm.subset List.mem_cons_self) e' (hl'.symm.subset List.mem_cons_self) hlast) hne

end Segments

/-- A height with one block. -/
def sampleSegment (hash : Str) : SortedMap ℕ (List Str) := ⟨[(5, [hash])], List.pairwise_singleton _ _⟩

/-- 63 characters of a block hash. -/
def sampleHash : Str := List.replicate 63 97

/-- `Getsha256hash` of these characters, and of what is left of their sum. -/
def sampleSumSha (text : Str) : Str :=
  if text = sampleHash then str "7d3e74a05d7db15bce4ad9ec0658ea98e3f06eeecf16b4c6fff2da457ddc2f34"
  else str "c1061458046e56fa85739ed2abd0001f260d1d9a8d0018b3d91f0d1c01335bb3"

/-- Two blocks whose hashes end in 0 and in 1 have the same sum hash. -/
theorem sumHeightsHash_misses_last :
    ¬ (sumHeightsHash sampleSumSha (sampleSegment (sampleHash ++ str "0"))
        = sumHeightsHash sampleSumSha (sampleSegment (sampleHash ++ str "1")) ↔
      SameHashes (sampleSegment (sampleHash ++ str "0")) (sampleSegment (sampleHash ++ str "1"))) := by
  have hequal : sumHeightsHash sampleSumSha (sampleSegment (sampleHash ++ str "0"))
      = sumHeightsHash sampleSumSha (sampleSegment (sampleHash ++ str "1")) := by decide
  intro h
  have hsame := Multiset.coe_eq_coe.mp (Option.some.inj (h.mp hequal 5))
  exact absurd (List.perm_singleton.mp hsame) (by decide)

theorem sumHeightsHash_commits_iff_sample :
    (sumHeightsHash sampleSumSha (sampleSegment (sampleHash ++ str "0"))
        = sumHeightsHash sampleSumSha (sampleSegment (sampleHash ++ str "1")) ↔
      SameHashes (sampleSegment (sampleHash ++ str "0")) (sampleSegment (sampleHash ++ str "1"))) ↔
    ¬ (¬ SameHashes (sampleSegment (sampleHash ++ str "0")) (sampleSegment (sampleHash ++ str "1")) ∧
      (CutPaired (sampleSegment (sampleHash ++ str "0")).entries (sampleSegment (sampleHash ++ str "1")).entries ∨
        NearCollision sampleSumSha (sampleSegment (sampleHash ++ str "0")).entries
          (sampleSegment (sampleHash ++ str "1")).entries)) := by
  have htexts : ∀ text ∈ sumTexts sampleSumSha (sampleSegment (sampleHash ++ str "0")) ++
      sumTexts sampleSumSha (sampleSegment (sampleHash ++ str "1")),
      text = sampleHash ∨ text = (sampleSumSha sampleHash).dropLast := by decide
  have hne : sampleSumSha sampleHash ≠ sampleSumSha (sampleSumSha sampleHash).dropLast := by decide
  refine @sumHeightsHash_commits_iff sampleSumSha (fun _ => 5) _ _ ?_ ?_ ?_ ?_
  · intro text
    unfold sampleSumSha
    split <;> decide
  · unfold IsSegment
    decide
  · unfold IsSegment
    decide
  · intro x hx y hy hxy
    rcases htexts x hx with rfl | rfl <;> rcases htexts y hy with rfl | rfl
    · rfl
    · exact absurd hxy hne
    · exact absurd hxy.symm hne
    · rfl

end Tfs.Ca
