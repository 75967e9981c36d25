import Mathlib

/-! Incremental merging of overlapping sets.

    A family of finite sets arrives one at a time. Each new set is united with the *first* group it
    overlaps and opens a group of its own when it overlaps none; groups are never merged with each
    other. `absorbAll_pairwise_iff` says exactly when the groups come out disjoint: whenever two
    earlier sets overlap the new one, they must already be joined through earlier sets. -/

namespace Tfs.Merge

variable {α ι : Type} [DecidableEq α]

/-- Unite `s` with the first group it overlaps; open a new group at the end if there is none. -/
def absorb : List (Finset α) → Finset α → List (Finset α)
  | [], s => [s]
  | g :: gs, s => if (g ∩ s).Nonempty then (g ∪ s) :: gs else g :: absorb gs s

/-- Absorb the sets of the family `N` in the order of the index list. -/
def absorbAll (N : ι → Finset α) (ks : List ι) : List (Finset α) :=
  ks.foldl (fun groups k => absorb groups (N k)) []

/-- Two indices whose sets overlap. -/
def Touch (N : ι → Finset α) (a b : ι) : Prop := (N a ∩ N b).Nonempty

/-- `a` and `b` are joined by a chain of pairwise overlapping sets with indices in `pre`. -/
def Chained (N : ι → Finset α) (pre : List ι) : ι → ι → Prop :=
  Relation.ReflTransGen fun x y => x ∈ pre ∧ y ∈ pre ∧ Touch N x y

/-- Whenever two earlier sets overlap the current one, they are already joined. -/
def Orderly (N : ι → Finset α) (ks : List ι) : Prop :=
  ∀ pre k post, ks = pre ++ k :: post → ∀ a ∈ pre, ∀ b ∈ pre, Touch N a k → Touch N b k →
    Chained N pre a b

theorem absorbAll_concat (N : ι → Finset α) (ks : List ι) (k : ι) :
    absorbAll N (ks ++ [k]) = absorb (absorbAll N ks) (N k) := by
  simp [absorbAll, List.foldl_append]

theorem Chained.mono {N : ι → Finset α} {pre pre' : List ι} (h : ∀ x ∈ pre, x ∈ pre') {a b : ι}
    (hab : Chained N pre a b) : Chained N pre' a b :=
  Relation.ReflTransGen.mono (fun _ _ hxy => ⟨h _ hxy.1, h _ hxy.2.1, hxy.2.2⟩) _ _ hab

theorem Touch.symm {N : ι → Finset α} {a b : ι} (h : Touch N a b) : Touch N b a := by
  rwa [Touch, Finset.inter_comm]

theorem Chained.symm {N : ι → Finset α} {pre : List ι} {a b : ι} (hab : Chained N pre a b) :
    Chained N pre b a := by
  induction hab with
  | refl => exact .refl
  | tail _ hxy ih => exact .head ⟨hxy.2.1, hxy.1, hxy.2.2.symm⟩ ih

/-! ### What one step does to the groups -/

/-- The new set lands inside one group. -/
theorem absorb_covers : ∀ (gs : List (Finset α)) (s : Finset α), ∃ g ∈ absorb gs s, s ⊆ g
  | [], s => ⟨s, by simp [absorb], subset_rfl⟩
  | g :: gs, s => by
    by_cases h : (g ∩ s).Nonempty
    · exact ⟨g ∪ s, by simp [absorb, h], Finset.subset_union_right⟩
    · obtain ⟨g', hg', hs⟩ := absorb_covers gs s
      exact ⟨g', by simp [absorb, h, hg'], hs⟩

/-- No group shrinks. -/
theorem absorb_grows : ∀ (gs : List (Finset α)) (s g : Finset α), g ∈ gs → ∃ g' ∈ absorb gs s, g ⊆ g'
  | g₀ :: gs, s, g, hg => by
    by_cases h : (g₀ ∩ s).Nonempty
    · simp only [absorb, if_pos h]
      rcases List.mem_cons.mp hg with rfl | hg
      · exact ⟨g ∪ s, List.mem_cons_self, Finset.subset_union_left⟩
      · exact ⟨g, List.mem_cons_of_mem _ hg, subset_rfl⟩
    · simp only [absorb, if_neg h]
      rcases List.mem_cons.mp hg with rfl | hg
      · exact ⟨g, List.mem_cons_self, subset_rfl⟩
      · obtain ⟨g', hg', hsub⟩ := absorb_grows gs s g hg
        exact ⟨g', List.mem_cons_of_mem _ hg', hsub⟩

/-- Every group after the step is an old group, the new set alone (when nothing overlapped it), or an
    old group it overlaps united with it. -/
theorem mem_absorb : ∀ {gs : List (Finset α)} {s g : Finset α}, g ∈ absorb gs s →
    g ∈ gs ∨ (g = s ∧ ∀ g₀ ∈ gs, ¬ (g₀ ∩ s).Nonempty) ∨ ∃ g₀ ∈ gs, (g₀ ∩ s).Nonempty ∧ g = g₀ ∪ s
  | [], s, g, hg => .inr (.inl ⟨by simpa [absorb] using hg, by simp⟩)
  | g₀ :: gs, s, g, hg => by
    by_cases h : (g₀ ∩ s).Nonempty
    · simp only [absorb, if_pos h] at hg
      rcases List.mem_cons.mp hg with rfl | hg
      · exact .inr (.inr ⟨g₀, List.mem_cons_self, h, rfl⟩)
      · exact .inl (List.mem_cons_of_mem _ hg)
    · simp only [absorb, if_neg h] at hg
      rcases List.mem_cons.mp hg with rfl | hg
      · exact .inl List.mem_cons_self
      · rcases mem_absorb hg with hg | ⟨rfl, hnone⟩ | ⟨g₁, hg₁, hov, rfl⟩
        · exact .inl (List.mem_cons_of_mem _ hg)
        · refine .inr (.inl ⟨rfl, fun g₁ hg₁ => ?_⟩)
          rcases List.mem_cons.mp hg₁ with rfl | hg₁
          · exact h
          · exact hnone g₁ hg₁
        · exact .inr (.inr ⟨g₁, List.mem_cons_of_mem _ hg₁, hov, rfl⟩)

/-- Overlapping groups stay overlapping. -/
theorem pairwise_of_absorb : ∀ (gs : List (Finset α)) (s : Finset α),
    (absorb gs s).Pairwise Disjoint → gs.Pairwise Disjoint
  | [], _, _ => .nil
  | g :: gs, s, hp => by
    by_cases h : (g ∩ s).Nonempty
    · rw [absorb, if_pos h, List.pairwise_cons] at hp
      refine List.pairwise_cons.mpr ⟨fun g' hg' => ?_, hp.2⟩
      exact Disjoint.mono_left Finset.subset_union_left (hp.1 g' hg')
    · rw [absorb, if_neg h, List.pairwise_cons] at hp
      refine List.pairwise_cons.mpr ⟨fun g' hg' => ?_, pairwise_of_absorb gs s hp.2⟩
      obtain ⟨g'', hg'', hsub⟩ := absorb_grows gs s g' hg'
      exact Disjoint.mono_right hsub (hp.1 g'' hg'')

/-- With disjoint groups before the step, they are disjoint after it exactly when the new set
    overlaps at most one of them. -/
theorem pairwise_absorb_iff : ∀ (gs : List (Finset α)) (s : Finset α), gs.Pairwise Disjoint →
    ((absorb gs s).Pairwise Disjoint ↔
      ∀ g ∈ gs, ∀ g' ∈ gs, (g ∩ s).Nonempty → (g' ∩ s).Nonempty → g = g')
  | [], _, _ => by simp [absorb]
  | g :: gs, s, hp => by
    obtain ⟨hg, hgs⟩ := List.pairwise_cons.mp hp
    by_cases h : (g ∩ s).Nonempty
    · rw [absorb, if_pos h, List.pairwise_cons]
      constructor
      · -- the head group took the set, so no other group may overlap it
        rintro ⟨hdis, -⟩ g₁ hg₁ g₂ hg₂ h₁ h₂
        have hnone : ∀ g' ∈ gs, ¬ (g' ∩ s).Nonempty := fun g' hg' hov => by
          rw [← Finset.not_disjoint_iff_nonempty_inter] at hov
          exact hov (Disjoint.mono_left Finset.subset_union_right (hdis g' hg')).symm
        rcases List.mem_cons.mp hg₁ with rfl | hg₁
        · rcases List.mem_cons.mp hg₂ with rfl | hg₂
          · rfl
          · exact absurd h₂ (hnone _ hg₂)
        · exact absurd h₁ (hnone _ hg₁)
      · intro huniq
        refine ⟨fun g' hg' => ?_, hgs⟩
        rw [Finset.disjoint_union_left]
        refine ⟨hg g' hg', ?_⟩
        by_contra hov
        rw [Finset.not_disjoint_iff_nonempty_inter, Finset.inter_comm] at hov
        obtain rfl := huniq g List.mem_cons_self g' (List.mem_cons_of_mem _ hg') h hov
        obtain ⟨x, hx⟩ := h
        exact (Finset.disjoint_left.mp (hg g hg') (Finset.mem_inter.mp hx).1)
          (Finset.mem_inter.mp hx).1
    · rw [absorb, if_neg h, List.pairwise_cons, pairwise_absorb_iff gs s hgs]
      constructor
      · rintro ⟨-, huniq⟩ g₁ hg₁ g₂ hg₂ h₁ h₂
        rcases List.mem_cons.mp hg₁ with rfl | hg₁
        · exact absurd h₁ h
        · rcases List.mem_cons.mp hg₂ with rfl | hg₂
          · exact absurd h₂ h
          · exact huniq g₁ hg₁ g₂ hg₂ h₁ h₂
      · intro huniq
        refine ⟨fun g' hg' => ?_, fun g₁ hg₁ g₂ hg₂ => huniq g₁ (List.mem_cons_of_mem _ hg₁) g₂
          (List.mem_cons_of_mem _ hg₂)⟩
        have hgs' : Disjoint g s := by
          rwa [← not_not (a := Disjoint g s), Finset.not_disjoint_iff_nonempty_inter]
        rcases mem_absorb hg' with hg' | ⟨rfl, -⟩ | ⟨g₀, hg₀, -, rfl⟩
        · exact hg g' hg'
        · exact hgs'
        · exact Finset.disjoint_union_right.mpr ⟨hg g₀ hg₀, hgs'⟩

/-! ### The invariant of a whole run -/

/-- After the indices `pre`: every set of the family lies in a group, and every group is filled by
    sets of the family. -/
structure Covered (N : ι → Finset α) (pre : List ι) (gs : List (Finset α)) : Prop where
  covers : ∀ a ∈ pre, ∃ g ∈ gs, N a ⊆ g
  filled : ∀ g ∈ gs, ∀ x ∈ g, ∃ a ∈ pre, x ∈ N a ∧ N a ⊆ g

/-- Moreover, two sets in one group are joined. -/
structure Grouped (N : ι → Finset α) (pre : List ι) (gs : List (Finset α)) : Prop
    extends Covered N pre gs where
  chained : ∀ g ∈ gs, ∀ a ∈ pre, ∀ b ∈ pre, N a ⊆ g → N b ⊆ g → Chained N pre a b

/-- One step keeps `Covered`. -/
theorem Covered.step {N : ι → Finset α} {pre : List ι} {gs : List (Finset α)}
    (hG : Covered N pre gs) (k : ι) : Covered N (pre ++ [k]) (absorb gs (N k)) := by
  have hold : ∀ x ∈ pre, x ∈ pre ++ [k] := fun x hx => List.mem_append_left _ hx
  have hk : k ∈ pre ++ [k] := List.mem_append_right _ (List.mem_singleton.mpr rfl)
  refine ⟨fun a ha => ?_, fun g hg x hx => ?_⟩
  · rcases List.mem_append.mp ha with ha | ha
    · obtain ⟨g, hg, hag⟩ := hG.covers a ha
      obtain ⟨g', hg', hgg'⟩ := absorb_grows gs (N k) g hg
      exact ⟨g', hg', hag.trans hgg'⟩
    · rw [List.mem_singleton.mp ha]; exact absorb_covers gs (N k)
  · rcases mem_absorb hg with hg | ⟨rfl, -⟩ | ⟨g₀, hg₀, -, rfl⟩
    · obtain ⟨a, ha, hxa, hsub⟩ := hG.filled g hg x hx
      exact ⟨a, hold a ha, hxa, hsub⟩
    · exact ⟨k, hk, hx, subset_rfl⟩
    · rcases Finset.mem_union.mp hx with hx | hx
      · obtain ⟨a, ha, hxa, hsub⟩ := hG.filled g₀ hg₀ x hx
        exact ⟨a, hold a ha, hxa, hsub.trans Finset.subset_union_left⟩
      · exact ⟨k, hk, hx, Finset.subset_union_right⟩

/-- Every run keeps `Covered`. -/
theorem covered_absorbAll (N : ι → Finset α) (ks : List ι) : Covered N ks (absorbAll N ks) := by
  induction ks using List.reverseRecOn with
  | nil => exact ⟨by simp, by simp [absorbAll]⟩
  | append_singleton ks k ih => rw [absorbAll_concat]; exact ih.step k

/-- Groups of nonempty sets are nonempty. -/
theorem nonempty_of_mem_absorbAll {N : ι → Finset α} (hne : ∀ k, (N k).Nonempty) (ks : List ι) :
    ∀ g ∈ absorbAll N ks, g.Nonempty := by
  induction ks using List.reverseRecOn with
  | nil => simp [absorbAll]
  | append_singleton ks k ih =>
    intro g hg
    rw [absorbAll_concat] at hg
    rcases mem_absorb hg with hg | ⟨rfl, -⟩ | ⟨g₀, hg₀, -, rfl⟩
    · exact ih g hg
    · exact hne k
    · exact (ih g₀ hg₀).mono Finset.subset_union_left

/-- Two sets that are not one and the same singleton. -/
def Apart (g g' : Finset α) : Prop := ∃ x ∈ g, ∃ y ∈ g', x ≠ y

omit [DecidableEq α] in
theorem Apart.mono {g g' h h' : Finset α} (hgg' : Apart g g') (hg : g ⊆ h) (hg' : g' ⊆ h') :
    Apart h h' := by
  obtain ⟨x, hx, y, hy, hne⟩ := hgg'
  exact ⟨x, hg hx, y, hg' hy, hne⟩

theorem absorb_apart {s : Finset α} (hs : s.Nonempty) : ∀ (gs : List (Finset α)),
    (∀ g ∈ gs, g.Nonempty) → gs.Pairwise Apart → (absorb gs s).Pairwise Apart
  | [], _, _ => by simp [absorb]
  | g :: gs, hgs, hp => by
    rw [List.pairwise_cons] at hp
    by_cases h : (g ∩ s).Nonempty
    · rw [absorb, if_pos h, List.pairwise_cons]
      exact ⟨fun g' hg' => (hp.1 g' hg').mono Finset.subset_union_left subset_rfl, hp.2⟩
    · rw [absorb, if_neg h, List.pairwise_cons]
      refine ⟨fun g' hg' => ?_, absorb_apart hs gs (fun g' hg' => hgs g' (List.mem_cons_of_mem _ hg'))
        hp.2⟩
      rcases mem_absorb hg' with hg' | ⟨rfl, -⟩ | ⟨g₀, hg₀, -, rfl⟩
      · exact hp.1 g' hg'
      · obtain ⟨x, hx⟩ := hgs g List.mem_cons_self
        obtain ⟨y, hy⟩ := hs
        refine ⟨x, hx, y, hy, ?_⟩
        rintro rfl
        exact h ⟨x, Finset.mem_inter.mpr ⟨hx, hy⟩⟩
      · exact (hp.1 g₀ hg₀).mono subset_rfl Finset.subset_union_left

/-- No singleton group occurs twice. -/
theorem absorbAll_apart {N : ι → Finset α} (hne : ∀ k, (N k).Nonempty) (ks : List ι) :
    (absorbAll N ks).Pairwise Apart := by
  induction ks using List.reverseRecOn with
  | nil => simp [absorbAll]
  | append_singleton ks k ih =>
    rw [absorbAll_concat]
    exact absorb_apart (hne k) _ (nonempty_of_mem_absorbAll hne ks) ih

theorem eq_of_mem_of_pairwise {gs : List (Finset α)} (hp : gs.Pairwise Disjoint) {g g' : Finset α}
    (hg : g ∈ gs) (hg' : g' ∈ gs) {x : α} (hx : x ∈ g) (hx' : x ∈ g') : g = g' := by
  by_contra hne
  exact Finset.disjoint_left.mp (hp.forall hg hg' hne) hx hx'

/-- Disjoint groups: no element is in two of them. -/
theorem pairwise_iff_countP : ∀ (gs : List (Finset α)),
    gs.Pairwise Disjoint ↔ ∀ x, gs.countP (fun g => decide (x ∈ g)) ≤ 1
  | [] => by simp
  | g :: gs => by
    rw [List.pairwise_cons, pairwise_iff_countP gs]
    constructor
    · rintro ⟨hg, hgs⟩ x
      rw [List.countP_cons]
      by_cases hx : x ∈ g
      · have h0 : gs.countP (fun g => decide (x ∈ g)) = 0 := by
          rw [List.countP_eq_zero]
          intro g' hg'
          simpa using Finset.disjoint_left.mp (hg g' hg') hx
        simp [h0, hx]
      · simpa [hx] using hgs x
    · intro h
      refine ⟨fun g' hg' => Finset.disjoint_left.mpr fun x hx hx' => ?_, fun x => ?_⟩
      · have hpos : 0 < gs.countP (fun g => decide (x ∈ g)) :=
          List.countP_pos_iff.mpr ⟨g', hg', by simpa using hx'⟩
        have := h x
        rw [List.countP_cons, if_pos (by simpa using hx)] at this
        omega
      · have := h x
        rw [List.countP_cons] at this
        omega

/-- Sets joined through `pre` lie in one group, when the groups are disjoint. -/
theorem Grouped.same_group {N : ι → Finset α} {pre : List ι} {gs : List (Finset α)}
    (hG : Grouped N pre gs) (hp : gs.Pairwise Disjoint) {a b : ι} (hab : Chained N pre a b)
    {g : Finset α} (hg : g ∈ gs) (hag : N a ⊆ g) : N b ⊆ g := by
  induction hab with
  | refl => exact hag
  | tail _ hxy ih =>
    obtain ⟨-, hy, z, hz⟩ := hxy
    obtain ⟨g', hg', hyg'⟩ := hG.covers _ hy
    rw [Finset.mem_inter] at hz
    rwa [eq_of_mem_of_pairwise hp hg hg' (ih hz.1) (hyg' hz.2)]

/-- A group overlapping `N k` contains an earlier set overlapping `N k`. -/
theorem Grouped.touching {N : ι → Finset α} {pre : List ι} {gs : List (Finset α)}
    (hG : Grouped N pre gs) {g : Finset α} (hg : g ∈ gs) {k : ι} (h : (g ∩ N k).Nonempty) :
    ∃ a ∈ pre, N a ⊆ g ∧ Touch N a k := by
  obtain ⟨x, hx⟩ := h
  rw [Finset.mem_inter] at hx
  obtain ⟨a, ha, hxa, hsub⟩ := hG.filled g hg x hx.1
  exact ⟨a, ha, hsub, x, Finset.mem_inter.mpr ⟨hxa, hx.2⟩⟩

/-- One step keeps `Grouped`, whether or not the groups stay disjoint in it. -/
theorem Grouped.step {N : ι → Finset α} (hne : ∀ k, (N k).Nonempty) {pre : List ι}
    {gs : List (Finset α)} (hG : Grouped N pre gs) (hp : gs.Pairwise Disjoint) (k : ι) :
    Grouped N (pre ++ [k]) (absorb gs (N k)) := by
  have hold : ∀ x ∈ pre, x ∈ pre ++ [k] := fun x hx => List.mem_append_left _ hx
  have hk : k ∈ pre ++ [k] := List.mem_append_right _ (List.mem_singleton.mpr rfl)
  -- a set inside `g₀ ∪ N k` and not inside `g₀` alone is joined to `k`
  have hjoin : ∀ g₀ ∈ gs, (g₀ ∩ N k).Nonempty → ∀ a ∈ pre ++ [k], N a ⊆ g₀ ∪ N k →
      Chained N (pre ++ [k]) a k := by
    intro g₀ hg₀ hov a ha hsub
    rcases List.mem_append.mp ha with ha | ha
    · obtain ⟨g', hg', hag'⟩ := hG.covers a ha
      by_cases hak : (N a ∩ N k).Nonempty
      · exact .single ⟨hold a ha, hk, hak⟩
      · -- then `N a` meets `g₀`, so it lies in `g₀` and is joined to the set overlapping `N k`
        obtain ⟨x, hx⟩ := hne a
        have hxg : x ∈ g₀ := by
          rcases Finset.mem_union.mp (hsub hx) with h | h
          · exact h
          · exact absurd ⟨x, Finset.mem_inter.mpr ⟨hx, h⟩⟩ hak
        obtain rfl := eq_of_mem_of_pairwise hp hg₀ hg' hxg (hag' hx)
        obtain ⟨b, hb, hbg, hbk⟩ := hG.touching hg₀ hov
        exact ((hG.chained g₀ hg₀ a ha b hb hag' hbg).mono hold).tail ⟨hold b hb, hk, hbk⟩
    · rw [List.mem_singleton.mp ha]; exact .refl
  refine ⟨hG.toCovered.step k, fun g hg a ha b hb hag hbg => ?_⟩
  rcases mem_absorb hg with hg | ⟨rfl, hnone⟩ | ⟨g₀, hg₀, hov, rfl⟩
  · by_cases hov : (g ∩ N k).Nonempty
    · exact (hjoin g hg hov a ha (hag.trans Finset.subset_union_left)).trans
        (hjoin g hg hov b hb (hbg.trans Finset.subset_union_left)).symm
    · -- `k` itself cannot lie in a group it does not overlap
      have hpre : ∀ c ∈ pre ++ [k], N c ⊆ g → c ∈ pre := by
        intro c hc hcg
        rcases List.mem_append.mp hc with hc | hc
        · exact hc
        · obtain ⟨x, hx⟩ := hne k
          rw [List.mem_singleton.mp hc] at hcg
          exact absurd ⟨x, Finset.mem_inter.mpr ⟨hcg hx, hx⟩⟩ hov
      exact (hG.chained g hg a (hpre a ha hag) b (hpre b hb hbg) hag hbg).mono hold
  · have hlast : ∀ c ∈ pre ++ [k], N c ⊆ N k → c = k := by
      intro c hc hck
      rcases List.mem_append.mp hc with hc | hc
      · obtain ⟨g', hg', hcg'⟩ := hG.covers c hc
        obtain ⟨x, hx⟩ := hne c
        exact absurd ⟨x, Finset.mem_inter.mpr ⟨hcg' hx, hck hx⟩⟩ (hnone g' hg')
      · exact List.mem_singleton.mp hc
    rw [hlast a ha hag, hlast b hb hbg]; exact .refl
  · exact (hjoin g₀ hg₀ hov a ha hag).trans (hjoin g₀ hg₀ hov b hb hbg).symm

/-- As long as the groups are disjoint, a run keeps `Grouped`. -/
theorem grouped_absorbAll {N : ι → Finset α} (hne : ∀ k, (N k).Nonempty) (ks : List ι)
    (hp : (absorbAll N ks).Pairwise Disjoint) : Grouped N ks (absorbAll N ks) := by
  induction ks using List.reverseRecOn with
  | nil => exact ⟨covered_absorbAll N [], by simp⟩
  | append_singleton ks k ih =>
    rw [absorbAll_concat] at hp ⊢
    have hp' := pairwise_of_absorb _ _ hp
    exact (ih hp').step hne hp' k

/-- `Orderly` of a longer index list: of the shorter one, and at the last index. -/
theorem orderly_concat_iff {N : ι → Finset α} {ks : List ι} {k : ι} :
    Orderly N (ks ++ [k]) ↔ Orderly N ks ∧
      ∀ a ∈ ks, ∀ b ∈ ks, Touch N a k → Touch N b k → Chained N ks a b := by
  constructor
  · intro h
    exact ⟨fun pre j post he => h pre j (post ++ [k]) (by simp [he]), h ks k [] rfl⟩
  · rintro ⟨hks, hk⟩ pre j post he
    rcases List.eq_nil_or_concat post with rfl | ⟨post', j', rfl⟩
    · obtain ⟨rfl, hj⟩ := List.append_inj' he rfl
      obtain rfl : k = j := by simpa using hj
      exact hk
    · rw [List.concat_eq_append, ← List.cons_append, ← List.append_assoc] at he
      exact hks pre j post' (List.append_inj' he rfl).1

/-- The groups of a run are disjoint exactly when the order of the family is `Orderly`. -/
theorem absorbAll_pairwise_iff {N : ι → Finset α} (hne : ∀ k, (N k).Nonempty) (ks : List ι) :
    (absorbAll N ks).Pairwise Disjoint ↔ Orderly N ks := by
  induction ks using List.reverseRecOn with
  | nil => simp [absorbAll, Orderly]
  | append_singleton ks k ih =>
    rw [absorbAll_concat, orderly_concat_iff, ← ih]
    constructor
    · intro hp
      have hp' := pairwise_of_absorb _ _ hp
      have hG := grouped_absorbAll hne ks hp'
      refine ⟨hp', fun a ha b hb hak hbk => ?_⟩
      obtain ⟨g, hg, hag⟩ := hG.covers a ha
      obtain ⟨g', hg', hbg'⟩ := hG.covers b hb
      obtain rfl := (pairwise_absorb_iff _ _ hp').mp hp g hg g' hg'
        (hak.mono (Finset.inter_subset_inter_right hag))
        (hbk.mono (Finset.inter_subset_inter_right hbg'))
      exact hG.chained g hg a ha b hb hag hbg'
    · rintro ⟨hp', hk⟩
      have hG := grouped_absorbAll hne ks hp'
      refine (pairwise_absorb_iff _ _ hp').mpr fun g hg g' hg' hov hov' => ?_
      obtain ⟨a, ha, hag, hak⟩ := hG.touching hg hov
      obtain ⟨b, hb, hbg', hbk⟩ := hG.touching hg' hov'
      have hbg := hG.same_group hp' (hk a ha b hb hak hbk) hg hag
      obtain ⟨x, hx⟩ := hne b
      exact eq_of_mem_of_pairwise hp' hg hg' (hbg hx) (hbg' hx)

end Tfs.Merge
