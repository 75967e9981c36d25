import Mathlib

/-! `std::unique` behind a rearrangement.

    Of neighbours with one key the first is kept. Where the list was not sorted by the keys, a key may
    come back further on. -/

namespace Tfs.Unique

variable {α κ : Type} [DecidableEq κ] (key : α → κ)

/-- `std::unique`, for elements that are equal when their keys are. -/
def unique (l : List α) : List α := l.destutter fun x y => key x ≠ key y

/-- The keys of what is kept. -/
theorem map_unique (l : List α) : (unique key l).map key = (l.map key).destutter (· ≠ ·) :=
  List.map_destutter fun _ _ _ _ => Iff.rfl

theorem countP_unique (k : κ) (l : List α) :
    (unique key l).countP (key · = k) = ((l.map key).destutter (· ≠ ·)).count k := by
  rw [← map_unique, List.count, List.countP_map]
  refine List.countP_congr fun x _ => ?_
  simp

/-- No key is lost. -/
theorem mem_destutter' {k : κ} : ∀ {ks : List κ} {j : κ}, k ∈ j :: ks → k ∈ ks.destutter' (· ≠ ·) j
  | [], _, h => h
  | i :: _, j, h => by
    by_cases hne : j ≠ i
    · rw [List.destutter'_cons_pos _ hne, List.mem_cons]
      rcases List.mem_cons.mp h with rfl | h
      · exact .inl rfl
      · exact .inr (mem_destutter' h)
    · obtain rfl := not_not.mp hne
      rw [List.destutter'_cons_neg _ hne]
      refine mem_destutter' ?_
      rcases List.mem_cons.mp h with rfl | h
      · exact List.mem_cons_self
      · exact h

theorem mem_destutter {k : κ} : ∀ {ks : List κ}, k ∈ ks.destutter (· ≠ ·) ↔ k ∈ ks
  | [] => Iff.rfl
  | _ :: _ => ⟨fun h => (List.destutter_sublist _ _).mem h, mem_destutter'⟩

/-- A key that is there is counted at least once. -/
theorem le_countP_unique (k : κ) (l : List α) :
    (if k ∈ l.map key then 1 else 0) ≤ (unique key l).countP (key · = k) := by
  rw [countP_unique]
  split_ifs with hk
  · exact List.count_pos_iff.mpr (mem_destutter.mpr hk)
  · exact Nat.zero_le _

/-- Keys that are all different are kept once each. -/
theorem count_destutter_of_nodup {ks : List κ} (h : ks.Nodup) (k : κ) :
    (ks.destutter (· ≠ ·)).count k = if k ∈ ks then 1 else 0 := by
  have hchain : ks.IsChain (· ≠ ·) := List.Pairwise.isChain h
  rw [List.destutter_of_isChain _ _ hchain]
  split_ifs with hk
  · exact List.count_eq_one_of_mem h hk
  · exact List.count_eq_zero_of_not_mem hk

/-- Keys that are all the same are kept once. -/
theorem count_destutter_of_same {ks : List κ} (h : ∀ i ∈ ks, ∀ j ∈ ks, i = j) (k : κ) :
    (ks.destutter (· ≠ ·)).count k = if k ∈ ks then 1 else 0 := by
  have hsame : ∀ {ks : List κ} {j : κ}, (∀ i ∈ ks, i = j) → ks.destutter' (· ≠ ·) j = [j] := by
    intro ks
    induction ks with
    | nil => exact fun _ => rfl
    | cons i ks ih =>
      intro j hj
      obtain ⟨rfl, hks⟩ := List.forall_mem_cons.mp hj
      rw [List.destutter'_cons_neg _ (not_not.mpr rfl), ih hks]
  cases ks with
  | nil => simp
  | cons j ks =>
    have hj : ∀ i ∈ ks, i = j := fun i hi => h i (List.mem_cons_of_mem _ hi) j List.mem_cons_self
    have hmem : k ∈ j :: ks ↔ k = j := ⟨fun hk => h k hk j List.mem_cons_self,
      fun hk => hk ▸ List.mem_cons_self⟩
    rw [List.destutter_cons', hsame hj, List.count_singleton]
    by_cases heq : k = j
    · simp [heq]
    · simp [hmem, heq, Ne.symm heq]

variable {key}

/-- Where a key comes twice, and another one at all, the two can be rearranged apart. -/
theorem exists_perm_apart {l : List α} (hdup : ¬ (l.map key).Nodup)
    (hother : ¬ ∀ x ∈ l, ∀ y ∈ l, key x = key y) :
    ∃ (k : κ) (l' : List α), l'.Perm l ∧ 2 ≤ (unique key l').countP (key · = k) := by
  obtain ⟨k, hk⟩ : ∃ k, 2 ≤ (l.map key).count k := by
    by_contra hnone
    push Not at hnone
    exact hdup (List.nodup_iff_count_le_one.mpr fun k => Nat.le_of_lt_succ (hnone k))
  obtain ⟨m, hm, hmk⟩ : ∃ m ∈ l, key m ≠ k := by
    by_contra hnone
    push Not at hnone
    exact hother fun x hx y hy => (hnone x hx).trans (hnone y hy).symm
  -- those of the key first, the others behind them
  have hsplit := List.filter_append_perm (key · = k) l
  have hsame : 2 ≤ (l.filter (key · = k)).length := by
    rw [List.count, List.countP_map, List.countP_eq_length_filter] at hk
    exact le_of_le_of_eq hk (congrArg List.length (List.filter_congr fun x _ => beq_eq_decide (key x) k))
  have hrest : m ∈ l.filter fun x => !decide (key x = k) := List.mem_filter.mpr ⟨hm, by simpa using hmk⟩
  obtain ⟨x, y, xs, hxs⟩ : ∃ x y xs, l.filter (key · = k) = x :: y :: xs := by
    match h : l.filter (key · = k), hsame with
    | x :: y :: xs, _ => exact ⟨x, y, xs, rfl⟩
  obtain ⟨z, zs, hzs⟩ := List.exists_cons_of_ne_nil (List.ne_nil_of_mem hrest)
  have hkey : ∀ w ∈ x :: y :: xs, key w = k := by
    intro w hw
    rw [← hxs] at hw
    exact of_decide_eq_true (List.mem_filter.mp hw).2
  have hx := hkey x List.mem_cons_self
  have hy := hkey y (List.mem_cons_of_mem _ List.mem_cons_self)
  have hz : key z ≠ k := by
    have hin : z ∈ z :: zs := List.mem_cons_self
    rw [← hzs] at hin
    simpa using (List.mem_filter.mp hin).2
  rw [hxs, hzs] at hsplit
  have hmiddle : (x :: z :: (y :: xs ++ zs)).Perm ((x :: y :: xs) ++ z :: zs) :=
    (List.perm_middle.symm).cons x
  refine ⟨k, x :: z :: (y :: xs ++ zs), hmiddle.trans hsplit, ?_⟩
  rw [countP_unique, List.map_cons, List.map_cons, List.cons_append, List.map_cons,
    List.destutter_cons', hx, hy,
    List.destutter'_cons_pos _ hz.symm, List.destutter'_cons_pos _ hz, List.count_cons_self,
    List.count_cons_of_ne hz]
  have hagain := List.count_pos_iff.mpr (List.mem_destutter' (R := (· ≠ ·)) (l := (xs ++ zs).map key) k)
  exact Nat.succ_le_succ hagain

/-- However a list is rearranged, every key in it is kept once, exactly when the keys are all
    different or all the same. -/
theorem kept_once_iff {l : List α} :
    (∀ l' : List α, l'.Perm l → ∀ k, (unique key l').countP (key · = k) = if k ∈ l.map key then 1 else 0) ↔
      (l.map key).Nodup ∨ ∀ x ∈ l, ∀ y ∈ l, key x = key y := by
  constructor
  · intro hall
    by_contra hnot
    obtain ⟨hdup, hother⟩ := not_or.mp hnot
    obtain ⟨k, l', hperm, htwo⟩ := exists_perm_apart hdup hother
    rw [hall l' hperm k] at htwo
    split_ifs at htwo
    · omega
    · omega
  · intro h l' hperm k
    have hmem : k ∈ l'.map key ↔ k ∈ l.map key := (hperm.map key).mem_iff
    simp only [countP_unique, ← hmem]
    rcases h with hnodup | hsame
    · exact count_destutter_of_nodup ((hperm.map key).nodup_iff.mpr hnodup) k
    · refine count_destutter_of_same ?_ k
      intro i hi j hj
      obtain ⟨x, hx, rfl⟩ := List.mem_map.mp hi
      obtain ⟨y, hy, rfl⟩ := List.mem_map.mp hj
      exact hsame x (hperm.mem_iff.mp hx) y (hperm.mem_iff.mp hy)

end Tfs.Unique
