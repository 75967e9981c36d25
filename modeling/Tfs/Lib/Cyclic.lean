import Mathlib

/-! A sorted list as a circle.

    Walking forward from `u` to `d` on a circle meets everything that lies between them, in the order of
    the list and around its end (`mem_walk_of_between`). Points on the circle cut it into gaps, and every
    other element lies in one of them (`exists_neighbours_between`). -/

namespace Tfs.Cyclic

variable {α : Type} [LinearOrder α]

/-- The index before `i` in a circle of `k`. -/
def prev (k i : ℕ) : ℕ := (i + k - 1) % k

/-- The index behind `i` in a circle of `k`. -/
def next (k i : ℕ) : ℕ := (i + 1) % k

theorem prev_eq {k i : ℕ} (h : i < k) : prev k i = if i = 0 then k - 1 else i - 1 := by
  rcases Nat.eq_zero_or_pos i with rfl | hi
  · rw [if_pos rfl, prev, Nat.zero_add, Nat.mod_eq_of_lt (by omega)]
  · have hsplit : i + k - 1 = i - 1 + k := by omega
    rw [if_neg (by omega), prev, hsplit, Nat.add_mod_right, Nat.mod_eq_of_lt (by omega)]

theorem next_eq {k i : ℕ} (h : i < k) : next k i = if i + 1 = k then 0 else i + 1 := by
  rcases eq_or_ne (i + 1) k with hlast | hmore
  · rw [if_pos hlast, next, hlast, Nat.mod_self]
  · rw [if_neg hmore, next, Nat.mod_eq_of_lt (by omega)]

theorem prev_lt {k i : ℕ} (h : i < k) : prev k i < k := Nat.mod_lt _ (by omega)

theorem next_lt {k i : ℕ} (h : i < k) : next k i < k := Nat.mod_lt _ (by omega)

/-- On a circle of at least four the neighbours of `i` are neither equal nor next to each other. -/
theorem neighbours_apart {k i : ℕ} (hk : 4 ≤ k) (hi : i < k) :
    prev k i ≠ next k i ∧ prev k (prev k i) ≠ next k i ∧ next k (next k i) ≠ prev k i := by
  rw [prev_eq (prev_lt hi), next_eq (next_lt hi), prev_eq hi, next_eq hi]
  refine ⟨?_, ?_, ?_⟩ <;> split_ifs <;> omega

/-! ### Steps -/

/-- So many steps from `i`, backward if the number is negative. -/
def stepBy (k : ℕ) (value : ℤ) (i : ℕ) : ℕ :=
  if 0 ≤ value then (next k)^[value.toNat] i else (prev k)^[(-value).toNat] i

theorem iterate_next {k i : ℕ} (hi : i < k) : ∀ n : ℕ, (((next k)^[n] i : ℕ) : ℤ) = (i + n) % k
  | 0 => by simp [Int.emod_eq_of_lt (Int.natCast_nonneg i) (by omega : (i : ℤ) < k)]
  | n + 1 => by
    rw [Function.iterate_succ_apply', next, Int.natCast_emod, Nat.cast_add, iterate_next hi n, Nat.cast_one, Int.emod_add_emod]
    push_cast
    rw [add_assoc]

theorem iterate_prev {k i : ℕ} (hi : i < k) : ∀ n : ℕ, (((prev k)^[n] i : ℕ) : ℤ) = (i - n) % k
  | 0 => by simp [Int.emod_eq_of_lt (Int.natCast_nonneg i) (by omega : (i : ℤ) < k)]
  | n + 1 => by
    rw [Function.iterate_succ_apply', prev, Int.natCast_emod, Nat.cast_sub (by omega), Nat.cast_add, iterate_prev hi n,
      Nat.cast_one, add_sub_assoc, Int.emod_add_emod, ← add_sub_assoc, add_sub_right_comm, Int.add_emod_right]
    push_cast
    rw [sub_sub]

/-- Steps around a circle lead to the index modulo its length. -/
theorem stepBy_eq {k i : ℕ} (hi : i < k) (value : ℤ) : ((stepBy k value i : ℕ) : ℤ) = (i + value) % k := by
  rw [stepBy]
  split_ifs with hnonneg
  · rw [iterate_next hi, Int.toNat_of_nonneg hnonneg]
  · rw [iterate_prev hi, Int.toNat_of_nonneg (by omega), sub_neg_eq_add]

theorem stepBy_lt {k i : ℕ} (hi : i < k) (value : ℤ) : stepBy k value i < k := by
  have heq := stepBy_eq hi value
  have hlt := Int.emod_lt_of_pos (i + value) (by omega : (0 : ℤ) < k)
  omega

/-- Indices in a row, no more than the circle has, are different. -/
theorem stepBy_inj {k i m : ℕ} (hi : i < k) (hm : m ≤ k) (start : ℤ) {a b : ℕ} (ha : a < m) (hb : b < m)
    (heq : stepBy k (start + a) i = stepBy k (start + b) i) : a = b := by
  have hmod : (i + (start + a)) % (k : ℤ) = (i + (start + b)) % k := by
    rw [← stepBy_eq hi, ← stepBy_eq hi, heq]
  have hdvd := Int.ModEq.dvd hmod
  have hzero : (i + (start + b) - (i + (start + a)) : ℤ) = 0 :=
    Int.eq_zero_of_abs_lt_dvd hdvd (by rw [abs_lt]; constructor <;> omega)
  omega

/-! ### Walking -/

/-- What is met until `d` is reached, `d` included. -/
def takeThrough (d : α) : List α → List α
  | [] => []
  | y :: ys => y :: if y = d then [] else takeThrough d ys

/-- Forward from `u` to `d`, around the end of the list where necessary. -/
def walk (l : List α) (u d : α) : List α :=
  takeThrough d (l.dropWhile (· ≠ u) ++ l.takeWhile (· ≠ u))

/-- What is met before `d` is met. -/
theorem mem_takeThrough_of_split {d x : α} : ∀ {front : List α} (rest : List α), d ∉ front →
    x ∈ takeThrough d (front ++ x :: rest)
  | [], rest, _ => by simp [takeThrough]
  | y :: ys, rest, h => by
    have hy : y ≠ d := fun heq => h (by simp [heq])
    have hys : d ∉ ys := fun hmem => h (List.mem_cons_of_mem _ hmem)
    simp [takeThrough, hy, mem_takeThrough_of_split rest hys]

/-- `x` lies between `u` and `d` on the circle. -/
def Between (u x d : α) : Prop := (u ≤ d ∧ u ≤ x ∧ x ≤ d) ∨ (d < u ∧ (u ≤ x ∨ x ≤ d))

/-- An element of a sorted list, with the smaller ones before it and the larger ones behind it. -/
theorem exists_split_of_mem {l : List α} (hl : l.Pairwise (· < ·)) {u : α} (hu : u ∈ l) :
    ∃ before behind, l = before ++ u :: behind ∧ (∀ y ∈ before, y < u) ∧ ∀ y ∈ behind, u < y := by
  obtain ⟨before, behind, rfl⟩ := List.append_of_mem hu
  rw [List.pairwise_append, List.pairwise_cons] at hl
  exact ⟨before, behind, rfl, fun y hy => hl.2.2 y hy u List.mem_cons_self, hl.2.1.1⟩

theorem mem_walk_of_between {l : List α} (hl : l.Pairwise (· < ·)) {u x d : α} (hu : u ∈ l) (hx : x ∈ l)
    (hbetween : Between u x d) : x ∈ walk l u d := by
  obtain ⟨before, behind, rfl, hbefore, hbehind⟩ := exists_split_of_mem hl hu
  have hdrop : (before ++ u :: behind).dropWhile (· ≠ u) = u :: behind := by
    rw [List.dropWhile_append_of_pos]
    · simp
    · intro y hy
      simpa using (hbefore y hy).ne
  have htake : (before ++ u :: behind).takeWhile (· ≠ u) = before := by
    rw [List.takeWhile_append_of_pos]
    · simp
    · intro y hy
      simpa using (hbefore y hy).ne
  rw [walk, hdrop, htake]
  have hparts := List.pairwise_append.mp hl
  have hupper : ∀ y ∈ u :: behind, u ≤ y := by
    intro y hy
    rcases List.mem_cons.mp hy with rfl | hy
    · exact le_rfl
    · exact (hbehind y hy).le
  rcases lt_or_ge x u with hlow | hhigh
  · -- `x` is met behind the end of the list, so `d` is smaller than `u`
    obtain ⟨hdu, hxd⟩ : d < u ∧ x ≤ d := by
      rcases hbetween with ⟨-, hux, -⟩ | ⟨hdu, hux | hxd⟩
      · exact absurd hlow (not_lt.mpr hux)
      · exact absurd hlow (not_lt.mpr hux)
      · exact ⟨hdu, hxd⟩
    have hmem : x ∈ before := by
      rcases List.mem_append.mp hx with h | h
      · exact h
      · exact absurd hlow (not_lt.mpr (hupper x h))
    obtain ⟨front, rest, rfl, hfront, -⟩ := exists_split_of_mem hparts.1 hmem
    rw [← List.append_assoc]
    refine mem_takeThrough_of_split rest ?_
    intro hd
    rcases List.mem_append.mp hd with h | h
    · exact absurd hdu (not_lt.mpr (hupper d h))
    · exact absurd (hfront d h) (not_lt.mpr hxd)
  · have hmem : x ∈ u :: behind := by
      rcases List.mem_append.mp hx with h | h
      · exact absurd (hbefore x h) (not_lt.mpr hhigh)
      · exact h
    obtain ⟨front, rest, hsplit, hfront, -⟩ := exists_split_of_mem hparts.2.1 hmem
    rw [hsplit, List.append_assoc]
    refine mem_takeThrough_of_split _ ?_
    intro hd
    rcases hbetween with ⟨-, -, hxd⟩ | ⟨hdu, -⟩
    · exact absurd (hfront d hd) (not_lt.mpr hxd)
    · have hmem' : d ∈ u :: behind := hsplit ▸ List.mem_append_left _ hd
      exact absurd hdu (not_lt.mpr (hupper d hmem'))

/-! ### Gaps -/

/-- How many of the points are smaller than `x`: those at the front. -/
theorem getElem_lt_iff_lt_countP {points : List α} (hpoints : points.Pairwise (· < ·)) (x : α) :
    ∀ (i : ℕ) (hi : i < points.length), points[i] < x ↔ i < points.countP (· < x) := by
  induction points with
  | nil => intro i hi; simp at hi
  | cons p points ih =>
    obtain ⟨hp, hpoints⟩ := List.pairwise_cons.mp hpoints
    intro i hi
    rcases lt_or_ge p x with hlt | hge
    · cases i with
      | zero => simp [hlt]
      | succ i => simpa [hlt] using ih hpoints i (by simpa using hi)
    · -- nothing behind `p` is smaller than `x` either
      have hnone : points.countP (· < x) = 0 := by
        rw [List.countP_eq_zero]
        intro y hy
        simpa using hge.trans (hp y hy).le
      have hcount : (p :: points).countP (· < x) = 0 := by
        simp [hnone, not_lt.mpr hge]
      rw [hcount]
      refine iff_of_false ?_ (by omega)
      cases i with
      | zero => exact not_lt.mpr hge
      | succ i => exact not_lt.mpr (hge.trans (hp _ (List.getElem_mem _)).le)

/-- Of at least three points on a circle one has `x` between its neighbours. -/
theorem exists_neighbours_between {points : List α} (hpoints : points.Pairwise (· < ·))
    (hlen : 3 ≤ points.length) {x : α} (hx : x ∉ points) :
    ∃ i r u d, points[i]? = some r ∧ points[prev points.length i]? = some u ∧
      points[next points.length i]? = some d ∧ Between u x d := by
  have hcount := getElem_lt_iff_lt_countP hpoints x
  have hmono := List.pairwise_iff_getElem.mp hpoints
  obtain ⟨c, hc⟩ : ∃ c, c = points.countP (· < x) := ⟨_, rfl⟩
  rw [← hc] at hcount
  have habove : ∀ (j : ℕ) (hj : j < points.length), c ≤ j → x < points[j] := by
    intro j hj hcj
    have hnot : ¬ points[j] < x := fun h => absurd ((hcount j hj).mp h) (by omega)
    exact lt_of_le_of_ne (not_lt.mp hnot) fun heq => hx (heq ▸ List.getElem_mem _)
  have hbelow : ∀ (j : ℕ) (hj : j < points.length), j < c → points[j] < x := fun j hj hjc =>
    (hcount j hj).mpr hjc
  have hat : ∀ (i iu id : ℕ) (hi : i < points.length) (hu : iu < points.length)
      (hd : id < points.length), prev points.length i = iu → next points.length i = id →
      Between points[iu] x points[id] →
      ∃ i r u d, points[i]? = some r ∧ points[prev points.length i]? = some u ∧
        points[next points.length i]? = some d ∧ Between u x d := by
    rintro i _ _ hi hu hd rfl rfl hbetween
    exact ⟨i, _, _, _, List.getElem?_eq_getElem hi, List.getElem?_eq_getElem hu,
      List.getElem?_eq_getElem hd, hbetween⟩
  have hcle : c ≤ points.length := hc ▸ List.countP_le_length
  obtain hzero | hone | ⟨hlow, hhigh⟩ | hall :
      c = 0 ∨ c = 1 ∨ (1 < c ∧ c < points.length) ∨ c = points.length := by omega
  · -- `x` is below all points, between the last one and the first one
    refine hat (points.length - 1) (points.length - 2) 0 (by omega) (by omega) (by omega)
      (by rw [prev_eq (by omega), if_neg (by omega)]; omega)
      (by rw [next_eq (by omega), if_pos (by omega)]) (.inr ⟨?_, .inr ?_⟩)
    · exact hmono 0 _ (by omega) (by omega) (by omega)
    · exact (habove 0 (by omega) (by omega)).le
  · refine hat 0 (points.length - 1) 1 (by omega) (by omega) (by omega)
      (by rw [prev_eq (by omega), if_pos rfl])
      (by rw [next_eq (by omega), if_neg (by omega)]) (.inr ⟨?_, .inr ?_⟩)
    · exact hmono 1 _ (by omega) (by omega) (by omega)
    · exact (habove 1 (by omega) (by omega)).le
  · refine hat (c - 1) (c - 2) c (by omega) (by omega) (by omega)
      (by rw [prev_eq (by omega), if_neg (by omega)]; omega)
      (by rw [next_eq (by omega), if_neg (by omega)]; omega) (.inl ⟨?_, ?_, ?_⟩)
    · exact (hmono (c - 2) c (by omega) (by omega) (by omega)).le
    · exact (hbelow (c - 2) (by omega) (by omega)).le
    · exact (habove c (by omega) (by omega)).le
  · -- `x` is above all points
    refine hat (points.length - 1) (points.length - 2) 0 (by omega) (by omega) (by omega)
      (by rw [prev_eq (by omega), if_neg (by omega)]; omega)
      (by rw [next_eq (by omega), if_pos (by omega)]) (.inr ⟨?_, .inl ?_⟩)
    · exact hmono 0 _ (by omega) (by omega) (by omega)
    · exact (hbelow _ (by omega) (by omega)).le

end Tfs.Cyclic
