import Mathlib

/-! Rounding to 53 binary digits, as the arithmetic of `double` rounds.

    A positive number is scaled so that its whole part has 53 digits, and the nearest whole number
    is taken, of two nearest ones the even one. The exponents that a `double` can have are not
    bounded here. -/

namespace Tfs

/-- The nearest whole number; of two, the even one. -/
def roundHalfEven (x : ℚ) : ℤ :=
  let below := ⌊x⌋
  if x - below < 1 / 2 then below
  else if 1 / 2 < x - below then below + 1
  else if below % 2 = 0 then below else below + 1

/-- The number as a `double`. -/
def toDouble (x : ℚ) : ℚ :=
  let unit : ℚ := 2 ^ (Int.log 2 x - 52)
  roundHalfEven (x / unit) * unit

theorem abs_roundHalfEven_sub_le (x : ℚ) : |(roundHalfEven x : ℚ) - x| ≤ 1 / 2 := by
  have hlow := Int.floor_le x
  have hhigh := Int.lt_floor_add_one x
  rw [roundHalfEven, abs_le]
  split_ifs with h h' h''
  · constructor <;> linarith
  · push_cast
    constructor <;> linarith
  · constructor <;> linarith
  · push_cast
    constructor <;> linarith

/-- Rounding changes a positive number by one part in `2 ^ 53` at most. -/
theorem abs_toDouble_sub_le {x : ℚ} (hx : 0 < x) : |toDouble x - x| ≤ x / 2 ^ 53 := by
  have hunit : (0 : ℚ) < 2 ^ (Int.log 2 x - 52) := by positivity
  have hscale : (2 : ℚ) ^ (Int.log 2 x - 52) * 2 ^ 52 ≤ x := by
    rw [← zpow_natCast (2 : ℚ) 52, ← zpow_add₀ two_ne_zero]
    simpa using Int.zpow_log_le_self one_lt_two hx
  have hround := abs_roundHalfEven_sub_le (x / 2 ^ (Int.log 2 x - 52))
  have heq : toDouble x - x = (roundHalfEven (x / 2 ^ (Int.log 2 x - 52)) - x / 2 ^ (Int.log 2 x - 52)) *
      2 ^ (Int.log 2 x - 52) := by
    rw [toDouble, sub_mul, div_mul_cancel₀ _ hunit.ne']
  rw [heq, abs_mul, abs_of_pos hunit]
  calc |(roundHalfEven (x / 2 ^ (Int.log 2 x - 52)) : ℚ) - x / 2 ^ (Int.log 2 x - 52)| * 2 ^ (Int.log 2 x - 52)
      ≤ 1 / 2 * 2 ^ (Int.log 2 x - 52) := mul_le_mul_of_nonneg_right hround hunit.le
    _ ≤ x / 2 ^ 53 := by linarith

theorem toDouble_zero : toDouble 0 = 0 := by
  have hround : roundHalfEven 0 = 0 := by simp [roundHalfEven]
  rw [toDouble]
  rw [zero_div, hround, Int.cast_zero, zero_mul]

theorem toDouble_pos {x : ℚ} (hx : 0 < x) : 0 < toDouble x := by
  have h := (abs_le.mp (abs_toDouble_sub_le hx)).1
  have hsmall : x / 2 ^ 53 < x := div_lt_self hx (by norm_num)
  linarith

theorem toDouble_le {x : ℚ} (hx : 0 < x) : toDouble x ≤ x + x / 2 ^ 53 := by
  have h := (abs_le.mp (abs_toDouble_sub_le hx)).2
  linarith

/-- Rounding keeps the order of numbers that are far enough apart. -/
theorem toDouble_lt_iff {x y : ℚ} (hx : 0 < x) (hy : 0 < y) (hgap : x ≠ y → (x + y) / 2 ^ 53 < |x - y|) :
    toDouble x < toDouble y ↔ x < y := by
  have hx' := abs_le.mp (abs_toDouble_sub_le hx)
  have hy' := abs_le.mp (abs_toDouble_sub_le hy)
  rcases lt_trichotomy x y with hlt | rfl | hlt
  · have hsep := hgap hlt.ne
    rw [abs_of_neg (sub_neg.mpr hlt), add_div] at hsep
    exact iff_of_true (by linarith [hx'.2, hy'.1]) hlt
  · exact iff_of_false (lt_irrefl _) (lt_irrefl _)
  · have hsep := hgap hlt.ne'
    rw [abs_of_pos (sub_pos.mpr hlt), add_div] at hsep
    exact iff_of_false (not_lt.mpr (by linarith [hx'.1, hy'.2])) hlt.asymm

/-- Rounding does not lead below a power of two. -/
theorem two_zpow_le_toDouble {x : ℚ} {k : ℤ} (hx : (2 : ℚ) ^ k ≤ x) : (2 : ℚ) ^ k ≤ toDouble x := by
  have hpos : 0 < x := lt_of_lt_of_le (by positivity) hx
  have hunit : (0 : ℚ) < 2 ^ (Int.log 2 x - 52) := by positivity
  have hlog : k ≤ Int.log 2 x := (Int.zpow_le_iff_le_log one_lt_two hpos).mp (by exact_mod_cast hx)
  have hscale : (2 : ℚ) ^ (Int.log 2 x - 52) * 2 ^ 52 = 2 ^ Int.log 2 x := by
    rw [← zpow_natCast (2 : ℚ) 52, ← zpow_add₀ two_ne_zero]
    simp
  have hfloor : (2 ^ 52 : ℤ) ≤ roundHalfEven (x / 2 ^ (Int.log 2 x - 52)) := by
    have hle : (2 ^ 52 : ℤ) ≤ ⌊x / 2 ^ (Int.log 2 x - 52)⌋ := by
      rw [Int.le_floor, le_div_iff₀ hunit, mul_comm, Int.cast_pow, Int.cast_ofNat, hscale]
      exact_mod_cast Int.zpow_log_le_self one_lt_two hpos
    refine hle.trans ?_
    rw [roundHalfEven]
    split_ifs <;> omega
  calc (2 : ℚ) ^ k ≤ 2 ^ Int.log 2 x := zpow_le_zpow_right₀ one_le_two hlog
    _ = 2 ^ 52 * 2 ^ (Int.log 2 x - 52) := by rw [← hscale, mul_comm]
    _ ≤ toDouble x := by
      rw [toDouble]
      refine mul_le_mul_of_nonneg_right ?_ hunit.le
      exact_mod_cast hfloor

/-- Whether a share is less than a half can be seen after rounding. -/
theorem toDouble_div_lt_half_iff {s n : ℕ} (hn : 0 < n) (hsmall : n ≤ 2 ^ 53) :
    toDouble (s / n) < 1 / 2 ↔ 2 * s < n := by
  have hn' : (0 : ℚ) < n := by exact_mod_cast hn
  constructor
  · intro hlt
    by_contra hge
    have hhalf : (2 : ℚ) ^ (-1 : ℤ) ≤ s / n := by
      rw [le_div_iff₀ hn', zpow_neg_one, inv_mul_le_iff₀ two_pos]
      exact_mod_cast not_lt.mp hge
    have hround := two_zpow_le_toDouble hhalf
    norm_num at hround hlt
    linarith
  · intro hlt
    rcases Nat.eq_zero_or_pos s with rfl | hs
    · rw [Nat.cast_zero, zero_div, toDouble_zero]
      norm_num
    · -- the share is less than a half by half a part, which is more than rounding adds
      have hs' : (0 : ℚ) < s := by exact_mod_cast hs
      have hround := toDouble_le (div_pos hs' hn')
      have hgap : (s : ℚ) / n + 1 / (2 * n) ≤ 1 / 2 := by
        rw [← sub_nonneg, show (1 : ℚ) / 2 - (s / n + 1 / (2 * n)) =
          (n - (2 * s + 1)) / (2 * n) by field_simp]
        refine div_nonneg (sub_nonneg.mpr ?_) (by positivity)
        exact_mod_cast hlt
      have hpart : (1 : ℚ) / 2 / 2 ^ 53 ≤ 1 / (2 * n) := by
        rw [div_div]
        refine one_div_le_one_div_of_le (by positivity) ?_
        have : (n : ℚ) ≤ 2 ^ 53 := by exact_mod_cast hsmall
        linarith
      have hless : (s : ℚ) / n < 1 / 2 := by
        have : (0 : ℚ) < 1 / (2 * n) := by positivity
        linarith
      have hstrict : (s : ℚ) / n / 2 ^ 53 < 1 / 2 / 2 ^ 53 := div_lt_div_of_pos_right hless (by positivity)
      linarith

theorem roundHalfEven_le {x : ℚ} {m : ℤ} (hx : x ≤ m) : roundHalfEven x ≤ m := by
  have hfloor : ⌊x⌋ ≤ m := Int.floor_le_iff.mpr (lt_of_le_of_lt hx (lt_add_one _))
  rcases hfloor.lt_or_eq with hlt | heq
  · rw [roundHalfEven]
    split_ifs <;> omega
  · have hexact : x - ⌊x⌋ = 0 := by
      have := Int.floor_le x
      rw [heq] at this ⊢
      linarith
    rw [roundHalfEven, hexact, if_pos (by norm_num), heq]

/-- Rounding does not lead above a power of two. -/
theorem toDouble_le_two_zpow {x : ℚ} {k : ℤ} (hpos : 0 < x) (hx : x ≤ (2 : ℚ) ^ k) :
    toDouble x ≤ (2 : ℚ) ^ k := by
  have hunit : (0 : ℚ) < 2 ^ (Int.log 2 x - 52) := by positivity
  -- in units of the last digit the power of two is a whole number
  obtain ⟨m, hm⟩ : ∃ m : ℕ, (2 : ℚ) ^ k = m * 2 ^ (Int.log 2 x - 52) := by
    have hlog : Int.log 2 x ≤ k := by
      have hle := Int.log_mono_right (b := 2) hpos hx
      have hpow := Int.log_zpow (R := ℚ) one_lt_two k
      rw [Nat.cast_ofNat] at hpow
      rwa [hpow] at hle
    refine ⟨2 ^ (k - Int.log 2 x + 52).toNat, ?_⟩
    rw [Nat.cast_pow, Nat.cast_ofNat, ← zpow_natCast, ← zpow_add₀ two_ne_zero, Int.toNat_of_nonneg (by omega)]
    congr 1
    omega
  rw [hm, toDouble]
  refine mul_le_mul_of_nonneg_right ?_ hunit.le
  have hround := roundHalfEven_le (x := x / 2 ^ (Int.log 2 x - 52)) (m := m) (by
    rw [div_le_iff₀ hunit, Int.cast_natCast, ← hm]
    exact hx)
  exact_mod_cast hround

/-- Shares of one number that are not too many stay apart. -/
theorem toDouble_div_inj {a b n : ℕ} (hn : 0 < n) (ha : a < 2 ^ 52) (hb : b < 2 ^ 52) :
    toDouble (a / n) = toDouble (b / n) ↔ a = b := by
  have hn' : (0 : ℚ) < n := by exact_mod_cast hn
  refine ⟨fun h => ?_, fun h => by rw [h]⟩
  rcases Nat.eq_zero_or_pos a with rfl | hapos <;> rcases Nat.eq_zero_or_pos b with rfl | hbpos
  · rfl
  · have hpos : (0 : ℚ) < b / n := div_pos (by exact_mod_cast hbpos) hn'
    rw [Nat.cast_zero, zero_div, toDouble_zero] at h
    exact absurd h (toDouble_pos hpos).ne
  · have hpos : (0 : ℚ) < a / n := div_pos (by exact_mod_cast hapos) hn'
    rw [Nat.cast_zero, zero_div, toDouble_zero] at h
    exact absurd h (toDouble_pos hpos).ne'
  · have hapos' : (0 : ℚ) < a / n := div_pos (by exact_mod_cast hapos) hn'
    have hbpos' : (0 : ℚ) < b / n := div_pos (by exact_mod_cast hbpos) hn'
    have hgap : ∀ {c d : ℕ}, c < 2 ^ 52 → d < 2 ^ 52 → (c : ℚ) / n ≠ d / n →
      ((c : ℚ) / n + d / n) / 2 ^ 53 < |(c : ℚ) / n - d / n| := by
      intro c d hc hd hne
      have hcd : c ≠ d := fun h => hne (by rw [h])
      rw [← add_div, ← sub_div, abs_div, abs_of_pos hn', div_right_comm, div_lt_div_iff_of_pos_right hn']
      have hone : (1 : ℚ) ≤ |(c : ℚ) - d| := by
        have : (1 : ℤ) ≤ |(c : ℤ) - d| := Int.one_le_abs (sub_ne_zero.mpr (by exact_mod_cast hcd))
        exact_mod_cast this
      refine lt_of_lt_of_le ?_ hone
      rw [div_lt_one (by positivity)]
      exact_mod_cast (show c + d < 2 ^ 53 by omega)
    have hlt := (toDouble_lt_iff hapos' hbpos' (hgap ha hb)).not.mp h.not_lt
    have hgt := (toDouble_lt_iff hbpos' hapos' (hgap hb ha)).not.mp h.not_gt
    have heq := le_antisymm (not_lt.mp hgt) (not_lt.mp hlt)
    exact_mod_cast (div_left_inj' hn'.ne').mp heq

end Tfs
