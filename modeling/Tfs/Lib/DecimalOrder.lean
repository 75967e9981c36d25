import Tfs.Lib.Decimal

/-! The order of decimal texts.

    As texts, numbers of equally many digits stand in their order. Of two numbers with different numbers
    of digits the shorter one is the smaller, and the texts may stand the other way. -/

namespace Tfs

/-- Of two different texts one comes first. -/
theorem text_lt_or_gt : ∀ {s t : Str}, s ≠ t → s < t ∨ t < s
  | [], [], h => absurd rfl h
  | [], _ :: _, _ => .inl (List.nil_lt_cons _ _)
  | _ :: _, [], _ => .inr (List.nil_lt_cons _ _)
  | b :: s, c :: t, h => by
    rw [List.cons_lt_cons_iff, List.cons_lt_cons_iff]
    rcases lt_trichotomy b.toNat c.toNat with hlt | heq | hgt
    · exact .inl (.inl (UInt8.lt_iff_toNat_lt.mpr hlt))
    · obtain rfl := UInt8.toNat_inj.mp heq
      rcases text_lt_or_gt fun hst => h (congrArg (b :: ·) hst) with hlt | hgt
      · exact .inl (.inr ⟨rfl, hlt⟩)
      · exact .inr (.inr ⟨rfl, hgt⟩)
    · exact .inr (.inl (UInt8.lt_iff_toNat_lt.mpr hgt))

/-- The value of a text of digits, read behind a number. -/
def digitsValue (init : ℕ) (s : Str) : ℕ := s.foldl (fun n b => 10 * n + (b.toNat - 48)) init

theorem digitsValue_cons (init : ℕ) (b : UInt8) (s : Str) :
    digitsValue init (b :: s) = digitsValue (10 * init + (b.toNat - 48)) s := by
  rw [digitsValue, List.foldl_cons, digitsValue]

theorem digitsValue_decimal (n : ℕ) : digitsValue 0 (decimal n) = n := by
  have hread := leadingDigits_decimal n
  have hall : (decimal n).takeWhile isDigitByte = decimal n :=
    List.takeWhile_eq_self_iff.mpr fun b hb => isDigitByte_of_mem_decimal hb
  simp only [leadingDigits, hall, decimal_ne_nil n, if_false, Option.some.injEq] at hread
  exact hread

theorem isDigitByte_bounds {b : UInt8} (h : isDigitByte b) : 48 ≤ b.toNat ∧ b.toNat ≤ 57 := by
  simp only [isDigitByte, Bool.and_eq_true, decide_eq_true_eq, UInt8.le_iff_toNat_le] at h
  exact h

/-- The digits behind a number keep it within one unit of their place. -/
theorem digitsValue_bounds : ∀ {s : Str} (init : ℕ), (∀ b ∈ s, isDigitByte b) →
    init * 10 ^ s.length ≤ digitsValue init s ∧ digitsValue init s < (init + 1) * 10 ^ s.length
  | [], init, _ => by
    rw [digitsValue, List.foldl_nil, List.length_nil, pow_zero, mul_one, mul_one]
    exact ⟨le_rfl, Nat.lt_succ_self init⟩
  | b :: s, init, h => by
    obtain ⟨hb, hs⟩ := List.forall_mem_cons.mp h
    have hdigit := isDigitByte_bounds hb
    obtain ⟨hlow, hhigh⟩ := digitsValue_bounds (10 * init + (b.toNat - 48)) hs
    rw [digitsValue_cons, List.length_cons, pow_succ]
    constructor
    · calc init * (10 ^ s.length * 10) = 10 * init * 10 ^ s.length := by ring
        _ ≤ (10 * init + (b.toNat - 48)) * 10 ^ s.length := Nat.mul_le_mul_right _ (Nat.le_add_right _ _)
        _ ≤ _ := hlow
    · calc digitsValue (10 * init + (b.toNat - 48)) s
          < (10 * init + (b.toNat - 48) + 1) * 10 ^ s.length := hhigh
        _ ≤ (10 * (init + 1)) * 10 ^ s.length := Nat.mul_le_mul_right _ (by omega)
        _ = (init + 1) * (10 ^ s.length * 10) := by ring

/-- Where the first digits differ, the digits behind them do not matter. -/
theorem digitsValue_lt_of_head {s t : Str} {b c : UInt8} (init : ℕ) (hs : ∀ b ∈ s, isDigitByte b)
    (ht : ∀ b ∈ t, isDigitByte b) (hb : isDigitByte b) (hlen : s.length = t.length) (hlt : b < c) :
    digitsValue init (b :: s) < digitsValue init (c :: t) := by
  have hdigit := isDigitByte_bounds hb
  have hless : b.toNat < c.toNat := UInt8.lt_iff_toNat_lt.mp hlt
  rw [digitsValue_cons, digitsValue_cons]
  calc digitsValue (10 * init + (b.toNat - 48)) s
      < (10 * init + (b.toNat - 48) + 1) * 10 ^ s.length := (digitsValue_bounds _ hs).2
    _ ≤ (10 * init + (c.toNat - 48)) * 10 ^ s.length := Nat.mul_le_mul_right _ (by omega)
    _ ≤ digitsValue (10 * init + (c.toNat - 48)) t := hlen ▸ (digitsValue_bounds _ ht).1

/-- Texts of equally many digits stand in the order of their values. -/
theorem digitsValue_lt_iff : ∀ {s t : Str} (init : ℕ), (∀ b ∈ s, isDigitByte b) → (∀ b ∈ t, isDigitByte b) →
    s.length = t.length → (digitsValue init s < digitsValue init t ↔ s < t)
  | [], [], _, _, _, _ => iff_of_false (lt_irrefl _) (List.lt_irrefl _)
  | b :: s, c :: t, init, hs, ht, hlen => by
    obtain ⟨hb, hs'⟩ := List.forall_mem_cons.mp hs
    obtain ⟨hc, ht'⟩ := List.forall_mem_cons.mp ht
    have hlen' : s.length = t.length := Nat.succ.inj hlen
    rw [List.cons_lt_cons_iff]
    rcases lt_trichotomy b.toNat c.toNat with hlt | heq | hgt
    · have hlt := UInt8.lt_iff_toNat_lt.mpr hlt
      exact iff_of_true (digitsValue_lt_of_head init hs' ht' hb hlen' hlt) (.inl hlt)
    · obtain rfl := UInt8.toNat_inj.mp heq
      have ih := digitsValue_lt_iff (10 * init + (b.toNat - 48)) hs' ht' hlen'
      rw [digitsValue_cons, digitsValue_cons, ih]
      simp
    · have hgt := UInt8.lt_iff_toNat_lt.mpr hgt
      have hback := digitsValue_lt_of_head init ht' hs' hc hlen'.symm hgt
      refine iff_of_false hback.asymm ?_
      rintro (hlt | ⟨rfl, -⟩)
      · exact absurd (UInt8.lt_iff_toNat_lt.mp hlt) (UInt8.lt_iff_toNat_lt.mp hgt).asymm
      · exact absurd (UInt8.lt_iff_toNat_lt.mp hgt) (lt_irrefl _)

/-- Numbers with equally many digits. -/
theorem decimal_lt_of_length_eq {m n : ℕ} (hlen : (decimal m).length = (decimal n).length) :
    decimal m < decimal n ↔ m < n := by
  have hdigits : ∀ {k : ℕ}, ∀ b ∈ decimal k, isDigitByte b := fun _ hb => isDigitByte_of_mem_decimal hb
  rw [← digitsValue_lt_iff 0 hdigits hdigits hlen, digitsValue_decimal, digitsValue_decimal]

/-- Numbers with different numbers of digits. -/
theorem length_decimal_lt {m n : ℕ} (hlen : (decimal m).length < (decimal n).length) : m < n := by
  have hpos : 0 < (decimal m).length := List.length_pos_of_ne_nil (decimal_ne_nil m)
  exact lt_of_lt_of_le ((length_decimal_le_iff hpos).mp le_rfl) (Nat.not_lt.mp fun h =>
    absurd ((length_decimal_le_iff hpos).mpr h) (Nat.not_le.mpr hlen))

/-- The texts stand as the numbers do when they have equally many digits, or when the shorter one is the
    smaller text. -/
theorem decimal_lt_iff_lt {m n : ℕ} : (decimal m < decimal n ↔ m < n) ↔
    (decimal m).length = (decimal n).length ∨
      ((decimal m).length < (decimal n).length ↔ decimal m < decimal n) := by
  rcases lt_trichotomy (decimal m).length (decimal n).length with h | h | h
  · have hlt := length_decimal_lt h
    simp [h, h.ne, hlt]
  · exact iff_of_true (decimal_lt_of_length_eq h) (.inl h)
  · have hlt := length_decimal_lt h
    simp [h.ne', not_lt.mpr h.le, not_lt.mpr hlt.le]

end Tfs
