import Tfs.Basic

/-! `std::to_string` of unsigned numbers, and the reading functions of `<string>` that undo it. -/

namespace Tfs

/-- `std::to_string` of an unsigned integer. -/
def decimal (n : ℕ) : Str := str (toString n)

/-- `std::to_string` of a signed integer. -/
def signedDecimal (n : ℤ) : Str := str (toString n)

/-- An ASCII digit. -/
def isDigitByte (b : UInt8) : Bool := 48 ≤ b && b ≤ 57

/-- The value of the digits at the head of the text, `none` without any. -/
def leadingDigits (s : Str) : Option ℕ :=
  let digits := s.takeWhile isDigitByte
  if digits = [] then none else some (digits.foldl (fun n b => 10 * n + (b.toNat - 48)) 0)

/-- White space in front is skipped, then a sign may stand. -/
def signAndRest (s : Str) : Bool × Str :=
  match s.dropWhile fun b => b == 32 || (9 ≤ b && b ≤ 13) with
  | 43 :: rest => (false, rest)
  | 45 :: rest => (true, rest)
  | rest => (false, rest)

/-- `std::stoull` (and `std::stoul`, of the same width): `none` where it throws. -/
def stoull (s : Str) : Option UInt64 :=
  let (negative, rest) := signAndRest s
  match leadingDigits rest with
  | some n => if n < 2 ^ 64 then some (if negative then -UInt64.ofNat n else UInt64.ofNat n) else none
  | none => none

/-- `std::stol`: `none` where it throws. -/
def stol (s : Str) : Option Int64 :=
  let (negative, rest) := signAndRest s
  match leadingDigits rest with
  | some n =>
    let signed : ℤ := if negative then -n else n
    if -2 ^ 63 ≤ signed ∧ signed < 2 ^ 63 then some (Int64.ofInt signed) else none
  | none => none

/-! ### The digits of a number -/

/-- A digit is one byte. -/
theorem toNat_ofNat_digit {n : ℕ} {c : Char} (h : c ∈ Nat.toDigits 10 n) :
    (UInt8.ofNat c.toNat).toNat = c.toNat ∧ 48 ≤ c.toNat ∧ c.toNat ≤ 57 := by
  have hdigit := Nat.isDigit_of_mem_toDigits (by decide) (by decide) h
  simp only [Char.isDigit, ge_iff_le, Bool.and_eq_true, decide_eq_true_eq] at hdigit
  have hbound : 48 ≤ c.toNat ∧ c.toNat ≤ 57 := hdigit
  exact ⟨by simp; omega, hbound⟩

theorem decimal_eq (n : ℕ) : decimal n = (Nat.toDigits 10 n).map fun c => UInt8.ofNat c.toNat := by
  rw [decimal, str, Nat.toString_eq_repr, Nat.toList_repr]

/-- A decimal text is made of digits. -/
theorem isDigitByte_of_mem_decimal {n : ℕ} {b : UInt8} (h : b ∈ decimal n) : isDigitByte b := by
  rw [decimal_eq, List.mem_map] at h
  obtain ⟨c, hc, rfl⟩ := h
  obtain ⟨hmod, hb⟩ := toNat_ofNat_digit hc
  simp only [isDigitByte, UInt8.le_iff_toNat_le, hmod, Bool.and_eq_true, decide_eq_true_eq]
  exact hb

/-- The number of digits. -/
theorem length_decimal_le_iff {n k : ℕ} (hk : 0 < k) : (decimal n).length ≤ k ↔ n < 10 ^ k := by
  rw [decimal_eq, List.length_map]
  exact Nat.length_toDigits_le_iff (by decide) hk

/-- The digits come back from their bytes. -/
theorem toDigits_of_decimal (n : ℕ) :
    (decimal n).map (fun b => Char.ofNat b.toNat) = Nat.toDigits 10 n := by
  rw [decimal_eq, List.map_map]
  conv_rhs => rw [← List.map_id (Nat.toDigits 10 n)]
  refine List.map_congr_left fun c hc => ?_
  simp only [Function.comp_apply, (toNat_ofNat_digit hc).1, Char.ofNat_toNat, id_eq]

/-- Different numbers have different texts. -/
theorem decimal_injective : Function.Injective decimal := by
  intro a b h
  have hdigits : Nat.toDigits 10 a = Nat.toDigits 10 b := by
    rw [← toDigits_of_decimal, ← toDigits_of_decimal, h]
  have hread := congrArg (fun digits => Nat.ofDigitChars 10 digits 0) hdigits
  simpa using hread

theorem decimal_ne_nil (n : ℕ) : decimal n ≠ [] := by
  rw [decimal_eq, ne_eq, List.map_eq_nil_iff]
  exact Nat.toDigits_ne_nil

/-- The digits of a number give it back. -/
theorem leadingDigits_decimal (n : ℕ) : leadingDigits (decimal n) = some n := by
  have hall : (decimal n).takeWhile isDigitByte = decimal n :=
    List.takeWhile_eq_self_iff.mpr fun b hb => isDigitByte_of_mem_decimal hb
  have hvalue : ∀ (digits : List Char), (∀ c ∈ digits, c ∈ Nat.toDigits 10 n) → ∀ init : ℕ,
      (digits.map fun c => UInt8.ofNat c.toNat).foldl (fun n b => 10 * n + (b.toNat - 48)) init
        = Nat.ofDigitChars 10 digits init := by
    intro digits
    induction digits with
    | nil => exact fun _ _ => rfl
    | cons c digits ih =>
      intro hmem init
      rw [List.map_cons, List.foldl_cons, ih (fun c hc => hmem c (List.mem_cons_of_mem _ hc)),
        Nat.ofDigitChars_cons, (toNat_ofNat_digit (hmem c List.mem_cons_self)).1]
      rfl
  rw [leadingDigits, hall, if_neg (decimal_ne_nil n), decimal_eq, hvalue _ (fun _ h => h)]
  simp

/-- No white space and no sign stands in front. -/
theorem signAndRest_decimal (n : ℕ) : signAndRest (decimal n) = (false, decimal n) := by
  cases hdigits : decimal n with
  | nil => exact absurd hdigits (decimal_ne_nil n)
  | cons b rest =>
    have hdigit := isDigitByte_of_mem_decimal (n := n) (b := b) (hdigits ▸ List.mem_cons_self)
    simp only [isDigitByte, Bool.and_eq_true, decide_eq_true_eq, UInt8.le_iff_toNat_le] at hdigit
    have h48 : (48 : UInt8).toNat = 48 := rfl
    have hspace : (b == 32 || (9 ≤ b && b ≤ 13)) = false := by
      simp only [Bool.or_eq_false_iff, beq_eq_false_iff_ne, ne_eq, ← UInt8.toNat_inj, Bool.and_eq_false_iff,
        decide_eq_false_iff_not, UInt8.le_iff_toNat_le]
      have h32 : (32 : UInt8).toNat = 32 := rfl
      have h13 : (13 : UInt8).toNat = 13 := rfl
      omega
    rw [signAndRest, List.dropWhile_cons_of_neg (by simp [hspace])]
    split
    · next heq =>
      obtain ⟨rfl, -⟩ := List.cons.inj heq
      exact absurd hdigit.1 (by decide)
    · next heq =>
      obtain ⟨rfl, -⟩ := List.cons.inj heq
      exact absurd hdigit.1 (by decide)
    · rfl

/-- `std::stoull` reads what `std::to_string` wrote. -/
theorem stoull_decimal (n : UInt64) : stoull (decimal n.toNat) = some n := by
  simp only [stoull, signAndRest_decimal, leadingDigits_decimal, if_pos n.toNat_lt, Bool.false_eq_true, if_false,
    UInt64.ofNat_toNat]

end Tfs
