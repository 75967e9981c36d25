import Mathlib

/-! Unsigned 64-bit words against the natural numbers.

    Sums of words are sums modulo `2 ^ 64`; a word read back as a signed one is non-negative exactly
    below `2 ^ 63`; and a purse of `held` coins that pays `spent` of them, both counted modulo
    `2 ^ 64`, keeps the books balanced exactly when both counts wrapped equally often. -/

namespace Tfs.Word

theorem foldl_add_toNat (ws : List UInt64) : ∀ a : UInt64,
    (ws.foldl (· + ·) a).toNat = (a.toNat + (ws.map UInt64.toNat).sum) % 2 ^ 64 := by
  induction ws with
  | nil => intro a; simp
  | cons w ws ih =>
    intro a
    rw [List.foldl_cons, ih, UInt64.toNat_add, List.map_cons, List.sum_cons]
    omega

theorem toInt64_toInt (w : UInt64) :
    w.toInt64.toInt = if w.toNat < 2 ^ 63 then (w.toNat : ℤ) else w.toNat - 2 ^ 64 := by
  have h : w.toInt64.toInt = w.toBitVec.toInt := rfl
  rw [h, BitVec.toInt_eq_toNat_cond]
  simp only [UInt64.toNat_toBitVec]
  split_ifs with h1 h2 h2 <;> omega

theorem toInt64_nonneg_iff (w : UInt64) : 0 ≤ w.toInt64.toInt ↔ w.toNat < 2 ^ 63 := by
  have := w.toNat_lt
  rw [toInt64_toInt]
  split_ifs with h <;> omega

theorem toInt64_of_lt {w : UInt64} (h : w.toNat < 2 ^ 63) : w.toInt64.toInt = w.toNat := by
  rw [toInt64_toInt, if_pos h]

/-- Paying `spent` out of `held` in words: the books balance exactly when both wrapped equally
    often. -/
theorem settle_iff {spent held : ℕ} (h : spent % 2 ^ 64 ≤ held % 2 ^ 64) :
    spent + (held % 2 ^ 64 - spent % 2 ^ 64) = held ↔ spent / 2 ^ 64 = held / 2 ^ 64 := by
  omega

end Tfs.Word
