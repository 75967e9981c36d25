import Mathlib.Data.List.Basic

/-! Functions that take their input block by block, as the iterated hash functions do: each complete
    block changes a state, and what does not fill a block waits for more input. -/

namespace Tfs.Blocks

variable {σ β : Type} (n : ℕ) (compress : σ → List β → σ)

/-- The state after the complete blocks of the input, and what is left over. -/
def absorb (s : σ) (l : List β) : σ × List β :=
  if 0 < n ∧ n ≤ l.length then absorb (compress s (l.take n)) (l.drop n) else (s, l)
termination_by l.length
decreasing_by
  rename_i h
  rw [List.length_drop]
  omega

variable {n compress}

theorem absorb_of_lt {s : σ} {l : List β} (h : l.length < n) : absorb n compress s l = (s, l) := by
  rw [absorb, if_neg fun hn => absurd hn.2 (Nat.not_le.mpr h)]

theorem absorb_block {s : σ} {b l : List β} (hn : 0 < n) (hb : b.length = n) :
    absorb n compress s (b ++ l) = absorb n compress (compress s b) l := by
  rw [absorb, if_pos ⟨hn, by simp [hb]⟩, List.take_left' hb, List.drop_left' hb]

theorem absorb_one {s : σ} {b : List β} (hn : 0 < n) (hb : b.length = n) :
    absorb n compress s b = (compress s b, []) := by
  have h : absorb n compress s (b ++ []) = absorb n compress (compress s b) [] := absorb_block hn hb
  have hnil : absorb n compress (compress s b) [] = (compress s b, []) :=
    absorb_of_lt (by rwa [List.length_nil])
  rwa [List.append_nil, hnil] at h

/-- Input in two parts: the second joins what the first left over. -/
theorem absorb_append (hn : 0 < n) {s : σ} {l l' : List β} : absorb n compress s (l ++ l')
    = absorb n compress (absorb n compress s l).1 ((absorb n compress s l).2 ++ l') := by
  fun_induction absorb n compress s l with
  | case1 s l h ih =>
    conv_lhs => rw [← List.take_append_drop n l, List.append_assoc,
      absorb_block hn (List.length_take_of_le h.2)]
    exact ih
  | case2 s l h => rfl

end Tfs.Blocks
