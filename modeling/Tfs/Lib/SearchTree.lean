import Mathlib

/-! Search trees under a comparison of which nothing is known.

    An insertion goes down from the root, to the left where the new element is less and to the right
    where it is not. The element that it went right at last comes before the new one; if that is not
    less than the new one, nothing is inserted. How the tree is balanced does not change the order
    of its elements (`Balance`). An element that is less than none goes to the end or nowhere
    (`inorder_insert_of_not_lt`). -/

namespace Tfs.SearchTree

variable {α : Type}

/-- The elements from left to right. -/
def inorder : BinaryTree α → List α
  | .nil => []
  | .node x l r => inorder l ++ x :: inorder r

/-- What is done to a tree after an insertion; its elements keep their order. -/
structure Balance (α : Type) where
  run : BinaryTree α → BinaryTree α
  inorder_run : ∀ t, inorder (run t) = inorder t

/-- No balancing. -/
def Balance.none : Balance α := ⟨id, fun _ => rfl⟩

variable (lt : α → α → Prop) [DecidableRel lt]

/-- The way down with the new element `k`; `before` is the element that it went right at last. -/
def insertBelow (k : α) : Option α → BinaryTree α → BinaryTree α
  | before, .nil => if ∀ b ∈ before, lt b k then .node k .nil .nil else .nil
  | before, .node x l r =>
    if lt k x then .node x (insertBelow k before l) r else .node x l (insertBelow k (some x) r)

/-- `insert(k)`. -/
def insert (balance : Balance α) (t : BinaryTree α) (k : α) : BinaryTree α :=
  balance.run (insertBelow lt k none t)

/-- Insertions, one after the other. -/
def insertAll (balance : Balance α) (entries : List α) : BinaryTree α :=
  entries.foldl (insert lt balance) .nil

variable {lt} {k : α}

theorem inorder_insertBelow_of_not_lt :
    ∀ {t : BinaryTree α} (before : Option α), (∀ x ∈ inorder t, ¬ lt k x) →
    inorder (insertBelow lt k before t) =
      if ∀ b ∈ (inorder t).getLast?.or before, lt b k then inorder t ++ [k] else inorder t
  | .nil, before, _ => by
    rw [insertBelow]
    split_ifs with h₁ h₂ h₂
    · rfl
    · exact absurd h₁ h₂
    · exact absurd h₂ h₁
    · rfl
  | .node x l r, before, h => by
    have hx : ¬ lt k x := h x (List.mem_append_right _ List.mem_cons_self)
    have hr : ∀ y ∈ inorder r, ¬ lt k y := fun y hy =>
      h y (List.mem_append_right _ (List.mem_cons_of_mem _ hy))
    have hlast : (inorder (.node x l r)).getLast?.or before = (inorder r).getLast?.or (some x) := by
      rw [inorder, List.getLast?_append, List.getLast?_cons]
      cases (inorder r).getLast? <;> rfl
    rw [insertBelow, if_neg hx, inorder, inorder_insertBelow_of_not_lt (some x) hr, hlast, inorder]
    split_ifs
    · rw [List.append_assoc, List.cons_append]
    · rfl

/-- An element that is less than none is appended where the last one is less than it. -/
theorem inorder_insert_of_not_lt (balance : Balance α) {t : BinaryTree α} (h : ∀ x ∈ inorder t, ¬ lt k x) :
    inorder (insert lt balance t k) =
      if ∀ b ∈ (inorder t).getLast?, lt b k then inorder t ++ [k] else inorder t := by
  rw [insert, balance.inorder_run, inorder_insertBelow_of_not_lt none h, Option.or_none]

/-- The last insertion comes last. -/
theorem insertAll_concat (balance : Balance α) (entries : List α) (k : α) :
    insertAll lt balance (entries ++ [k]) = insert lt balance (insertAll lt balance entries) k := by
  rw [insertAll, List.foldl_append]
  rfl

end Tfs.SearchTree
