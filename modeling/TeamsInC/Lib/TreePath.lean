import Mathlib.Data.Tree.Basic
import Mathlib.Tactic.Common

/-!
# Binary trees with a hole

A search path in a binary tree is kept as a `Path`: the frames from a hole up to
the root, innermost first. `plug` closes the hole. Everything a loop does while it
walks up from the hole is then a recursion over the path.
-/

set_option autoImplicit false

universe u

namespace BinaryTree
variable {α : Type u}

def inorder : BinaryTree α → List α
  | nil => []
  | node a l r => l.inorder ++ a :: r.inorder

@[simp] theorem inorder_nil : (nil : BinaryTree α).inorder = [] := rfl

@[simp] theorem inorder_node (a : α) (l r : BinaryTree α) :
    (node a l r).inorder = l.inorder ++ a :: r.inorder := rfl

/-- The frames above a hole. `left c a r` says that the hole is the left subtree of
`a`, whose right subtree is `r`, and that `c` lies above `a`. -/
inductive Path (α : Type u) where
  | top
  | left (c : Path α) (a : α) (r : BinaryTree α)
  | right (c : Path α) (a : α) (l : BinaryTree α)
deriving DecidableEq, Repr

namespace Path

def plug : Path α → BinaryTree α → BinaryTree α
  | top, t => t
  | left c a r, t => c.plug (node a t r)
  | right c a l, t => c.plug (node a l t)

def before : Path α → List α
  | top => []
  | left c _ _ => c.before
  | right c a l => c.before ++ (l.inorder ++ [a])

def after : Path α → List α
  | top => []
  | left c a r => a :: r.inorder ++ c.after
  | right c _ _ => c.after

def depth : Path α → Nat
  | top => 0
  | left c _ _ => c.depth + 1
  | right c _ _ => c.depth + 1

@[simp] theorem plug_top (t : BinaryTree α) : (top : Path α).plug t = t := rfl

@[simp] theorem plug_left (c : Path α) (a : α) (r t : BinaryTree α) :
    (left c a r).plug t = c.plug (node a t r) := rfl

@[simp] theorem plug_right (c : Path α) (a : α) (l t : BinaryTree α) :
    (right c a l).plug t = c.plug (node a l t) := rfl

@[simp] theorem before_top : (top : Path α).before = [] := rfl

@[simp] theorem before_left (c : Path α) (a : α) (r : BinaryTree α) :
    (left c a r).before = c.before := rfl

@[simp] theorem before_right (c : Path α) (a : α) (l : BinaryTree α) :
    (right c a l).before = c.before ++ (l.inorder ++ [a]) := rfl

@[simp] theorem after_top : (top : Path α).after = [] := rfl

@[simp] theorem after_left (c : Path α) (a : α) (r : BinaryTree α) :
    (left c a r).after = a :: r.inorder ++ c.after := rfl

@[simp] theorem after_right (c : Path α) (a : α) (l : BinaryTree α) :
    (right c a l).after = c.after := rfl

theorem inorder_plug (c : Path α) (t : BinaryTree α) :
    (c.plug t).inorder = c.before ++ t.inorder ++ c.after := by
  induction c generalizing t with
  | top => simp
  | left c a r ih => simp [ih]
  | right c a l ih => simp [ih]

theorem depth_le_length (c : Path α) : c.depth ≤ c.before.length + c.after.length := by
  induction c with
  | top => exact Nat.le_refl 0
  | left c a r ih =>
    simp only [depth, before_left, after_left, List.length_append, List.length_cons]
    omega
  | right c a l ih =>
    simp only [depth, before_right, after_right, List.length_append, List.length_cons]
    omega

theorem depth_add_length_le (c : Path α) (t : BinaryTree α) :
    c.depth + t.inorder.length ≤ (c.plug t).inorder.length := by
  have h := c.depth_le_length
  simp only [inorder_plug, List.length_append]
  omega

end Path

def Subtree (t s : BinaryTree α) : Prop := ∃ c : Path α, c.plug t = s

namespace Subtree
variable {t s u : BinaryTree α} {a : α} {l r : BinaryTree α}

theorem refl (t : BinaryTree α) : Subtree t t := ⟨.top, rfl⟩

theorem plug (c : Path α) (t : BinaryTree α) : Subtree t (c.plug t) := ⟨c, rfl⟩

theorem trans (h : Subtree t s) (h' : Subtree s u) : Subtree t u := by
  obtain ⟨c, rfl⟩ := h
  obtain ⟨d, rfl⟩ := h'
  induction c generalizing t with
  | top => exact ⟨d, rfl⟩
  | left c b r ih =>
    obtain ⟨e, he⟩ := @ih (node b t r)
    exact ⟨.left e b r, he⟩
  | right c b l ih =>
    obtain ⟨e, he⟩ := @ih (node b l t)
    exact ⟨.right e b l, he⟩

theorem left (h : Subtree t l) : Subtree t (node a l r) := h.trans (plug (.left .top a r) l)

theorem right (h : Subtree t r) : Subtree t (node a l r) := h.trans (plug (.right .top a l) r)

end Subtree
end BinaryTree
