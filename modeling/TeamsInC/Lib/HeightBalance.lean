import Mathlib.Data.Nat.Fib.Basic
import TeamsInC.Lib.TreePath

/-!
# Height-balanced trees with recorded balances

Each label records the height of its right subtree minus that of its left one. A path is
balanced for a height when a subtree of that height in its hole makes it so.
-/

set_option autoImplicit false

universe u

namespace BinaryTree
variable {α : Type u} (bal : α → Int)

/-- `b` is the difference of the heights, and at most 1 either way. -/
def Leans (b : Int) (hl hr : Nat) : Prop := b = hr - hl ∧ -1 ≤ b ∧ b ≤ 1

def Balanced : BinaryTree α → Prop
  | nil => True
  | node a l r => Leans (bal a) l.height r.height ∧ Balanced l ∧ Balanced r

instance (b : Int) (hl hr : Nat) : Decidable (Leans b hl hr) := inferInstanceAs (Decidable (_ ∧ _))

instance : (t : BinaryTree α) → Decidable (Balanced bal t)
  | nil => inferInstanceAs (Decidable True)
  | node a l r =>
    have : Decidable (Balanced bal l) := instDecidableBalanced l
    have : Decidable (Balanced bal r) := instDecidableBalanced r
    inferInstanceAs (Decidable (Leans (bal a) l.height r.height ∧ Balanced bal l ∧ Balanced bal r))

/-- The frames of a path are balanced when the hole has height `h`. -/
def Path.Balanced : Path α → Nat → Prop
  | .top, _ => True
  | .left c a r, h => Leans (bal a) h r.height ∧ BinaryTree.Balanced bal r ∧
      Path.Balanced c (max h r.height + 1)
  | .right c a l, h => Leans (bal a) l.height h ∧ BinaryTree.Balanced bal l ∧
      Path.Balanced c (max l.height h + 1)

variable {bal}

theorem balanced_plug {c : Path α} {t : BinaryTree α} :
    Balanced bal (c.plug t) ↔ c.Balanced bal t.height ∧ Balanced bal t := by
  induction c generalizing t with
  | top => simp [Path.Balanced]
  | left c a r ih =>
    rw [Path.plug_left, ih]
    simp only [Balanced, Path.Balanced, height]
    tauto
  | right c a l ih =>
    rw [Path.plug_right, ih]
    simp only [Balanced, Path.Balanced, height]
    tauto

theorem height_map {β : Type u} (f : α → β) (t : BinaryTree α) : (t.map f).height = t.height := by
  induction t with
  | nil => rfl
  | node a l r ihl ihr => simp only [map, height, ihl, ihr]

theorem balanced_map {β : Type u} (f : α → β) {bal : β → Int} {t : BinaryTree α} :
    Balanced bal (t.map f) ↔ Balanced (fun a => bal (f a)) t := by
  induction t with
  | nil => exact Iff.rfl
  | node a l r ihl ihr => simp only [map, Balanced, height_map, ihl, ihr]

theorem Balanced.subtree {t s : BinaryTree α} (hs : Balanced bal s) (h : Subtree t s) : Balanced bal t := by
  obtain ⟨c, rfl⟩ := h
  exact (balanced_plug.mp hs).2

/-- A balanced tree of this height has at least as many places as the sparsest one. -/
theorem Balanced.fib_le {t : BinaryTree α} (h : Balanced bal t) :
    Nat.fib (t.height + 2) ≤ t.inorder.length + 1 := by
  induction t with
  | nil => exact Nat.le_refl 1
  | node a l r ihl ihr =>
    obtain ⟨⟨hbal, hmin, hmax⟩, hl, hr⟩ := h
    have ihl := ihl hl
    have ihr := ihr hr
    have hfib : Nat.fib (max l.height r.height + 1 + 2) =
        Nat.fib (max l.height r.height + 1) + Nat.fib (max l.height r.height + 2) := Nat.fib_add_two
    simp only [height, inorder_node, List.length_append, List.length_cons]
    -- the higher side has one level less than the whole, the other one or two less
    have hsides : Nat.fib (max l.height r.height + 2) + Nat.fib (max l.height r.height + 1) ≤
        Nat.fib (l.height + 2) + Nat.fib (r.height + 2) := by
      rcases Nat.le_total l.height r.height with hle | hle
      · rw [Nat.max_eq_right hle]
        have hmono := Nat.fib_mono (by omega : r.height + 1 ≤ l.height + 2)
        omega
      · rw [Nat.max_eq_left hle]
        have hmono := Nat.fib_mono (by omega : l.height + 1 ≤ r.height + 2)
        omega
    omega

theorem Balanced.height_le {t : BinaryTree α} {m : Nat} (h : Balanced bal t)
    (hm : t.inorder.length + 1 < Nat.fib (m + 3)) : t.height ≤ m := by
  by_contra hlt
  have hmono := Nat.fib_mono (by omega : m + 3 ≤ t.height + 2)
  have hle := h.fib_le
  omega

theorem balanced_relabel {c : Path α} {a b : α} {l r : BinaryTree α} (h : bal b = bal a)
    (ht : Balanced bal (c.plug (node a l r))) : Balanced bal (c.plug (node b l r)) := by
  rw [balanced_plug] at ht ⊢
  simpa only [Balanced, h, height] using ht

end BinaryTree
