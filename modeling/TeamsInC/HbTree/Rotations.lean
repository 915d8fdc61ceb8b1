import TeamsInC.HbTree.Balance

/-!
# Rotations on the heap

A rotation at any node of a well-linked tree, whose two balance fields are true: the nodes
keep their order, every link is consistent, both fields are true again, and the flag tells
whether the subtree has lost a level.
-/

set_option autoImplicit false

namespace TeamsInC
open BinaryTree LinkedTree

/-- The balance field of `x`, between the subtrees `l` and `r`, is true. -/
def TrueBal (x : Entry) (l r : Shape) : Prop := entryBal x = (r.height : Int) - l.height

def FitsChar (l r : Shape) : Prop := -128 ≤ (r.height : Int) - l.height ∧ (r.height : Int) - l.height ≤ 127

instance (x : Entry) (l r : Shape) : Decidable (TrueBal x l r) := inferInstanceAs (Decidable (_ = _))

instance (l r : Shape) : Decidable (FitsChar l r) := inferInstanceAs (Decidable (_ ∧ _))

namespace Shape

def nodes (t : Shape) : List (Nat × KeyFd) := t.inorder.map fun x => (x.1, entryPair x)

theorem nodes_plug_congr (c : Path Entry) {t t' : Shape} (h : nodes t' = nodes t) :
    nodes (c.plug t') = nodes (c.plug t) := by
  simp only [nodes, Path.inorder_plug, List.map_append] at h ⊢
  rw [h]

end Shape

namespace HbTree

/-- What a rotation to the left leaves of `x`, its left subtree and its right child `y`. -/
structure TurnedLeft (c : Path Entry) (x y : Entry) (l rl rr : Shape) (n : Nat) (T' : HbTree) (hc : Bool)
    (b b' : Int8) : Prop where
  rep : T'.Represents n (c.plug (.node (withBal y b') (.node (withBal x b) l rl) rr))
  nodes : Shape.nodes (c.plug (.node (withBal y b') (.node (withBal x b) l rl) rr)) =
    Shape.nodes (c.plug (.node x l (.node y rl rr)))
  bal : TrueBal (withBal x b) l rl
  bal' : TrueBal (withBal y b') (.node (withBal x b) l rl) rr
  flag : entryBal x = 2 → 0 ≤ entryBal y → (hc = true ↔
    (BinaryTree.node (withBal y b') (.node (withBal x b) l rl) rr).height + 1 =
      (BinaryTree.node x l (.node y rl rr)).height)

/-- What a rotation to the right leaves of `x`, its left child `y` and its right subtree. -/
structure TurnedRight (c : Path Entry) (x y : Entry) (ll lr r : Shape) (n : Nat) (T' : HbTree) (hc : Bool)
    (b b' : Int8) : Prop where
  rep : T'.Represents n (c.plug (.node (withBal y b') ll (.node (withBal x b) lr r)))
  nodes : Shape.nodes (c.plug (.node (withBal y b') ll (.node (withBal x b) lr r))) =
    Shape.nodes (c.plug (.node x (.node y ll lr) r))
  bal : TrueBal (withBal x b) lr r
  bal' : TrueBal (withBal y b') ll (.node (withBal x b) lr r)
  flag : entryBal x = -2 → entryBal y ≤ 0 → (hc = true ↔
    (BinaryTree.node (withBal y b') ll (.node (withBal x b) lr r)).height + 1 =
      (BinaryTree.node x (.node y ll lr) r).height)

theorem flag_iff {y : Entry} {hc : Bool} (hflag : hc = decide (y.2.bal ≠ 0)) : hc = true ↔ entryBal y ≠ 0 := by
  rw [hflag, decide_eq_true_iff, Ne, bal_eq_iff Int8.toInt_zero]
  rfl

section
variable {T : HbTree} {n : Nat} {c : Path Entry} {x y : Entry}

theorem rotateLeft_turned {l rl rr : Shape} (H : T.Represents n (c.plug (.node x l (.node y rl rr))))
    (hx : TrueBal x l (.node y rl rr)) (hy : TrueBal y rl rr) (fit : FitsChar l rl)
    (fit' : FitsChar (.node x l rl) rr) :
    ∃ T' hc b b', T.rotateLeft (some x.1) = .ok (T', hc) ∧ TurnedLeft c x y l rl rr n T' hc b b' := by
  obtain ⟨b, b', e, hb, hb'⟩ := Shape.rotateLeft_exact x y l rl rr hx hy ⟨fit.2, fit.1⟩
    ⟨fit'.2, fit'.1⟩
  have href := rotateLeft_refines H
  rw [e] at href
  obtain ⟨⟨T', hc⟩, hrun, hrot⟩ := href.some
  refine ⟨T', hc, b, b', hrun, hrot.rep, Shape.nodes_plug_congr c ?_, hb, hb', ?_⟩
  · simp [Shape.nodes]
  · intro hx2 hy0
    rw [flag_iff hrot.flag]
    simp only [TrueBal, entryBal, height] at hx hy hx2 hy0 ⊢
    omega

theorem rotateRight_turned {ll lr r : Shape} (H : T.Represents n (c.plug (.node x (.node y ll lr) r)))
    (hx : TrueBal x (.node y ll lr) r) (hy : TrueBal y ll lr) (fit : FitsChar lr r)
    (fit' : FitsChar ll (.node x lr r)) :
    ∃ T' hc b b', T.rotateRight (some x.1) = .ok (T', hc) ∧ TurnedRight c x y ll lr r n T' hc b b' := by
  obtain ⟨b, b', e, hb, hb'⟩ := Shape.rotateRight_exact x y ll lr r hx hy ⟨fit.2, fit.1⟩
    ⟨fit'.2, fit'.1⟩
  have href := rotateRight_refines H
  rw [e] at href
  obtain ⟨⟨T', hc⟩, hrun, hrot⟩ := href.some
  refine ⟨T', hc, b, b', hrun, hrot.rep, Shape.nodes_plug_congr c ?_, hb, hb', ?_⟩
  · simp [Shape.nodes]
  · intro hx2 hy0
    rw [flag_iff hrot.flag]
    simp only [TrueBal, entryBal, height] at hx hy hx2 hy0 ⊢
    omega

/-- Rotations are exact, in either direction and anywhere in a tree. -/
theorem rotations_exact (T : HbTree) (n : Nat) (c : Path Entry) (x y : Entry) :
    (∀ l rl rr : Shape, T.Represents n (c.plug (.node x l (.node y rl rr))) →
      TrueBal x l (.node y rl rr) → TrueBal y rl rr → FitsChar l rl → FitsChar (.node x l rl) rr →
      ∃ T' hc b b', T.rotateLeft (some x.1) = .ok (T', hc) ∧ TurnedLeft c x y l rl rr n T' hc b b') ∧
    (∀ ll lr r : Shape, T.Represents n (c.plug (.node x (.node y ll lr) r)) →
      TrueBal x (.node y ll lr) r → TrueBal y ll lr → FitsChar lr r → FitsChar ll (.node x lr r) →
      ∃ T' hc b b', T.rotateRight (some x.1) = .ok (T', hc) ∧ TurnedRight c x y ll lr r n T' hc b b') := by
  refine ⟨?_, ?_⟩
  · intro l rl rr H hx hy fit fit'
    exact rotateLeft_turned H hx hy fit fit'
  · intro ll lr r H hx hy fit fit'
    exact rotateRight_turned H hx hy fit fit'

end

def rightChain : HbTree where
  heap a := [⟨⟨letter 'a', 5, 2⟩, none, none, some 1⟩, ⟨⟨letter 'b', 6, 1⟩, some 0, none, some 2⟩,
    ⟨⟨letter 'c', 7, 0⟩, some 1, none, none⟩][a]?
  next := 3
  root := some 0
  count := 3
  rotationCount := 0

def leftChain : HbTree where
  heap a := [⟨⟨letter 'c', 7, -2⟩, none, some 1, none⟩, ⟨⟨letter 'b', 6, -1⟩, some 0, some 2, none⟩,
    ⟨⟨letter 'a', 5, 0⟩, some 1, none, none⟩][a]?
  next := 3
  root := some 0
  count := 3
  rotationCount := 0

theorem rotations_exact_chains :
    (∃ T' hc b b', rightChain.rotateLeft (some 0) = .ok (T', hc) ∧
      TurnedLeft .top (0, ⟨letter 'a', 5, 2⟩) (1, ⟨letter 'b', 6, 1⟩) .nil .nil
        (.node (2, ⟨letter 'c', 7, 0⟩) .nil .nil) 3 T' hc b b') ∧
    (∃ T' hc b b', leftChain.rotateRight (some 0) = .ok (T', hc) ∧
      TurnedRight .top (0, ⟨letter 'c', 7, -2⟩) (1, ⟨letter 'b', 6, -1⟩)
        (.node (2, ⟨letter 'a', 5, 0⟩) .nil .nil) .nil .nil 3 T' hc b b') := by
  refine ⟨?_, ?_⟩
  · refine (rotations_exact rightChain 3 .top (0, ⟨letter 'a', 5, 2⟩) (1, ⟨letter 'b', 6, 1⟩)).1 .nil
      .nil (.node (2, ⟨letter 'c', 7, 0⟩) .nil .nil) ⟨⟨rfl, ?_, by decide⟩, rfl, by decide⟩
      (by decide) (by decide) (by decide) (by decide)
    exact ⟨rfl, trivial, rfl, trivial, rfl, trivial, trivial⟩
  · refine (rotations_exact leftChain 3 .top (0, ⟨letter 'c', 7, -2⟩) (1, ⟨letter 'b', 6, -1⟩)).2
      (.node (2, ⟨letter 'a', 5, 0⟩) .nil .nil) .nil .nil ⟨⟨rfl, ?_, by decide⟩, rfl, by decide⟩
      (by decide) (by decide) (by decide) (by decide)
    exact ⟨rfl, ⟨rfl, ⟨rfl, trivial, trivial⟩, trivial⟩, trivial⟩

end HbTree
end TeamsInC
