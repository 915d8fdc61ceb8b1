import TeamsInC.HbTree.Balance

/-!
# Which calls keep the tree balanced

Every insertion does. A removal does exactly when its walk is clean: a walk that is not leaves
a false balance field behind, and nothing it does further up touches that node again. It may
also end at a NULL link.
-/

set_option autoImplicit false

namespace TeamsInC
open BinaryTree LinkedTree

namespace Shape

theorem balanced_of_climb {c : Path Entry} {t s : Shape} (h : climb c t = some s)
    (hs : Balanced entryBal s) : Balanced entryBal t := hs.subtree (climb_rises (Nat.le_refl _) h).2

theorem climb_right_stop {c : Path Entry} {x : Entry} {l t : Shape} (hx : x.2.bal = -1) :
    climb (.right c x l) t = some (c.plug (.node (withBal x (-3)) l t)) := by
  have h1 : ¬ x.2.bal - 1 = 0 := by
    rw [hx]
    decide
  have h2 : x.2.bal - 1 - 1 = -3 := by
    rw [hx]
    decide
  simp [climb, h1, h2]

/-- Reached from the right, a node that stands straight is taken for one that leans left by 2. -/
theorem climb_right_skewed {c : Path Entry} {x y : Entry} {ll lr t : Shape} (hx : x.2.bal = 0) :
    climb (.right c x (.node y ll lr)) t =
      if y.2.bal > 0 then
        (rotateLeft (.node y ll lr)).bind fun (l, _) =>
          match c with
          | .top => none
          | .left c z r => climb c (.node z (.node (withBal x (-2)) l t) r)
          | .right c z l' => climb c (.node z l' (.node (withBal x (-2)) l t))
      else
        (rotateRight (.node (withBal x (-2)) (.node y ll lr) t)).bind fun (t, hc) =>
          if hc then climb c t else some (c.plug t) := by
  have h1 : ¬ x.2.bal - 1 = 0 := by
    rw [hx]
    decide
  have h2 : x.2.bal - 1 - 1 = -2 := by
    rw [hx]
    decide
  simp only [climb, withBal_bal, withBal_withBal, if_neg h1, h2, if_true]
  rfl

theorem not_leans {b : Int8} {hl hr : Nat} (hb : b = -2 ∨ b = -3) : ¬ Leans b.toInt hl hr := by
  rcases hb with rfl | rfl
  · simp [Leans]
  · simp [Leans]

theorem skewed_single {x y : Entry} {ll lr t s : Shape} {hc : Bool}
    (hl : Balanced entryBal (.node y ll lr)) (hh : (node y ll lr).height = t.height + 1)
    (hy : ¬ y.2.bal > 0)
    (h : rotateRight (.node (withBal x (-2)) (.node y ll lr) t) = some (s, hc)) :
    ¬ Balanced entryBal s := by
  simp only [rotateRight, Option.some.injEq, Prod.mk.injEq] at h
  obtain ⟨rfl, _⟩ := h
  rintro ⟨_, _, hlean, _⟩
  obtain ⟨⟨hyl, hy1, hy2⟩, _⟩ := hl
  simp only [Leans, entryBal_withBal, withBal_bal] at hlean
  simp only [entryBal] at hyl hy1 hy2
  simp only [height] at hh
  rw [bal_pos_iff] at hy
  have h2 := toInt_neg_two
  have e := toInt_add_MIN (a := -2) (b := y.2.bal) (by omega) (by omega)
  rw [e, h2] at hlean
  omega

/-- Where the walk leaves a balanced tree, it was clean. -/
theorem clean_of_balanced {c : Path Entry} {t s : Shape} (hc : c.Balanced entryBal (t.height + 1))
    (ht : Balanced entryBal t) (h : climb c t = some s) (hs : Balanced entryBal s) : ClimbClean c := by
  induction c generalizing t with
  | top => trivial
  | left c x r ih =>
    obtain ⟨hxl, hr, hc⟩ := hc
    simp only [Leans, entryBal] at hxl
    rcases bal_cases hxl.2.1 hxl.2.2 with hx | hx | hx
    · simp only [hx, toInt_neg_one] at hxl
      have hh : (node (withBal x 0) t r).height + 1 = max (t.height + 1) r.height + 1 := by
        simp only [height]
        omega
      rw [climb_left_straight hx] at h
      have hbal : Balanced entryBal (.node (withBal x 0) t r) := by
        refine ⟨?_, ht, hr⟩
        simp only [Leans, entryBal_withBal, Int8.toInt_zero]
        omega
      exact .inl ⟨hx, ih (hh ▸ hc) hbal h⟩
    · exact .inr (.inl hx)
    · simp only [hx, Int8.toInt_one] at hxl
      obtain ⟨s', hs', ⟨hy, _⟩ | ⟨hy, e, hsh⟩⟩ := climb_over c hx hr ht (by omega)
      · exact .inr (.inr ⟨hx, .inl hy⟩)
      · have hh : s'.height + 1 = max (t.height + 1) r.height + 1 := by omega
        rw [e] at h
        exact .inr (.inr ⟨hx, .inr (ih (hh ▸ hc) hs' h)⟩)
  | right c x l ih =>
    obtain ⟨hxl, hl, hc⟩ := hc
    simp only [Leans, entryBal] at hxl
    rcases bal_cases hxl.2.1 hxl.2.2 with hx | hx | hx
    · rw [climb_right_stop hx] at h
      cases h
      exact absurd (balanced_plug.mp hs).2.1 (not_leans (.inr rfl))
    · simp only [hx, Int8.toInt_zero] at hxl
      obtain ⟨y, ll, lr, rfl⟩ := eq_node_of_height (t := l) (by omega)
      rw [climb_right_skewed hx] at h
      split at h
      · obtain ⟨⟨l1, _⟩, _, h⟩ := Option.bind_eq_some_iff.mp h
        cases c with
        | top => simp at h
        | left c z r =>
          have hz := balanced_of_climb h hs
          exact absurd hz.2.1.1 (not_leans (.inl rfl))
        | right c z l' =>
          have hz := balanced_of_climb h hs
          exact absurd hz.2.2.1 (not_leans (.inl rfl))
      · rename_i hy
        obtain ⟨⟨t1, hgo⟩, h1, h⟩ := Option.bind_eq_some_iff.mp h
        have ht1 : ¬ Balanced entryBal t1 := skewed_single hl (by omega) hy h1
        simp only at h
        split at h
        · exact absurd (balanced_of_climb h hs) ht1
        · cases h
          exact absurd (balanced_plug.mp hs).2 ht1
    · simp only [hx, Int8.toInt_one] at hxl
      have hh : (node (withBal x 0) l t).height + 1 = max l.height (t.height + 1) + 1 := by
        simp only [height]
        omega
      rw [climb_right_straight hx] at h
      have hbal : Balanced entryBal (.node (withBal x 0) l t) := by
        refine ⟨?_, hl, ht⟩
        simp only [Leans, entryBal_withBal, Int8.toInt_zero]
        omega
      exact ⟨hx, ih (hh ▸ hc) hbal h⟩

/-- The walk rotates below a root that it has reached from the right and that stood straight,
and goes on from the parent of the root. `skips` says that it has just rotated so below the
first node of the path. -/
def ClimbNull (skips : Bool) : Path Entry → Prop
  | .top => skips
  | .left c x r => skips ∧ ClimbNull false c ∨ ¬ skips ∧
      (x.2.bal = -1 ∧ ClimbNull false c ∨ x.2.bal = 1 ∧ rootBal r ≠ 0 ∧ ClimbNull false c)
  | .right c x l => skips ∧ ClimbNull false c ∨ ¬ skips ∧
      (x.2.bal = 1 ∧ ClimbNull false c ∨
        x.2.bal = 0 ∧ (rootBal l < 0 ∧ ClimbNull false c ∨ rootBal l > 0 ∧ ClimbNull true c))

theorem climb_over_exists {x : Entry} {r : Shape} (c : Path Entry) (t : Shape) (hx : x.2.bal = 1)
    (hr : Balanced entryBal r) (hh : 0 < r.height) :
    ∃ s, rootBal r = 0 ∧ climb (.left c x r) t = some (c.plug s) ∨
      rootBal r ≠ 0 ∧ climb (.left c x r) t = climb c s := by
  have h2 : x.2.bal + 1 = 2 := by
    rw [hx]
    decide
  obtain ⟨y, rl, rr, rfl⟩ := eq_node_of_height hh
  obtain ⟨⟨hyl, _, _⟩, _⟩ := hr
  by_cases hneg : y.2.bal < 0
  · have hy : y.2.bal ≠ 0 := by
      intro h
      rw [h] at hneg
      exact absurd hneg (by decide)
    have hneg' := bal_neg_iff.mp hneg
    simp only [entryBal] at hyl
    obtain ⟨z, zl, zr, rfl⟩ := eq_node_of_height (t := rl) (by omega)
    exact ⟨_, .inr ⟨hy, by simp [climb, h2, hneg, rotateRight, rotateLeft]; rfl⟩⟩
  · by_cases hy : y.2.bal = 0
    · exact ⟨_, .inl ⟨hy, by simp [climb, h2, hy, rotateLeft]; rfl⟩⟩
    · exact ⟨_, .inr ⟨hy, by simp [climb, h2, hneg, hy, rotateLeft]; rfl⟩⟩

theorem climb_eq_none_iff {n : Nat} : ∀ {c : Path Entry} {t : Shape} {h : Nat}, c.depth ≤ n →
    c.Balanced entryBal h → 0 < h → (climb c t = none ↔ ClimbNull false c) := by
  induction n with
  | zero =>
    intro c t h hn hc hh
    cases c with
    | top => simp [climb, ClimbNull]
    | left c x r => simp [Path.depth] at hn
    | right c x l => simp [Path.depth] at hn
  | succ n ih =>
    intro c t h hn hc hh
    cases c with
    | top => simp [climb, ClimbNull]
    | left c x r =>
      obtain ⟨⟨hxl, hx1, hx2⟩, hr, hc⟩ := hc
      simp only [Path.depth] at hn
      have up (t' : Shape) : climb c t' = none ↔ ClimbNull false c := ih (by omega) hc (by omega)
      rcases bal_cases hx1 hx2 with hx | hx | hx
      · rw [climb_left_straight hx, up]
        simp [ClimbNull, hx]
      · rw [climb_left_stop hx]
        simp [ClimbNull, hx]
      · simp only [entryBal, hx, Int8.toInt_one] at hxl
        obtain ⟨s, ⟨hy, e⟩ | ⟨hy, e⟩⟩ := climb_over_exists c t hx hr (by omega)
        · simp [e, ClimbNull, hx, hy]
        · rw [e, up]
          simp [ClimbNull, hx, hy]
    | right c x l =>
      obtain ⟨⟨hxl, hx1, hx2⟩, hl, hc⟩ := hc
      simp only [Path.depth] at hn
      have up (t' : Shape) : climb c t' = none ↔ ClimbNull false c := ih (by omega) hc (by omega)
      rcases bal_cases hx1 hx2 with hx | hx | hx
      · rw [climb_right_stop hx]
        simp [ClimbNull, hx]
      · simp only [entryBal, hx, Int8.toInt_zero] at hxl
        obtain ⟨y, ll, lr, rfl⟩ := eq_node_of_height (t := l) (by omega)
        obtain ⟨⟨hyl, hy1, hy2⟩, _⟩ := hl
        rw [climb_right_skewed hx]
        simp only [ClimbNull, hx, rootBal, Bool.false_eq_true, false_and, false_or, not_false_eq_true,
          true_and, (by decide : ¬ (0 : Int8) = 1)]
        by_cases hpos : y.2.bal > 0
        · have hneg : ¬ y.2.bal < 0 := by
            rw [bal_neg_iff]
            have := bal_pos_iff.mp hpos
            omega
          have hpos' := bal_pos_iff.mp hpos
          simp only [entryBal] at hyl
          obtain ⟨z, zl, zr, rfl⟩ := eq_node_of_height (t := lr) (by omega)
          simp only [hpos, if_true, rotateLeft, Option.bind_some, hneg, false_and, false_or, true_and]
          cases c with
          | top => simp [ClimbNull]
          | left c z r =>
            obtain ⟨_, _, hc⟩ := hc
            simp only [Path.depth] at hn
            simpa [ClimbNull] using ih (by omega) hc (by omega)
          | right c z l' =>
            obtain ⟨_, _, hc⟩ := hc
            simp only [Path.depth] at hn
            simpa [ClimbNull] using ih (by omega) hc (by omega)
        · simp only [hpos, if_false, rotateRight, Option.bind_some, false_and, or_false]
          by_cases hy : y.2.bal = 0
          · simp [hy]
          · have hneg : y.2.bal < 0 := by
              rw [bal_pos_iff] at hpos
              rw [bal_eq_iff Int8.toInt_zero] at hy
              rw [bal_neg_iff]
              omega
            simpa [hy, hneg] using up _
      · rw [climb_right_straight hx, up]
        simp [ClimbNull, hx]

/-- The walk of the removal of the key ends at a NULL link. -/
def RemoveNull (t : Shape) (key : CString) : Prop := ClimbNull false (removePath t key)

theorem remove_balanced_iff {t : Shape} (ht : Balanced entryBal t) (key : CString) :
    (∀ p, remove t key = some p → Balanced entryBal p.1) ↔ RemoveClean t key ∨ RemoveNull t key := by
  constructor
  · intro hbal
    rcases remove_cases ht key with ⟨htop, _⟩ | ⟨child, hd, hchild, e⟩
    · refine .inl ?_
      rw [RemoveClean, htop]
      trivial
    · cases hclimb : climb (removePath t key) child with
      | none => exact .inr ((climb_eq_none_iff (Nat.le_refl _) hd (Nat.succ_pos _)).mp hclimb)
      | some s =>
        have hs : Balanced entryBal s := hbal (s, true) (by simp [e, hclimb])
        exact .inl (clean_of_balanced hd hchild hclimb hs)
  · rintro (hclean | hnull) p hp
    · obtain ⟨p', e, hp'⟩ := remove_balanced ht hclean
      rw [e] at hp
      cases hp
      exact hp'
    · rcases remove_cases ht key with ⟨htop, _⟩ | ⟨child, hd, _, e⟩
      · rw [RemoveNull, htop] at hnull
        simp [ClimbNull] at hnull
      · have hclimb := (climb_eq_none_iff (t := child) (Nat.le_refl _) hd (Nat.succ_pos _)).mpr hnull
        simp [e, hclimb] at hp

end Shape

namespace HbTree

/-- With 0 in the field of the new node no NULL link is followed, and a key that is too long overflows
its own block. -/
theorem hbTreeInsert_cases {T : HbTree} {n : Nat} {t : Shape} (H : T.Represents n t)
    (hs : Sorted entryKey t) (ht : Balanced entryBal t) (key : CString) (fd : Int) :
    keyBytes ≤ key.strlen ∧ T.hbTreeInsert key fd 0 = .error .overflow ∨
      key.strlen < keyBytes ∧ ∃ S node s, T.hbTreeInsert key fd 0 = .ok (S, node) ∧
        S.Represents (n + 1) s ∧ Sorted entryKey s ∧ Balanced entryBal s := by
  by_cases hkey : key.strlen < keyBytes
  · obtain ⟨s, e, hbal⟩ := Shape.insert_balanced ht n key fd
    have href := hbTreeInsert_refines fd 0 H hkey
    rw [e] at href
    obtain ⟨⟨S, node⟩, hS, hrep, _⟩ := href.some
    exact .inr ⟨hkey, S, node, s, hS, hrep, (Shape.pairs_insert e).2 hs, hbal⟩
  · obtain ⟨cmp, e, _⟩ := insertDescend_eq key (m := n) (c := .top) (z := 0) H
      (Represents.height_le (c := .top) H) trivial
    refine .inl ⟨Nat.le_of_not_lt hkey, ?_⟩
    simp only [hbTreeInsert, H.linked.root_eq, H.next_eq, holeParent_top, Shape.unbalanced] at e ⊢
    simp [e, newNode, hkey]

/-- An insertion keeps a sorted and balanced tree so, when the field of the new node starts with 0, if
and only if its key fits into the block that `new_node` copies it to. -/
theorem hbTreeInsert_balanced_iff {T : HbTree} {n : Nat} {t : Shape} (H : T.Represents n t)
    (hs : Sorted entryKey t) (ht : Balanced entryBal t) (key : CString) (fd : Int) :
    (∃ S node s, T.hbTreeInsert key fd 0 = .ok (S, node) ∧ S.Represents (n + 1) s ∧
        Sorted entryKey s ∧ Balanced entryBal s) ↔ key.strlen < keyBytes := by
  rcases hbTreeInsert_cases H hs ht key fd with ⟨hlong, hover⟩ | ⟨hfits, hok⟩
  · refine iff_of_false ?_ (Nat.not_lt.mpr hlong)
    rintro ⟨S, node, s, hS, _⟩
    rw [hover] at hS
    cases hS
  · exact iff_of_true hok hfits

def after (ops : List TreeOp) : HbTree :=
  match hbTreeNew.calls ops with
  | .ok (T, _) => T
  | .error _ => hbTreeNew

theorem after_balanced {ops : List TreeOp} (hops : ∀ op ∈ ops, op.Fits ∧ op.Zeroed)
    (hclean : hbTreeNew.CleanRun ops) : (after ops).BalancedTree := by
  obtain ⟨T, answers, h, H⟩ := calls_balanced balancedTree_new hops hclean
  simpa [after, h] using H

@[irreducible] def threeNodes : HbTree :=
  after [.insert (letter 'b') 5 0, .insert (letter 'a') 6 0, .insert (letter 'c') 7 0]

theorem threeNodes_balanced : threeNodes.BalancedTree := by
  rw [threeNodes]
  exact after_balanced (by decide) (by decide +kernel)

theorem threeNodes_sorted : Sorted entryKey threeNodes.shape :=
  Shape.sorted_iff_pairs.mpr (by decide +kernel)

theorem threeNodes_insert_balanced_iff :
    (∃ S node s, threeNodes.hbTreeInsert (letter 'd') 8 0 = .ok (S, node) ∧
        S.Represents (threeNodes.next + 1) s ∧ Sorted entryKey s ∧ Balanced entryBal s) ↔
      (letter 'd').strlen < keyBytes :=
  hbTreeInsert_balanced_iff threeNodes_balanced.rep threeNodes_sorted threeNodes_balanced.balanced
    (letter 'd') 8

def longKey : CString := ⟨List.replicate 64 97, by simp⟩

theorem longKey_not_inserted :
    ∃ T n t key fd, Represents T n t ∧ Sorted entryKey t ∧ Balanced entryBal t ∧
      ¬ ∃ S node s, T.hbTreeInsert key fd 0 = .ok (S, node) ∧ S.Represents (n + 1) s ∧
        Sorted entryKey s ∧ Balanced entryBal s := by
  refine ⟨threeNodes, _, _, longKey, 8, threeNodes_balanced.rep, threeNodes_sorted,
    threeNodes_balanced.balanced, ?_⟩
  have hover : faultOf (threeNodes.hbTreeInsert longKey 8 0) = some .overflow := by
    rw [threeNodes]
    decide +kernel
  rintro ⟨S, node, s, hS, _⟩
  rw [hS] at hover
  cases hover

/-- A removal that returns leaves a balanced tree so if and only if each node that its walk
reaches from the right leans right, or the walk ends at a NULL link and does not return. -/
theorem hbTreeRemove_balanced_iff {T : HbTree} {n : Nat} {t : Shape} (H : T.Represents n t)
    (ht : Balanced entryBal t) (key : CString) :
    (∀ S found, T.hbTreeRemove key = .ok (S, found) → Balanced entryBal S.shape) ↔
      Shape.RemoveClean t key ∨ Shape.RemoveNull t key := by
  rw [← Shape.remove_balanced_iff ht key]
  have href := hbTreeRemove_refines H key
  cases h : Shape.remove t key with
  | none =>
    rw [h] at href
    have href : T.hbTreeRemove key = .error .nullDeref := href
    simp [href]
  | some p =>
    rw [h] at href
    obtain ⟨⟨S, found⟩, hS, hrep, _⟩ := href.some
    simp [hS, hrep.shape_eq]

theorem threeNodes_remove_balanced_iff :
    (∀ S found, threeNodes.hbTreeRemove (letter 'a') = .ok (S, found) → Balanced entryBal S.shape) ↔
      Shape.RemoveClean threeNodes.shape (letter 'a') ∨ Shape.RemoveNull threeNodes.shape (letter 'a') :=
  hbTreeRemove_balanced_iff threeNodes_balanced.rep threeNodes_balanced.balanced (letter 'a')

theorem threeNodes_remove_unbalanced :
    ∃ T key S found, BalancedTree T ∧ Sorted entryKey T.shape ∧ T.hbTreeRemove key = .ok (S, found) ∧
      ¬ Balanced entryBal S.shape := by
  have hbad : (threeNodes.hbTreeRemove (letter 'c')).toOption.all fun p => ¬ Balanced entryBal p.1.shape := by
    decide +kernel
  have hends : (threeNodes.hbTreeRemove (letter 'c')).toOption.isSome := by decide +kernel
  cases h : threeNodes.hbTreeRemove (letter 'c') with
  | error e => simp [h, Except.toOption] at hends
  | ok p =>
    rw [h] at hbad
    exact ⟨threeNodes, letter 'c', p.1, p.2, threeNodes_balanced, threeNodes_sorted, h,
      of_decide_eq_true hbad⟩

end HbTree
end TeamsInC
