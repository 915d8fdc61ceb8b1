import Mathlib.Algebra.Group.Nat.Defs
import TeamsInC.HbTree.Multimap
import TeamsInC.Lib.HeightBalance

/-!
# Balance factors and NULL links

While the balance fields are the true height differences, an insertion follows no NULL
link. A removal follows none either, as long as its walk stays out of the right-hand branch
of the loop at nodes that do not lean right: there the source decrements twice.
-/

set_option autoImplicit false

namespace TeamsInC
open BinaryTree LinkedTree

def entryBal (x : Entry) : Int := x.2.bal.toInt

@[simp] theorem entryBal_withBal (x : Entry) (b : Int8) : entryBal (withBal x b) = b.toInt := rfl

@[simp] theorem entryBal_withEntry (x o : Entry) : entryBal (withEntry x o) = entryBal x := rfl

theorem bmod_eq {n : Int} (hl : -128 ≤ n) (hr : n ≤ 127) : n.bmod (2 ^ 8) = n := by
  apply Int.bmod_eq_of_le <;> omega

theorem toInt_MIN (b : Int8) : (HbTree.MIN b 0).toInt = min b.toInt 0 := by
  rw [HbTree.MIN, apply_ite Int8.toInt]
  simp only [Int8.lt_iff_toInt_lt, Int8.toInt_zero]
  split <;> omega

theorem toInt_MAX (b : Int8) : (HbTree.MAX b 0).toInt = max b.toInt 0 := by
  rw [HbTree.MAX, apply_ite Int8.toInt]
  simp only [gt_iff_lt, Int8.lt_iff_toInt_lt, Int8.toInt_zero]
  split <;> omega

theorem toInt_sub_MAX {a b : Int8} (hl : -128 ≤ a.toInt - (1 + max b.toInt 0))
    (hr : a.toInt - (1 + max b.toInt 0) ≤ 127) :
    (a - (1 + HbTree.MAX b 0)).toInt = a.toInt - (1 + max b.toInt 0) := by
  rw [Int8.toInt_sub, Int8.toInt_add, toInt_MAX, Int8.toInt_one, Int.sub_bmod_bmod]
  exact bmod_eq hl hr

theorem toInt_sub_MIN {a b : Int8} (hl : -128 ≤ a.toInt - (1 - min b.toInt 0))
    (hr : a.toInt - (1 - min b.toInt 0) ≤ 127) :
    (a - (1 - HbTree.MIN b 0)).toInt = a.toInt - (1 - min b.toInt 0) := by
  rw [Int8.toInt_sub, Int8.toInt_sub, toInt_MIN, Int8.toInt_one, Int.sub_bmod_bmod]
  exact bmod_eq hl hr

theorem toInt_add_MIN {a b : Int8} (hl : -128 ≤ a.toInt + (1 - min b.toInt 0))
    (hr : a.toInt + (1 - min b.toInt 0) ≤ 127) :
    (a + (1 - HbTree.MIN b 0)).toInt = a.toInt + (1 - min b.toInt 0) := by
  rw [Int8.toInt_add, Int8.toInt_sub, toInt_MIN, Int8.toInt_one, Int.add_bmod_bmod]
  exact bmod_eq hl hr

theorem toInt_add_MAX {a b : Int8} (hl : -128 ≤ a.toInt + (1 + max b.toInt 0))
    (hr : a.toInt + (1 + max b.toInt 0) ≤ 127) :
    (a + (1 + HbTree.MAX b 0)).toInt = a.toInt + (1 + max b.toInt 0) := by
  rw [Int8.toInt_add, Int8.toInt_add, toInt_MAX, Int8.toInt_one, Int.add_bmod_bmod]
  exact bmod_eq hl hr

theorem toInt_succ {b : Int8} (h : b.toInt < 127) : (b + 1).toInt = b.toInt + 1 := by
  have := b.le_toInt
  rw [Int8.toInt_add, Int8.toInt_one]
  exact bmod_eq (by omega) (by omega)

theorem toInt_pred {b : Int8} (h : -128 < b.toInt) : (b - 1).toInt = b.toInt - 1 := by
  have := b.toInt_lt
  rw [Int8.toInt_sub, Int8.toInt_one]
  exact bmod_eq (by omega) (by omega)

theorem toInt_neg_one : (-1 : Int8).toInt = -1 := by decide

theorem toInt_two : (2 : Int8).toInt = 2 := by decide

theorem toInt_neg_two : (-2 : Int8).toInt = -2 := by decide

theorem bal_eq_iff {b k : Int8} {n : Int} (hk : k.toInt = n) : b = k ↔ b.toInt = n := by
  rw [← hk, Int8.toInt_inj]

theorem bal_cases {b : Int8} (hl : -1 ≤ b.toInt) (hr : b.toInt ≤ 1) : b = -1 ∨ b = 0 ∨ b = 1 := by
  rw [bal_eq_iff toInt_neg_one, bal_eq_iff Int8.toInt_zero, bal_eq_iff Int8.toInt_one]
  omega

theorem pred_eq_neg_two_iff {b : Int8} (h : -128 < b.toInt) : b - 1 = -2 ↔ b.toInt = -1 := by
  rw [bal_eq_iff toInt_neg_two, toInt_pred h]
  omega

theorem succ_eq_two_iff {b : Int8} (h : b.toInt < 127) : b + 1 = 2 ↔ b.toInt = 1 := by
  rw [bal_eq_iff toInt_two, toInt_succ h]
  omega

theorem bal_pos_iff {b : Int8} : b > 0 ↔ 0 < b.toInt := by
  rw [gt_iff_lt, Int8.lt_iff_toInt_lt, Int8.toInt_zero]

theorem bal_neg_iff {b : Int8} : b < 0 ↔ b.toInt < 0 := by
  rw [Int8.lt_iff_toInt_lt, Int8.toInt_zero]

namespace Shape

theorem balanced_plug_of {c : Path Entry} {t : Shape} {h : Nat} (hc : c.Balanced entryBal h)
    (ht : Balanced entryBal t) (hh : t.height = h) : Balanced entryBal (c.plug t) :=
  balanced_plug.mpr ⟨hh ▸ hc, ht⟩

theorem eq_node_of_height {t : Shape} (h : 0 < t.height) : ∃ x l r, t = .node x l r := by
  cases t with
  | nil => simp at h
  | node x l r => exact ⟨x, l, r, rfl⟩

theorem rotateLeft_exact (x y : Entry) (l rl rr : Shape)
    (hx : entryBal x = (node y rl rr).height - l.height) (hy : entryBal y = rr.height - rl.height)
    (fit : (rl.height : Int) - l.height ≤ 127 ∧ -128 ≤ (rl.height : Int) - l.height)
    (fit' : (rr.height : Int) - (node x l rl).height ≤ 127 ∧
      -128 ≤ (rr.height : Int) - (node x l rl).height) :
    ∃ b b', rotateLeft (.node x l (.node y rl rr)) =
        some (.node (withBal y b') (.node (withBal x b) l rl) rr, decide (y.2.bal ≠ 0)) ∧
      b.toInt = rl.height - l.height ∧ b'.toInt = rr.height - (node x l rl).height := by
  simp only [entryBal, height] at *
  push_cast at *
  have e := toInt_sub_MAX (a := x.2.bal) (b := y.2.bal) (by omega) (by omega)
  have e' := toInt_sub_MIN (a := y.2.bal) (b := x.2.bal - (1 + HbTree.MAX y.2.bal 0))
    (by omega) (by omega)
  refine ⟨_, _, rfl, by omega, ?_⟩
  rw [withBal_bal, e']
  omega

theorem rotateRight_exact (x y : Entry) (ll lr r : Shape)
    (hx : entryBal x = r.height - (node y ll lr).height) (hy : entryBal y = lr.height - ll.height)
    (fit : (r.height : Int) - lr.height ≤ 127 ∧ -128 ≤ (r.height : Int) - lr.height)
    (fit' : ((node x lr r).height : Int) - ll.height ≤ 127 ∧
      -128 ≤ ((node x lr r).height : Int) - ll.height) :
    ∃ b b', rotateRight (.node x (.node y ll lr) r) =
        some (.node (withBal y b') ll (.node (withBal x b) lr r), decide (y.2.bal ≠ 0)) ∧
      b.toInt = r.height - lr.height ∧ b'.toInt = (node x lr r).height - ll.height := by
  simp only [entryBal, height] at *
  push_cast at *
  have e := toInt_add_MIN (a := x.2.bal) (b := y.2.bal) (by omega) (by omega)
  have e' := toInt_add_MAX (a := y.2.bal) (b := x.2.bal + (1 - HbTree.MIN y.2.bal 0))
    (by omega) (by omega)
  refine ⟨_, _, rfl, by omega, ?_⟩
  rw [withBal_bal, e']
  omega

theorem single_right {x y : Entry} {ll lr r : Shape} (hx : entryBal x = -2)
    (hl : Balanced entryBal (node y ll lr)) (hr : Balanced entryBal r)
    (hh : (node y ll lr).height = r.height + 2) (hy : ¬ y.2.bal > 0) :
    ∃ s, rotateRight (.node x (.node y ll lr) r) = some (s, decide (y.2.bal ≠ 0)) ∧
      Balanced entryBal s ∧ s.height = r.height + if y.2.bal = 0 then 3 else 2 := by
  obtain ⟨hyl, hll, hlr⟩ := hl
  simp only [Leans, entryBal] at hyl
  simp only [bal_pos_iff] at hy
  simp only [bal_eq_iff Int8.toInt_zero]
  have hh' := hh
  simp only [height] at hh'
  obtain ⟨b, b', e, hb, hb'⟩ := rotateRight_exact x y ll lr r
    (by omega) (by simp only [entryBal]; omega) (by omega) (by simp only [height]; omega)
  simp only [height] at hb'
  refine ⟨_, e, ⟨?_, hll, ?_, hlr, hr⟩, ?_⟩
  · simp only [Leans, entryBal_withBal, height]
    omega
  · simp only [Leans, entryBal_withBal]
    omega
  · simp only [height]
    split <;> omega

theorem single_left {x y : Entry} {l rl rr : Shape} (hx : entryBal x = 2)
    (hl : Balanced entryBal l) (hr : Balanced entryBal (node y rl rr))
    (hh : (node y rl rr).height = l.height + 2) (hy : ¬ y.2.bal < 0) :
    ∃ s, rotateLeft (.node x l (.node y rl rr)) = some (s, decide (y.2.bal ≠ 0)) ∧
      Balanced entryBal s ∧ s.height = l.height + if y.2.bal = 0 then 3 else 2 := by
  obtain ⟨hyl, hrl, hrr⟩ := hr
  simp only [Leans, entryBal] at hyl
  simp only [bal_neg_iff] at hy
  simp only [bal_eq_iff Int8.toInt_zero]
  have hh' := hh
  simp only [height] at hh'
  obtain ⟨b, b', e, hb, hb'⟩ := rotateLeft_exact x y l rl rr
    (by omega) (by simp only [entryBal]; omega) (by omega) (by simp only [height]; omega)
  simp only [height] at hb'
  refine ⟨_, e, ⟨?_, ⟨?_, hl, hrl⟩, hrr⟩, ?_⟩
  · simp only [Leans, entryBal_withBal, height]
    omega
  · simp only [Leans, entryBal_withBal]
    omega
  · simp only [height]
    split <;> omega

theorem double_right {x y : Entry} {ll lr r : Shape} (hx : entryBal x = -2)
    (hl : Balanced entryBal (node y ll lr)) (hr : Balanced entryBal r)
    (hh : (node y ll lr).height = r.height + 2) (hy : y.2.bal > 0) :
    ∃ l hc s hc', rotateLeft (.node y ll lr) = some (l, hc) ∧
      rotateRight (.node x l r) = some (s, hc') ∧ Balanced entryBal s ∧ s.height = r.height + 2 := by
  obtain ⟨hyl, hll, hlr⟩ := hl
  simp only [Leans, entryBal] at hyl
  simp only [bal_pos_iff] at hy
  simp only [height] at hh
  obtain ⟨z, zl, zr, rfl⟩ := eq_node_of_height (t := lr) (by omega)
  obtain ⟨hzl, hzll, hzrr⟩ := hlr
  simp only [Leans, entryBal] at hzl
  simp only [height] at hyl hh
  obtain ⟨b, b', e, hb, hb'⟩ := rotateLeft_exact y z ll zl zr
    (by simp only [entryBal, height]; omega) (by simp only [entryBal]; omega) (by omega)
    (by simp only [height]; omega)
  simp only [height] at hb'
  obtain ⟨d, d', e', hd, hd'⟩ := rotateRight_exact x (withBal z b')
    (.node (withBal y b) ll zl) zr r
    (by simp only [height]; omega) (by simp only [entryBal_withBal, height]; omega)
    (by omega) (by simp only [height]; omega)
  simp only [height] at hd'
  refine ⟨_, _, _, _, e, e', ⟨?_, ⟨?_, hll, hzll⟩, ?_, hzrr, hr⟩, ?_⟩
  · simp only [Leans, entryBal_withBal, height]
    omega
  · simp only [Leans, entryBal_withBal]
    omega
  · simp only [Leans, entryBal_withBal]
    omega
  · simp only [height]
    omega

theorem double_left {x y : Entry} {l rl rr : Shape} (hx : entryBal x = 2)
    (hl : Balanced entryBal l) (hr : Balanced entryBal (node y rl rr))
    (hh : (node y rl rr).height = l.height + 2) (hy : y.2.bal < 0) :
    ∃ r hc s hc', rotateRight (.node y rl rr) = some (r, hc) ∧
      rotateLeft (.node x l r) = some (s, hc') ∧ Balanced entryBal s ∧ s.height = l.height + 2 := by
  obtain ⟨hyl, hrl, hrr⟩ := hr
  simp only [Leans, entryBal] at hyl
  simp only [bal_neg_iff] at hy
  simp only [height] at hh
  obtain ⟨z, zl, zr, rfl⟩ := eq_node_of_height (t := rl) (by omega)
  obtain ⟨hzl, hzll, hzrr⟩ := hrl
  simp only [Leans, entryBal] at hzl
  simp only [height] at hyl hh
  obtain ⟨b, b', e, hb, hb'⟩ := rotateRight_exact y z zl zr rr
    (by simp only [entryBal, height]; omega) (by simp only [entryBal]; omega) (by omega)
    (by simp only [height]; omega)
  simp only [height] at hb'
  obtain ⟨d, d', e', hd, hd'⟩ := rotateLeft_exact x (withBal z b')
    l zl (.node (withBal y b) zr rr)
    (by simp only [height]; omega) (by simp only [entryBal_withBal, height]; omega)
    (by omega) (by simp only [height]; omega)
  simp only [height] at hd'
  refine ⟨_, _, _, _, e, e', ⟨?_, ⟨?_, hl, hzll⟩, ?_, hzrr, hrr⟩, ?_⟩
  · simp only [Leans, entryBal_withBal, height]
    omega
  · simp only [Leans, entryBal_withBal]
    omega
  · simp only [Leans, entryBal_withBal]
    omega
  · simp only [height]
    omega

theorem rebalance_left {c : Path Entry} {x : Entry} {r t : Shape} {h : Nat}
    (hc : (Path.left c x r).Balanced entryBal h) (ht : Balanced entryBal t)
    (hh : t.height = h + 1) (hx : x.2.bal ≠ 0) (hroot : t.rootBal ≠ 0 ∨ h = 0) :
    ∃ s, rebalance (.left c x r) t = some s ∧ Balanced entryBal s := by
  obtain ⟨hxl, hr, hc⟩ := hc
  simp only [Leans, entryBal] at hxl
  rw [Ne, bal_eq_iff Int8.toInt_zero] at hx
  have hx' : (x.2.bal - 1).toInt = x.2.bal.toInt - 1 := toInt_pred (by omega)
  have h2 := pred_eq_neg_two_iff (b := x.2.bal) (by omega)
  simp only [rebalance, withBal_bal]
  by_cases hlow : x.2.bal - 1 = -2
  · rw [if_pos hlow]
    rw [h2] at hlow
    obtain ⟨y, tl, tr, rfl⟩ := eq_node_of_height (t := t) (by omega)
    have hx2 : entryBal (withBal x (x.2.bal - 1)) = -2 := by
      rw [entryBal_withBal]
      omega
    have hhr : (node y tl tr).height = r.height + 2 := by omega
    have hy : y.2.bal ≠ 0 := by
      rcases hroot with h | h
      · exact h
      · omega
    by_cases hpos : y.2.bal > 0
    · obtain ⟨l, _, s, _, e, e', hs, hsh⟩ := double_right hx2 ht hr hhr hpos
      rw [if_pos (show rootBal (node y tl tr) > 0 from hpos)]
      simp only [e, e', Option.bind_eq_bind, Option.bind_some, Option.pure_def]
      exact ⟨_, rfl, balanced_plug_of hc hs (by omega)⟩
    · obtain ⟨s, e, hs, hsh⟩ := single_right hx2 ht hr hhr hpos
      rw [if_neg (show ¬ rootBal (node y tl tr) > 0 from hpos)]
      simp only [e, Option.bind_eq_bind, Option.bind_some, Option.pure_def]
      rw [if_neg hy] at hsh
      exact ⟨_, rfl, balanced_plug_of hc hs (by omega)⟩
  · rw [if_neg hlow]
    rw [h2] at hlow
    refine ⟨_, rfl, balanced_plug_of hc ⟨?_, ht, hr⟩ (by simp only [height]; omega)⟩
    simp only [Leans, entryBal_withBal]
    omega

theorem rebalance_right {c : Path Entry} {x : Entry} {l t : Shape} {h : Nat}
    (hc : (Path.right c x l).Balanced entryBal h) (ht : Balanced entryBal t)
    (hh : t.height = h + 1) (hx : x.2.bal ≠ 0) (hroot : t.rootBal ≠ 0 ∨ h = 0) :
    ∃ s, rebalance (.right c x l) t = some s ∧ Balanced entryBal s := by
  obtain ⟨hxl, hl, hc⟩ := hc
  simp only [Leans, entryBal] at hxl
  rw [Ne, bal_eq_iff Int8.toInt_zero] at hx
  have hx' : (x.2.bal + 1).toInt = x.2.bal.toInt + 1 := toInt_succ (by omega)
  have h2 := succ_eq_two_iff (b := x.2.bal) (by omega)
  simp only [rebalance, withBal_bal]
  by_cases hhigh : x.2.bal + 1 = 2
  · rw [if_pos hhigh]
    rw [h2] at hhigh
    obtain ⟨y, tl, tr, rfl⟩ := eq_node_of_height (t := t) (by omega)
    have hx2 : entryBal (withBal x (x.2.bal + 1)) = 2 := by
      rw [entryBal_withBal]
      omega
    have hhl : (node y tl tr).height = l.height + 2 := by omega
    have hy : y.2.bal ≠ 0 := by
      rcases hroot with h | h
      · exact h
      · omega
    by_cases hneg : y.2.bal < 0
    · obtain ⟨r, _, s, _, e, e', hs, hsh⟩ := double_left hx2 hl ht hhl hneg
      rw [if_pos (show rootBal (node y tl tr) < 0 from hneg)]
      simp only [e, e', Option.bind_eq_bind, Option.bind_some, Option.pure_def]
      exact ⟨_, rfl, balanced_plug_of hc hs (by omega)⟩
    · obtain ⟨s, e, hs, hsh⟩ := single_left hx2 hl ht hhl hneg
      rw [if_neg (show ¬ rootBal (node y tl tr) < 0 from hneg)]
      simp only [e, Option.bind_eq_bind, Option.bind_some, Option.pure_def]
      rw [if_neg hy] at hsh
      exact ⟨_, rfl, balanced_plug_of hc hs (by omega)⟩
  · rw [if_neg hhigh]
    rw [h2] at hhigh
    refine ⟨_, rfl, balanced_plug_of hc ⟨?_, hl, ht⟩ (by simp only [height]; omega)⟩
    simp only [Leans, entryBal_withBal]
    omega

/-- The subtree `t` has grown by a level, and leans unless it is the new leaf itself: up to
the first node that does not stand straight every node takes over the growth, and there it
ends. -/
theorem retrace_rebalance {c : Path Entry} {t : Shape} {h : Nat} (hc : c.Balanced entryBal h)
    (ht : Balanced entryBal t) (hh : t.height = h + 1) (hroot : t.rootBal ≠ 0 ∨ h = 0) :
    ∃ s, rebalance (retrace c t).1 (retrace c t).2 = some s ∧ Balanced entryBal s := by
  induction c generalizing t h with
  | top => exact ⟨t, rfl, ht⟩
  | left c x r ih =>
    by_cases hx : x.2.bal = 0
    · simp only [retrace, if_pos hx]
      obtain ⟨hxl, hr, hc⟩ := hc
      rw [bal_eq_iff Int8.toInt_zero] at hx
      simp only [Leans, entryBal] at hxl
      refine ih hc ⟨?_, ht, hr⟩ (by simp only [height]; omega) (.inl (by simp only [rootBal, withBal_bal]; decide))
      simp only [Leans, entryBal_withBal, toInt_neg_one]
      omega
    · simp only [retrace, if_neg hx]
      exact rebalance_left hc ht hh hx hroot
  | right c x l ih =>
    by_cases hx : x.2.bal = 0
    · simp only [retrace, if_pos hx]
      obtain ⟨hxl, hl, hc⟩ := hc
      rw [bal_eq_iff Int8.toInt_zero] at hx
      simp only [Leans, entryBal] at hxl
      refine ih hc ⟨?_, hl, ht⟩ (by simp only [height]; omega) (.inl (by simp only [rootBal, withBal_bal]; decide))
      simp only [Leans, entryBal_withBal, Int8.toInt_one]
      omega
    · simp only [retrace, if_neg hx]
      exact rebalance_right hc ht hh hx hroot

theorem insert_balanced {t : Shape} (ht : Balanced entryBal t) (a : Nat) (key : CString) (fd : Int) :
    ∃ s, insert t a key fd 0 = some s ∧ Balanced entryBal s := by
  have hplug : Balanced entryBal ((descend entryKey key .top t).plug .nil) := by
    rw [plug_descend]
    exact ht
  refine retrace_rebalance (balanced_plug.mp hplug).1 ⟨?_, trivial, trivial⟩ rfl (.inr rfl)
  simp [Leans, entryBal]

/-- Every node that the walk reaches from its right-hand subtree leans right, so that its
first decrement gives 0. -/
def ClimbClean : Path Entry → Prop
  | .top => True
  | .left c x r => x.2.bal = -1 ∧ ClimbClean c ∨ x.2.bal = 0 ∨
      x.2.bal = 1 ∧ (rootBal r = 0 ∨ ClimbClean c)
  | .right c x _ => x.2.bal = 1 ∧ ClimbClean c

instance : (c : Path Entry) → Decidable (ClimbClean c)
  | .top => inferInstanceAs (Decidable True)
  | .left c x r =>
    have : Decidable (ClimbClean c) := instDecidableClimbClean c
    inferInstanceAs (Decidable (x.2.bal = -1 ∧ ClimbClean c ∨ x.2.bal = 0 ∨
      x.2.bal = 1 ∧ (rootBal r = 0 ∨ ClimbClean c)))
  | .right c x _ =>
    have : Decidable (ClimbClean c) := instDecidableClimbClean c
    inferInstanceAs (Decidable (x.2.bal = 1 ∧ ClimbClean c))

def removePath (t : Shape) (key : CString) : Path Entry :=
  match find entryKey key .top t with
  | (_, .nil) => .top
  | (c, .node x l r) => (unlinkAt c x l r).1

/-- The removal of the key reaches no node from the right that does not lean right. -/
def RemoveClean (t : Shape) (key : CString) : Prop := ClimbClean (removePath t key)

instance (t : Shape) (key : CString) : Decidable (RemoveClean t key) :=
  inferInstanceAs (Decidable (ClimbClean _))

theorem climb_left_straight {c : Path Entry} {x : Entry} {r t : Shape} (hx : x.2.bal = -1) :
    climb (.left c x r) t = climb c (.node (withBal x 0) t r) := by
  have h0 : x.2.bal + 1 = 0 := by
    rw [hx]
    decide
  simp [climb, h0]

theorem climb_right_straight {c : Path Entry} {x : Entry} {l t : Shape} (hx : x.2.bal = 1) :
    climb (.right c x l) t = climb c (.node (withBal x 0) l t) := by
  have h0 : x.2.bal - 1 = 0 := by
    rw [hx]
    decide
  simp [climb, h0]

theorem climb_left_stop {c : Path Entry} {x : Entry} {r t : Shape} (hx : x.2.bal = 0) :
    climb (.left c x r) t = some (c.plug (.node (withBal x 1) t r)) := by
  have h1 : x.2.bal + 1 = 1 := by
    rw [hx]
    decide
  simp [climb, h1]

theorem climb_over {x : Entry} {r t : Shape} (c : Path Entry) (hx : x.2.bal = 1)
    (hr : Balanced entryBal r) (ht : Balanced entryBal t) (hh : r.height = t.height + 2) :
    ∃ s, Balanced entryBal s ∧
      (rootBal r = 0 ∧ climb (.left c x r) t = some (c.plug s) ∧ s.height = t.height + 3 ∨
        rootBal r ≠ 0 ∧ climb (.left c x r) t = climb c s ∧ s.height = t.height + 2) := by
  have h0 : ¬ x.2.bal + 1 = 0 := by
    rw [hx]
    decide
  have h2 : x.2.bal + 1 = 2 := by
    rw [hx]
    decide
  have hx2 : entryBal (withBal x (x.2.bal + 1)) = 2 := by
    rw [entryBal_withBal, h2]
    decide
  obtain ⟨y, rl, rr, rfl⟩ := eq_node_of_height (t := r) (by omega)
  simp only [climb, withBal_bal, if_neg h0, if_pos h2, rootBal]
  by_cases hneg : y.2.bal < 0
  · obtain ⟨r', _, s, _, e, e', hs, hsh⟩ := double_left hx2 ht hr hh hneg
    simp only [if_pos hneg, e, e', Option.bind_eq_bind, Option.bind_some]
    refine ⟨s, hs, .inr ⟨?_, rfl, hsh⟩⟩
    intro h
    rw [h] at hneg
    exact absurd hneg (by decide)
  · obtain ⟨s, e, hs, hsh⟩ := single_left hx2 ht hr hh hneg
    simp only [if_neg hneg, e, Option.bind_eq_bind, Option.bind_some]
    by_cases hy : y.2.bal = 0
    · rw [if_pos hy] at hsh
      refine ⟨s, hs, .inl ⟨hy, ?_, hsh⟩⟩
      simp [hy]
    · rw [if_neg hy] at hsh
      refine ⟨s, hs, .inr ⟨hy, ?_, hsh⟩⟩
      simp [hy]

theorem climb_balanced {c : Path Entry} {t : Shape} (hc : c.Balanced entryBal (t.height + 1))
    (ht : Balanced entryBal t) (hclean : ClimbClean c) :
    ∃ s, climb c t = some s ∧ Balanced entryBal s := by
  induction c generalizing t with
  | top => exact ⟨t, rfl, ht⟩
  | left c x r ih =>
    obtain ⟨hxl, hr, hc⟩ := hc
    simp only [Leans, entryBal] at hxl
    rcases bal_cases hxl.2.1 hxl.2.2 with hx | hx | hx
    · simp only [hx, toInt_neg_one] at hxl
      have hclean' : ClimbClean c := by simpa [ClimbClean, hx] using hclean
      have hh : (node (withBal x 0) t r).height + 1 = max (t.height + 1) r.height + 1 := by
        simp only [height]
        omega
      rw [climb_left_straight hx]
      refine ih (hh ▸ hc) ⟨?_, ht, hr⟩ hclean'
      simp only [Leans, entryBal_withBal, Int8.toInt_zero]
      omega
    · simp only [hx, Int8.toInt_zero] at hxl
      refine ⟨_, climb_left_stop hx, balanced_plug_of hc ⟨?_, ht, hr⟩ (by simp only [height]; omega)⟩
      simp only [Leans, entryBal_withBal, Int8.toInt_one]
      omega
    · simp only [hx, Int8.toInt_one] at hxl
      obtain ⟨s, hs, ⟨_, e, hsh⟩ | ⟨hy, e, hsh⟩⟩ := climb_over c hx hr ht (by omega)
      · exact ⟨_, e, balanced_plug_of hc hs (by omega)⟩
      · have hclean' : rootBal r = 0 ∨ ClimbClean c := by simpa [ClimbClean, hx] using hclean
        have hh : s.height + 1 = max (t.height + 1) r.height + 1 := by omega
        rw [e]
        exact ih (hh ▸ hc) hs (hclean'.resolve_left hy)
  | right c x l ih =>
    obtain ⟨hxl, hl, hc⟩ := hc
    obtain ⟨hx, hclean⟩ := hclean
    simp only [Leans, entryBal, hx, Int8.toInt_one] at hxl
    have hh : (node (withBal x 0) l t).height + 1 = max l.height (t.height + 1) + 1 := by
      simp only [height]
      omega
    rw [climb_right_straight hx]
    refine ih (hh ▸ hc) ⟨?_, hl, ht⟩ hclean
    simp only [Leans, entryBal_withBal, Int8.toInt_zero]
    omega

theorem unlinkAt_balanced {c : Path Entry} {x : Entry} {l r : Shape}
    (h : Balanced entryBal (c.plug (.node x l r))) :
    (unlinkAt c x l r).1.Balanced entryBal ((unlinkAt c x l r).2.height + 1) ∧
      Balanced entryBal (unlinkAt c x l r).2 := by
  cases l with
  | nil =>
    obtain ⟨hc, _, _, hr⟩ := balanced_plug.mp h
    simpa [unlinkAt, height] using And.intro hc hr
  | node y ll lr =>
    cases r with
    | nil =>
      obtain ⟨hc, _, hl, _⟩ := balanced_plug.mp h
      simpa [unlinkAt, height] using And.intro hc hl
    | node z rl rr =>
      simp only [unlinkAt]
      split
      · generalize (minSplit (.right c x (.node y ll lr)) z rl rr).2.1 = o
        have h' := balanced_relabel (a := x) (b := withEntry x o) (entryBal_withEntry x o) h
        rw [← Path.plug_right, ← plug_minSplit] at h'
        obtain ⟨hd, _, _, hchild⟩ := balanced_plug.mp h'
        simpa [height] using And.intro hd hchild
      · generalize (maxSplit (.left c x (.node z rl rr)) y ll lr).2.1 = o
        have h' := balanced_relabel (a := x) (b := withEntry x o) (entryBal_withEntry x o) h
        rw [← Path.plug_left, ← plug_maxSplit] at h'
        obtain ⟨hd, _, hchild, _⟩ := balanced_plug.mp h'
        simpa [height] using And.intro hd hchild

/-- The removal finds nothing, or it is the walk from a subtree that has lost a level. -/
theorem remove_cases {t : Shape} (ht : Balanced entryBal t) (key : CString) :
    removePath t key = .top ∧ remove t key = some (t, false) ∨
      ∃ child, (removePath t key).Balanced entryBal (child.height + 1) ∧ Balanced entryBal child ∧
        remove t key = (climb (removePath t key) child).map fun s => (s, true) := by
  have hplug := plug_find entryKey key .top t
  simp only [removePath, remove]
  generalize find entryKey key .top t = p at *
  obtain ⟨c, u⟩ := p
  cases u with
  | nil => exact .inl ⟨rfl, rfl⟩
  | node x l r =>
    have h : Balanced entryBal (c.plug (.node x l r)) := by
      rw [show c.plug (.node x l r) = t from hplug]
      exact ht
    obtain ⟨hd, hchild⟩ := unlinkAt_balanced h
    exact .inr ⟨_, hd, hchild, rfl⟩

theorem remove_balanced {t : Shape} {key : CString} (ht : Balanced entryBal t)
    (hclean : RemoveClean t key) : ∃ p, remove t key = some p ∧ Balanced entryBal p.1 := by
  rcases remove_cases ht key with ⟨_, e⟩ | ⟨child, hd, hchild, e⟩
  · exact ⟨_, e, ht⟩
  · obtain ⟨s, hs, hbal⟩ := climb_balanced hd hchild hclean
    exact ⟨(s, true), by simp [e, hs], hbal⟩

end Shape

def TreeOp.Zeroed : TreeOp → Prop
  | .insert _ _ bal => bal = 0
  | _ => True

instance : (op : TreeOp) → Decidable op.Zeroed
  | .insert _ _ bal => inferInstanceAs (Decidable (bal = 0))
  | .remove _ => inferInstanceAs (Decidable True)
  | .search _ => inferInstanceAs (Decidable True)

def TreeOp.Clean (T : HbTree) : TreeOp → Prop
  | .remove key => Shape.RemoveClean T.shape key
  | _ => True

instance (T : HbTree) : (op : TreeOp) → Decidable (op.Clean T)
  | .insert _ _ _ => inferInstanceAs (Decidable True)
  | .remove key => inferInstanceAs (Decidable (Shape.RemoveClean T.shape key))
  | .search _ => inferInstanceAs (Decidable True)

namespace HbTree

def CleanRun : HbTree → List TreeOp → Prop
  | _, [] => True
  | T, op :: ops => op.Clean T ∧
      match T.call op with
      | .error _ => True
      | .ok (T, _) => CleanRun T ops

instance : (T : HbTree) → (ops : List TreeOp) → Decidable (T.CleanRun ops)
  | _, [] => inferInstanceAs (Decidable True)
  | T, op :: ops =>
    have : Decidable (match T.call op with
      | .error _ => True
      | .ok (T, _) => CleanRun T ops) :=
      match T.call op with
      | .error _ => inferInstanceAs (Decidable True)
      | .ok (T, _) => instDecidableCleanRun T ops
    inferInstanceAs (Decidable (_ ∧ _))

/-- The heap holds a well-linked tree whose balance fields are true. -/
structure BalancedTree (T : HbTree) : Prop where
  rep : T.Represents T.next T.shape
  balanced : Balanced entryBal T.shape

theorem Represents.balancedTree {T : HbTree} {n : Nat} {t : Shape} (H : T.Represents n t)
    (ht : Balanced entryBal t) : T.BalancedTree := ⟨H.self, by rwa [H.shape_eq]⟩

theorem balancedTree_new : hbTreeNew.BalancedTree := represents_new.balancedTree trivial

theorem hbTreeInsert_zeroed {T : HbTree} (H : T.BalancedTree) {key : CString}
    (hkey : key.strlen < keyBytes) (fd : Int) :
    ∃ S node, T.hbTreeInsert key fd 0 = .ok (S, node) ∧ S.BalancedTree ∧ S.next = T.next + 1 := by
  obtain ⟨s, hs, hbal⟩ := Shape.insert_balanced H.balanced T.next key fd
  have href := hbTreeInsert_refines fd 0 H.rep hkey
  rw [hs] at href
  obtain ⟨⟨S, node⟩, hS, hrep, _⟩ := href.some
  exact ⟨S, node, hS, hrep.balancedTree hbal, hrep.next_eq⟩

theorem call_balanced {T : HbTree} {op : TreeOp} (H : T.BalancedTree) (hfits : op.Fits)
    (hzero : op.Zeroed) (hclean : op.Clean T) :
    ∃ S answer, T.call op = .ok (S, answer) ∧ S.BalancedTree := by
  cases op with
  | insert key fd bal =>
    have hkey : key.strlen < keyBytes := hfits
    obtain rfl : bal = 0 := hzero
    obtain ⟨S, node, hS, HS, _⟩ := hbTreeInsert_zeroed H hkey fd
    exact ⟨S, .inserted, by simp [call, hS], HS⟩
  | remove key =>
    obtain ⟨⟨s, found⟩, hs, hbal⟩ := Shape.remove_balanced H.balanced hclean
    have href := hbTreeRemove_refines H.rep key
    rw [hs] at href
    obtain ⟨⟨S, b⟩, hS, hrep, _⟩ := href.some
    exact ⟨S, .removed b, by simp [call, hS], hrep.balancedTree hbal⟩
  | search key =>
    exact ⟨T, .found (Shape.search T.shape key), by simp [call, hbTreeSearch_eq H.rep], H⟩

theorem calls_balanced {T : HbTree} {ops : List TreeOp} (H : T.BalancedTree)
    (hops : ∀ op ∈ ops, op.Fits ∧ op.Zeroed) (hclean : T.CleanRun ops) :
    ∃ S answers, T.calls ops = .ok (S, answers) ∧ S.BalancedTree := by
  induction ops generalizing T with
  | nil => exact ⟨T, [], rfl, H⟩
  | cons op ops ih =>
    rw [List.forall_mem_cons] at hops
    obtain ⟨hclean, hrest⟩ := hclean
    obtain ⟨T1, answer, h, H1⟩ := call_balanced H hops.1.1 hops.1.2 hclean
    rw [h] at hrest
    obtain ⟨T2, answers, h', H2⟩ := ih H1 hops.2 hrest
    exact ⟨T2, answer :: answers, by simp [calls, h, h'], H2⟩

/-- A run of calls in which every removal is clean follows no NULL link, and keeps the tree
balanced. -/
theorem clean_calls_follow_no_null (ops : List TreeOp) (hops : ∀ op ∈ ops, op.Fits ∧ op.Zeroed)
    (hclean : hbTreeNew.CleanRun ops) :
    ∃ T answers, hbTreeNew.calls ops = .ok (T, answers) ∧ Balanced entryBal T.shape := by
  obtain ⟨T, answers, h, H⟩ := calls_balanced balancedTree_new hops hclean
  exact ⟨T, answers, h, H.balanced⟩

def letter (c : Char) : CString := CString.ofBuffer (ascii [c])

def cleanCalls : List TreeOp :=
  [.insert (letter 'b') 5 0, .insert (letter 'a') 6 0, .insert (letter 'c') 7 0,
    .insert (letter 'd') 8 0, .remove (letter 'a'), .search (letter 'd')]

theorem cleanCalls_follow_no_null :
    ∃ T answers, hbTreeNew.calls cleanCalls = .ok (T, answers) ∧ Balanced entryBal T.shape :=
  clean_calls_follow_no_null cleanCalls (by decide) (by decide +kernel)

def crashingCalls : List TreeOp :=
  [.insert (letter 'd') 5 0, .insert (letter 'b') 6 0, .insert (letter 'f') 7 0,
    .insert (letter 'c') 8 0, .insert (letter 'g') 9 0, .remove (letter 'g')]

theorem crashingCalls_follow_null :
    (∀ op ∈ crashingCalls, op.Fits ∧ op.Zeroed) ∧
      hbTreeNew.calls crashingCalls = .error .nullDeref :=
  ⟨by decide, eq_error_of_faultOf (by decide +kernel)⟩

end HbTree
end TeamsInC
