import TeamsInC.HbTree.Links

/-!
# hb_tree_insert on a represented tree

The pointer loops of the insertion compute what the recursions on shapes compute, and
follow a NULL link exactly where those have no value.
-/

set_option autoImplicit false

namespace TeamsInC
open BinaryTree LinkedTree

namespace HbTree

def SideOf (cmp : Int) : Path Entry → Prop
  | .top => True
  | .left _ _ _ => cmp < 0
  | .right _ _ _ => ¬ cmp < 0

theorem insertDescend_eq {T : HbTree} {n : Nat} (key : CString) {m : Nat} {c : Path Entry}
    {t : Shape} {z : Int} (H : T.Represents n (c.plug t)) (hfuel : t.height ≤ m)
    (hc : SideOf z c) :
    ∃ cmp', insertDescend T key m (link t) (holeParent c) (Shape.unbalanced c) z =
        .ok (holeParent (descend entryKey key c t), Shape.unbalanced (descend entryKey key c t), cmp') ∧
      SideOf cmp' (descend entryKey key c t) := by
  induction t generalizing m c z with
  | nil => exact ⟨z, by cases m <;> rfl, hc⟩
  | node x l r ihl ihr =>
    obtain ⟨m, rfl⟩ : ∃ k, m = k + 1 := ⟨m - 1, by simp only [height] at hfuel; omega⟩
    simp only [height] at hfuel
    simp only [insertDescend, link_node, H.deref, ok_bind, CString.strCmpFunc_lt_zero, descend]
    by_cases hlt : key < entryKey x
    · rw [if_pos (show key < x.2.key from hlt), if_pos hlt]
      exact ihl (c := .left c x r) H (by omega) hlt
    · rw [if_neg (show ¬ key < x.2.key from hlt), if_neg hlt]
      exact ihr (c := .right c x l) H (by omega) hlt

theorem newNode_hang {T : HbTree} {n : Nat} {key : CString} (fd : Int) (bal : Int8)
    {c : Path Entry} {cmp : Int} (H : T.Represents n (c.plug .nil)) (hkey : key.strlen < keyBytes)
    (hc : SideOf cmp c) :
    ∃ T1 T2, newNode T key fd bal = .ok (T1, some n) ∧ hang T1 (some n) (holeParent c) cmp = .ok T2 ∧
      T2.Represents (n + 1) (c.plug (.node (n, ⟨key, fd, bal⟩) .nil .nil)) := by
  have hnew : ∀ a ∈ pathAddrs c, a ≠ n :=
    fun a ha => Nat.ne_of_lt (H.fresh a (mem_addrs_plug.mpr (.inl ha)))
  have finish (T' : HbTree) (h1 : T'.heap n = some ⟨⟨key, fd, bal⟩, holeParent c, none, none⟩)
      (h2 : ∀ a ∈ pathAddrs c, T'.heap a = setHole T.heap c (some n) a)
      (h3 : T'.root = rootLink c (some n)) (h4 : T'.next = n + 1) :
      T'.Represents (n + 1) (c.plug (.node (n, ⟨key, fd, bal⟩) .nil .nil)) := by
    refine ⟨H.linked.replace h2 ⟨h1, trivial, trivial⟩ h3 ?_, h4, ?_⟩
    · obtain ⟨hcn, _, _⟩ := nodup_plug.mp H.linked.nodup
      exact nodup_plug.mpr ⟨hcn, by simp, fun a ha h => hnew a ha (by simpa using h)⟩
    · intro a ha
      rcases mem_addrs_plug.mp ha with ha | ha
      · exact Nat.lt_succ_of_lt (H.fresh a (mem_addrs_plug.mpr (.inl ha)))
      · simp only [addrs_node, addrs_nil, List.nil_append, List.mem_singleton] at ha
        omega
  let T1 : HbTree := { T with
    heap := Function.update T.heap n (some ⟨⟨key, fd, bal⟩, none, none, none⟩), next := n + 1 }
  let T2 : HbTree := { T1 with heap := T1.heap.modify n fun k => { k with parent := holeParent c } }
  have e1 : newNode T key fd bal = .ok (T1, some n) := by
    simp only [newNode, if_pos hkey, H.next_eq, T1]
  have hn1 : T1.heap n = some ⟨⟨key, fd, bal⟩, none, none, none⟩ := by simp [T1]
  have e2 : T1.setParent (some n) (holeParent c) = .ok T2 := update_eq _ hn1
  have hn2 : T2.heap n = some ⟨⟨key, fd, bal⟩, holeParent c, none, none⟩ := by simp [T2, hn1]
  have hold : ∀ a, a ≠ n → T2.heap a = T.heap a := by
    intro a ha
    simp only [T2, T1, Heap.modify_ne _ _ ha, Function.update_of_ne ha]
  refine ⟨T1, ?_⟩
  simp only [e1, true_and, hang, e2, ok_bind]
  have hpath := H.linked.pathRep
  cases c with
  | top =>
    refine ⟨{ T2 with root := some n }, rfl, finish _ hn2 ?_ rfl rfl⟩
    intro a ha
    exact absurd ha (by simp [pathAddrs])
  | left d z r =>
    have hz := hnew z.1 (mem_pathAddrs_left.mpr (.inl rfl))
    have e3 :=
      update_eq (T := T2) (fun k => { k with llink := some n }) ((hold z.1 hz).trans hpath.1)
    refine ⟨_, ?_, finish { T2 with heap := T2.heap.modify z.1 fun k => { k with llink := some n } }
      ?_ ?_ (H.linked.root_eq.trans (link_plug (.left d z r) .nil)) rfl⟩
    · rw [holeParent_left]
      simp only [if_pos (show cmp < 0 from hc), setLlink, e3]
    · exact (Heap.modify_ne _ _ (Ne.symm hz)).trans hn2
    · exact fun a ha => Heap.modify_congr _ (hold a (hnew a ha))
  | right d z l =>
    have hz := hnew z.1 (mem_pathAddrs_right.mpr (.inl rfl))
    have e3 :=
      update_eq (T := T2) (fun k => { k with rlink := some n }) ((hold z.1 hz).trans hpath.1)
    refine ⟨_, ?_, finish { T2 with heap := T2.heap.modify z.1 fun k => { k with rlink := some n } }
      ?_ ?_ (H.linked.root_eq.trans (link_plug (.right d z l) .nil)) rfl⟩
    · rw [holeParent_right]
      simp only [if_neg (show ¬ cmp < 0 from hc), setRlink, e3]
    · exact (Heap.modify_ne _ _ (Ne.symm hz)).trans hn2
    · exact fun a ha => Heap.modify_congr _ (hold a (hnew a ha))

theorem unbalanced_mem {c : Path Entry} {a : Nat} (h : Shape.unbalanced c = some a) :
    a ∈ pathAddrs c := by
  induction c with
  | top => simp [Shape.unbalanced] at h
  | left c x r ih =>
    simp only [Shape.unbalanced] at h
    split at h
    · exact mem_pathAddrs_left.mpr (.inl (by simpa using h.symm))
    · exact mem_pathAddrs_left.mpr (.inr (.inr (ih h)))
  | right c x l ih =>
    simp only [Shape.unbalanced] at h
    split at h
    · exact mem_pathAddrs_right.mpr (.inl (by simpa using h.symm))
    · exact mem_pathAddrs_right.mpr (.inr (.inr (ih h)))

theorem Represents.link_ne {T : HbTree} {n : Nat} {c : Path Entry} {x : Entry} {l r : Shape}
    {a : Nat} (H : T.Represents n (c.plug (.node x l r))) (hl : link l = some a) :
    link r ≠ some a := by
  obtain ⟨_, ht, _⟩ := nodup_plug.mp H.linked.nodup
  obtain ⟨_, _, _, _, hlr⟩ := nodup_node.mp ht
  exact fun hr => hlr a (link_mem_addrs hl) (link_mem_addrs hr)

theorem insertRetrace_eq {n m a : Nat} {c : Path Entry} {T : HbTree} {t : Shape}
    (H : T.Represents n (c.plug t)) (ht : link t = some a) (hfuel : c.depth ≤ m) :
    ∃ T', insertRetrace m T (link t) (holeParent c) (Shape.unbalanced c) =
        .ok (T', link (Shape.retrace c t).2) ∧
      T'.Represents n ((Shape.retrace c t).1.plug (Shape.retrace c t).2) ∧
      (∃ a', link (Shape.retrace c t).2 = some a') ∧
      holeParent (Shape.retrace c t).1 = Shape.unbalanced c := by
  induction c generalizing m T t a with
  | top => exact ⟨T, by cases m <;> rfl, H, ⟨a, ht⟩, rfl⟩
  | left c x r ih =>
    obtain ⟨m, rfl⟩ : ∃ k, m = k + 1 := ⟨m - 1, by simp only [Path.depth] at hfuel; omega⟩
    have hx : x.1 ∉ pathAddrs c := (nodup_left (nodup_plug.mp H.linked.nodup).1).2.2
    by_cases hb : x.2.bal = 0
    · have hq : ¬ some x.1 = Shape.unbalanced c := fun h => hx (unbalanced_mem h.symm)
      obtain ⟨T', e, H'⟩ := Represents.setData (c := c) H fun d => { d with bal := -1 }
      have hside : ¬ link t = link r := fun h => H.link_ne ht (h ▸ ht)
      obtain ⟨T'', hrun, hrep, ha, hpar⟩ := ih (m := m)
        (t := .node (withBal x (-1)) t r) H' rfl (by simp only [Path.depth] at hfuel; omega)
      refine ⟨T'', ?_, ?_⟩
      · rw [Shape.retrace, if_pos hb, ← hrun, insertRetrace]
        simp only [holeParent_left, Shape.unbalanced, hb, ne_eq, not_true_eq_false, if_false, if_neg hq,
          Represents.deref (c := c) H, ok_bind, if_neg hside, e, Represents.deref (c := c) H', link_node]
        rfl
      · rw [Shape.retrace, if_pos hb]
        simp only [Shape.unbalanced, hb, ne_eq, not_true_eq_false, if_false]
        exact ⟨hrep, ha, hpar⟩
    · rw [Shape.retrace, if_neg hb]
      refine ⟨T, ?_, H, ⟨a, ht⟩, by simp [Shape.unbalanced, hb]⟩
      simp [insertRetrace, Shape.unbalanced, hb]
  | right c x l ih =>
    obtain ⟨m, rfl⟩ : ∃ k, m = k + 1 := ⟨m - 1, by simp only [Path.depth] at hfuel; omega⟩
    have hx : x.1 ∉ pathAddrs c := (nodup_right (nodup_plug.mp H.linked.nodup).1).2.2
    by_cases hb : x.2.bal = 0
    · have hq : ¬ some x.1 = Shape.unbalanced c := fun h => hx (unbalanced_mem h.symm)
      obtain ⟨T', e, H'⟩ := Represents.setData (c := c) H fun d => { d with bal := 1 }
      obtain ⟨T'', hrun, hrep, ha, hpar⟩ := ih (m := m)
        (t := .node (withBal x 1) l t) H' rfl (by simp only [Path.depth] at hfuel; omega)
      refine ⟨T'', ?_, ?_⟩
      · rw [Shape.retrace, if_pos hb, ← hrun, insertRetrace]
        simp only [holeParent_right, Shape.unbalanced, hb, ne_eq, not_true_eq_false, if_false, if_neg hq,
          Represents.deref (c := c) H, ok_bind, if_true, e, Represents.deref (c := c) H', link_node]
        rfl
      · rw [Shape.retrace, if_pos hb]
        simp only [Shape.unbalanced, hb, ne_eq, not_true_eq_false, if_false]
        exact ⟨hrep, ha, hpar⟩
    · rw [Shape.retrace, if_neg hb]
      refine ⟨T, ?_, H, ⟨a, ht⟩, by simp [Shape.unbalanced, hb]⟩
      simp [insertRetrace, Shape.unbalanced, hb]

theorem insertRebalance_refines {T : HbTree} {n a : Nat} {c : Path Entry} {t : Shape} {q : Nat}
    (H : T.Represents n (c.plug t)) (hq : holeParent c = some q) (ht : link t = some a) :
    Refines .nullDeref (insertRebalance T (some q) (link t)) (Shape.rebalance c t)
      (fun p s => p.1.Represents n s) := by
  cases t with
  | nil => simp at ht
  | node y tl tr =>
    cases c with
    | top => simp at hq
    | left c x r =>
      simp only [holeParent_left, Option.some.injEq] at hq
      subst hq
      obtain ⟨T1, e1, H1⟩ := Represents.setBal (c := c) H fun b => b - 1
      have hx := Represents.deref (c := c) H1
      have hy := Represents.deref (c := .left c (withBal x (x.2.bal - 1)) r) H1
      simp only [withBal_fst] at hx
      simp only [insertRebalance, Represents.deref (c := c) H, ok_bind, link_node, if_true, e1, hx,
        Shape.rebalance]
      refine .ite (fun _ => ?_) fun _ => .pure H1
      simp only [hy, ok_bind, Shape.rootBal]
      refine .ite (fun _ => ?_) fun _ => ?_
      · refine (rotateLeft_refines (c := .left c _ r) H1).bind ?_
        intro p q hpq
        exact (rotateRight_refines (c := c) hpq.rep).bind fun p q hpq => .pure hpq.rep
      · exact (rotateRight_refines (c := c) H1).bind fun p q hpq => .pure hpq.rep
    | right c x l =>
      simp only [holeParent_right, Option.some.injEq] at hq
      subst hq
      obtain ⟨T1, e1, H1⟩ := Represents.setBal (c := c) H fun b => b + 1
      have hside : ¬ link l = some y.1 := fun h => Represents.link_ne (c := c) H h rfl
      have hx := Represents.deref (c := c) H1
      have hy := Represents.deref (c := .right c (withBal x (x.2.bal + 1)) l) H1
      simp only [withBal_fst] at hx
      simp only [insertRebalance, Represents.deref (c := c) H, ok_bind, link_node, if_neg hside, e1, hx,
        Shape.rebalance]
      refine .ite (fun _ => ?_) fun _ => .pure H1
      simp only [hy, ok_bind, Shape.rootBal]
      refine .ite (fun _ => ?_) fun _ => ?_
      · refine (rotateRight_refines (c := .right c _ l) H1).bind ?_
        intro p q hpq
        exact (rotateLeft_refines (c := c) hpq.rep).bind fun p q hpq => .pure hpq.rep
      · exact (rotateLeft_refines (c := c) H1).bind fun p q hpq => .pure hpq.rep

theorem Represents.withRotations {T : HbTree} {n : Nat} {t : Shape} (H : T.Represents n t)
    (k : UInt64) : { T with rotationCount := k }.Represents n t := ⟨H.linked, H.next_eq, H.fresh⟩

/-- The insertion refines the insertion into the shape, and never returns NULL. -/
theorem hbTreeInsert_refines {T : HbTree} {n : Nat} {t : Shape} {key : CString} (fd : Int)
    (bal : Int8) (H : T.Represents n t) (hkey : key.strlen < keyBytes) :
    Refines .nullDeref (T.hbTreeInsert key fd bal) (Shape.insert t n key fd bal)
      (fun p s => p.1.Represents (n + 1) s ∧ p.2 ≠ none) := by
  have hn : T.next = n := H.next_eq
  obtain ⟨cmp, e1, hside⟩ := insertDescend_eq key (m := n) (c := .top) (z := 0) H
    (Represents.height_le (c := .top) H) trivial
  have H1 : T.Represents n ((descend entryKey key .top t).plug .nil) := by
    rw [plug_descend]
    exact H
  obtain ⟨T1, T2, e2, e3, H2⟩ := newNode_hang fd bal H1 hkey hside
  obtain ⟨T3, e4, H3, ⟨a, ha⟩, hpar⟩ := insertRetrace_eq H2 rfl H2.depth_le
  have hroot : T.root = link t := H.linked.root_eq
  simp only [link_node] at e4
  simp only [hbTreeInsert, hroot, hn, holeParent_top, Shape.unbalanced] at e1 ⊢
  simp only [e1, ok_bind, e2, e3, H2.next_eq, e4, Shape.insert]
  cases hq : Shape.unbalanced (descend entryKey key .top t) with
  | none =>
    rw [hq] at hpar
    have htop : (Shape.retrace (descend entryKey key .top t)
        (.node (n, ⟨key, fd, bal⟩) .nil .nil)).1 = .top := by
      revert hpar
      cases (Shape.retrace (descend entryKey key .top t) (.node (n, ⟨key, fd, bal⟩) .nil .nil)).1 with
      | top => exact fun _ => rfl
      | left c x r => simp
      | right c x l => simp
    rw [htop] at H3 ⊢
    exact ⟨_, rfl, H3, by simp [ha]⟩
  | some q =>
    rw [hq] at hpar
    have hreb := insertRebalance_refines H3 hpar ha
    have := hreb.bind (f := fun p => Except.ok ({ p.1 with
        rotationCount := p.1.rotationCount + p.2.toUInt64 }, link (Shape.retrace
          (descend entryKey key .top t) (.node (n, ⟨key, fd, bal⟩) .nil .nil)).2))
      (g := Option.some) (S := fun p s => p.1.Represents (n + 1) s ∧ p.2 ≠ none)
      fun p s hps => .pure ⟨hps.withRotations _, by simp [ha]⟩
    simpa using this

end HbTree
end TeamsInC
