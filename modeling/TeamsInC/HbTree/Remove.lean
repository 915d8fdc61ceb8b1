import TeamsInC.HbTree.Insert

/-!
# hb_tree_remove and hb_tree_search on a represented tree
-/

set_option autoImplicit false

namespace TeamsInC
open BinaryTree LinkedTree

namespace HbTree

theorem removeFind_eq {T : HbTree} {n : Nat} (key : CString) {fuel : Nat} {c : Path Entry}
    {t : Shape} (H : T.Represents n (c.plug t)) (hfuel : t.height ≤ fuel) :
    removeFind T key fuel (link t) (holeParent c) =
      .ok (link (find entryKey key c t).2, holeParent (find entryKey key c t).1) := by
  induction t generalizing fuel c with
  | nil => cases fuel <;> rfl
  | node x l r ihl ihr =>
    obtain ⟨fuel, rfl⟩ : ∃ k, fuel = k + 1 := ⟨fuel - 1, by simp only [height] at hfuel; omega⟩
    simp only [height] at hfuel
    simp only [removeFind, link_node, H.deref, ok_bind, CString.strCmpFunc_lt_zero, ne_eq,
      CString.strCmpFunc_eq_zero, find]
    by_cases hlt : key < entryKey x
    · rw [if_pos (show key < x.2.key from hlt), if_pos hlt]
      exact ihl (c := .left c x r) H (by omega)
    · rw [if_neg (show ¬ key < x.2.key from hlt), if_neg hlt]
      by_cases heq : key = entryKey x
      · rw [if_neg (not_not.mpr (show key = x.2.key from heq)), if_neg (not_not.mpr heq)]
        rfl
      · rw [if_pos (show ¬ key = x.2.key from heq), if_pos heq]
        exact ihr (c := .right c x l) H (by omega)

theorem searchLoop_removeFind (T : HbTree) (key : CString) (fuel : Nat) (node parent : Link) :
    searchLoop T key fuel node = removeFind T key fuel node parent >>= fun p =>
      match p.1 with
      | none => .ok (-1)
      | some a => T.deref (some a) >>= fun n => .ok n.data.fd := by
  induction fuel generalizing node parent with
  | zero => cases node <;> rfl
  | succ fuel ih =>
    cases node with
    | none => rfl
    | some a =>
      rw [searchLoop, removeFind]
      cases hn : T.deref (some a) with
      | error f => rfl
      | ok n =>
        simp only [ok_bind]
        split
        · exact ih n.llink (some a)
        split
        · exact ih n.rlink (some a)
        · simp only [ok_bind, hn]

theorem hbTreeSearch_eq {T : HbTree} {n : Nat} {t : Shape} (H : T.Represents n t) (key : CString) :
    T.hbTreeSearch key = .ok (Shape.search t key) := by
  have hfind := removeFind_eq key (c := .top) H (Represents.height_le (c := .top) H)
  have hplug := plug_find entryKey key .top t
  rw [hbTreeSearch, H.linked.root_eq, H.next_eq, searchLoop_removeFind _ _ _ _ (holeParent .top), hfind, Shape.search]
  generalize find entryKey key .top t = p at *
  obtain ⟨c, u⟩ := p
  cases u with
  | nil => rfl
  | node x l r =>
    rw [show t = c.plug (.node x l r) from hplug.symm] at H
    simp only [ok_bind, link_node, H.deref]

theorem leftmost_eq {T : HbTree} {n m : Nat} {c : Path Entry} {x : Entry} {l r : Shape}
    (H : T.Represents n (c.plug (.node x l r))) (hm : l.height < m) :
    leftmost T m (some x.1) = .ok (some (minSplit c x l r).2.1.1) := by
  induction l generalizing m c x r with
  | nil =>
    obtain ⟨m, rfl⟩ : ∃ k, m = k + 1 := ⟨m - 1, by omega⟩
    simp [leftmost, H.deref, minSplit]
  | node y ll lr ih _ =>
    obtain ⟨m, rfl⟩ : ∃ k, m = k + 1 := ⟨m - 1, by omega⟩
    simp only [height] at hm
    simp only [leftmost, H.deref, ok_bind, link_node, reduceCtorEq, if_false, minSplit]
    exact ih (c := .left c x r) H (by omega)

theorem rightmost_eq {T : HbTree} {n m : Nat} {c : Path Entry} {x : Entry} {l r : Shape}
    (H : T.Represents n (c.plug (.node x l r))) (hm : r.height < m) :
    rightmost T m (some x.1) = .ok (some (maxSplit c x l r).2.1.1) := by
  induction r generalizing m c x l with
  | nil =>
    obtain ⟨m, rfl⟩ : ∃ k, m = k + 1 := ⟨m - 1, by omega⟩
    simp [rightmost, H.deref, maxSplit]
  | node y rl rr _ ih =>
    obtain ⟨m, rfl⟩ : ∃ k, m = k + 1 := ⟨m - 1, by omega⟩
    simp only [height] at hm
    simp only [rightmost, H.deref, ok_bind, link_node, reduceCtorEq, if_false, maxSplit]
    exact ih (c := .right c x l) H (by omega)

theorem swapEntry_eq {T : HbTree} {n : Nat} {c d d' : Path Entry} {x o : Entry}
    {l r lo ro : Shape} (H : T.Represents n (c.plug (.node x l r)))
    (ho : d.plug (.node o lo ro) = c.plug (.node x l r))
    (ho' : d'.plug (.node o lo ro) = c.plug (.node (withEntry x o) l r)) :
    ∃ T', swapEntry T (some x.1) (some o.1) = .ok T' ∧
      T'.Represents n (d'.plug (.node (withEntry o x) lo ro)) := by
  obtain ⟨T1, e1, H1⟩ := H.setData fun k => { k with key := o.2.key, fd := o.2.fd }
  have H1' : T1.Represents n (d'.plug (.node o lo ro)) := by
    rw [ho']
    exact H1
  obtain ⟨T2, e2, H2⟩ := H1'.setData fun k => { k with key := x.2.key, fd := x.2.fd }
  refine ⟨T2, ?_, H2⟩
  simp only [swapEntry, H.deref, Represents.deref (c := d) (ho ▸ H), ok_bind, e1, e2]

theorem removeTarget_eq {T : HbTree} {n : Nat} {c : Path Entry} {x : Entry} {l r : Shape}
    (H : T.Represents n (c.plug (.node x l r))) :
    ∃ T' o lo ro, removeTarget T (some x.1) (holeParent c) =
        .ok (T', some o.1, holeParent (Shape.unlinkAt c x l r).1) ∧
      T'.Represents n ((Shape.unlinkAt c x l r).1.plug (.node o lo ro)) ∧
      (lo = .nil ∧ (Shape.unlinkAt c x l r).2 = ro ∨ ro = .nil ∧ (Shape.unlinkAt c x l r).2 = lo) := by
  cases l with
  | nil =>
    refine ⟨T, x, .nil, r, ?_, H, .inl ⟨rfl, rfl⟩⟩
    simp [removeTarget, H.deref, Shape.unlinkAt]
  | node y ll lr =>
    cases r with
    | nil =>
      refine ⟨T, x, .node y ll lr, .nil, ?_, H, .inr ⟨rfl, rfl⟩⟩
      simp [removeTarget, H.deref, Shape.unlinkAt]
    | node z rl rr =>
      have hh := H.height_le
      simp only [height] at hh
      by_cases hb : x.2.bal > 0
      · let o := (minSplit (.right c x (.node y ll lr)) z rl rr).2.1
        have hsnd := minSplit_snd (.right c (withEntry x o) (.node y ll lr))
          (.right c x (.node y ll lr)) z rl rr
        have ho := plug_minSplit (.right c x (.node y ll lr)) z rl rr
        have ho' := plug_minSplit (.right c (withEntry x o) (.node y ll lr)) z rl rr
        rw [hsnd] at ho'
        obtain ⟨T', e, H'⟩ := swapEntry_eq H ho ho'
        have hleft := leftmost_eq (c := .right c x (.node y ll lr)) (m := T.next) H
          (by rw [H.next_eq]; omega)
        simp only [Shape.unlinkAt, if_pos hb]
        rw [show (minSplit (.right c (withEntry x o) (.node y ll lr)) z rl rr).2.2 =
          (minSplit (.right c x (.node y ll lr)) z rl rr).2.2 from congrArg Prod.snd hsnd]
        refine ⟨T', withEntry o x, .nil, _, ?_, H', .inl ⟨rfl, rfl⟩⟩
        simp only [removeTarget, H.deref, ok_bind, link_node, ne_eq, reduceCtorEq, not_false_eq_true,
          and_self, if_true, if_pos hb, hleft, e, pure_eq_ok]
        have hd := H'.deref
        simp only [withEntry] at hd
        rw [hd]
        rfl
      · let o := (maxSplit (.left c x (.node z rl rr)) y ll lr).2.1
        have hsnd := maxSplit_snd (.left c (withEntry x o) (.node z rl rr))
          (.left c x (.node z rl rr)) y ll lr
        have ho := plug_maxSplit (.left c x (.node z rl rr)) y ll lr
        have ho' := plug_maxSplit (.left c (withEntry x o) (.node z rl rr)) y ll lr
        rw [hsnd] at ho'
        obtain ⟨T', e, H'⟩ := swapEntry_eq H ho ho'
        have hright := rightmost_eq (c := .left c x (.node z rl rr)) (m := T.next) H
          (by rw [H.next_eq]; omega)
        simp only [Shape.unlinkAt, if_neg hb]
        rw [show (maxSplit (.left c (withEntry x o) (.node z rl rr)) y ll lr).2.2 =
          (maxSplit (.left c x (.node z rl rr)) y ll lr).2.2 from congrArg Prod.snd hsnd]
        refine ⟨T', withEntry o x, _, .nil, ?_, H', .inr ⟨rfl, rfl⟩⟩
        simp only [removeTarget, H.deref, ok_bind, link_node, ne_eq, reduceCtorEq, not_false_eq_true,
          and_self, if_true, if_neg hb, hright, e, pure_eq_ok]
        have hd := H'.deref
        simp only [withEntry] at hd
        rw [hd]
        rfl

def isLeft : Path Entry → Bool
  | .left _ _ _ => true
  | _ => false

theorem removeHigher_eq {T : HbTree} {n a : Nat} {c : Path Entry} {t : Shape}
    (H : T.Represents n (c.plug t)) (ht : link t = some a) :
    removeHigher T (some a) = .ok ((holeParent c).map fun p => (some p, isLeft c)) := by
  cases t with
  | nil => simp at ht
  | node y l r =>
    simp only [link_node, Option.some.injEq] at ht
    subst ht
    cases c with
    | top => simp [removeHigher, H.deref]
    | left c x s =>
      simp [removeHigher, H.deref, Represents.deref (c := c) H, isLeft]
    | right c x s =>
      have hne : link s ≠ some y.1 := fun h => Represents.link_ne (c := c) H h rfl
      simp [removeHigher, H.deref, Represents.deref (c := c) H, isLeft, hne]

theorem isLeft_left (c : Path Entry) (x : Entry) (r : Shape) : isLeft (.left c x r) = true := rfl

theorem isLeft_right (c : Path Entry) (x : Entry) (l : Shape) : isLeft (.right c x l) = false := rfl

/-- The loop does what the recursion does, from every path no longer than its fuel. -/
def Climbs (n fuel : Nat) : Prop :=
  ∀ {c : Path Entry} {t : Shape} {T : HbTree} {p : Nat} {k : UInt32}, T.Represents n (c.plug t) →
    holeParent c = some p → c.depth ≤ fuel →
      Refines .nullDeref (removeClimb fuel T (some p) (isLeft c) k) (Shape.climb c t)
        (fun q s => q.1.Represents n s)

section
variable {n fuel : Nat} {c : Path Entry} {x : Entry} {t : Shape} {T : HbTree} {k : UInt32}

/-- From the node that now tops the hole of `c`, through the label `higher`, the loop does
what the recursion does from `c`. -/
theorem Climbs.up {a : Nat} (ih : Climbs n fuel) (hfuel : c.depth ≤ fuel) (H : T.Represents n (c.plug t))
    (ht : link t = some a) :
    Refines .nullDeref
      (removeHigher T (some a) >>= fun up => match up with
        | none => .ok (T, k)
        | some (parent, left) => removeClimb fuel T parent left k)
      (Shape.climb c t) (fun q s => q.1.Represents n s) := by
  rw [removeHigher_eq H ht]
  cases hc : holeParent c with
  | none =>
    cases c with
    | top => exact .pure H
    | left c x r => simp at hc
    | right c x l => simp at hc
  | some p => exact ih H hc hfuel

theorem removeClimb_left (ih : Climbs n fuel) {r : Shape} (H : T.Represents n ((Path.left c x r).plug t))
    (hfuel : c.depth ≤ fuel) :
    Refines .nullDeref (removeClimb (fuel + 1) T (some x.1) (isLeft (.left c x r)) k)
      (Shape.climb (.left c x r) t) (fun q s => q.1.Represents n s) := by
  obtain ⟨T1, e1, H1⟩ := Represents.setBal (c := c) H fun b => b + 1
  have hx := Represents.deref (c := c) H1
  simp only [withBal_fst] at hx
  simp only [removeClimb, removeStep, isLeft_left, if_true, e1, ok_bind, hx, Shape.climb]
  by_cases h0 : (withBal x (x.2.bal + 1)).2.bal = 0
  · simp only [if_pos h0, ok_bind, pure_eq_ok]
    exact ih.up hfuel H1 rfl
  simp only [if_neg h0]
  by_cases h2 : (withBal x (x.2.bal + 1)).2.bal = 2
  · simp only [if_pos h2]
    cases r with
    | nil => simp [Refines]
    | node y rl rr =>
      have hy := Represents.deref (c := .right c (withBal x (x.2.bal + 1)) t) H1
      simp only [link_node, hy, ok_bind]
      by_cases hneg : y.2.bal < 0
      · simp only [if_pos hneg, bind_assoc]
        refine (rotateRight_refines (c := .right c _ t) H1).bind ?_
        intro p q hpq
        refine (rotateLeft_refines (c := c) hpq.rep).bind ?_
        intro p q hpq
        obtain ⟨m, b, hm, hpar, hlink⟩ := hpq.parent
        simp only [withBal_fst] at hm
        simp only [hm, ok_bind, pure_eq_ok, hpar]
        exact ih.up hfuel hpq.rep hlink
      · simp only [if_neg hneg, bind_assoc]
        refine (rotateLeft_refines (c := c) H1).bind ?_
        intro p q hpq
        obtain ⟨m, b, hm, hpar, hlink⟩ := hpq.parent
        simp only [withBal_fst] at hm
        cases hf : q.2 with
        | true =>
          simp only [hpq.flag.trans hf, if_true, hm, ok_bind, pure_eq_ok, hpar]
          exact ih.up hfuel hpq.rep hlink
        | false =>
          simp only [hpq.flag.trans hf, Bool.false_eq_true, if_false, ok_bind, pure_eq_ok]
          exact .pure hpq.rep
  · simp only [if_neg h2, ok_bind, pure_eq_ok]
    exact .pure H1

theorem removeClimb_right (ih : Climbs n fuel) {l : Shape} (H : T.Represents n ((Path.right c x l).plug t))
    (hfuel : c.depth ≤ fuel) :
    Refines .nullDeref (removeClimb (fuel + 1) T (some x.1) (isLeft (.right c x l)) k)
      (Shape.climb (.right c x l) t) (fun q s => q.1.Represents n s) := by
  obtain ⟨T1, e1, H1⟩ := Represents.setBal (c := c) H fun b => b - 1
  have hx := Represents.deref (c := c) H1
  simp only [withBal_fst] at hx
  simp only [removeClimb, removeStep, isLeft_right, Bool.false_eq_true, if_false, e1, ok_bind, hx,
    Shape.climb]
  by_cases h0 : (withBal x (x.2.bal - 1)).2.bal = 0
  · simp only [if_pos h0, ok_bind, pure_eq_ok]
    exact ih.up hfuel H1 rfl
  obtain ⟨T2, e2, H2⟩ := Represents.setBal (c := c) H1 fun b => b - 1
  have hx2 := Represents.deref (c := c) H2
  simp only [withBal_fst] at e2 hx2
  simp only [if_neg h0, e2, ok_bind, hx2]
  by_cases h2 : (withBal (withBal x (x.2.bal - 1)) ((withBal x (x.2.bal - 1)).2.bal - 1)).2.bal = -2
  · simp only [if_pos h2]
    cases l with
    | nil => simp [Refines]
    | node y ll lr =>
      have hy := Represents.deref
        (c := .left c (withBal (withBal x (x.2.bal - 1)) ((withBal x (x.2.bal - 1)).2.bal - 1)) t) H2
      simp only [link_node, hy, ok_bind]
      by_cases hpos : y.2.bal > 0
      · simp only [if_pos hpos, bind_assoc]
        refine (rotateLeft_refines (c := .left c _ t) H2).bind ?_
        intro p q hpq
        -- the walk goes on from the parent of the node, which has not been rotated
        have hd := Represents.deref (c := c) hpq.rep
        simp only [withBal_fst] at hd
        simp only [hd, ok_bind, pure_eq_ok]
        cases c with
        | top => simp [Refines, removeHigher]
        | left c z r =>
          simp only [Path.depth] at hfuel
          exact ih.up (c := c) (by omega) hpq.rep rfl
        | right c z l =>
          simp only [Path.depth] at hfuel
          exact ih.up (c := c) (by omega) hpq.rep rfl
      · simp only [if_neg hpos, bind_assoc]
        refine (rotateRight_refines (c := c) H2).bind ?_
        intro p q hpq
        obtain ⟨m, b, hm, hpar, hlink⟩ := hpq.parent
        simp only [withBal_fst] at hm
        cases hf : q.2 with
        | true =>
          simp only [hpq.flag.trans hf, if_true, hm, ok_bind, pure_eq_ok, hpar]
          exact ih.up hfuel hpq.rep hlink
        | false =>
          simp only [hpq.flag.trans hf, Bool.false_eq_true, if_false, ok_bind, pure_eq_ok]
          exact .pure hpq.rep
  · simp only [if_neg h2, ok_bind, pure_eq_ok]
    exact .pure H2

end

theorem removeClimb_refines {n fuel : Nat} : Climbs n fuel := by
  induction fuel with
  | zero =>
    intro c t T p k _ hp hfuel
    cases c with
    | top => simp at hp
    | left c x r => simp [Path.depth] at hfuel
    | right c x l => simp [Path.depth] at hfuel
  | succ fuel ih =>
    intro c t T p k H hp hfuel
    cases c with
    | top => simp at hp
    | left c x r =>
      simp only [holeParent_left, Option.some.injEq] at hp
      subst hp
      exact removeClimb_left ih H (Nat.le_of_succ_le_succ hfuel)
    | right c x l =>
      simp only [holeParent_right, Option.some.injEq] at hp
      subst hp
      exact removeClimb_right ih H (Nat.le_of_succ_le_succ hfuel)

theorem adopt_eq {T : HbTree} {t : Shape} {p : Link} (q : Link) (ht : Rep T.heap p t) :
    adopt T (link t) q = .ok { T with heap := reparent T.heap (link t) q } := by
  cases t with
  | nil => rfl
  | node x l r => exact update_eq _ ht.1

theorem Represents.unlink {T S : HbTree} {n : Nat} {d : Path Entry} {o : Entry}
    {lo ro u : Shape} (H : T.Represents n (d.plug (.node o lo ro)))
    (hu : lo = .nil ∧ u = ro ∨ ro = .nil ∧ u = lo)
    (hheap : S.heap = setHole (reparent (Function.update T.heap o.1 none) (link u) (holeParent d))
      d (link u))
    (hroot : S.root = rootLink d (link u)) (hnext : S.next = T.next) :
    S.Represents n (d.plug u) := by
  obtain ⟨hdn, ht, hd⟩ := nodup_plug.mp H.linked.nodup
  obtain ⟨hln, hrn, hol, hor, _⟩ := nodup_node.mp ht
  have hsub : ∀ y ∈ addrs u, y ∈ addrs (.node o lo ro) := by
    rcases hu with ⟨_, rfl⟩ | ⟨_, rfl⟩ <;> simp +contextual
  have hun : (addrs u).Nodup := by
    rcases hu with ⟨_, rfl⟩ | ⟨_, rfl⟩ <;> assumption
  have hou : o.1 ∉ addrs u := by
    rcases hu with ⟨_, rfl⟩ | ⟨_, rfl⟩ <;> assumption
  have hrep : Rep T.heap (some o.1) u := by
    rcases hu with ⟨_, rfl⟩ | ⟨_, rfl⟩
    · exact H.linked.subRep.2.2
    · exact H.linked.subRep.2.1
  refine ⟨H.linked.replace ?_ ?_ hroot ?_, hnext.trans H.next_eq, ?_⟩
  · intro y hy
    have hyo : y ≠ o.1 := fun e => hd y hy (by simp [e])
    rw [hheap]
    apply setHole_congr
    rw [reparent_ne _ _ fun hyu => hd y hy (hsub y hyu), Function.update_of_ne hyo]
  · have hrep' : Rep (Function.update T.heap o.1 none) (some o.1) u :=
      hrep.frame fun y hy => Function.update_of_ne (fun e : y = o.1 => hou (e ▸ hy)) _ _
    rw [hheap]
    exact (hrep'.reparent hun).frame fun y hy => setHole_ne _ _ fun hyd => hd y hyd (hsub y hy)
  · exact nodup_plug.mpr ⟨hdn, hun, fun y hy hyu => hd y hy (hsub y hyu)⟩
  · intro y hy
    apply H.fresh
    rw [mem_addrs_plug] at hy ⊢
    exact hy.imp_right (hsub y)

theorem removeUnlink_refines {T : HbTree} {n : Nat} {d : Path Entry} {o : Entry}
    {lo ro u : Shape} (H : T.Represents n (d.plug (.node o lo ro)))
    (hu : lo = .nil ∧ u = ro ∨ ro = .nil ∧ u = lo) :
    Refines .nullDeref (removeUnlink T (some o.1) (holeParent d)) (Shape.climb d u)
      (fun T' s => T'.Represents n s) := by
  obtain ⟨_, ht, hd⟩ := nodup_plug.mp H.linked.nodup
  obtain ⟨_, _, hol, hor, _⟩ := nodup_node.mp ht
  have hou : o.1 ∉ addrs u := by
    rcases hu with ⟨_, rfl⟩ | ⟨_, rfl⟩ <;> assumption
  have hchild : (if link lo ≠ none then link lo else link ro) = link u := by
    rcases hu with ⟨rfl, rfl⟩ | ⟨rfl, rfl⟩
    · simp
    · cases u <;> simp
  have hrep : Rep (Function.update T.heap o.1 none) (some o.1) u := by
    have hsub : Rep T.heap (some o.1) u := by
      rcases hu with ⟨_, rfl⟩ | ⟨_, rfl⟩
      · exact H.linked.subRep.2.2
      · exact H.linked.subRep.2.1
    exact hsub.frame fun y hy => Function.update_of_ne (fun e : y = o.1 => hou (e ▸ hy)) _ _
  have hadopt :=
    adopt_eq (T := { T with heap := Function.update T.heap o.1 none }) (holeParent d) hrep
  let T1 : HbTree := { T with
    heap := reparent (Function.update T.heap o.1 none) (link u) (holeParent d) }
  change adopt _ _ _ = .ok T1 at hadopt
  have hcell {z : Nat} {k : HbNode} (hz : z ∈ pathAddrs d) (hk : T.heap z = some k) :
      T1.heap z = some k := by
    have hzu : z ∉ addrs u := by
      intro h
      refine hd z hz ?_
      rcases hu with ⟨_, rfl⟩ | ⟨_, rfl⟩ <;> simp [h]
    have hzo : z ≠ o.1 := fun e => hd z hz (by simp [e])
    simp only [T1, reparent_ne _ _ hzu, Function.update_of_ne hzo, hk]
  have hpath := H.linked.pathRep
  simp only [removeUnlink, H.deref, ok_bind, delFunc, hchild, hadopt]
  cases d with
  | top => exact .pure (H.unlink hu rfl rfl rfl)
  | left c x r =>
    have hx := hcell (mem_pathAddrs_left.mpr (.inl rfl)) hpath.1
    have hroot : T.root = rootLink (.left c x r) (link u) :=
      H.linked.root_eq.trans (link_plug (.left c x r) _)
    have H' := H.unlink (S := { T1 with heap := setHole T1.heap (.left c x r) (link u) })
      hu rfl hroot rfl
    simp only [holeParent_left, deref_eq hx, ok_bind, link_node, decide_true, if_true, setLlink,
      update_eq _ hx, pure_eq_ok]
    exact (removeClimb_refines H' rfl (H.next_eq ▸ H'.depth_le)).map
      fun p s hps => ⟨hps.linked, hps.next_eq, hps.fresh⟩
  | right c x l =>
    have hx := hcell (mem_pathAddrs_right.mpr (.inl rfl)) hpath.1
    have hside : link l ≠ some o.1 := fun h => Represents.link_ne (c := c) H h rfl
    have hroot : T.root = rootLink (.right c x l) (link u) :=
      H.linked.root_eq.trans (link_plug (.right c x l) _)
    have H' := H.unlink (S := { T1 with heap := setHole T1.heap (.right c x l) (link u) })
      hu rfl hroot rfl
    simp only [holeParent_right, deref_eq hx, ok_bind, decide_eq_false hside, Bool.false_eq_true,
      if_false, setRlink, update_eq _ hx, pure_eq_ok]
    exact (removeClimb_refines H' rfl (H.next_eq ▸ H'.depth_le)).map
      fun p s hps => ⟨hps.linked, hps.next_eq, hps.fresh⟩

/-- The removal refines the removal from the shape. -/
theorem hbTreeRemove_refines {T : HbTree} {n : Nat} {t : Shape} (H : T.Represents n t)
    (key : CString) :
    Refines .nullDeref (T.hbTreeRemove key) (Shape.remove t key)
      (fun p s => p.1.Represents n s.1 ∧ p.2 = s.2) := by
  have hfind := removeFind_eq key (c := .top) H (Represents.height_le (c := .top) H)
  have hplug := plug_find entryKey key .top t
  simp only [hbTreeRemove, H.linked.root_eq, H.next_eq, holeParent_top] at hfind ⊢
  simp only [hfind, ok_bind, Shape.remove]
  generalize find entryKey key .top t = p at hplug ⊢
  obtain ⟨c, s⟩ := p
  cases s with
  | nil => exact .pure ⟨H, rfl⟩
  | node x l r =>
    have H1 : T.Represents n (c.plug (.node x l r)) := by
      rw [show c.plug (.node x l r) = t from hplug]
      exact H
    obtain ⟨T', o, lo, ro, e, H', hu⟩ := removeTarget_eq H1
    simp only [link_node, e, ok_bind]
    have hclimb := removeUnlink_refines H' hu
    rw [Option.map_eq_bind]
    exact hclimb.bind fun T'' s hs => .pure ⟨hs, rfl⟩

end HbTree
end TeamsInC
