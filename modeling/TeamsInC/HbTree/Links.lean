import Mathlib.Data.List.Nodup
import Mathlib.Data.List.Perm.Subperm
import TeamsInC.HbTree.Shape
import TeamsInC.Lib.Refines

/-!
# Accesses and rotations on a represented tree

Every access of hb_tree.c to a heap that represents a shape is an access to a node of that
shape; what it does to the heap is stated as what it does to the shape.
-/

set_option autoImplicit false

namespace TeamsInC
open BinaryTree LinkedTree

namespace HbTree

/-- The tree's nodes are the shape's, and the next address to be allocated is `n`. -/
structure Represents (T : HbTree) (n : Nat) (t : Shape) : Prop where
  linked : LinkedTree.Represents T.heap T.root t
  next_eq : T.next = n
  fresh : ∀ a ∈ addrs t, a < n

theorem represents_new : hbTreeNew.Represents 0 .nil := ⟨.empty _, rfl, by simp⟩

theorem Represents.length_le {T : HbTree} {n : Nat} {t : Shape} (H : T.Represents n t) :
    t.inorder.length ≤ n := by
  have hsub : addrs t ⊆ List.range n := fun a ha => List.mem_range.mpr (H.fresh a ha)
  have hle := (H.linked.nodup.subperm hsub).length_le
  simpa [addrs] using hle

theorem height_le_inorder (t : Shape) : t.height ≤ t.inorder.length := by
  induction t with
  | nil => exact Nat.le_refl 0
  | node a l r ihl ihr =>
    simp only [height, inorder_node, List.length_append, List.length_cons]
    omega

theorem Represents.height_le {T : HbTree} {n : Nat} {c : Path Entry} {t : Shape}
    (H : T.Represents n (c.plug t)) : t.height ≤ n := by
  have h1 := height_le_inorder t
  have h2 := c.depth_add_length_le t
  have h3 := H.length_le
  omega

theorem Represents.depth_le {T : HbTree} {n : Nat} {c : Path Entry} {t : Shape}
    (H : T.Represents n (c.plug t)) : c.depth ≤ n := by
  have h1 := c.depth_add_length_le t
  have h2 := H.length_le
  omega

def shape (T : HbTree) : Shape := readTree T.heap T.next T.root

theorem Represents.shape_eq {T : HbTree} {n : Nat} {t : Shape} (H : T.Represents n t) :
    T.shape = t := by
  rw [shape, H.linked.root_eq]
  apply H.linked.rep.readTree_eq
  rw [H.next_eq]
  exact Represents.height_le (c := .top) H

theorem deref_eq {T : HbTree} {a : Nat} {n : HbNode} (h : T.heap a = some n) :
    T.deref (some a) = .ok n := by simp [deref, h]

@[simp] theorem deref_null (T : HbTree) : T.deref none = .error .nullDeref := rfl

theorem update_eq {T : HbTree} {a : Nat} {n : HbNode} (f : HbNode → HbNode)
    (h : T.heap a = some n) :
    T.update (some a) f = .ok { T with heap := T.heap.modify a f } := by
  simp [update, deref_eq h]

namespace Represents
variable {T : HbTree} {n : Nat} {c : Path Entry} {x : Entry} {l r : Shape}

theorem deref (H : T.Represents n (c.plug (.node x l r))) :
    T.deref (some x.1) = .ok ⟨x.2, holeParent c, link l, link r⟩ := deref_eq H.linked.read

theorem setData (H : T.Represents n (c.plug (.node x l r))) (f : HbData → HbData) :
    ∃ T', T.setData (some x.1) f = .ok T' ∧
      T'.Represents n (c.plug (.node (x.1, f x.2) l r)) := by
  refine ⟨_, update_eq _ H.linked.read, ?_, H.next_eq, ?_⟩
  · have hf : (T.heap.modify x.1 fun k => { k with data := f k.data }) =
        T.heap.modify x.1 fun k => { k with data := f x.2 } := by
      funext y
      by_cases hy : y = x.1
      · subst hy
        simp [H.linked.read]
      · rw [Heap.modify_ne _ _ hy, Heap.modify_ne _ _ hy]
    rw [hf]
    exact H.linked.setData
  · intro a ha
    apply H.fresh a
    simpa only [mem_addrs_plug, addrs_node] using ha

theorem setBal (H : T.Represents n (c.plug (.node x l r))) (f : Int8 → Int8) :
    ∃ T', T.setData (some x.1) (fun d => { d with bal := f d.bal }) = .ok T' ∧
      T'.Represents n (c.plug (.node (withBal x (f x.2.bal)) l r)) :=
  H.setData fun d => { d with bal := f d.bal }

end Represents

/-- In the middle of a rotation: the cells of its two nodes, and a heap `g` that tells what
all other addresses hold. -/
structure Pair (T : HbTree) (root : Link) (next a : Nat) (m : HbNode) (b : Nat) (n : HbNode)
    (g : Heap HbData) : Prop where
  root_eq : T.root = root
  next_eq : T.next = next
  ne : a ≠ b
  fst : T.heap a = some m
  snd : T.heap b = some n
  rest : ∀ z, z ≠ a → z ≠ b → T.heap z = g z

namespace Pair
variable {T : HbTree} {root : Link} {next a b : Nat} {m n : HbNode} {g : Heap HbData}

theorem updateFst (H : T.Pair root next a m b n g) (f : HbNode → HbNode) :
    ∃ T', T.update (some a) f = .ok T' ∧ T'.Pair root next a (f m) b n g := by
  refine ⟨_, update_eq f H.fst, H.root_eq, H.next_eq, H.ne, by simp [H.fst], ?_, ?_⟩
  · exact (Heap.modify_ne _ _ (Ne.symm H.ne)).trans H.snd
  · exact fun z hz hz' => (Heap.modify_ne _ _ hz).trans (H.rest z hz hz')

theorem updateSnd (H : T.Pair root next a m b n g) (f : HbNode → HbNode) :
    ∃ T', T.update (some b) f = .ok T' ∧ T'.Pair root next a m b (f n) g := by
  refine ⟨_, update_eq f H.snd, H.root_eq, H.next_eq, H.ne, ?_, by simp [H.snd], ?_⟩
  · exact (Heap.modify_ne _ _ H.ne).trans H.fst
  · exact fun z hz hz' => (Heap.modify_ne _ _ hz').trans (H.rest z hz hz')

theorem adopt (H : T.Pair root next a m b n g) {t : Shape} {p : Link} (ht : Rep g p t)
    (ha : a ∉ addrs t) (hb : b ∉ addrs t) :
    ∃ T', adopt T (link t) (some a) = .ok T' ∧
      T'.Pair root next a m b n (reparent g (link t) (some a)) := by
  cases t with
  | nil => exact ⟨T, rfl, H⟩
  | node z l r =>
    have hza : z.1 ≠ a := fun e => ha (by simp [← e])
    have hzb : z.1 ≠ b := fun e => hb (by simp [← e])
    have hz : T.heap z.1 = some ⟨z.2, p, link l, link r⟩ := (H.rest _ hza hzb).trans ht.1
    refine ⟨_, update_eq _ hz, H.root_eq, H.next_eq, H.ne, ?_, ?_, ?_⟩
    · exact (Heap.modify_ne _ _ (Ne.symm hza)).trans H.fst
    · exact (Heap.modify_ne _ _ (Ne.symm hzb)).trans H.snd
    · exact fun y hy hy' => Heap.modify_congr _ (H.rest y hy hy')

theorem relink {c : Path Entry} (H : T.Pair (rootLink c (some a)) next a m b n g)
    (hc : PathRep g c (some a)) (ha : a ∉ pathAddrs c) (hb : b ∉ pathAddrs c)
    (hn : (pathAddrs c).Nodup) :
    ∃ T', relink T (holeParent c) (some a) (some b) = .ok T' ∧
      T'.Pair (rootLink c (some b)) next a m b n (setHole g c (some b)) := by
  have cell {z : Nat} (hz : z ∈ pathAddrs c) : z ≠ a ∧ z ≠ b :=
    ⟨fun e => ha (e ▸ hz), fun e => hb (e ▸ hz)⟩
  have write {z : Nat} {k : HbNode} {f : HbNode → HbNode} (hz : z ∈ pathAddrs c)
      (hroot : rootLink c (some a) = rootLink c (some b)) (hk : g z = some k)
      (hset : setHole g c (some b) = g.modify z f) :
      ∃ T', T.update (some z) f = .ok T' ∧
        T'.Pair (rootLink c (some b)) next a m b n (setHole g c (some b)) := by
    obtain ⟨hza, hzb⟩ := cell hz
    refine ⟨_, update_eq f ((H.rest z hza hzb).trans hk), H.root_eq.trans hroot, H.next_eq, H.ne,
      ?_, ?_, ?_⟩
    · exact (Heap.modify_ne _ _ (Ne.symm hza)).trans H.fst
    · exact (Heap.modify_ne _ _ (Ne.symm hzb)).trans H.snd
    · intro y hy hy'
      rw [hset]
      exact Heap.modify_congr _ (H.rest y hy hy')
  cases c with
  | top => exact ⟨{ T with root := some b }, rfl, rfl, H.next_eq, H.ne, H.fst, H.snd, H.rest⟩
  | left c z r =>
    have hz : z.1 ∈ pathAddrs (.left c z r) := mem_pathAddrs_left.mpr (.inl rfl)
    have hcell : T.heap z.1 = some ⟨z.2, holeParent c, some a, link r⟩ :=
      (H.rest _ (cell hz).1 (cell hz).2).trans hc.1
    obtain ⟨T', hT', H'⟩ := write hz rfl hc.1 rfl
    refine ⟨T', ?_, H'⟩
    simp only [HbTree.relink, holeParent_left, deref_eq hcell, ok_bind, if_true]
    exact hT'
  | right c z l =>
    have hz : z.1 ∈ pathAddrs (.right c z l) := mem_pathAddrs_right.mpr (.inl rfl)
    have hcell : T.heap z.1 = some ⟨z.2, holeParent c, link l, some a⟩ :=
      (H.rest _ (cell hz).1 (cell hz).2).trans hc.1
    have hl : link l ≠ some a :=
      fun e => ha (mem_pathAddrs_right.mpr (.inr (.inl (link_mem_addrs e))))
    obtain ⟨T', hT', H'⟩ := write hz rfl hc.1 rfl
    refine ⟨T', ?_, H'⟩
    simp only [HbTree.relink, holeParent_right, deref_eq hcell, ok_bind, if_neg hl]
    exact hT'

end Pair

theorem rep_withBal {h : Heap HbData} {p : Link} {x : Entry} {b : Int8} {l r : Shape} :
    Rep h p (.node (withBal x b) l r) ↔ h x.1 = some ⟨(withBal x b).2, p, link l, link r⟩ ∧
      Rep h (some x.1) l ∧ Rep h (some x.1) r := Iff.rfl

/-- What both rotations have done in the end, whichever way they turn: `t` was the subtree at
the hole, `t'` is built from the same pieces, and `u` is the piece that changed its parent. -/
theorem represents_of_pair {T T' : HbTree} {n a b : Nat} {m k : HbNode} {c : Path Entry}
    {t t' u : Shape} (H : T.Represents n (c.plug t)) (hab : (addrs t').Perm (addrs t))
    (ha : a ∈ addrs t) (hb : b ∈ addrs t) (hu : ∀ z ∈ addrs u, z ∈ addrs t)
    (hp : T'.Pair (rootLink c (some b)) n a m b k (setHole (reparent T.heap (link u) (some a)) c (some b)))
    (hlink : link t' = some b) (sub : Rep T'.heap (holeParent c) t') :
    T'.Represents n (c.plug t') := by
  obtain ⟨hc, ht, hd⟩ := nodup_plug.mp H.linked.nodup
  refine ⟨H.linked.replace ?_ sub ?_ ?_, hp.next_eq, ?_⟩
  · intro y hy
    have hya : y ≠ a := fun e => hd y hy (e ▸ ha)
    have hyb : y ≠ b := fun e => hd y hy (e ▸ hb)
    rw [hp.rest y hya hyb, hlink]
    exact setHole_congr _ (reparent_ne _ _ fun hyu => hd y hy (hu y hyu))
  · rw [hp.root_eq, hlink]
  · exact nodup_plug.mpr ⟨hc, hab.nodup_iff.mpr ht, fun y hy hy' => hd y hy (hab.mem_iff.mp hy')⟩
  · intro y hy
    apply H.fresh
    rw [mem_addrs_plug] at hy ⊢
    exact hy.imp_right hab.mem_iff.mp

theorem Pair.rep {T T' : HbTree} {root : Link} {n a b : Nat} {m k : HbNode} {c : Path Entry}
    {t u v : Shape} {p : Link} (H : T.Represents n (c.plug t))
    (hp : T'.Pair root n a m b k (setHole (reparent T.heap (link u) (some a)) c (some b)))
    (hv : ∀ z ∈ addrs v, z ∈ addrs t) (ha : a ∉ addrs v) (hb : b ∉ addrs v)
    (rep : Rep (reparent T.heap (link u) (some a)) p v) : Rep T'.heap p v := by
  obtain ⟨_, _, hd⟩ := nodup_plug.mp H.linked.nodup
  apply rep.frame
  intro y hy
  rw [hp.rest y (fun e => ha (e ▸ hy)) (fun e => hb (e ▸ hy))]
  exact setHole_ne _ _ fun hyc => hd y hyc (hv y hy)

/-- The outcome of rotating at `x`: the parent link of `x` names the new top of the subtree. -/
structure Rotated (n : Nat) (c : Path Entry) (x : Entry) (p : HbTree × Bool) (q : Shape × Bool) :
    Prop where
  rep : p.1.Represents n (c.plug q.1)
  flag : p.2 = q.2
  parent : ∃ k b, p.1.deref (some x.1) = .ok k ∧ k.parent = some b ∧ link q.1 = some b

theorem Rotated.of_node {T : HbTree} {n : Nat} {c : Path Entry} {x y : Entry} {l r : Shape}
    {k : HbNode} {hc : Bool} (rep : T.Represents n (c.plug (.node y l r)))
    (hx : T.heap x.1 = some k) (hp : k.parent = some y.1) :
    Rotated n c x (T, hc) (.node y l r, hc) := ⟨rep, rfl, k, y.1, deref_eq hx, hp, rfl⟩

theorem rotateLeft_refines {T : HbTree} {n : Nat} {c : Path Entry} {x : Entry} {l r : Shape}
    (H : T.Represents n (c.plug (.node x l r))) :
    Refines .nullDeref (T.rotateLeft (some x.1)) (Shape.rotateLeft (.node x l r))
      (Rotated n c x) := by
  cases r with
  | nil => simp [Refines, rotateLeft, Shape.rotateLeft, H.deref]
  | node y rl rr =>
    obtain ⟨hcn, htn, hd⟩ := nodup_plug.mp H.linked.nodup
    obtain ⟨_, hrn, hxl, hxr, hlr⟩ := nodup_node.mp htn
    obtain ⟨hrln, _, hyrl, hyrr, hrlrr⟩ := nodup_node.mp hrn
    simp only [addrs_node, List.mem_append, List.mem_cons, not_or] at hxr hlr hd
    obtain ⟨hx, hl, hy, hrl, hrr⟩ := H.linked.subRep
    have hxy : x.1 ≠ y.1 := hxr.2.1
    have H0 : T.Pair (rootLink c (some x.1)) n x.1 ⟨x.2, holeParent c, link l, some y.1⟩
        y.1 ⟨y.2, some x.1, link rl, link rr⟩ T.heap :=
      ⟨by rw [H.linked.root_eq, link_plug, link_node], H.next_eq, hxy, hx, hy, fun _ _ _ => rfl⟩
    obtain ⟨T1, e1, H1⟩ := H0.updateFst fun k => { k with rlink := link rl }
    obtain ⟨T2, e2, H2⟩ := H1.adopt hrl hxr.1 hyrl
    obtain ⟨T3, e3, H3⟩ := H2.updateSnd fun k => { k with llink := some x.1 }
    obtain ⟨T4, e4, H4⟩ := H3.updateFst fun k => { k with parent := some y.1 }
    obtain ⟨T5, e5, H5⟩ := H4.updateSnd fun k => { k with parent := holeParent c }
    have hpath : PathRep (reparent T.heap (link rl) (some x.1)) c (some x.1) :=
      H.linked.pathRep.frame fun z hz => reparent_ne _ _ fun hz' => (hd z hz).2.2.1 hz'
    obtain ⟨T6, e6, H6⟩ := H5.relink hpath (fun h => (hd _ h).2.1 rfl)
      (fun h => (hd _ h).2.2.2.1 rfl) hcn
    obtain ⟨T7, e7, H7⟩ := H6.updateFst fun k =>
      { k with data := { k.data with bal := k.data.bal - (1 + MAX y.2.bal 0) } }
    obtain ⟨T8, e8, H8⟩ := H7.updateSnd fun k =>
      { k with data := { k.data with bal := k.data.bal - (1 - MIN (x.2.bal - (1 + MAX y.2.bal 0)) 0) } }
    have hx8 : T8.heap x.1 = some ⟨(withBal x (x.2.bal - (1 + MAX y.2.bal 0))).2, some y.1,
        link l, link rl⟩ := H8.fst
    have hy8 : T8.heap y.1 = some ⟨(withBal y (y.2.bal -
        (1 - MIN (withBal x (x.2.bal - (1 + MAX y.2.bal 0))).2.bal 0))).2, holeParent c, some x.1,
        link rr⟩ := H8.snd
    have rep : T8.Represents n (c.plug (.node (withBal y (y.2.bal -
        (1 - MIN (withBal x (x.2.bal - (1 + MAX y.2.bal 0))).2.bal 0)))
        (.node (withBal x (x.2.bal - (1 + MAX y.2.bal 0))) l rl) rr)) := by
      have hv {v : Shape} {p : Link} (hv : ∀ z ∈ addrs v, z ∈ addrs (.node x l (.node y rl rr)))
          (ha : x.1 ∉ addrs v) (hb : y.1 ∉ addrs v)
          (rep : Rep (reparent T.heap (link rl) (some x.1)) p v) : Rep T8.heap p v :=
        H8.rep H hv ha hb rep
      refine represents_of_pair H ?_ ?_ ?_ ?_ H8 (by rw [link_node, withBal_fst])
        (rep_withBal.mpr ⟨hy8, rep_withBal.mpr ⟨hx8, ?_, ?_⟩, ?_⟩)
      · simp [withBal]
      · simp
      · simp
      · intro z hz
        simp [hz]
      · refine hv (by simp +contextual) hxl (fun h => (hlr _ h).2.1 rfl) ?_
        exact hl.frame fun z hz => reparent_ne _ _ fun hz' => (hlr z hz).1 hz'
      · exact hv (by simp +contextual) hxr.1 hyrl (hrl.reparent hrln)
      · refine hv (by simp +contextual) hxr.2.2 hyrr ?_
        exact hrr.frame fun z hz => reparent_ne _ _ fun hz' => hrlrr z hz' hz
    refine ⟨(T8, decide (y.2.bal ≠ 0)), ?_, .of_node rep hx8 (by rw [withBal_fst])⟩
    simp only [rotateLeft, setRlink, setLlink, setParent, setData, deref_eq H0.fst, deref_eq H0.snd,
        ok_bind, e1, e2, e3, deref_eq H3.fst, e4, e5, e6, deref_eq H6.snd, e7, deref_eq H7.fst, e8,
        pure_eq_ok]

theorem rotateRight_refines {T : HbTree} {n : Nat} {c : Path Entry} {x : Entry} {l r : Shape}
    (H : T.Represents n (c.plug (.node x l r))) :
    Refines .nullDeref (T.rotateRight (some x.1)) (Shape.rotateRight (.node x l r))
      (Rotated n c x) := by
  cases l with
  | nil => simp [Refines, rotateRight, Shape.rotateRight, H.deref]
  | node y ll lr =>
    obtain ⟨hcn, htn, hd⟩ := nodup_plug.mp H.linked.nodup
    obtain ⟨hln, _, hxl, hxr, hlr⟩ := nodup_node.mp htn
    obtain ⟨_, hlrn, hyll, hylr, hlllr⟩ := nodup_node.mp hln
    simp only [addrs_node, List.mem_append, List.mem_cons, not_or] at hxl hlr hd
    obtain ⟨hx, ⟨hy, hll, hlrep⟩, hr⟩ := H.linked.subRep
    have hxy : x.1 ≠ y.1 := hxl.2.1
    have H0 : T.Pair (rootLink c (some x.1)) n x.1 ⟨x.2, holeParent c, some y.1, link r⟩
        y.1 ⟨y.2, some x.1, link ll, link lr⟩ T.heap :=
      ⟨by rw [H.linked.root_eq, link_plug, link_node], H.next_eq, hxy, hx, hy, fun _ _ _ => rfl⟩
    obtain ⟨T1, e1, H1⟩ := H0.updateFst fun k => { k with llink := link lr }
    obtain ⟨T2, e2, H2⟩ := H1.adopt hlrep hxl.2.2 hylr
    obtain ⟨T3, e3, H3⟩ := H2.updateSnd fun k => { k with rlink := some x.1 }
    obtain ⟨T4, e4, H4⟩ := H3.updateFst fun k => { k with parent := some y.1 }
    obtain ⟨T5, e5, H5⟩ := H4.updateSnd fun k => { k with parent := holeParent c }
    have hpath : PathRep (reparent T.heap (link lr) (some x.1)) c (some x.1) :=
      H.linked.pathRep.frame fun z hz => reparent_ne _ _ fun hz' => (hd z hz).1.2.2 hz'
    obtain ⟨T6, e6, H6⟩ := H5.relink hpath (fun h => (hd _ h).2.1 rfl)
      (fun h => (hd _ h).1.2.1 rfl) hcn
    obtain ⟨T7, e7, H7⟩ := H6.updateFst fun k =>
      { k with data := { k.data with bal := k.data.bal + (1 - MIN y.2.bal 0) } }
    obtain ⟨T8, e8, H8⟩ := H7.updateSnd fun k =>
      { k with data := { k.data with bal := k.data.bal + (1 + MAX (x.2.bal + (1 - MIN y.2.bal 0)) 0) } }
    have hx8 : T8.heap x.1 = some ⟨(withBal x (x.2.bal + (1 - MIN y.2.bal 0))).2, some y.1,
        link lr, link r⟩ := H8.fst
    have hy8 : T8.heap y.1 = some ⟨(withBal y (y.2.bal +
        (1 + MAX (withBal x (x.2.bal + (1 - MIN y.2.bal 0))).2.bal 0))).2, holeParent c, link ll,
        some x.1⟩ := H8.snd
    have rep : T8.Represents n (c.plug (.node (withBal y (y.2.bal +
        (1 + MAX (withBal x (x.2.bal + (1 - MIN y.2.bal 0))).2.bal 0))) ll
        (.node (withBal x (x.2.bal + (1 - MIN y.2.bal 0))) lr r))) := by
      have hv {v : Shape} {p : Link} (hv : ∀ z ∈ addrs v, z ∈ addrs (.node x (.node y ll lr) r))
          (ha : x.1 ∉ addrs v) (hb : y.1 ∉ addrs v)
          (rep : Rep (reparent T.heap (link lr) (some x.1)) p v) : Rep T8.heap p v :=
        H8.rep H hv ha hb rep
      refine represents_of_pair H ?_ ?_ ?_ ?_ H8 (by rw [link_node, withBal_fst])
        (rep_withBal.mpr ⟨hy8, ?_, rep_withBal.mpr ⟨hx8, ?_, ?_⟩⟩)
      · simp [withBal]
      · simp
      · simp
      · intro z hz
        simp [hz]
      · refine hv (by simp +contextual) hxl.1 hyll ?_
        exact hll.frame fun z hz => reparent_ne _ _ fun hz' => hlllr z hz hz'
      · exact hv (by simp +contextual) hxl.2.2 hylr (hlrep.reparent hlrn)
      · refine hv (by simp +contextual) hxr (fun h => hlr y.1 (.inr (.inl rfl)) h) ?_
        exact hr.frame fun z hz => reparent_ne _ _ fun hz' => hlr z (.inr (.inr hz')) hz
    refine ⟨(T8, decide (y.2.bal ≠ 0)), ?_, .of_node rep hx8 (by rw [withBal_fst])⟩
    simp only [rotateRight, setRlink, setLlink, setParent, setData, deref_eq H0.fst, deref_eq H0.snd,
        ok_bind, e1, e2, e3, deref_eq H3.fst, e4, e5, e6, deref_eq H6.snd, e7, deref_eq H7.fst, e8,
        pure_eq_ok]

end HbTree
end TeamsInC
