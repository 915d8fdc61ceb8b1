import TeamsInC.HbTree.Balance

/-!
# What a new node held before

`new_node` writes every field of its node but `bal`. The first insertion that passes the node
or stops at it reads what `malloc` had left there, and so does whoever looks at the tree.
-/

set_option autoImplicit false

namespace TeamsInC
open BinaryTree LinkedTree

namespace Shape

/-- Down the sides to which its nodes lean, the tree ends at a leaf whose field is 1. -/
inductive EndsFalse : Shape → Prop
  | leaf {x : Entry} (hx : x.2.bal = 1) : EndsFalse (.node x .nil .nil)
  | left {x : Entry} {l r : Shape} (hx : x.2.bal = -1) (hl : EndsFalse l) : EndsFalse (.node x l r)
  | right {x : Entry} {l r : Shape} (hx : x.2.bal = 1) (hr : EndsFalse r) : EndsFalse (.node x l r)

theorem EndsFalse.not_balanced {t : Shape} (h : EndsFalse t) : ¬ Balanced entryBal t := by
  induction h with
  | leaf hx =>
    rintro ⟨hlean, _⟩
    simp [Leans, entryBal, hx] at hlean
  | left _ _ ih => exact fun ht => ih ht.2.1
  | right _ _ ih => exact fun ht => ih ht.2.2

theorem double_right_leaf {x y z : Entry} (tl r : Shape) (hx : x.2.bal = -2) (hy : y.2.bal = 1)
    (hz : z.2.bal = 1) :
    ∃ l hc, rotateLeft (.node y tl (.node z .nil .nil)) = some (l, hc) ∧
      rotateRight (.node x l r) = some (.node (withBal z 0) (.node (withBal y (-1)) tl .nil)
        (.node (withBal x 0) .nil r), true) := by
  refine ⟨_, _, rfl, ?_⟩
  simp only [rotateRight, withBal_bal, withBal_withBal, hx, hy, hz]
  rfl

theorem double_left_leaf {x y z : Entry} (l tr : Shape) (hx : x.2.bal = 2) (hy : y.2.bal = -1)
    (hz : z.2.bal = 1) :
    ∃ r hc, rotateRight (.node y (.node z .nil .nil) tr) = some (r, hc) ∧
      rotateLeft (.node x l r) = some (.node (withBal z 0) (.node (withBal x (-1)) l .nil)
        (.node (withBal y 0) .nil tr), true) := by
  refine ⟨_, _, rfl, ?_⟩
  simp only [rotateLeft, withBal_bal, withBal_withBal, hx, hy, hz]
  rfl

theorem rebalance_left_false {c : Path Entry} {x : Entry} {r t s : Shape} {h : Nat}
    (hc : (Path.left c x r).Balanced entryBal h) (ht : EndsFalse t) (hh : t.height = h + 1)
    (hs : rebalance (.left c x r) t = some s) : ¬ Balanced entryBal s := by
  intro hbal
  obtain ⟨⟨hxl, hx1, hx2⟩, _, _⟩ := hc
  simp only [entryBal] at hxl hx1 hx2
  simp only [rebalance, withBal_bal] at hs
  split at hs
  · rename_i hlow
    have hx : x.2.bal.toInt = -1 := (pred_eq_neg_two_iff (by omega)).mp hlow
    cases ht with
    | leaf =>
      simp only [height] at hh
      omega
    | @left y tl tr hy htl =>
      rw [if_neg (by simp only [rootBal, hy]; decide)] at hs
      cases hs
      exact htl.not_balanced (balanced_plug.mp hbal).2.2.1
    | @right y tl tr hy htr =>
      rw [if_pos (by simp only [rootBal, hy]; decide)] at hs
      cases htr with
      | @leaf z hz =>
        obtain ⟨l, _, e, e'⟩ := double_right_leaf (x := withBal x (x.2.bal - 1)) tl r hlow hy hz
        simp only [e, e', Option.bind_eq_bind, Option.bind_some] at hs
        cases hs
        obtain ⟨⟨hzl, _⟩, ⟨⟨hyl, _⟩, _⟩, ⟨hxr, _⟩, _⟩ := (balanced_plug.mp hbal).2
        simp only [entryBal_withBal, Int8.toInt_zero, toInt_neg_one, height] at hzl hyl hxr
        omega
      | left hz hzl =>
        cases hs
        exact hzl.not_balanced (balanced_plug.mp hbal).2.2.1.2.2
      | right hz hzr =>
        cases hs
        exact hzr.not_balanced (balanced_plug.mp hbal).2.2.2.2.1
  · cases hs
    exact ht.not_balanced (balanced_plug.mp hbal).2.2.1

theorem rebalance_right_false {c : Path Entry} {x : Entry} {l t s : Shape} {h : Nat}
    (hc : (Path.right c x l).Balanced entryBal h) (ht : EndsFalse t) (hh : t.height = h + 1)
    (hs : rebalance (.right c x l) t = some s) : ¬ Balanced entryBal s := by
  intro hbal
  obtain ⟨⟨hxl, hx1, hx2⟩, _, _⟩ := hc
  simp only [entryBal] at hxl hx1 hx2
  simp only [rebalance, withBal_bal] at hs
  split at hs
  · rename_i hhigh
    have hx : x.2.bal.toInt = 1 := (succ_eq_two_iff (by omega)).mp hhigh
    cases ht with
    | leaf =>
      simp only [height] at hh
      omega
    | @left y tl tr hy htl =>
      rw [if_pos (by simp only [rootBal, hy]; decide)] at hs
      cases htl with
      | @leaf z hz =>
        obtain ⟨r, _, e, e'⟩ := double_left_leaf (x := withBal x (x.2.bal + 1)) l tr hhigh hy hz
        simp only [e, e', Option.bind_eq_bind, Option.bind_some] at hs
        cases hs
        obtain ⟨_, ⟨⟨hxl', _⟩, _⟩, ⟨hyl, _⟩, _⟩ := (balanced_plug.mp hbal).2
        simp only [entryBal_withBal, Int8.toInt_zero, toInt_neg_one, height] at hxl' hyl hh
        omega
      | left hz hzl =>
        cases hs
        exact hzl.not_balanced (balanced_plug.mp hbal).2.2.1.2.2
      | right hz hzr =>
        cases hs
        exact hzr.not_balanced (balanced_plug.mp hbal).2.2.2.2.1
    | @right y tl tr hy htr =>
      rw [if_neg (by simp only [rootBal, hy]; decide)] at hs
      cases hs
      exact htr.not_balanced (balanced_plug.mp hbal).2.2.2
  · cases hs
    exact ht.not_balanced (balanced_plug.mp hbal).2.2.2

/-- The subtree `t` has grown by the new leaf: up to the first node that does not stand straight
every node leans towards the leaf, and what is done there leaves a false field. -/
theorem retrace_rebalance_false {c : Path Entry} {t s : Shape} {h : Nat} (hc : c.Balanced entryBal h)
    (ht : EndsFalse t) (hh : t.height = h + 1)
    (hs : rebalance (retrace c t).1 (retrace c t).2 = some s) : ¬ Balanced entryBal s := by
  induction c generalizing t h with
  | top =>
    cases hs
    exact ht.not_balanced
  | left c x r ih =>
    by_cases hx : x.2.bal = 0
    · simp only [retrace, if_pos hx] at hs
      obtain ⟨⟨hxl, _⟩, _, hc⟩ := hc
      simp only [entryBal, hx, Int8.toInt_zero] at hxl
      exact ih hc (.left rfl ht) (by simp only [height]; omega) hs
    · simp only [retrace, if_neg hx] at hs
      exact rebalance_left_false hc ht hh hs
  | right c x l ih =>
    by_cases hx : x.2.bal = 0
    · simp only [retrace, if_pos hx] at hs
      obtain ⟨⟨hxl, _⟩, _, hc⟩ := hc
      simp only [entryBal, hx, Int8.toInt_zero] at hxl
      exact ih hc (.right rfl ht) (by simp only [height]; omega) hs
    · simp only [retrace, if_neg hx] at hs
      exact rebalance_right_false hc ht hh hs

/-- An insertion into a balanced tree never leaves it balanced, when the field of the new node
starts with 1. -/
theorem insert_false {t s : Shape} (ht : Balanced entryBal t) {a : Nat} {key : CString} {fd : Int}
    (hs : insert t a key fd 1 = some s) : ¬ Balanced entryBal s := by
  have hplug : Balanced entryBal ((descend entryKey key .top t).plug .nil) := by
    rw [plug_descend]
    exact ht
  exact retrace_rebalance_false (balanced_plug.mp hplug).1 (.leaf rfl) rfl hs

def bals (t : Shape) : BinaryTree Int8 := t.map fun x => x.2.bal

theorem balanced_bals {t : Shape} : Balanced Int8.toInt t.bals ↔ Balanced entryBal t := balanced_map _

end Shape

namespace HbTree

/-- Insertions in a row. `memory` is what `malloc` finds for `bal` in each new node. -/
def insertAll (memory : Nat → Int8) (T : HbTree) : List (CString × Int) → Except Fault HbTree
  | [] => .ok T
  | (key, fd) :: ops => do
    let (T, _) ← T.hbTreeInsert key fd (memory T.next)
    insertAll memory T ops

/-- Both runs complete, with trees of the same shape and the same balance fields, or both follow a
NULL link. -/
inductive EndAlike : Except Fault HbTree → Except Fault HbTree → Prop
  | both {T T' : HbTree} (same : T.shape.bals = T'.shape.bals) : EndAlike (.ok T) (.ok T')
  | neither : EndAlike (.error .nullDeref) (.error .nullDeref)

theorem EndAlike.balanced {T T' : HbTree} (h : EndAlike (.ok T) (.ok T'))
    (hT : Balanced entryBal T.shape) : Balanced entryBal T'.shape := by
  cases h with
  | both same => rwa [← Shape.balanced_bals, ← same, Shape.balanced_bals]

section
variable {memory : Nat → Int8} {T : HbTree}

theorem insertAll_append (ops ops' : List (CString × Int)) :
    insertAll memory T (ops ++ ops') = insertAll memory T ops >>= fun T => insertAll memory T ops' := by
  induction ops generalizing T with
  | nil => rfl
  | cons op ops ih =>
    simp only [List.cons_append, insertAll]
    cases T.hbTreeInsert op.1 op.2 (memory T.next) with
    | error f => rfl
    | ok p => exact ih

theorem insertAll_zeroed {ops : List (CString × Int)} (H : T.BalancedTree)
    (hops : ∀ op ∈ ops, op.1.strlen < keyBytes)
    (hzero : ∀ n < T.next + ops.length, memory n = 0) :
    ∃ S, insertAll memory T ops = .ok S ∧ S.BalancedTree ∧ S.next = T.next + ops.length := by
  induction ops generalizing T with
  | nil => exact ⟨T, rfl, H, rfl⟩
  | cons op ops ih =>
    obtain ⟨key, fd⟩ := op
    rw [List.forall_mem_cons] at hops
    simp only [List.length_cons] at hzero
    obtain ⟨S, node, hS, HS, hnext⟩ := hbTreeInsert_zeroed H hops.1 fd
    obtain ⟨S', hS', HS', hnext'⟩ := ih HS hops.2 (fun n hn => hzero n (by omega))
    refine ⟨S', ?_, HS', by simp only [List.length_cons]; omega⟩
    rw [insertAll, hzero T.next (by omega), hS]
    exact hS'

end

/-- The last new node shows what it held, whatever is done about it. -/
theorem insertAll_shows {ops : List (CString × Int)} {op : CString × Int}
    (hops : ∀ o ∈ ops ++ [op], o.1.strlen < keyBytes) :
    ¬ EndAlike (insertAll (fun _ => 0) hbTreeNew (ops ++ [op]))
      (insertAll (fun n => if n = ops.length then 1 else 0) hbTreeNew (ops ++ [op])) := by
  intro h
  obtain ⟨S, hS, HS, _⟩ := @insertAll_zeroed (fun _ => 0) _ _ balancedTree_new hops fun _ _ => rfl
  obtain ⟨hfirst, hlast⟩ := List.forall_mem_append.mp hops
  obtain ⟨S1, hS1, HS1, hnext⟩ := @insertAll_zeroed (fun n => if n = ops.length then 1 else 0) _ _
    balancedTree_new hfirst fun n hn => if_neg (by simp only [hbTreeNew] at hn; omega)
  have hn : S1.next = ops.length := by simpa [hbTreeNew] using hnext
  have href := hbTreeInsert_refines op.2 1 HS1.rep (hlast op (List.mem_singleton.mpr rfl))
  rw [hS, insertAll_append, hS1, ok_bind, insertAll, if_pos hn] at h
  cases hs : Shape.insert S1.shape S1.next op.1 op.2 1 with
  | none =>
    rw [hs] at href
    have href : S1.hbTreeInsert op.1 op.2 1 = .error .nullDeref := href
    rw [href] at h
    cases h
  | some s =>
    rw [hs] at href
    obtain ⟨⟨S', node⟩, hS', hrep, _⟩ := href.some
    rw [hS'] at h
    have hbal := EndAlike.balanced h HS.balanced
    rw [hrep.shape_eq] at hbal
    exact Shape.insert_false HS1.balanced hs hbal

/-- A sequence of insertions whose keys fit comes out the same whatever memory the new nodes are
given if and only if it is empty. -/
theorem insertAll_memory_independent_iff {ops : List (CString × Int)}
    (hkeys : ∀ op ∈ ops, op.1.strlen < keyBytes) :
    (∀ memory memory', EndAlike (insertAll memory hbTreeNew ops) (insertAll memory' hbTreeNew ops)) ↔
      ops = [] := by
  constructor
  · intro h
    by_contra hne
    obtain ⟨first, last, rfl⟩ : ∃ first last, ops = first ++ [last] :=
      ⟨ops.dropLast, ops.getLast hne, (List.dropLast_append_getLast hne).symm⟩
    exact insertAll_shows hkeys (h _ _)
  · rintro rfl memory memory'
    exact .both rfl

theorem twoKeys_memory_independent_iff :
    (∀ memory memory', EndAlike (insertAll memory hbTreeNew [(letter 'b', 5), (letter 'a', 6)])
        (insertAll memory' hbTreeNew [(letter 'b', 5), (letter 'a', 6)])) ↔
      [(letter 'b', (5 : Int)), (letter 'a', 6)] = [] :=
  insertAll_memory_independent_iff (by decide)

def misleadingMemory : Nat → Int8 := fun n => if n = 0 then -1 else 1

theorem misleadingMemory_follows_null :
    insertAll misleadingMemory hbTreeNew [(letter 'b', 5), (letter 'a', 6)] = .error .nullDeref ∧
      ¬ EndAlike (insertAll misleadingMemory hbTreeNew [(letter 'b', 5), (letter 'a', 6)])
        (insertAll (fun _ => 0) hbTreeNew [(letter 'b', 5), (letter 'a', 6)]) := by
  have hnull : insertAll misleadingMemory hbTreeNew [(letter 'b', 5), (letter 'a', 6)] = .error .nullDeref :=
    eq_error_of_faultOf (by decide +kernel)
  refine ⟨hnull, ?_⟩
  obtain ⟨S, hS, _⟩ := @insertAll_zeroed (fun _ => 0) _ [(letter 'b', 5), (letter 'a', 6)]
    balancedTree_new (by decide) fun _ _ => rfl
  rw [hnull, hS]
  rintro ⟨⟩

end HbTree
end TeamsInC
