import TeamsInC.HbTree.Tree
import TeamsInC.Lib.SearchTree

/-!
# The same algorithm without links

`Shape` is the tree of labelled nodes that a heap represents. Each operation of hb_tree.c
is restated on shapes, with the loops as recursions over the path above a hole; `none`
stands for a NULL link that would be followed.
-/

set_option autoImplicit false

namespace TeamsInC
open BinaryTree LinkedTree

abbrev Entry := Nat × HbData

abbrev Shape := BinaryTree Entry

def withBal (x : Entry) (b : Int8) : Entry := (x.1, { x.2 with bal := b })

/-- The node keeps its address and balance and takes over key and descriptor of `o`. -/
def withEntry (x o : Entry) : Entry := (x.1, { x.2 with key := o.2.key, fd := o.2.fd })

@[simp] theorem withBal_fst (x : Entry) (b : Int8) : (withBal x b).1 = x.1 := rfl

@[simp] theorem withBal_bal (x : Entry) (b : Int8) : (withBal x b).2.bal = b := rfl

@[simp] theorem withBal_withBal (x : Entry) (b b' : Int8) :
    withBal (withBal x b) b' = withBal x b' := rfl

def entryKey (x : Entry) : CString := x.2.key

namespace Shape

def rootBal : Shape → Int8
  | .nil => 0
  | .node x _ _ => x.2.bal

def rotateRight : Shape → Option (Shape × Bool)
  | .node x (.node y ll lr) r =>
    let x' := withBal x (x.2.bal + (1 - HbTree.MIN y.2.bal 0))
    let y' := withBal y (y.2.bal + (1 + HbTree.MAX x'.2.bal 0))
    some (.node y' ll (.node x' lr r), decide (y.2.bal ≠ 0))
  | _ => none

def rotateLeft : Shape → Option (Shape × Bool)
  | .node x l (.node y rl rr) =>
    let x' := withBal x (x.2.bal - (1 + HbTree.MAX y.2.bal 0))
    let y' := withBal y (y.2.bal - (1 - HbTree.MIN x'.2.bal 0))
    some (.node y' (.node x' l rl) rr, decide (y.2.bal ≠ 0))
  | _ => none

/-- Up from the new leaf through the nodes of balance 0, leaning them towards it. -/
def retrace : Path Entry → Shape → Path Entry × Shape
  | .top, t => (.top, t)
  | .left c x r, t =>
    if x.2.bal = 0 then retrace c (.node (withBal x (-1)) t r) else (.left c x r, t)
  | .right c x l, t =>
    if x.2.bal = 0 then retrace c (.node (withBal x 1) l t) else (.right c x l, t)

/-- The deepest node of the path whose balance is not 0. -/
def unbalanced : Path Entry → Link
  | .top => none
  | .left c x _ => if x.2.bal ≠ 0 then some x.1 else unbalanced c
  | .right c x _ => if x.2.bal ≠ 0 then some x.1 else unbalanced c

/-- At that node: the subtree `t` in its hole has grown by one level. -/
def rebalance : Path Entry → Shape → Option Shape
  | .top, t => some t
  | .left c x r, t =>
    let x' := withBal x (x.2.bal - 1)
    if x'.2.bal = -2 then
      if t.rootBal > 0 then do
        let (t, _) ← rotateLeft t
        let (t, _) ← rotateRight (.node x' t r)
        return c.plug t
      else do
        let (t, _) ← rotateRight (.node x' t r)
        return c.plug t
    else some (c.plug (.node x' t r))
  | .right c x l, t =>
    let x' := withBal x (x.2.bal + 1)
    if x'.2.bal = 2 then
      if t.rootBal < 0 then do
        let (t, _) ← rotateRight t
        let (t, _) ← rotateLeft (.node x' l t)
        return c.plug t
      else do
        let (t, _) ← rotateLeft (.node x' l t)
        return c.plug t
    else some (c.plug (.node x' l t))

/-- `a` is the address of the new node, `bal` what its balance field happens to hold. -/
def insert (t : Shape) (a : Nat) (key : CString) (fd : Int) (bal : Int8) : Option Shape :=
  let c := descend entryKey key .top t
  let (c, t) := retrace c (.node (a, ⟨key, fd, bal⟩) .nil .nil)
  rebalance c t

/-- Up from a hole whose subtree has lost a level. In the right-hand branch the second
decrement of the source is taken whenever the first one does not give 0, and the double
case rotates the child only; the walk then skips the node's parent. -/
def climb : Path Entry → Shape → Option Shape
  | .top, t => some t
  | .left c x r, t =>
    let x' := withBal x (x.2.bal + 1)
    if x'.2.bal = 0 then climb c (.node x' t r)
    else if x'.2.bal = 2 then
      match r with
      | .nil => none
      | .node y rl rr =>
        if y.2.bal < 0 then do
          let (r, _) ← rotateRight (.node y rl rr)
          let (t, _) ← rotateLeft (.node x' t r)
          climb c t
        else do
          let (t, hc) ← rotateLeft (.node x' t (.node y rl rr))
          if hc then climb c t else some (c.plug t)
    else some (c.plug (.node x' t r))
  | .right c x l, t =>
    let x' := withBal x (x.2.bal - 1)
    if x'.2.bal = 0 then climb c (.node x' l t)
    else
      let x' := withBal x' (x'.2.bal - 1)
      if x'.2.bal = -2 then
        match l with
        | .nil => none
        | .node y ll lr =>
          if y.2.bal > 0 then do
            let (l, _) ← rotateLeft (.node y ll lr)
            match c with
            | .top => none
            | .left c z r => climb c (.node z (.node x' l t) r)
            | .right c z l' => climb c (.node z l' (.node x' l t))
          else do
            let (t, hc) ← rotateRight (.node x' (.node y ll lr) t)
            if hc then climb c t else some (c.plug t)
      else some (c.plug (.node x' l t))

/-- Where the node to unlink sits, once it has at most one child, and that child. -/
def unlinkAt (c : Path Entry) (x : Entry) : Shape → Shape → Path Entry × Shape
  | .nil, r => (c, r)
  | .node y ll lr, .nil => (c, .node y ll lr)
  | .node y ll lr, .node z rl rr =>
    if x.2.bal > 0 then
      let o := (minSplit (.right c x (.node y ll lr)) z rl rr).2.1
      let (d, _, child) := minSplit (.right c (withEntry x o) (.node y ll lr)) z rl rr
      (d, child)
    else
      let o := (maxSplit (.left c x (.node z rl rr)) y ll lr).2.1
      let (d, _, child) := maxSplit (.left c (withEntry x o) (.node z rl rr)) y ll lr
      (d, child)

def remove (t : Shape) (key : CString) : Option (Shape × Bool) :=
  match find entryKey key .top t with
  | (_, .nil) => some (t, false)
  | (c, .node x l r) =>
    let (d, child) := unlinkAt c x l r
    (climb d child).map fun t => (t, true)

def search (t : Shape) (key : CString) : Int :=
  match (find entryKey key .top t).2 with
  | .nil => -1
  | .node x _ _ => x.2.fd

end Shape
end TeamsInC
