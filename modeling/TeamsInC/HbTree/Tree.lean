import TeamsInC.Lib.LinkedTree
import TeamsInC.Machine

/-!
# hb_tree.c on a heap of nodes

Every link is an address or NULL, and every access goes through `deref` or `update`,
which fail on NULL. Addresses are never reused within a run. A loop carries fuel; the
number of nodes ever allocated is enough for each of them.
-/

set_option autoImplicit false

namespace TeamsInC
open LinkedTree

structure HbData where
  key : CString
  fd : Int
  bal : Int8
deriving DecidableEq, Repr

abbrev HbNode := Cell HbData

structure HbTree where
  heap : Heap HbData
  next : Nat
  root : Link
  count : UInt64
  rotationCount : UInt64

namespace HbTree

def deref (T : HbTree) : Link → Except Fault HbNode
  | none => .error .nullDeref
  | some a =>
    match T.heap a with
    | none => .error .dangling
    | some n => .ok n

def update (T : HbTree) (l : Link) (f : HbNode → HbNode) : Except Fault HbTree := do
  let _ ← T.deref l
  match l with
  | none => .ok T
  | some a => .ok { T with heap := T.heap.modify a f }

def setParent (T : HbTree) (l p : Link) : Except Fault HbTree :=
  T.update l fun n => { n with parent := p }

def setLlink (T : HbTree) (l m : Link) : Except Fault HbTree :=
  T.update l fun n => { n with llink := m }

def setRlink (T : HbTree) (l m : Link) : Except Fault HbTree :=
  T.update l fun n => { n with rlink := m }

def setData (T : HbTree) (l : Link) (f : HbData → HbData) : Except Fault HbTree :=
  T.update l fun n => { n with data := f n.data }

def MIN (a b : Int8) : Int8 := if a < b then a else b

def MAX (a b : Int8) : Int8 := if a > b then a else b

/-- `if (child != NULL) child->parent = node`. -/
def adopt (T : HbTree) (child node : Link) : Except Fault HbTree :=
  match child with
  | none => .ok T
  | some _ => T.setParent child node

/-- The last part of both rotations: `up` takes the place of `node` below `p`, or at the root. -/
def relink (T : HbTree) (p node up : Link) : Except Fault HbTree :=
  match p with
  | none => .ok { T with root := up }
  | some _ => do
    if (← T.deref p).llink = node then T.setLlink p up else T.setRlink p up

def rotateRight (T : HbTree) (node : Link) : Except Fault (HbTree × Bool) := do
  let nl := (← T.deref node).llink
  let child := (← T.deref nl).rlink
  let T ← T.setLlink node child
  let T ← adopt T child node
  let T ← T.setRlink nl node
  let p := (← T.deref node).parent
  let T ← T.setParent node nl
  let T ← T.setParent nl p
  let T ← relink T p node nl
  let b := (← T.deref nl).data.bal
  let hc := decide (b ≠ 0)
  let T ← T.setData node fun d => { d with bal := d.bal + (1 - MIN b 0) }
  let a := (← T.deref node).data.bal
  let T ← T.setData nl fun d => { d with bal := d.bal + (1 + MAX a 0) }
  return (T, hc)

def rotateLeft (T : HbTree) (node : Link) : Except Fault (HbTree × Bool) := do
  let nr := (← T.deref node).rlink
  let child := (← T.deref nr).llink
  let T ← T.setRlink node child
  let T ← adopt T child node
  let T ← T.setLlink nr node
  let p := (← T.deref node).parent
  let T ← T.setParent node nr
  let T ← T.setParent nr p
  let T ← relink T p node nr
  let b := (← T.deref nr).data.bal
  let hc := decide (b ≠ 0)
  let T ← T.setData node fun d => { d with bal := d.bal - (1 + MAX b 0) }
  let a := (← T.deref node).data.bal
  let T ← T.setData nr fun d => { d with bal := d.bal - (1 - MIN a 0) }
  return (T, hc)

def hbTreeNew : HbTree := ⟨fun _ => none, 0, none, 0, 0⟩

/-- `sizeof(user) * sizeof(char*)`, what `new_node` allocates for the key. -/
def keyBytes : Nat := 64

/-- `new_node`: the field `bal` is left as `malloc` found it. -/
def newNode (T : HbTree) (user : CString) (fd : Int) (bal : Int8) : Except Fault (HbTree × Link) :=
  if user.strlen < keyBytes then
    .ok ({ T with heap := Function.update T.heap T.next (some ⟨⟨user, fd, bal⟩, none, none, none⟩),
                  next := T.next + 1 }, some T.next)
  else .error .overflow

/-- `while (node)` of `hb_tree_insert`: the parent of the empty place found, the last node
passed whose balance is not 0, and the last comparison. -/
def insertDescend (T : HbTree) (key : CString) :
    Nat → Link → Link → Link → Int → Except Fault (Link × Link × Int)
  | _, none, parent, q, cmp => .ok (parent, q, cmp)
  | 0, some _, _, _, _ => .error .outOfFuel
  | fuel + 1, some a, _, q, _ => do
    let n ← T.deref (some a)
    let cmp := strCmpFunc key.bytes n.data.key.bytes
    insertDescend T key fuel (if cmp < 0 then n.llink else n.rlink) (some a)
      (if n.data.bal ≠ 0 then some a else q) cmp

/-- `while (parent != q)` of `hb_tree_insert`. -/
def insertRetrace : Nat → HbTree → Link → Link → Link → Except Fault (HbTree × Link)
  | fuel, T, node, parent, q =>
    if parent = q then .ok (T, node)
    else match fuel with
      | 0 => .error .outOfFuel
      | fuel + 1 => do
        let p ← T.deref parent
        let T ← T.setData parent fun d => { d with bal := if node = p.rlink then 1 else -1 }
        insertRetrace fuel T parent (← T.deref parent).parent q

/-- `if (q)` of `hb_tree_insert`: at most two rotations at `q`. -/
def insertRebalance (T : HbTree) (q node : Link) : Except Fault (HbTree × UInt32) := do
  if (← T.deref q).llink = node then
    let T ← T.setData q fun d => { d with bal := d.bal - 1 }
    let n ← T.deref q
    if n.data.bal = -2 then
      if (← T.deref n.llink).data.bal > 0 then
        let (T, _) ← rotateLeft T n.llink
        let (T, _) ← rotateRight T q
        return (T, 2)
      else
        let (T, _) ← rotateRight T q
        return (T, 1)
    else return (T, 0)
  else
    let T ← T.setData q fun d => { d with bal := d.bal + 1 }
    let n ← T.deref q
    if n.data.bal = 2 then
      if (← T.deref n.rlink).data.bal < 0 then
        let (T, _) ← rotateRight T n.rlink
        let (T, _) ← rotateLeft T q
        return (T, 2)
      else
        let (T, _) ← rotateLeft T q
        return (T, 1)
    else return (T, 0)

def hang (T : HbTree) (node parent : Link) (cmp : Int) : Except Fault HbTree := do
  let T ← T.setParent node parent
  match parent with
  | none => .ok { T with root := node }
  | some _ => if cmp < 0 then T.setLlink parent node else T.setRlink parent node

def hbTreeInsert (T : HbTree) (key : CString) (fd : Int) (bal : Int8) :
    Except Fault (HbTree × Link) := do
  let (parent, q, cmp) ← insertDescend T key T.next T.root none none 0
  let (T, node) ← newNode T key fd bal
  let T ← hang T node parent cmp
  let (T, node) ← insertRetrace T.next T node parent q
  match q with
  | none => return (T, node)
  | some _ =>
    let (T, rotations) ← insertRebalance T q node
    return ({ T with rotationCount := T.rotationCount + rotations.toUInt64 }, node)

/-- The first loop of `hb_tree_remove`: the node with the key, or NULL, and its parent. -/
def removeFind (T : HbTree) (key : CString) : Nat → Link → Link → Except Fault (Link × Link)
  | _, none, parent => .ok (none, parent)
  | 0, some _, _ => .error .outOfFuel
  | fuel + 1, some a, parent => do
    let n ← T.deref (some a)
    let cmp := strCmpFunc key.bytes n.data.key.bytes
    if cmp < 0 then removeFind T key fuel n.llink (some a)
    else if cmp ≠ 0 then removeFind T key fuel n.rlink (some a)
    else .ok (some a, parent)

def leftmost (T : HbTree) : Nat → Link → Except Fault Link
  | 0, _ => .error .outOfFuel
  | fuel + 1, out => do
    let n ← T.deref out
    if n.llink = none then return out else leftmost T fuel n.llink

def rightmost (T : HbTree) : Nat → Link → Except Fault Link
  | 0, _ => .error .outOfFuel
  | fuel + 1, out => do
    let n ← T.deref out
    if n.rlink = none then return out else rightmost T fuel n.rlink

/-- `SWAP` of the keys and `swap_int` of the descriptors of two nodes. -/
def swapEntry (T : HbTree) (node out : Link) : Except Fault HbTree := do
  let n ← T.deref node
  let o ← T.deref out
  let T ← T.setData node fun d => { d with key := o.data.key, fd := o.data.fd }
  T.setData out fun d => { d with key := n.data.key, fd := n.data.fd }

def delFunc (T : HbTree) (node : Link) : Except Fault HbTree := do
  let _ ← T.deref node
  match node with
  | none => .ok T
  | some a => .ok { T with heap := Function.update T.heap a none }

/-- One round of the rebalancing loop of `hb_tree_remove`, up to the label `higher`: the
rotations made, and the node to continue from, or `none` for `break`. The right-hand branch
decrements twice and rotates only the child in the double case, as the source does. -/
def removeStep (T : HbTree) (parent : Link) (left : Bool) :
    Except Fault (HbTree × UInt32 × Option Link) := do
  if left then
    let T ← T.setData parent fun d => { d with bal := d.bal + 1 }
    let n ← T.deref parent
    if n.data.bal = 0 then return (T, 0, some parent)
    else if n.data.bal = 2 then
      if (← T.deref n.rlink).data.bal < 0 then
        let (T, _) ← rotateRight T n.rlink
        let (T, _) ← rotateLeft T parent
        return (T, 2, some (← T.deref parent).parent)
      else
        let (T, hc) ← rotateLeft T parent
        if hc then return (T, 1, some (← T.deref parent).parent) else return (T, 1, none)
    else return (T, 0, none)
  else
    let T ← T.setData parent fun d => { d with bal := d.bal - 1 }
    let n ← T.deref parent
    if n.data.bal = 0 then return (T, 0, some parent)
    else
      let T ← T.setData parent fun d => { d with bal := d.bal - 1 }
      let n ← T.deref parent
      if n.data.bal = -2 then
        if (← T.deref n.llink).data.bal > 0 then
          let (T, _) ← rotateLeft T n.llink
          return (T, 2, some (← T.deref parent).parent)
        else
          let (T, hc) ← rotateRight T parent
          if hc then return (T, 1, some (← T.deref parent).parent) else return (T, 1, none)
      else return (T, 0, none)

/-- The label `higher`: the parent of `node` and whether `node` is its left child, or `none`
when `node` is the root. -/
def removeHigher (T : HbTree) (node : Link) : Except Fault (Option (Link × Bool)) := do
  let parent := (← T.deref node).parent
  match parent with
  | none => return none
  | some p => return some (some p, decide ((← T.deref (some p)).llink = node))

/-- `for (; ; )` of `hb_tree_remove`. -/
def removeClimb : Nat → HbTree → Link → Bool → UInt32 → Except Fault (HbTree × UInt32)
  | 0, _, _, _, _ => .error .outOfFuel
  | fuel + 1, T, parent, left, rotations => do
    let (T, made, next) ← removeStep T parent left
    match next with
    | none => return (T, rotations + made)
    | some node =>
      match ← removeHigher T node with
      | none => return (T, rotations + made)
      | some (parent, left) => removeClimb fuel T parent left (rotations + made)

/-- The node to unlink: the one found, or the end of a spine below it when it has two
children, with which it has exchanged key and descriptor. -/
def removeTarget (T : HbTree) (node parent : Link) : Except Fault (HbTree × Link × Link) := do
  let n ← T.deref node
  if n.llink ≠ none ∧ n.rlink ≠ none then
    let out ← if n.data.bal > 0 then leftmost T T.next n.rlink else rightmost T T.next n.llink
    let T ← swapEntry T node out
    return (T, out, (← T.deref out).parent)
  else return (T, node, parent)

/-- Unlink a node with at most one child and walk up from there. -/
def removeUnlink (T : HbTree) (node parent : Link) : Except Fault HbTree := do
  let n ← T.deref node
  let child := if n.llink ≠ none then n.llink else n.rlink
  let T ← delFunc T node
  let T ← adopt T child parent
  match parent with
  | none => return { T with root := child, count := T.count - 1 }
  | some _ =>
    let left := decide ((← T.deref parent).llink = node)
    let T ← if left then T.setLlink parent child else T.setRlink parent child
    let (T, rotations) ← removeClimb T.next T parent left 0
    return { T with rotationCount := T.rotationCount + rotations.toUInt64, count := T.count - 1 }

def hbTreeRemove (T : HbTree) (key : CString) : Except Fault (HbTree × Bool) := do
  let (node, parent) ← removeFind T key T.next T.root none
  match node with
  | none => return (T, false)
  | some _ =>
    let (T, node, parent) ← removeTarget T node parent
    return (← removeUnlink T node parent, true)

def searchLoop (T : HbTree) (key : CString) : Nat → Link → Except Fault Int
  | _, none => .ok (-1)
  | 0, some _ => .error .outOfFuel
  | fuel + 1, some a => do
    let n ← T.deref (some a)
    let cmp := strCmpFunc key.bytes n.data.key.bytes
    if cmp < 0 then searchLoop T key fuel n.llink
    else if cmp ≠ 0 then searchLoop T key fuel n.rlink
    else .ok n.data.fd

def hbTreeSearch (T : HbTree) (key : CString) : Except Fault Int := searchLoop T key T.next T.root

end HbTree
end TeamsInC
