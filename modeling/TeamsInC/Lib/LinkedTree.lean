import Mathlib.Logic.Function.Basic
import TeamsInC.Lib.TreePath

/-!
# Binary trees linked in memory, with parent links

A cell holds a datum, a parent link and two child links. `Represents h root t` says
that the cells reachable from `root` are exactly the binary tree `t`, whose labels
pair the address of each cell with its datum: the root has no parent, the parent
link of every child names its parent, and no address occurs twice.

`Represents.replace` is the only surgery rule: a heap in which the subtree at a hole
has been rebuilt, and the one link above the hole reset, represents the new tree.
-/

set_option autoImplicit false

universe u

namespace LinkedTree
open BinaryTree

abbrev Link := Option Nat

structure Cell (β : Type u) where
  data : β
  parent : Link
  llink : Link
  rlink : Link
deriving DecidableEq, Repr

abbrev Heap (β : Type u) := Nat → Option (Cell β)

variable {β : Type u}

def Heap.modify (h : Heap β) (a : Nat) (f : Cell β → Cell β) : Heap β :=
  Function.update h a ((h a).map f)

@[simp] theorem Heap.modify_same (h : Heap β) (a : Nat) (f : Cell β → Cell β) :
    h.modify a f a = (h a).map f := by simp [Heap.modify]

theorem Heap.modify_ne (h : Heap β) {a x : Nat} (f : Cell β → Cell β) (hx : x ≠ a) :
    h.modify a f x = h x := by simp [Heap.modify, hx]

def link : BinaryTree (Nat × β) → Link
  | nil => none
  | node x _ _ => some x.1

@[simp] theorem link_nil : link (nil : BinaryTree (Nat × β)) = none := rfl

@[simp] theorem link_node (x : Nat × β) (l r : BinaryTree (Nat × β)) :
    link (node x l r) = some x.1 := rfl

def addrs (t : BinaryTree (Nat × β)) : List Nat := t.inorder.map Prod.fst

@[simp] theorem addrs_nil : addrs (nil : BinaryTree (Nat × β)) = [] := rfl

@[simp] theorem addrs_node (x : Nat × β) (l r : BinaryTree (Nat × β)) :
    addrs (node x l r) = addrs l ++ x.1 :: addrs r := by simp [addrs]

theorem link_mem_addrs {t : BinaryTree (Nat × β)} {a : Nat} (h : link t = some a) :
    a ∈ addrs t := by
  cases t with
  | nil => simp at h
  | node x l r => simp_all

/-- The cells of `t` are laid out in `h`, and the root of `t` has the parent link `p`. -/
def Rep (h : Heap β) : Link → BinaryTree (Nat × β) → Prop
  | _, nil => True
  | p, node x l r =>
    h x.1 = some ⟨x.2, p, link l, link r⟩ ∧ Rep h (some x.1) l ∧ Rep h (some x.1) r

theorem Rep.frame {h h' : Heap β} {p : Link} {t : BinaryTree (Nat × β)}
    (ht : Rep h p t) (agree : ∀ x ∈ addrs t, h' x = h x) : Rep h' p t := by
  induction t generalizing p with
  | nil => trivial
  | node x l r ihl ihr =>
    simp only [addrs_node, List.mem_append, List.mem_cons] at agree
    refine ⟨?_, ihl ht.2.1 fun y hy => agree y (.inl hy), ihr ht.2.2 fun y hy => agree y (.inr (.inr hy))⟩
    rw [agree x.1 (.inr (.inl rfl))]
    exact ht.1

/-- Give the cell behind a link, if there is one, a new parent link. -/
def reparent (h : Heap β) : Link → Link → Heap β
  | none, _ => h
  | some a, p => h.modify a fun c => { c with parent := p }

theorem reparent_ne (h : Heap β) {t : BinaryTree (Nat × β)} (p : Link) {x : Nat}
    (hx : x ∉ addrs t) : reparent h (link t) p x = h x := by
  cases t with
  | nil => rfl
  | node y l r =>
    apply Heap.modify_ne
    rintro rfl
    simp at hx

theorem nodup_node {x : Nat × β} {l r : BinaryTree (Nat × β)} :
    (addrs (node x l r)).Nodup ↔ (addrs l).Nodup ∧ (addrs r).Nodup ∧ x.1 ∉ addrs l ∧
      x.1 ∉ addrs r ∧ ∀ y ∈ addrs l, y ∉ addrs r := by
  simp only [addrs_node, List.nodup_append, List.nodup_cons, List.mem_cons]
  constructor
  · rintro ⟨hl, ⟨hxr, hr⟩, hd⟩
    exact ⟨hl, hr, fun hx => hd _ hx _ (.inl rfl) rfl, hxr, fun y hy hy' => hd _ hy _ (.inr hy') rfl⟩
  · rintro ⟨hl, hr, hxl, hxr, hd⟩
    refine ⟨hl, ⟨hxr, hr⟩, ?_⟩
    rintro a ha b (rfl | hb) rfl
    · exact hxl ha
    · exact hd a ha hb

theorem Rep.reparent {h : Heap β} {p q : Link} {t : BinaryTree (Nat × β)}
    (ht : Rep h p t) (hn : (addrs t).Nodup) : Rep (reparent h (link t) q) q t := by
  cases t with
  | nil => trivial
  | node x l r =>
    obtain ⟨_, _, hxl, hxr, _⟩ := nodup_node.mp hn
    obtain ⟨hx, hl, hr⟩ := ht
    refine ⟨by simp [LinkedTree.reparent, hx], hl.frame ?_, hr.frame ?_⟩
    · intro y hy
      exact Heap.modify_ne _ _ fun e => hxl (e ▸ hy)
    · intro y hy
      exact Heap.modify_ne _ _ fun e => hxr (e ▸ hy)

def holeParent : Path (Nat × β) → Link
  | .top => none
  | .left _ x _ => some x.1
  | .right _ x _ => some x.1

def rootLink : Path (Nat × β) → Link → Link
  | .top, m => m
  | .left c x _, _ => rootLink c (some x.1)
  | .right c x _, _ => rootLink c (some x.1)

def pathAddrs (c : Path (Nat × β)) : List Nat := (c.before ++ c.after).map Prod.fst

/-- The cells of the path are laid out in `h` with the link `m` in the hole. -/
def PathRep (h : Heap β) : Path (Nat × β) → Link → Prop
  | .top, _ => True
  | .left c x r, m => h x.1 = some ⟨x.2, holeParent c, m, link r⟩ ∧
      Rep h (some x.1) r ∧ PathRep h c (some x.1)
  | .right c x l, m => h x.1 = some ⟨x.2, holeParent c, link l, m⟩ ∧
      Rep h (some x.1) l ∧ PathRep h c (some x.1)

@[simp] theorem holeParent_top : holeParent (.top : Path (Nat × β)) = none := rfl

@[simp] theorem holeParent_left (c : Path (Nat × β)) (x : Nat × β) (r : BinaryTree (Nat × β)) :
    holeParent (.left c x r) = some x.1 := rfl

@[simp] theorem holeParent_right (c : Path (Nat × β)) (x : Nat × β) (l : BinaryTree (Nat × β)) :
    holeParent (.right c x l) = some x.1 := rfl

theorem mem_pathAddrs_left {c : Path (Nat × β)} {x : Nat × β} {r : BinaryTree (Nat × β)} {y : Nat} :
    y ∈ pathAddrs (.left c x r) ↔ y = x.1 ∨ y ∈ addrs r ∨ y ∈ pathAddrs c := by
  simp only [pathAddrs, addrs, Path.before_left, Path.after_left, List.map_append, List.map_cons,
    List.mem_append, List.mem_cons]
  tauto

theorem mem_pathAddrs_right {c : Path (Nat × β)} {x : Nat × β} {l : BinaryTree (Nat × β)} {y : Nat} :
    y ∈ pathAddrs (.right c x l) ↔ y = x.1 ∨ y ∈ addrs l ∨ y ∈ pathAddrs c := by
  simp only [pathAddrs, addrs, Path.before_right, Path.after_right, List.map_append, List.map_cons,
    List.map_nil, List.mem_append, List.mem_cons, List.not_mem_nil, or_false]
  tauto

theorem nodup_plug {c : Path (Nat × β)} {t : BinaryTree (Nat × β)} :
    (addrs (c.plug t)).Nodup ↔
      (pathAddrs c).Nodup ∧ (addrs t).Nodup ∧ ∀ y ∈ pathAddrs c, y ∉ addrs t := by
  have hperm : (addrs (c.plug t)).Perm (pathAddrs c ++ addrs t) := by
    simp only [addrs, pathAddrs, Path.inorder_plug, List.map_append, List.append_assoc]
    exact (List.perm_append_comm).append_left _
  rw [hperm.nodup_iff, List.nodup_append]
  constructor
  · rintro ⟨hc, ht, hd⟩
    exact ⟨hc, ht, fun y hy hy' => hd y hy y hy' rfl⟩
  · rintro ⟨hc, ht, hd⟩
    refine ⟨hc, ht, ?_⟩
    rintro y hy z hz rfl
    exact hd y hy hz

theorem mem_addrs_plug {c : Path (Nat × β)} {t : BinaryTree (Nat × β)} {y : Nat} :
    y ∈ addrs (c.plug t) ↔ y ∈ pathAddrs c ∨ y ∈ addrs t := by
  simp only [addrs, pathAddrs, Path.inorder_plug, List.map_append, List.mem_append]
  tauto

theorem rep_plug {h : Heap β} {c : Path (Nat × β)} {t : BinaryTree (Nat × β)} :
    Rep h none (c.plug t) ↔ PathRep h c (link t) ∧ Rep h (holeParent c) t := by
  induction c generalizing t with
  | top => simp [PathRep]
  | left c x r ih =>
    rw [Path.plug_left, ih]
    simp only [PathRep, Rep, link_node, holeParent_left]
    tauto
  | right c x l ih =>
    rw [Path.plug_right, ih]
    simp only [PathRep, Rep, link_node, holeParent_right]
    tauto

theorem link_plug (c : Path (Nat × β)) (t : BinaryTree (Nat × β)) :
    link (c.plug t) = rootLink c (link t) := by
  induction c generalizing t with
  | top => rfl
  | left c x r ih => rw [Path.plug_left, ih]; rfl
  | right c x l ih => rw [Path.plug_right, ih]; rfl

def setHole (h : Heap β) : Path (Nat × β) → Link → Heap β
  | .top, _ => h
  | .left _ x _, m => h.modify x.1 fun c => { c with llink := m }
  | .right _ x _, m => h.modify x.1 fun c => { c with rlink := m }

theorem setHole_ne (h : Heap β) {c : Path (Nat × β)} (m : Link) {y : Nat}
    (hy : y ∉ pathAddrs c) : setHole h c m y = h y := by
  cases c with
  | top => rfl
  | left c x r => exact Heap.modify_ne _ _ fun e => hy (mem_pathAddrs_left.mpr (.inl e))
  | right c x l => exact Heap.modify_ne _ _ fun e => hy (mem_pathAddrs_right.mpr (.inl e))

theorem Heap.modify_congr {h h' : Heap β} {a y : Nat} (f : Cell β → Cell β) (agree : h' y = h y) :
    h'.modify a f y = h.modify a f y := by
  by_cases hya : y = a
  · subst hya
    rw [Heap.modify_same, Heap.modify_same, agree]
  · rw [Heap.modify_ne _ _ hya, Heap.modify_ne _ _ hya, agree]

theorem setHole_congr {h h' : Heap β} {c : Path (Nat × β)} (m : Link) {y : Nat}
    (agree : h' y = h y) : setHole h' c m y = setHole h c m y := by
  cases c with
  | top => exact agree
  | left c x r => exact Heap.modify_congr _ agree
  | right c x l => exact Heap.modify_congr _ agree

theorem nodup_left {c : Path (Nat × β)} {x : Nat × β} {r : BinaryTree (Nat × β)}
    (h : (pathAddrs (.left c x r)).Nodup) :
    (pathAddrs c).Nodup ∧ x.1 ∉ addrs r ∧ x.1 ∉ pathAddrs c := by
  have hn : (addrs (c.plug (node x nil r))).Nodup := by
    have he : addrs (c.plug (node x nil r)) = pathAddrs (.left c x r) := by
      simp [addrs, pathAddrs, Path.inorder_plug]
    rwa [he]
  obtain ⟨hc, ht, hd⟩ := nodup_plug.mp hn
  obtain ⟨_, _, _, hxr, _⟩ := nodup_node.mp ht
  exact ⟨hc, hxr, fun hx => hd _ hx (by simp)⟩

theorem nodup_right {c : Path (Nat × β)} {x : Nat × β} {l : BinaryTree (Nat × β)}
    (h : (pathAddrs (.right c x l)).Nodup) :
    (pathAddrs c).Nodup ∧ x.1 ∉ addrs l ∧ x.1 ∉ pathAddrs c := by
  have hn : (addrs (c.plug (node x l nil))).Nodup := by
    have he : addrs (c.plug (node x l nil)) = pathAddrs (.right c x l) := by
      simp [addrs, pathAddrs, Path.inorder_plug]
    rwa [he]
  obtain ⟨hc, ht, hd⟩ := nodup_plug.mp hn
  obtain ⟨_, _, hxl, _, _⟩ := nodup_node.mp ht
  exact ⟨hc, hxl, fun hx => hd _ hx (by simp)⟩

theorem PathRep.frame {h h' : Heap β} {c : Path (Nat × β)} {m : Link}
    (hc : PathRep h c m) (agree : ∀ y ∈ pathAddrs c, h' y = h y) : PathRep h' c m := by
  induction c generalizing m with
  | top => trivial
  | left c x r ih =>
    simp only [mem_pathAddrs_left] at agree
    obtain ⟨hx, hr, hp⟩ := hc
    exact ⟨(agree _ (.inl rfl)).trans hx, hr.frame fun y hy => agree y (.inr (.inl hy)),
      ih hp fun y hy => agree y (.inr (.inr hy))⟩
  | right c x l ih =>
    simp only [mem_pathAddrs_right] at agree
    obtain ⟨hx, hl, hp⟩ := hc
    exact ⟨(agree _ (.inl rfl)).trans hx, hl.frame fun y hy => agree y (.inr (.inl hy)),
      ih hp fun y hy => agree y (.inr (.inr hy))⟩

theorem PathRep.setHole {h : Heap β} {c : Path (Nat × β)} {m m' : Link}
    (hc : PathRep h c m) (hn : (pathAddrs c).Nodup) : PathRep (setHole h c m') c m' := by
  cases c with
  | top => trivial
  | left c x r =>
    obtain ⟨_, hxr, hxc⟩ := nodup_left hn
    obtain ⟨hx, hr, hp⟩ := hc
    refine ⟨by simp [LinkedTree.setHole, hx], hr.frame ?_, hp.frame ?_⟩
    · intro y hy
      exact Heap.modify_ne _ _ fun e => hxr (e ▸ hy)
    · intro y hy
      exact Heap.modify_ne _ _ fun e => hxc (e ▸ hy)
  | right c x l =>
    obtain ⟨_, hxl, hxc⟩ := nodup_right hn
    obtain ⟨hx, hl, hp⟩ := hc
    refine ⟨by simp [LinkedTree.setHole, hx], hl.frame ?_, hp.frame ?_⟩
    · intro y hy
      exact Heap.modify_ne _ _ fun e => hxl (e ▸ hy)
    · intro y hy
      exact Heap.modify_ne _ _ fun e => hxc (e ▸ hy)

theorem PathRep.setHole_self {h : Heap β} {c : Path (Nat × β)} {m : Link} (hc : PathRep h c m)
    (y : Nat) : LinkedTree.setHole h c m y = h y := by
  cases c with
  | top => rfl
  | left c x r =>
    by_cases hy : y = x.1
    · subst hy
      simp [LinkedTree.setHole, hc.1]
    · exact Heap.modify_ne _ _ hy
  | right c x l =>
    by_cases hy : y = x.1
    · subst hy
      simp [LinkedTree.setHole, hc.1]
    · exact Heap.modify_ne _ _ hy

structure Represents (h : Heap β) (root : Link) (t : BinaryTree (Nat × β)) : Prop where
  root_eq : root = link t
  rep : Rep h none t
  nodup : (addrs t).Nodup

namespace Represents
variable {h h' : Heap β} {root : Link} {c : Path (Nat × β)} {t t' : BinaryTree (Nat × β)}

theorem empty (h : Heap β) : Represents h none nil := ⟨rfl, trivial, .nil⟩

theorem pathRep (H : Represents h root (c.plug t)) : PathRep h c (link t) := (rep_plug.mp H.rep).1

theorem subRep (H : Represents h root (c.plug t)) : Rep h (holeParent c) t := (rep_plug.mp H.rep).2

theorem read {x : Nat × β} {l r : BinaryTree (Nat × β)}
    (H : Represents h root (c.plug (node x l r))) :
    h x.1 = some ⟨x.2, holeParent c, link l, link r⟩ := H.subRep.1

/-- Surgery at a hole: rebuild the subtree, reset the one link above it. -/
theorem replace {root' : Link} (H : Represents h root (c.plug t))
    (path : ∀ y ∈ pathAddrs c, h' y = LinkedTree.setHole h c (link t') y)
    (sub : Rep h' (holeParent c) t') (hroot : root' = rootLink c (link t'))
    (hn : (addrs (c.plug t')).Nodup) : Represents h' root' (c.plug t') := by
  refine ⟨?_, rep_plug.mpr ⟨?_, sub⟩, hn⟩
  · rw [link_plug, hroot]
  · exact (H.pathRep.setHole (nodup_plug.mp H.nodup).1).frame path

theorem setData {x : Nat × β} {l r : BinaryTree (Nat × β)} {e : β}
    (H : Represents h root (c.plug (node x l r))) :
    Represents (h.modify x.1 fun k => { k with data := e }) root (c.plug (node (x.1, e) l r)) := by
  obtain ⟨hc, ht, hd⟩ := nodup_plug.mp H.nodup
  obtain ⟨_, _, hxl, hxr, _⟩ := nodup_node.mp ht
  have hx : x.1 ∉ pathAddrs c := fun h => hd _ h (by simp)
  obtain ⟨hcell, hl, hr⟩ := H.subRep
  have hm : link (node (x.1, e) l r) = link (node x l r) := rfl
  refine H.replace ?_ ⟨by simp [hcell], ?_, ?_⟩ ?_ ?_
  · intro y hy
    have hyx : y ≠ x.1 := fun e => hx (e ▸ hy)
    rw [Heap.modify_ne _ _ hyx, hm, H.pathRep.setHole_self]
  · exact hl.frame fun y hy => Heap.modify_ne _ _ fun e => hxl (e ▸ hy)
  · exact hr.frame fun y hy => Heap.modify_ne _ _ fun e => hxr (e ▸ hy)
  · rw [H.root_eq, link_plug, hm]
  · have he : addrs (c.plug (node (x.1, e) l r)) = addrs (c.plug (node x l r)) := by
      simp [addrs, Path.inorder_plug]
    rw [he]
    exact H.nodup

end Represents

def readTree (h : Heap β) : Nat → Link → BinaryTree (Nat × β)
  | 0, _ => nil
  | _, none => nil
  | depth + 1, some a =>
    match h a with
    | none => nil
    | some c => node (a, c.data) (readTree h depth c.llink) (readTree h depth c.rlink)

theorem Rep.readTree_eq {h : Heap β} {p : Link} {t : BinaryTree (Nat × β)} {depth : Nat}
    (ht : Rep h p t) (hd : t.height ≤ depth) : readTree h depth (link t) = t := by
  induction t generalizing p depth with
  | nil => cases depth <;> rfl
  | node x l r ihl ihr =>
    simp only [height] at hd
    obtain ⟨depth, rfl⟩ : ∃ k, depth = k + 1 := ⟨depth - 1, by omega⟩
    obtain ⟨hx, hl, hr⟩ := ht
    simp only [link_node, readTree, hx]
    rw [ihl hl (by omega), ihr hr (by omega)]

end LinkedTree
