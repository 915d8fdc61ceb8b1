import Mathlib.Data.Multiset.AddSub
import TeamsInC.HbTree.Remove

/-!
# The tree as a multimap

What the tree stores is the list of its pairs, key and descriptor, in symmetric order.
Rotations and balance updates leave that list alone, whatever the balance fields hold, so
an insertion adds one pair to it and a removal takes one pair out of it.
-/

set_option autoImplicit false

namespace TeamsInC
open BinaryTree LinkedTree

abbrev KeyFd := CString × Int

def entryPair (x : Entry) : KeyFd := (x.2.key, x.2.fd)

@[simp] theorem entryPair_withBal (x : Entry) (b : Int8) : entryPair (withBal x b) = entryPair x :=
  rfl

@[simp] theorem entryPair_withEntry (x o : Entry) : entryPair (withEntry x o) = entryPair o := rfl

namespace Shape

def pairs (t : Shape) : List KeyFd := t.inorder.map entryPair

@[simp] theorem pairs_nil : pairs .nil = [] := rfl

@[simp] theorem pairs_node (x : Entry) (l r : Shape) :
    pairs (.node x l r) = pairs l ++ entryPair x :: pairs r := by simp [pairs]

theorem pairs_plug (c : Path Entry) (t : Shape) :
    pairs (c.plug t) = c.before.map entryPair ++ pairs t ++ c.after.map entryPair := by
  simp [pairs, Path.inorder_plug]

theorem pairs_plug_congr (c : Path Entry) {t t' : Shape} (h : pairs t' = pairs t) :
    pairs (c.plug t') = pairs (c.plug t) := by rw [pairs_plug, pairs_plug, h]

theorem sorted_iff_pairs {t : Shape} :
    Sorted entryKey t ↔ ((pairs t).map Prod.fst).Pairwise (· ≤ ·) := by
  simp only [Sorted, pairs, List.map_map]
  rfl

theorem mem_pairs {t : Shape} {p : KeyFd} : p ∈ pairs t ↔ ∃ x ∈ t.inorder, entryPair x = p := by
  simp [pairs]

theorem pairs_rotateRight {t s : Shape} {hc : Bool} (h : rotateRight t = some (s, hc)) :
    pairs s = pairs t := by
  match t, h with
  | .node x (.node y ll lr) r, h =>
    simp only [rotateRight, Option.some.injEq, Prod.mk.injEq] at h
    obtain ⟨rfl, _⟩ := h
    simp

theorem pairs_rotateLeft {t s : Shape} {hc : Bool} (h : rotateLeft t = some (s, hc)) :
    pairs s = pairs t := by
  match t, h with
  | .node x l (.node y rl rr), h =>
    simp only [rotateLeft, Option.some.injEq, Prod.mk.injEq] at h
    obtain ⟨rfl, _⟩ := h
    simp

theorem pairs_retrace (c : Path Entry) (t : Shape) :
    pairs ((retrace c t).1.plug (retrace c t).2) = pairs (c.plug t) := by
  induction c generalizing t with
  | top => rfl
  | left c x r ih =>
    simp only [retrace]
    split
    · rw [ih]
      exact pairs_plug_congr c (by simp)
    · rfl
  | right c x l ih =>
    simp only [retrace]
    split
    · rw [ih]
      exact pairs_plug_congr c (by simp)
    · rfl

theorem pairs_rebalance {c : Path Entry} {t s : Shape} (h : rebalance c t = some s) :
    pairs s = pairs (c.plug t) := by
  cases c with
  | top => simp_all [rebalance]
  | left c x r =>
    simp only [rebalance, Option.bind_eq_bind, Option.pure_def] at h
    split at h
    · split at h
      · obtain ⟨⟨t1, _⟩, h1, h⟩ := Option.bind_eq_some_iff.mp h
        obtain ⟨⟨t2, _⟩, h2, h⟩ := Option.bind_eq_some_iff.mp h
        cases h
        rw [Path.plug_left]
        exact pairs_plug_congr c (by simp [pairs_rotateRight h2, pairs_rotateLeft h1])
      · obtain ⟨⟨t2, _⟩, h2, h⟩ := Option.bind_eq_some_iff.mp h
        cases h
        rw [Path.plug_left]
        exact pairs_plug_congr c (by simp [pairs_rotateRight h2])
    · cases h
      rw [Path.plug_left]
      exact pairs_plug_congr c (by simp)
  | right c x l =>
    simp only [rebalance, Option.bind_eq_bind, Option.pure_def] at h
    split at h
    · split at h
      · obtain ⟨⟨t1, _⟩, h1, h⟩ := Option.bind_eq_some_iff.mp h
        obtain ⟨⟨t2, _⟩, h2, h⟩ := Option.bind_eq_some_iff.mp h
        cases h
        rw [Path.plug_right]
        exact pairs_plug_congr c (by simp [pairs_rotateLeft h2, pairs_rotateRight h1])
      · obtain ⟨⟨t2, _⟩, h2, h⟩ := Option.bind_eq_some_iff.mp h
        cases h
        rw [Path.plug_right]
        exact pairs_plug_congr c (by simp [pairs_rotateLeft h2])
    · cases h
      rw [Path.plug_right]
      exact pairs_plug_congr c (by simp)

theorem subtree_rotateLeft {x : Entry} {l r s : Shape} {hc : Bool}
    (h : rotateLeft (.node x l r) = some (s, hc)) : Subtree l s := by
  match r, h with
  | .node y rl rr, h =>
    simp only [rotateLeft, Option.some.injEq, Prod.mk.injEq] at h
    obtain ⟨rfl, _⟩ := h
    exact (Subtree.refl l).left.left

theorem subtree_rotateRight {x : Entry} {l r s : Shape} {hc : Bool}
    (h : rotateRight (.node x l r) = some (s, hc)) : Subtree r s := by
  match l, h with
  | .node y ll lr, h =>
    simp only [rotateRight, Option.some.injEq, Prod.mk.injEq] at h
    obtain ⟨rfl, _⟩ := h
    exact (Subtree.refl r).right.right

/-- A round of the walk makes the subtree `t` in the hole of `c` part of a subtree `u` in a hole
further up, and loses no pair. -/
structure Rises (c : Path Entry) (t : Shape) (d : Path Entry) (u : Shape) : Prop where
  shorter : d.depth < c.depth
  part : Subtree t u
  pairs : pairs (d.plug u) = pairs (c.plug t)

theorem climb_cases {c : Path Entry} {t s : Shape} (h : climb c t = some s) :
    c = .top ∧ s = t ∨ ∃ d u, Rises c t d u ∧ (climb d u = some s ∨ s = d.plug u) := by
  cases c with
  | top =>
    cases h
    exact .inl ⟨rfl, rfl⟩
  | left c x r =>
    have rises {u : Shape} (hpart : Subtree t u) (hpairs : pairs u = pairs (.node x t r)) :
        Rises (.left c x r) t c u := ⟨Nat.lt_succ_self _, hpart, pairs_plug_congr c hpairs⟩
    simp only [climb, Option.bind_eq_bind] at h
    split at h
    · exact .inr ⟨c, _, rises (.left (.refl t)) (by simp), .inl h⟩
    split at h
    · cases r with
      | nil => simp at h
      | node y rl rr =>
        simp only at h
        split at h
        · obtain ⟨⟨r1, _⟩, h1, h⟩ := Option.bind_eq_some_iff.mp h
          obtain ⟨⟨t2, _⟩, h2, h⟩ := Option.bind_eq_some_iff.mp h
          have hpairs : pairs t2 = pairs (.node x t (.node y rl rr)) := by
            rw [pairs_rotateLeft h2, pairs_node, pairs_rotateRight h1]
            simp
          exact .inr ⟨c, t2, rises (subtree_rotateLeft h2) hpairs, .inl h⟩
        · obtain ⟨⟨t1, hc⟩, h1, h⟩ := Option.bind_eq_some_iff.mp h
          have hpairs : pairs t1 = pairs (.node x t (.node y rl rr)) := by
            rw [pairs_rotateLeft h1]
            simp
          refine .inr ⟨c, t1, rises (subtree_rotateLeft h1) hpairs, ?_⟩
          split at h
          · exact .inl h
          · exact .inr (Option.some.inj h).symm
    · cases h
      exact .inr ⟨c, _, rises (.left (.refl t)) (by simp), .inr rfl⟩
  | right c x l =>
    have rises {u : Shape} (hpart : Subtree t u) (hpairs : pairs u = pairs (.node x l t)) :
        Rises (.right c x l) t c u := ⟨Nat.lt_succ_self _, hpart, pairs_plug_congr c hpairs⟩
    simp only [climb, Option.bind_eq_bind] at h
    split at h
    · exact .inr ⟨c, _, rises (.right (.refl t)) (by simp), .inl h⟩
    split at h
    · cases l with
      | nil => simp at h
      | node y ll lr =>
        simp only at h
        split at h
        · obtain ⟨⟨l1, _⟩, h1, h⟩ := Option.bind_eq_some_iff.mp h
          have hl : pairs l1 = pairs (.node y ll lr) := pairs_rotateLeft h1
          -- the walk has gone one level up without having looked at it
          cases c with
          | top => simp at h
          | left c z r =>
            refine .inr ⟨c, _, ⟨?_, .left (.right (.refl t)), ?_⟩, .inl h⟩
            · simp only [Path.depth]
              omega
            · exact pairs_plug_congr c (by simp [hl])
          | right c z l' =>
            refine .inr ⟨c, _, ⟨?_, .right (.right (.refl t)), ?_⟩, .inl h⟩
            · simp only [Path.depth]
              omega
            · exact pairs_plug_congr c (by simp [hl])
        · obtain ⟨⟨t1, hc⟩, h1, h⟩ := Option.bind_eq_some_iff.mp h
          have hpairs : pairs t1 = pairs (.node x (.node y ll lr) t) := by
            rw [pairs_rotateRight h1]
            simp
          refine .inr ⟨c, t1, rises (subtree_rotateRight h1) hpairs, ?_⟩
          split at h
          · exact .inl h
          · exact .inr (Option.some.inj h).symm
    · cases h
      exact .inr ⟨c, _, rises (.right (.refl t)) (by simp), .inr rfl⟩

/-- The walk rearranges nodes and never loses one, skipped levels included, and the subtree from
which it starts is a subtree of the result. -/
theorem climb_rises {n : Nat} : ∀ {c : Path Entry} {t s : Shape}, c.depth ≤ n → climb c t = some s →
    pairs s = pairs (c.plug t) ∧ Subtree t s := by
  induction n with
  | zero =>
    intro c t s hn h
    rcases climb_cases h with ⟨rfl, rfl⟩ | ⟨d, u, hrise, _⟩
    · exact ⟨rfl, .refl s⟩
    · exact absurd hrise.shorter (by omega)
  | succ n ih =>
    intro c t s hn h
    rcases climb_cases h with ⟨rfl, rfl⟩ | ⟨d, u, hrise, h | rfl⟩
    · exact ⟨rfl, .refl s⟩
    · have hshorter := hrise.shorter
      obtain ⟨hpairs, hpart⟩ := ih (by omega) h
      exact ⟨hpairs.trans hrise.pairs, hrise.part.trans hpart⟩
    · exact ⟨hrise.pairs, hrise.part.trans (.plug d u)⟩

theorem pairs_insert_at {t s : Shape} {a : Nat} {key : CString} {fd : Int} {bal : Int8}
    (h : insert t a key fd bal = some s) :
    ∃ before after, pairs t = before ++ after ∧ pairs s = before ++ (key, fd) :: after ∧
      (Sorted entryKey t → ∀ p ∈ after, key < p.1) := by
  have hpairs := (pairs_rebalance h).trans (pairs_retrace _ _)
  have hplug := plug_descend entryKey key .top t
  refine ⟨(descend entryKey key .top t).before.map entryPair,
    (descend entryKey key .top t).after.map entryPair, ?_, ?_, ?_⟩
  · have h := congrArg pairs hplug
    simpa [pairs_plug] using h.symm
  · rw [hpairs, pairs_plug]
    simp [entryPair]
  · intro hs p hp
    obtain ⟨x, hx, rfl⟩ := List.mem_map.mp hp
    exact after_descend (f := entryKey) (c := .top) (by simp) hs x hx

theorem pairs_insert {t s : Shape} {a : Nat} {key : CString} {fd : Int} {bal : Int8}
    (h : insert t a key fd bal = some s) :
    (pairs s).Perm ((key, fd) :: pairs t) ∧ (Sorted entryKey t → Sorted entryKey s) := by
  constructor
  · obtain ⟨before, after, ht, hs, _⟩ := pairs_insert_at h
    rw [ht, hs]
    exact List.perm_middle
  · intro hs
    have hpairs := (pairs_rebalance h).trans (pairs_retrace _ _)
    have hplug := plug_descend entryKey key .top t
    have haround : Around entryKey key (descend entryKey key .top t) :=
      around_descend (c := .top) around_top hs
    have hnil : Sorted entryKey ((descend entryKey key .top t).plug .nil) := by
      rw [hplug]
      exact hs
    have hleaf := sorted_leaf (f := entryKey) (a := (a, ⟨key, fd, bal⟩)) haround hnil
    rw [sorted_iff_pairs] at hleaf ⊢
    rw [hpairs]
    exact hleaf

theorem pairs_unlinkAt (c : Path Entry) (x : Entry) (l r : Shape) :
    pairs ((unlinkAt c x l r).1.plug (unlinkAt c x l r).2) =
      c.before.map entryPair ++ (pairs l ++ pairs r) ++ c.after.map entryPair := by
  cases l with
  | nil => simp [unlinkAt, pairs_plug]
  | node y ll lr =>
    cases r with
    | nil => simp [unlinkAt, pairs_plug]
    | node z rl rr =>
      simp only [unlinkAt]
      split
      · generalize ho : (minSplit (.right c x (.node y ll lr)) z rl rr).2.1 = o
        have hsnd := minSplit_snd (.right c (withEntry x o) (.node y ll lr))
          (.right c x (.node y ll lr)) z rl rr
        have hafter := minSplit_after (.right c (withEntry x o) (.node y ll lr)) z rl rr
        rw [(congrArg Prod.fst hsnd).trans ho] at hafter
        have hafter := congrArg (List.map entryPair) hafter
        simp only [List.map_append, List.map_cons, Path.after_right] at hafter
        simp only [pairs_plug, minSplit_before, Path.before_right, List.map_append, List.map_cons,
          List.map_nil, entryPair_withEntry, List.append_assoc, List.cons_append, List.nil_append]
        simp only [pairs, hafter]
      · generalize ho : (maxSplit (.left c x (.node z rl rr)) y ll lr).2.1 = o
        have hsnd := maxSplit_snd (.left c (withEntry x o) (.node z rl rr))
          (.left c x (.node z rl rr)) y ll lr
        have hbefore := maxSplit_before (.left c (withEntry x o) (.node z rl rr)) y ll lr
        rw [(congrArg Prod.fst hsnd).trans ho] at hbefore
        have hbefore := congrArg (List.map entryPair) hbefore
        simp only [List.map_append, List.map_cons, List.map_nil, Path.before_left] at hbefore
        simp only [pairs_plug, maxSplit_after, Path.after_left, List.map_append, List.map_cons,
          entryPair_withEntry, List.cons_append]
        simp only [pairs] at hbefore ⊢
        rw [List.append_cons, hbefore]
        simp

/-- A removal that finds the key takes out, where it stands, the very pair a search would have met. -/
theorem pairs_remove_at {t s : Shape} {key : CString} (h : remove t key = some (s, true)) :
    ∃ before after, pairs t = before ++ (key, search t key) :: after ∧ pairs s = before ++ after := by
  simp only [remove, search] at h ⊢
  have hplug := plug_find entryKey key .top t
  have hkey := fun a l r => find_key (f := entryKey) (k := key) (c := .top) (t := t) (a := a)
    (l := l) (r := r)
  generalize find entryKey key .top t = p at *
  obtain ⟨c, u⟩ := p
  cases u with
  | nil => simp at h
  | node x l r =>
    obtain rfl : x.2.key = key := hkey x l r rfl
    simp only [Option.map_eq_some_iff, Prod.mk.injEq, and_true, exists_eq_right] at h
    refine ⟨c.before.map entryPair ++ pairs l, pairs r ++ c.after.map entryPair, ?_, ?_⟩
    · rw [← show c.plug (.node x l r) = t from hplug, pairs_plug, pairs_node]
      simp [entryPair]
    · rw [(climb_rises (Nat.le_refl _) h).1.trans (pairs_unlinkAt c x l r)]
      simp

theorem pairs_remove_true {t s : Shape} {key : CString} (h : remove t key = some (s, true)) :
    (pairs t).Perm ((key, search t key) :: pairs s) ∧ (Sorted entryKey t → Sorted entryKey s) := by
  obtain ⟨before, after, ht, hs⟩ := pairs_remove_at h
  constructor
  · rw [ht, hs]
    exact List.perm_middle
  · rw [sorted_iff_pairs, sorted_iff_pairs, ht, hs]
    refine List.Pairwise.sublist (List.Sublist.map _ ?_)
    simp

theorem pairs_remove_false {t s : Shape} {key : CString} (h : remove t key = some (s, false)) :
    s = t ∧ (Sorted entryKey t → ∀ p ∈ pairs t, p.1 ≠ key) := by
  simp only [remove] at h
  have hnil := find_nil (f := entryKey) (k := key) (c := .top) (t := t)
  generalize find entryKey key .top t = p at *
  obtain ⟨c, u⟩ := p
  cases u with
  | nil =>
    simp only [Option.some.injEq, Prod.mk.injEq, and_true] at h
    refine ⟨h.symm, ?_⟩
    intro hs p hp
    obtain ⟨x, hx, rfl⟩ := mem_pairs.mp hp
    exact hnil hs (by simp) (by simp) rfl x hx
  | node x l r => simp at h

theorem search_spec {t : Shape} (hs : Sorted entryKey t) (key : CString) :
    (key, search t key) ∈ pairs t ∨ search t key = -1 ∧ ∀ p ∈ pairs t, p.1 ≠ key := by
  have hplug := plug_find entryKey key .top t
  have hkey := fun a l r => find_key (f := entryKey) (k := key) (c := .top) (t := t) (a := a)
    (l := l) (r := r)
  have hnil := find_nil (f := entryKey) (k := key) (c := .top) (t := t)
  simp only [search]
  generalize find entryKey key .top t = p at *
  obtain ⟨c, u⟩ := p
  cases u with
  | nil =>
    refine .inr ⟨rfl, ?_⟩
    intro p hp
    obtain ⟨x, hx, rfl⟩ := mem_pairs.mp hp
    exact hnil hs (by simp) (by simp) rfl x hx
  | node x l r =>
    obtain rfl : x.2.key = key := hkey x l r rfl
    refine .inl ?_
    rw [← show c.plug (.node x l r) = t from hplug, pairs_plug, pairs_node]
    simp [entryPair]

end Shape

namespace HbTree

theorem Represents.self {T : HbTree} {n : Nat} {t : Shape} (H : T.Represents n t) :
    T.Represents T.next T.shape := by
  rw [H.shape_eq]
  exact ⟨H.linked, rfl, H.next_eq.symm ▸ H.fresh⟩

/-- The heap holds a well-linked tree with its keys in order. -/
structure WellFormed (T : HbTree) : Prop where
  rep : T.Represents T.next T.shape
  sorted : Sorted entryKey T.shape

theorem Represents.wellFormed {T : HbTree} {n : Nat} {t : Shape} (H : T.Represents n t)
    (hs : Sorted entryKey t) : T.WellFormed := ⟨H.self, by rwa [H.shape_eq]⟩

theorem wellFormed_new : hbTreeNew.WellFormed := represents_new.wellFormed (by simp [Sorted])

def pairs (T : HbTree) : List KeyFd := Shape.pairs T.shape

theorem Represents.pairs_eq {T : HbTree} {n : Nat} {t : Shape} (H : T.Represents n t) :
    T.pairs = Shape.pairs t := by rw [pairs, H.shape_eq]

theorem pairs_new : hbTreeNew.pairs = [] := represents_new.pairs_eq

namespace WellFormed
variable {T S : HbTree} {key : CString}

theorem insert (H : T.WellFormed) (fd : Int) (bal : Int8) (hkey : key.strlen < keyBytes) :
    T.hbTreeInsert key fd bal = .error .nullDeref ∨
      ∃ S l, T.hbTreeInsert key fd bal = .ok (S, l) ∧ l ≠ none ∧ S.WellFormed ∧
        S.pairs.Perm ((key, fd) :: T.pairs) := by
  have href := hbTreeInsert_refines fd bal H.rep hkey
  cases hs : Shape.insert T.shape T.next key fd bal with
  | none =>
    rw [hs] at href
    exact .inl href
  | some s =>
    rw [hs] at href
    obtain ⟨⟨S, l⟩, hS, hrep, hl⟩ := href.some
    obtain ⟨hperm, hsorted⟩ := Shape.pairs_insert hs
    refine .inr ⟨S, l, hS, hl, hrep.wellFormed (hsorted H.sorted), ?_⟩
    rw [hrep.pairs_eq]
    exact hperm

theorem search (H : T.WellFormed) (key : CString) :
    ∃ fd, T.hbTreeSearch key = .ok fd ∧
      ((key, fd) ∈ T.pairs ∨ fd = -1 ∧ ∀ p ∈ T.pairs, p.1 ≠ key) :=
  ⟨_, hbTreeSearch_eq H.rep key, Shape.search_spec H.sorted key⟩

theorem remove (H : T.WellFormed) (key : CString) :
    T.hbTreeRemove key = .error .nullDeref ∨
      (∃ S fd, T.hbTreeRemove key = .ok (S, true) ∧ T.hbTreeSearch key = .ok fd ∧ S.WellFormed ∧
        T.pairs.Perm ((key, fd) :: S.pairs)) ∨
      ∃ S, T.hbTreeRemove key = .ok (S, false) ∧ S.WellFormed ∧ S.pairs = T.pairs ∧
        ∀ p ∈ T.pairs, p.1 ≠ key := by
  have href := hbTreeRemove_refines H.rep key
  cases hs : Shape.remove T.shape key with
  | none =>
    rw [hs] at href
    exact .inl href
  | some p =>
    obtain ⟨s, found⟩ := p
    rw [hs] at href
    obtain ⟨⟨S, b⟩, hS, hrep, hb⟩ := href.some
    obtain rfl : b = found := hb
    cases b with
    | true =>
      obtain ⟨hperm, hsorted⟩ := Shape.pairs_remove_true hs
      refine .inr (.inl ⟨S, _, hS, hbTreeSearch_eq H.rep key, hrep.wellFormed (hsorted H.sorted), ?_⟩)
      rw [hrep.pairs_eq]
      exact hperm
    | false =>
      obtain ⟨rfl, hnone⟩ := Shape.pairs_remove_false hs
      exact .inr (.inr ⟨S, hS, hrep.wellFormed H.sorted, hrep.pairs_eq, hnone H.sorted⟩)

theorem of_insert (H : T.WellFormed) {fd : Int} {bal : Int8} {l : Link} (hkey : key.strlen < keyBytes)
    (h : T.hbTreeInsert key fd bal = .ok (S, l)) :
    l ≠ none ∧ S.WellFormed ∧ S.pairs.Perm ((key, fd) :: T.pairs) := by
  rcases H.insert fd bal hkey with hn | ⟨S', l', hS, hspec⟩
  · rw [h] at hn
    cases hn
  · rw [h] at hS
    cases hS
    exact hspec

theorem insert_fault (H : T.WellFormed) {fd : Int} {bal : Int8} {f : Fault}
    (hkey : key.strlen < keyBytes) (h : T.hbTreeInsert key fd bal = .error f) : f = .nullDeref := by
  rcases H.insert fd bal hkey with hn | ⟨S', l', hS, _⟩
  · rw [h] at hn
    cases hn
    rfl
  · rw [h] at hS
    cases hS

theorem of_remove_true (H : T.WellFormed) (h : T.hbTreeRemove key = .ok (S, true)) :
    ∃ fd, T.hbTreeSearch key = .ok fd ∧ S.WellFormed ∧ T.pairs.Perm ((key, fd) :: S.pairs) := by
  rcases H.remove key with hn | ⟨S', fd, hS, hspec⟩ | ⟨S', hS, _⟩
  · rw [h] at hn
    cases hn
  · rw [h] at hS
    cases hS
    exact ⟨fd, hspec⟩
  · rw [h] at hS
    cases hS

theorem of_remove_false (H : T.WellFormed) (h : T.hbTreeRemove key = .ok (S, false)) :
    S.WellFormed ∧ S.pairs = T.pairs ∧ ∀ p ∈ T.pairs, p.1 ≠ key := by
  rcases H.remove key with hn | ⟨S', fd, hS, _⟩ | ⟨S', hS, hspec⟩
  · rw [h] at hn
    cases hn
  · rw [h] at hS
    cases hS
  · rw [h] at hS
    cases hS
    exact hspec

theorem remove_fault (H : T.WellFormed) {f : Fault} (h : T.hbTreeRemove key = .error f) :
    f = .nullDeref := by
  rcases H.remove key with hn | ⟨S', fd, hS, _⟩ | ⟨S', hS, _⟩
  · rw [h] at hn
    cases hn
    rfl
  · rw [h] at hS
    cases hS
  · rw [h] at hS
    cases hS

end WellFormed

theorem hbTreeRemove_false {T S : HbTree} {key : CString} (h : T.hbTreeRemove key = .ok (S, false)) :
    S = T := by
  simp only [hbTreeRemove] at h
  cases hfind : T.removeFind key T.next T.root none with
  | error f =>
    rw [hfind] at h
    cases h
  | ok q =>
    obtain ⟨node, parent⟩ := q
    rw [hfind] at h
    cases node with
    | none =>
      cases h
      rfl
    | some a =>
      simp only [ok_bind] at h
      cases htarget : T.removeTarget (some a) parent with
      | error f =>
        rw [htarget] at h
        cases h
      | ok q =>
        obtain ⟨T', node', parent'⟩ := q
        rw [htarget] at h
        simp only [ok_bind] at h
        cases hunlink : T'.removeUnlink node' parent' with
        | error f =>
          rw [hunlink] at h
          cases h
        | ok T'' =>
          rw [hunlink] at h
          cases h

end HbTree

/-- A call of the tree's interface. `bal` is what the memory of the new node held. -/
inductive TreeOp where
  | insert (key : CString) (fd : Int) (bal : Int8)
  | remove (key : CString)
  | search (key : CString)
deriving DecidableEq

inductive TreeAnswer where
  | inserted
  | removed (found : Bool)
  | found (fd : Int)
deriving DecidableEq

def TreeOp.Fits : TreeOp → Prop
  | .insert key _ _ => key.strlen < HbTree.keyBytes
  | _ => True

instance : (op : TreeOp) → Decidable op.Fits
  | .insert key _ _ => inferInstanceAs (Decidable (key.strlen < HbTree.keyBytes))
  | .remove _ => .isTrue trivial
  | .search _ => .isTrue trivial

def TreeOp.FdNonneg : TreeOp → Prop
  | .insert _ fd _ => 0 ≤ fd
  | _ => True

instance : (op : TreeOp) → Decidable op.FdNonneg
  | .insert _ fd _ => inferInstanceAs (Decidable (0 ≤ fd))
  | .remove _ => inferInstanceAs (Decidable True)
  | .search _ => inferInstanceAs (Decidable True)

namespace HbTree

def call (T : HbTree) : TreeOp → Except Fault (HbTree × TreeAnswer)
  | .insert key fd bal => do return ((← T.hbTreeInsert key fd bal).1, .inserted)
  | .remove key => do
    let (T, found) ← T.hbTreeRemove key
    return (T, .removed found)
  | .search key => do return (T, .found (← T.hbTreeSearch key))

def calls : HbTree → List TreeOp → Except Fault (HbTree × List TreeAnswer)
  | T, [] => .ok (T, [])
  | T, op :: ops => do
    let (T, answer) ← T.call op
    let (T, answers) ← calls T ops
    return (T, answer :: answers)

end HbTree

/-- What a call does to a multimap: the pairs afterwards, and the answer. -/
inductive MultimapStep (M : Multiset KeyFd) : TreeOp → TreeAnswer → Multiset KeyFd → Prop
  | insert (key : CString) (fd : Int) (bal : Int8) :
      MultimapStep M (.insert key fd bal) .inserted ((key, fd) ::ₘ M)
  | remove (key : CString) (fd : Int) (h : (key, fd) ∈ M) :
      MultimapStep M (.remove key) (.removed true) (M.erase (key, fd))
  | absent (key : CString) (h : ∀ fd, (key, fd) ∉ M) :
      MultimapStep M (.remove key) (.removed false) M
  | search (key : CString) (fd : Int) (h : (key, fd) ∈ M ∨ fd = -1)
      (none : fd = -1 ↔ ∀ fd', (key, fd') ∉ M) : MultimapStep M (.search key) (.found fd) M

inductive MultimapRun : Multiset KeyFd → List TreeOp → List TreeAnswer → Multiset KeyFd → Prop
  | nil (M : Multiset KeyFd) : MultimapRun M [] [] M
  | cons {M M' M'' : Multiset KeyFd} {op : TreeOp} {ops : List TreeOp} {answer : TreeAnswer}
      {answers : List TreeAnswer} (step : MultimapStep M op answer M')
      (run : MultimapRun M' ops answers M'') : MultimapRun M (op :: ops) (answer :: answers) M''

namespace HbTree

/-- The tree stores the pairs of `M`. -/
structure Stores (T : HbTree) (M : Multiset KeyFd) : Prop where
  wf : T.WellFormed
  pairs : (T.pairs : Multiset KeyFd) = M
  fd_nonneg : ∀ p ∈ M, 0 ≤ p.2

theorem stores_new : hbTreeNew.Stores 0 := ⟨wellFormed_new, by simp [pairs_new], by simp⟩

theorem Stores.mem_iff {T : HbTree} {M : Multiset KeyFd} (H : T.Stores M) {p : KeyFd} :
    p ∈ T.pairs ↔ p ∈ M := by rw [← H.pairs, Multiset.mem_coe]

/-- One call: it follows a NULL link, or it does what the multimap does. -/
theorem call_step {T : HbTree} {M : Multiset KeyFd} {op : TreeOp} (H : T.Stores M)
    (hop : op.Fits) (hfd : op.FdNonneg) :
    T.call op = .error .nullDeref ∨ ∃ T' answer M', T.call op = .ok (T', answer) ∧
      MultimapStep M op answer M' ∧ T'.Stores M' := by
  cases op with
  | insert key fd bal =>
    rcases H.wf.insert fd bal hop with h | ⟨S, l, hS, _, hwf, hperm⟩
    · exact .inl (by simp [call, show T.hbTreeInsert key fd bal = _ from h])
    refine .inr ⟨S, .inserted, (key, fd) ::ₘ M, ?_, .insert key fd bal, hwf, ?_, ?_⟩
    · simp [call, show T.hbTreeInsert key fd bal = _ from hS]
    · rw [← H.pairs, Multiset.cons_coe]
      exact Multiset.coe_eq_coe.mpr hperm
    · intro p hp
      rcases Multiset.mem_cons.mp hp with rfl | hp
      · exact hfd
      · exact H.fd_nonneg p hp
  | remove key =>
    rcases H.wf.remove key with h | ⟨S, fd, hS, _, hwf, hperm⟩ | ⟨S, hS, hwf, hpairs, hnone⟩
    · exact .inl (by simp [call, h])
    · have hM : M = (key, fd) ::ₘ (S.pairs : Multiset KeyFd) := by
        rw [← H.pairs, Multiset.cons_coe]
        exact Multiset.coe_eq_coe.mpr hperm
      refine .inr ⟨S, .removed true, M.erase (key, fd), by simp [call, hS], .remove key fd (by simp [hM]),
        hwf, by simp [hM], ?_⟩
      exact fun p hp => H.fd_nonneg p (Multiset.mem_of_mem_erase hp)
    · refine .inr ⟨S, .removed false, M, by simp [call, hS], .absent key ?_, hwf,
        by rw [hpairs, H.pairs], H.fd_nonneg⟩
      exact fun fd h => hnone _ (H.mem_iff.mpr h) rfl
  | search key =>
    obtain ⟨fd, hfd, hspec⟩ := H.wf.search key
    refine .inr ⟨T, .found fd, M, by simp [call, hfd], ?_, H⟩
    rcases hspec with h | ⟨h, hnone⟩
    · have hM := H.mem_iff.mp h
      have hpos : 0 ≤ fd := H.fd_nonneg _ hM
      refine .search key fd (.inl hM) ⟨fun h1 => ?_, fun h1 => absurd hM (h1 _)⟩
      omega
    · exact .search key fd (.inr h) ⟨fun _ fd' h' => hnone _ (H.mem_iff.mpr h') rfl, fun _ => h⟩

theorem calls_run {T : HbTree} {M : Multiset KeyFd} {ops : List TreeOp} (H : T.Stores M)
    (hops : ∀ op ∈ ops, op.Fits ∧ op.FdNonneg) :
    T.calls ops = .error .nullDeref ∨ ∃ T' answers M', T.calls ops = .ok (T', answers) ∧
      MultimapRun M ops answers M' ∧ T'.Stores M' := by
  induction ops generalizing T M with
  | nil => exact .inr ⟨T, [], M, rfl, .nil M, H⟩
  | cons op ops ih =>
    rw [List.forall_mem_cons] at hops
    rcases call_step H hops.1.1 hops.1.2 with h | ⟨T1, answer, M1, h, hstep, H1⟩
    · exact .inl (by simp [calls, h])
    rcases ih H1 hops.2 with h' | ⟨T2, answers, M2, h', hrun, H2⟩
    · exact .inl (by simp [calls, h, h'])
    · exact .inr ⟨T2, answer :: answers, M2, by simp [calls, h, h'], .cons hstep hrun, H2⟩

theorem call_removed_false {T S : HbTree} {key : CString}
    (h : T.call (.remove key) = .ok (S, .removed false)) : S = T := by
  simp only [call] at h
  cases hr : T.hbTreeRemove key with
  | error f =>
    rw [hr] at h
    cases h
  | ok q =>
    obtain ⟨S', found⟩ := q
    rw [hr] at h
    cases h
    exact hbTreeRemove_false hr

/-- Any sequence of calls from the empty tree either follows a NULL link or ends, with the
answers and the contents of a multimap, in a well-linked tree in key order. -/
theorem calls_refine_multimap (ops : List TreeOp) (hops : ∀ op ∈ ops, op.Fits ∧ op.FdNonneg) :
    hbTreeNew.calls ops = .error .nullDeref ∨
      ∃ T answers M t, hbTreeNew.calls ops = .ok (T, answers) ∧ MultimapRun 0 ops answers M ∧
        LinkedTree.Represents T.heap T.root t ∧ Sorted entryKey t ∧
        (Shape.pairs t : Multiset KeyFd) = M ∧
        ∀ key S, T.call (.remove key) = .ok (S, .removed false) → S = T := by
  rcases calls_run stores_new hops with h | ⟨T, answers, M, h, hrun, H⟩
  · exact .inl h
  · exact .inr ⟨T, answers, M, T.shape, h, hrun, H.wf.rep.linked, H.wf.sorted, H.pairs,
      fun _ _ => call_removed_false⟩

def sampleCalls : List TreeOp :=
  let ann := CString.ofBuffer (ascii ['a', 'n', 'n'])
  let bob := CString.ofBuffer (ascii ['b', 'o', 'b'])
  [.insert ann 5 0, .insert ann 6 0, .search ann, .remove ann, .remove bob]

theorem sampleCalls_refine_multimap :
    ∃ T answers M t, hbTreeNew.calls sampleCalls = .ok (T, answers) ∧
      MultimapRun 0 sampleCalls answers M ∧
      LinkedTree.Represents T.heap T.root t ∧ Sorted entryKey t ∧
      (Shape.pairs t : Multiset KeyFd) = M ∧
      ∀ key S, T.call (.remove key) = .ok (S, .removed false) → S = T := by
  have hends : faultOf (hbTreeNew.calls sampleCalls) = none := by decide +kernel
  rcases calls_refine_multimap sampleCalls (by decide) with hnull | h
  · rw [hnull] at hends
    cases hends
  · exact h

end HbTree
end TeamsInC
