import Mathlib.Order.Lattice
import TeamsInC.Lib.TreePath

/-!
# Search paths in ordered binary trees

The keys may repeat: the symmetric order is nondecreasing, not increasing. A descent
towards a key keeps the hole between the smaller and the larger keys, which is all that
insertion and lookup need to know about the shape of the tree.
-/

set_option autoImplicit false

universe u v

namespace BinaryTree
variable {α : Type u} {κ : Type v} [LinearOrder κ] (f : α → κ) (k : κ)

/-- The keys are nondecreasing in symmetric order. -/
def Sorted (t : BinaryTree α) : Prop := (t.inorder.map f).Pairwise (· ≤ ·)

/-- Down to an empty place: left below larger keys, right below the others. -/
def descend : Path α → BinaryTree α → Path α
  | c, nil => c
  | c, node a l r => if k < f a then descend (.left c a r) l else descend (.right c a l) r

/-- Down to the first node with the key, or to an empty place. -/
def find : Path α → BinaryTree α → Path α × BinaryTree α
  | c, nil => (c, nil)
  | c, node a l r =>
    if k < f a then find (.left c a r) l
    else if k ≠ f a then find (.right c a l) r
    else (c, node a l r)

theorem sorted_plug {c : Path α} {t : BinaryTree α} :
    Sorted f (c.plug t) ↔
      ((c.before ++ t.inorder ++ c.after).map f).Pairwise (· ≤ ·) := by
  rw [Sorted, Path.inorder_plug]

theorem plug_descend (c : Path α) (t : BinaryTree α) :
    (descend f k c t).plug nil = c.plug t := by
  induction t generalizing c with
  | nil => rfl
  | node a l r ihl ihr =>
    simp only [descend]
    split
    · rw [ihl, Path.plug_left]
    · rw [ihr, Path.plug_right]

theorem plug_find (c : Path α) (t : BinaryTree α) :
    (find f k c t).1.plug (find f k c t).2 = c.plug t := by
  induction t generalizing c with
  | nil => rfl
  | node a l r ihl ihr =>
    simp only [find]
    split
    · rw [ihl, Path.plug_left]
    · split
      · rw [ihr, Path.plug_right]
      · rfl

/-- The keys before the hole are at most `k`, those after it at least `k`. -/
def Around (c : Path α) : Prop := (∀ a ∈ c.before, f a ≤ k) ∧ ∀ a ∈ c.after, k ≤ f a

variable {f k}

theorem sorted_hole {c : Path α} {a : α} {l r : BinaryTree α}
    (hs : Sorted f (c.plug (node a l r))) :
    (∀ b ∈ l.inorder, f b ≤ f a) ∧ ∀ b ∈ r.inorder, f a ≤ f b := by
  rw [sorted_plug] at hs
  simp only [inorder_node, List.map_append, List.map_cons, List.pairwise_append,
    List.pairwise_cons, List.mem_append, List.mem_cons, List.mem_map] at hs
  obtain ⟨⟨_, ⟨_, hr, hl⟩, _⟩, _, _⟩ := hs
  refine ⟨fun b hb => hl _ ⟨b, hb, rfl⟩ _ (.inl rfl), fun b hb => hr.1 _ ⟨b, hb, rfl⟩⟩

theorem around_descend {c : Path α} {t : BinaryTree α} (hc : Around f k c)
    (hs : Sorted f (c.plug t)) : Around f k (descend f k c t) := by
  induction t generalizing c with
  | nil => exact hc
  | node a l r ihl ihr =>
    obtain ⟨hal, har⟩ := sorted_hole hs
    simp only [descend]
    split
    · rename_i hlt
      refine ihl ⟨hc.1, ?_⟩ hs
      intro b hb
      simp only [Path.after_left, List.cons_append, List.mem_cons, List.mem_append] at hb
      rcases hb with rfl | hb | hb
      · exact le_of_lt hlt
      · exact le_trans (le_of_lt hlt) (har b hb)
      · exact hc.2 b hb
    · rename_i hge
      refine ihr ⟨?_, hc.2⟩ hs
      intro b hb
      simp only [Path.before_right, List.mem_append, List.mem_singleton] at hb
      rcases hb with hb | hb | rfl
      · exact hc.1 b hb
      · exact le_trans (hal b hb) (not_lt.mp hge)
      · exact not_lt.mp hge

/-- Equal keys are passed on the left: what lies after the empty place is larger. -/
theorem after_descend {c : Path α} {t : BinaryTree α} (hc : ∀ a ∈ c.after, k < f a)
    (hs : Sorted f (c.plug t)) : ∀ a ∈ (descend f k c t).after, k < f a := by
  induction t generalizing c with
  | nil => exact hc
  | node a l r ihl ihr =>
    obtain ⟨_, har⟩ := sorted_hole hs
    simp only [descend]
    split
    · rename_i hlt
      refine ihl ?_ hs
      intro b hb
      simp only [Path.after_left, List.cons_append, List.mem_cons, List.mem_append] at hb
      rcases hb with rfl | hb | hb
      · exact hlt
      · exact lt_of_lt_of_le hlt (har b hb)
      · exact hc b hb
    · exact ihr hc hs

theorem around_top : Around f k (.top : Path α) := by simp [Around]

theorem sorted_leaf {c : Path α} {a : α} (hc : Around f (f a) c) (hs : Sorted f (c.plug nil)) :
    Sorted f (c.plug (node a nil nil)) := by
  rw [sorted_plug] at hs ⊢
  simp only [inorder_nil, inorder_node, List.append_nil, List.nil_append, List.map_append,
    List.map_cons, List.map_nil, List.pairwise_append, List.mem_map] at hs ⊢
  obtain ⟨hb, ha, hba⟩ := hs
  refine ⟨⟨hb, List.pairwise_singleton _ _, ?_⟩, ha, ?_⟩
  · rintro x ⟨y, hy, rfl⟩ z hz
    rw [List.mem_singleton.mp hz]
    exact hc.1 y hy
  · rintro x hx z ⟨w, hw, rfl⟩
    rcases List.mem_append.mp hx with hx | hx
    · exact hba x (List.mem_map.mp hx) _ ⟨w, hw, rfl⟩
    · rw [List.mem_singleton.mp hx]
      exact hc.2 w hw

/-- A search that ends in an empty place has met every node with the key: there is none. -/
theorem find_nil {c : Path α} {t : BinaryTree α} (hs : Sorted f (c.plug t))
    (hb : ∀ a ∈ c.before, f a < k) (ha : ∀ a ∈ c.after, k < f a)
    (h : (find f k c t).2 = nil) : ∀ a ∈ (c.plug t).inorder, f a ≠ k := by
  induction t generalizing c with
  | nil =>
    intro a hm
    rw [Path.inorder_plug] at hm
    simp only [inorder_nil, List.append_nil, List.mem_append] at hm
    rcases hm with hm | hm
    · exact ne_of_lt (hb a hm)
    · exact ne_of_gt (ha a hm)
  | node a l r ihl ihr =>
    obtain ⟨hal, har⟩ := sorted_hole hs
    simp only [find] at h
    split at h
    · rename_i hlt
      refine ihl (c := .left c a r) hs hb ?_ h
      intro b hm
      simp only [Path.after_left, List.cons_append, List.mem_cons, List.mem_append] at hm
      rcases hm with rfl | hm | hm
      · exact hlt
      · exact lt_of_lt_of_le hlt (har b hm)
      · exact ha b hm
    · rename_i hge
      split at h
      · rename_i hne
        have hgt : f a < k := lt_of_le_of_ne (not_lt.mp hge) (Ne.symm hne)
        refine ihr (c := .right c a l) hs ?_ ha h
        intro b hm
        simp only [Path.before_right, List.mem_append, List.mem_singleton] at hm
        rcases hm with hm | hm | rfl
        · exact hb b hm
        · exact lt_of_le_of_lt (hal b hm) hgt
        · exact hgt
      · simp at h

theorem find_key {c : Path α} {t : BinaryTree α} {a : α} {l r : BinaryTree α}
    (h : (find f k c t).2 = node a l r) : f a = k := by
  induction t generalizing c with
  | nil => simp [find] at h
  | node b l' r' ihl ihr =>
    simp only [find] at h
    split at h
    · exact ihl h
    · split at h
      · exact ihr h
      · rename_i hne
        simp only [node.injEq] at h
        rw [← h.1]
        exact (not_not.mp hne).symm

/-- Down the right spine to its last node, which has no right subtree. -/
def maxSplit : Path α → α → BinaryTree α → BinaryTree α → Path α × α × BinaryTree α
  | c, a, l, nil => (c, a, l)
  | c, a, l, node b rl rr => maxSplit (.right c a l) b rl rr

def minSplit : Path α → α → BinaryTree α → BinaryTree α → Path α × α × BinaryTree α
  | c, a, nil, r => (c, a, r)
  | c, a, node b ll lr, r => minSplit (.left c a r) b ll lr

theorem plug_maxSplit (c : Path α) (a : α) (l r : BinaryTree α) :
    (maxSplit c a l r).1.plug (node (maxSplit c a l r).2.1 (maxSplit c a l r).2.2 nil) =
      c.plug (node a l r) := by
  induction r generalizing c a l with
  | nil => rfl
  | node b rl rr _ ih => rw [maxSplit, ih, Path.plug_right]

theorem plug_minSplit (c : Path α) (a : α) (l r : BinaryTree α) :
    (minSplit c a l r).1.plug (node (minSplit c a l r).2.1 nil (minSplit c a l r).2.2) =
      c.plug (node a l r) := by
  induction l generalizing c a r with
  | nil => rfl
  | node b ll lr ih _ => rw [minSplit, ih, Path.plug_left]

theorem maxSplit_snd (c d : Path α) (a : α) (l r : BinaryTree α) :
    (maxSplit c a l r).2 = (maxSplit d a l r).2 := by
  induction r generalizing c d a l with
  | nil => rfl
  | node b rl rr _ ih => exact ih _ _ _ _

theorem minSplit_snd (c d : Path α) (a : α) (l r : BinaryTree α) :
    (minSplit c a l r).2 = (minSplit d a l r).2 := by
  induction l generalizing c d a r with
  | nil => rfl
  | node b ll lr ih _ => exact ih _ _ _ _

theorem maxSplit_before (c : Path α) (a : α) (l r : BinaryTree α) :
    (maxSplit c a l r).1.before ++ (maxSplit c a l r).2.2.inorder ++ [(maxSplit c a l r).2.1] =
      c.before ++ (node a l r).inorder := by
  induction r generalizing c a l with
  | nil => simp [maxSplit]
  | node b rl rr _ ih =>
    rw [maxSplit, ih]
    simp

theorem maxSplit_after (c : Path α) (a : α) (l r : BinaryTree α) :
    (maxSplit c a l r).1.after = c.after := by
  induction r generalizing c a l with
  | nil => rfl
  | node b rl rr _ ih => rw [maxSplit, ih, Path.after_right]

theorem minSplit_after (c : Path α) (a : α) (l r : BinaryTree α) :
    (minSplit c a l r).2.1 :: ((minSplit c a l r).2.2.inorder ++ (minSplit c a l r).1.after) =
      (node a l r).inorder ++ c.after := by
  induction l generalizing c a r with
  | nil => simp [minSplit]
  | node b ll lr ih _ =>
    rw [minSplit, ih]
    simp

theorem minSplit_before (c : Path α) (a : α) (l r : BinaryTree α) :
    (minSplit c a l r).1.before = c.before := by
  induction l generalizing c a r with
  | nil => rfl
  | node b ll lr ih _ => rw [minSplit, ih, Path.before_left]

end BinaryTree
