import Mathlib.Data.List.Basic
import Mathlib.Logic.Function.Basic

/-!
# Pairs grouped by their keys

Under each key the values keep the order of the list. A pair put behind the last one with its key
joins the end of its group, and one taken out leaves the rest of its group as it was.
-/

set_option autoImplicit false

universe u v

namespace Groups
variable {κ : Type u} {β : Type v} [DecidableEq κ]

def groups (xs : List (κ × β)) (k : κ) : List β := (xs.filter fun p => p.1 = k).map Prod.snd

@[simp] theorem groups_nil (k : κ) : groups ([] : List (κ × β)) k = [] := rfl

@[simp] theorem groups_append (xs ys : List (κ × β)) (k : κ) :
    groups (xs ++ ys) k = groups xs k ++ groups ys k := by simp [groups]

theorem groups_cons (k' : κ) (b : β) (xs : List (κ × β)) (k : κ) :
    groups ((k', b) :: xs) k = if k' = k then b :: groups xs k else groups xs k := by
  by_cases h : k' = k
  · simp [groups, h]
  · simp [groups, h]

theorem mem_groups {xs : List (κ × β)} {k : κ} {b : β} : b ∈ groups xs k ↔ (k, b) ∈ xs := by
  simp [groups]

theorem groups_eq_nil {xs : List (κ × β)} {k : κ} (h : ∀ p ∈ xs, p.1 ≠ k) : groups xs k = [] := by
  simpa [groups] using h

theorem groups_join {before after : List (κ × β)} {k : κ} (b : β) (h : ∀ p ∈ after, p.1 ≠ k) :
    groups (before ++ (k, b) :: after) =
      Function.update (groups (before ++ after)) k (groups (before ++ after) k ++ [b]) := by
  funext k'
  by_cases hk : k' = k
  · subst hk
    rw [Function.update_self, groups_append, groups_append, groups_cons, if_pos rfl, groups_eq_nil h,
      List.append_nil]
  · rw [Function.update_of_ne hk, groups_append, groups_append, groups_cons, if_neg (Ne.symm hk)]

theorem groups_part (before after : List (κ × β)) (k : κ) (b : β) :
    groups (before ++ (k, b) :: after) k = groups before k ++ b :: groups after k := by
  rw [groups_append, groups_cons, if_pos rfl]

theorem groups_leave (before after : List (κ × β)) (k : κ) (b : β) :
    groups (before ++ after) =
      Function.update (groups (before ++ (k, b) :: after)) k (groups before k ++ groups after k) := by
  funext k'
  by_cases hk : k' = k
  · subst hk
    rw [Function.update_self, groups_append]
  · rw [Function.update_of_ne hk, groups_append, groups_append, groups_cons, if_neg (Ne.symm hk)]

end Groups
