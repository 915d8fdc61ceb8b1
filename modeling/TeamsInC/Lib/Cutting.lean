import Mathlib.Data.List.Basic
import Mathlib.Tactic.Common

/-!
# Streams in pieces

A stream of parts arrives in pieces. The pieces respect the parts when no piece lies in two
of them, so that the pieces fall into one group for each part.
-/

set_option autoImplicit false

namespace Cutting
variable {α β : Type}

/-- The pieces fall into one group for each part. -/
inductive Respects (bytes : β → List α) : List β → List (List α) → Prop
  | nil : Respects bytes [] []
  | cons {g cs : List β} {p : List α} {ps : List (List α)} (hg : g.flatMap bytes = p)
      (h : Respects bytes cs ps) : Respects bytes (g ++ cs) (p :: ps)

namespace Respects
variable {bytes : β → List α} {cs : List β} {ps : List (List α)}

theorem single {p : List α} (h : cs.flatMap bytes = p) : Respects bytes cs [p] := by
  have hcons : Respects bytes (cs ++ []) [p] := .cons h .nil
  rwa [List.append_nil] at hcons

theorem of_groups {gs : List (List β)} (h : List.Forall₂ (fun g p => g.flatMap bytes = p) gs ps) :
    Respects bytes gs.flatten ps := by
  induction h with
  | nil => exact .nil
  | cons hg _ ih => exact .cons hg ih

end Respects

section
variable {bytes : β → List α} {gs : List (List β)} {ps : List (List α)}

theorem length_le_of_groups (h : List.Forall₂ (fun g p => p.length ≤ (g.flatMap bytes).length) gs ps) :
    ps.flatten.length ≤ (gs.flatten.flatMap bytes).length := by
  induction h with
  | nil => exact Nat.le_refl 0
  | cons hg _ ih =>
    simp only [List.flatten_cons, List.flatMap_append, List.length_append]
    omega

theorem groups_eq (h : List.Forall₂ (fun g p => p.length ≤ (g.flatMap bytes).length) gs ps)
    (heq : gs.flatten.flatMap bytes = ps.flatten) :
    List.Forall₂ (fun g p => g.flatMap bytes = p) gs ps := by
  induction h with
  | nil => exact .nil
  | @cons g p gs ps hg hrest ih =>
    simp only [List.flatten_cons, List.flatMap_append] at heq
    have hlen := congrArg List.length heq
    have hle := length_le_of_groups hrest
    simp only [List.length_append] at hlen
    obtain ⟨hhead, htail⟩ := List.append_inj heq (by omega)
    exact .cons hhead (ih htail)

end
end Cutting
