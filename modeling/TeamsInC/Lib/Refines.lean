import Mathlib.Tactic.Common

/-!
# Refinement of a failing computation by a pure one

`Refines err m s R`: where the pure computation `s` has a value, the failing computation
`m` ends with a related one; where `s` has none, `m` fails with `err`.
-/

set_option autoImplicit false

universe u v

variable {ε : Type u} {α β γ δ : Type v}

def Refines (err : ε) (m : Except ε α) (s : Option β) (R : α → β → Prop) : Prop :=
  match s with
  | none => m = .error err
  | some b => ∃ a, m = .ok a ∧ R a b

namespace Refines
variable {err : ε} {m : Except ε α} {s : Option β} {R : α → β → Prop}

theorem pure {a : α} {b : β} (h : R a b) : Refines err (.ok a) (some b) R := ⟨a, rfl, h⟩

theorem bind {f : α → Except ε γ} {g : β → Option δ} {S : γ → δ → Prop}
    (h : Refines err m s R) (hf : ∀ a b, R a b → Refines err (f a) (g b) S) :
    Refines err (m >>= f) (s >>= g) S := by
  cases s with
  | none =>
    change m = .error err at h
    subst h
    exact (rfl : (Except.error err >>= f) = .error err)
  | some b =>
    obtain ⟨a, rfl, hab⟩ := h
    exact hf a b hab

theorem map {f : α → γ} {S : γ → β → Prop} (h : Refines err m s R)
    (hf : ∀ a b, R a b → S (f a) b) : Refines err (m >>= fun a => .ok (f a)) s S := by
  cases s with
  | none =>
    change m = .error err at h
    subst h
    exact (rfl : (Except.error err >>= fun a => Except.ok (f a)) = .error err)
  | some b =>
    obtain ⟨a, rfl, hab⟩ := h
    exact ⟨f a, rfl, hf a b hab⟩

theorem ite {p : Prop} [Decidable p] {m' : Except ε α} {s' : Option β}
    (ht : p → Refines err m s R) (hf : ¬p → Refines err m' s' R) :
    Refines err (if p then m else m') (if p then s else s') R := by
  by_cases hp : p
  · rw [if_pos hp, if_pos hp]
    exact ht hp
  · rw [if_neg hp, if_neg hp]
    exact hf hp

theorem some {b : β} (h : Refines err m (some b) R) : ∃ a, m = .ok a ∧ R a b := h

end Refines
