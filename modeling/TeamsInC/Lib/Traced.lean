import Mathlib.Tactic.Common

/-!
# Computations that leave a trace and may fail

What has been done before a failure stays done: the trace is kept in both cases.
-/

set_option autoImplicit false

universe u v w

structure Traced (ε : Type u) (φ : Type v) (α : Type w) where
  effects : List φ
  result : Except ε α

namespace Traced
variable {ε φ : Type} {α β γ : Type w}

instance : Monad (Traced ε φ) where
  pure a := ⟨[], .ok a⟩
  bind m f :=
    match m.result with
    | .error e => ⟨m.effects, .error e⟩
    | .ok a => ⟨m.effects ++ (f a).effects, (f a).result⟩

def emit (xs : List φ) : Traced ε φ Unit := ⟨xs, .ok ()⟩

def fail (e : ε) : Traced ε φ α := ⟨[], .error e⟩

def ofExcept (m : Except ε α) : Traced ε φ α := ⟨[], m⟩

@[simp] theorem pure_eq (a : α) : (pure a : Traced ε φ α) = ⟨[], .ok a⟩ := rfl

@[simp] theorem bind_ok (xs : List φ) (a : α) (f : α → Traced ε φ β) :
    ((⟨xs, .ok a⟩ : Traced ε φ α) >>= f) = ⟨xs ++ (f a).effects, (f a).result⟩ := rfl

@[simp] theorem bind_error (xs : List φ) (e : ε) (f : α → Traced ε φ β) :
    ((⟨xs, .error e⟩ : Traced ε φ α) >>= f) = ⟨xs, .error e⟩ := rfl

theorem eq_mk {m : Traced ε φ α} {r : Except ε α} (h : m.result = r) : m = ⟨m.effects, r⟩ := by
  cases m
  simp_all

theorem result_bind_ok {m : Traced ε φ α} {f : α → Traced ε φ β} {b : β} :
    (m >>= f).result = .ok b ↔ ∃ a, m.result = .ok a ∧ (f a).result = .ok b := by
  obtain ⟨xs, r⟩ := m
  cases r with
  | error e => simp
  | ok a => simp

theorem id_map_eq (m : Traced ε φ α) : id <$> m = m := by
  obtain ⟨xs, r⟩ := m
  cases r with
  | error e => rfl
  | ok a => exact congrArg (Traced.mk · (.ok a)) (List.append_nil xs)

theorem bind_assoc_eq (m : Traced ε φ α) (f : α → Traced ε φ β) (g : β → Traced ε φ γ) :
    m >>= f >>= g = m >>= fun a => f a >>= g := by
  obtain ⟨xs, r⟩ := m
  cases r with
  | error e => rfl
  | ok a =>
    rw [bind_ok, bind_ok]
    generalize f a = n
    obtain ⟨ys, r⟩ := n
    cases r with
    | error e => rfl
    | ok b => simp

instance : LawfulMonad (Traced ε φ) :=
  LawfulMonad.mk' _ id_map_eq (fun _ _ => rfl) bind_assoc_eq

theorem bind_congr_ok {m : Traced ε φ α} {f g : α → Traced ε φ β}
    (h : ∀ a, m.result = .ok a → f a = g a) : (m >>= f) = (m >>= g) := by
  obtain ⟨xs, r⟩ := m
  cases r with
  | error e => rfl
  | ok a => rw [bind_ok, bind_ok, h a rfl]

def visible (keep : φ → Bool) (m : Traced ε φ α) : Traced ε φ α := ⟨m.effects.filter keep, m.result⟩

variable {keep : φ → Bool}

@[simp] theorem visible_pure (a : α) : (pure a : Traced ε φ α).visible keep = pure a := rfl

@[simp] theorem visible_bind (m : Traced ε φ α) (f : α → Traced ε φ β) :
    (m >>= f).visible keep = m.visible keep >>= fun a => (f a).visible keep := by
  obtain ⟨xs, r⟩ := m
  cases r with
  | error e => rfl
  | ok a => simp [visible]

end Traced
