import Mathlib.Data.List.Nodup
import Mathlib.Tactic.Common

/-!
# Edge-triggered notices

A source is raised when something arrives for it, once for all that arrives before the next
report. A report takes a number of raised sources, each with what is known of it by then, and
they are handled one by one; whatever a source has left after that is not reported again.
-/

set_option autoImplicit false

variable {α μ : Type}

structure Notices (α μ : Type) where
  ready : List α
  batch : List (α × μ)

namespace Notices

def none : Notices α μ := ⟨[], []⟩

/-- The source is to be reported, or has been reported and is to be handled. -/
def Raised (n : Notices α μ) (a : α) : Prop := a ∈ n.ready ∨ a ∈ n.batch.map Prod.fst

structure Distinct (n : Notices α μ) : Prop where
  ready : n.ready.Nodup
  batch : (n.batch.map Prod.fst).Nodup

theorem distinct_none : (none : Notices α μ).Distinct := ⟨.nil, .nil⟩

theorem not_raised_none (a : α) : ¬ (none : Notices α μ).Raised a := by simp [Raised, none]

def report (n : Notices α μ) (max : Nat) (mask : α → μ) : Notices α μ where
  ready := n.ready.drop max
  batch := (n.ready.take max).map fun a => (a, mask a)

def next (n : Notices α μ) : Notices α μ := { n with batch := n.batch.tail }

theorem raised_report {n : Notices α μ} (hbatch : n.batch = []) (max : Nat) (mask : α → μ) (a : α) :
    (n.report max mask).Raised a ↔ n.Raised a := by
  have hready : a ∈ n.ready ↔ a ∈ n.ready.take max ∨ a ∈ n.ready.drop max := by
    rw [← List.mem_append, List.take_append_drop]
  simp only [Raised, report, List.map_map, Function.comp_def, List.map_id', hbatch, List.map_nil,
    List.not_mem_nil, or_false, hready]
  exact or_comm

theorem Distinct.report {n : Notices α μ} (h : n.Distinct) (max : Nat) (mask : α → μ) :
    (n.report max mask).Distinct := by
  constructor
  · exact h.ready.sublist (List.drop_sublist _ _)
  · simp only [Notices.report, List.map_map, Function.comp_def, List.map_id']
    exact h.ready.sublist (List.take_sublist _ _)

theorem Raised.of_next {n : Notices α μ} {a : α} (h : n.next.Raised a) : n.Raised a := by
  rcases h with h | h
  · exact .inl h
  · rw [next, List.map_tail] at h
    exact .inr (List.mem_of_mem_tail h)

theorem Raised.next {n : Notices α μ} {a b : α} {m : μ} {rest : List (α × μ)} (h : n.Raised a)
    (hbatch : n.batch = (b, m) :: rest) (hne : a ≠ b) : n.next.Raised a := by
  rcases h with h | h
  · exact .inl h
  · right
    rw [hbatch, List.map_cons, List.mem_cons] at h
    rw [Notices.next, hbatch]
    exact h.resolve_left hne

theorem Distinct.next {n : Notices α μ} (h : n.Distinct) : n.next.Distinct := by
  refine ⟨h.ready, ?_⟩
  rw [Notices.next, List.map_tail]
  exact h.batch.sublist (List.tail_sublist _)

section Sources
variable [DecidableEq α]

def raise (n : Notices α μ) (a : α) : Notices α μ :=
  if a ∈ n.ready then n else { n with ready := n.ready ++ [a] }

def forget (n : Notices α μ) (a : α) : Notices α μ := { n with ready := n.ready.filter (· ≠ a) }

theorem raised_raise (n : Notices α μ) (a b : α) : (n.raise a).Raised b ↔ b = a ∨ n.Raised b := by
  simp only [raise]
  split
  · rename_i ha
    refine ⟨.inr, ?_⟩
    rintro (rfl | h)
    · exact .inl ha
    · exact h
  · simp only [Raised, List.mem_append, List.mem_singleton]
    exact ⟨fun h => by tauto, fun h => by tauto⟩

theorem Distinct.raise {n : Notices α μ} (h : n.Distinct) (a : α) : (n.raise a).Distinct := by
  simp only [Notices.raise]
  split
  · exact h
  · rename_i ha
    refine ⟨?_, h.batch⟩
    apply List.nodup_append.mpr
    refine ⟨h.ready, List.nodup_singleton a, ?_⟩
    intro x hx y hy hxy
    rw [List.mem_singleton] at hy
    exact ha (hy ▸ hxy ▸ hx)

theorem Raised.of_forget {n : Notices α μ} {a b : α} (h : (n.forget b).Raised a) : n.Raised a := by
  rcases h with h | h
  · exact .inl (List.mem_of_mem_filter h)
  · exact .inr h

theorem Raised.forget {n : Notices α μ} {a b : α} (h : n.Raised a) (hne : a ≠ b) :
    (n.forget b).Raised a := by
  rcases h with h | h
  · exact .inl (List.mem_filter.mpr ⟨h, by simpa using hne⟩)
  · exact .inr h

theorem Distinct.forget {n : Notices α μ} (h : n.Distinct) (a : α) : (n.forget a).Distinct :=
  ⟨h.ready.filter _, h.batch⟩

theorem Distinct.not_raised_forget {n : Notices α μ} {a : α} {m : μ} {rest : List (α × μ)}
    (h : n.Distinct) (hbatch : n.batch = (a, m) :: rest) : ¬ (n.next.forget a).Raised a := by
  rintro (hready | hrest)
  · simp [Notices.forget] at hready
  · have hnodup := h.batch
    rw [hbatch, List.map_cons, List.nodup_cons] at hnodup
    rw [Notices.forget, Notices.next, hbatch] at hrest
    exact hnodup.1 hrest

end Sources
end Notices
