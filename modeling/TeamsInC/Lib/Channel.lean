import Mathlib.Data.List.Basic
import Mathlib.Tactic.Common

/-!
# Frames in a channel

A channel is a queue of symbols; frames are put in whole and taken out in pieces. What has
been taken of the first frame and what is still in the channel are together the frames on
their way, as long as no piece goes past the end of a frame.
-/

set_option autoImplicit false

variable {α : Type}

/-- These frames are on their way: `got` has been taken of the first of them, `pending` is still in
the channel. -/
structure Carries (got pending : List α) (frames : List (List α)) : Prop where
  symbols : got ++ pending = frames.flatten
  inside : got = [] ∨ ∃ f rest, frames = f :: rest ∧ got.length < f.length
  filled : ∀ f ∈ frames, f ≠ []

namespace Carries
variable {got pending x : List α} {frames : List (List α)} {f : List α}

theorem nil : Carries ([] : List α) [] [] := ⟨rfl, .inl rfl, by simp⟩

theorem put (h : Carries got pending frames) (hf : f ≠ []) : Carries got (pending ++ f) (frames ++ [f]) := by
  refine ⟨?_, ?_, ?_⟩
  · rw [← List.append_assoc, h.symbols, List.flatten_append, List.flatten_singleton]
  · rcases h.inside with hgot | ⟨g, rest, rfl, hlen⟩
    · exact .inl hgot
    · exact .inr ⟨g, rest ++ [f], rfl, hlen⟩
  · intro g hg
    rcases List.mem_append.mp hg with hg | hg
    · exact h.filled g hg
    · rwa [List.mem_singleton.mp hg]

theorem single (hf : f ≠ []) : Carries [] f [f] := by
  simpa using nil.put hf

theorem next (h : Carries got pending frames) (hpending : pending ≠ []) :
    ∃ f rest y, frames = f :: rest ∧ y ≠ [] ∧ f = got ++ y := by
  have hsymbols := h.symbols
  cases frames with
  | nil =>
    simp only [List.flatten_nil, List.append_eq_nil_iff] at hsymbols
    exact absurd hsymbols.2 hpending
  | cons f rest =>
    have hlen : got.length < f.length := by
      rcases h.inside with hgot | ⟨g, rest', heq, hlen⟩
      · have hpos := List.length_pos_iff.mpr (h.filled f (by simp))
        simpa [hgot] using hpos
      · cases heq
        exact hlen
    rw [List.flatten_cons] at hsymbols
    have hprefix : got <+: f := List.prefix_of_prefix_length_le ⟨pending, hsymbols⟩
      (List.prefix_append f _) (Nat.le_of_lt hlen)
    obtain ⟨y, rfl⟩ := hprefix
    refine ⟨_, rest, y, rfl, ?_, rfl⟩
    rintro rfl
    simp at hlen

theorem head {a : α} (h : Carries got (a :: pending) frames) :
    ∃ f rest y, frames = f :: rest ∧ got ++ [a] ++ y = f := by
  obtain ⟨f, rest, y, rfl, hy, rfl⟩ := h.next (by simp)
  have hsymbols := h.symbols
  rw [List.flatten_cons, List.append_assoc] at hsymbols
  obtain ⟨z, y, rfl⟩ := List.exists_cons_of_ne_nil hy
  obtain ⟨rfl, _⟩ := List.cons.inj (List.append_cancel_left hsymbols)
  exact ⟨_, rest, y, rfl, by simp⟩

/-- A piece that does not go past its frame leaves the frame on its way, or is its end. -/
theorem take (h : Carries got (x ++ pending) frames) (hx : x ≠ [])
    (hwithin : ∀ f rest, frames = f :: rest → (got ++ x).length ≤ f.length) :
    ∃ f rest, frames = f :: rest ∧
      ((∃ y, y ≠ [] ∧ got ++ x ++ y = f ∧ Carries (got ++ x) pending frames) ∨
        got ++ x = f ∧ Carries [] pending rest) := by
  obtain ⟨f, rest, y, rfl, hy, rfl⟩ := h.next (by simp [hx])
  have hle := hwithin _ rest rfl
  have hsymbols := h.symbols
  have hpieces : x ++ pending = y ++ rest.flatten := by
    rw [List.flatten_cons, List.append_assoc] at hsymbols
    exact List.append_cancel_left hsymbols
  have hprefix : x <+: y := List.prefix_of_prefix_length_le ⟨pending, hpieces⟩
    (List.prefix_append y _) (by simpa using hle)
  obtain ⟨z, rfl⟩ := hprefix
  have hrest : pending = z ++ rest.flatten := by
    rw [List.append_assoc] at hpieces
    exact List.append_cancel_left hpieces
  refine ⟨_, rest, rfl, ?_⟩
  by_cases hz : z = []
  · subst hz
    refine .inr ⟨by simp, by simpa using hrest, .inl rfl, ?_⟩
    exact fun g hg => h.filled g (List.mem_cons_of_mem _ hg)
  · refine .inl ⟨z, hz, by simp, ?_, .inr ⟨_, rest, rfl, ?_⟩, h.filled⟩
    · rw [hrest]
      simp
    · have hpos := List.length_pos_iff.mpr hz
      simp only [List.length_append]
      omega

theorem quiet (h : Carries got [] frames) : frames = [] ∧ got = [] := by
  have hsymbols := h.symbols
  rw [List.append_nil] at hsymbols
  cases frames with
  | nil => exact ⟨rfl, hsymbols⟩
  | cons f rest =>
    have hpos := List.length_pos_iff.mpr (h.filled f (by simp))
    have hlen := congrArg List.length hsymbols
    rw [List.flatten_cons, List.length_append] at hlen
    rcases h.inside with hgot | ⟨g, rest', heq, hlt⟩
    · simp only [hgot, List.length_nil] at hlen
      omega
    · cases heq
      omega

end Carries
