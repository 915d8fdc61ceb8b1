import Mathlib.Data.Multiset.UnionInter
import Mathlib.Logic.Function.Basic
import Mathlib.Tactic.Common

/-!
# Directories of sessions

Connections come, get a name and go. A directory holds entries of a name with the connection
that has it; an entry is struck out by its name only, so which one goes where several
connections have the name is left open.
-/

set_option autoImplicit false

variable {κ ν : Type}

/-- What a connection is. One that is `entered` has an entry, but has not been told so. -/
inductive Standing (ν : Type) where
  | away
  | guest
  | entered (u : ν)
  | member (u : ν)
deriving DecidableEq

def Standing.name : Standing ν → Option ν
  | .away => none
  | .guest => none
  | .entered u => some u
  | .member u => some u

@[ext]
structure Directory (κ ν : Type) where
  standing : κ → Standing ν
  entries : Multiset (ν × κ)

namespace Directory

def empty : Directory κ ν := ⟨fun _ => .away, 0⟩

/-- A possible answer to a search for the name. -/
def Finds (d : Directory κ ν) (u : ν) : Option κ → Prop
  | some k => (u, k) ∈ d.entries
  | none => ∀ k, (u, k) ∉ d.entries

section Operations
variable [DecidableEq κ]

def place (d : Directory κ ν) (k : κ) (p : Standing ν) : Directory κ ν :=
  { d with standing := Function.update d.standing k p }

def enter (d : Directory κ ν) (k : κ) (u : ν) (p : Standing ν) : Directory κ ν :=
  ⟨Function.update d.standing k p, (u, k) ::ₘ d.entries⟩

/-- The connection goes, and with it the entry that the search for its name has found. -/
def leave [DecidableEq ν] (d : Directory κ ν) (k : κ) (u : ν) : Option κ → Directory κ ν
  | none => d.place k .away
  | some k' => ⟨Function.update d.standing k .away, d.entries.erase (u, k')⟩

end Operations

/-- The entries are those of the members, and no two members have one name. -/
structure Exact (d : Directory κ ν) : Prop where
  nodup : d.entries.Nodup
  member : ∀ u k, (u, k) ∈ d.entries ↔ d.standing k = .member u
  alone : ∀ u k k', d.standing k = .member u → d.standing k' = .member u → k = k'

namespace Exact
variable {d : Directory κ ν} {k : κ} {u : ν}

theorem empty : (empty : Directory κ ν).Exact where
  nodup := Multiset.nodup_zero
  member := by simp [Directory.empty]
  alone := by simp [Directory.empty]

theorem finds_iff (H : d.Exact) {r : Option κ} (h : d.Finds u r) (k : κ) :
    r = some k ↔ d.standing k = .member u := by
  cases r with
  | none =>
    refine ⟨by simp, ?_⟩
    intro hk
    exact absurd ((H.member u k).mpr hk) (h k)
  | some k' =>
    have hk' : d.standing k' = .member u := (H.member u k').mp h
    constructor
    · intro hr
      cases hr
      exact hk'
    · intro hk
      rw [H.alone u k' k hk' hk]

variable [DecidableEq κ]

theorem place (H : d.Exact) {p : Standing ν} (hold : ∀ u, d.standing k ≠ .member u)
    (hnew : ∀ u, p ≠ .member u) : (d.place k p).Exact := by
  have hsame (u : ν) (k' : κ) :
      (d.place k p).standing k' = .member u ↔ d.standing k' = .member u := by
    by_cases hk : k' = k
    · subst hk
      simp [Directory.place, hold u, hnew u]
    · simp [Directory.place, hk]
  refine ⟨H.nodup, ?_, ?_⟩
  · intro u k'
    rw [hsame]
    exact H.member u k'
  · intro u k' k''
    rw [hsame, hsame]
    exact H.alone u k' k''

theorem enter (H : d.Exact) (hold : ∀ u, d.standing k ≠ .member u) (hfree : d.Finds u none) :
    (d.enter k u (.member u)).Exact := by
  have hno (k' : κ) : d.standing k' ≠ .member u := fun hk' => hfree k' ((H.member u k').mpr hk')
  have hother {k' : κ} (hk : k' ≠ k) : (d.enter k u (.member u)).standing k' = d.standing k' :=
    Function.update_of_ne hk _ _
  have hself : (d.enter k u (.member u)).standing k = .member u := Function.update_self _ _ _
  refine ⟨Multiset.nodup_cons.mpr ⟨hfree k, H.nodup⟩, ?_, ?_⟩
  · intro u' k'
    simp only [Directory.enter, Multiset.mem_cons, Prod.mk.injEq, H.member]
    by_cases hk : k' = k
    · subst hk
      simp [hold u', eq_comm]
    · simp [hk]
  · intro u' k' k'' h' h''
    by_cases hk' : k' = k
    · by_cases hk'' : k'' = k
      · rw [hk', hk'']
      · rw [hother hk''] at h''
        rw [hk', hself] at h'
        cases h'
        exact absurd h'' (hno k'')
    · rw [hother hk'] at h'
      by_cases hk'' : k'' = k
      · rw [hk'', hself] at h''
        cases h''
        exact absurd h' (hno k')
      · rw [hother hk''] at h''
        exact H.alone u' k' k'' h' h''

theorem leave [DecidableEq ν] (H : d.Exact) (hk : d.standing k = .member u) {r : Option κ}
    (hr : d.Finds u r) : (d.leave k u r).Exact := by
  obtain rfl := (H.finds_iff hr k).mpr hk
  have hother {k' : κ} {u' : ν} (h : (d.leave k u (some k)).standing k' = .member u') :
      k' ≠ k ∧ d.standing k' = .member u' := by
    by_cases hk' : k' = k
    · subst hk'
      simp [Directory.leave] at h
    · exact ⟨hk', by simpa [Directory.leave, hk'] using h⟩
  refine ⟨H.nodup.erase _, ?_, ?_⟩
  · intro u' k'
    simp only [Directory.leave, Multiset.Nodup.mem_erase_iff H.nodup, H.member, ne_eq, Prod.mk.injEq]
    by_cases hk' : k' = k
    · subst hk'
      simp [hk, eq_comm]
    · simp [hk']
  · intro u' k' k'' h' h''
    exact H.alone u' k' k'' (hother h').2 (hother h'').2

end Exact
end Directory
