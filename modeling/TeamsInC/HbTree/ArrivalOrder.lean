import TeamsInC.HbTree.Multimap
import TeamsInC.Lib.Groups

/-!
# Several descriptors under one name

The names in the tree may repeat. Under each name the descriptors stand in the order in which they
came, whatever rotations there have been; a search gives one of them, not always the first, and a
removal takes out that one.
-/

set_option autoImplicit false

namespace TeamsInC
open BinaryTree LinkedTree Groups

/-- The descriptors under each name, in the order in which they came, and the one that a search
gives. -/
structure Roster where
  queue : CString → List Int
  chosen : CString → Int
  chosen_mem : ∀ name, chosen name ∈ queue name ∨ queue name = [] ∧ chosen name = -1

namespace Roster

def empty : Roster := ⟨fun _ => [], fun _ => -1, fun _ => .inr ⟨rfl, rfl⟩⟩

/-- What a call does. An insertion and a removal may change which descriptor is chosen. -/
inductive Step (R : Roster) : TreeOp → TreeAnswer → Roster → Prop
  | insert (key : CString) (fd : Int) (bal : Int8) (R' : Roster)
      (queue : R'.queue = Function.update R.queue key (R.queue key ++ [fd])) :
      Step R (.insert key fd bal) .inserted R'
  | remove (key : CString) (earlier later : List Int) (R' : Roster)
      (chosen : R.queue key = earlier ++ R.chosen key :: later)
      (queue : R'.queue = Function.update R.queue key (earlier ++ later)) :
      Step R (.remove key) (.removed true) R'
  | absent (key : CString) (none : R.queue key = []) : Step R (.remove key) (.removed false) R
  | search (key : CString) : Step R (.search key) (.found (R.chosen key)) R

/-- Calls in turn, each with its answer. -/
inductive Run : Roster → List (TreeOp × TreeAnswer) → Roster → Prop
  | nil (R : Roster) : Run R [] R
  | cons {R R' R'' : Roster} {op : TreeOp} {answer : TreeAnswer} {calls : List (TreeOp × TreeAnswer)}
      (step : Step R op answer R') (run : Run R' calls R'') : Run R ((op, answer) :: calls) R''

end Roster

def arrivals (name : CString) (ops : List TreeOp) : List Int :=
  ops.filterMap fun
    | .insert key fd _ => if key = name then some fd else none
    | _ => none

namespace Roster

theorem Step.queue_sublist {R R' : Roster} {op : TreeOp} {answer : TreeAnswer} (h : Step R op answer R')
    (name : CString) : (R'.queue name).Sublist (R.queue name ++ arrivals name [op]) := by
  cases h with
  | insert key fd bal _ hqueue =>
    by_cases hname : name = key
    · subst hname
      simp [hqueue, arrivals]
    · simp [hqueue, arrivals, Function.update_of_ne hname, Ne.symm hname]
  | remove key earlier later _ hchosen hqueue =>
    by_cases hname : name = key
    · subst hname
      simp [hqueue, hchosen, arrivals]
    · simp [hqueue, arrivals, Function.update_of_ne hname]
  | absent key hnone => simp [arrivals]
  | search key => simp [arrivals]

theorem Run.queue_sublist {R R' : Roster} {calls : List (TreeOp × TreeAnswer)} (h : Run R calls R')
    (name : CString) : (R'.queue name).Sublist (R.queue name ++ arrivals name (calls.map Prod.fst)) := by
  induction h with
  | nil R => simp [arrivals]
  | @cons R R₁ R' op answer calls step run ih =>
    have hsplit : arrivals name (op :: calls.map Prod.fst) =
        arrivals name [op] ++ arrivals name (calls.map Prod.fst) := List.filterMap_append (l := [op])
    rw [List.map_cons, hsplit, ← List.append_assoc]
    exact ih.trans ((step.queue_sublist name).append_right _)

theorem Run.append {R R' R'' : Roster} {calls calls' : List (TreeOp × TreeAnswer)} (h : Run R calls R')
    (h' : Run R' calls' R'') : Run R (calls ++ calls') R'' := by
  induction h with
  | nil R => exact h'
  | cons step run ih => exact .cons step (ih h')

end Roster

namespace HbTree

def roster {T : HbTree} (H : T.WellFormed) : Roster where
  queue := groups T.pairs
  chosen := Shape.search T.shape
  chosen_mem name := by
    rcases Shape.search_spec H.sorted name with h | ⟨h, hnone⟩
    · exact .inl (mem_groups.mpr h)
    · exact .inr ⟨groups_eq_nil hnone, h⟩

section
variable {T S : HbTree} {key : CString}

theorem WellFormed.of_insert_at (H : T.WellFormed) {fd : Int} {bal : Int8} {l : Link}
    (hkey : key.strlen < keyBytes) (h : T.hbTreeInsert key fd bal = .ok (S, l)) :
    S.WellFormed ∧ ∃ before after, T.pairs = before ++ after ∧
      S.pairs = before ++ (key, fd) :: after ∧ ∀ p ∈ after, key < p.1 := by
  have href := hbTreeInsert_refines fd bal H.rep hkey
  cases hs : Shape.insert T.shape T.next key fd bal with
  | none =>
    rw [hs] at href
    have hnull : T.hbTreeInsert key fd bal = .error .nullDeref := href
    rw [h] at hnull
    cases hnull
  | some s =>
    rw [hs, h] at href
    obtain ⟨p, hp, hrep, _⟩ := href.some
    cases hp
    obtain ⟨before, after, ht, hpairs, hafter⟩ := Shape.pairs_insert_at hs
    refine ⟨hrep.wellFormed ((Shape.pairs_insert hs).2 H.sorted), before, after, ht, ?_, hafter H.sorted⟩
    rw [hrep.pairs_eq]
    exact hpairs

theorem WellFormed.of_remove_at (H : T.WellFormed) (h : T.hbTreeRemove key = .ok (S, true)) :
    S.WellFormed ∧ ∃ before after, T.pairs = before ++ (key, Shape.search T.shape key) :: after ∧
      S.pairs = before ++ after := by
  have href := hbTreeRemove_refines H.rep key
  cases hs : Shape.remove T.shape key with
  | none =>
    rw [hs] at href
    have hnull : T.hbTreeRemove key = .error .nullDeref := href
    rw [h] at hnull
    cases hnull
  | some q =>
    rw [hs, h] at href
    obtain ⟨p, hp, hrep, hfound⟩ := href.some
    cases hp
    obtain ⟨s, found⟩ := q
    obtain rfl : true = found := hfound
    obtain ⟨before, after, ht, hpairs⟩ := Shape.pairs_remove_at hs
    refine ⟨hrep.wellFormed ((Shape.pairs_remove_true hs).2 H.sorted), before, after, ht, ?_⟩
    rw [hrep.pairs_eq]
    exact hpairs

/-- What the memory of the node held is not seen. -/
theorem insert_roster {fd : Int} {bal : Int8} {l : Link} (H : T.WellFormed) (hkey : key.strlen < keyBytes)
    (h : T.hbTreeInsert key fd bal = .ok (S, l)) (bal' : Int8) :
    ∃ H' : S.WellFormed, (roster H).Step (.insert key fd bal') .inserted (roster H') := by
  obtain ⟨H', before, after, ht, hpairs, hafter⟩ := H.of_insert_at hkey h
  refine ⟨H', .insert key fd bal' _ ?_⟩
  change groups S.pairs = Function.update (groups T.pairs) key (groups T.pairs key ++ [fd])
  rw [hpairs, ht]
  exact groups_join fd fun p hp => (hafter p hp).ne'

theorem remove_roster {found : Bool} (H : T.WellFormed) (h : T.hbTreeRemove key = .ok (S, found)) :
    ∃ H' : S.WellFormed, (roster H).Step (.remove key) (.removed found) (roster H') := by
  cases found with
  | true =>
    obtain ⟨H', before, after, ht, hpairs⟩ := H.of_remove_at h
    refine ⟨H', .remove key (groups before key) (groups after key) _ ?_ ?_⟩
    · change groups T.pairs key = _
      rw [ht]
      exact groups_part before after key _
    · change groups S.pairs = Function.update (groups T.pairs) key _
      rw [hpairs, ht]
      exact groups_leave before after key _
  | false =>
    obtain rfl := hbTreeRemove_false h
    exact ⟨H, .absent key (groups_eq_nil (H.of_remove_false h).2.2)⟩

theorem search_roster {fd : Int} (H : T.WellFormed) (h : T.hbTreeSearch key = .ok fd) :
    (roster H).Step (.search key) (.found fd) (roster H) := by
  rw [hbTreeSearch_eq H.rep key] at h
  cases h
  exact .search key

theorem call_roster {op : TreeOp} {answer : TreeAnswer} (H : T.WellFormed) (hop : op.Fits)
    (h : T.call op = .ok (S, answer)) : ∃ H' : S.WellFormed, (roster H).Step op answer (roster H') := by
  cases op with
  | insert key fd bal =>
    simp only [call] at h
    cases hi : T.hbTreeInsert key fd bal with
    | error f =>
      rw [hi] at h
      cases h
    | ok q =>
      rw [hi] at h
      cases h
      exact insert_roster H hop hi bal
  | remove key =>
    simp only [call] at h
    cases hr : T.hbTreeRemove key with
    | error f =>
      rw [hr] at h
      cases h
    | ok q =>
      rw [hr] at h
      cases h
      exact remove_roster H hr
  | search key =>
    simp only [call] at h
    cases hs : T.hbTreeSearch key with
    | error f =>
      rw [hs] at h
      cases h
    | ok fd =>
      rw [hs] at h
      cases h
      exact ⟨H, search_roster H hs⟩

theorem calls_roster {ops : List TreeOp} {answers : List TreeAnswer} (H : T.WellFormed)
    (hops : ∀ op ∈ ops, op.Fits) (h : T.calls ops = .ok (S, answers)) :
    ∃ (H' : S.WellFormed) (done : List (TreeOp × TreeAnswer)), done.map Prod.fst = ops ∧
      done.map Prod.snd = answers ∧ (roster H).Run done (roster H') := by
  induction ops generalizing T answers with
  | nil =>
    cases h
    exact ⟨H, [], rfl, rfl, .nil _⟩
  | cons op ops ih =>
    rw [List.forall_mem_cons] at hops
    simp only [calls] at h
    cases hop : T.call op with
    | error f =>
      rw [hop] at h
      cases h
    | ok q =>
      obtain ⟨T₁, answer⟩ := q
      rw [hop] at h
      simp only [ok_bind] at h
      cases hrest : T₁.calls ops with
      | error f =>
        rw [hrest] at h
        cases h
      | ok q =>
        obtain ⟨S', rest⟩ := q
        rw [hrest] at h
        cases h
        obtain ⟨H₁, hstep⟩ := call_roster H hops.1 hop
        obtain ⟨H', done, rfl, rfl, hrun⟩ := ih H₁ hops.2 hrest
        exact ⟨H', (op, answer) :: done, rfl, rfl, .cons hstep hrun⟩

end

theorem roster_new : roster wellFormed_new = Roster.empty := by
  have hshape : hbTreeNew.shape = .nil := represents_new.shape_eq
  have hqueue : groups hbTreeNew.pairs = fun _ => [] := by
    rw [pairs_new]
    rfl
  have hchosen : Shape.search hbTreeNew.shape = fun _ => -1 := by
    rw [hshape]
    rfl
  simp only [roster, Roster.empty, hqueue, hchosen]

/-- In any sequence of calls from the empty tree, what is stored under a name is a queue: a
descriptor joins at the end, a removal takes out the one that a search would have given and the
others keep their order, and so they stand in the order in which they were inserted. -/
theorem calls_refine_roster {T : HbTree} {ops : List TreeOp} {answers : List TreeAnswer}
    (hops : ∀ op ∈ ops, op.Fits) (h : hbTreeNew.calls ops = .ok (T, answers)) :
    ∃ R t done, done.map Prod.fst = ops ∧ done.map Prod.snd = answers ∧ Roster.empty.Run done R ∧
      LinkedTree.Represents T.heap T.root t ∧
      ∀ name, groups (Shape.pairs t) name = R.queue name ∧ T.hbTreeSearch name = .ok (R.chosen name) ∧
        (R.queue name).Sublist (arrivals name ops) := by
  obtain ⟨H, done, hops', hanswers, hrun⟩ := calls_roster wellFormed_new hops h
  rw [roster_new] at hrun
  refine ⟨roster H, T.shape, done, hops', hanswers, hrun, H.rep.linked, fun name => ?_⟩
  exact ⟨rfl, hbTreeSearch_eq H.rep name, hops' ▸ hrun.queue_sublist name⟩

def thrice : List TreeOp :=
  let ann := CString.ofBuffer (ascii ['a', 'n', 'n'])
  [.insert ann 5 0, .insert ann 6 0, .insert ann 7 0, .search ann, .remove ann]

theorem thrice_refine_roster :
    ∃ (T : HbTree) (R : Roster) (t : Shape) (done : List (TreeOp × TreeAnswer)),
      done.map Prod.fst = thrice ∧
      done.map Prod.snd = [.inserted, .inserted, .inserted, .found 6, .removed true] ∧
      Roster.empty.Run done R ∧ LinkedTree.Represents T.heap T.root t ∧
      ∀ name, groups (Shape.pairs t) name = R.queue name ∧ T.hbTreeSearch name = .ok (R.chosen name) ∧
        (R.queue name).Sublist (arrivals name thrice) := by
  have hanswers : (hbTreeNew.calls thrice).toOption.map Prod.snd =
      some [.inserted, .inserted, .inserted, .found 6, .removed true] := by decide +kernel
  cases h : hbTreeNew.calls thrice with
  | error f =>
    rw [h] at hanswers
    cases hanswers
  | ok q =>
    obtain ⟨T, answers⟩ := q
    rw [h] at hanswers
    obtain rfl := Option.some.inj hanswers
    exact ⟨T, calls_refine_roster (by decide) h⟩

end HbTree
end TeamsInC
