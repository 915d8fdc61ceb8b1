import TeamsInC.HbTree.ArrivalOrder
import TeamsInC.Server.Service

/-!
# One name, several sessions

The server lets a name log in again while it has a session. What it does to the tree is seen in
its effects, and so the descriptors under a name are a queue in the order of the logins.
-/

set_option autoImplicit false

namespace TeamsInC
namespace Server
open Bytes Groups HbTree

/-- The call of the tree that an effect shows. What the memory of a node held is not seen. -/
def treeCall : Effect → Option (TreeOp × TreeAnswer)
  | .insert key fd => some (.insert key fd 0, .inserted)
  | .remove key found => some (.remove key, .removed found)
  | .forward _ toUser dest _ _ => some (.search toUser, .found dest)
  | _ => none

def treeCalls (xs : List Effect) : List (TreeOp × TreeAnswer) := xs.filterMap treeCall

def loginsOf (name : CString) (xs : List Effect) : List Int :=
  xs.filterMap fun
    | .insert key fd => if key = name then some fd else none
    | _ => none

theorem arrivals_treeCalls (name : CString) (xs : List Effect) :
    arrivals name ((treeCalls xs).map Prod.fst) = loginsOf name xs := by
  induction xs with
  | nil => rfl
  | cons x xs ih =>
    cases x <;> simp_all [arrivals, treeCalls, treeCall, loginsOf, List.filterMap_cons]

@[simp] theorem treeCalls_append (xs ys : List Effect) : treeCalls (xs ++ ys) = treeCalls xs ++ treeCalls ys :=
  List.filterMap_append

@[simp] theorem treeCalls_misuseOf {α : Type} (fd : Int) (item : Item) (p : Ptr α) :
    treeCalls (misuseOf fd item p) = [] := by cases p <;> rfl

theorem Headed.treeCalls_eq {c d : ClientConnData} {m : Mem} {pre : List Effect} (h : Headed c m pre d) :
    treeCalls pre = [] := by cases h <;> rfl

section
variable {c : ClientConnData} {b : List UInt8} {tree tree' : HbTree} {env : Env} {effs : List Effect}
  {c' : Option ClientConnData}

theorem DataStep.roster (h : DataStep c b tree env effs (.ok (c', tree'))) (H : tree.WellFormed) :
    ∃ H' : tree'.WellFormed, (HbTree.roster H).Run (treeCalls effs) (HbTree.roster H') := by
  have granted {d : ClientConnData} {l : LinkedTree.Link}
      (hv : authVerify (loginUser d (env.mem b)) (loginPassword d (env.mem b)) = 0)
      (hi : tree.hbTreeInsert (loginUser d (env.mem b)) d.fd env.bal = .ok (tree', l)) :
      ∃ H' : tree'.WellFormed, (HbTree.roster H).Run
        [(.insert (loginUser d (env.mem b)) d.fd 0, .inserted)] (HbTree.roster H') := by
    obtain ⟨H', hstep⟩ := insert_roster H (accounts_fit _ (authVerify_mem hv).1) hi 0
    exact ⟨H', .cons hstep (.nil _)⟩
  cases h with
  | idle => exact ⟨H, .nil _⟩
  | short => exact ⟨H, .nil _⟩
  | badHeader =>
    have hnone : treeCalls (.decode c.fd (headerReads c.offset) c.bufferUsed.toNat :: .close c.fd ::
        .misuse c.fd .ptr :: misuseOf c.fd .user c.user) = [] := treeCalls_misuseOf _ _ _
    exact ⟨H, hnone ▸ .nil _⟩
  | wait h => exact ⟨H, h.treeCalls_eq ▸ .nil _⟩
  | rejected h =>
    rw [treeCalls_append, treeCalls_append, h.treeCalls_eq, treeCalls_misuseOf, List.append_nil]
    exact ⟨H, .nil _⟩
  | notInserted h hs hp hlen hv hi =>
    exact absurd rfl (H.of_insert (accounts_fit _ (authVerify_mem hv).1) hi).1
  | accepted h hs hp hlen hv hi hw =>
    rw [treeCalls_append, h.treeCalls_eq]
    exact granted hv hi
  | unanswered h hs hp hlen hv hi hw =>
    rw [treeCalls_append, h.treeCalls_eq]
    exact granted hv hi
  | forwarded h hs hp hlen hdest hu =>
    rw [treeCalls_append, h.treeCalls_eq]
    exact ⟨H, .cons (search_roster H hdest) (.nil _)⟩

end

theorem EventStep.roster {s s' : ServerState} {e : Event} {effs : List Effect}
    (h : EventStep s e effs (.ok s')) (H : s.tree.WellFormed) :
    ∃ H' : s'.tree.WellFormed, (HbTree.roster H).Run (treeCalls effs) (HbTree.roster H') := by
  cases h with
  | accept => exact ⟨H, .nil _⟩
  | again => exact ⟨H, .nil _⟩
  | @drop _ fd c he hc hu =>
    have hnone : treeCalls (.close c.fd :: freeEffects c) = [] := by
      change treeCalls (freeEffects c) = []
      simp [freeEffects]
    exact ⟨H, hnone ▸ .nil _⟩
  | @dropUser _ fd c u tree' found he hc hu hr =>
    have hcalls : treeCalls (.remove u found :: .close c.fd :: freeEffects c) =
        [(.remove u, .removed found)] := by
      change (.remove u, .removed found) :: treeCalls (freeEffects c) = _
      simp [freeEffects]
    obtain ⟨H', hstep⟩ := remove_roster H hr
    exact ⟨H', hcalls ▸ .cons hstep (.nil _)⟩
  | data _ _ _ h => exact h.roster H

theorem run_roster {log : List (Event × List Effect)} {s : ServerState} (run : Run step Enabled start log s) :
    ∃ H : s.tree.WellFormed, Roster.empty.Run (treeCalls (log.flatMap Prod.snd)) (roster H) := by
  refine run.invariant (I := fun log s => ∃ H : s.tree.WellFormed,
    Roster.empty.Run (treeCalls (log.flatMap Prod.snd)) (roster H)) ?_ ?_
  · exact ⟨wellFormed_new, roster_new ▸ .nil _⟩
  · rintro log s s' e ⟨H, hrun⟩ he hok
    have h := step_event he
    rw [hok] at h
    obtain ⟨H', hstep⟩ := h.roster H
    refine ⟨H', ?_⟩
    rw [List.flatMap_append, treeCalls_append, List.flatMap_singleton]
    exact hrun.append hstep

/-- In every run, the descriptors that the tree holds under a name are a queue: each accepted login
joins at the end, a frame goes to one of them, and the removal at the end of a session takes out
the one to which a frame would have gone, whichever session ends. -/
theorem server_refines_roster {log : List (Event × List Effect)} {s : ServerState}
    (run : Run step Enabled start log s) :
    ∃ R, Roster.empty.Run (treeCalls (log.flatMap Prod.snd)) R ∧
      ∀ name, groups s.tree.pairs name = R.queue name ∧ s.tree.hbTreeSearch name = .ok (R.chosen name) ∧
        (R.queue name).Sublist (loginsOf name (log.flatMap Prod.snd)) := by
  obtain ⟨H, hrun⟩ := run_roster run
  refine ⟨roster H, hrun, fun name => ⟨rfl, hbTreeSearch_eq H.rep name, ?_⟩⟩
  exact arrivals_treeCalls name _ ▸ hrun.queue_sublist name

def thriceIn : List (Event × List Effect) × ServerState :=
  (Run.exec step (fun s e => decide (Enabled s e)) ([], start)
    [.accept 5 zeroed, .accept 6 zeroed, .accept 7 zeroed, login 5 '1', login 6 '1', login 7 '1',
      .accept 8 zeroed, login 8 '2', chat 8 '1', .eof 7]).get (by decide +kernel)

theorem thriceIn_refines_roster :
    ∃ R, Roster.empty.Run (treeCalls (thriceIn.1.flatMap Prod.snd)) R ∧
      ∀ name, groups thriceIn.2.tree.pairs name = R.queue name ∧
        thriceIn.2.tree.hbTreeSearch name = .ok (R.chosen name) ∧
        (R.queue name).Sublist (loginsOf name (thriceIn.1.flatMap Prod.snd)) :=
  server_refines_roster (Run.run_exec_get (fun _ _ h => by simpa using h) _)

end Server
end TeamsInC
