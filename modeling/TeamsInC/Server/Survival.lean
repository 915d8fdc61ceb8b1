import TeamsInC.HbTree.Height
import TeamsInC.Server.DecodeBounds
import TeamsInC.Server.Releases
import TeamsInC.Server.Service

/-!
# What the server survives

The bytes of a peer lead the server to no NULL pointer, no block that has been freed and no
buffer that is too small: a fault can only come from the tree. Where the tree is let balance,
no event fails.
-/

set_option autoImplicit false

namespace TeamsInC
namespace Server

section
variable {c : ClientConnData} {b : List UInt8} {tree tree' : HbTree} {env : Env} {effs : List Effect}
  {fd : Int}

theorem DataStep.fault_in_tree {f : Fault} (h : DataStep c b tree env effs (.error f)) (hc : Sound fd c)
    (hshaped : Shaped c) (hwf : tree.WellFormed) (hfits : chatFits c (env.mem b)) :
    ∃ u ∈ accounts, tree.hbTreeInsert u fd env.bal = .error f := by
  cases h with
  | noPtr h hp =>
    rcases h.kind hshaped with ⟨_, t, ht⟩ | ⟨_, _, t, ht⟩ <;> simp [ht, Ptr.deref] at hp
  | badPtr h hp hkind =>
    rcases h.kind hshaped with ⟨hs, t, ht⟩ | ⟨hs, _, t, ht⟩ <;> rw [hp] at ht <;> cases ht <;>
      simp [hs] at hkind
  | insertFault h _ _ _ hv hi =>
    rw [(h.sound hc).1.fd_eq] at hi
    exact ⟨_, (authVerify_mem hv).1, hi⟩
  | notForwarded h hs _ _ hf =>
    obtain ⟨dest, hdest, _⟩ := hwf.search (chatTo _ (env.mem b))
    obtain ⟨u, _, hu⟩ := (h.sound hc).1.message hs
    rcases hf with hf | ⟨_, _, hf⟩
    · rw [hdest] at hf
      cases hf
    · rw [hu] at hf
      cases hf
  | overran h _ hp hlen _ hu hlong =>
    have hle := h.frame_fits hp hlen hu hfits
    omega

theorem DataStep.tree_eq {c' : Option ClientConnData} (h : DataStep c b tree env effs (.ok (c', tree')))
    (hc : Sound fd c) :
    tree' = tree ∨ ∃ u ∈ accounts, ∃ node, tree.hbTreeInsert u fd env.bal = .ok (tree', node) := by
  have inserted {pre x node} (hx : Headed c (env.mem b) pre x)
      (hv : authVerify (loginUser x (env.mem b)) (loginPassword x (env.mem b)) = 0)
      (hi : tree.hbTreeInsert (loginUser x (env.mem b)) x.fd env.bal = .ok (tree', node)) :
      ∃ u ∈ accounts, ∃ node, tree.hbTreeInsert u fd env.bal = .ok (tree', node) := by
    rw [(hx.sound hc).1.fd_eq] at hi
    exact ⟨_, (authVerify_mem hv).1, node, hi⟩
  cases h with
  | idle => exact .inl rfl
  | short => exact .inl rfl
  | badHeader => exact .inl rfl
  | wait => exact .inl rfl
  | rejected => exact .inl rfl
  | forwarded => exact .inl rfl
  | notInserted hx _ _ _ hv hi => exact .inr (inserted hx hv hi)
  | accepted hx _ _ _ hv hi => exact .inr (inserted hx hv hi)
  | unanswered hx _ _ _ hv hi => exact .inr (inserted hx hv hi)

end

/-- A new node starts with the balance 0, and a removal walks up a tree that can be balanced. -/
def treeFit (s : ServerState) : Event → Bool
  | .data _ _ env => env.bal = 0
  | .epollerr fd => closes fd
  | .eof fd => closes fd
  | _ => true
where
  closes (fd : Int) : Bool :=
    match s.conns fd with
    | none => true
    | some c =>
      match c.user with
      | .live u => decide (Shape.RemoveClean s.tree.shape u)
      | _ => true

/-- What the server keeps of its records and its tree. -/
structure Healthy (s : ServerState) : Prop where
  sound : SoundState s
  settled : ∀ fd c, s.conns fd = some c → Settled c
  shaped : ∀ fd c, s.conns fd = some c → Shaped c
  tree : s.tree.BalancedTree

section
variable {s : ServerState} {e : Event} {effs : List Effect} {fd : Int}

theorem treeFit_remove (he : e = .epollerr fd ∨ e = .eof fd) {c : ClientConnData} {u : CString}
    (hc : s.conns fd = some c) (hu : c.user = .live u) (hfit : treeFit s e) :
    Shape.RemoveClean s.tree.shape u := by
  rcases he with rfl | rfl <;> simpa [treeFit, treeFit.closes, hc, hu] using hfit

theorem remove_fit (H : s.tree.BalancedTree) {u : CString} (hclean : Shape.RemoveClean s.tree.shape u) :
    ∃ tree' found, s.tree.hbTreeRemove u = .ok (tree', found) ∧ tree'.BalancedTree := by
  obtain ⟨⟨t, found⟩, ht, hbal⟩ := Shape.remove_balanced H.balanced hclean
  have href := HbTree.hbTreeRemove_refines H.rep u
  rw [ht] at href
  obtain ⟨⟨tree', b⟩, hremove, hrep, _⟩ := href.some
  exact ⟨tree', b, hremove, hrep.balancedTree hbal⟩

theorem EventStep.survived {f : Fault} (h : EventStep s e effs (.error f)) (H : Healthy s)
    (hfit : treeFit s e) (hframes : framesFit s e) : False := by
  cases h with
  | @dropFault _ fd c _ he hc hf =>
    rcases hf with ⟨hf, _⟩ | ⟨u, hu, hf⟩
    · exact (H.sound.sound fd c hc).user hf
    · obtain ⟨tree', found, hremove, _⟩ := remove_fit H.tree (treeFit_remove he hc hu hfit)
      rw [hremove] at hf
      cases hf
  | notReceived hc hr =>
    rw [(H.settled _ _ hc).receive_eq (Chunk.le _)] at hr
    cases hr
  | dataFault hc hr hb h =>
    obtain ⟨hsound, _⟩ := receive_sound hr (H.sound.sound _ _ hc)
    have hbal : (_ : Env).bal = 0 := of_decide_eq_true hfit
    simp only [framesFit, arrived_eq hc hr hb] at hframes
    obtain ⟨u, hu, hi⟩ := h.fault_in_tree hsound (receive_shaped hr (H.shaped _ _ hc)) H.sound.wf hframes
    obtain ⟨tree', node, hinsert, _⟩ := HbTree.hbTreeInsert_zeroed H.tree (accounts_fit u hu) _
    rw [hbal, hinsert] at hi
    cases hi

theorem EventStep.balanced {s' : ServerState} (h : EventStep s e effs (.ok s')) (H : Healthy s)
    (hfit : treeFit s e) : s'.tree.BalancedTree := by
  cases h with
  | accept => exact H.tree
  | again => exact H.tree
  | drop => exact H.tree
  | dropUser he hc hu hr =>
    obtain ⟨tree', found, hremove, hbal⟩ := remove_fit H.tree (treeFit_remove he hc hu hfit)
    rw [hremove] at hr
    cases hr
    exact hbal
  | data hc hr hb h =>
    obtain ⟨hsound, _⟩ := receive_sound hr (H.sound.sound _ _ hc)
    have hbal : (_ : Env).bal = 0 := of_decide_eq_true hfit
    rcases h.tree_eq hsound with rfl | ⟨u, hu, node, hi⟩
    · exact H.tree
    · obtain ⟨tree', node', hinsert, hbalanced, _⟩ :=
        HbTree.hbTreeInsert_zeroed H.tree (accounts_fit u hu) _
      rw [hbal, hinsert] at hi
      cases hi
      exact hbalanced

end

theorem run_healthy {log : List (Event × List Effect)} {s : ServerState}
    (run : Run step (fun s e => (Enabled s e ∧ startsNameless e) ∧ treeFit s e) start log s)
    (hreply : ∀ p ∈ log, ∀ x ∈ p.2, answered x) : Healthy s := by
  have hrun : Run step Enabled start log s := run.mono fun _ _ h => h.1.1
  refine ⟨run_sound (run.mono fun _ _ h => h.1), run_settled hrun hreply,
    run_shaped hrun, ?_⟩
  clear hrun
  induction run with
  | nil => exact HbTree.balancedTree_new
  | @snoc log s s' e run ha hok ih =>
    rw [List.forall_mem_append] at hreply
    have hrun : Run step Enabled start log s := run.mono fun _ _ h => h.1.1
    have H : Healthy s := ⟨run_sound (run.mono fun _ _ h => h.1),
      run_settled hrun hreply.1, run_shaped hrun, ih hreply.1⟩
    exact (hok ▸ step_event ha.1.1 : EventStep s e _ (.ok s')).balanced H ha.2

/-- What an event asks of the memory of the server, of its peer and of the tree. -/
structure Bearable (s : ServerState) (e : Event) : Prop where
  enabled : Enabled s e
  none : startsNone e
  tree : treeFit s e
  frames : framesFit s e
  header : bringsHeader s e
  fields : BringsFields s e

instance (s : ServerState) (e : Event) : Decidable (Bearable s e) :=
  decidable_of_iff (Enabled s e ∧ startsNone e ∧ treeFit s e ∧ framesFit s e ∧ bringsHeader s e ∧
    BringsFields s e) ⟨fun ⟨h1, h2, h3, h4, h5, h6⟩ => ⟨h1, h2, h3, h4, h5, h6⟩,
      fun ⟨h1, h2, h3, h4, h5, h6⟩ => ⟨h1, h2, h3, h4, h5, h6⟩⟩

theorem Bearable.nameless {s : ServerState} {e : Event} (h : Bearable s e) :
    (Enabled s e ∧ startsNameless e) ∧ treeFit s e := by
  refine ⟨⟨h.enabled, ?_⟩, h.tree⟩
  cases e with
  | accept fd junk =>
    obtain ⟨_, huser⟩ : junk.ptr = .null ∧ junk.user = .null := by simpa [startsNone] using h.none
    simpa [startsNameless] using huser
  | _ => rfl

/-- Where every reply is taken in full and every event is bearable, the next bearable event is
handled: the tree stays balanced, nothing released is released again, and no decoder leaves the
bytes received. -/
theorem server_survives {log : List (Event × List Effect)} {s : ServerState} {e : Event}
    (run : Run step Bearable start log s) (hreply : ∀ p ∈ log, ∀ x ∈ p.2, answered x)
    (he : Bearable s e) :
    (∃ s', (step s e).result = .ok s' ∧ s'.tree.BalancedTree) ∧
      ∀ x ∈ (step s e).effects, InReceived x ∧ isMisuse x = false := by
  have H := run_healthy (run.mono fun _ _ h => h.nameless) hreply
  have htidy := run_tidy (run.mono fun _ _ h => ⟨h.enabled, h.none⟩)
  have hstep := step_event he.enabled
  have hreceived := (hstep.received_iff H.shaped).mpr he.fields
  have hreleased := (hstep.disciplined_iff htidy).mpr he.header
  refine ⟨?_, fun x hx => ⟨hreceived x hx, hreleased.1 x hx⟩⟩
  cases hres : (step s e).result with
  | error f =>
    rw [hres] at hstep
    exact (hstep.survived H he.tree he.frames).elim
  | ok s' =>
    rw [hres] at hstep
    exact ⟨s', rfl, hstep.balanced H he.tree⟩

def crowdedEvents : List Event :=
  [.accept 5 zeroed, .accept 6 zeroed, .accept 7 zeroed, .accept 8 zeroed, .accept 9 zeroed,
    login 5 '2', login 6 '1', login 7 '3', login 8 '4', login 9 'x', .eof 6, chat 5 '4']

def crowded : List (Event × List Effect) × ServerState :=
  (Run.exec step (fun s e => decide (Bearable s e)) ([], start) crowdedEvents).get (by decide +kernel)

theorem crowded_run : Run step Bearable start crowded.1 crowded.2 :=
  Run.run_exec_get (fun _ _ h => by simpa using h) _

theorem crowded_survives :
    (∃ s', (step crowded.2 (.epollerr 5)).result = .ok s' ∧ s'.tree.BalancedTree) ∧
      ∀ x ∈ (step crowded.2 (.epollerr 5)).effects, InReceived x ∧ isMisuse x = false :=
  server_survives crowded_run (by decide +kernel) (by decide +kernel)

end Server
end TeamsInC
