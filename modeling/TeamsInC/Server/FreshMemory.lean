import TeamsInC.Server.Streams

/-!
# What malloc left in a new record

`CreateNewClient` leaves `ptr` and `user` as they are. Where `ptr` is NULL, the state of a record
says whether `user` has been set since; until then only closes and refusals read it.
-/

set_option autoImplicit false

namespace TeamsInC
namespace Server

/-- The same but for what `malloc` left in `user`. -/
structure Alike (c c' : ClientConnData) : Prop where
  rest : c' = { c with user := c'.user }
  user : userSet c → c'.user = c.user

theorem Alike.refl (c : ClientConnData) : Alike c c := ⟨rfl, fun _ => rfl⟩

theorem Alike.userSet_eq {c c' : ClientConnData} (h : Alike c c') : userSet c' = userSet c := by
  rw [h.rest]
  rfl

/-- The same fault, or alike records and the same tree. -/
def Agree : Except Fault (Option ClientConnData × HbTree) →
    Except Fault (Option ClientConnData × HbTree) → Prop
  | .ok (some c, tree), .ok (some c', tree') => Alike c c' ∧ tree' = tree
  | .ok (none, tree), .ok (none, tree') => tree' = tree
  | .error f, .error f' => f' = f
  | _, _ => False

theorem Agree.refl (r : Except Fault (Option ClientConnData × HbTree)) : Agree r r := by
  match r with
  | .ok (some c, tree) => exact ⟨.refl c, rfl⟩
  | .ok (none, tree) => exact rfl
  | .error f => exact rfl

theorem caseAuth_result {d : ClientConnData} {tree : HbTree} {env : Env} {b : List UInt8}
    {t : MessageAuth} (hb : d.buff = .live b) (hp : d.ptr = .live (.auth t))
    (hlen : t.header.len.toNat ≤ d.bufferUsed.toNat) :
    (caseAuth d tree env).result =
      if authVerify (loginUser d (env.mem b)) (loginPassword d (env.mem b)) < 0 then
        .ok (some (rejectedRecord d), tree)
      else match tree.hbTreeInsert (loginUser d (env.mem b)) d.fd env.bal with
        | .error f => .error f
        | .ok (tree', none) => .ok (some (rejectedRecord d), tree')
        | .ok (tree', some _) =>
          if (Write d.fd (replyFrame (ascii ['2', '0', '0'])) env.write).2 < 0 then
            .ok (some { afterLogin d (env.mem b) t.header with
              user := .live (loginUser d (env.mem b)) }, tree')
          else .ok (some { cleared d with
            clientState := .messageState, user := .live (loginUser d (env.mem b)) }, tree') := by
  have hlen' : d.bufferUsed.toNat ≥ (Payload.auth t).header.len.toNat := hlen
  simp only [caseAuth, hp, Ptr.deref, ofExcept_eq, Traced.bind_ok]
  rw [if_pos hlen', authenticate_eq hb hp]
  by_cases hv : authVerify (loginUser d (env.mem b)) (loginPassword d (env.mem b)) < 0
  · rw [if_pos hv, if_pos hv]
    rfl
  · rw [if_neg hv, if_neg hv]
    cases tree.hbTreeInsert (loginUser d (env.mem b)) d.fd env.bal with
    | error f => rfl
    | ok q =>
      obtain ⟨tree', node⟩ := q
      cases node with
      | none => rfl
      | some a =>
        simp only [Traced.bind_ok, (by decide : ¬ (0 : Int) < 0), if_false, sendMessage_eq]
        by_cases hw : (Write d.fd (replyFrame (ascii ['2', '0', '0'])) env.write).2 < 0
        · have hw' : (Write (afterLogin d (env.mem b) t.header).fd (replyFrame (ascii ['2', '0', '0']))
              env.write).2 < 0 := hw
          rw [if_pos hw]
          simp only [if_pos hw']
          rfl
        · have hw' : ¬ (Write (afterLogin d (env.mem b) t.header).fd
              (replyFrame (ascii ['2', '0', '0'])) env.write).2 < 0 := hw
          rw [if_neg hw]
          simp only [if_neg hw']
          rfl

theorem caseAuth_agree {d : ClientConnData} {tree : HbTree} {env : Env} {b : List UInt8} (u : Ptr CString)
    (hb : d.buff = .live b) (hu : userSet d → u = d.user) :
    Agree (caseAuth d tree env).result (caseAuth { d with user := u } tree env).result := by
  cases hp : d.ptr.deref with
  | error f =>
    simp only [caseAuth, hp, ofExcept_eq, Traced.bind_error]
    exact rfl
  | ok p =>
    have hp : d.ptr = .live p := Ptr.deref_eq_ok.mp hp
    by_cases hlen : d.bufferUsed.toNat ≥ p.header.len.toNat
    · cases p with
      | chat t =>
        simp only [caseAuth, authenticate, bufferMem, hp, hb, Ptr.deref, ofExcept_eq, Traced.bind_ok]
        rw [if_pos hlen, if_pos hlen]
        exact rfl
      | auth t =>
        rw [caseAuth_result hb hp hlen,
          @caseAuth_result { d with user := u } tree env b t hb hp hlen]
        exact Agree.refl _
    · simp only [caseAuth, hp, Ptr.deref, ofExcept_eq, Traced.bind_ok]
      rw [if_neg hlen, if_neg hlen]
      exact ⟨⟨by simp [hp], hu⟩, rfl⟩

theorem receive_alike (c : ClientConnData) (u : Ptr CString) (chunk : List UInt8) :
    receive { c with user := u } chunk = (receive c chunk).map fun d => { d with user := u } := by
  simp only [receive]
  cases c.buff with
  | null =>
    simp only [ok_bind]
    split <;> rfl
  | live old =>
    simp only [ok_bind]
    split <;> rfl
  | freed => rfl

theorem caseInitial_agree {d : ClientConnData} {tree : HbTree} {env : Env} {b : List UInt8}
    (u : Ptr CString) (hs : d.clientState = .initialState) (hb : d.buff = .live b) :
    Agree (caseInitial d tree env).result (caseInitial { d with user := u } tree env).result := by
  simp only [caseInitial]
  by_cases hused : d.bufferUsed.toNat ≥ SIZE_HEADER
  · have hother := @verifyHeader_eq { d with user := u } env b hb
    rw [if_pos hused, if_pos hused, verifyHeader_eq hb, hother]
    by_cases hmagic : ((env.mem b).header d.offset).magic ≠ MAGIC
    · simp only [if_pos hmagic, Traced.bind_ok, (by decide : (-1 : Int) < 0), if_true, closeConn_eq,
        Traced.pure_eq]
      exact rfl
    · simp only [if_neg hmagic, Traced.bind_ok, (by decide : ¬ (0 : Int) < 0), if_false]
      refine caseAuth_agree u hb ?_
      simp [userSet]
  · rw [if_neg hused, if_neg hused]
    refine ⟨⟨rfl, ?_⟩, rfl⟩
    simp [userSet, hs]

/-- The bytes of a read are treated alike, whatever was in `user`. -/
theorem handleData_agree {c c' : ClientConnData} (h : Alike c c') (tree : HbTree) (chunk : List UInt8)
    (env : Env) : Agree (handleData c tree chunk env).result (handleData c' tree chunk env).result := by
  have hrest := h.rest
  generalize hu : c'.user = u at hrest
  have huser : userSet c → u = c.user := fun hs => hu ▸ h.user hs
  subst hrest
  simp only [handleData, receive_alike, ofExcept_eq]
  cases hr : receive c chunk with
  | error f => exact rfl
  | ok d =>
    obtain ⟨b, hb⟩ := receive_buff hr
    have hfields : d.user = c.user ∧ userSet d = userSet c := by
      obtain ⟨old, allocd, rfl, _⟩ := receive_ok hr
      exact ⟨rfl, rfl⟩
    rw [← hfields.1, ← hfields.2] at huser
    clear hr hfields
    obtain ⟨ptr, fd, buff, used, offset, allocd, state, user⟩ := d
    simp only [Except.map, Traced.bind_ok]
    cases state with
    | errorState => exact ⟨⟨rfl, huser⟩, rfl⟩
    | connCloseState => exact ⟨⟨rfl, huser⟩, rfl⟩
    | authState =>
      exact @caseAuth_agree ⟨ptr, fd, buff, used, offset, allocd, .authState, user⟩ tree env b u hb huser
    | messageState =>
      obtain rfl : u = user := huser rfl
      exact Agree.refl _
    | initialState =>
      exact @caseInitial_agree ⟨ptr, fd, buff, used, offset, allocd, .initialState, user⟩ tree env b u rfl
        hb

theorem step_close {s t : ServerState} {e : Event} {fd : Int} {c : ClientConnData}
    (he : e = .epollerr fd ∨ e = .eof fd) (hc : s.conns fd = some c) (hok : (step s e).result = .ok t) :
    ∃ tree, t = ⟨Function.update s.conns fd none, tree⟩ ∧
      (c.user = .null ∧ tree = s.tree ∨
        ∃ u found, c.user = .live u ∧ s.tree.hbTreeRemove u = .ok (tree, found)) := by
  have henabled : Enabled s e := by rcases he with rfl | rfl <;> simp [Enabled, hc]
  have h := step_event henabled
  rw [hok] at h
  generalize (step s e).effects = effs at h
  have same {fd' : Int} (he' : e = .epollerr fd' ∨ e = .eof fd') : fd' = fd := by
    rcases he with rfl | rfl <;> simpa [eq_comm] using he'
  cases h with
  | accept => simp at he
  | again => simp at he
  | data => simp at he
  | @drop _ fd' c' he' hc' hu =>
    obtain rfl := same he'
    rw [hc] at hc'
    cases hc'
    exact ⟨s.tree, rfl, .inl ⟨hu, rfl⟩⟩
  | @dropUser _ fd' c' u tree' found he' hc' hu hr =>
    obtain rfl := same he'
    rw [hc] at hc'
    cases hc'
    exact ⟨tree', rfl, .inr ⟨u, found, hu, hr⟩⟩

theorem close_unset {s t : ServerState} {e : Event} {fd : Int} {c : ClientConnData}
    (he : e = .epollerr fd ∨ e = .eof fd) (hc : s.conns fd = some c) (hok : (step s e).result = .ok t)
    (hunset : userSet c = false) (hk : readsOwn s e) : t.tree = s.tree := by
  have hnull : c.user = .null := by
    have hown : readsOwn.drops s fd := by rcases he with rfl | rfl <;> exact hk
    simpa [readsOwn.drops, hc, ownsUser, hunset] using hown
  obtain ⟨tree, rfl, ⟨_, rfl⟩ | ⟨u, found, hu, hr⟩⟩ := step_close he hc hok
  · rfl
  · rw [hnull] at hu
    cases hu

/-- The event, without what `malloc` left. -/
def forgetMemory : Event → Event
  | .accept fd _ => .accept fd zeroed
  | e => e

def eventsOf (log : List (Event × List Effect)) : List Event := log.map fun p => forgetMemory p.1

structure AlikeStates (s s' : ServerState) : Prop where
  tree : s'.tree = s.tree
  conns : ∀ fd, Option.Rel Alike (s.conns fd) (s'.conns fd)

theorem forgetMemory_eq {e e' : Event} (h : forgetMemory e = forgetMemory e') :
    e' = e ∨ ∃ fd junk junk', e = .accept fd junk ∧ e' = .accept fd junk' := by
  cases e with
  | accept fd junk =>
    cases e' with
    | accept fd' junk' =>
      injection h with hfd
      subst hfd
      exact .inr ⟨fd, junk, junk', rfl, rfl⟩
    | _ => cases h
  | _ =>
    cases e' with
    | accept fd' junk' => cases h
    | _ => exact .inl h.symm

theorem AlikeStates.update {s s' : ServerState} (H : AlikeStates s s') {fd : Int} {tree tree' : HbTree}
    {c c' : Option ClientConnData} (h : Option.Rel Alike c c') (htree : tree' = tree) :
    AlikeStates ⟨Function.update s.conns fd c, tree⟩ ⟨Function.update s'.conns fd c', tree'⟩ where
  tree := htree
  conns fd' := by
    by_cases he : fd' = fd
    · subst he
      simpa using h
    · simpa [he] using H.conns fd'

theorem AlikeStates.conn {s s' : ServerState} (H : AlikeStates s s') {fd : Int} {c : ClientConnData}
    (hc : s.conns fd = some c) : ∃ c', s'.conns fd = some c' ∧ Alike c c' := by
  have h := H.conns fd
  rw [hc] at h
  cases hc' : s'.conns fd with
  | none =>
    rw [hc'] at h
    cases h
  | some c' =>
    rw [hc'] at h
    cases h with
    | some h => exact ⟨c', rfl, h⟩

theorem AlikeStates.close {s s' t t' : ServerState} {e : Event} {fd : Int} (H : AlikeStates s s')
    (he : e = .epollerr fd ∨ e = .eof fd) (hopen : (s.conns fd).isSome)
    (hok : (step s e).result = .ok t) (hok' : (step s' e).result = .ok t') (hk : readsOwn s e)
    (hk' : readsOwn s' e) : AlikeStates t t' := by
  obtain ⟨c, hc⟩ := Option.isSome_iff_exists.mp hopen
  obtain ⟨c', hc', halike⟩ := H.conn hc
  have htree : t'.tree = t.tree := by
    cases hset : userSet c with
    | false =>
      have hset' : userSet c' = false := halike.userSet_eq.trans hset
      rw [close_unset he hc hok hset hk, close_unset he hc' hok' hset' hk', H.tree]
    | true =>
      have huser := halike.user hset
      obtain ⟨tree, rfl, hcase⟩ := step_close he hc hok
      obtain ⟨tree', rfl, hcase'⟩ := step_close he hc' hok'
      rw [huser, H.tree] at hcase'
      rcases hcase with ⟨hu, rfl⟩ | ⟨u, found, hu, hr⟩
      · rcases hcase' with ⟨_, rfl⟩ | ⟨u', _, hu', _⟩
        · rfl
        · rw [hu] at hu'
          cases hu'
      · rcases hcase' with ⟨hu', _⟩ | ⟨u', found', hu', hr'⟩
        · rw [hu] at hu'
          cases hu'
        · rw [hu] at hu'
          cases hu'
          rw [hr] at hr'
          cases hr'
          rfl
  obtain ⟨tree, rfl, _⟩ := step_close he hc hok
  obtain ⟨tree', rfl, _⟩ := step_close he hc' hok'
  exact H.update .none htree

theorem step_data_ok {s t : ServerState} {fd : Int} {chunk : Chunk} {env : Env} {c : ClientConnData}
    (hc : s.conns fd = some c) (hok : (step s (.data fd chunk env)).result = .ok t) :
    ∃ c' tree, (handleData c s.tree chunk.bytes env).result = .ok (c', tree) ∧
      t = ⟨Function.update s.conns fd c', tree⟩ := by
  simp only [step, hc] at hok
  obtain ⟨⟨c', tree⟩, hres, h⟩ := Traced.result_bind_ok.mp hok
  cases h
  exact ⟨c', tree, hres, rfl⟩

/-- The step lemma: what one event does in two alike states. -/
theorem AlikeStates.step {s s' t t' : ServerState} {e e' : Event} (H : AlikeStates s s')
    (he : Enabled s e) (hsame : forgetMemory e = forgetMemory e') (hok : (step s e).result = .ok t)
    (hok' : (Server.step s' e').result = .ok t') (hk : readsOwn s e) (hk' : readsOwn s' e') :
    AlikeStates t t' := by
  rcases forgetMemory_eq hsame with rfl | ⟨fd, junk, junk', rfl, rfl⟩
  · cases e' with
    | accept fd junk =>
      cases hok
      cases hok'
      exact H.update (.some (.refl _)) H.tree
    | again fd =>
      cases hok
      cases hok'
      exact H
    | epollerr fd => exact H.close (.inl rfl) he hok hok' hk hk'
    | eof fd => exact H.close (.inr rfl) he hok hok' hk hk'
    | data fd chunk env =>
      obtain ⟨c, hc⟩ := Option.isSome_iff_exists.mp he
      obtain ⟨c', hc', halike⟩ := H.conn hc
      obtain ⟨r, tree, hres, rfl⟩ := step_data_ok hc hok
      obtain ⟨r', tree', hres', rfl⟩ := step_data_ok hc' hok'
      have hagree := handleData_agree halike s.tree chunk.bytes env
      rw [hres, ← H.tree, hres'] at hagree
      cases r with
      | none =>
        cases r' with
        | none => exact H.update .none hagree
        | some d' => exact hagree.elim
      | some d =>
        cases r' with
        | none => exact hagree.elim
        | some d' => exact H.update (.some hagree.1) hagree.2
  · cases hok
    cases hok'
    have hptr : junk'.ptr = junk.ptr := by
      have h : junk.ptr = .null := by simpa [readsOwn] using hk
      have h' : junk'.ptr = .null := by simpa [readsOwn] using hk'
      rw [h, h']
    refine H.update (.some ⟨?_, ?_⟩) H.tree
    · simp [createNewClient, hptr]
    · intro h
      cases h

theorem runs_alike {log log' : List (Event × List Effect)} {s s' : ServerState}
    (run : Run Server.step (fun s e => Enabled s e ∧ keepsMemory s e) start log s)
    (run' : Run Server.step (fun s e => Enabled s e ∧ keepsMemory s e) start log' s')
    (hsame : eventsOf log = eventsOf log') : AlikeStates s s' := by
  induction run generalizing log' s' with
  | nil =>
    cases run' with
    | nil => exact ⟨rfl, fun _ => .none⟩
    | snoc => simp [eventsOf] at hsame
  | @snoc log s t e run ha hok ih =>
    cases run' with
    | nil => simp [eventsOf] at hsame
    | @snoc log' s' _ e' run' ha' hok' =>
      simp only [eventsOf, List.map_append, List.map_cons, List.map_nil] at hsame
      obtain ⟨hlog, hlast⟩ := List.append_inj' hsame rfl
      injection hlast with hlast
      exact (ih run' hlog).step ha.1 hlast hok hok' (keepsMemory_iff.mp ha.2).1 (keepsMemory_iff.mp ha'.2).1

def isInsert (fd : Int) : Effect → Bool
  | .insert _ fd' => fd' = fd
  | _ => false

/-- A login on this connection has been accepted and entered into the tree. -/
def loggedIn (fd : Int) (log : List (Event × List Effect)) : Bool :=
  log.foldl (fun before p => .accept fd ∉ p.2 ∧ (before ∨ p.2.any (isInsert fd))) false

theorem loggedIn_snoc (fd : Int) (log : List (Event × List Effect)) (e : Event) (effs : List Effect) :
    loggedIn fd (log ++ [(e, effs)]) =
      decide (.accept fd ∉ effs ∧ (loggedIn fd log ∨ effs.any (isInsert fd))) := by
  rw [loggedIn, List.foldl_append]
  rfl

theorem DataStep.userSet {c c' : ClientConnData} {b : List UInt8} {tree tree' : HbTree} {env : Env}
    {effs : List Effect} (h : DataStep c b tree env effs (.ok (some c', tree')))
    (hset : Server.userSet c') : Server.userSet c ∨ effs.any (isInsert c.fd) := by
  have headed {pre d} (hd : Headed c (env.mem b) pre d) (hset : Server.userSet d) : Server.userSet c := by
    cases hd with
    | initial => cases hset
    | auth => exact hset
    | first hs => simp [Server.userSet, hs]
    | chat => exact hset
  cases h with
  | idle => exact .inl hset
  | short => exact .inl hset
  | wait h => exact .inl (headed h hset)
  | rejected => cases hset
  | notInserted => cases hset
  | accepted h =>
    right
    simp [isInsert, h.fd_eq]
  | unanswered h =>
    right
    simp [isInsert, h.fd_eq]
  | forwarded h hs =>
    left
    simp [Server.userSet, h.message_iff.mp hs]

theorem DataStep.fd_eq {c c' : ClientConnData} {b : List UInt8} {tree tree' : HbTree} {env : Env}
    {effs : List Effect} (h : DataStep c b tree env effs (.ok (some c', tree'))) : c'.fd = c.fd := by
  cases h with
  | idle => rfl
  | short => rfl
  | wait h => exact h.fd_eq
  | rejected h => exact h.fd_eq
  | notInserted h => exact h.fd_eq
  | accepted h => exact h.fd_eq
  | unanswered h => exact h.fd_eq
  | forwarded h => exact h.fd_eq

/-- `user` is set by a login only. -/
structure SetByLogin (log : List (Event × List Effect)) (s : ServerState) : Prop where
  fds : ∀ fd c, s.conns fd = some c → c.fd = fd
  login : ∀ fd c, s.conns fd = some c → userSet c → loggedIn fd log

theorem SetByLogin.step {log : List (Event × List Effect)} {s s' : ServerState} {e : Event}
    {effs : List Effect} (H : SetByLogin log s) (h : EventStep s e effs (.ok s')) :
    SetByLogin (log ++ [(e, effs)]) s' := by
  have update {fd0 : Int} {c0 : Option ClientConnData} (hfd : ∀ c, c0 = some c → c.fd = fd0)
      (hlogin : ∀ c, c0 = some c → userSet c → loggedIn fd0 (log ++ [(e, effs)]))
      (hnew : ∀ fd, fd ≠ fd0 → Effect.accept fd ∉ effs) (tree : HbTree) :
      SetByLogin (log ++ [(e, effs)]) ⟨Function.update s.conns fd0 c0, tree⟩ := by
    refine ⟨forall_update hfd fun fd c _ hc => H.fds fd c hc, forall_update hlogin ?_⟩
    intro fd c he hc hset
    rw [loggedIn_snoc, decide_eq_true_iff]
    exact ⟨hnew fd he, .inl (H.login fd c hc hset)⟩
  cases h with
  | accept fd junk hpos hfree =>
    refine update ?_ ?_ ?_ _
    · rintro _ ⟨⟩
      rfl
    · rintro _ ⟨⟩ hset
      cases hset
    · intro fd' hne
      simpa using hne
  | again fd =>
    refine ⟨H.fds, ?_⟩
    intro fd' c hc hset
    rw [loggedIn_snoc, decide_eq_true_iff]
    exact ⟨by simp, .inl (H.login fd' c hc hset)⟩
  | drop => exact update (by simp) (by simp) (by simp [freeEffects]) _
  | dropUser => exact update (by simp) (by simp) (by simp [freeEffects]) _
  | @data fd chunk env c d b effs c' tree' hc hr hb h =>
    have hd : d.fd = c.fd ∧ userSet d = userSet c := by
      obtain ⟨old, allocd, rfl, _⟩ := receive_ok hr
      exact ⟨rfl, rfl⟩
    have hcfd := H.fds fd c hc
    refine update ?_ ?_ (fun fd' _ => h.accepts_no_new fd') _
    · rintro _ rfl
      rw [h.fd_eq, hd.1, hcfd]
    · rintro _ rfl hset
      rw [loggedIn_snoc, decide_eq_true_iff]
      refine ⟨h.accepts_no_new fd, ?_⟩
      rcases h.userSet hset with hset' | hins
      · exact .inl (H.login fd c hc (hd.2 ▸ hset'))
      · rw [hd.1, hcfd] at hins
        exact .inr hins

theorem run_setByLogin {log : List (Event × List Effect)} {s : ServerState}
    (run : Run Server.step Enabled start log s) : SetByLogin log s := by
  refine run.invariant (I := SetByLogin) ⟨by simp [start], by simp [start]⟩ ?_
  intro log s s' e H he hok
  exact H.step (hok ▸ step_event he)

/-- A connection that has not logged in leaves the tree as it is when it goes. -/
theorem close_unlogged {log : List (Event × List Effect)} {s t : ServerState} {e : Event} {fd : Int}
    (run : Run Server.step Enabled start log s) (he : Enabled s e) (hk : readsOwn s e)
    (hok : (step s e).result = .ok t) (hopen : (s.conns fd).isSome) (hclosed : t.conns fd = none)
    (hlogin : loggedIn fd log = false) : t.tree = s.tree := by
  have H := run_setByLogin run
  have same {fd0 : Int} {c0 : Option ClientConnData}
      (hnone : Function.update s.conns fd0 c0 fd = none) : fd = fd0 := by
    by_contra hne
    rw [Function.update_of_ne hne] at hnone
    rw [hnone] at hopen
    cases hopen
  have h := step_event he
  rw [hok] at h
  generalize (step s e).effects = effs at h
  cases h with
  | accept => rfl
  | again => rfl
  | drop => rfl
  | @dropUser _ fd0 c u tree' found he' hc hu hr =>
    obtain rfl := same hclosed
    refine close_unset he' hc hok ?_ hk
    by_contra hset
    rw [H.login fd c hc (by simpa using hset)] at hlogin
    cases hlogin
  | @data fd0 chunk env c d b _ c' tree' hc hr hb h =>
    obtain rfl := same hclosed
    obtain rfl : c' = none := (Function.update_self fd c' s.conns).symm.trans hclosed
    cases h
    rfl

/-- As long as no event goes beyond the blocks of the server, the tree does not depend on what
`malloc` left in the records; and a connection that closes before it has logged in leaves the tree
as it is. -/
theorem tree_independent_of_memory {log log' : List (Event × List Effect)} {s s' : ServerState}
    (run : Run step (fun s e => Enabled s e ∧ keepsMemory s e) start log s)
    (run' : Run step (fun s e => Enabled s e ∧ keepsMemory s e) start log' s')
    (hsame : eventsOf log = eventsOf log') :
    s'.tree = s.tree ∧ ∀ e t fd, Enabled s e → keepsMemory s e → (step s e).result = .ok t →
      (s.conns fd).isSome → t.conns fd = none → loggedIn fd log = false → t.tree = s.tree := by
  refine ⟨(runs_alike run run' hsame).tree, ?_⟩
  intro e t fd he hk hok hopen hclosed hlogin
  exact close_unlogged (run.mono fun _ _ h => h.1) he (keepsMemory_iff.mp hk).1 hok hopen hclosed hlogin

def secondLeaves (junk : Junk) : List Event :=
  [.accept 5 zeroed, login 5 '1', .accept 6 junk, login 6 '2', .eof 6]

def oldName : Junk := ⟨.null, .live (CString.ofBuffer (userName '1'))⟩

def leaves (junk : Junk) : Option (List (Event × List Effect) × ServerState) :=
  Run.exec step (fun s e => decide (Enabled s e) && keepsMemory s e) ([], start) (secondLeaves junk)

theorem leaves_run {junk : Junk} (h : (leaves junk).isSome) :
    Run step (fun s e => Enabled s e ∧ keepsMemory s e) start ((leaves junk).get h).1
      ((leaves junk).get h).2 :=
  Run.run_exec_get (fun _ _ h => by simpa using h) h

theorem eventsOf_exec {allowed : ServerState → Event → Bool} {es : List Event}
    (h : (Run.exec step allowed ([], start) es).isSome) :
    eventsOf ((Run.exec step allowed ([], start) es).get h).1 = es.map forgetMemory := by
  have hevents := Run.exec_events (Option.some_get h).symm
  have hmap (log : List (Event × List Effect)) :
      eventsOf log = (log.map Prod.fst).map forgetMemory := by
    rw [List.map_map]
    rfl
  rw [hmap, hevents]
  rfl

theorem leaves_events {junk : Junk} (h : (leaves junk).isSome) :
    eventsOf ((leaves junk).get h).1 = secondLeaves zeroed := by
  have hforget : (secondLeaves junk).map forgetMemory = secondLeaves zeroed := rfl
  rw [← hforget]
  exact eventsOf_exec h

theorem leaves_zeroed : (leaves zeroed).isSome := by decide +kernel

theorem leaves_oldName : (leaves oldName).isSome := by decide +kernel

theorem secondLeaves_tree_independent_of_memory :
    ((leaves oldName).get leaves_oldName).2.tree = ((leaves zeroed).get leaves_zeroed).2.tree ∧
      ∀ e t fd, Enabled ((leaves zeroed).get leaves_zeroed).2 e →
        keepsMemory ((leaves zeroed).get leaves_zeroed).2 e →
        (step ((leaves zeroed).get leaves_zeroed).2 e).result = .ok t →
        (((leaves zeroed).get leaves_zeroed).2.conns fd).isSome → t.conns fd = none →
        loggedIn fd ((leaves zeroed).get leaves_zeroed).1 = false →
        t.tree = ((leaves zeroed).get leaves_zeroed).2.tree := by
  refine tree_independent_of_memory (leaves_run _) (leaves_run _) ?_
  rw [leaves_events, leaves_events]

def unusedConn (junk : Junk) : List Event :=
  [.accept 5 zeroed, login 5 '1', .accept 6 junk, .eof 6]

def closesAny (junk : Junk) : Option (List (Event × List Effect) × ServerState) :=
  Run.exec step (fun s e => decide (Enabled s e)) ([], start) (unusedConn junk)

theorem closesAny_run {junk : Junk} (h : (closesAny junk).isSome) :
    Run step Enabled start ((closesAny junk).get h).1 ((closesAny junk).get h).2 :=
  Run.run_exec_get (fun _ _ h => by simpa using h) h

theorem closesAny_events {junk : Junk} (h : (closesAny junk).isSome) :
    eventsOf ((closesAny junk).get h).1 = unusedConn zeroed := by
  have hforget : (unusedConn junk).map forgetMemory = unusedConn zeroed := rfl
  rw [← hforget]
  exact eventsOf_exec h

theorem closesAny_zeroed : (closesAny zeroed).isSome := by decide +kernel

theorem closesAny_oldName : (closesAny oldName).isSome := by decide +kernel

/-- The connection that closes takes the session of user1 out of the tree. -/
theorem closesAny_tree_depends_on_memory :
    ∃ log log' s s', Run step Enabled start log s ∧ Run step Enabled start log' s' ∧
      eventsOf log = eventsOf log' ∧ s'.tree ≠ s.tree := by
  refine ⟨_, _, _, _, closesAny_run closesAny_zeroed, closesAny_run closesAny_oldName, ?_, ?_⟩
  · rw [closesAny_events, closesAny_events]
  · intro h
    have hpairs : ((closesAny zeroed).get closesAny_zeroed).2.tree.pairs.length = 1 := by
      decide +kernel
    rw [← h] at hpairs
    have hnone : ((closesAny oldName).get closesAny_oldName).2.tree.pairs.length = 0 := by
      decide +kernel
    omega

end Server
end TeamsInC
