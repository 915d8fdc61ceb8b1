import TeamsInC.HbTree.Multimap
import TeamsInC.Server.Blocks

/-!
# Sessions and their registrations

A logged-in connection is a session; its registration is its pair, name and descriptor, in
the tree. A close removes by name, so among several sessions of one user it may take
another's pair; two further ways leave a pair behind. These results say which events keep
pairs and sessions together.
-/

set_option autoImplicit false

namespace TeamsInC
namespace Server

/-- The same descriptor, and the same session, if it is one. -/
structure SameSession (c d : ClientConnData) : Prop where
  fd : d.fd = c.fd
  message : d.clientState = .messageState ↔ c.clientState = .messageState
  user : c.clientState = .messageState → d.user = c.user

theorem SameSession.trans {c d e : ClientConnData} (h : SameSession c d) (h' : SameSession d e) :
    SameSession c e :=
  ⟨h'.fd.trans h.fd, h'.message.trans h.message,
    fun hc => (h'.user (h.message.mpr hc)).trans (h.user hc)⟩

theorem receive_session {c d : ClientConnData} {chunk : List UInt8} (h : receive c chunk = .ok d) :
    SameSession c d := by
  obtain ⟨old, allocd, rfl, _⟩ := receive_ok h
  exact ⟨rfl, Iff.rfl, fun _ => rfl⟩

theorem Headed.same {c d : ClientConnData} {m : Mem} {pre : List Effect} (h : Headed c m pre d) :
    SameSession c d := ⟨h.fd_eq, h.message_iff, fun _ => h.user_eq⟩

/-- The bytes complete a login packet, and its pair is accepted. -/
def completesLogin (c : ClientConnData) (m : Mem) : Bool :=
  match headed c m with
  | none => false
  | some d =>
    match d.ptr with
    | .live (.auth t) => d.clientState = .authState ∧ t.header.len.toNat ≤ d.bufferUsed.toNat ∧
        authVerify (loginUser d m) (loginPassword d m) = 0
    | _ => false

/-- The bytes complete the header of a packet of a session, and it is none of ours. -/
def badHeader (c : ClientConnData) (m : Mem) : Bool :=
  c.clientState = .messageState ∧ c.offset = 0 ∧ SIZE_HEADER ≤ c.bufferUsed.toNat ∧
    (m.header c.offset).magic ≠ MAGIC

def greeted (fd : Int) (env : Env) : Int :=
  (Write fd (replyFrame (ascii ['2', '0', '0'])) env.write).2

theorem Headed.completesLogin {c d : ClientConnData} {m : Mem} {pre : List Effect} {t : MessageAuth}
    (h : Headed c m pre d) (hs : d.clientState = .authState) (hp : d.ptr = .live (.auth t))
    (hlen : t.header.len.toNat ≤ d.bufferUsed.toNat)
    (hv : authVerify (loginUser d m) (loginPassword d m) = 0) : completesLogin c m := by
  simp [Server.completesLogin, h.headed, hp, hs, hlen, hv]

/-- What the bytes of a read do to a session and the tree. -/
inductive SessionStep (c : ClientConnData) (m : Mem) (tree : HbTree) (env : Env) :
    Option ClientConnData → HbTree → Prop
  | same {d : ClientConnData} (h : SameSession c d) : SessionStep c m tree env (some d) tree
  | closed (h : c.clientState = .messageState → badHeader c m) : SessionStep c m tree env none tree
  | login {d : ClientConnData} {u : CString} {tree' : HbTree} (hc : c.clientState ≠ .messageState)
      (hlogin : completesLogin c m) (hfd : d.fd = c.fd) (hu : d.user = .live u)
      (hwf : tree'.WellFormed) (hpairs : tree'.pairs.Perm ((u, c.fd) :: tree.pairs))
      (hs : 0 ≤ greeted c.fd env → d.clientState = .messageState)
      (hsound : d.clientState = .messageState ∨ d.clientState = .authState) :
      SessionStep c m tree env (some d) tree'

theorem DataStep.session {c : ClientConnData} {b : List UInt8} {tree tree' : HbTree} {env : Env}
    {effs : List Effect} {c' : Option ClientConnData}
    (h : DataStep c b tree env effs (.ok (c', tree'))) (hwf : tree.WellFormed) :
    SessionStep c (env.mem b) tree env c' tree' := by
  have notMessage {pre d} (hd : Headed c (env.mem b) pre d) (hs : d.clientState = .authState) :
      c.clientState ≠ .messageState := fun hc => by simp [hd.message_iff.mpr hc] at hs
  have inserted {pre d} (hd : Headed c (env.mem b) pre d)
      (hv : authVerify (loginUser d (env.mem b)) (loginPassword d (env.mem b)) = 0) {l : LinkedTree.Link}
      (hi : tree.hbTreeInsert (loginUser d (env.mem b)) d.fd env.bal = .ok (tree', l)) :
      l ≠ none ∧ tree'.WellFormed ∧ tree'.pairs.Perm ((loginUser d (env.mem b), c.fd) :: tree.pairs) := by
    obtain ⟨hl, hw, hp⟩ := hwf.of_insert (accounts_fit _ (authVerify_mem hv).1) hi
    exact ⟨hl, hw, hd.fd_eq ▸ hp⟩
  cases h with
  | idle => exact .same ⟨rfl, Iff.rfl, fun _ => rfl⟩
  | short => exact .same ⟨rfl, Iff.rfl, fun _ => rfl⟩
  | badHeader hs hused magic =>
    refine .closed ?_
    intro hc
    rcases hs with hs | ⟨_, hoff⟩
    · simp [hc] at hs
    · simpa [Server.badHeader, hc, hoff, hused] using hoff ▸ magic
  | wait h => exact .same h.same
  | @rejected pre d t h hs =>
    have hc := notMessage h hs
    refine .same ⟨h.fd_eq, ?_, fun hm => absurd hm hc⟩
    simp [rejectedRecord, hc]
  | notInserted h hs _ _ hv hi => exact absurd rfl (inserted h hv hi).1
  | accepted h hs hp hlen hv hi hw =>
    obtain ⟨_, hwf', hpairs⟩ := inserted h hv hi
    exact .login (notMessage h hs) (h.completesLogin hs hp hlen hv) h.fd_eq rfl hwf' hpairs
      (fun _ => rfl) (.inl rfl)
  | unanswered h hs hp hlen hv hi hw =>
    obtain ⟨_, hwf', hpairs⟩ := inserted h hv hi
    refine .login (notMessage h hs) (h.completesLogin hs hp hlen hv) h.fd_eq rfl hwf' hpairs
      (fun hg => ?_) (.inr hs)
    rw [h.fd_eq] at hw
    rw [greeted] at hg
    omega
  | forwarded h => exact .same (h.same.trans ⟨rfl, Iff.rfl, fun _ => rfl⟩)

theorem SessionStep.wellFormed {c : ClientConnData} {m : Mem} {tree tree' : HbTree} {env : Env}
    {c' : Option ClientConnData} (h : SessionStep c m tree env c' tree') (hwf : tree.WellFormed) :
    tree'.WellFormed := by
  cases h with
  | same => exact hwf
  | closed => exact hwf
  | login _ _ _ _ hwf' => exact hwf'

theorem EventStep.wellFormed {s s' : ServerState} {e : Event} {effs : List Effect}
    (h : EventStep s e effs (.ok s')) (hwf : s.tree.WellFormed) : s'.tree.WellFormed := by
  cases h with
  | accept => exact hwf
  | again => exact hwf
  | drop => exact hwf
  | @dropUser _ _ _ u tree' found _ _ _ hr =>
    cases found with
    | true =>
      obtain ⟨_, _, hwf', _⟩ := hwf.of_remove_true hr
      exact hwf'
    | false => exact (hwf.of_remove_false hr).1
  | data _ _ _ h => exact (h.session hwf).wellFormed hwf

theorem run_wellFormed {log : List (Event × List Effect)} {s : ServerState}
    (run : Run step Enabled start log s) : s.tree.WellFormed := by
  refine run.invariant (I := fun _ s => s.tree.WellFormed) HbTree.wellFormed_new ?_
  intro _ _ _ _ hwf he hok
  have h := step_event he
  rw [hok] at h
  exact h.wellFormed hwf

/-- If the connection is registered, the removal by its name meets its own pair. -/
def removesOwn (s : ServerState) (fd : Int) : Bool :=
  s.tree.pairs.all fun p => p.2 ≠ fd ∨ s.tree.hbTreeSearch p.1 = .ok fd

/-- The event leaves no pair behind without its session. -/
def keepsPairs (s : ServerState) : Event → Bool
  | .accept _ _ => true
  | .again _ => true
  | .epollerr fd => removesOwn s fd
  | .eof fd => removesOwn s fd
  | .data fd chunk env =>
    match arrived s fd chunk with
    | none => true
    | some (c, b) =>
      (badHeader c (env.mem b) → s.tree.pairs.all fun p => p.2 ≠ fd) ∧
        (completesLogin c (env.mem b) → 0 ≤ greeted fd env)

/-- Every pair in the tree is that of an open session, and no session has two. -/
structure PairsAreSessions (s : ServerState) : Prop where
  wf : s.tree.WellFormed
  fds : ∀ fd c, s.conns fd = some c → c.fd = fd
  nodup : s.tree.pairs.Nodup
  session : ∀ u fd, (u, fd) ∈ s.tree.pairs →
    ∃ c, s.conns fd = some c ∧ c.clientState = .messageState ∧ c.user = .live u

theorem pairsAreSessions_start : PairsAreSessions start where
  wf := HbTree.wellFormed_new
  fds := by simp [start]
  nodup := by simp [start, HbTree.pairs_new]
  session := by simp [start, HbTree.pairs_new]

namespace PairsAreSessions
variable {s : ServerState} {fd : Int}

theorem accept (H : PairsAreSessions s) (junk : Junk) (hfree : s.conns fd = none) :
    PairsAreSessions { s with conns := Function.update s.conns fd (some (createNewClient fd junk)) } where
  wf := H.wf
  fds := by
    refine forall_update ?_ fun fd' c _ hc => H.fds fd' c hc
    rintro _ ⟨⟩
    rfl
  nodup := H.nodup
  session u fd' hp := by
    obtain ⟨c, hc, hs⟩ := H.session u fd' hp
    have hfd : fd' ≠ fd := fun h => by simp [h, hfree] at hc
    exact ⟨c, by simp [hfd, hc], hs⟩

theorem close (H : PairsAreSessions s) {tree : HbTree} (hwf : tree.WellFormed)
    (hsub : ∃ gone, s.tree.pairs.Perm (gone ++ tree.pairs)) (hnone : ∀ u, (u, fd) ∉ tree.pairs) :
    PairsAreSessions ⟨Function.update s.conns fd none, tree⟩ where
  wf := hwf
  fds := forall_update (by simp) fun fd' c _ hc => H.fds fd' c hc
  nodup := by
    obtain ⟨gone, hperm⟩ := hsub
    exact (List.nodup_append.mp (hperm.nodup_iff.mp H.nodup)).2.1
  session u fd' hp := by
    obtain ⟨gone, hperm⟩ := hsub
    have hold : (u, fd') ∈ s.tree.pairs := hperm.mem_iff.mpr (List.mem_append_right _ hp)
    obtain ⟨c, hc, hs⟩ := H.session u fd' hold
    have hfd : fd' ≠ fd := fun h => hnone u (h ▸ hp)
    exact ⟨c, by simp [hfd, hc], hs⟩

theorem dropUser (H : PairsAreSessions s) {c : ClientConnData} {u : CString} {tree' : HbTree}
    {found : Bool} (hc : s.conns fd = some c) (hu : c.user = .live u) (hown : removesOwn s fd)
    (hr : s.tree.hbTreeRemove u = .ok (tree', found)) :
    PairsAreSessions ⟨Function.update s.conns fd none, tree'⟩ := by
  have hname {u' : CString} (hp : (u', fd) ∈ s.tree.pairs) : u' = u := by
    obtain ⟨c', hc', _, hu'⟩ := H.session u' fd hp
    rw [hc] at hc'
    cases hc'
    rw [hu] at hu'
    cases hu'
    rfl
  cases found with
  | true =>
    obtain ⟨fd', hfd', hwf, hperm⟩ := H.wf.of_remove_true hr
    refine H.close hwf ⟨[(u, fd')], hperm⟩ ?_
    intro u' hp
    have hold : (u', fd) ∈ s.tree.pairs := hperm.mem_iff.mpr (List.mem_cons_of_mem _ hp)
    obtain rfl := hname hold
    have hfd : fd' = fd := by
      have h := List.all_eq_true.mp hown _ hold
      simpa [hfd'] using h
    subst hfd
    exact (List.nodup_cons.mp (hperm.nodup_iff.mp H.nodup)).1 hp
  | false =>
    obtain ⟨hwf, hpairs, hnone⟩ := H.wf.of_remove_false hr
    refine H.close hwf ⟨[], by rw [hpairs]; exact .refl _⟩ ?_
    intro u' hp
    rw [hpairs] at hp
    exact hnone _ hp (hname hp)

theorem data (H : PairsAreSessions s) {c d : ClientConnData} {m : Mem} {env : Env} {tree' : HbTree}
    {c' : Option ClientConnData} (hc : s.conns fd = some c) (hd : SameSession c d)
    (h : SessionStep d m s.tree env c' tree')
    (hbad : badHeader d m → ∀ p ∈ s.tree.pairs, p.2 ≠ fd)
    (hgreet : completesLogin d m → 0 ≤ greeted fd env) :
    PairsAreSessions ⟨Function.update s.conns fd c', tree'⟩ := by
  have hfd : d.fd = fd := hd.fd.trans (H.fds fd c hc)
  have own {u : CString} (hp : (u, fd) ∈ s.tree.pairs) :
      c.clientState = .messageState ∧ c.user = .live u := by
    obtain ⟨c0, hc0, hs⟩ := H.session u fd hp
    rw [hc] at hc0
    cases hc0
    exact hs
  cases h with
  | closed hclosed =>
    refine H.close H.wf ⟨[], .refl _⟩ ?_
    intro u hp
    exact hbad (hclosed (hd.message.mpr (own hp).1)) _ hp rfl
  | @same d' h =>
    refine ⟨H.wf, ?_, H.nodup, ?_⟩
    · refine forall_update ?_ fun fd' c _ hc => H.fds fd' c hc
      rintro _ ⟨⟩
      exact h.fd.trans hfd
    · intro u fd' hp
      by_cases he : fd' = fd
      · subst he
        obtain ⟨hm, hu⟩ := own hp
        have hs := hd.trans h
        exact ⟨d', by simp, hs.message.mpr hm, (hs.user hm).trans hu⟩
      · obtain ⟨c0, hc0, hs⟩ := H.session u fd' hp
        exact ⟨c0, by simp [he, hc0], hs⟩
  | @login d' u tree' hnot hlogin hfd' hu hwf hpairs hs _ =>
    rw [hfd] at hfd' hpairs hs
    have hfresh (u' : CString) : (u', fd) ∉ s.tree.pairs :=
      fun hp => hnot (hd.message.mpr (own hp).1)
    refine ⟨hwf, ?_, ?_, ?_⟩
    · refine forall_update ?_ fun fd0 c _ hc => H.fds fd0 c hc
      rintro _ ⟨⟩
      exact hfd'
    · exact hpairs.nodup_iff.mpr (List.nodup_cons.mpr ⟨hfresh u, H.nodup⟩)
    · intro u' fd0 hp
      rcases List.mem_cons.mp (hpairs.mem_iff.mp hp) with hnew | hold
      · cases hnew
        exact ⟨d', by simp, hs (hgreet hlogin), hu⟩
      · have he : fd0 ≠ fd := fun he => hfresh u' (he ▸ hold)
        obtain ⟨c0, hc0, hs⟩ := H.session u' fd0 hold
        exact ⟨c0, by simp [he, hc0], hs⟩

theorem step (H : PairsAreSessions s) {e : Event} {effs : List Effect} {s' : ServerState}
    (h : EventStep s e effs (.ok s')) (hk : keepsPairs s e) : PairsAreSessions s' := by
  cases h with
  | accept fd junk hpos hfree => exact H.accept junk hfree
  | again fd => exact H
  | @drop _ fd c he hc hu =>
    refine H.close H.wf ⟨[], .refl _⟩ ?_
    intro u hp
    obtain ⟨c', hc', _, hu'⟩ := H.session u fd hp
    rw [hc] at hc'
    cases hc'
    rw [hu] at hu'
    cases hu'
  | @dropUser _ fd c u tree' found he hc hu hr =>
    have hown : removesOwn s fd := by rcases he with rfl | rfl <;> exact hk
    exact H.dropUser hc hu hown hr
  | @data fd chunk env c d b effs c' tree' hc hr hb h =>
    simp only [keepsPairs, arrived_eq hc hr hb, List.all_eq_true, decide_eq_true_eq] at hk
    exact H.data hc (receive_session hr) (h.session H.wf) hk.1 hk.2

end PairsAreSessions

/-- As long as no event leaves a pair behind or goes beyond the blocks of the server, a frame for
`toUser` goes to an open session of that user. -/
theorem forward_reaches_session {log : List (Event × List Effect)} {s : ServerState} {e : Event}
    {fd dest : Int} {toUser : CString} {frame accepted : List UInt8}
    (run : Run step (fun s e => (Enabled s e ∧ keepsMemory s e) ∧ keepsPairs s e) start log s)
    (he : Enabled s e ∧ keepsMemory s e)
    (hf : .forward fd toUser dest frame accepted ∈ (step s e).effects) (hdest : 0 ≤ dest) :
    ∃ c, s.conns dest = some c ∧ c.clientState = .messageState ∧ c.user = .live toUser := by
  have H : PairsAreSessions s := run.invariant (I := fun _ s => PairsAreSessions s)
    pairsAreSessions_start fun _ s s' e H ha hok => H.step (hok ▸ step_event ha.1.1) ha.2
  obtain ⟨fd', chunk, env, c, d, b, rfl, hc, hr, hb, r, hdata⟩ := (step_event he.1).of_forward hf
  obtain ⟨_, _, _, _, _, _, _, _, _, hsearch, _⟩ := hdata.of_forward hf
  obtain ⟨found, hfound, hspec⟩ := H.wf.search toUser
  rw [hsearch] at hfound
  cases hfound
  rcases hspec with hp | ⟨hneg, _⟩
  · exact H.session toUser dest hp
  · omega

def userName (n : Char) : List UInt8 := ascii ['u', 's', 'e', 'r', n]

def login (fd : Int) (n : Char) : Event := gets fd (packet MSG_TYPE_AUTH (userName n) (userName n))

def chat (fd : Int) (n : Char) : Event :=
  gets fd (packet MSG_TYPE_CHAT_MSG (userName n) (ascii ['h', 'i']))

def returningUser : List (Event × List Effect) × ServerState :=
  (Run.exec step (fun s e => (decide (Enabled s e) && keepsMemory s e) && keepsPairs s e) ([], start)
    [.accept 5 zeroed, .accept 6 zeroed, login 5 '1', login 6 '2', .eof 5, .accept 5 zeroed,
      login 5 '1']).get (by decide +kernel)

theorem returningUser_forward_reaches_session :
    ∃ c, returningUser.2.conns 6 = some c ∧ c.clientState = .messageState ∧
      c.user = .live (CString.ofBuffer (userName '2')) :=
  @forward_reaches_session returningUser.1 returningUser.2 (chat 5 '2') 5 6 _
    (packet MSG_TYPE_CHAT_MSG (userName '1') (ascii ['h', 'i']))
    (packet MSG_TYPE_CHAT_MSG (userName '1') (ascii ['h', 'i']))
    (Run.run_exec_get (fun _ _ h => by simpa using h) _) (by decide +kernel) (by decide +kernel)
    (by decide)

def reusedDescriptor : List (Event × List Effect) × ServerState :=
  (Run.exec step (fun s e => decide (Enabled s e)) ([], start)
    [.accept 5 zeroed, .accept 6 zeroed, login 5 '1', login 6 '1', .eof 6, .accept 6 zeroed]).get
    (by decide +kernel)

/-- The close of 6 takes the pair of 5, and what is left names a descriptor that is no session. -/
theorem reusedDescriptor_forward_misses_session :
    ∃ log s e fd dest toUser frame accepted, Run step Enabled start log s ∧ Enabled s e ∧
      .forward fd toUser dest frame accepted ∈ (step s e).effects ∧ 0 ≤ dest ∧
      ¬ ∃ c, s.conns dest = some c ∧ c.clientState = .messageState ∧ c.user = .live toUser := by
  refine ⟨reusedDescriptor.1, reusedDescriptor.2, chat 5 '1', 5, 6, CString.ofBuffer (userName '1'),
    packet MSG_TYPE_CHAT_MSG (userName '1') (ascii ['h', 'i']),
    packet MSG_TYPE_CHAT_MSG (userName '1') (ascii ['h', 'i']),
    Run.run_exec_get (fun _ _ h => by simpa using h) _, by decide +kernel, by decide +kernel,
    by decide, ?_⟩
  have hstate :
      ((reusedDescriptor.2.conns 6).all fun c => c.clientState = .initialState) = true := by
    decide +kernel
  rintro ⟨c, hc, hs, _⟩
  rw [hc] at hstate
  simp [hs] at hstate

def isSession (s : ServerState) (fd : Int) (u : CString) : Bool :=
  match s.conns fd with
  | none => false
  | some c => c.clientState = .messageState ∧ c.user = .live u

/-- The pair that a removal by the connection's name would meet is not that of another session. -/
def sparesSessions (s : ServerState) (fd : Int) : Bool :=
  match s.conns fd with
  | none => true
  | some c =>
    match c.user with
    | .live u =>
      match s.tree.hbTreeSearch u with
      | .ok fd' => fd' = fd ∨ ¬ isSession s fd' u
      | .error _ => true
    | _ => true

/-- No close takes the pair of another session. -/
def closesOwn (s : ServerState) : Event → Bool
  | .epollerr fd => sparesSessions s fd
  | .eof fd => sparesSessions s fd
  | _ => true

structure SessionsArePaired (s : ServerState) : Prop where
  wf : s.tree.WellFormed
  fds : ∀ fd c, s.conns fd = some c → c.fd = fd
  paired : ∀ fd c, s.conns fd = some c → c.clientState = .messageState →
    ∃ u, c.user = .live u ∧ (u, fd) ∈ s.tree.pairs

theorem sessionsArePaired_start : SessionsArePaired start where
  wf := HbTree.wellFormed_new
  fds := by simp [start]
  paired := by simp [start]

namespace SessionsArePaired
variable {s : ServerState} {fd : Int}

theorem update (H : SessionsArePaired s) {tree : HbTree} {c' : Option ClientConnData}
    (hwf : tree.WellFormed) (hfd : ∀ c, c' = some c → c.fd = fd)
    (hown : ∀ c, c' = some c → c.clientState = .messageState →
      ∃ u, c.user = .live u ∧ (u, fd) ∈ tree.pairs)
    (hothers : ∀ fd' u, fd' ≠ fd → isSession s fd' u → (u, fd') ∈ s.tree.pairs →
      (u, fd') ∈ tree.pairs) : SessionsArePaired ⟨Function.update s.conns fd c', tree⟩ where
  wf := hwf
  fds := forall_update hfd fun fd' c _ hc => H.fds fd' c hc
  paired := by
    refine forall_update hown ?_
    intro fd' c he hc hs
    obtain ⟨u, hu, hp⟩ := H.paired fd' c hc hs
    exact ⟨u, hu, hothers fd' u he (by simp [isSession, hc, hs, hu]) hp⟩

theorem dropUser (H : SessionsArePaired s) {c : ClientConnData} {u : CString} {tree' : HbTree}
    {found : Bool} (hc : s.conns fd = some c) (hu : c.user = .live u) (hspare : sparesSessions s fd)
    (hr : s.tree.hbTreeRemove u = .ok (tree', found)) :
    SessionsArePaired ⟨Function.update s.conns fd none, tree'⟩ := by
  cases found with
  | true =>
    obtain ⟨fd', hfd', hwf, hperm⟩ := H.wf.of_remove_true hr
    simp only [sparesSessions, hc, hu, hfd', decide_eq_true_eq] at hspare
    refine H.update hwf (by simp) (by simp) ?_
    intro fd0 u0 he hsession hp
    rcases List.mem_cons.mp (hperm.mem_iff.mp hp) with hgone | hstays
    · cases hgone
      rcases hspare with hsame | hother
      · exact absurd hsame he
      · exact absurd hsession hother
    · exact hstays
  | false =>
    obtain ⟨hwf, hpairs, _⟩ := H.wf.of_remove_false hr
    exact H.update hwf (by simp) (by simp) fun _ _ _ _ hp => hpairs ▸ hp

theorem data (H : SessionsArePaired s) {c d : ClientConnData} {m : Mem} {env : Env} {tree' : HbTree}
    {c' : Option ClientConnData} (hc : s.conns fd = some c) (hd : SameSession c d)
    (h : SessionStep d m s.tree env c' tree') :
    SessionsArePaired ⟨Function.update s.conns fd c', tree'⟩ := by
  have hfd : d.fd = fd := hd.fd.trans (H.fds fd c hc)
  cases h with
  | closed => exact H.update H.wf (by simp) (by simp) fun _ _ _ _ hp => hp
  | @same d' h =>
    refine H.update H.wf ?_ ?_ fun _ _ _ _ hp => hp
    · rintro _ ⟨⟩
      exact h.fd.trans hfd
    · rintro _ ⟨⟩ hs
      have hs' := hd.trans h
      have hm := hs'.message.mp hs
      obtain ⟨u, hu, hp⟩ := H.paired fd c hc hm
      exact ⟨u, (hs'.user hm).trans hu, hp⟩
  | @login d' u tree' hnot hlogin hfd' hu hwf hpairs _ _ =>
    rw [hfd] at hfd' hpairs
    refine H.update hwf ?_ ?_ fun fd0 u0 _ _ hp => hpairs.mem_iff.mpr (List.mem_cons_of_mem _ hp)
    · rintro _ ⟨⟩
      exact hfd'
    · rintro _ ⟨⟩ _
      exact ⟨u, hu, hpairs.mem_iff.mpr List.mem_cons_self⟩

theorem step (H : SessionsArePaired s) {e : Event} {effs : List Effect} {s' : ServerState}
    (h : EventStep s e effs (.ok s')) (hk : closesOwn s e) : SessionsArePaired s' := by
  cases h with
  | accept fd junk hpos hfree =>
    refine H.update H.wf ?_ ?_ fun _ _ _ _ hp => hp
    · rintro _ ⟨⟩
      rfl
    · rintro _ ⟨⟩ hs
      cases hs
  | again fd => exact H
  | drop he hc hu => exact H.update H.wf (by simp) (by simp) fun _ _ _ _ hp => hp
  | @dropUser _ fd c u tree' found he hc hu hr =>
    have hspare : sparesSessions s fd := by rcases he with rfl | rfl <;> exact hk
    exact H.dropUser hc hu hspare hr
  | data hc hr hb h => exact H.data hc (receive_session hr) (h.session H.wf)

end SessionsArePaired

/-- As long as no close takes the pair of another session, and no event goes beyond the blocks of the
server, each session has its own. -/
theorem session_stays_registered {log : List (Event × List Effect)} {s : ServerState} {fd : Int}
    {c : ClientConnData}
    (run : Run step (fun s e => (Enabled s e ∧ keepsMemory s e) ∧ closesOwn s e) start log s)
    (hc : s.conns fd = some c) (hs : c.clientState = .messageState) :
    c.fd = fd ∧ ∃ u, c.user = .live u ∧ (u, fd) ∈ s.tree.pairs := by
  have H : SessionsArePaired s := run.invariant (I := fun _ s => SessionsArePaired s)
    sessionsArePaired_start fun _ s s' e H ha hok => H.step (hok ▸ step_event ha.1.1) ha.2
  exact ⟨H.fds fd c hc, H.paired fd c hc hs⟩

def firstCloses : List (Event × List Effect) × ServerState :=
  (Run.exec step (fun s e => (decide (Enabled s e) && keepsMemory s e) && closesOwn s e) ([], start)
    [.accept 5 zeroed, .accept 6 zeroed, login 5 '1', login 6 '1', .eof 5]).get (by decide +kernel)

theorem firstCloses_conn : (firstCloses.2.conns 6).isSome := by decide +kernel

theorem firstCloses_session_stays_registered :
    ((firstCloses.2.conns 6).get firstCloses_conn).fd = 6 ∧
      ∃ u, ((firstCloses.2.conns 6).get firstCloses_conn).user = .live u ∧
        (u, 6) ∈ firstCloses.2.tree.pairs :=
  @session_stays_registered firstCloses.1 firstCloses.2 6 _
    (Run.run_exec_get (fun _ _ h => by simpa using h) _) (Option.some_get firstCloses_conn).symm
    (by decide +kernel)

def answered : Effect → Bool
  | .reply _ frame accepted => accepted = frame
  | _ => true

def secondCloses : List (Event × List Effect) × ServerState :=
  (Run.exec step (fun s e => decide (Enabled s e)) ([], start)
    [.accept 5 zeroed, .accept 6 zeroed, login 5 '1', login 6 '1', .eof 6]).get (by decide +kernel)

theorem secondCloses_conn : (secondCloses.2.conns 5).isSome := by decide +kernel

/-- The close of 6 takes the pair of 5, whose session is still open. -/
theorem secondCloses_session_unregistered :
    ∃ log s fd c, Run step Enabled start log s ∧ (∀ p ∈ log, ∀ x ∈ p.2, answered x) ∧
      s.conns fd = some c ∧ c.clientState = .messageState ∧
      ¬ ∃ u, c.user = .live u ∧ (u, fd) ∈ s.tree.pairs := by
  refine ⟨secondCloses.1, secondCloses.2, 5, (secondCloses.2.conns 5).get secondCloses_conn,
    Run.run_exec_get (fun _ _ h => by simpa using h) _, by decide +kernel,
    (Option.some_get secondCloses_conn).symm, by decide +kernel, ?_⟩
  have hpairs : secondCloses.2.tree.pairs = [(CString.ofBuffer (userName '1'), 6)] := by
    decide +kernel
  rintro ⟨u, _, hp⟩
  rw [hpairs] at hp
  simp at hp

end Server
end TeamsInC
