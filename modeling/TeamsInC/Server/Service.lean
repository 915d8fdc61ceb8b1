import TeamsInC.Lib.Directory
import TeamsInC.Server.Reassembly
import TeamsInC.Server.Records

/-!
# The server as a chat service

What the server is for, without buffers, pointers and a tree: a directory of the sessions, in
which a login enters its connection, a chat message looks its recipient up, and a close
strikes an entry out. Every run of the server is a run of this service, whatever bytes it
receives and whatever becomes of its writes.
-/

set_option autoImplicit false

namespace TeamsInC
namespace Server
open Bytes

abbrev Service := Directory Int CString

/-- What the service is asked for, and what is chosen when it answers: the bytes of a frame that
are taken, and which of several entries a search finds. -/
inductive Request where
  | connect (fd : Int)
  | refuse (fd : Int) (user password : CString) (taken : List UInt8)
  | grant (fd : Int) (user password : CString) (taken : List UInt8)
  | relay (fd : Int) (user toUser : CString) (dest : Option Int) (messageType : UInt16)
      (text taken : List UInt8)
  | leave (fd : Int) (entry : Option Int)
  | hangUp (fd : Int)

def answer (text : List Char) : List UInt8 := serverBytes (ascii text)

namespace Service

def step (d : Service) : Request → Traced Empty Effect Service
  | .connect fd => ⟨[.accept fd], .ok (d.place fd .guest)⟩
  | .refuse fd _ _ taken => ⟨[.reply fd (answer ['4', '0', '1']) taken], .ok (d.place fd .guest)⟩
  | .grant fd user _ taken =>
    ⟨[.insert user fd, .reply fd (answer ['2', '0', '0']) taken],
      .ok (d.enter fd user (if taken = answer ['2', '0', '0'] then .member user else .entered user))⟩
  | .relay fd user toUser dest messageType text taken =>
    ⟨[.forward fd toUser (dest.getD (-1)) (packet messageType user.bytes text) taken], .ok d⟩
  | .leave fd entry =>
    match (d.standing fd).name with
    | none => ⟨[.close fd], .ok (d.place fd .away)⟩
    | some user => ⟨[.remove user entry.isSome, .close fd], .ok (d.leave fd user entry)⟩
  | .hangUp fd => ⟨[.close fd], .ok (d.place fd .away)⟩

/-- It has a connection, and no answer that made it a member. -/
def Asks (p : Standing CString) : Prop := p = .guest ∨ ∃ u, p = .entered u

def Permitted (d : Service) : Request → Prop
  | .connect fd => 0 ≤ fd ∧ d.standing fd = .away
  | .refuse fd user password taken =>
    Asks (d.standing fd) ∧ authVerify user password < 0 ∧ taken <+: answer ['4', '0', '1']
  | .grant fd user password taken =>
    Asks (d.standing fd) ∧ authVerify user password = 0 ∧ taken <+: answer ['2', '0', '0']
  | .relay fd user toUser dest messageType text taken =>
    d.standing fd = .member user ∧ d.Finds toUser dest ∧ text.length < 65536 ∧
      taken <+: packet messageType user.bytes text ∧ (dest = none → taken = [])
  | .leave fd entry =>
    d.standing fd ≠ .away ∧
      match (d.standing fd).name with
      | none => entry = none
      | some user => d.Finds user entry
  | .hangUp fd => d.standing fd = .guest ∨ ∃ u, d.standing fd = .member u

/-- A login is told of its success and gets a name that nobody has; no member is dropped without
its entry. -/
def Orderly (d : Service) : Request → Prop
  | .grant _ user _ taken => taken = answer ['2', '0', '0'] ∧ d.Finds user none
  | .hangUp fd => d.standing fd = .guest
  | _ => True

theorem step_leave_guest {d : Service} {fd : Int} (h : (d.standing fd).name = none) (entry : Option Int) :
    d.step (.leave fd entry) = ⟨[.close fd], .ok (d.place fd .away)⟩ := by
  simp only [step, h]

theorem step_leave_named {d : Service} {fd : Int} {u : CString} (h : (d.standing fd).name = some u)
    (entry : Option Int) :
    d.step (.leave fd entry) = ⟨[.remove u entry.isSome, .close fd], .ok (d.leave fd u entry)⟩ := by
  simp only [step, h]

/-- Only a grant that is answered in full makes a member. -/
theorem step_joins {d d' : Service} {r : Request} (hok : (d.step r).result = .ok d') {fd : Int} {u : CString}
    (h : d'.standing fd = .member u) :
    d.standing fd = .member u ∨ ∃ password, r = .grant fd u password (answer ['2', '0', '0']) := by
  have stays {fd' : Int} {p : Standing CString} (hp : p ≠ .member u)
      (hmember : Function.update d.standing fd' p fd = .member u) : d.standing fd = .member u := by
    by_cases hfd : fd' = fd
    · subst hfd
      exact absurd ((Function.update_self _ _ _).symm.trans hmember) hp
    · exact (Function.update_of_ne (Ne.symm hfd) _ _).symm.trans hmember
  cases r with
  | connect fd' =>
    cases hok
    exact .inl (stays (by simp) h)
  | refuse fd' =>
    cases hok
    exact .inl (stays (by simp) h)
  | grant fd' user password taken =>
    cases hok
    change Function.update d.standing fd' (if taken = _ then .member user else .entered user) fd = _ at h
    by_cases htaken : taken = answer ['2', '0', '0']
    · subst htaken
      rw [if_pos rfl] at h
      by_cases hnew : fd' = fd ∧ user = u
      · obtain ⟨rfl, rfl⟩ := hnew
        exact .inr ⟨password, rfl⟩
      · by_cases hfd : fd' = fd
        · subst hfd
          rw [Function.update_self] at h
          exact absurd ⟨rfl, Standing.member.inj h⟩ hnew
        · exact .inl ((Function.update_of_ne (Ne.symm hfd) _ _).symm.trans h)
    · rw [if_neg htaken] at h
      exact .inl (stays (by simp) h)
  | relay =>
    cases hok
    exact .inl h
  | leave fd' entry =>
    cases hname : (d.standing fd').name with
    | none =>
      rw [step_leave_guest hname] at hok
      cases hok
      exact .inl (stays (by simp) h)
    | some u' =>
      rw [step_leave_named hname] at hok
      cases hok
      cases entry with
      | none => exact .inl (stays (by simp) h)
      | some fd'' => exact .inl (stays (by simp) h)
  | hangUp fd' =>
    cases hok
    exact .inl (stays (by simp) h)

end Service

def standingOf : Option ClientConnData → Standing CString
  | none => .away
  | some c =>
    match c.user with
    | .live u => if c.clientState = .messageState then .member u else .entered u
    | _ => .guest

def serviceOf (s : ServerState) : Service := ⟨fun fd => standingOf (s.conns fd), s.tree.pairs⟩

/-- What the service shows: not the loads of a decoder, nor what is done with memory. -/
def isSeen : Effect → Bool
  | .decode _ _ _ => false
  | .verify _ _ _ _ _ _ => false
  | .misuse _ _ => false
  | _ => true

/-- `malloc` has left no name in a new record. -/
def startsNameless : Event → Bool
  | .accept _ junk => junk.user = .null
  | _ => true

/-- What the fields of a record of this descriptor say of its login. -/
structure Sound (fd : Int) (c : ClientConnData) : Prop where
  fd_eq : c.fd = fd
  initial : c.clientState = .initialState → c.user = .null
  user : c.user ≠ .freed
  message : c.clientState = .messageState → ∃ u ∈ accounts, c.user = .live u
  magic : c.clientState = .messageState → ∀ t, c.ptr = .live (.chat t) → t.header.magic = MAGIC

theorem sound_new (fd : Int) {junk : Junk} (h : junk.user = .null) :
    Sound fd (createNewClient fd junk) := by
  refine ⟨rfl, fun _ => h, ?_, ?_, ?_⟩
  · simp [createNewClient, h]
  · simp [createNewClient]
  · simp [createNewClient]

theorem receive_sound {fd : Int} {c d : ClientConnData} {chunk : List UInt8}
    (h : receive c chunk = .ok d) (hc : Sound fd c) :
    Sound fd d ∧ standingOf (some d) = standingOf (some c) := by
  obtain ⟨old, allocd, rfl, _⟩ := receive_ok h
  exact ⟨⟨hc.fd_eq, hc.initial, hc.user, hc.message, hc.magic⟩, rfl⟩

theorem Headed.sound {fd : Int} {c d : ClientConnData} {m : Mem} {pre : List Effect}
    (h : Headed c m pre d) (hc : Sound fd c) :
    Sound fd d ∧ standingOf (some d) = standingOf (some c) := by
  cases h with
  | auth => exact ⟨hc, rfl⟩
  | chat => exact ⟨hc, rfl⟩
  | initial hs _ magic =>
    refine ⟨⟨hc.fd_eq, ?_, hc.user, ?_, ?_⟩, ?_⟩
    · simp [withHeader]
    · simp [withHeader]
    · simp [withHeader]
    · simp [standingOf, withHeader, hc.initial hs]
  | first hs _ _ magic =>
    refine ⟨⟨hc.fd_eq, ?_, hc.user, fun _ => hc.message hs, ?_⟩, ?_⟩
    · simp [withHeader]
    · rintro _ t ⟨⟩
      exact magic
    · simp [standingOf, withHeader, hs]

theorem Headed.not_seen {c d : ClientConnData} {m : Mem} {pre : List Effect} (h : Headed c m pre d) :
    pre.filter isSeen = [] := by
  refine List.filter_eq_nil_iff.mpr ?_
  intro x hx
  rw [h.eq_decode hx]
  simp [isSeen]

@[simp] theorem misuseOf_not_seen {α : Type} (fd : Int) (item : Item) (p : Ptr α) :
    (misuseOf fd item p).filter isSeen = [] := by cases p <;> rfl

@[simp] theorem freeEffects_not_seen (c : ClientConnData) : (freeEffects c).filter isSeen = [] := by
  simp [freeEffects]

theorem writeLoop_taken (write : WriteOracle) (buff : List UInt8) :
    (writeLoop write buff (buff.length + 1) 0 0).1 <+: buff := by
  rcases @writeLoop_cases write buff (buff.length + 1) 0 0 (by omega) with
    ⟨_, hloop⟩ | ⟨_, _, rest, _, hrest⟩
  · rw [hloop]
    exact List.prefix_refl _
  · exact ⟨rest, hrest⟩

theorem Write_taken (fd : Int) (buff : List UInt8) (write : WriteOracle) :
    (Write fd buff write).1 <+: buff := writeLoop_taken _ _

theorem Write_negative {fd : Int} (h : fd < 0) (buff : List UInt8) (write : WriteOracle) :
    (Write fd buff write).1 = [] := by
  simp only [Write, if_pos h, writeLoop]
  split <;> rfl

theorem Write_all_iff (fd : Int) (buff : List UInt8) (write : WriteOracle) :
    (Write fd buff write).1 = buff ↔ 0 ≤ (Write fd buff write).2 := by
  rcases Write_cases fd buff write with h | ⟨hr, hne⟩
  · simp [h]
  · simp [hr, hne]

theorem replyFrame_401 : replyFrame (ascii ['4', '0', '1']) = answer ['4', '0', '1'] :=
  replyFrame_text (by decide)

theorem replyFrame_200 : replyFrame (ascii ['2', '0', '0']) = answer ['2', '0', '0'] :=
  replyFrame_text (by decide)

def loginName (c : ClientConnData) (m : Mem) : Option CString := (headed c m).map (loginUser · m)

/-- The bytes close no session, and a login that they complete is orderly. -/
def Orderly (d : Service) (c : ClientConnData) (m : Mem) (env : Env) : Prop :=
  badHeader c m = false ∧ (completesLogin c m = true →
    0 ≤ greeted c.fd env ∧ ∀ u, loginName c m = some u → d.Finds u none)

/-- The service after a request of this connection. -/
def Served (d : Service) (fd : Int) (effs : List Effect) (c' : Option ClientConnData) (tree' : HbTree)
    (r : Request) : Prop :=
  d.Permitted r ∧ d.step r = ⟨effs.filter isSeen,
    .ok ⟨Function.update d.standing fd (standingOf c'), tree'.pairs⟩⟩

section
variable {c : ClientConnData} {b : List UInt8} {tree tree' : HbTree} {env : Env} {effs : List Effect}
  {c' : Option ClientConnData} {fd : Int} {d : Service}

theorem standing_of_message {x : ClientConnData} {u : CString} (hu : x.user = .live u)
    (hs : x.clientState = .messageState) : standingOf (some x) = .member u := by
  simp [standingOf, hu, hs]

theorem Sound.asks {x : ClientConnData} (hx : Sound fd x) (hs : x.clientState = .authState) :
    Service.Asks (standingOf (some x)) := by
  cases hu : x.user with
  | null => exact .inl (by simp [standingOf, hu])
  | freed => exact absurd hu hx.user
  | live u => exact .inr ⟨u, by simp [standingOf, hu, hs]⟩

theorem Served.hangUp (hc : Sound fd c)
    (hs : c.clientState = .initialState ∨ c.clientState = .messageState)
    (hstanding : d.standing fd = standingOf (some c)) (hentries : d.entries = tree.pairs)
    (hseen : effs.filter isSeen = [.close fd]) : Served d fd effs none tree (.hangUp fd) := by
  refine ⟨?_, by rw [hseen, ← hentries]; rfl⟩
  rcases hs with hs | hs
  · exact .inl (by simp [hstanding, standingOf, hc.initial hs])
  · obtain ⟨u, _, hu⟩ := hc.message hs
    exact .inr ⟨u, hstanding.trans (standing_of_message hu hs)⟩

theorem Served.refuse {x : ClientConnData} {user password : CString} {taken : List UInt8}
    (hask : Service.Asks (d.standing fd)) (hv : authVerify user password < 0)
    (htaken : taken <+: answer ['4', '0', '1']) (hentries : d.entries = tree.pairs)
    (hseen : effs.filter isSeen = [.reply fd (answer ['4', '0', '1']) taken]) :
    Served d fd effs (some (rejectedRecord x)) tree (.refuse fd user password taken) :=
  ⟨⟨hask, hv, htaken⟩, by rw [hseen, ← hentries]; rfl⟩

theorem Served.grant {x : ClientConnData} {user password : CString} {taken : List UInt8}
    (hask : Service.Asks (d.standing fd)) (hv : authVerify user password = 0)
    (htaken : taken <+: answer ['2', '0', '0']) (hentries : d.entries = tree.pairs)
    (hpairs : tree'.pairs.Perm ((user, fd) :: tree.pairs)) (hu : x.user = .live user)
    (hs : x.clientState = .messageState ↔ taken = answer ['2', '0', '0'])
    (hseen : effs.filter isSeen = [.insert user fd, .reply fd (answer ['2', '0', '0']) taken]) :
    Served d fd effs (some x) tree' (.grant fd user password taken) := by
  have hnew : standingOf (some x) =
      if taken = answer ['2', '0', '0'] then .member user else .entered user := by
    simp only [standingOf, hu, hs]
  have hperm : (tree'.pairs : Multiset KeyFd) = (user, fd) ::ₘ d.entries := by
    rw [hentries, Multiset.cons_coe]
    exact Multiset.coe_eq_coe.mpr hpairs
  exact ⟨⟨hask, hv, htaken⟩, by rw [hseen, hnew, hperm]; rfl⟩

theorem Served.relay {x : ClientConnData} {user toUser : CString} {dest : Int} {messageType : UInt16}
    {text taken : List UInt8} (hmember : d.standing fd = .member user) (hx : standingOf (some x) = .member user)
    (hsearch : (toUser, dest) ∈ tree.pairs ∨ dest = -1 ∧ ∀ p ∈ tree.pairs, p.1 ≠ toUser)
    (hentries : d.entries = tree.pairs) (htext : text.length < 65536)
    (htaken : taken <+: packet messageType user.bytes text) (hnone : dest < 0 → taken = [])
    (hseen : effs.filter isSeen =
      [.forward fd toUser dest (packet messageType user.bytes text) taken]) :
    ∃ r, Served d fd effs (some x) tree r ∧ d.Orderly r := by
  have hsame : (⟨Function.update d.standing fd (standingOf (some x)), tree.pairs⟩ : Service) = d := by
    rw [hx, ← hmember, Function.update_eq_self, ← hentries]
  rcases hsearch with hmem | ⟨rfl, hno⟩
  · refine ⟨.relay fd user toUser (some dest) messageType text taken, ⟨⟨hmember, ?_, htext, htaken, ?_⟩, ?_⟩,
      trivial⟩
    · simpa [Directory.Finds, hentries] using hmem
    · simp
    · rw [hseen, hsame]
      rfl
  · refine ⟨.relay fd user toUser none messageType text taken, ⟨⟨hmember, ?_, htext, htaken, ?_⟩, ?_⟩,
      trivial⟩
    · intro fd' hmem
      rw [hentries] at hmem
      exact hno _ (Multiset.mem_coe.mp hmem) rfl
    · exact fun _ => hnone (by omega)
    · rw [hseen, hsame]
      rfl

theorem chatFrame_packet {x : ClientConnData} {m : Mem} {h : MessageHeader} {user : CString}
    (hmagic : h.magic = MAGIC) (hu : user ∈ accounts) :
    chatFrame x m h user = packet h.messageType user.bytes (m.second x.offset) := by
  have hshort : user.strlen < 65536 := Nat.lt_trans (accounts_fit user hu) (by decide)
  have hlt := (m.u16 (m.secondAt x.offset).toNat).toNat_lt
  have hlen := m.second_length x.offset
  rw [chatFrame_relayed, relayed_eq hmagic _ hshort (by omega)]

theorem Headed.seen_grant {pre : List Effect} {x : ClientConnData} (hx : Headed c (env.mem b) pre x)
    (hfd : x.fd = fd) :
    (pre ++ [fieldsDecoded x (env.mem b), verified x b (env.mem b) true,
      .insert (loginUser x (env.mem b)) x.fd, replied x ['2', '0', '0'] env]).filter isSeen =
      [.insert (loginUser x (env.mem b)) fd, .reply fd (answer ['2', '0', '0'])
        (Write fd (answer ['2', '0', '0']) env.write).1] := by
  simp [List.filter_cons, hx.not_seen, isSeen, fieldsDecoded, verified, replied, hfd, replyFrame_200]

/-- What the bytes of a read come to is nothing, or one request of the service. -/
theorem DataStep.serves (h : DataStep c b tree env effs (.ok (c', tree'))) (hc : Sound fd c)
    (hwf : tree.WellFormed) (hstanding : d.standing fd = standingOf (some c))
    (hentries : d.entries = tree.pairs) :
    (standingOf c' = standingOf (some c) ∧ tree' = tree ∧ effs.filter isSeen = []) ∨
      ∃ r, Served d fd effs c' tree' r ∧ (Orderly d c (env.mem b) env → d.Orderly r) := by
  have own {pre x} (hx : Headed c (env.mem b) pre x) : Sound fd x ∧ d.standing fd = standingOf (some x) :=
    ⟨(hx.sound hc).1, hstanding.trans (hx.sound hc).2.symm⟩
  have inserted {x : ClientConnData} {l : LinkedTree.Link} (hx : x.fd = fd)
      (hv : authVerify (loginUser x (env.mem b)) (loginPassword x (env.mem b)) = 0)
      (hi : tree.hbTreeInsert (loginUser x (env.mem b)) x.fd env.bal = .ok (tree', l)) :
      l ≠ none ∧ tree'.pairs.Perm ((loginUser x (env.mem b), fd) :: tree.pairs) := by
    obtain ⟨hl, _, hp⟩ := hwf.of_insert (accounts_fit _ (authVerify_mem hv).1) hi
    exact ⟨hl, hx ▸ hp⟩
  cases h with
  | idle => exact .inl ⟨rfl, rfl, rfl⟩
  | short => exact .inl ⟨rfl, rfl, rfl⟩
  | wait hx => exact .inl ⟨(hx.sound hc).2, rfl, hx.not_seen⟩
  | badHeader hs hused magic =>
    refine .inr ⟨_, Served.hangUp hc (hs.imp_right And.left) hstanding hentries ?_, ?_⟩
    · simp [List.filter_cons, isSeen, hc.fd_eq]
    · intro horderly
      rcases hs with hs | ⟨hs, hoff⟩
      · simp [Service.Orderly, hstanding, standingOf, hc.initial hs]
      · have hbad := horderly.1
        rw [hoff] at magic
        simp [Server.badHeader, hs, hoff, hused, magic] at hbad
  | @rejected pre x t hx hs hp hlen hv =>
    obtain ⟨hsound, hst⟩ := own hx
    have hseen : (pre ++ [fieldsDecoded x (env.mem b), verified x b (env.mem b) false,
        replied x ['4', '0', '1'] env] ++ misuseOf x.fd .user x.user).filter isSeen =
          [.reply fd (answer ['4', '0', '1']) (Write fd (answer ['4', '0', '1']) env.write).1] := by
      simp [List.filter_cons, hx.not_seen, isSeen, fieldsDecoded, verified, replied, hsound.fd_eq,
        replyFrame_401]
    have hask : Service.Asks (d.standing fd) := by
      rw [hst]
      exact hsound.asks hs
    exact .inr ⟨_, Served.refuse hask hv (Write_taken _ _ _) hentries hseen, fun _ => trivial⟩
  | notInserted hx _ _ _ hv hi =>
    exact absurd rfl (inserted (own hx).1.fd_eq hv hi).1
  | @accepted pre x t _ a hx hs hp hlen hv hi hw =>
    obtain ⟨hsound, hst⟩ := own hx
    rw [hsound.fd_eq, replyFrame_200] at hw
    have hall := (Write_all_iff fd (answer ['2', '0', '0']) env.write).mpr hw
    refine .inr ⟨_, Served.grant (hst ▸ hsound.asks hs) hv (Write_taken _ _ _) hentries
      (inserted hsound.fd_eq hv hi).2 rfl (iff_of_true rfl hall) (hx.seen_grant hsound.fd_eq), ?_⟩
    intro horderly
    exact ⟨hall, (horderly.2 (hx.completesLogin hs hp hlen hv)).2 _ (by simp [loginName, hx.headed])⟩
  | @unanswered pre x t _ a hx hs hp hlen hv hi hw =>
    obtain ⟨hsound, hst⟩ := own hx
    rw [hsound.fd_eq, replyFrame_200] at hw
    have hpart := (Write_all_iff fd (answer ['2', '0', '0']) env.write).not.mpr (by omega)
    refine .inr ⟨_, Served.grant (hst ▸ hsound.asks hs) hv (Write_taken _ _ _) hentries
      (inserted hsound.fd_eq hv hi).2 rfl (iff_of_false ?_ hpart) (hx.seen_grant hsound.fd_eq), ?_⟩
    · simp [afterLogin, hs]
    · intro horderly
      have hgreet := (horderly.2 (hx.completesLogin hs hp hlen hv)).1
      rw [greeted, hc.fd_eq, replyFrame_200] at hgreet
      omega
  | @forwarded pre x t dest user hx hs hp hlen hdest hu =>
    obtain ⟨hsound, hst⟩ := own hx
    obtain ⟨u, hacc, hu'⟩ := hsound.message hs
    obtain rfl : user = u := by
      rw [hu] at hu'
      exact Ptr.live.inj hu'
    obtain ⟨dest', hdest', hspec⟩ := hwf.search (chatTo x (env.mem b))
    obtain rfl : dest = dest' := by
      rw [hdest] at hdest'
      exact Except.ok.inj hdest'
    have hframe := chatFrame_packet (x := x) (m := env.mem b) (hsound.magic hs t hp) hacc
    have hmember : standingOf (some x) = .member user := standing_of_message hu hs
    have hlt := ((env.mem b).u16 ((env.mem b).secondAt x.offset).toNat).toNat_lt
    have htext : ((env.mem b).second x.offset).length < 65536 := by
      rw [Mem.second_length]
      exact hlt
    have hseen : (pre ++ [fieldsDecoded x (env.mem b), .forward x.fd (chatTo x (env.mem b)) dest
        (chatFrame x (env.mem b) t.header user)
        (Write dest (chatFrame x (env.mem b) t.header user) env.write).1]).filter isSeen =
        [.forward fd (chatTo x (env.mem b)) dest (chatFrame x (env.mem b) t.header user)
          (Write dest (chatFrame x (env.mem b) t.header user) env.write).1] := by
      simp [List.filter_cons, hx.not_seen, isSeen, fieldsDecoded, hsound.fd_eq]
    rw [hframe] at hseen ⊢
    obtain ⟨r, hserved, horderly⟩ := Served.relay (x := cleared x) (hst.trans hmember) hmember hspec
      hentries htext (Write_taken dest _ env.write) (Write_negative · _ _) hseen
    exact .inr ⟨r, hserved, fun _ => horderly⟩

theorem DataStep.seen_actions {c' : ClientConnData} (h : DataStep c b tree env effs (.ok (some c', tree'))) :
    effs.filter isSeen = actions effs := by
  cases h with
  | idle => rfl
  | short => rfl
  | wait hx => rw [hx.not_seen, hx.actions]
  | rejected hx =>
    simp [List.filter_cons, hx.not_seen, hx.actions, isSeen, isAction, fieldsDecoded, verified, replied]
  | notInserted hx =>
    simp [List.filter_cons, hx.not_seen, hx.actions, isSeen, isAction, fieldsDecoded, verified, replied]
  | accepted hx =>
    simp [List.filter_cons, hx.not_seen, hx.actions, isSeen, isAction, fieldsDecoded, verified, replied]
  | unanswered hx =>
    simp [List.filter_cons, hx.not_seen, hx.actions, isSeen, isAction, fieldsDecoded, verified, replied]
  | forwarded hx =>
    simp [List.filter_cons, hx.not_seen, hx.actions, isSeen, isAction, fieldsDecoded]

theorem DataStep.sound {c' : ClientConnData} (h : DataStep c b tree env effs (.ok (some c', tree')))
    (hc : Sound fd c) : Sound fd c' := by
  cases h with
  | idle => exact hc
  | short => exact hc
  | wait hx => exact (hx.sound hc).1
  | rejected hx =>
    refine ⟨(hx.sound hc).1.fd_eq, fun _ => rfl, ?_, ?_, ?_⟩ <;> simp [rejectedRecord]
  | notInserted hx =>
    refine ⟨(hx.sound hc).1.fd_eq, fun _ => rfl, ?_, ?_, ?_⟩ <;> simp [rejectedRecord]
  | accepted hx _ _ _ hv =>
    refine ⟨(hx.sound hc).1.fd_eq, ?_, ?_, fun _ => ⟨_, (authVerify_mem hv).1, rfl⟩, ?_⟩ <;> simp [cleared]
  | unanswered hx hs _ _ hv =>
    refine ⟨(hx.sound hc).1.fd_eq, ?_, ?_, fun _ => ⟨_, (authVerify_mem hv).1, rfl⟩, ?_⟩ <;>
      simp [afterLogin, hs]
  | forwarded hx hs =>
    have hsound := (hx.sound hc).1
    exact ⟨hsound.fd_eq, hsound.initial, hsound.user, hsound.message, by simp [cleared]⟩

end

theorem serviceOf_update (s : ServerState) (fd : Int) (c' : Option ClientConnData) (tree' : HbTree) :
    serviceOf ⟨Function.update s.conns fd c', tree'⟩ =
      ⟨Function.update (serviceOf s).standing fd (standingOf c'), tree'.pairs⟩ := by
  have h : (fun fd' => standingOf (Function.update s.conns fd c' fd')) =
      Function.update (fun fd' => standingOf (s.conns fd')) fd (standingOf c') := by
    funext fd'
    by_cases hfd : fd' = fd
    · subst hfd
      simp
    · simp [hfd]
  rw [serviceOf, h]
  rfl

theorem serviceOf_start : serviceOf start = Directory.empty := by
  simp [serviceOf, start, HbTree.pairs_new, standingOf, Directory.empty]

/-- Every record is sound, and the tree is well-formed. -/
structure SoundState (s : ServerState) : Prop where
  wf : s.tree.WellFormed
  sound : ∀ fd c, s.conns fd = some c → Sound fd c

/-- No session is dropped for a bad header, and a login that is accepted is answered and gets a
name that has no entry. -/
def orderly (s : ServerState) : Event → Bool
  | .data fd chunk env =>
    match arrived s fd chunk with
    | none => true
    | some (c, b) =>
      badHeader c (env.mem b) = false ∧ (completesLogin c (env.mem b) → 0 ≤ greeted fd env ∧
        ∀ u ∈ loginName c (env.mem b), ∀ p ∈ s.tree.pairs, p.1 ≠ u)
  | _ => true

/-- The step of the server is the answer to this request, or shows nothing and leaves the service
as it was. -/
def Responds (s : ServerState) (effs : List Effect) (s' : ServerState) (r : Request) : Prop :=
  (serviceOf s).Permitted r ∧ (serviceOf s).step r = ⟨effs.filter isSeen, .ok (serviceOf s')⟩

section
variable {s s' : ServerState} {e : Event} {effs : List Effect}

theorem EventStep.answers (h : EventStep s e effs (.ok s')) (H : SoundState s)
    (hnameless : startsNameless e) :
    (serviceOf s' = serviceOf s ∧ effs.filter isSeen = []) ∨
      ∃ r, Responds s effs s' r ∧ (orderly s e → (serviceOf s).Orderly r) := by
  cases h with
  | again => exact .inl ⟨rfl, rfl⟩
  | accept fd junk hpos hfree =>
    refine .inr ⟨.connect fd, ⟨⟨hpos, by simp [serviceOf, hfree, standingOf]⟩, ?_⟩, fun _ => trivial⟩
    rw [serviceOf_update]
    have hguest : standingOf (some (createNewClient fd junk)) = .guest := by
      have huser : junk.user = .null := by simpa [startsNameless] using hnameless
      simp [standingOf, createNewClient, huser]
    rw [hguest]
    rfl
  | @drop _ fd c he hc hu =>
    have hst : (serviceOf s).standing fd = .guest := by simp [serviceOf, hc, standingOf, hu]
    have hname : ((serviceOf s).standing fd).name = none := by simp [hst, Standing.name]
    have hseen : (Effect.close c.fd :: freeEffects c).filter isSeen = [.close fd] := by
      simp [List.filter_cons, isSeen, (H.sound fd c hc).fd_eq]
    refine .inr ⟨.leave fd none, ⟨⟨by simp [hst], by simp [hname]⟩, ?_⟩, fun _ => trivial⟩
    rw [serviceOf_update, Service.step_leave_guest hname, hseen]
    rfl
  | @dropUser _ fd c u tree' found he hc hu hr =>
    have hst : (serviceOf s).standing fd ≠ .away := by
      simp only [serviceOf, hc, standingOf, hu]
      split <;> simp
    have hname : ((serviceOf s).standing fd).name = some u := by
      simp only [serviceOf, hc, standingOf, hu]
      split <;> rfl
    have hseen : (Effect.remove u found :: .close c.fd :: freeEffects c).filter isSeen =
        [.remove u found, .close fd] := by
      simp [List.filter_cons, isSeen, (H.sound fd c hc).fd_eq]
    cases found with
    | true =>
      obtain ⟨fd', _, _, hperm⟩ := H.wf.of_remove_true hr
      have hpairs : (serviceOf s).entries.erase (u, fd') = tree'.pairs := by
        have hcons : (s.tree.pairs : Multiset KeyFd) = (u, fd') ::ₘ (tree'.pairs : Multiset KeyFd) := by
          rw [Multiset.cons_coe]
          exact Multiset.coe_eq_coe.mpr hperm
        rw [serviceOf, hcons, Multiset.erase_cons_head]
      have hmem : (u, fd') ∈ (serviceOf s).entries := Multiset.mem_coe.mpr (hperm.mem_iff.mpr (by simp))
      refine .inr ⟨.leave fd (some fd'), ⟨⟨hst, by simp [hname, Directory.Finds, hmem]⟩, ?_⟩,
        fun _ => trivial⟩
      rw [serviceOf_update, Service.step_leave_named hname, hseen, ← hpairs]
      rfl
    | false =>
      obtain ⟨_, hpairs, hno⟩ := H.wf.of_remove_false hr
      have hnone : (serviceOf s).Finds u none := fun fd' hmem => hno _ (Multiset.mem_coe.mp hmem) rfl
      refine .inr ⟨.leave fd none, ⟨⟨hst, by simp [hname, hnone]⟩, ?_⟩, fun _ => trivial⟩
      rw [serviceOf_update, Service.step_leave_named hname, hseen, hpairs]
      rfl
  | @data fd chunk env c x b effs c' tree' hc hr hb h =>
    obtain ⟨hsound, hsame⟩ := receive_sound hr (H.sound fd c hc)
    have hstanding : (serviceOf s).standing fd = standingOf (some x) := by
      rw [hsame, ← hc]
      rfl
    rcases h.serves hsound H.wf hstanding rfl with ⟨hst, rfl, hseen⟩ | ⟨r, ⟨hpermitted, hstep⟩, horderly⟩
    · refine .inl ⟨?_, hseen⟩
      rw [serviceOf_update, hst, ← hstanding, Function.update_eq_self]
      rfl
    · refine .inr ⟨r, ⟨hpermitted, by rw [hstep, serviceOf_update]⟩, ?_⟩
      intro ho
      apply horderly
      simp only [orderly, arrived_eq hc hr hb, decide_eq_true_eq] at ho
      refine ⟨ho.1, fun hlogin => ⟨?_, ?_⟩⟩
      · rw [hsound.fd_eq]
        exact (ho.2 hlogin).1
      · intro u hu fd' hmem
        exact (ho.2 hlogin).2 u hu _ (Multiset.mem_coe.mp hmem) rfl

theorem EventStep.seen_actions {fd : Int} {chunk : Chunk} {env : Env}
    (h : EventStep s (.data fd chunk env) effs (.ok s')) (hconn : (s'.conns fd).isSome) :
    effs.filter isSeen = actions effs := by
  cases h with
  | drop he => simp at he
  | dropUser he => simp at he
  | data hc hr hb h =>
    obtain ⟨c', hc'⟩ := Option.isSome_iff_exists.mp hconn
    simp only [Function.update_self] at hc'
    subst hc'
    exact h.seen_actions

theorem SoundState.step (H : SoundState s) (h : EventStep s e effs (.ok s'))
    (hnameless : startsNameless e) : SoundState s' := by
  refine ⟨h.wellFormed H.wf, ?_⟩
  cases h with
  | again => exact H.sound
  | accept fd junk =>
    refine forall_update ?_ fun fd' c _ hc => H.sound fd' c hc
    rintro _ ⟨⟩
    exact sound_new fd (by simpa [startsNameless] using hnameless)
  | drop => exact forall_update (by simp) fun fd' c _ hc => H.sound fd' c hc
  | dropUser => exact forall_update (by simp) fun fd' c _ hc => H.sound fd' c hc
  | data hc hr hb h =>
    refine forall_update ?_ fun fd' c _ hc => H.sound fd' c hc
    rintro _ rfl
    exact h.sound (receive_sound hr (H.sound _ _ hc)).1

end

theorem soundState_start : SoundState start := ⟨HbTree.wellFormed_new, by simp [start]⟩

theorem run_sound {log : List (Event × List Effect)} {s : ServerState}
    (run : Run step (fun s e => Enabled s e ∧ startsNameless e) start log s) : SoundState s := by
  refine run.invariant (I := fun _ s => SoundState s) soundState_start ?_
  intro _ s s' e H ha hok
  exact H.step (hok ▸ step_event ha.1) ha.2

/-- Every run of the server is a run of the service, and they show the same. -/
theorem server_refines_service {log : List (Event × List Effect)} {s : ServerState}
    (run : Run step (fun s e => Enabled s e ∧ startsNameless e) start log s) :
    ∃ log', Run Service.step Service.Permitted Directory.empty log' (serviceOf s) ∧
      log'.flatMap Prod.snd = (log.flatMap Prod.snd).filter isSeen := by
  refine run.refines serviceOf isSeen serviceOf_start ?_
  intro log s s' e run ha hok
  rcases (hok ▸ step_event ha.1 : EventStep s e _ (.ok s')).answers (run_sound run) ha.2 with
    h | ⟨r, ⟨hpermitted, hstep⟩, _⟩
  · exact .inl h
  · exact .inr ⟨r, hpermitted, by rw [hstep], by rw [hstep]⟩

def visits : List Event :=
  [.accept 5 zeroed, .accept 6 zeroed, login 5 '1', login 6 '2', chat 6 '1', .eof 5,
    .accept 5 zeroed, login 5 'x', login 5 '1', chat 5 '2']

def visited : List (Event × List Effect) × ServerState :=
  (Run.exec step (fun s e => decide (Enabled s e) && startsNameless e) ([], start) visits).get
    (by decide +kernel)

theorem visited_refines_service :
    ∃ log', Run Service.step Service.Permitted Directory.empty log' (serviceOf visited.2) ∧
      log'.flatMap Prod.snd = (visited.1.flatMap Prod.snd).filter isSeen :=
  server_refines_service (Run.run_exec_get (fun _ _ h => by simpa using h) _)

/-- The directory is exact, and every connection that has an entry has been told so. -/
structure Service.InOrder (d : Service) : Prop where
  exact : d.Exact
  told : ∀ fd u, d.standing fd ≠ .entered u

theorem Service.inOrder_empty : Service.InOrder Directory.empty := by
  refine ⟨.empty, ?_⟩
  simp [Directory.empty]

namespace Service.InOrder
variable {d d' : Service} {fd : Int}

theorem place (H : Service.InOrder d) {p : Standing CString} (hold : ∀ u, d.standing fd ≠ .member u)
    (hmember : ∀ u, p ≠ .member u) (hentered : ∀ u, p ≠ .entered u) : Service.InOrder (d.place fd p) := by
  refine ⟨H.exact.place hold hmember, ?_⟩
  intro fd' u
  by_cases hfd : fd' = fd
  · subst hfd
    simpa [Directory.place] using hentered u
  · simpa [Directory.place, hfd] using H.told fd' u

theorem not_member_of_asks (hask : Asks (d.standing fd)) (u : CString) : d.standing fd ≠ .member u := by
  rcases hask with h | ⟨u', h⟩ <;> simp [h]

theorem step (H : Service.InOrder d) {r : Request} (hpermitted : d.Permitted r) (horderly : d.Orderly r)
    (hok : (d.step r).result = .ok d') : Service.InOrder d' := by
  cases r with
  | connect fd =>
    cases hok
    exact H.place (by simp [hpermitted.2]) (by simp) (by simp)
  | refuse fd user password taken =>
    cases hok
    exact H.place (not_member_of_asks hpermitted.1) (by simp) (by simp)
  | grant fd user password taken =>
    obtain ⟨htaken, hfree⟩ := horderly
    have hold := not_member_of_asks hpermitted.1
    cases hok
    rw [if_pos htaken]
    refine ⟨H.exact.enter hold hfree, ?_⟩
    intro fd' u
    by_cases hfd : fd' = fd
    · subst hfd
      simp [Directory.enter]
    · simpa [Directory.enter, hfd] using H.told fd' u
  | relay => cases hok; exact H
  | hangUp fd =>
    have hguest : d.standing fd = .guest := horderly
    cases hok
    exact H.place (by simp [hguest]) (by simp) (by simp)
  | leave fd entry =>
    obtain ⟨haway, hentry⟩ := hpermitted
    cases hst : d.standing fd with
    | away => exact absurd hst haway
    | entered u => exact absurd hst (H.told fd u)
    | guest =>
      rw [step_leave_guest (by rw [hst]; rfl)] at hok
      cases hok
      exact H.place (by simp [hst]) (by simp) (by simp)
    | member u =>
      have hname : (d.standing fd).name = some u := by rw [hst]; rfl
      rw [step_leave_named hname] at hok
      rw [hname] at hentry
      cases hok
      have hexact := H.exact.leave hst hentry
      refine ⟨hexact, ?_⟩
      intro fd' u'
      obtain rfl := (H.exact.finds_iff hentry fd).mpr hst
      by_cases hfd : fd' = fd
      · subst hfd
        simp [Directory.leave]
      · simpa [Directory.leave, hfd] using H.told fd' u'

end Service.InOrder

theorem inOrder_step {s s' : ServerState} {e : Event} (H : SoundState s)
    (hin : Service.InOrder (serviceOf s)) (he : Enabled s e) (hnameless : startsNameless e)
    (ho : orderly s e) (hok : (step s e).result = .ok s') :
    SoundState s' ∧ Service.InOrder (serviceOf s') := by
  have hstep : EventStep s e (step s e).effects (.ok s') := hok ▸ step_event he
  refine ⟨H.step hstep hnameless, ?_⟩
  rcases hstep.answers H hnameless with ⟨hsame, _⟩ | ⟨r, ⟨hpermitted, hr⟩, horderly⟩
  · rw [hsame]
    exact hin
  · exact hin.step hpermitted (horderly ho) (by rw [hr])

theorem service_inOrder {log : List (Request × List Effect)} {d : Service}
    (run : Run Service.step (fun d r => d.Permitted r ∧ d.Orderly r) Directory.empty log d) :
    Service.InOrder d := by
  refine run.invariant (I := fun _ d => Service.InOrder d) Service.inOrder_empty ?_
  intro _ d d' r H ha hok
  exact H.step ha.1 ha.2 hok

theorem orderly_inOrder {log : List (Event × List Effect)} {s : ServerState}
    (run : Run step (fun s e => (Enabled s e ∧ startsNameless e) ∧ orderly s e) start log s) :
    Service.InOrder (serviceOf s) := by
  obtain ⟨_, run', _⟩ : ∃ log', Run Service.step (fun d r => d.Permitted r ∧ d.Orderly r)
      Directory.empty log' (serviceOf s) ∧
        log'.flatMap Prod.snd = (log.flatMap Prod.snd).filter isSeen := by
    refine run.refines serviceOf isSeen serviceOf_start ?_
    intro log s s' e run ha hok
    have hsound := run_sound (run.mono fun _ _ h => h.1)
    rcases (hok ▸ step_event ha.1.1 : EventStep s e _ (.ok s')).answers hsound ha.1.2 with
      h | ⟨r, ⟨hpermitted, hstep⟩, horderly⟩
    · exact .inl h
    · exact .inr ⟨r, ⟨hpermitted, horderly ha.2⟩, by rw [hstep], by rw [hstep]⟩
  exact service_inOrder run'

/-- In an orderly run the tree holds the pairs of the open sessions and no others, no two
sessions have one name, and a search for a name answers with its session. -/
theorem orderly_search_finds_session {log : List (Event × List Effect)} {s : ServerState}
    (run : Run step (fun s e => (Enabled s e ∧ startsNameless e) ∧ orderly s e) start log s) :
    s.tree.pairs.Nodup ∧ (∀ u fd, (u, fd) ∈ s.tree.pairs ↔ standingOf (s.conns fd) = .member u) ∧
      ∀ u, (∃ fd, s.tree.hbTreeSearch u = .ok fd ∧
          ∀ fd', standingOf (s.conns fd') = .member u ↔ fd' = fd) ∨
        s.tree.hbTreeSearch u = .ok (-1) ∧ ∀ fd', standingOf (s.conns fd') ≠ .member u := by
  have H := (orderly_inOrder run).exact
  have hwf := (run_sound (run.mono fun _ _ h => h.1)).wf
  refine ⟨Multiset.coe_nodup.mp H.nodup, H.member, ?_⟩
  intro u
  obtain ⟨fd, hsearch, hspec⟩ := hwf.search u
  rcases hspec with hmem | ⟨rfl, hno⟩
  · refine .inl ⟨fd, hsearch, ?_⟩
    intro fd'
    have hfinds : (serviceOf s).Finds u (some fd) := Multiset.mem_coe.mpr hmem
    exact (H.finds_iff hfinds fd').symm.trans ⟨fun h => (Option.some.inj h).symm, fun h => by rw [h]⟩
  · refine .inr ⟨hsearch, ?_⟩
    intro fd' hmember
    exact hno _ (Multiset.mem_coe.mp ((H.member u fd').mpr hmember)) rfl

def orderlyVisited : List (Event × List Effect) × ServerState :=
  (Run.exec step (fun s e => (decide (Enabled s e) && startsNameless e) && orderly s e) ([], start)
    visits).get (by decide +kernel)

theorem orderlyVisited_search_finds_session :
    orderlyVisited.2.tree.pairs.Nodup ∧ (∀ u fd, (u, fd) ∈ orderlyVisited.2.tree.pairs ↔
      standingOf (orderlyVisited.2.conns fd) = .member u) ∧
        ∀ u, (∃ fd, orderlyVisited.2.tree.hbTreeSearch u = .ok fd ∧
            ∀ fd', standingOf (orderlyVisited.2.conns fd') = .member u ↔ fd' = fd) ∨
          orderlyVisited.2.tree.hbTreeSearch u = .ok (-1) ∧
            ∀ fd', standingOf (orderlyVisited.2.conns fd') ≠ .member u :=
  orderly_search_finds_session (Run.run_exec_get (fun _ _ h => by simpa using h) _)

end Server
end TeamsInC
