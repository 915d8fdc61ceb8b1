import TeamsInC.Protocol.Phases

/-!
# Delivery

In every run of the network in which no read goes past a frame, each connection stays in a
phase. So messages are forwarded in the order in which they are typed, frames are shown in the
order in which they are forwarded, what is neither is on its way, and what is shown under a
name was typed by somebody who has logged in under it.
-/

set_option autoImplicit false

namespace TeamsInC
namespace Protocol
open Client Server

/-- What the server has done, as it is recorded for a connection and comes to its client. -/
def noted (fd : Int) (acts : List Effect) (g : Ledger) : Ledger :=
  (acts.map Happening.server).foldl (Ledger.record fd) g

def touched (fd : Int) (acts : List Effect) (l : Link) : Link :=
  { l with toClient := l.toClient ++ sentTo fd acts }

@[simp] theorem touched_nil (fd : Int) (l : Link) : touched fd [] l = l := by
  simp [touched, sentTo]

def goodbye (fd : Int) : Standing CString → List Effect
  | .member u => [.remove u true, .close fd]
  | _ => [.close fd]

/-- After these happenings. -/
structure Linked (xs : List Happening) (net : Network) : Prop where
  sound : SoundState net.server
  inOrder : Service.InOrder (serviceOf net.server)
  nonneg : ∀ fd c, net.server.conns fd = some c → 0 ≤ fd
  between : ∀ fd c, net.server.conns fd = some c →
    ∃ l, net.links fd = some l ∧ Between (ledger fd xs) c l
  gone : ∀ fd, net.server.conns fd = none → net.links fd = none

theorem holding_user (c : ClientConnData) (b : List UInt8) : (holding c b).user = c.user := by
  simp only [holding]
  split
  · rfl
  · split <;> rfl

theorem holding_fd (c : ClientConnData) (b : List UInt8) : (holding c b).fd = c.fd := by
  simp only [holding]
  split
  · rfl
  · split <;> rfl

theorem holding_session {c : ClientConnData} (hs : c.clientState = .messageState) (b : List UInt8) :
    (holding c b).clientState = .messageState := by
  simp only [holding]
  split
  · exact hs
  · split
    · exact hs
    · simp [hs, headedState]

theorem holding_initial {c : ClientConnData} (hs : c.clientState = .initialState) (b : List UInt8) :
    (holding c b).clientState ≠ .messageState := by
  simp only [holding]
  split
  · simp [hs]
  · split
    · simp [filled, hs]
    · simp [hs, headedState]

theorem standing_member {c : ClientConnData} {u : CString} (h : standingOf (some c) = .member u) :
    c.clientState = .messageState ∧ c.user = .live u := by
  simp only [standingOf] at h
  split at h
  · rename_i u' hu
    split at h
    · rename_i hs
      cases h
      exact ⟨hs, hu⟩
    · cases h
  · cases h

theorem conn_of_member {s : ServerState} {fd : Int} {u : CString}
    (h : standingOf (s.conns fd) = .member u) : ∃ c, s.conns fd = some c := by
  cases hc : s.conns fd with
  | none =>
    rw [hc] at h
    cases h
  | some c => exact ⟨c, rfl⟩

namespace Between
variable {g : Ledger} {c : ClientConnData} {l : Link}

theorem of_member (h : Between g c l) {user : CString} (hm : standingOf (some c) = .member user) :
    ∃ c₀ b a waiting coming, c = holding c₀ b ∧ Rests c₀ ∧ c₀.clientState = .messageState ∧
      c₀.user = .live a.user ∧ a.user = user ∧ authVerify a.user a.password = 0 ∧ g.asked = some a ∧
      Outgoing g a.user b l waiting ∧ Incoming g a.user l coming := by
  obtain ⟨hstate, huser⟩ := standing_member hm
  cases h with
  | idle _ hs => simp [hs] at hstate
  | asking _ hs => exact absurd hstate (holding_initial hs _)
  | @session c _ b a waiting coming hc hs hu granted asked out inc =>
    rw [holding_user, hu] at huser
    exact ⟨c, b, a, waiting, coming, rfl, hc, hs, hu, Ptr.live.inj huser, granted, asked, out, inc⟩

theorem route (h : Between g c l) {u : CString} (hm : standingOf (some c) = .member u) (x : Letter) :
    Between { g with routed := g.routed ++ [(u, x.frame)] } c { l with toClient := l.toClient ++ x.frame } := by
  obtain ⟨c₀, b, a, waiting, coming, rfl, hc, hs, hu, rfl, granted, asked, out, inc⟩ := h.of_member hm
  obtain ⟨seen, hshown, hrouted⟩ := inc.routed
  refine @Between.session _ _ _ _ _ _ (coming ++ [x]) hc hs hu granted asked ⟨out.way, out.sent⟩
    ⟨⟨seen, hshown, ?_⟩, ?_⟩
  · simp [hrouted]
  · intro hopen
    have hne : x.frame ≠ [] := framed_ne_nil x.packet.framed
    rcases inc.client hopen with ⟨hmessage, way⟩ | ⟨hauth, way⟩
    · refine .inl ⟨hmessage, ?_⟩
      rw [List.map_append]
      exact way.put hne
    · refine .inr ⟨hauth, ?_⟩
      rw [List.map_append]
      exact way.put hne

end Between

namespace Linked
variable {xs : List Happening} {net : Network} {fd : Int}

theorem start : Linked [] Network.start where
  sound := soundState_start
  inOrder := by
    rw [show serviceOf Network.start.server = Directory.empty from serviceOf_start]
    exact Service.inOrder_empty
  nonneg := by simp [Network.start, Server.start]
  between := by simp [Network.start, Server.start]
  gone := by simp [Network.start]

theorem link (H : Linked xs net) {l : Link} (hl : net.links fd = some l) :
    ∃ c, net.server.conns fd = some c ∧ Between (ledger fd xs) c l := by
  cases hc : net.server.conns fd with
  | none =>
    rw [H.gone fd hc] at hl
    cases hl
  | some c =>
    obtain ⟨l', hl', h⟩ := H.between fd c hc
    rw [hl] at hl'
    cases hl'
    exact ⟨c, rfl, h⟩

theorem client (H : Linked xs net) {c : ClientConnData} {l : Link} (hconn : net.server.conns fd = some c)
    {ys : List Happening} (hother : ∀ fd' g, fd ≠ fd' → ys.foldl (Ledger.record fd') g = g)
    (h : Between (ys.foldl (Ledger.record fd) (ledger fd xs)) c l) :
    Linked (xs ++ ys) (net.setLink fd (some l)) := by
  refine ⟨H.sound, H.inOrder, H.nonneg, ?_, ?_⟩
  · intro fd' d hd
    rw [ledger_append]
    by_cases hfd : fd = fd'
    · subst hfd
      obtain rfl : c = d := Option.some.inj (hconn.symm.trans hd)
      exact ⟨l, Function.update_self .., h⟩
    · rw [hother fd' _ hfd]
      obtain ⟨l', hl', hbetween⟩ := H.between fd' d hd
      exact ⟨l', (Function.update_of_ne (Ne.symm hfd) _ _).trans hl', hbetween⟩
  · intro fd' hd
    have hfd : fd' ≠ fd := by
      rintro rfl
      simp [Network.setLink, hconn] at hd
    exact (Function.update_of_ne hfd _ _).trans (H.gone fd' hd)

/-- A step of the server on the bytes of one connection. -/
theorem data (H : Linked xs net) (hfd : 0 ≤ fd) {l' : Link} {s' : ServerState} {c' : ClientConnData}
    {effs acts : List Effect} (hacts : actions effs = acts)
    (hs' : SoundState s' ∧ Service.InOrder (serviceOf s'))
    (hconns : s'.conns = Function.update net.server.conns fd (some c'))
    (hown : Between (noted fd acts (ledger fd xs)) c' (touched fd acts l'))
    (hother : ∀ fd' d l, fd ≠ fd' → 0 ≤ fd' → net.server.conns fd' = some d →
      Between (ledger fd' xs) d l → Between (noted fd' acts (ledger fd' xs)) d (touched fd' acts l)) :
    Linked (xs ++ effs.map .server)
      ⟨s', Network.transmit effs (Function.update net.links fd (some l'))⟩ := by
  have hledger (fd' : Int) : ledger fd' (xs ++ effs.map .server) = noted fd' acts (ledger fd' xs) := by
    rw [ledger_append, record_actions, hacts]
    rfl
  have hlink (links : Int → Option Link) (fd' : Int) :
      Network.transmit effs links fd' = (links fd').map (touched fd' acts) := by
    rw [transmit_actions, hacts]
    rfl
  refine ⟨hs'.1, hs'.2, ?_, ?_, ?_⟩
  · rw [hconns]
    exact forall_update (fun _ _ => hfd) fun fd' c _ hc => H.nonneg fd' c hc
  · intro fd' d hd
    rw [hconns] at hd
    simp only [hledger, hlink]
    by_cases he : fd = fd'
    · subst he
      rw [Function.update_self] at hd ⊢
      cases hd
      exact ⟨_, rfl, hown⟩
    · rw [Function.update_of_ne (Ne.symm he)] at hd ⊢
      obtain ⟨l, hl, hbetween⟩ := H.between fd' d hd
      exact ⟨_, by rw [hl]; rfl, hother fd' d l he (H.nonneg fd' d hd) hd hbetween⟩
  · intro fd' hd
    rw [hconns] at hd
    simp only [hlink]
    by_cases he : fd' = fd
    · subst he
      simp at hd
    · rw [Function.update_of_ne he] at hd ⊢
      rw [H.gone fd' hd]
      rfl

end Linked

theorem holding_bytes {c : ClientConnData} (hc : Rests c) (b : List UInt8) : (holding c b).buff.bytes = b := by
  by_cases hb : b = []
  · subst hb
    rw [holding_nil, hc.buff]
    rfl
  · rw [holding, if_neg hb]
    split <;> rfl

theorem Between.forwarded {s : ServerState} {g : Ledger} {d : ClientConnData} {l : Link} {fd fd' dest : Int}
    {toUser : CString} {x : Letter} {accepted : List UInt8} (h : Between g d l) (hd : s.conns fd' = some d)
    (hne : fd ≠ fd') (hfd' : 0 ≤ fd')
    (hdest : dest = -1 ∧ accepted = [] ∨
      standingOf (s.conns dest) = .member toUser ∧ accepted = x.frame) :
    Between (noted fd' [.forward fd toUser dest x.frame accepted] g) d
      (touched fd' [.forward fd toUser dest x.frame accepted] l) := by
  by_cases he : dest = fd'
  · subst he
    rcases hdest with ⟨hnone, _⟩ | ⟨hmember, rfl⟩
    · omega
    · rw [hd] at hmember
      simpa [noted, touched, Ledger.record, sentTo, hne] using h.route hmember x
  · simpa [noted, touched, Ledger.record, sentTo, hne, he] using h

namespace Linked
variable {xs : List Happening} {net net' : Network} {fd : Int}

theorem nonneg_member (H : Linked xs net) {user : CString}
    (hmember : standingOf (net.server.conns fd) = .member user) : 0 ≤ fd := by
  obtain ⟨c, hc⟩ := conn_of_member hmember
  exact H.nonneg fd c hc

theorem dest (H : Linked xs net) (toUser : CString) :
    ∃ dest, net.server.tree.hbTreeSearch toUser = .ok dest ∧
      (dest = -1 ∨ 0 ≤ dest ∧ standingOf (net.server.conns dest) = .member toUser) := by
  obtain ⟨dest, hsearch, hspec⟩ := H.sound.wf.search toUser
  refine ⟨dest, hsearch, ?_⟩
  rcases hspec with hmem | ⟨hnone, _⟩
  · have hmember : standingOf (net.server.conns dest) = .member toUser :=
      (H.inOrder.exact.member toUser dest).mp (Multiset.mem_coe.mpr hmem)
    exact .inr ⟨H.nonneg_member hmember, hmember⟩
  · exact .inl hnone

/-- A search answers with the one session of the name. -/
theorem dest_iff (H : Linked xs net) {toUser : CString} {dest : Int}
    (hsearch : net.server.tree.hbTreeSearch toUser = .ok dest)
    {user : CString} (hmember : standingOf (net.server.conns fd) = .member user) : dest = fd ↔ toUser = user := by
  have hentry : (user, fd) ∈ net.server.tree.pairs :=
    Multiset.mem_coe.mp ((H.inOrder.exact.member user fd).mpr hmember)
  have hnonneg := H.nonneg_member hmember
  obtain ⟨dest', hsearch', hspec⟩ := H.sound.wf.search toUser
  rw [hsearch] at hsearch'
  cases hsearch'
  have hfound (hmem : (toUser, dest) ∈ net.server.tree.pairs) :
      standingOf (net.server.conns dest) = .member toUser :=
    (H.inOrder.exact.member toUser dest).mp (Multiset.mem_coe.mpr hmem)
  constructor
  · rintro rfl
    rcases hspec with hmem | ⟨hnone, _⟩
    · have h := hfound hmem
      rw [hmember] at h
      cases h
      rfl
    · omega
  · rintro rfl
    rcases hspec with hmem | ⟨_, hnone⟩
    · exact H.inOrder.exact.alone toUser dest fd (hfound hmem) hmember
    · exact absurd rfl (hnone _ hentry)

theorem fd_eq (H : Linked xs net) {c : ClientConnData} {b : List UInt8}
    (hconn : net.server.conns fd = some (holding c b)) : c.fd = fd := by
  rw [← holding_fd c b]
  exact (H.sound.sound fd _ hconn).fd_eq

theorem member_of_holding {c : ClientConnData} {b : List UInt8} (hconn : net.server.conns fd = some (holding c b))
    (hs : c.clientState = .messageState) {user : CString} (hu : c.user = .live user) :
    standingOf (net.server.conns fd) = .member user := by
  rw [hconn]
  exact standing_of_message ((holding_user c b).trans hu) (holding_session hs b)

/-- What a read of the server on this connection comes to: its actions, and the state behind it. -/
inductive Reading (net : Network) (g : Ledger) (fd : Int) (chunk : Chunk) (l : Link) :
    List Effect → ServerState → Prop
  | asking {c : ClientConnData} {b : List UInt8} {a : Attempt}
      (hconn : net.server.conns fd = some (holding c b)) (hc : Rests c) (hs : c.clientState = .initialState)
      (asked : g.asked = some a) (silent : Silent g)
      (client : l.isOpen → l.state = .authState ∧ l.got = [] ∧ l.toClient = [])
      (way : Carries (b ++ chunk.bytes) (l.toServer.drop chunk.bytes.length) [a.packet.wire]) :
      Reading net g fd chunk l []
        ⟨Function.update net.server.conns fd (some (holding c (b ++ chunk.bytes))), net.server.tree⟩
  | refused {c : ClientConnData} {b : List UInt8} {a : Attempt}
      (hconn : net.server.conns fd = some (holding c b)) (hs : c.clientState = .initialState)
      (asked : g.asked = some a) (silent : Silent g)
      (client : l.isOpen → l.state = .authState ∧ l.got = [] ∧ l.toClient = [])
      (hv : authVerify a.user a.password < 0) (hnil : l.toServer.drop chunk.bytes.length = []) :
      Reading net g fd chunk l [refusal fd]
        ⟨Function.update net.server.conns fd (some (rejectedRecord c)), net.server.tree⟩
  | granted {c : ClientConnData} {b : List UInt8} {a : Attempt} {tree' : HbTree}
      (hconn : net.server.conns fd = some (holding c b)) (hs : c.clientState = .initialState)
      (asked : g.asked = some a) (silent : Silent g)
      (client : l.isOpen → l.state = .authState ∧ l.got = [] ∧ l.toClient = [])
      (hv : authVerify a.user a.password = 0) (hnil : l.toServer.drop chunk.bytes.length = []) :
      Reading net g fd chunk l [.insert a.user fd, welcome fd]
        ⟨Function.update net.server.conns fd (some (welcomed c a.user)), tree'⟩
  | inside {c : ClientConnData} {b : List UInt8} {a : Attempt} {waiting : List Chat} {coming : List Letter}
      (hconn : net.server.conns fd = some (holding c b)) (hc : Rests c) (hs : c.clientState = .messageState)
      (hu : c.user = .live a.user) (granted : authVerify a.user a.password = 0) (asked : g.asked = some a)
      (out : Outgoing g a.user b l waiting) (inc : Incoming g a.user l coming)
      (way : Carries (b ++ chunk.bytes) (l.toServer.drop chunk.bytes.length)
        (waiting.map fun m => m.packet.wire)) :
      Reading net g fd chunk l []
        ⟨Function.update net.server.conns fd (some (holding c (b ++ chunk.bytes))), net.server.tree⟩
  | chat {c : ClientConnData} {b : List UInt8} {a : Attempt} {m : Chat} {waiting : List Chat}
      {coming : List Letter} {dest : Int} {accepted : List UInt8}
      (hconn : net.server.conns fd = some (holding c b)) (hs : c.clientState = .messageState)
      (hu : c.user = .live a.user) (granted : authVerify a.user a.password = 0) (asked : g.asked = some a)
      (out : Outgoing g a.user b l (m :: waiting)) (inc : Incoming g a.user l coming)
      (way : Carries [] (l.toServer.drop chunk.bytes.length) (waiting.map fun m => m.packet.wire))
      (hsearch : net.server.tree.hbTreeSearch m.toUser = .ok dest)
      (hdest : dest = -1 ∧ accepted = [] ∨
        0 ≤ dest ∧ standingOf (net.server.conns dest) = .member m.toUser ∧ accepted = m.frame a.user) :
      Reading net g fd chunk l [.forward fd m.toUser dest (m.frame a.user) accepted]
        ⟨Function.update net.server.conns fd (some (cleared c)), net.server.tree⟩

/-- Every read of the server. -/
theorem reading (H : Linked xs net) {l : Link} (hl : net.links fd = some l) {chunk : Chunk} {env : Env}
    (hp : net.permitted (.serve fd chunk env)) (hw : env.Writes) {s' : ServerState}
    (hok : (Server.step net.server (.data fd chunk env)).result = .ok s') :
    ∃ acts, actions (Server.step net.server (.data fd chunk env)).effects = acts ∧
      Reading net (ledger fd xs) fd chunk l acts s' ∧ SoundState s' ∧ Service.InOrder (serviceOf s') := by
  simp only [Network.permitted, Option.any_eq_true, decide_eq_true_eq] at hp
  obtain ⟨l', hl', _, hthere, hwithin, hfresh⟩ := hp
  cases hl.symm.trans hl'
  obtain ⟨c, hconn, hbetween⟩ := H.link hl
  have hfd := H.nonneg fd c hconn
  have hkept {c : ClientConnData} {b y : List UInt8} {p : Packet} (hconn : net.server.conns fd = some (holding c b))
      (hc : Rests c) (hp : b ++ chunk.bytes ++ y = p.wire) : SoundState s' ∧ Service.InOrder (serviceOf s') :=
    inOrder_step H.sound H.inOrder (e := .data fd chunk env) (by simp [Enabled, hconn]) rfl
      (orderly_of_packet hconn hc hfd hw hp hfresh) hok
  simp only [Network.buffered, hconn] at hwithin
  cases hbetween with
  | idle _ _ server =>
    rw [server, List.prefix_nil] at hthere
    exact absurd hthere (List.length_pos_iff.mp chunk.pos)
  | @asking c _ b a hc hs asked way silent client =>
    have hfdc := H.fd_eq hconn
    rw [holding_bytes hc] at hwithin
    obtain ⟨f, rest, heq, hcase⟩ := take_framed way (by simpa using a.packet.framed) hthere hwithin
    cases heq
    rcases hcase with ⟨y, hy, hp, way'⟩ | ⟨hp, way'⟩
    · obtain ⟨hres, hacts⟩ := of_seen (step_inside hconn hc (hfdc ▸ hfd) hw hp hy)
      rw [hok] at hres
      cases hres
      exact ⟨_, hacts, .asking hconn hc hs asked silent client way', hkept hconn hc hp⟩
    · have hkept := hkept hconn hc (y := []) (by rw [List.append_nil, hp])
      have hnil : l.toServer.drop chunk.bytes.length = [] := by simpa using way'.symbols
      rcases step_login hconn hc hs hfdc hfd H.sound.wf hw hp with ⟨hv, hseen⟩ | ⟨hv, tree', hseen⟩ | hseen
      · obtain ⟨hres, hacts⟩ := of_seen hseen
        rw [hok] at hres
        cases hres
        exact ⟨_, hacts, .refused hconn hs asked silent client hv hnil, hkept⟩
      · obtain ⟨hres, hacts⟩ := of_seen hseen
        rw [hok] at hres
        cases hres
        exact ⟨_, hacts, .granted hconn hs asked silent client hv hnil, hkept⟩
      · rw [(of_seen hseen).1] at hok
        cases hok
  | @session c _ b a waiting coming hc hs hu granted asked out inc =>
    have hfdc := H.fd_eq hconn
    rw [holding_bytes hc] at hwithin
    have hframed : ∀ f ∈ waiting.map fun m => m.packet.wire, Framed f := by
      intro f hf
      obtain ⟨m, _, rfl⟩ := List.mem_map.mp hf
      exact m.packet.framed
    obtain ⟨f, rest, heq, hcase⟩ := take_framed out.way hframed hthere hwithin
    obtain ⟨m, waiting, rfl, rfl, rfl⟩ := List.map_eq_cons_iff.mp heq
    rcases hcase with ⟨y, hy, hp, way'⟩ | ⟨hp, way'⟩
    · obtain ⟨hres, hacts⟩ := of_seen (step_inside hconn hc (hfdc ▸ hfd) hw hp hy)
      rw [hok] at hres
      cases hres
      exact ⟨_, hacts, .inside hconn hc hs hu granted asked out inc way', hkept hconn hc hp⟩
    · let x : Letter := ⟨a.user, m, (authVerify_mem granted).1⟩
      obtain ⟨dest, hsearch, hdest⟩ := H.dest m.toUser
      obtain ⟨accepted, haccepted, hseen⟩ := step_chat (x := x) hconn hc hs hfdc hfd hw hu hp hsearch
      obtain ⟨hres, hacts⟩ := of_seen hseen
      rw [hok] at hres
      cases hres
      refine ⟨_, hacts, .chat hconn hs hu granted asked out inc way' hsearch ?_,
        hkept hconn hc (y := []) (by rw [List.append_nil, hp])⟩
      rcases hdest with rfl | ⟨hpos, hmember⟩
      · exact .inl ⟨rfl, by simpa using haccepted⟩
      · refine .inr ⟨hpos, hmember, ?_⟩
        rcases haccepted with ⟨hneg, _⟩ | ⟨_, haccepted⟩
        · omega
        · exact haccepted

theorem serve (H : Linked xs net) {chunk : Chunk} {env : Env}
    (hp : net.permitted (.serve fd chunk env)) (hw : env.Writes)
    (hok : (net.step (.serve fd chunk env)).result = .ok net') :
    Linked (xs ++ (net.step (.serve fd chunk env)).effects) net' := by
  obtain ⟨l, hl, _⟩ := Option.any_eq_true _ _ |>.mp hp
  obtain ⟨s', hres, rfl, heffects⟩ := Network.step_serve hl hok
  obtain ⟨acts, hacts, hreading, hkept⟩ := H.reading hl hp hw hres
  rw [heffects]
  have hother (hacts : ∀ fd' g, fd ≠ fd' → noted fd' acts g = g ∧ sentTo fd' acts = []) (fd' : Int)
      (d : ClientConnData) (l : Link) (hne : fd ≠ fd') (_ : 0 ≤ fd')
      (_ : net.server.conns fd' = some d) (h : Between (ledger fd' xs) d l) :
      Between (noted fd' acts (ledger fd' xs)) d (touched fd' acts l) := by
    obtain ⟨hnoted, hsent⟩ := hacts fd' (ledger fd' xs) hne
    rw [hnoted, touched, hsent, List.append_nil]
    exact h
  cases hreading with
  | asking hconn hc hs asked silent client way =>
    refine H.data (H.nonneg fd _ hconn) hacts hkept rfl ?_ (hother fun _ _ _ => ⟨rfl, rfl⟩)
    rw [touched_nil]
    exact .asking hc hs asked way silent client
  | refused hconn hs asked silent client hv hnil =>
    refine H.data (H.nonneg fd _ hconn) hacts hkept rfl ?_
      (hother fun fd' _ hne => ⟨rfl, by simp [sentTo, refusal, hne]⟩)
    rw [touched, refused_sent]
    refine .idle ⟨rfl, rfl, rfl, .inl rfl⟩ rfl hnil
      ⟨silent.sent, silent.forwarded, silent.routed, silent.shown⟩ ?_
    intro hopen
    obtain ⟨hauth, hgot, hto⟩ := client hopen
    refine .inr ⟨hauth, ?_⟩
    simp only [Link.read, hgot, hto, List.flatMap_nil, List.nil_append]
    exact .single (framed_ne_nil framed_refused)
  | @granted c b a tree' hconn hs asked silent client hv hnil =>
    refine H.data (H.nonneg fd _ hconn) hacts hkept rfl ?_
      (hother fun fd' _ hne => ⟨rfl, by simp [sentTo, welcome, hne]⟩)
    rw [touched, accepted_sent, ← holding_nil (welcomed c a.user)]
    refine @Between.session _ _ _ _ _ [] [] ⟨rfl, rfl, rfl, .inr rfl⟩ rfl rfl hv asked
      ⟨?_, [], silent.sent, silent.forwarded⟩ ⟨⟨[], silent.shown, silent.routed⟩, ?_⟩
    · rw [hnil]
      exact .nil
    · intro hopen
      obtain ⟨hauth, hgot, hto⟩ := client hopen
      refine .inr ⟨hauth, ?_⟩
      simp only [Link.read, hgot, hto, List.flatMap_nil, List.nil_append, List.map_nil]
      exact .single (framed_ne_nil framed_granted)
  | inside hconn hc hs hu granted asked out inc way =>
    refine H.data (H.nonneg fd _ hconn) hacts hkept rfl ?_ (hother fun _ _ _ => ⟨rfl, by simp [sentTo]⟩)
    rw [touched_nil]
    exact .session hc hs hu granted asked ⟨way, out.sent⟩ ⟨inc.routed, inc.client⟩
  | @chat c b a m waiting coming dest accepted hconn hs hu granted asked out inc way hsearch hdest =>
    obtain ⟨x, hframe⟩ : ∃ x : Letter, m.frame a.user = x.frame := ⟨⟨a.user, m, (authVerify_mem granted).1⟩, rfl⟩
    obtain ⟨done, hsent, hforwarded⟩ := out.sent
    rw [hframe] at hacts hdest
    have hdest : dest = -1 ∧ accepted = [] ∨
        standingOf (net.server.conns dest) = .member m.toUser ∧ accepted = x.frame :=
      hdest.imp_right And.right
    have hsender : Between { ledger fd xs with
        forwarded := (ledger fd xs).forwarded ++ [(m.toUser, x.frame)] } (cleared c)
        { l with toServer := l.toServer.drop chunk.bytes.length } := by
      rw [← holding_nil (cleared c)]
      refine @Between.session _ _ _ _ _ waiting _ ⟨rfl, rfl, rfl, .inr hs⟩ hs hu granted asked
        ⟨way, done ++ [m], ?_, ?_⟩ ⟨inc.routed, inc.client⟩
      · simp [hsent]
      · simp [hforwarded, hframe]
    refine H.data (H.nonneg fd _ hconn) hacts hkept rfl ?_ ?_
    · by_cases he : dest = fd
      · subst he
        rcases hdest with ⟨hnone, _⟩ | ⟨hmember, rfl⟩
        · have hpos := H.nonneg dest _ hconn
          omega
        · have hm : standingOf (some (cleared c)) = .member m.toUser := by
            rw [hconn] at hmember
            obtain ⟨_, huser⟩ := standing_member hmember
            rw [holding_user] at huser
            exact standing_of_message huser hs
          simpa only [noted, touched, List.map_cons, List.map_nil, List.foldl_cons, List.foldl_nil,
            Ledger.record, if_true, sentTo, List.flatMap_cons, List.flatMap_nil, List.append_nil]
            using hsender.route hm x
      · simpa only [noted, touched, List.map_cons, List.map_nil, List.foldl_cons, List.foldl_nil,
          Ledger.record, if_true, he, if_false, sentTo, List.flatMap_cons, List.flatMap_nil,
          List.append_nil] using hsender
    · intro fd' d l hne hpos hd h
      exact h.forwarded hd hne hpos hdest (x := x)

theorem connect (H : Linked xs net) {junk : Junk} (hp : net.permitted (.connect fd junk))
    (hok : (net.step (.connect fd junk)).result = .ok net') :
    Linked (xs ++ (net.step (.connect fd junk)).effects) net' := by
  simp only [Network.permitted, decide_eq_true_eq] at hp
  obtain ⟨henabled, hnameless⟩ := hp
  have hstep : Server.step net.server (.accept fd junk) = ⟨[.accept fd], .ok { net.server with
      conns := Function.update net.server.conns fd (some (createNewClient fd junk)) }⟩ := rfl
  have hs' := inOrder_step H.sound H.inOrder henabled hnameless rfl (congrArg Traced.result hstep)
  obtain ⟨rfl, heffects⟩ := Network.step_connect hok
  have hledger (fd' : Int) (hne : fd ≠ fd') :
      ledger fd' (xs ++ (net.step (.connect fd junk)).effects) = ledger fd' xs := by
    simp [ledger_append, heffects, Ledger.record, hne]
  have hnew : ledger fd (xs ++ (net.step (.connect fd junk)).effects) = .new := by
    simp [ledger_append, heffects, Ledger.record]
  refine ⟨hs'.1, hs'.2, ?_, ?_, ?_⟩
  · exact forall_update (fun _ _ => henabled.1) fun fd' c _ hc => H.nonneg fd' c hc
  · intro fd' c hc
    by_cases he : fd = fd'
    · subst he
      rw [hnew]
      simp only [Function.update_self] at hc ⊢
      cases hc
      refine ⟨_, rfl, ?_⟩
      exact .idle ⟨rfl, rfl, rfl, .inl rfl⟩ rfl rfl ⟨rfl, rfl, rfl, rfl⟩ fun _ => .inl ⟨rfl, rfl, rfl⟩
    · rw [hledger fd' he]
      simp only [Function.update_of_ne (Ne.symm he)] at hc ⊢
      exact H.between fd' c hc
  · intro fd' hc
    by_cases he : fd' = fd
    · subst he
      simp at hc
    · simp only [Function.update_of_ne he] at hc ⊢
      exact H.gone fd' hc

theorem closes (H : Linked xs net) {e : Event} (he : e = .epollerr fd ∨ e = .eof fd)
    (hconn : (net.server.conns fd).isSome) {s' : ServerState}
    (hok : (Server.step net.server e).result = .ok s') :
    s'.conns = Function.update net.server.conns fd none ∧ actions (Server.step net.server e).effects = [] ∧
      (Server.step net.server e).effects.filter isSeen = goodbye fd (standingOf (net.server.conns fd)) := by
  have henabled : Enabled net.server e := by
    rcases he with rfl | rfl
    · exact hconn
    · exact hconn
  have hstep : EventStep net.server e (Server.step net.server e).effects (.ok s') := hok ▸ step_event henabled
  generalize (Server.step net.server e).effects = effs at hstep
  cases hstep with
  | accept => simp at he
  | again => simp at he
  | data => simp at he
  | @drop _ _ c he' hc hu =>
    obtain rfl : fd = _ := by
      rcases he with rfl | rfl <;> simpa using he'
    refine ⟨rfl, by simp [isAction, freeEffects], ?_⟩
    simp [List.filter_cons, isSeen, hc, standingOf, hu, goodbye, (H.sound.sound fd c hc).fd_eq]
  | @dropUser _ _ c u tree' found he' hc hu hr =>
    obtain rfl : fd = _ := by
      rcases he with rfl | rfl <;> simpa using he'
    refine ⟨rfl, by simp [isAction, freeEffects], ?_⟩
    have hmember : standingOf (net.server.conns fd) = .member u := by
      have htold := H.inOrder.told fd u
      simp only [serviceOf, hc, standingOf, hu] at htold ⊢
      by_cases hs : c.clientState = .messageState
      · simp [hs]
      · simp [hs] at htold
    have hfound : found = true := by
      have hentry := Multiset.mem_coe.mp ((H.inOrder.exact.member u fd).mpr hmember)
      cases found with
      | true => rfl
      | false => exact absurd rfl ((H.sound.wf.of_remove_false hr).2.2 _ hentry)
    rw [hmember, hfound]
    simp [List.filter_cons, isSeen, goodbye, (H.sound.sound fd c hc).fd_eq]

theorem close (H : Linked xs net) {e : Event} (he : e = .epollerr fd ∨ e = .eof fd)
    (hconn : (net.server.conns fd).isSome) {s' : ServerState}
    (hok : (Server.step net.server e).result = .ok s') :
    Linked (xs ++ (Server.step net.server e).effects.map .server)
      ⟨s', Function.update (Network.transmit (Server.step net.server e).effects net.links) fd none⟩ := by
  have henabled : Enabled net.server e := by
    rcases he with rfl | rfl
    · exact hconn
    · exact hconn
  have hs' : SoundState s' ∧ Service.InOrder (serviceOf s') := by
    rcases he with rfl | rfl
    · exact inOrder_step H.sound H.inOrder henabled rfl rfl hok
    · exact inOrder_step H.sound H.inOrder henabled rfl rfl hok
  obtain ⟨hconns, hacts, _⟩ := H.closes he hconn hok
  have hledger (fd' : Int) :
      ledger fd' (xs ++ (Server.step net.server e).effects.map .server) = ledger fd' xs := by
    rw [ledger_append, record_actions, hacts]
    rfl
  rw [transmit_actions, hacts, Network.transmit_nil]
  refine ⟨hs'.1, hs'.2, ?_, ?_, ?_⟩
  · rw [hconns]
    exact forall_update (by simp) fun fd' c _ hc => H.nonneg fd' c hc
  · intro fd' c hc
    rw [hledger]
    rw [hconns] at hc
    by_cases hfd : fd' = fd
    · subst hfd
      simp at hc
    · simp only [Function.update_of_ne hfd] at hc ⊢
      exact H.between fd' c hc
  · intro fd' hc
    rw [hconns] at hc
    by_cases hfd : fd' = fd
    · subst hfd
      simp
    · simp only [Function.update_of_ne hfd] at hc ⊢
      exact H.gone fd' hc

theorem step (H : Linked xs net) {e : Network.Move} (hp : net.permitted e) (hw : e.Writes)
    (hok : (net.step e).result = .ok net') : Linked (xs ++ (net.step e).effects) net' := by
  cases e with
  | connect fd junk => exact H.connect hp hok
  | serve fd chunk env => exact H.serve hp hw hok
  | login fd a memory =>
    simp only [Network.permitted, Option.any_eq_true, decide_eq_true_eq] at hp
    obtain ⟨l, hl, hopen, hs, _⟩ := hp
    obtain ⟨c, hconn, hbetween⟩ := H.link hl
    simp only [Network.step, hl] at hok ⊢
    cases hok
    change Linked (xs ++ [.asked fd a]) (net.setLink fd (some _))
    refine H.client hconn ?_ ?_
    · intro fd' g hne
      simp [Ledger.record, hne]
    · simpa [Ledger.record] using hbetween.login hopen hs a memory
  | write fd m memory =>
    simp only [Network.permitted, Option.any_eq_true, decide_eq_true_eq] at hp
    obtain ⟨l, hl, hopen, hs, _⟩ := hp
    obtain ⟨c, hconn, hbetween⟩ := H.link hl
    simp only [Network.step, hl] at hok ⊢
    cases hok
    change Linked (xs ++ [.typed fd m]) (net.setLink fd (some _))
    refine H.client hconn ?_ ?_
    · intro fd' g hne
      simp [Ledger.record, hne]
    · simpa [Ledger.record] using hbetween.write hopen hs m memory
  | receive fd chunk beyond =>
    simp only [Network.permitted, Option.any_eq_true, decide_eq_true_eq] at hp
    obtain ⟨l, hl, hopen, hs, hthere, hwithin⟩ := hp
    obtain ⟨c, hconn, hbetween⟩ := H.link hl
    obtain ⟨ys, l', hreceive, hafter, hys⟩ := @Between.receive _ c l fd hbetween hopen hs chunk hthere hwithin beyond
    simp only [Network.step, hl, hreceive, Traced.bind_ok, Traced.pure_eq, List.append_nil] at hok ⊢
    cases hok
    refine H.client hconn ?_ hafter
    intro fd' g hne
    rcases hys with rfl | ⟨_, _, x, _, rfl, _⟩
    · rfl
    · simp [Ledger.record, hne]
  | leave fd =>
    simp only [Network.permitted, Option.any_eq_true] at hp
    obtain ⟨l, hl, hopen⟩ := hp
    obtain ⟨c, hconn, hbetween⟩ := H.link hl
    simp only [Network.step, hl] at hok ⊢
    cases hok
    exact H.client hconn (fun _ _ _ => rfl) hbetween.leave
  | finish fd =>
    simp only [Network.permitted, Option.any_eq_true, decide_eq_true_eq] at hp
    obtain ⟨l, _, hconn, _⟩ := hp
    obtain ⟨s', hres, rfl, heffects⟩ := @Network.step_close _ _ fd _ (.eof fd) rfl hok
    rw [heffects]
    exact H.close (.inr rfl) hconn hres
  | lose fd =>
    simp only [Network.permitted] at hp
    obtain ⟨s', hres, rfl, heffects⟩ := @Network.step_close _ _ fd _ (.epollerr fd) rfl hok
    rw [heffects]
    exact H.close (.inl rfl) hp hres

theorem entries (H : Linked xs net) {user : CString}
    (hm : standingOf (net.server.conns fd) = .member user) :
    user ∈ accounts ∧ ∃ (done waiting : List Chat) (seen coming : List Letter),
      (ledger fd xs).sent = done ++ waiting ∧
      (ledger fd xs).forwarded = done.map (fun m => (m.toUser, m.frame user)) ∧
      (ledger fd xs).shown = seen.map Letter.message ∧
      (ledger fd xs).routed = (seen ++ coming).map (fun x => (user, x.frame)) ∧
      ∀ l, net.links fd = some l →
        (l.toServer = [] → waiting = []) ∧ (l.isOpen → l.toClient = [] → coming = []) := by
  obtain ⟨c, hconn⟩ := conn_of_member hm
  obtain ⟨l, hl, hbetween⟩ := H.between fd c hconn
  rw [hconn] at hm
  obtain ⟨_, _, a, waiting, coming, _, _, _, _, rfl, granted, _, out, inc⟩ := hbetween.of_member hm
  obtain ⟨done, hsent, hforwarded⟩ := out.sent
  obtain ⟨seen, hshown, hrouted⟩ := inc.routed
  refine ⟨(authVerify_mem granted).1, done, waiting, seen, coming, hsent, hforwarded, hshown, hrouted, ?_⟩
  intro l' hl'
  cases hl.symm.trans hl'
  constructor
  · intro hnil
    have hway := out.way
    rw [hnil] at hway
    exact List.map_eq_nil_iff.mp hway.quiet.1
  · intro hopen hnil
    rcases inc.client hopen with ⟨_, way⟩ | ⟨_, way⟩
    · rw [hnil] at way
      exact List.map_eq_nil_iff.mp way.quiet.1
    · rw [hnil] at way
      simpa using way.quiet.1

end Linked

theorem happenings_snoc (log : List (Network.Move × List Happening)) (e : Network.Move) (ys : List Happening) :
    happenings (log ++ [(e, ys)]) = happenings log ++ ys := by simp [happenings]

theorem run_linked {log : List (Network.Move × List Happening)} {net : Network}
    (run : Run Network.step (fun net e => net.permitted e) Network.start log net)
    (hw : ∀ p ∈ log, p.1.Writes) : Linked (happenings log) net := by
  induction run with
  | nil => exact Linked.start
  | @snoc log net net' e run hp hok ih =>
    simp only [List.forall_mem_append, List.forall_mem_singleton] at hw
    rw [happenings_snoc]
    exact (ih hw.1).step hp hw.2 hok

def piece (b : List UInt8) : Chunk :=
  if h : b.length ≤ 1024 ∧ 0 < b.length then ⟨b, h.2, h.1⟩
  else ⟨newline :: b.take 1023, Nat.succ_pos _, by simp⟩

def user1Attempt : Attempt := ⟨CString.ofBuffer (userName '1'), CString.ofBuffer (userName '1'), by decide⟩

def user2Attempt : Attempt := ⟨CString.ofBuffer (userName '2'), CString.ofBuffer (userName '2'), by decide⟩

def hiUser2 : Chat := ⟨CString.ofBuffer (userName '2'), ascii ['h', 'i'], by decide, by decide⟩

def conversation : List Network.Move :=
  [.connect 5 zeroed, .connect 6 zeroed, .login 5 user1Attempt [], .login 6 user2Attempt [],
    .serve 6 (piece (user2Attempt.packet.wire.take 20)) quiet,
    .serve 5 (piece user1Attempt.packet.wire) quiet,
    .serve 6 (piece (user2Attempt.packet.wire.drop 20)) quiet,
    .receive 6 (piece grantedAnswer) fun _ => 0, .receive 5 (piece grantedAnswer) fun _ => 0,
    .write 5 hiUser2 [], .write 5 hiUser2 [], .write 5 hiUser2 [],
    .serve 5 (piece hiUser2.packet.wire) quiet,
    .receive 6 (piece (hiUser2.frame user1Attempt.user)) fun _ => 0,
    .serve 5 (piece hiUser2.packet.wire) quiet,
    .receive 6 (piece ((hiUser2.frame user1Attempt.user).take 5)) fun _ => 0,
    .serve 5 (piece (hiUser2.packet.wire.take 7)) quiet]

def conversed : List (Network.Move × List Happening) × Network :=
  (Run.exec Network.step Network.permitted ([], Network.start) conversation).get (by decide +kernel)

theorem conversed_run : Run Network.step (fun net e => net.permitted e) Network.start conversed.1 conversed.2 :=
  Run.run_exec_get (fun _ _ h => h) _

theorem conversed_writes : ∀ p ∈ conversed.1, p.1.Writes := by
  have hquiet : quiet.Writes := writeAll_ne_none
  have hall : ∀ e ∈ conversation, e.Writes := by
    simp [conversation, Network.Move.Writes, hquiet]
  have hevents : conversed.1.map Prod.fst = conversation := Run.exec_events (Option.some_get _).symm
  intro p hp
  exact hall _ (hevents ▸ List.mem_map_of_mem hp)

/-- What is typed at a client is forwarded in order, each message once and under the name of its
session; what is not forwarded yet is on the way, and nothing else is. -/
theorem messages_forwarded_in_order {log : List (Network.Move × List Happening)} {net : Network}
    (run : Run Network.step (fun net e => net.permitted e) Network.start log net)
    (hw : ∀ p ∈ log, p.1.Writes) {fd : Int} {c : ClientConnData} {user : CString}
    (hconn : net.server.conns fd = some c) (hs : c.clientState = .messageState) (hu : c.user = .live user) :
    ∃ l done waiting, net.links fd = some l ∧
      (ledger fd (happenings log)).sent = done ++ waiting ∧
      (ledger fd (happenings log)).forwarded = done.map (fun m => (m.toUser, m.frame user)) ∧
      c.buff.bytes ++ l.toServer = waiting.flatMap (fun m => m.packet.wire) ∧
      (l.toServer = [] → waiting = []) := by
  obtain ⟨l, hl, hbetween⟩ := (run_linked run hw).between fd c hconn
  obtain ⟨c, b, a, waiting, _, rfl, hc, _, _, rfl, _, _, out, _⟩ :=
    hbetween.of_member (standing_of_message hu hs)
  obtain ⟨done, hsent, hforwarded⟩ := out.sent
  refine ⟨l, done, waiting, hl, hsent, hforwarded, ?_, ?_⟩
  · rw [holding_bytes hc, out.way.symbols, List.flatMap_def]
  · intro hnil
    have hway := out.way
    rw [hnil] at hway
    simpa using hway.quiet.1

theorem conversed_session : ∃ c, conversed.2.server.conns 5 = some c ∧ c.clientState = .messageState ∧
    c.user = .live user1Attempt.user :=
  ⟨_, (Option.some_get (by decide +kernel)).symm, by decide +kernel, by decide +kernel⟩

theorem conversed_messages_forwarded_in_order :
    ∃ c l done waiting, conversed.2.server.conns 5 = some c ∧ conversed.2.links 5 = some l ∧
      (ledger 5 (happenings conversed.1)).sent = done ++ waiting ∧
      (ledger 5 (happenings conversed.1)).forwarded =
        done.map (fun m => (m.toUser, m.frame user1Attempt.user)) ∧
      c.buff.bytes ++ l.toServer = waiting.flatMap (fun m => m.packet.wire) ∧
      (l.toServer = [] → waiting = []) := by
  obtain ⟨c, hconn, hs, hu⟩ := conversed_session
  obtain ⟨l, done, waiting, h⟩ :=
    messages_forwarded_in_order conversed_run conversed_writes hconn hs hu
  exact ⟨c, l, done, waiting, hconn, h⟩

/-- A client in MESSAGE_STATE has a session under the name it has asked for; what is forwarded to it
is shown in order, each frame once, and what is not shown yet is on the way, and nothing else is. -/
theorem frames_shown_in_order {log : List (Network.Move × List Happening)} {net : Network}
    (run : Run Network.step (fun net e => net.permitted e) Network.start log net)
    (hw : ∀ p ∈ log, p.1.Writes) {fd : Int} {l : Link} (hl : net.links fd = some l) (hopen : l.isOpen)
    (hs : l.state = .messageState) :
    ∃ c a seen coming, net.server.conns fd = some c ∧ standingOf (some c) = .member a.user ∧
      authVerify a.user a.password = 0 ∧ (ledger fd (happenings log)).asked = some a ∧
      (ledger fd (happenings log)).shown = seen.map Letter.message ∧
      (ledger fd (happenings log)).routed = (seen ++ coming).map (fun x => (a.user, x.frame)) ∧
      l.read ++ l.toClient = coming.flatMap Letter.frame ∧ (l.toClient = [] → coming = []) := by
  obtain ⟨c, hconn, hbetween⟩ := (run_linked run hw).link hl
  cases hbetween with
  | idle _ _ _ _ client => rcases client hopen with h | h <;> simp [hs] at h
  | asking _ _ _ _ _ client =>
    have hauth := (client hopen).1
    simp [hs] at hauth
  | @session c _ b a waiting coming hc hs' hu granted asked out inc =>
    obtain ⟨seen, hshown, hrouted⟩ := inc.routed
    rcases inc.client hopen with ⟨_, way⟩ | ⟨hauth, _⟩
    · refine ⟨_, a, seen, coming, hconn, ?_, granted, asked, hshown, hrouted, ?_, ?_⟩
      · exact standing_of_message ((holding_user c b).trans hu) (holding_session hs' b)
      · rw [way.symbols, List.flatMap_def]
      · intro hnil
        rw [hnil] at way
        simpa using way.quiet.1
    · simp [hs] at hauth

theorem conversed_client : ∃ l, conversed.2.links 6 = some l ∧ l.isOpen ∧ l.state = .messageState :=
  ⟨_, (Option.some_get (by decide +kernel)).symm, by decide +kernel, by decide +kernel⟩

theorem conversed_frames_shown_in_order :
    ∃ l c a seen coming, conversed.2.links 6 = some l ∧ conversed.2.server.conns 6 = some c ∧
      standingOf (some c) = .member a.user ∧ authVerify a.user a.password = 0 ∧
      (ledger 6 (happenings conversed.1)).asked = some a ∧
      (ledger 6 (happenings conversed.1)).shown = seen.map Letter.message ∧
      (ledger 6 (happenings conversed.1)).routed = (seen ++ coming).map (fun x => (a.user, x.frame)) ∧
      l.read ++ l.toClient = coming.flatMap Letter.frame ∧ (l.toClient = [] → coming = []) := by
  obtain ⟨l, hl, hopen, hs⟩ := conversed_client
  obtain ⟨c, a, seen, coming, h⟩ := frames_shown_in_order conversed_run conversed_writes hl hopen hs
  exact ⟨l, c, a, seen, coming, hl, h⟩

/-- No read fails a client. -/
theorem client_reads_on {log : List (Network.Move × List Happening)} {net : Network}
    (run : Run Network.step (fun net e => net.permitted e) Network.start log net)
    (hw : ∀ p ∈ log, p.1.Writes) {fd : Int} {chunk : Chunk} {beyond : Nat → UInt8}
    (hp : net.permitted (.receive fd chunk beyond)) :
    ∃ net', (net.step (.receive fd chunk beyond)).result = .ok net' := by
  simp only [Network.permitted, Option.any_eq_true, decide_eq_true_eq] at hp
  obtain ⟨l, hl, hopen, hs, hthere, hwithin⟩ := hp
  obtain ⟨c, _, hbetween⟩ := (run_linked run hw).link hl
  obtain ⟨ys, l', hreceive, _⟩ := @Between.receive _ c l fd hbetween hopen hs chunk hthere hwithin beyond
  exact ⟨_, by simp [Network.step, hl, hreceive]; rfl⟩

theorem conversed_client_reads_on :
    ∃ net', (conversed.2.step (.receive 6 (piece ((hiUser2.frame user1Attempt.user).drop 5))
      fun _ => 0)).result = .ok net' :=
  client_reads_on conversed_run conversed_writes (by decide +kernel)

end Protocol
end TeamsInC
