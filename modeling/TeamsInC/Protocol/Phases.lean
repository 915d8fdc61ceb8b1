import TeamsInC.Protocol.Network

/-!
# The phases of a connection

Each connection is in one of three phases: nothing is asked, a login packet is on its way, or
there is a session. In a session the bytes towards the server are the messages typed and not
yet forwarded, the bytes towards the client are the frames forwarded to it and not yet shown,
and client and server agree on who has logged in. A read of either party, and what is typed,
leave the connection in a phase.
-/

set_option autoImplicit false

namespace TeamsInC
namespace Protocol
open Client Server

/-- A message under the name of its sender. -/
structure Letter where
  sender : CString
  chat : Chat
  known : sender ∈ accounts

namespace Letter

def packet (x : Letter) : Packet :=
  ⟨MSG_TYPE_CHAT_MSG, x.sender.bytes, x.chat.text, x.chat.relayable x.sender x.known⟩

def frame (x : Letter) : List UInt8 := x.chat.frame x.sender

def message (x : Letter) : MessageChat := chatOf MSG_TYPE_CHAT_MSG x.sender.bytes x.chat.text

end Letter

def Link.read (l : Link) : List UInt8 := l.got.flatMap Chunk.bytes

def refusedAnswer : List UInt8 := answer ['4', '0', '1']

def grantedAnswer : List UInt8 := answer ['2', '0', '0']

structure Silent (g : Ledger) : Prop where
  sent : g.sent = []
  forwarded : g.forwarded = []
  routed : g.routed = []
  shown : g.shown = []

/-- Towards the server: `waiting` has been typed and not yet been forwarded. -/
structure Outgoing (g : Ledger) (user : CString) (b : List UInt8) (l : Link) (waiting : List Chat) :
    Prop where
  way : Carries b l.toServer (waiting.map fun m => m.packet.wire)
  sent : ∃ done, g.sent = done ++ waiting ∧ g.forwarded = done.map fun m => (m.toUser, m.frame user)

/-- Towards the client: `coming` has been forwarded to it and not yet been shown. -/
structure Incoming (g : Ledger) (user : CString) (l : Link) (coming : List Letter) : Prop where
  routed : ∃ seen : List Letter, g.shown = seen.map Letter.message ∧
    g.routed = (seen ++ coming).map fun x => (user, x.frame)
  client : l.isOpen →
    (l.state = .messageState ∧ Carries l.read l.toClient (coming.map Letter.frame)) ∨
      (l.state = .authState ∧ Carries l.read l.toClient (grantedAnswer :: coming.map Letter.frame))

/-- What has happened on a connection, its record and its link. -/
inductive Between (g : Ledger) : ClientConnData → Link → Prop
  | idle {c : ClientConnData} {l : Link} (hc : Rests c) (hs : c.clientState = .initialState)
      (server : l.toServer = []) (silent : Silent g)
      (client : l.isOpen → (l.state = .initialState ∧ l.got = [] ∧ l.toClient = []) ∨
        (l.state = .authState ∧ Carries l.read l.toClient [refusedAnswer])) : Between g c l
  | asking {c : ClientConnData} {l : Link} {b : List UInt8} {a : Attempt} (hc : Rests c)
      (hs : c.clientState = .initialState) (asked : g.asked = some a)
      (way : Carries b l.toServer [a.packet.wire]) (silent : Silent g)
      (client : l.isOpen → l.state = .authState ∧ l.got = [] ∧ l.toClient = []) :
      Between g (holding c b) l
  | session {c : ClientConnData} {l : Link} {b : List UInt8} {a : Attempt} {waiting : List Chat}
      {coming : List Letter} (hc : Rests c) (hs : c.clientState = .messageState)
      (hu : c.user = .live a.user) (granted : authVerify a.user a.password = 0) (asked : g.asked = some a)
      (out : Outgoing g a.user b l waiting) (inc : Incoming g a.user l coming) :
      Between g (holding c b) l

theorem framed_refused : Framed refusedAnswer := framed_serverBytes (by decide)

theorem framed_granted : Framed grantedAnswer := framed_serverBytes (by decide)

theorem framed_ne_nil {f : List UInt8} (h : Framed f) : f ≠ [] := by
  rintro rfl
  simpa using h.twelve

theorem within_frame {got x pending : List UInt8} {frames : List (List UInt8)}
    (h : Carries got (x ++ pending) frames) (hframed : ∀ f ∈ frames, Framed f)
    (hw : Network.within (got ++ x)) (f : List UInt8) (rest : List (List UInt8))
    (hf : frames = f :: rest) : (got ++ x).length ≤ f.length := by
  subst hf
  have hframe := hframed f (by simp)
  have htwelve := hframe.twelve
  simp only [Network.within, decide_eq_true_eq] at hw
  rcases hw with hw | hw
  · omega
  · by_cases hlen : (got ++ x).length < 12
    · omega
    · have hsymbols := h.symbols
      rw [← List.append_assoc, List.flatten_cons] at hsymbols
      have hheader : headerOf (got ++ x) = headerOf f := by
        rw [← headerOf_append (by omega) pending, hsymbols, headerOf_append htwelve]
      rwa [hheader, hframe.len] at hw

/-- A read within a frame: it leaves the frame on its way, or is its end. -/
theorem take_framed {got pending : List UInt8} {chunk : Chunk} {frames : List (List UInt8)}
    (h : Carries got pending frames) (hframed : ∀ f ∈ frames, Framed f)
    (hthere : chunk.bytes <+: pending) (hw : Network.within (got ++ chunk.bytes)) :
    ∃ f rest, frames = f :: rest ∧
      ((∃ y, y ≠ [] ∧ got ++ chunk.bytes ++ y = f ∧
          Carries (got ++ chunk.bytes) (pending.drop chunk.bytes.length) frames) ∨
        got ++ chunk.bytes = f ∧ Carries [] (pending.drop chunk.bytes.length) rest) := by
  obtain ⟨later, rfl⟩ := hthere
  rw [List.drop_left]
  exact h.take (List.length_pos_iff.mp chunk.pos) (within_frame h hframed hw)

theorem ledger_append (fd : Int) (xs ys : List Happening) :
    ledger fd (xs ++ ys) = ys.foldl (Ledger.record fd) (ledger fd xs) := List.foldl_append

theorem record_actions (fd : Int) (g : Ledger) (effs : List Effect) :
    (effs.map Happening.server).foldl (Ledger.record fd) g =
      ((actions effs).map Happening.server).foldl (Ledger.record fd) g := by
  induction effs generalizing g with
  | nil => rfl
  | cons x effs ih =>
    rw [actions_cons, List.map_cons, List.foldl_cons, ih]
    cases x <;> rfl

theorem transmit_actions (effs : List Effect) (links : Int → Option Link) :
    Network.transmit effs links = Network.transmit (actions effs) links := by
  funext fd
  simp only [Network.transmit, sentTo_actions]

section
variable {s : ServerState} {fd : Int} {c : ClientConnData} {b y : List UInt8} {chunk : Chunk} {env : Env}
  {p : Packet}

def welcomed (c : ClientConnData) (user : CString) : ClientConnData :=
  { cleared c with clientState := .messageState, user := .live user }

/-- The end of a login packet: it is refused or granted, or the insertion follows NULL. -/
theorem step_login (hconn : s.conns fd = some (holding c b)) (hc : Rests c) (hs : c.clientState = .initialState)
    (hfdc : c.fd = fd) (hfd : 0 ≤ fd) (hwf : s.tree.WellFormed) (hw : env.Writes) {a : Attempt}
    (hp : b ++ chunk.bytes = a.packet.wire) :
    (authVerify a.user a.password < 0 ∧ seen (Server.step s (.data fd chunk env)) =
        ⟨[refusal fd], .ok ⟨Function.update s.conns fd (some (rejectedRecord c)), s.tree⟩⟩) ∨
      (authVerify a.user a.password = 0 ∧ ∃ tree', seen (Server.step s (.data fd chunk env)) =
        ⟨[.insert a.user fd, welcome fd],
          .ok ⟨Function.update s.conns fd (some (welcomed c a.user)), tree'⟩⟩) ∨
      seen (Server.step s (.data fd chunk env)) = ⟨[], .error .nullDeref⟩ := by
  have huser : CString.ofBuffer a.packet.first = a.user := CString.ofBuffer_bytes a.user
  have hpassword : CString.ofBuffer a.packet.second = a.password := CString.ofBuffer_bytes a.password
  rw [step_end hconn hc (hfdc ▸ hfd) hw hp, servePacket]
  rcases authVerify_cases a.user a.password with hv | hv
  · rcases hwf.insert fd env.bal (accounts_fit _ (authVerify_mem hv).1) with hi | ⟨tree', node, hi, hnode, _⟩
    · rw [serve_insertFault env.bal _ hs (by rw [huser, hpassword, hv]) (by rw [huser, hfdc, hi])]
      exact .inr (.inr rfl)
    · obtain ⟨node, rfl⟩ := Option.ne_none_iff_exists'.mp hnode
      rw [serve_accepted env.bal _ hs (by rw [huser, hpassword, hv]) (by rw [huser, hfdc, hi]), huser, hfdc]
      exact .inr (.inl ⟨hv, tree', rfl⟩)
  · rw [serve_rejected env.bal _ _ _ hs (by rw [huser, hpassword, hv]; decide), hfdc]
    exact .inl ⟨by rw [hv]; decide, rfl⟩

/-- The end of a chat packet: it goes out under the name of the session, if the search finds a
descriptor. -/
theorem step_chat (hconn : s.conns fd = some (holding c b)) (hc : Rests c) (hs : c.clientState = .messageState)
    (hfdc : c.fd = fd) (hfd : 0 ≤ fd) (hw : env.Writes) {x : Letter} (hu : c.user = .live x.sender)
    (hp : b ++ chunk.bytes = x.chat.packet.wire) {dest : Int}
    (hdest : s.tree.hbTreeSearch x.chat.toUser = .ok dest) :
    ∃ accepted, (dest < 0 ∧ accepted = [] ∨ 0 ≤ dest ∧ accepted = x.frame) ∧
      seen (Server.step s (.data fd chunk env)) =
        ⟨[.forward fd x.chat.toUser dest x.frame accepted],
          .ok ⟨Function.update s.conns fd (some (cleared c)), s.tree⟩⟩ := by
  have hto : CString.ofBuffer x.chat.packet.first = x.chat.toUser := CString.ofBuffer_bytes x.chat.toUser
  have hfits := x.chat.relayable x.sender x.known
  have hframe : relayed x.chat.packet.header x.chat.packet.first x.chat.packet.second x.sender = x.frame := by
    exact relayed_eq rfl _ (by omega) (by simp only [Chat.packet]; omega)
  refine ⟨(Write dest x.frame writeAll).1, ?_, ?_⟩
  · by_cases hpos : 0 ≤ dest
    · exact .inr ⟨hpos, congrArg Prod.fst (@Write_all quiet writeAll_ne_none dest hpos x.frame)⟩
    · exact .inl ⟨by omega, Write_negative (by omega) _ _⟩
  · rw [step_end hconn hc (hfdc ▸ hfd) hw hp, servePacket,
      serve_chat env.bal _ _ hs (by rw [hto, hdest]) hu ?_, hto, hframe, hfdc]
    · rfl
    · simp only [Chat.packet, sizeofMessageHeader]
      omega

theorem orderly_of_packet (hconn : s.conns fd = some (holding c b)) (hc : Rests c) (hfd : 0 ≤ fd)
    (hw : env.Writes) (hp : b ++ chunk.bytes ++ y = p.wire)
    (hfresh : Network.freshName s fd chunk env) : orderly s (.data fd chunk env) := by
  have hlen := congrArg List.length hp
  have hfits := p.fits
  rw [p.wire_length, List.length_append, List.length_append] at hlen
  have hreceive := receive_holding (b := b) (x := chunk.bytes) hc (by omega)
  have harrived : arrived s fd chunk = some _ := arrived_eq hconn hreceive rfl
  simp only [Network.freshName, harrived, decide_eq_true_eq] at hfresh
  simp only [orderly, harrived, decide_eq_true_eq]
  refine ⟨?_, ?_⟩
  · simp only [badHeader, decide_eq_false_iff_not, not_and, not_not]
    intro _ hoff hused
    rw [used_filled (by simp; omega)] at hused
    have hheader : (env.mem (b ++ chunk.bytes)).header 0 = p.header := by
      have hsame := headerOf_prefix hp hused
      refine (header_headerOf env.beyond ?_).trans hsame
      simp only [Server.SIZE_HEADER, sizeofMessageHeader] at hused
      omega
    rw [hoff, hheader]
    rfl
  · intro hlogin
    refine ⟨?_, hfresh hlogin⟩
    rw [greeted, Write_all hw hfd]

end

namespace Link
variable {l : Link} {chunk : Chunk} {f y : List UInt8} (fd : Int) (beyond : Nat → UInt8)

theorem read_snoc (l : Link) (chunk : Chunk) :
    (l.got ++ [chunk]).flatMap Chunk.bytes = l.read ++ chunk.bytes := by
  rw [List.flatMap_append, List.flatMap_singleton]
  rfl

theorem receive_inside (hs : l.state = .authState ∨ l.state = .messageState) (hf : Framed f)
    (h : l.read ++ chunk.bytes ++ y = f) (hy : y ≠ []) :
    l.receive fd chunk beyond = ⟨[], .ok { l with
      got := l.got ++ [chunk], toClient := l.toClient.drop chunk.bytes.length }⟩ := by
  have hloop : readLoop .null (chunks (l.got ++ [chunk])) = .error .blocked := by
    apply readLoop_blocked hf hy
    rw [read_snoc]
    exact h
  rcases hs with hs | hs
  · simp only [Link.receive, hs, authState_blocked hloop, Traced.pure_eq]
  · simp only [Link.receive, hs, receiveMessage_blocked hloop, Traced.pure_eq]

theorem receive_answer (hs : l.state = .authState) {text : List UInt8} (htext : 12 + text.length < 65536)
    (h : l.read ++ chunk.bytes = serverBytes text) :
    l.receive fd chunk beyond = ⟨[], .ok { l with
      state := if CString.ofBuffer text = CString.ofBuffer (ascii ['2', '0', '0']) then .messageState
        else .initialState
      got := [], toClient := l.toClient.drop chunk.bytes.length }⟩ := by
  have hauth := authState_reply htext ((read_snoc l chunk).trans h) beyond []
  rw [List.append_nil] at hauth
  simp only [Link.receive, hs, hauth, Traced.pure_eq]

theorem receive_letter (hs : l.state = .messageState) {x : Letter} (h : l.read ++ chunk.bytes = x.frame) :
    l.receive fd chunk beyond = ⟨[.shown fd x.message], .ok { l with
      got := [], toClient := l.toClient.drop chunk.bytes.length }⟩ := by
  have hmessage := receiveMessage_packet x.packet.fits ((read_snoc l chunk).trans h) beyond []
  rw [List.append_nil] at hmessage
  simp only [Link.receive, hs, hmessage]
  rfl

end Link

namespace Between
variable {g : Ledger} {c : ClientConnData} {l : Link} {fd : Int}

theorem leave (h : Between g c l) : Between g c { l with isOpen := false } := by
  cases h with
  | idle hc hs server silent => exact .idle hc hs server silent (by simp)
  | asking hc hs asked way silent => exact .asking hc hs asked way silent (by simp)
  | session hc hs hu granted asked out inc =>
    exact .session hc hs hu granted asked ⟨out.way, out.sent⟩ ⟨inc.routed, by simp⟩

theorem login (h : Between g c l) (hopen : l.isOpen) (hs : l.state = .initialState) (a : Attempt)
    (memory : List UInt8) :
    Between { g with asked := some a } c { l with
      state := .authState, toServer := l.toServer ++ loginBuffer memory a.user a.password } := by
  have hbuffer : loginBuffer memory a.user a.password = a.packet.wire :=
    loginBuffer_eq (Nat.lt_succ_of_le a.fits) memory
  have hne : a.packet.wire ≠ [] := framed_ne_nil a.packet.framed
  cases h with
  | idle hc hs' server silent client =>
    rcases client hopen with ⟨_, hgot, hclient⟩ | ⟨hauth, _⟩
    · rw [server, List.nil_append, hbuffer, ← holding_nil c]
      exact .asking hc hs' rfl (.single hne) ⟨silent.sent, silent.forwarded, silent.routed, silent.shown⟩
        fun _ => ⟨rfl, hgot, hclient⟩
    · simp [hs] at hauth
  | asking _ _ _ _ _ client =>
    have hauth := (client hopen).1
    simp [hs] at hauth
  | session _ _ _ _ _ _ inc =>
    rcases inc.client hopen with ⟨hmessage, _⟩ | ⟨hauth, _⟩
    · simp [hs] at hmessage
    · simp [hs] at hauth

theorem write (h : Between g c l) (hopen : l.isOpen) (hs : l.state = .messageState) (m : Chat)
    (memory : List UInt8) :
    Between { g with sent := g.sent ++ [m] } c { l with
      toServer := l.toServer ++
        chatBuffer memory (chatOf MSG_TYPE_CHAT_MSG m.toUser.bytes m.text) } := by
  have hbuffer : chatBuffer memory (chatOf MSG_TYPE_CHAT_MSG m.toUser.bytes m.text) = m.packet.wire :=
    chatBuffer_eq m.fits memory
  rw [hbuffer]
  cases h with
  | idle _ _ _ _ client =>
    rcases client hopen with ⟨hinitial, _⟩ | ⟨hauth, _⟩
    · simp [hs] at hinitial
    · simp [hs] at hauth
  | asking _ _ _ _ _ client =>
    have hauth := (client hopen).1
    simp [hs] at hauth
  | @session _ _ b a waiting _ hc hs' hu granted asked out inc =>
    obtain ⟨done, hsent, hforwarded⟩ := out.sent
    refine @Between.session _ _ _ _ _ (waiting ++ [m]) _ hc hs' hu granted asked ⟨?_, done, ?_, hforwarded⟩
      ⟨inc.routed, inc.client⟩
    · rw [List.map_append]
      exact out.way.put (framed_ne_nil m.packet.framed)
    · dsimp only
      rw [hsent, List.append_assoc]

/-- A read of the client: it does not fail, leaves the connection in a phase and shows nothing or the
next letter. -/
theorem receive (h : Between g c l) (hopen : l.isOpen) (hs : l.state ≠ .initialState) {chunk : Chunk}
    (hthere : chunk.bytes <+: l.toClient) (hw : Network.within (l.read ++ chunk.bytes))
    (beyond : Nat → UInt8) :
    ∃ ys l', l.receive fd chunk beyond = ⟨ys, .ok l'⟩ ∧
      Between (ys.foldl (Ledger.record fd) g) c l' ∧ (ys = [] ∨ ∃ user seen x coming,
        ys = [.shown fd x.message] ∧ g.shown = seen.map Letter.message ∧
          g.routed = (seen ++ x :: coming).map fun x => (user, x.frame)) := by
  cases h with
  | idle hc hs' server silent client =>
    rcases client hopen with ⟨hinitial, _⟩ | ⟨hauth, way⟩
    · exact absurd hinitial hs
    · obtain ⟨f, rest, heq, hcase⟩ := take_framed way (by simpa using framed_refused) hthere hw
      cases heq
      rcases hcase with ⟨y, hy, hframe, way'⟩ | ⟨hframe, way'⟩
      · refine ⟨_, _, Link.receive_inside fd beyond (.inl hauth) framed_refused hframe hy, ?_, .inl rfl⟩
        refine .idle hc hs' server silent fun _ => .inr ⟨hauth, ?_⟩
        rwa [← Link.read_snoc] at way'
      · refine ⟨_, _, Link.receive_answer fd beyond hauth (by decide) hframe, ?_, .inl rfl⟩
        have hrefused : CString.ofBuffer (ascii ['4', '0', '1']) ≠ CString.ofBuffer (ascii ['2', '0', '0']) := by
          decide
        refine .idle hc hs' server silent fun _ => .inl ⟨by simp [hrefused], rfl, ?_⟩
        simpa using way'.symbols
  | asking _ _ _ _ _ client =>
    have hnil := (client hopen).2.2
    rw [hnil, List.prefix_nil] at hthere
    exact absurd hthere (List.length_pos_iff.mp chunk.pos)
  | @session _ _ b a waiting coming hc hs' hu granted asked out inc =>
    obtain ⟨seen, hshown, hrouted⟩ := inc.routed
    have hletters : ∀ f ∈ coming.map Letter.frame, Framed f := by
      intro f hf
      obtain ⟨x, _, rfl⟩ := List.mem_map.mp hf
      exact x.packet.framed
    rcases inc.client hopen with ⟨hmessage, way⟩ | ⟨hauth, way⟩
    · obtain ⟨f, rest, heq, hcase⟩ := take_framed way hletters hthere hw
      obtain ⟨x, coming, rfl, rfl, rfl⟩ := List.map_eq_cons_iff.mp heq
      rcases hcase with ⟨y, hy, hframe, way'⟩ | ⟨hframe, way'⟩
      · refine ⟨_, _, Link.receive_inside fd beyond (.inr hmessage) x.packet.framed hframe hy, ?_,
          .inl rfl⟩
        refine .session hc hs' hu granted asked ⟨out.way, out.sent⟩
          ⟨inc.routed, fun _ => .inl ⟨hmessage, ?_⟩⟩
        rwa [← Link.read_snoc] at way'
      · refine ⟨_, _, Link.receive_letter fd beyond hmessage hframe, ?_,
          .inr ⟨a.user, seen, x, coming, rfl, hshown, hrouted⟩⟩
        simp only [List.foldl_cons, List.foldl_nil, Ledger.record, if_true]
        refine .session hc hs' hu granted asked ⟨out.way, out.sent⟩
          ⟨⟨seen ++ [x], ?_, ?_⟩, fun _ => .inl ⟨hmessage, way'⟩⟩
        · simp [hshown]
        · simp [hrouted]
    · obtain ⟨f, rest, heq, hcase⟩ := take_framed way
        (by simpa using ⟨framed_granted, fun x hx => hletters _ (List.mem_map_of_mem hx)⟩) hthere hw
      cases heq
      rcases hcase with ⟨y, hy, hframe, way'⟩ | ⟨hframe, way'⟩
      · refine ⟨_, _, Link.receive_inside fd beyond (.inl hauth) framed_granted hframe hy, ?_,
          .inl rfl⟩
        refine .session hc hs' hu granted asked ⟨out.way, out.sent⟩
          ⟨inc.routed, fun _ => .inr ⟨hauth, ?_⟩⟩
        rwa [← Link.read_snoc] at way'
      · refine ⟨_, _, Link.receive_answer fd beyond hauth (by decide) hframe, ?_, .inl rfl⟩
        exact .session hc hs' hu granted asked ⟨out.way, out.sent⟩
          ⟨inc.routed, fun _ => .inl ⟨by simp, way'⟩⟩

end Between

end Protocol
end TeamsInC
