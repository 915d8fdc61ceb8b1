import TeamsInC.Protocol.Delivery

/-!
# Nothing gets stuck

Wherever a run of the network has come to, one more byte of a session can be read, by the server
and by the client, and no such read fails. So what is on its way between two sessions can be
brought to its end by reads alone, and then it has been shown.
-/

set_option autoImplicit false

namespace TeamsInC
namespace Protocol
open Client Server

def one (x : UInt8) : Chunk := ⟨[x], Nat.succ_pos 0, Nat.succ_le_succ (Nat.zero_le 1023)⟩

theorem within_part {b y f : List UInt8} (hf : Framed f) (h : b ++ y = f) : Network.within b := by
  simp only [Network.within, decide_eq_true_eq]
  by_cases hb : b.length < 12
  · exact .inl hb
  · refine .inr ?_
    have hlen := hf.len
    rw [← h, headerOf_append (by omega), List.length_append] at hlen
    omega

theorem not_completesLogin {c : ClientConnData} (hs : c.clientState = .messageState) (m : Mem) :
    completesLogin c m = false := by
  cases hhead : headed c m with
  | none => simp [completesLogin, hhead]
  | some d =>
    have hd : d.clientState = .messageState := by
      simp only [headed, hs] at hhead
      split at hhead
      · split at hhead
        · cases hhead
          exact hs
        · split at hhead
          · cases hhead
            rfl
          · cases hhead
      · cases hhead
    simp only [completesLogin, hhead]
    split
    · simp [hd]
    · rfl

theorem freshName_session {s : ServerState} {fd : Int} {c : ClientConnData} (hconn : s.conns fd = some c)
    (hs : c.clientState = .messageState) (chunk : Chunk) (env : Env) : Network.freshName s fd chunk env := by
  simp only [Network.freshName]
  split
  · rfl
  · rename_i d b harrived
    have hd : d.clientState = .messageState := by
      simp only [arrived, hconn] at harrived
      split at harrived
      · cases harrived
      · rename_i hreceive
        obtain ⟨_, _, rfl, _⟩ := receive_ok hreceive
        cases harrived
        exact hs
    simp [not_completesLogin hd]

/-- From one state of the network to another: the standings are the same, and what has newly been
forwarded for this connection has come for the sessions it was for. -/
structure Relays (fd : Int) (xs : List Happening) (net : Network) (xs' : List Happening) (net' : Network) :
    Prop where
  standing : ∀ fd', standingOf (net'.server.conns fd') = standingOf (net.server.conns fd')
  isOpen : ∀ fd', (net'.links fd').map Link.isOpen = (net.links fd').map Link.isOpen
  sent : (ledger fd xs').sent = (ledger fd xs).sent
  routed : ∃ new, (ledger fd xs').forwarded = (ledger fd xs).forwarded ++ new ∧
    ∀ fd' v, standingOf (net.server.conns fd') = .member v →
      (ledger fd' xs').routed = (ledger fd' xs).routed ++ new.filter fun p => p.1 = v

namespace Relays
variable {fd : Int} {xs xs' xs'' : List Happening} {net net' net'' : Network}

theorem refl (fd : Int) (xs : List Happening) (net : Network) : Relays fd xs net xs net :=
  ⟨fun _ => rfl, fun _ => rfl, rfl, [], by simp, by simp⟩

theorem trans (h : Relays fd xs net xs' net') (h' : Relays fd xs' net' xs'' net'') :
    Relays fd xs net xs'' net'' := by
  obtain ⟨new, hforwarded, hrouted⟩ := h.routed
  obtain ⟨new', hforwarded', hrouted'⟩ := h'.routed
  refine ⟨fun fd' => (h'.standing fd').trans (h.standing fd'), fun fd' => (h'.isOpen fd').trans (h.isOpen fd'),
    h'.sent.trans h.sent, new ++ new', ?_, ?_⟩
  · rw [hforwarded', hforwarded, List.append_assoc]
  · intro fd' v hv
    rw [hrouted' fd' v (h.standing fd' ▸ hv), hrouted fd' v hv, List.append_assoc, List.filter_append]

end Relays

namespace Linked
variable {xs : List Happening} {net : Network} {fd : Int} {user : CString} {l : Link}

/-- What follows for the network from what the server does with the bytes of a session. -/
theorem relays (hl : net.links fd = some l) {chunk : Chunk} {env : Env}
    {c' : ClientConnData} {tree' : HbTree} {acts : List Effect}
    (hseen : seen (Server.step net.server (.data fd chunk env)) =
      ⟨acts, .ok ⟨Function.update net.server.conns fd (some c'), tree'⟩⟩)
    (hstanding : standingOf (some c') = standingOf (net.server.conns fd))
    (hsent : ∀ g, (noted fd acts g).sent = g.sent) (new : List (CString × List UInt8))
    (hforwarded : ∀ g, (noted fd acts g).forwarded = g.forwarded ++ new)
    (hrouted : ∀ fd' v, standingOf (net.server.conns fd') = .member v →
      ∀ g, (noted fd' acts g).routed = g.routed ++ new.filter fun p => p.1 = v) :
    ∃ net' l', (net.step (.serve fd chunk env)).result = .ok net' ∧
      Relays fd xs net (xs ++ (net.step (.serve fd chunk env)).effects) net' ∧
      net'.links fd = some l' ∧ l'.toServer = l.toServer.drop chunk.bytes.length := by
  obtain ⟨hok, hacts⟩ := of_seen hseen
  have hstep : net.step (.serve fd chunk env) =
      ⟨(Server.step net.server (.data fd chunk env)).effects.map .server,
        .ok ⟨⟨Function.update net.server.conns fd (some c'), tree'⟩,
          Network.transmit (Server.step net.server (.data fd chunk env)).effects
            (Function.update net.links fd
              (some { l with toServer := l.toServer.drop chunk.bytes.length }))⟩⟩ := by
    simp only [Network.step, hl, Network.serverStep]
    rw [show (net.setLink fd _).server = net.server from rfl, hok]
    rfl
  rw [hstep]
  have hledger (fd' : Int) :
      ledger fd' (xs ++ (Server.step net.server (.data fd chunk env)).effects.map .server) =
        noted fd' acts (ledger fd' xs) := by
    rw [ledger_append, record_actions, hacts]
    rfl
  refine ⟨_, _, rfl, ⟨?_, ?_, ?_, new, ?_, ?_⟩, by simp [Network.transmit]; rfl, rfl⟩
  · intro fd'
    by_cases hfd : fd' = fd
    · subst hfd
      simpa using hstanding
    · simp [hfd]
  · intro fd'
    by_cases hfd : fd' = fd
    · subst hfd
      simp [Network.transmit, hl]
    · simp [Network.transmit, hfd, Function.comp_def]
  · simp only [hledger]
    exact hsent _
  · simp only [hledger]
    exact hforwarded _
  · intro fd' v hv
    simp only [hledger]
    exact hrouted fd' v hv _

theorem serve_one (H : Linked xs net) (hmember : standingOf (net.server.conns fd) = .member user)
    (hl : net.links fd = some l) {x : UInt8} {rest : List UInt8} (hto : l.toServer = x :: rest) :
    net.permitted (.serve fd (one x) quiet) ∧
      ∃ net' l', (net.step (.serve fd (one x) quiet)).result = .ok net' ∧
        Relays fd xs net (xs ++ (net.step (.serve fd (one x) quiet)).effects) net' ∧
        net'.links fd = some l' ∧ l'.toServer = rest := by
  obtain ⟨c, hconn, hbetween⟩ := H.link hl
  have hfd := H.nonneg fd c hconn
  rw [hconn] at hmember
  have hstate := (standing_member hmember).1
  obtain ⟨c, b, a, waiting, coming, rfl, hc, hs, hu, rfl, granted, asked, out, inc⟩ := hbetween.of_member hmember
  have hfdc := H.fd_eq hconn
  have hway := out.way
  rw [hto] at hway
  obtain ⟨f, frames, y, heq, hf⟩ := hway.head
  obtain ⟨m, waiting, rfl, rfl, rfl⟩ := List.map_eq_cons_iff.mp heq
  have hw : quiet.Writes := writeAll_ne_none
  have hpermitted : net.permitted (.serve fd (one x) quiet) := by
    simp only [Network.permitted, Option.any_eq_true, decide_eq_true_eq]
    refine ⟨l, hl, by simp [hconn], ?_, ?_, freshName_session hconn hstate _ _⟩
    · rw [hto]
      exact List.prefix_append [x] rest
    · simp only [Network.buffered, hconn, holding_bytes hc]
      exact within_part m.packet.framed hf
  refine ⟨hpermitted, ?_⟩
  have hrest : l.toServer.drop (one x).bytes.length = rest := by
    rw [hto]
    rfl
  have hsame {c' : ClientConnData} (hs' : c'.clientState = .messageState) (hu' : c'.user = .live a.user) :
      standingOf (some c') = standingOf (net.server.conns fd) := by
    rw [hconn, standing_of_message hu' hs']
    exact (standing_of_message ((holding_user c b).trans hu) hstate).symm
  rw [← hrest]
  by_cases hy : y = []
  · subst hy
    rw [List.append_nil] at hf
    let letter : Letter := ⟨a.user, m, (authVerify_mem granted).1⟩
    obtain ⟨dest, hsearch, _⟩ := H.dest m.toUser
    have hpacket : b ++ (one x).bytes = letter.chat.packet.wire := hf
    obtain ⟨accepted, haccepted, hseen⟩ := step_chat hconn hc hs hfdc hfd hw hu hpacket hsearch
    refine relays hl hseen (hsame hs hu) (fun _ => by simp [noted, Ledger.record])
      [(letter.chat.toUser, letter.frame)] (fun _ => by simp [noted, Ledger.record]) ?_
    intro fd' v hv g
    have hiff : dest = fd' ↔ letter.chat.toUser = v := H.dest_iff hsearch hv
    by_cases he : dest = fd'
    · have hpos := H.nonneg_member hv
      have haccepted : accepted = letter.frame := by
        rcases haccepted with ⟨hneg, _⟩ | ⟨_, h⟩
        · omega
        · exact h
      simp [noted, Ledger.record, he, hiff.mp he, haccepted]
    · simp [noted, Ledger.record, he, mt hiff.mpr he]
  · have hpacket : b ++ (one x).bytes ++ y = m.packet.wire := hf
    exact relays hl (step_inside hconn hc (hfdc ▸ hfd) hw hpacket hy)
      (hsame (holding_session hs _) ((holding_user c _).trans hu)) (fun _ => rfl) []
      (fun _ => by simp [noted]) (fun _ _ _ _ => by simp [noted])

end Linked

/-- From one state of the network to another, only clients have read. -/
structure Shows (xs : List Happening) (net : Network) (xs' : List Happening) (net' : Network) : Prop where
  server : net'.server = net.server
  isOpen : ∀ fd, (net'.links fd).map Link.isOpen = (net.links fd).map Link.isOpen
  ledger : ∀ fd, { ledger fd xs' with shown := (ledger fd xs).shown } = ledger fd xs

namespace Shows
variable {xs xs' xs'' : List Happening} {net net' net'' : Network}

theorem refl (xs : List Happening) (net : Network) : Shows xs net xs net :=
  ⟨rfl, fun _ => rfl, fun _ => rfl⟩

theorem trans (h : Shows xs net xs' net') (h' : Shows xs' net' xs'' net'') : Shows xs net xs'' net'' := by
  refine ⟨h'.server.trans h.server, fun fd => (h'.isOpen fd).trans (h.isOpen fd), fun fd => ?_⟩
  have hledger := h.ledger fd
  rw [← h'.ledger fd] at hledger
  exact hledger

end Shows

theorem Link.receive_ok {l l' : Link} {fd : Int} {chunk : Chunk} {beyond : Nat → UInt8}
    (hs : l.state = .authState ∨ l.state = .messageState)
    (h : (l.receive fd chunk beyond).result = .ok l') :
    l'.isOpen = l.isOpen ∧ l'.toClient = l.toClient.drop chunk.bytes.length ∧
      ∀ y ∈ (l.receive fd chunk beyond).effects, ∃ msgChat, y = .shown fd msgChat := by
  rcases hs with hs | hs
  · simp only [Link.receive, hs] at h ⊢
    split at h
    · cases h
      simp
    · cases h
    · cases h
      simp
  · simp only [Link.receive, hs] at h ⊢
    split at h
    · cases h
      simp
    · cases h
    · cases h
      exact ⟨rfl, rfl, fun y hy => ⟨_, List.mem_singleton.mp hy⟩⟩

theorem ledger_shown {fd : Int} {ys : List Happening} (h : ∀ y ∈ ys, ∃ msgChat, y = .shown fd msgChat)
    (xs : List Happening) (fd' : Int) :
    { ledger fd' (xs ++ ys) with shown := (ledger fd' xs).shown } = ledger fd' xs := by
  induction ys using List.reverseRecOn with
  | nil => rw [List.append_nil]
  | append_singleton ys y ih =>
    rw [List.forall_mem_append, List.forall_mem_singleton] at h
    obtain ⟨msgChat, rfl⟩ := h.2
    rw [← ih h.1, ← List.append_assoc, ledger_append fd' (xs ++ ys)]
    simp only [List.foldl_cons, List.foldl_nil, Ledger.record]
    split <;> rfl

namespace Linked
variable {xs : List Happening} {net : Network} {fd : Int} {user : CString} {l : Link}

theorem receive_one (H : Linked xs net) (hmember : standingOf (net.server.conns fd) = .member user)
    (hl : net.links fd = some l) (hopen : l.isOpen) {x : UInt8} {rest : List UInt8}
    (hto : l.toClient = x :: rest) (beyond : Nat → UInt8) :
    net.permitted (.receive fd (one x) beyond) ∧
      ∃ net' l', (net.step (.receive fd (one x) beyond)).result = .ok net' ∧
        Shows xs net (xs ++ (net.step (.receive fd (one x) beyond)).effects) net' ∧
        net'.links fd = some l' ∧ l'.toClient = rest := by
  obtain ⟨c, hconn, hbetween⟩ := H.link hl
  rw [hconn] at hmember
  obtain ⟨hs, hwithin⟩ : (l.state = .authState ∨ l.state = .messageState) ∧
      Network.within (l.read ++ (one x).bytes) := by
    obtain ⟨_, _, _, _, _, _, _, _, _, _, _, _, _, inc⟩ := hbetween.of_member hmember
    rcases inc.client hopen with ⟨hs, way⟩ | ⟨hs, way⟩
    · rw [hto] at way
      obtain ⟨f, frames, y, heq, hf⟩ := way.head
      obtain ⟨letter, coming, rfl, rfl, rfl⟩ := List.map_eq_cons_iff.mp heq
      exact ⟨.inr hs, within_part letter.packet.framed hf⟩
    · rw [hto] at way
      obtain ⟨f, frames, y, heq, hf⟩ := way.head
      cases heq
      exact ⟨.inl hs, within_part framed_granted hf⟩
  have hinitial : l.state ≠ .initialState := by
    rcases hs with hs | hs <;> simp [hs]
  have hthere : (one x).bytes <+: l.toClient := by
    rw [hto]
    exact List.prefix_append [x] rest
  obtain ⟨ys, l', hreceive, _⟩ := @Between.receive _ c l fd hbetween hopen hinitial (one x) hthere hwithin beyond
  have hok : (l.receive fd (one x) beyond).result = .ok l' := congrArg Traced.result hreceive
  obtain ⟨hopen', hto', hshown⟩ := Link.receive_ok hs hok
  refine ⟨?_, net.setLink fd (some l'), l', ?_, ⟨?_, ?_, ?_⟩, Function.update_self .., ?_⟩
  · simp only [Network.permitted, Option.any_eq_true, decide_eq_true_eq]
    exact ⟨l, hl, hopen, hinitial, hthere, hwithin⟩
  · simp only [Network.step, hl, hreceive]
    rfl
  · rfl
  · intro fd'
    by_cases hfd : fd' = fd
    · subst hfd
      simp [Network.setLink, hl, hopen']
    · simp [Network.setLink, hfd]
  · intro fd'
    have heffects : (net.step (.receive fd (one x) beyond)).effects = (l.receive fd (one x) beyond).effects := by
      simp only [Network.step, hl, hreceive]
      exact List.append_nil _
    rw [heffects]
    exact ledger_shown hshown xs fd'
  · rw [hto', hto]
    rfl

end Linked

def unread (side : Link → List UInt8) (fd : Int) (net : Network) : Nat :=
  match net.links fd with
  | none => 0
  | some l => (side l).length

theorem exists_of_unread {side : Link → List UInt8} {fd : Int} {net : Network} (h : unread side fd net ≠ 0) :
    ∃ l x rest, net.links fd = some l ∧ side l = x :: rest ∧ unread side fd net = rest.length + 1 := by
  simp only [unread] at h ⊢
  split at h
  · exact absurd rfl h
  · rename_i l hl
    obtain ⟨x, rest, hside⟩ := List.exists_cons_of_ne_nil (List.ne_nil_of_length_pos (Nat.pos_of_ne_zero h))
    exact ⟨l, x, rest, hl, hside, by simp [hside]⟩

def Network.Move.ReadsOne (server client : Int) : Network.Move → Prop
  | .serve fd chunk env => fd = server ∧ chunk.bytes.length = 1 ∧ env.Writes
  | .receive fd chunk _ => fd = client ∧ chunk.bytes.length = 1
  | _ => False

theorem Network.Move.ReadsOne.writes {fd fd' : Int} {e : Network.Move} (h : e.ReadsOne fd fd') : e.Writes := by
  cases e with
  | serve => exact h.2.2
  | _ => trivial

section
variable {log : List (Network.Move × List Happening)} {net : Network} {fd : Int} {user : CString}

theorem forall_writes_snoc (hw : ∀ p ∈ log, p.1.Writes) {e : Network.Move} (he : e.Writes) (ys : List Happening) :
    ∀ p ∈ log ++ [(e, ys)], p.1.Writes :=
  List.forall_mem_append.mpr ⟨hw, List.forall_mem_singleton.mpr he⟩

theorem serves_on (run : Run Network.step (fun net e => net.permitted e) Network.start log net)
    (hw : ∀ p ∈ log, p.1.Writes) (hmember : standingOf (net.server.conns fd) = .member user) (fd' : Int) :
    ∃ more net', (∀ p ∈ more, p.1.ReadsOne fd fd') ∧
      Run Network.step (fun net e => net.permitted e) Network.start (log ++ more) net' ∧
      ((∀ p ∈ log ++ more, p.1.Writes) ∧ Relays fd (happenings log) net (happenings (log ++ more)) net') ∧
      unread Link.toServer fd net' = 0 := by
  refine @Run.reaches _ _ _ _ _ _ _ _ _ (fun log' net' => (∀ p ∈ log', p.1.Writes) ∧
    Relays fd (happenings log) net (happenings log') net') (unread Link.toServer fd)
    (fun e => e.ReadsOne fd fd') ?_ run ⟨hw, .refl fd _ net⟩
  rintro log₁ net₁ run₁ ⟨hw₁, hrelays⟩ hunread
  obtain ⟨l, x, rest, hl, hto, hlen⟩ := exists_of_unread hunread
  obtain ⟨hpermitted, net', l', hok, hstep, hl', hto'⟩ :=
    (run_linked run₁ hw₁).serve_one ((hrelays.standing fd).trans hmember) hl hto
  have hquiet : quiet.Writes := writeAll_ne_none
  refine ⟨.serve fd (one x) quiet, net', ⟨rfl, rfl, hquiet⟩, hpermitted, hok,
    ⟨forall_writes_snoc hw₁ (e := .serve fd (one x) quiet) hquiet _, ?_⟩, ?_⟩
  · rw [happenings_snoc]
    exact hrelays.trans hstep
  · rw [hlen, unread, hl']
    simp [hto']

theorem reads_on (run : Run Network.step (fun net e => net.permitted e) Network.start log net)
    (hw : ∀ p ∈ log, p.1.Writes) (hmember : standingOf (net.server.conns fd) = .member user)
    (hopen : (net.links fd).map Link.isOpen = some true) (fd' : Int) :
    ∃ more net', (∀ p ∈ more, p.1.ReadsOne fd' fd) ∧
      Run Network.step (fun net e => net.permitted e) Network.start (log ++ more) net' ∧
      ((∀ p ∈ log ++ more, p.1.Writes) ∧ Shows (happenings log) net (happenings (log ++ more)) net') ∧
      unread Link.toClient fd net' = 0 := by
  refine @Run.reaches _ _ _ _ _ _ _ _ _ (fun log' net' => (∀ p ∈ log', p.1.Writes) ∧
    Shows (happenings log) net (happenings log') net') (unread Link.toClient fd)
    (fun e => e.ReadsOne fd' fd) ?_ run ⟨hw, .refl _ net⟩
  rintro log₁ net₁ run₁ ⟨hw₁, hshows⟩ hunread
  obtain ⟨l, x, rest, hl, hto, hlen⟩ := exists_of_unread hunread
  have hlopen : l.isOpen = true := by
    have h := hshows.isOpen fd
    rw [hopen, hl] at h
    exact Option.some.inj h
  obtain ⟨hpermitted, net', l', hok, hstep, hl', hto'⟩ :=
    (run_linked run₁ hw₁).receive_one (hshows.server ▸ hmember) hl hlopen hto fun _ => 0
  refine ⟨.receive fd (one x) fun _ => 0, net', ⟨rfl, rfl⟩, hpermitted, hok,
    ⟨forall_writes_snoc hw₁ (e := .receive fd (one x) fun _ => 0) trivial _, ?_⟩, ?_⟩
  · rw [happenings_snoc]
    exact hshows.trans hstep
  · rw [hlen, unread, hl']
    simp [hto']

end

namespace Linked
variable {xs : List Happening} {net : Network} {fd : Int} {user : CString}

theorem all_forwarded (H : Linked xs net) (hmember : standingOf (net.server.conns fd) = .member user)
    (hread : unread Link.toServer fd net = 0) :
    (ledger fd xs).forwarded = (ledger fd xs).sent.map fun m => (m.toUser, m.frame user) := by
  obtain ⟨c, hconn⟩ := conn_of_member hmember
  obtain ⟨l, hl, _⟩ := H.between fd c hconn
  obtain ⟨_, done, waiting, _, _, hsent, hforwarded, _, _, hway⟩ := H.entries hmember
  have hnil : l.toServer = [] := by simpa [unread, hl] using hread
  rw [hsent, (hway l hl).1 hnil, List.append_nil]
  exact hforwarded

theorem all_shown (H : Linked xs net) (hmember : standingOf (net.server.conns fd) = .member user)
    (hopen : (net.links fd).map Link.isOpen = some true) (hread : unread Link.toClient fd net = 0) :
    ∃ seen : List Letter, (ledger fd xs).shown = seen.map Letter.message ∧
      (ledger fd xs).routed = seen.map fun x => (user, x.frame) := by
  obtain ⟨l, hl, hlopen⟩ := Option.map_eq_some_iff.mp hopen
  obtain ⟨_, _, _, seen, coming, _, _, hshown, hrouted, hway⟩ := H.entries hmember
  have hnil : l.toClient = [] := by simpa [unread, hl] using hread
  rw [(hway l hl).2 hlopen hnil, List.append_nil] at hrouted
  exact ⟨seen, hshown, hrouted⟩

end Linked

/-- Wherever a run has come to, what has been typed in one session and has not been forwarded can be
brought to its recipient by reads of the server and of the recipient alone: none of them fails, and
then the recipient has been shown everything that had come for it, and behind it these messages. -/
theorem delivery_can_be_completed {log : List (Network.Move × List Happening)} {net : Network}
    (run : Run Network.step (fun net e => net.permitted e) Network.start log net)
    (hw : ∀ p ∈ log, p.1.Writes) {fd fd' : Int} {user user' : CString}
    (hfrom : standingOf (net.server.conns fd) = .member user)
    (hto : standingOf (net.server.conns fd') = .member user')
    (hopen : (net.links fd').map Link.isOpen = some true) :
    ∃ more net', (∀ p ∈ more, p.1.ReadsOne fd fd') ∧
      Run Network.step (fun net e => net.permitted e) Network.start (log ++ more) net' ∧
      (ledger fd (happenings (log ++ more))).forwarded =
        (ledger fd (happenings log)).sent.map (fun m => (m.toUser, m.frame user)) ∧
      ∃ seen : List Letter, (ledger fd' (happenings (log ++ more))).shown = seen.map Letter.message ∧
        seen.map (fun x => (user', x.frame)) = (ledger fd' (happenings log)).routed ++
          (((ledger fd (happenings log)).sent.drop (ledger fd (happenings log)).forwarded.length).filter
            (fun m => m.toUser = user')).map fun m => (m.toUser, m.frame user) := by
  obtain ⟨more, net₁, hmore, run₁, ⟨hw₁, hrelays⟩, hread₁⟩ := serves_on run hw hfrom fd'
  have hfrom₁ := (hrelays.standing fd).trans hfrom
  have hto₁ := (hrelays.standing fd').trans hto
  have hforwarded := (run_linked run₁ hw₁).all_forwarded hfrom₁ hread₁
  rw [hrelays.sent] at hforwarded
  obtain ⟨more', net₂, hmore', run₂, ⟨hw₂, hshows⟩, hread₂⟩ :=
    reads_on run₁ hw₁ hto₁ ((hrelays.isOpen fd').trans hopen) fd
  obtain ⟨seen, hshown, hrouted⟩ := (run_linked run₂ hw₂).all_shown (hshows.server ▸ hto₁)
    ((hshows.isOpen fd').trans ((hrelays.isOpen fd').trans hopen)) hread₂
  obtain ⟨new, hnew, hcome⟩ := hrelays.routed
  rw [List.append_assoc] at run₂ hshown hrouted hshows
  refine ⟨more ++ more', net₂, List.forall_mem_append.mpr ⟨hmore, hmore'⟩, run₂, ?_, seen, hshown, ?_⟩
  · have h := congrArg Ledger.forwarded (hshows.ledger fd)
    exact h.trans hforwarded
  · have h := congrArg Ledger.routed (hshows.ledger fd')
    have hpending : new = ((ledger fd (happenings log)).sent.drop
        (ledger fd (happenings log)).forwarded.length).map fun m => (m.toUser, m.frame user) := by
      have hdrop := congrArg (List.drop (ledger fd (happenings log)).forwarded.length) (hnew.symm.trans hforwarded)
      rwa [List.drop_left, ← List.map_drop] at hdrop
    rw [← hrouted, h.trans (hcome fd' user' hto), hpending, List.filter_map]
    rfl

theorem conversed_delivery_can_be_completed :
    ∃ more net', (∀ p ∈ more, p.1.ReadsOne 5 6) ∧
      Run Network.step (fun net e => net.permitted e) Network.start (conversed.1 ++ more) net' ∧
      (ledger 5 (happenings (conversed.1 ++ more))).forwarded =
        (ledger 5 (happenings conversed.1)).sent.map (fun m => (m.toUser, m.frame user1Attempt.user)) ∧
      ∃ seen : List Letter, (ledger 6 (happenings (conversed.1 ++ more))).shown = seen.map Letter.message ∧
        seen.map (fun x => (user2Attempt.user, x.frame)) = (ledger 6 (happenings conversed.1)).routed ++
          (((ledger 5 (happenings conversed.1)).sent.drop
            (ledger 5 (happenings conversed.1)).forwarded.length).filter
              (fun m => m.toUser = user2Attempt.user)).map fun m => (m.toUser, m.frame user1Attempt.user) :=
  delivery_can_be_completed conversed_run conversed_writes (by decide +kernel) (by decide +kernel)
    (by decide +kernel)

end Protocol
end TeamsInC
