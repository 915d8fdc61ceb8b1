import TeamsInC.Client.Receive
import TeamsInC.Server.Cuttings

/-!
# A client logs in

Client and server are in step after every exchange of a login packet and its reply: both in
MESSAGE_STATE, or both back in INITIAL_STATE with nothing left over.
-/

set_option autoImplicit false

namespace TeamsInC
namespace Protocol
open Client Server

def sentTo (fd : Int) (effs : List Effect) : List UInt8 :=
  effs.flatMap fun
    | .reply fd' _ accepted => if fd' = fd then accepted else []
    | .forward _ _ dest _ accepted => if dest = fd then accepted else []
    | _ => []

structure Parties where
  client : State
  server : ServerState

structure Attempt where
  user : CString
  password : CString
  fits : 16 + user.strlen + password.strlen ≤ 65535

namespace Attempt

def packet (a : Attempt) : Packet :=
  ⟨MSG_TYPE_AUTH, a.user.bytes, a.password.bytes, Nat.lt_succ_of_le a.fits⟩

end Attempt

/-- One completed exchange: the client sends its packet, the reads `rs` bring it to the server,
the reads `cs` bring the client what the server has sent it, and the client decides. -/
inductive Exchange (fd : Int) : Parties → Attempt → Parties → Prop
  | mk {srv srv' : ServerState} {a : Attempt} {state : State} {memory : List UInt8}
      {write : WriteOracle} {fuel : Nat} {rs : List (Chunk × Env)} {effs : List Effect}
      {cs : List Chunk} {beyond : Nat → UInt8} {rest : List Read}
      (hwrite : ∀ call n, 0 < n → write call n ≠ none)
      (hsent : sendLogin write (loginBuffer memory a.user a.password) fuel 0 0 =
        some (rs.flatMap bytesOf))
      (hrs : Writable rs) (hserver : steps srv (reads fd rs) = ⟨effs, .ok srv'⟩)
      (hreply : cs.flatMap Chunk.bytes = sentTo fd effs)
      (hclient : authState beyond (chunks cs) = .ok (state, rest)) :
      Exchange fd ⟨.initialState, srv⟩ a ⟨state, srv'⟩

inductive Exchanges (fd : Int) (start : Parties) : List Attempt → Parties → Prop
  | nil : Exchanges fd start [] start
  | snoc {as : List Attempt} {p q : Parties} {a : Attempt} (run : Exchanges fd start as p)
      (h : Exchange fd p a q) : Exchanges fd start (as ++ [a]) q

structure Agreement (fd : Int) (a : Attempt) (p q : Parties) (c : ClientConnData) : Prop where
  conn : q.server.conns fd = some c
  states : q.client = .messageState ↔ c.clientState = .messageState
  accepted : c.clientState = .messageState ↔ authVerify a.user a.password = 0
  refused : c.clientState ≠ .messageState → q.client = .initialState ∧
    c.clientState = .initialState ∧ c.buff = .null ∧ c.bufferUsed = 0 ∧ c.offset = 0
  gained : c.clientState = .messageState →
    q.server.tree.pairs.Perm ((a.user, fd) :: p.server.tree.pairs)
  unchanged : c.clientState ≠ .messageState → q.server.tree = p.server.tree

/-- Before an attempt, and after it: a record at rest in the client's state. -/
structure InStep (fd : Int) (p : Parties) (c : ClientConnData) : Prop where
  conn : p.server.conns fd = some c
  fd_eq : c.fd = fd
  rests : Rests c
  state : p.client = c.clientState
  wf : p.server.tree.WellFormed

/-- The reads of a login packet: it is refused or accepted, or the insertion at the last of them
follows NULL. -/
theorem InStep.serves {fd : Int} {p : Parties} {c : ClientConnData} (H : InStep fd p c) (hfd : 0 ≤ fd)
    (hp : p.client = .initialState) (a : Attempt) {g : List (Chunk × Env)} {last : Chunk × Env}
    (hrs : Writable (g ++ [last])) (hbytes : (g ++ [last]).flatMap bytesOf = a.packet.wire) :
    (authVerify a.user a.password ≠ 0 ∧ seen (steps p.server (reads fd (g ++ [last]))) =
        ⟨[refusal fd], .ok ⟨Function.update p.server.conns fd (some (rejectedRecord c)), p.server.tree⟩⟩) ∨
      (authVerify a.user a.password = 0 ∧ ∃ tree', tree'.WellFormed ∧
        tree'.pairs.Perm ((a.user, fd) :: p.server.tree.pairs) ∧
        seen (steps p.server (reads fd (g ++ [last]))) = ⟨[.insert a.user fd, welcome fd],
          .ok ⟨Function.update p.server.conns fd
            (some { cleared c with clientState := .messageState, user := .live a.user }), tree'⟩⟩) ∨
      (authVerify a.user a.password = 0 ∧
        p.server.tree.hbTreeInsert a.user fd last.2.bal = .error .nullDeref ∧
        seen (steps p.server (reads fd (g ++ [last]))) = ⟨[], .error .nullDeref⟩) := by
  obtain ⟨chunk, env⟩ := last
  have hfeed := feed_ends p.server.tree H.rests (H.fd_eq ▸ hfd) hbytes hrs []
  rw [List.append_nil] at hfeed
  have hs : c.clientState = .initialState := H.state ▸ hp
  have hv : authVerify (CString.ofBuffer a.packet.first) (CString.ofBuffer a.packet.second) =
      authVerify a.user a.password := by
    rw [show a.packet.first = a.user.bytes from rfl, show a.packet.second = a.password.bytes from rfl,
      CString.ofBuffer_bytes, CString.ofBuffer_bytes]
  have huser : CString.ofBuffer a.packet.first = a.user := CString.ofBuffer_bytes a.user
  rcases authVerify_cases a.user a.password with hok | hbad
  · rcases H.wf.insert fd env.bal (accounts_fit _ (authVerify_mem hok).1) with hn |
      ⟨tree', l, hi, hl, hwf, hpairs⟩
    · have hserve := serve_insertFault env.bal a.packet.header hs (hv.trans hok)
        (by rw [huser, H.fd_eq]; exact hn)
      rw [servePacket, hserve, Traced.bind_error] at hfeed
      refine .inr (.inr ⟨hok, hn, ?_⟩)
      rw [seen_steps_reads _ H.conn, hfeed]
      rfl
    · obtain ⟨node, rfl⟩ := Option.ne_none_iff_exists'.mp hl
      have hserve := serve_accepted env.bal a.packet.header hs (hv.trans hok)
        (by rw [huser, H.fd_eq]; exact hi)
      rw [servePacket, hserve, Traced.bind_ok, huser, H.fd_eq] at hfeed
      refine .inr (.inl ⟨hok, tree', hwf, hpairs, ?_⟩)
      rw [seen_steps_reads _ H.conn, hfeed]
      rfl
  · have hserve := serve_rejected env.bal a.packet.header a.packet.second p.server.tree hs
      (by rw [hv, hbad]; decide)
    rw [servePacket, hserve, Traced.bind_ok, H.fd_eq] at hfeed
    refine .inl ⟨by rw [hbad]; decide, ?_⟩
    rw [seen_steps_reads _ H.conn, hfeed]
    rfl

theorem sentTo_actions (fd : Int) (effs : List Effect) :
    sentTo fd (actions effs) = sentTo fd effs := by
  induction effs with
  | nil => rfl
  | cons x effs ih =>
    simp only [sentTo, actions_cons, List.flatMap_cons] at ih ⊢
    cases x <;> simp [isAction, ih]

theorem refused_sent (fd : Int) : sentTo fd [refusal fd] = serverBytes (ascii ['4', '0', '1']) := by
  simp [sentTo, refusal, replyFrame_text (by decide : 0 ∉ ascii ['4', '0', '1'])]

theorem accepted_sent (fd : Int) (user : CString) :
    sentTo fd [.insert user fd, welcome fd] = serverBytes (ascii ['2', '0', '0']) := by
  simp [sentTo, welcome, replyFrame_text (by decide : 0 ∉ ascii ['2', '0', '0'])]

theorem of_seen {m : Act ServerState} {xs : List Effect} {r : Except Fault ServerState}
    (h : seen m = ⟨xs, r⟩) : m.result = r ∧ actions m.effects = xs := by
  injection h with heffs hr
  exact ⟨hr, heffs⟩

theorem Attempt.sent_eq (a : Attempt) {write : WriteOracle} {memory : List UInt8} {fuel : Nat}
    {sent : List UInt8} (hwrite : ∀ call n, 0 < n → write call n ≠ none)
    (hsent : sendLogin write (loginBuffer memory a.user a.password) fuel 0 0 = some sent) :
    sent = a.packet.wire := by
  have hfits := a.packet.fits
  have hlen := a.packet.wire_length
  have hbuffer : loginBuffer memory a.user a.password = a.packet.wire :=
    loginBuffer_eq (Nat.lt_succ_of_le a.fits) memory
  rw [hbuffer] at hsent
  exact sendLogin_sends hwrite (by omega) hsent

theorem InStep.exchange {fd : Int} {p q : Parties} {c : ClientConnData} {a : Attempt}
    (H : InStep fd p c) (hfd : 0 ≤ fd) (h : Exchange fd p a q) :
    ∃ c', InStep fd q c' ∧ Agreement fd a p q c' := by
  cases h with
  | @mk srv srv' _ state _ _ _ rs effs cs beyond rest hwrite hsent hrs hserver hreply hclient =>
    rw [← sentTo_actions] at hreply
    have hbytes := a.sent_eq hwrite hsent
    obtain ⟨g, last, rfl⟩ := reads_concat hbytes
    rcases H.serves hfd rfl a hrs hbytes with ⟨hv, hseen⟩ | ⟨hv, tree', hwf, hpairs, hseen⟩ |
      ⟨_, _, hseen⟩
    · obtain ⟨hsrv, heffs⟩ := of_seen hseen
      rw [hserver] at hsrv heffs
      cases hsrv
      rw [heffs, refused_sent] at hreply
      have hauth := authState_reply (by decide) hreply beyond []
      rw [List.append_nil, hclient, if_neg (by decide)] at hauth
      cases hauth
      have hnot : (rejectedRecord c).clientState ≠ .messageState := by simp [rejectedRecord]
      exact ⟨rejectedRecord c, ⟨by simp, H.fd_eq, ⟨rfl, rfl, rfl, .inl rfl⟩, rfl, H.wf⟩,
        ⟨by simp, by simp [rejectedRecord], by simp [rejectedRecord, hv],
          fun _ => ⟨rfl, rfl, rfl, rfl, rfl⟩, fun hc => absurd hc hnot, fun _ => rfl⟩⟩
    · obtain ⟨hsrv, heffs⟩ := of_seen hseen
      rw [hserver] at hsrv heffs
      cases hsrv
      rw [heffs, accepted_sent] at hreply
      have hauth := authState_reply (by decide) hreply beyond []
      rw [List.append_nil, hclient, if_pos rfl] at hauth
      cases hauth
      exact ⟨_, ⟨Function.update_self .., H.fd_eq, ⟨rfl, rfl, rfl, .inr rfl⟩, rfl, hwf⟩,
        ⟨Function.update_self .., Iff.rfl, by simp [hv], fun hc => absurd rfl hc, fun _ => hpairs,
          fun hc => absurd rfl hc⟩⟩
    · obtain ⟨hsrv, _⟩ := of_seen hseen
      rw [hserver] at hsrv
      cases hsrv

theorem Exchanges.inStep {fd : Int} (hfd : 0 ≤ fd) {start p : Parties} {as : List Attempt}
    (run : Exchanges fd start as p) {c : ClientConnData} (H : InStep fd start c) :
    ∃ c', InStep fd p c' := by
  induction run with
  | nil => exact ⟨c, H⟩
  | snoc _ h ih =>
    obtain ⟨c', H'⟩ := ih
    obtain ⟨c'', H'', _⟩ := H'.exchange hfd h
    exact ⟨c'', H''⟩

/-- The attempt comes to its end however packet and reply are cut; only the insertion of an accepted
one, at the last read of its packet, can stop it, where it follows a NULL link. -/
def Completes (fd : Int) (p : Parties) (a : Attempt) : Prop :=
  ∀ memory write, (∀ call n, 0 < n → write call n ≠ none) →
    ∃ fuel sent, sendLogin write (loginBuffer memory a.user a.password) fuel 0 0 = some sent ∧
      ∀ g last, Writable (g ++ [last]) → (g ++ [last]).flatMap bytesOf = sent →
        (authVerify a.user a.password = 0 →
          p.server.tree.hbTreeInsert a.user fd last.2.bal ≠ .error .nullDeref) →
        ∃ effs srv', steps p.server (reads fd (g ++ [last])) = ⟨effs, .ok srv'⟩ ∧
          ∀ cs, cs.flatMap Chunk.bytes = sentTo fd effs → ∀ beyond, ∃ state,
            authState beyond (chunks cs) = .ok (state, [])

theorem InStep.completes {fd : Int} {p : Parties} {c : ClientConnData} (H : InStep fd p c) (hfd : 0 ≤ fd)
    (hp : p.client = .initialState) (a : Attempt) : Completes fd p a := by
  intro memory write hwrite
  have hfits := a.packet.fits
  have hlen := a.packet.wire_length
  have hbuffer : loginBuffer memory a.user a.password = a.packet.wire :=
    loginBuffer_eq (Nat.lt_succ_of_le a.fits) memory
  obtain ⟨sent, hsent⟩ : ∃ sent, sendLogin write (loginBuffer memory a.user a.password)
      (a.packet.wire.length + 1) 0 0 = some sent := by
    rw [hbuffer]
    exact sendLogin_ends hwrite (by omega) (by simp)
  refine ⟨_, sent, hsent, ?_⟩
  intro g last hrs hbytes hinsert
  rcases H.serves hfd hp a hrs (hbytes.trans (a.sent_eq hwrite hsent)) with ⟨_, hseen⟩ |
    ⟨_, _, _, _, hseen⟩ | ⟨hv, hins, _⟩
  · obtain ⟨hm, heffs⟩ := of_seen hseen
    refine ⟨_, _, Traced.eq_mk hm, ?_⟩
    intro cs hcs beyond
    rw [← sentTo_actions, heffs, refused_sent] at hcs
    have hauth := authState_reply (by decide) hcs beyond []
    rw [List.append_nil] at hauth
    exact ⟨_, hauth⟩
  · obtain ⟨hm, heffs⟩ := of_seen hseen
    refine ⟨_, _, Traced.eq_mk hm, ?_⟩
    intro cs hcs beyond
    rw [← sentTo_actions, heffs, accepted_sent] at hcs
    have hauth := authState_reply (by decide) hcs beyond []
    rw [List.append_nil] at hauth
    exact ⟨_, hauth⟩
  · exact absurd hins (hinsert hv)

theorem InStep.exists_exchange {fd : Int} {p : Parties} {c : ClientConnData} (H : InStep fd p c)
    (hfd : 0 ≤ fd) (hp : p.client = .initialState) {a : Attempt}
    (hinsert : authVerify a.user a.password = 0 →
      p.server.tree.hbTreeInsert a.user fd 0 ≠ .error .nullDeref) : ∃ q, Exchange fd p a q := by
  obtain ⟨fuel, sent, hsent, hserve⟩ := H.completes hfd hp a [] writeAll writeAll_ne_none
  have hw : quiet.Writes := writeAll_ne_none
  have hwire := a.sent_eq writeAll_ne_none hsent
  obtain ⟨g, last, hreads⟩ := reads_concat ((singles_bytes quiet sent).trans hwire)
  have hlast : last.2.bal = 0 := (singles_fine hw sent last (by simp [hreads])).2
  have hall := hserve g last (hreads ▸ (singles_fine hw sent).writable)
    (by rw [← hreads, singles_bytes]) (by rwa [hlast])
  obtain ⟨effs, srv', hserver, hclient⟩ := hall
  have hcs : ((singles quiet (sentTo fd effs)).map Prod.fst).flatMap Chunk.bytes = sentTo fd effs := by
    rw [List.flatMap_map]
    exact singles_bytes quiet (sentTo fd effs)
  obtain ⟨state, hauth⟩ := hclient _ hcs fun _ => 0
  obtain ⟨client, srv⟩ := p
  cases hp
  rw [← hreads] at hserver
  rw [← singles_bytes quiet sent] at hsent
  exact ⟨_, .mk writeAll_ne_none hsent (singles_fine hw sent).writable hserver hcs hauth⟩

/-- After any attempts on a connection whose record was NULL in `ptr` and `user`, the next exchange
leaves client and server in agreement, and it comes to its end. -/
theorem logins_agree {fd : Int} (hfd : 0 ≤ fd) {srv : ServerState}
    (hconn : srv.conns fd = some (createNewClient fd zeroed)) (hwf : srv.tree.WellFormed)
    {as : List Attempt} {p : Parties} (run : Exchanges fd ⟨.initialState, srv⟩ as p) :
    (∀ a q, Exchange fd p a q → ∃ c, Agreement fd a p q c) ∧
      ∀ a, p.client = .initialState → Completes fd p a := by
  obtain ⟨c, H⟩ := run.inStep hfd ⟨hconn, rfl, ⟨rfl, rfl, rfl, .inl rfl⟩, rfl, hwf⟩
  refine ⟨fun a q h => ?_, fun a hp => H.completes hfd hp a⟩
  obtain ⟨c', _, hagree⟩ := H.exchange hfd h
  exact ⟨c', hagree⟩

def wrongPassword : Attempt :=
  ⟨CString.ofBuffer (userName '3'), CString.ofBuffer (userName '2'), by decide⟩

def rightPassword : Attempt :=
  ⟨CString.ofBuffer (userName '3'), CString.ofBuffer (userName '3'), by decide⟩

theorem secondAttempt_logins_agree :
    ∃ p q, Exchanges 5 ⟨.initialState, oneConn⟩ [wrongPassword] p ∧ Exchange 5 p rightPassword q ∧
      (∃ c, Agreement 5 rightPassword p q c ∧ c.clientState = .messageState) ∧
      (∀ a q, Exchange 5 p a q → ∃ c, Agreement 5 a p q c) ∧
        ∀ a, p.client = .initialState → Completes 5 p a := by
  have H : InStep 5 ⟨.initialState, oneConn⟩ (createNewClient 5 zeroed) :=
    ⟨rfl, rfl, ⟨rfl, rfl, rfl, .inl rfl⟩, rfl, HbTree.wellFormed_new⟩
  have hrefused : authVerify wrongPassword.user wrongPassword.password ≠ 0 := by decide
  obtain ⟨p, h⟩ := H.exists_exchange (by decide) rfl fun hv => absurd hv hrefused
  obtain ⟨c, H', hagree⟩ := H.exchange (by decide) h
  have hnot : c.clientState ≠ .messageState := fun hs => hrefused (hagree.accepted.mp hs)
  have htree : p.server.tree = HbTree.hbTreeNew := hagree.unchanged hnot
  have hinsert : faultOf (HbTree.hbTreeNew.hbTreeInsert rightPassword.user 5 0) = none := by decide +kernel
  obtain ⟨q, h'⟩ := H'.exists_exchange (by decide) (hagree.refused hnot).1 (a := rightPassword) fun _ herr => by
    rw [htree] at herr
    rw [herr] at hinsert
    cases hinsert
  have run : Exchanges 5 ⟨.initialState, oneConn⟩ [wrongPassword] p := .snoc .nil h
  have hall := logins_agree (by decide) H.conn H.wf run
  obtain ⟨c', hagree'⟩ := hall.1 rightPassword q h'
  exact ⟨p, q, run, h', ⟨c', hagree', hagree'.accepted.mpr (by decide)⟩, hall⟩

end Protocol
end TeamsInC
