import TeamsInC.Protocol.Authorship

/-!
# The messenger

What the server, its clients and the channels are for together: seats, which are empty or taken by a
guest, who may be waiting for the answer to a login, or by a session, with the messages that its
user has written and those that have come for it, each in their order. Every run of the network is
a run of the messenger.
-/

set_option autoImplicit false

namespace TeamsInC
namespace Protocol
open Client Server

inductive Seat where
  | empty
  | guest (asked : Option Attempt)
  | session (user : CString) (outbox : List Chat) (inbox : List Letter)

namespace Seat

def write (m : Chat) : Seat → Seat
  | .session user outbox inbox => .session user (outbox ++ [m]) inbox
  | seat => seat

def forward : Seat → Seat
  | .session user outbox inbox => .session user outbox.tail inbox
  | seat => seat

def receive (x : Letter) : Seat → Seat
  | .session user outbox inbox => .session user outbox (inbox ++ [x])
  | seat => seat

def read : Seat → Seat
  | .session user outbox inbox => .session user outbox inbox.tail
  | seat => seat

end Seat

abbrev Messenger := Int → Seat

namespace Messenger

/-- What happens to the messenger; a message goes to the session of its name, if there is one. -/
inductive Request where
  | connect (fd : Int)
  | ask (fd : Int) (a : Attempt)
  | refuse (fd : Int) (a : Attempt)
  | grant (fd : Int) (a : Attempt)
  | write (fd : Int) (m : Chat)
  | forward (fd : Int) (x : Letter) (dest : Option Int)
  | read (fd : Int) (x : Letter)
  | close (fd : Int)

def nobody : Messenger := fun _ => .empty

def change (t : Messenger) (fd : Int) (f : Seat → Seat) : Messenger := Function.update t fd (f (t fd))

def step (t : Messenger) : Request → Traced Empty Happening Messenger
  | .connect fd =>
    ⟨[.server (.accept fd), .connected fd], .ok (Function.update t fd (.guest none))⟩
  | .ask fd a => ⟨[.asked fd a], .ok (Function.update t fd (.guest (some a)))⟩
  | .refuse fd _ => ⟨[.server (refusal fd)], .ok (Function.update t fd (.guest none))⟩
  | .grant fd a =>
    ⟨[.server (.insert a.user fd), .server (welcome fd)],
      .ok (Function.update t fd (.session a.user [] []))⟩
  | .write fd m => ⟨[.typed fd m], .ok (t.change fd (.write m))⟩
  | .forward fd x none =>
    ⟨[.server (.forward fd x.chat.toUser (-1) x.frame [])], .ok (t.change fd .forward)⟩
  | .forward fd x (some dest) =>
    ⟨[.server (.forward fd x.chat.toUser dest x.frame x.frame)],
      .ok ((t.change fd .forward).change dest (.receive x))⟩
  | .read fd x => ⟨[.shown fd x.message], .ok (t.change fd .read)⟩
  | .close fd =>
    match t fd with
    | .session user _ _ =>
      ⟨[.server (.remove user true), .server (.close fd)], .ok (Function.update t fd .empty)⟩
    | _ => ⟨[.server (.close fd)], .ok (Function.update t fd .empty)⟩

def Has (t : Messenger) (fd : Int) (user : CString) : Prop := ∃ outbox inbox, t fd = .session user outbox inbox

def Permitted (t : Messenger) : Request → Prop
  | .connect fd => 0 ≤ fd ∧ t fd = .empty
  | .ask fd _ => t fd = .guest none
  | .refuse fd a => t fd = .guest (some a) ∧ authVerify a.user a.password < 0
  | .grant fd a =>
    t fd = .guest (some a) ∧ authVerify a.user a.password = 0 ∧ ∀ fd', ¬ t.Has fd' a.user
  | .write fd _ => ∃ user, t.Has fd user
  | .forward fd x dest =>
    (∃ later inbox, t fd = .session x.sender (x.chat :: later) inbox) ∧
      ∀ fd', dest = some fd' ↔ t.Has fd' x.chat.toUser
  | .read fd x => ∃ user outbox later, t fd = .session user outbox (x :: later)
  | .close fd => t fd ≠ .empty

end Messenger

/-- Seen from outside: not the loads of a decoder, nor what is done with memory. -/
def Happening.isSeen : Happening → Bool
  | .server x => Server.isSeen x
  | _ => true

theorem filter_server (effs : List Effect) :
    (effs.map Happening.server).filter Happening.isSeen = (effs.filter Server.isSeen).map .server := by
  rw [List.filter_map]
  rfl

/-- The bytes of this client that the server has not taken up. -/
def pending (net : Network) (fd : Int) : List UInt8 :=
  Network.buffered net.server fd ++ ((net.links fd).map Link.toServer).getD []

/-- What is on the descriptor, as the network and the ledger have it. -/
inductive Sits (net : Network) (g : Ledger) (fd : Int) : Seat → Prop
  | empty (hconn : net.server.conns fd = none) : Sits net g fd .empty
  | guest (hguest : standingOf (net.server.conns fd) = .guest) (hnil : pending net fd = []) :
      Sits net g fd (.guest none)
  | asking {a : Attempt} (hguest : standingOf (net.server.conns fd) = .guest) (hne : pending net fd ≠ [])
      (asked : g.asked = some a) : Sits net g fd (.guest (some a))
  | session {user : CString} {outbox : List Chat} {inbox : List Letter}
      (hmember : standingOf (net.server.conns fd) = .member user)
      (hout : g.sent.drop g.forwarded.length = outbox)
      (hin : g.routed.drop g.shown.length = inbox.map fun x => (user, x.frame)) :
      Sits net g fd (.session user outbox inbox)

namespace Sits
variable {net net' : Network} {g : Ledger} {fd : Int} {seat : Seat}

theorem congr (h : Sits net g fd seat) (hconn : net'.server.conns fd = net.server.conns fd)
    (hto : (net'.links fd).map Link.toServer = (net.links fd).map Link.toServer) : Sits net' g fd seat := by
  have hpending : pending net' fd = pending net fd := by
    simp only [pending, Network.buffered, hconn, hto]
  cases h with
  | empty hnone => exact .empty (hconn.trans hnone)
  | guest hguest hnil => exact .guest (hconn ▸ hguest) (hpending ▸ hnil)
  | asking hguest hne asked => exact .asking (hconn ▸ hguest) (hpending ▸ hne) asked
  | session hmember hout hin => exact .session (hconn ▸ hmember) hout hin

theorem standing (h : Sits net g fd seat) {user : CString}
    (hmember : standingOf (net.server.conns fd) = .member user)
    (hmember' : standingOf (net'.server.conns fd) = .member user) : Sits net' g fd seat := by
  cases h with
  | empty hnone =>
    rw [hnone] at hmember
    cases hmember
  | guest hguest =>
    rw [hguest] at hmember
    cases hmember
  | asking hguest =>
    rw [hguest] at hmember
    cases hmember
  | session hsession hout hin => exact .session (hmember'.trans (hmember.symm.trans hsession)) hout hin

theorem nobody (h : Sits net g fd seat) (hconn : net.server.conns fd = none) : seat = .empty := by
  cases h with
  | empty => rfl
  | guest hguest => simp [hconn, standingOf] at hguest
  | asking hguest => simp [hconn, standingOf] at hguest
  | session hmember => simp [hconn, standingOf] at hmember

theorem forward {user : CString} {m : Chat} {outbox : List Chat} {inbox : List Letter}
    (h : Sits net g fd (.session user (m :: outbox) inbox)) (p : CString × List UInt8) :
    Sits net { g with forwarded := g.forwarded ++ [p] } fd (.session user outbox inbox) := by
  cases h with
  | session hmember hout hin =>
    refine .session hmember ?_ hin
    simp only [List.length_append, List.length_singleton]
    rw [← List.drop_drop, hout]
    rfl

theorem receive {user : CString} {outbox : List Chat} {inbox : List Letter}
    (h : Sits net g fd (.session user outbox inbox)) (hle : g.shown.length ≤ g.routed.length) (x : Letter) :
    Sits net { g with routed := g.routed ++ [(user, x.frame)] } fd (.session user outbox (inbox ++ [x])) := by
  cases h with
  | session hmember hout hin =>
    refine .session hmember hout ?_
    simp only [List.drop_append_of_le_length hle, hin, List.map_append, List.map_cons, List.map_nil]

end Sits

/-- The messenger `t` as the network and the ledgers have it. -/
def Depicts (net : Network) (xs : List Happening) (t : Messenger) : Prop :=
  ∀ fd, Sits net (ledger fd xs) fd (t fd)

namespace Linked
variable {xs : List Happening} {net : Network} {fd : Int} {c : ClientConnData} {b : List UInt8}
  {l : Link} {seat : Seat}

theorem guest_of_holding (H : Linked xs net) (hconn : net.server.conns fd = some (holding c b))
    (hs : c.clientState = .initialState) : standingOf (net.server.conns fd) = .guest := by
  have hsound := H.sound.sound fd _ hconn
  have hstate := holding_initial hs b
  have htold := H.inOrder.told fd
  simp only [serviceOf, hconn] at htold ⊢
  cases hu : (holding c b).user with
  | null => simp [standingOf, hu]
  | freed => exact absurd hu hsound.user
  | live u =>
    have hentered := htold u
    simp [standingOf, hu, hstate] at hentered

theorem pending_eq (hconn : net.server.conns fd = some (holding c b)) (hc : Rests c)
    (hl : net.links fd = some l) : pending net fd = b ++ l.toServer := by
  simp [pending, Network.buffered, hconn, hl, holding_bytes hc]

theorem seat_idle (h : Sits net (ledger fd xs) fd seat) (hguest : standingOf (net.server.conns fd) = .guest)
    (hnil : pending net fd = []) : seat = .guest none := by
  cases h with
  | empty hnone =>
    rw [hnone] at hguest
    cases hguest
  | guest => rfl
  | asking _ hne => exact absurd hnil hne
  | session hmember =>
    rw [hguest] at hmember
    cases hmember

theorem seat_asking (h : Sits net (ledger fd xs) fd seat) (hguest : standingOf (net.server.conns fd) = .guest)
    (hne : pending net fd ≠ []) {a : Attempt} (asked : (ledger fd xs).asked = some a) :
    seat = .guest (some a) := by
  cases h with
  | empty hnone =>
    rw [hnone] at hguest
    cases hguest
  | guest _ hnil => exact absurd hnil hne
  | asking _ _ asked' =>
    rw [asked] at asked'
    cases asked'
    rfl
  | session hmember =>
    rw [hguest] at hmember
    cases hmember

theorem seat_session (h : Sits net (ledger fd xs) fd seat) {user : CString}
    (hmember : standingOf (net.server.conns fd) = .member user) :
    ∃ inbox, seat = .session user ((ledger fd xs).sent.drop (ledger fd xs).forwarded.length) inbox ∧
      (ledger fd xs).routed.drop (ledger fd xs).shown.length = inbox.map fun x => (user, x.frame) := by
  cases h with
  | empty hnone =>
    rw [hnone] at hmember
    cases hmember
  | guest hguest =>
    rw [hguest] at hmember
    cases hmember
  | asking hguest =>
    rw [hguest] at hmember
    cases hmember
  | @session user' outbox inbox hmember' hout hin =>
    have hboth := hmember'.symm.trans hmember
    cases hboth
    exact ⟨inbox, by rw [hout], hin⟩

theorem has_iff {t : Messenger} (h : Depicts net xs t) (user : CString) :
    t.Has fd user ↔ standingOf (net.server.conns fd) = .member user := by
  constructor
  · rintro ⟨outbox, inbox, hseat⟩
    have hsits := h fd
    rw [hseat] at hsits
    cases hsits with
    | session hmember => exact hmember
  · intro hmember
    obtain ⟨inbox, hseat, _⟩ := seat_session (h fd) hmember
    exact ⟨_, inbox, hseat⟩

end Linked

theorem Depicts.forwarded {xs : List Happening} {net : Network} {t : Messenger} {fd : Int} (h : Depicts net xs t)
    {user : CString} {m : Chat} {later : List Chat} {inbox : List Letter}
    (hseat : t fd = .session user (m :: later) inbox) (p : CString × List UInt8) (fd' : Int) :
    Sits net { ledger fd' xs with
      forwarded := if fd = fd' then (ledger fd' xs).forwarded ++ [p] else (ledger fd' xs).forwarded } fd'
      (t.change fd .forward fd') := by
  by_cases hfd : fd = fd'
  · subst hfd
    rw [Messenger.change, Function.update_self, hseat]
    have hsits := h fd
    rw [hseat] at hsits
    simp only [if_true]
    exact hsits.forward p
  · rw [Messenger.change, Function.update_of_ne (Ne.symm hfd)]
    simpa [hfd] using h fd'

theorem Sits.routed {net : Network} {gs : Int → Ledger} {t : Messenger} (h : ∀ fd', Sits net (gs fd') fd' (t fd'))
    {dest : Int} {user : CString} (hmember : standingOf (net.server.conns dest) = .member user)
    (hle : (gs dest).shown.length ≤ (gs dest).routed.length) (x : Letter) (fd' : Int) :
    Sits net { gs fd' with
      routed := if dest = fd' then (gs fd').routed ++ [(user, x.frame)] else (gs fd').routed } fd'
      (t.change dest (.receive x) fd') := by
  by_cases hdest : dest = fd'
  · subst hdest
    rw [Messenger.change, Function.update_self]
    have hsits := h dest
    generalize t dest = seat at hsits
    cases hsits with
    | empty hnone => simp [hnone, standingOf] at hmember
    | guest hguest => simp [hguest] at hmember
    | asking hguest => simp [hguest] at hmember
    | session hsession hout hin =>
      obtain rfl := Standing.member.inj (hsession.symm.trans hmember)
      simp only [if_true]
      exact (Sits.session hsession hout hin).receive hle x
  · rw [Messenger.change, Function.update_of_ne (Ne.symm hdest)]
    simpa [hdest] using h fd'

theorem Link.receive_toServer {l l' : Link} {fd : Int} {chunk : Chunk} {beyond : Nat → UInt8}
    (h : (l.receive fd chunk beyond).result = .ok l') : l'.toServer = l.toServer := by
  simp only [Link.receive] at h
  split at h
  · split at h <;> cases h <;> rfl
  · split at h <;> cases h <;> rfl
  · cases h
    rfl

/-- What a move of the network, which has made `ys` happen, is for the messenger. -/
def Tracked (t : Messenger) (net' : Network) (xs ys : List Happening) : Prop :=
  (Depicts net' (xs ++ ys) t ∧ ys.filter Happening.isSeen = []) ∨
    ∃ r t', t.Permitted r ∧ t.step r = ⟨ys.filter Happening.isSeen, .ok t'⟩ ∧ Depicts net' (xs ++ ys) t'

section
variable {xs : List Happening} {net net' : Network} {t : Messenger} {fd : Int}

theorem Depicts.client (h : Depicts net xs t) {l' : Link} {ys : List Happening} {seat : Seat}
    (hother : ∀ fd' g, fd ≠ fd' → ys.foldl (Ledger.record fd') g = g)
    (hown : Sits (net.setLink fd (some l')) (ys.foldl (Ledger.record fd) (ledger fd xs)) fd seat) :
    Depicts (net.setLink fd (some l')) (xs ++ ys) (Function.update t fd seat) := by
  intro fd'
  rw [ledger_append]
  by_cases hfd : fd = fd'
  · subst hfd
    rwa [Function.update_self]
  · rw [hother fd' _ hfd, Function.update_of_ne (Ne.symm hfd)]
    exact (h fd').congr rfl (by simp [Network.setLink, Function.update_of_ne (Ne.symm hfd)])

/-- What the server does on one connection: the others see the actions that are for them. -/
theorem depicts_served {t' : Messenger} {l' : Link} {s' : ServerState} {c' : Option ClientConnData}
    {effs acts : List Effect} (hacts : actions effs = acts)
    (hconns : s'.conns = Function.update net.server.conns fd c')
    (hown : Sits ⟨s', Network.transmit effs (Function.update net.links fd (some l'))⟩
      (noted fd acts (ledger fd xs)) fd (t' fd))
    (hother : ∀ fd', fd ≠ fd' → Sits net (noted fd' acts (ledger fd' xs)) fd' (t' fd')) :
    Depicts ⟨s', Network.transmit effs (Function.update net.links fd (some l'))⟩
      (xs ++ effs.map .server) t' := by
  intro fd'
  have hledger : ledger fd' (xs ++ effs.map .server) = noted fd' acts (ledger fd' xs) := by
    rw [ledger_append, record_actions, hacts]
    rfl
  rw [hledger]
  by_cases hfd : fd = fd'
  · subst hfd
    exact hown
  · refine (hother fd' hfd).congr ?_ ?_
    · rw [hconns, Function.update_of_ne (Ne.symm hfd)]
    · simp [Network.transmit, Function.update_of_ne (Ne.symm hfd), Function.comp_def]

theorem Depicts.connect (h : Depicts net xs t) {junk : Junk} (hp : net.permitted (.connect fd junk))
    (hok : (net.step (.connect fd junk)).result = .ok net') :
    Tracked t net' xs (net.step (.connect fd junk)).effects := by
  simp only [Network.permitted, decide_eq_true_eq] at hp
  obtain ⟨⟨hpos, hfree⟩, hnameless⟩ := hp
  have hempty : t fd = .empty := (h fd).nobody (by simpa using hfree)
  obtain ⟨rfl, heffects⟩ := Network.step_connect hok
  rw [heffects]
  refine .inr ⟨.connect fd, _, ⟨hpos, hempty⟩, rfl, ?_⟩
  intro fd'
  by_cases hfd : fd = fd'
  · subst hfd
    have huser : junk.user = .null := by simpa [startsNameless] using hnameless
    rw [Function.update_self]
    refine .guest ?_ ?_
    · simp [standingOf, createNewClient, huser]
    · simp [pending, Network.buffered, createNewClient, Ptr.bytes]
  · rw [Function.update_of_ne (Ne.symm hfd)]
    have hledger : ledger fd' (xs ++ [.server (.accept fd), .connected fd]) = ledger fd' xs := by
      simp [ledger_append, Ledger.record, hfd]
    rw [hledger]
    exact (h fd').congr (Function.update_of_ne (Ne.symm hfd) _ _)
      (by simp [Function.update_of_ne (Ne.symm hfd)])

theorem Depicts.login (h : Depicts net xs t) (H : Linked xs net) {a : Attempt} {memory : List UInt8}
    (hp : net.permitted (.login fd a memory)) (hok : (net.step (.login fd a memory)).result = .ok net') :
    Tracked t net' xs (net.step (.login fd a memory)).effects := by
  simp only [Network.permitted, Option.any_eq_true, decide_eq_true_eq] at hp
  obtain ⟨l, hl, hopen, hs, _⟩ := hp
  obtain ⟨c, hconn, hbetween⟩ := H.link hl
  simp only [Network.step, hl] at hok ⊢
  cases hok
  have hbuffer : loginBuffer memory a.user a.password = a.packet.wire :=
    loginBuffer_eq (Nat.lt_succ_of_le a.fits) memory
  cases hbetween with
  | asking _ _ _ _ _ client =>
    have hauth := (client hopen).1
    simp [hs] at hauth
  | session _ _ _ _ _ _ inc =>
    rcases inc.client hopen with ⟨hmessage, _⟩ | ⟨hauth, _⟩
    · simp [hs] at hmessage
    · simp [hs] at hauth
  | idle hc hs' server silent client =>
    rw [← holding_nil c] at hconn
    have hguest := H.guest_of_holding hconn hs'
    have hseat : t fd = .guest none := by
      refine Linked.seat_idle (h fd) hguest ?_
      rw [Linked.pending_eq hconn hc hl, server]
      rfl
    refine .inr ⟨.ask fd a, _, hseat, rfl, ?_⟩
    refine h.client ?_ ?_
    · intro fd' g hne
      simp [Traced.emit, Ledger.record, hne]
    · refine .asking hguest ?_ (by simp [Traced.emit, Ledger.record])
      rw [@Linked.pending_eq (net.setLink fd _) _ _ _ _ hconn hc (Function.update_self ..)]
      simp only [server, hbuffer, List.nil_append]
      exact framed_ne_nil a.packet.framed

theorem Depicts.write (h : Depicts net xs t) (H : Linked xs net) {m : Chat} {memory : List UInt8}
    (hp : net.permitted (.write fd m memory)) (hok : (net.step (.write fd m memory)).result = .ok net') :
    Tracked t net' xs (net.step (.write fd m memory)).effects := by
  simp only [Network.permitted, Option.any_eq_true, decide_eq_true_eq] at hp
  obtain ⟨l, hl, hopen, hs, _⟩ := hp
  obtain ⟨c, hconn, hbetween⟩ := H.link hl
  simp only [Network.step, hl] at hok ⊢
  cases hok
  cases hbetween with
  | idle _ _ _ _ client =>
    rcases client hopen with ⟨hinitial, _⟩ | ⟨hauth, _⟩
    · simp [hs] at hinitial
    · simp [hs] at hauth
  | asking _ _ _ _ _ client =>
    have hauth := (client hopen).1
    simp [hs] at hauth
  | @session c _ b a waiting coming hc hs' hu granted asked out inc =>
    have hmember := Linked.member_of_holding hconn hs' hu
    obtain ⟨inbox, hseat, hin⟩ := Linked.seat_session (h fd) hmember
    obtain ⟨done, hsent, hforwarded⟩ := out.sent
    refine .inr ⟨.write fd m, _, ⟨a.user, _, inbox, hseat⟩, rfl, ?_⟩
    refine h.client ?_ ?_
    · intro fd' g hne
      simp [Traced.emit, Ledger.record, hne]
    · rw [hseat]
      refine .session hmember ?_ ?_
      · simp [Traced.emit, Ledger.record, hsent, hforwarded]
      · simpa [Traced.emit, Ledger.record] using hin

theorem Depicts.read (h : Depicts net xs t) (H : Linked xs net) {chunk : Chunk} {beyond : Nat → UInt8}
    (hp : net.permitted (.receive fd chunk beyond))
    (hok : (net.step (.receive fd chunk beyond)).result = .ok net') :
    Tracked t net' xs (net.step (.receive fd chunk beyond)).effects := by
  simp only [Network.permitted, Option.any_eq_true, decide_eq_true_eq] at hp
  obtain ⟨l, hl, hopen, hs, hthere, hwithin⟩ := hp
  obtain ⟨c, hconn, hbetween⟩ := H.link hl
  obtain ⟨ys, l', hreceive, _, hys⟩ := @Between.receive _ c l fd hbetween hopen hs chunk hthere hwithin beyond
  simp only [Network.step, hl, hreceive, Traced.bind_ok, Traced.pure_eq, List.append_nil] at hok ⊢
  cases hok
  have hlink : l'.toServer = l.toServer := Link.receive_toServer (congrArg Traced.result hreceive)
  have hsame {g : Ledger} {seat : Seat} (hsits : Sits net g fd seat) : Sits (net.setLink fd (some l')) g fd seat :=
    hsits.congr rfl (by simp [Network.setLink, hl, hlink])
  rcases hys with rfl | ⟨user, seen, x, coming, rfl, hshown, hrouted⟩
  · refine .inl ⟨?_, rfl⟩
    have hseats := @Depicts.client _ _ _ _ h l' [] _ (fun _ _ _ => rfl) (hsame (h fd))
    rwa [Function.update_eq_self] at hseats
  · have hcoming : (ledger fd xs).routed.drop (ledger fd xs).shown.length =
        (x :: coming).map fun x => (user, x.frame) := by
      rw [hrouted, hshown, List.map_append, List.length_map, List.drop_left' (List.length_map _)]
    have hmember : ∃ user', standingOf (net.server.conns fd) = .member user' := by
      cases hbetween with
      | idle _ _ _ silent => simp [silent.routed] at hrouted
      | asking _ _ _ _ silent => simp [silent.routed] at hrouted
      | session hc hs' hu => exact ⟨_, Linked.member_of_holding hconn hs' hu⟩
    obtain ⟨user', hmember⟩ := hmember
    obtain ⟨inbox, hseat, hin⟩ := Linked.seat_session (h fd) hmember
    rw [hcoming] at hin
    obtain ⟨z, inbox, rfl, hz, hrest⟩ := List.map_eq_cons_iff.mp hin.symm
    have hmessage : x.message = z.message := Letter.message_congr (congrArg Prod.snd hz).symm
    refine .inr ⟨.read fd z, _, ⟨user', _, inbox, hseat⟩, by rw [hmessage]; rfl, ?_⟩
    refine h.client ?_ ?_
    · intro fd' g hne
      simp [Ledger.record, hne]
    · rw [hseat]
      refine hsame (.session hmember ?_ ?_)
      · simp [Ledger.record]
      · simp only [List.foldl_cons, List.foldl_nil, Ledger.record, if_true, List.length_append,
          List.length_singleton]
        rw [← List.drop_drop, hcoming]
        exact hrest.symm

theorem Depicts.leave (h : Depicts net xs t) (hok : (net.step (.leave fd)).result = .ok net') :
    Tracked t net' xs (net.step (.leave fd)).effects := by
  cases hl : net.links fd with
  | none =>
    simp only [Network.step, hl] at hok ⊢
    cases hok
    exact .inl ⟨by simpa using h, rfl⟩
  | some l =>
    simp only [Network.step, hl] at hok ⊢
    cases hok
    refine .inl ⟨?_, rfl⟩
    have hown : Sits (net.setLink fd (some { l with isOpen := false })) (ledger fd xs) fd (t fd) :=
      (h fd).congr rfl (by simp [Network.setLink, hl])
    have hseats := @Depicts.client _ _ _ _ h _ [] _ (fun _ _ _ => rfl) hown
    rwa [Function.update_eq_self] at hseats

theorem Depicts.close (h : Depicts net xs t) (H : Linked xs net) {e : Network.Move} {se : Event}
    (hse : se = .epollerr fd ∨ se = .eof fd) (hconn : (net.server.conns fd).isSome)
    (hstep : net.step e = do
      let net ← net.serverStep se
      return net.setLink fd none)
    (hok : (net.step e).result = .ok net') : Tracked t net' xs (net.step e).effects := by
  obtain ⟨s', hres, rfl, heffects⟩ := Network.step_close hstep hok
  obtain ⟨hconns, hacts, hshown⟩ := H.closes hse hconn hres
  have hledger (fd' : Int) :
      ledger fd' (xs ++ (Server.step net.server se).effects.map .server) = ledger fd' xs := by
    rw [ledger_append, record_actions, hacts]
    rfl
  have hlinks : Network.transmit (Server.step net.server se).effects net.links = net.links := by
    rw [transmit_actions, hacts, Network.transmit_nil]
  rw [heffects, hlinks]
  refine .inr ⟨.close fd, Function.update t fd .empty, ?_, ?_, ?_⟩
  · intro hempty
    have hsits := h fd
    rw [hempty] at hsits
    cases hsits with
    | empty hnone => simp [hnone] at hconn
  · rw [filter_server, hshown]
    have hsits := h fd
    simp only [Messenger.step]
    generalize t fd = seat at hsits
    cases hsits with
    | empty hnone => simp [hnone] at hconn
    | guest hguest => simp [hguest, goodbye]
    | asking hguest => simp [hguest, goodbye]
    | session hmember => simp [hmember, goodbye]
  · intro fd'
    rw [hledger]
    by_cases hfd : fd = fd'
    · subst hfd
      rw [Function.update_self]
      exact .empty (by rw [hconns, Function.update_self])
    · rw [Function.update_of_ne (Ne.symm hfd)]
      refine (h fd').congr ?_ ?_
      · rw [hconns, Function.update_of_ne (Ne.symm hfd)]
      · simp [Function.update_of_ne (Ne.symm hfd)]

theorem Depicts.served (h : Depicts net xs t) {l' : Link} {s' : ServerState} {c' : Option ClientConnData}
    {effs acts : List Effect} (hacts : actions effs = acts) (hnoted : ∀ fd' g, noted fd' acts g = g)
    (hconns : s'.conns = Function.update net.server.conns fd c') {seat : Seat}
    (hown : Sits ⟨s', Network.transmit effs (Function.update net.links fd (some l'))⟩ (ledger fd xs) fd seat) :
    Depicts ⟨s', Network.transmit effs (Function.update net.links fd (some l'))⟩ (xs ++ effs.map .server)
      (Function.update t fd seat) := by
  refine depicts_served hacts hconns ?_ ?_
  · rwa [hnoted, Function.update_self]
  · intro fd' hfd
    rw [hnoted, Function.update_of_ne (Ne.symm hfd)]
    exact h fd'

/-- The first message of a session goes to the session of its name, if there is one. -/
theorem Depicts.chat (h : Depicts net xs t) (H : Linked xs net) {x : Letter} {later : List Chat}
    {inbox : List Letter} {dest : Int} {accepted : List UInt8}
    (hseat : t fd = .session x.sender (x.chat :: later) inbox)
    (hsearch : net.server.tree.hbTreeSearch x.chat.toUser = .ok dest)
    (hdest : dest = -1 ∧ accepted = [] ∨
      0 ≤ dest ∧ standingOf (net.server.conns dest) = .member x.chat.toUser ∧ accepted = x.frame) :
    ∃ r t', t.Permitted r ∧
      t.step r = ⟨[.server (.forward fd x.chat.toUser dest x.frame accepted)], .ok t'⟩ ∧
      ∀ fd', Sits net (noted fd' [.forward fd x.chat.toUser dest x.frame accepted] (ledger fd' xs)) fd'
        (t' fd') := by
  have hforward := h.forwarded hseat (x.chat.toUser, x.frame)
  rcases hdest with ⟨rfl, rfl⟩ | ⟨hpos, hto, rfl⟩
  · refine ⟨.forward fd x none, _, ⟨⟨later, inbox, hseat⟩, fun fd' => ?_⟩, rfl, fun fd' => ?_⟩
    · refine iff_of_false (by simp) fun hhas => ?_
      have hother := (Linked.has_iff h _).mp hhas
      have hneg : (-1 : Int) = fd' := (H.dest_iff hsearch hother).mpr rfl
      have hpos := H.nonneg_member hother
      omega
    · by_cases hneg : (-1 : Int) = fd'
      · have hnone : net.server.conns fd' = none := by
          refine Option.eq_none_iff_forall_ne_some.mpr fun d hd => ?_
          have hpos := H.nonneg fd' d hd
          omega
        rw [(hforward fd').nobody hnone]
        exact .empty hnone
      · simpa [noted, Ledger.record, hneg] using hforward fd'
  · refine ⟨.forward fd x (some dest), _, ⟨⟨later, inbox, hseat⟩, fun fd' => ?_⟩, rfl, fun fd' => ?_⟩
    · rw [Linked.has_iff h]
      constructor
      · rintro ⟨⟩
        exact hto
      · intro hother
        exact congrArg some ((H.dest_iff hsearch hother).mpr rfl)
    · obtain ⟨_, _, _, seen, coming, _, _, hshown, hrouted, _⟩ := H.entries hto
      simpa [noted, Ledger.record] using Sits.routed hforward hto (by simp [hshown, hrouted]) x fd'

theorem Depicts.serve (h : Depicts net xs t) (H : Linked xs net) {chunk : Chunk} {env : Env}
    (hp : net.permitted (.serve fd chunk env)) (hw : env.Writes)
    (hok : (net.step (.serve fd chunk env)).result = .ok net') :
    Tracked t net' xs (net.step (.serve fd chunk env)).effects := by
  have H' := H.serve hp hw hok
  obtain ⟨l, hl, _⟩ := Option.any_eq_true _ _ |>.mp hp
  obtain ⟨s', hres, rfl, heffects⟩ := Network.step_serve hl hok
  obtain ⟨acts, hacts, hreading, _⟩ := H.reading hl hp hw hres
  rw [heffects] at H' ⊢
  have hlink : (Network.transmit (Server.step net.server (.data fd chunk env)).effects (Function.update net.links fd
      (some { l with toServer := l.toServer.drop chunk.bytes.length })) fd) = some { l with
        toServer := l.toServer.drop chunk.bytes.length
        toClient := l.toClient ++ sentTo fd (Server.step net.server (.data fd chunk env)).effects } := by
    simp [Network.transmit]
  have hshown (hconn : (net.server.conns fd).isSome) (hconn' : (s'.conns fd).isSome) :
      ((Server.step net.server (.data fd chunk env)).effects.map Happening.server).filter Happening.isSeen =
        acts.map .server := by
    have hevent : EventStep net.server (.data fd chunk env) (Server.step net.server (.data fd chunk env)).effects
        (.ok s') := hres ▸ step_event hconn
    rw [filter_server, hevent.seen_actions hconn', hacts]
  have hpending : pending net fd ≠ [] := by
    simp only [Network.permitted, Option.any_eq_true, decide_eq_true_eq] at hp
    obtain ⟨l', hl', _, hthere, _⟩ := hp
    cases hl.symm.trans hl'
    rw [pending, hl]
    have hne : l.toServer ≠ [] := List.ne_nil_of_length_pos (Nat.lt_of_lt_of_le chunk.pos hthere.length_le)
    simp [hne]
  cases hreading with
  | @asking c b a hconn hc hs asked silent client way =>
    have hseat := Linked.seat_asking (h fd) (H.guest_of_holding hconn hs) hpending asked
    refine .inl ⟨?_, hshown (by simp [hconn]) (by simp)⟩
    rw [← Function.update_eq_self fd t, hseat]
    refine h.served hacts (fun _ _ => rfl) rfl (.asking ?_ ?_ asked)
    · exact H'.guest_of_holding (Function.update_self ..) hs
    · rw [Linked.pending_eq (Function.update_self ..) hc hlink]
      simp [List.ne_nil_of_length_pos chunk.pos]
  | @refused c b a hconn hs asked silent client hv hnil =>
    have hseat := Linked.seat_asking (h fd) (H.guest_of_holding hconn hs) hpending asked
    refine .inr ⟨.refuse fd a, _, ⟨hseat, hv⟩, by rw [hshown (by simp [hconn]) (by simp)]; rfl, ?_⟩
    refine h.served hacts (fun _ _ => rfl) rfl (.guest ?_ ?_)
    · simp [standingOf, rejectedRecord]
    · rw [Linked.pending_eq (b := []) (by rw [holding_nil]; exact Function.update_self ..)
        ⟨rfl, rfl, rfl, .inl rfl⟩ hlink]
      exact hnil
  | @granted c b a tree' hconn hs asked silent client hv hnil =>
    have hguest := H.guest_of_holding hconn hs
    have hseat := Linked.seat_asking (h fd) hguest hpending asked
    have hmember : standingOf (Function.update net.server.conns fd (some (welcomed c a.user)) fd) =
        .member a.user := by
      rw [Function.update_self]
      exact standing_of_message rfl rfl
    refine .inr ⟨.grant fd a, _, ⟨hseat, hv, ?_⟩, by rw [hshown (by simp [hconn]) (by simp)]; rfl, ?_⟩
    · intro fd' hhas
      have hother := (Linked.has_iff h a.user).mp hhas
      by_cases hfd : fd' = fd
      · subst hfd
        rw [hguest] at hother
        cases hother
      · refine hfd (H'.inOrder.exact.alone a.user fd' fd ?_ hmember)
        simpa [serviceOf, Function.update_of_ne hfd] using hother
    · refine h.served hacts (fun _ _ => rfl) rfl (.session hmember ?_ ?_)
      · simp [silent.sent]
      · simp [silent.routed]
  | @inside c b a waiting coming hconn hc hs hu granted asked out inc way =>
    obtain ⟨inbox, hseat, hin⟩ := Linked.seat_session (h fd) (Linked.member_of_holding hconn hs hu)
    have hmember : standingOf (Function.update net.server.conns fd (some (holding c (b ++ chunk.bytes))) fd) =
        .member a.user := by
      rw [Function.update_self]
      exact standing_of_message ((holding_user c _).trans hu) (holding_session hs _)
    refine .inl ⟨?_, hshown (by simp [hconn]) (by simp)⟩
    rw [← Function.update_eq_self fd t, hseat]
    exact h.served hacts (fun _ _ => rfl) rfl (.session hmember rfl hin)
  | @chat c b a m waiting coming dest accepted hconn hs hu granted asked out inc way hsearch hdest =>
    let x : Letter := ⟨a.user, m, (authVerify_mem granted).1⟩
    obtain ⟨inbox, hseat, hin⟩ := Linked.seat_session (h fd) (Linked.member_of_holding hconn hs hu)
    obtain ⟨done, hsent, hforwarded⟩ := out.sent
    have hout : (ledger fd xs).sent.drop (ledger fd xs).forwarded.length = m :: waiting := by
      rw [hsent, hforwarded, List.drop_left' (List.length_map _).symm]
    rw [hout] at hseat
    have hmember : standingOf (Function.update net.server.conns fd (some (cleared c)) fd) = .member a.user := by
      rw [Function.update_self]
      exact standing_of_message hu hs
    obtain ⟨r, t', hr, hstep, hseats⟩ := h.chat (x := x) H hseat hsearch hdest
    refine .inr ⟨r, t', hr, by rw [hshown (by simp [hconn]) (by simp)]; exact hstep, ?_⟩
    exact depicts_served hacts rfl ((hseats fd).standing (Linked.member_of_holding hconn hs hu) hmember)
      fun fd' _ => hseats fd'

theorem Depicts.step (h : Depicts net xs t) (H : Linked xs net) {e : Network.Move} (hp : net.permitted e)
    (hw : e.Writes) (hok : (net.step e).result = .ok net') : Tracked t net' xs (net.step e).effects := by
  cases e with
  | connect fd junk => exact h.connect hp hok
  | login fd a memory => exact h.login H hp hok
  | write fd m memory => exact h.write H hp hok
  | receive fd chunk beyond => exact h.read H hp hok
  | serve fd chunk env => exact h.serve H hp hw hok
  | leave fd => exact h.leave hok
  | finish fd =>
    simp only [Network.permitted, Option.any_eq_true, decide_eq_true_eq] at hp
    obtain ⟨_, _, hconn, _⟩ := hp
    exact h.close H (.inr rfl) hconn rfl hok
  | lose fd => exact h.close H (.inl rfl) hp rfl hok

end

/-- What of a seat is in the network: its bytes in both directions. -/
inductive Holds (net : Network) (fd : Int) : Seat → Prop
  | empty (hconn : net.server.conns fd = none) (hlink : net.links fd = none) : Holds net fd .empty
  | guest {l : Link} (hguest : standingOf (net.server.conns fd) = .guest) (hlink : net.links fd = some l)
      (server : pending net fd = [])
      (client : l.isOpen → (l.state = .initialState ∧ l.read ++ l.toClient = []) ∨
        (l.state = .authState ∧ l.read ++ l.toClient = refusedAnswer)) : Holds net fd (.guest none)
  | asking {l : Link} {a : Attempt} (hguest : standingOf (net.server.conns fd) = .guest)
      (hlink : net.links fd = some l) (server : pending net fd = a.packet.wire)
      (client : l.isOpen → l.state = .authState ∧ l.read ++ l.toClient = []) : Holds net fd (.guest (some a))
  | session {l : Link} {user : CString} {outbox : List Chat} {inbox : List Letter}
      (hmember : standingOf (net.server.conns fd) = .member user) (hlink : net.links fd = some l)
      (server : pending net fd = outbox.flatMap fun m => m.packet.wire)
      (client : l.isOpen → (l.state = .messageState ∧ l.read ++ l.toClient = inbox.flatMap Letter.frame) ∨
        (l.state = .authState ∧ l.read ++ l.toClient = grantedAnswer ++ inbox.flatMap Letter.frame)) :
      Holds net fd (.session user outbox inbox)

theorem Linked.holds {xs : List Happening} {net : Network} {fd : Int} {seat : Seat} (H : Linked xs net)
    (h : Sits net (ledger fd xs) fd seat) : Holds net fd seat := by
  cases hconn : net.server.conns fd with
  | none =>
    rw [h.nobody hconn]
    exact .empty hconn (H.gone fd hconn)
  | some c =>
    obtain ⟨l, hl, hbetween⟩ := H.between fd c hconn
    cases hbetween with
    | idle hc hs server _ client =>
      rw [← holding_nil c] at hconn
      have hguest := H.guest_of_holding hconn hs
      have hnil : pending net fd = [] := by
        rw [pending_eq hconn hc hl, server]
        rfl
      rw [seat_idle h hguest hnil]
      refine .guest hguest hl hnil fun hopen => ?_
      rcases client hopen with ⟨hs', hgot, hto⟩ | ⟨hs', way⟩
      · exact .inl ⟨hs', by simp [Link.read, hgot, hto]⟩
      · exact .inr ⟨hs', by simp [way.symbols]⟩
    | asking hc hs asked way _ client =>
      have hguest := H.guest_of_holding hconn hs
      have hwire : pending net fd = _ := (pending_eq hconn hc hl).trans way.symbols
      rw [List.flatten_singleton] at hwire
      rw [seat_asking h hguest (hwire ▸ framed_ne_nil (Packet.framed _)) asked]
      refine .asking hguest hl hwire fun hopen => ?_
      obtain ⟨hs', hgot, hto⟩ := client hopen
      exact ⟨hs', by simp [Link.read, hgot, hto]⟩
    | @session c _ b a waiting coming hc hs hu _ _ out inc =>
      obtain ⟨done, hsent, hforwarded⟩ := out.sent
      obtain ⟨seen, hshown, hrouted⟩ := inc.routed
      have hmember := member_of_holding hconn hs hu
      obtain ⟨inbox, rfl, hin⟩ := seat_session h hmember
      have hinbox : inbox.flatMap Letter.frame = (coming.map Letter.frame).flatten := by
        rw [hrouted, hshown, List.map_append, List.length_map, List.drop_left' (List.length_map _)] at hin
        have hframes := congrArg (List.map Prod.snd) hin
        simp only [List.map_map, Function.comp_def] at hframes
        rw [List.flatMap_def, hframes]
      refine .session hmember hl ?_ fun hopen => ?_
      · rw [pending_eq hconn hc hl, out.way.symbols, hsent, hforwarded, List.drop_left' (List.length_map _).symm,
          List.flatMap_def]
      · rw [hinbox]
        rcases inc.client hopen with ⟨hs', way⟩ | ⟨hs', way⟩
        · exact .inl ⟨hs', way.symbols⟩
        · exact .inr ⟨hs', way.symbols⟩

/-- In every run of the network what is seen is what happens in a run of the messenger, and what its
seats hold is what is in the network. -/
theorem network_refines_messenger {log : List (Network.Move × List Happening)} {net : Network}
    (run : Run Network.step (fun net e => net.permitted e) Network.start log net)
    (hw : ∀ p ∈ log, p.1.Writes) :
    ∃ log' t, Run Messenger.step Messenger.Permitted Messenger.nobody log' t ∧
      log'.flatMap Prod.snd = (happenings log).filter Happening.isSeen ∧ ∀ fd, Holds net fd (t fd) := by
  have run' := (@Run.log_forall_iff _ _ _ _ _ _ _ _ _ (fun p => p.1.Writes) (fun _ e => e.Writes) run
    fun _ _ _ _ _ _ _ => Iff.rfl).mp hw
  obtain ⟨log', t, hrun, ⟨H, h⟩, htrace⟩ :
      ∃ log' t, Run Messenger.step Messenger.Permitted Messenger.nobody log' t ∧
        (Linked (happenings log) net ∧ Depicts net (happenings log) t) ∧
        log'.flatMap Prod.snd = (happenings log).filter Happening.isSeen := by
    refine run'.tracks (R := fun log net t => Linked (happenings log) net ∧ Depicts net (happenings log) t)
      Happening.isSeen ⟨Linked.start, fun _ => .empty rfl⟩ ?_
    rintro log net net' e t _ ⟨H, h⟩ ⟨hp, hw⟩ hok
    rw [happenings_snoc]
    have H' := H.step hp hw hok
    rcases h.step H hp hw hok with ⟨h', hnone⟩ | ⟨r, t', hr, hstep, h'⟩
    · exact .inl ⟨⟨H', h'⟩, hnone⟩
    · exact .inr ⟨r, t', hr, hstep, H', h'⟩
  exact ⟨log', t, hrun, htrace, fun fd => H.holds (h fd)⟩

theorem conversed_refines_messenger :
    ∃ log' t, Run Messenger.step Messenger.Permitted Messenger.nobody log' t ∧
      log'.flatMap Prod.snd = (happenings conversed.1).filter Happening.isSeen ∧
      ∀ fd, Holds conversed.2 fd (t fd) :=
  network_refines_messenger conversed_run conversed_writes

end Protocol
end TeamsInC
