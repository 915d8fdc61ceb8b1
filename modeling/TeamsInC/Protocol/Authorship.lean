import TeamsInC.Protocol.Delivery
import TeamsInC.Server.Notification

/-!
# Who has written what is shown

A message that is shown has come in a frame, the frame was made by the server of a packet, and
the packet was typed at a client whose login under the name in the frame has been granted. So
nobody is shown a message under a name that is not its author's, and nobody is shown what was
written to somebody else.
-/

set_option autoImplicit false

namespace TeamsInC
namespace Protocol
open Client Server

namespace Ledger

theorem record_sent (fd : Int) (g : Ledger) (y : Happening) :
    (g.record fd y).sent = g.sent ∨ (g.record fd y).sent = [] ∨
      ∃ m, y = .typed fd m ∧ (g.record fd y).sent = g.sent ++ [m] := by
  cases y with
  | connected fd' =>
    by_cases h : fd' = fd
    · exact .inr (.inl (by simp [record, h, new]))
    · exact .inl (by simp [record, h])
  | asked fd' a => exact .inl (by by_cases h : fd' = fd <;> simp [record, h])
  | typed fd' m =>
    by_cases h : fd' = fd
    · exact .inr (.inr ⟨m, by rw [h], by simp [record, h]⟩)
    · exact .inl (by simp [record, h])
  | shown fd' msgChat => exact .inl (by by_cases h : fd' = fd <;> simp [record, h])
  | server x => cases x <;> exact .inl rfl

theorem record_routed (fd : Int) (g : Ledger) (y : Happening) :
    y ≠ .connected fd ∧ (g.record fd y).routed = g.routed ∨ (g.record fd y).routed = [] ∨
      ∃ fd' toUser frame accepted, y = .server (.forward fd' toUser fd frame accepted) ∧
        (g.record fd y).routed = g.routed ++ [(toUser, accepted)] := by
  cases y with
  | connected fd' =>
    by_cases h : fd' = fd
    · exact .inr (.inl (by simp [record, h, new]))
    · exact .inl ⟨by simpa using h, by simp [record, h]⟩
  | asked fd' a => exact .inl ⟨by simp, by by_cases h : fd' = fd <;> simp [record, h]⟩
  | typed fd' m => exact .inl ⟨by simp, by by_cases h : fd' = fd <;> simp [record, h]⟩
  | shown fd' msgChat => exact .inl ⟨by simp, by by_cases h : fd' = fd <;> simp [record, h]⟩
  | server x =>
    cases x with
    | forward fd' toUser dest frame accepted =>
      by_cases h : dest = fd
      · exact .inr (.inr ⟨fd', toUser, frame, accepted, by rw [h], by simp [record, h]⟩)
      · exact .inl ⟨by simp, by simp [record, h]⟩
    | _ => exact .inl ⟨by simp, rfl⟩

end Ledger

theorem mem_sent {fd : Int} {m : Chat} {g : Ledger} {ys : List Happening}
    (hm : m ∈ (ys.foldl (Ledger.record fd) g).sent) : m ∈ g.sent ∨ .typed fd m ∈ ys := by
  induction ys generalizing g with
  | nil => exact .inl hm
  | cons y ys ih =>
    rcases ih hm with h | h
    · rcases g.record_sent fd y with hsame | hnew | ⟨m', rfl, htyped⟩
      · exact .inl (hsame ▸ h)
      · rw [hnew] at h
        cases h
      · rw [htyped] at h
        rcases List.mem_append.mp h with h | h
        · exact .inl h
        · exact .inr (List.mem_singleton.mp h ▸ List.mem_cons_self)
    · exact .inr (List.mem_cons_of_mem _ h)

/-- A frame that has come for a connection came in its turn, and no other connection was made since. -/
theorem routed_split {fd : Int} {xs : List Happening} {before after : List (CString × List UInt8)}
    {p : CString × List UInt8} (h : (ledger fd xs).routed = before ++ p :: after) :
    ∃ pre fd' frame post, xs = pre ++ .server (.forward fd' p.1 fd frame p.2) :: post ∧
      .connected fd ∉ post ∧ (ledger fd pre).routed = before := by
  induction xs using List.reverseRecOn generalizing after with
  | nil => simp [ledger, Ledger.new] at h
  | append_singleton xs y ih =>
    rw [ledger_append, List.foldl_cons, List.foldl_nil] at h
    have earlier {after} (hy : y ≠ .connected fd) (h : (ledger fd xs).routed = before ++ p :: after) :
        ∃ pre fd' frame post, xs ++ [y] = pre ++ .server (.forward fd' p.1 fd frame p.2) :: post ∧
          .connected fd ∉ post ∧ (ledger fd pre).routed = before := by
      obtain ⟨pre, fd', frame, post, rfl, hpost, hbefore⟩ := ih h
      refine ⟨pre, fd', frame, post ++ [y], by simp, ?_, hbefore⟩
      simp [hpost, Ne.symm hy]
    rcases (ledger fd xs).record_routed fd y with ⟨hy, hsame⟩ | hnew | ⟨fd', toUser, frame, accepted, rfl, hcame⟩
    · exact earlier hy (hsame ▸ h)
    · simp [hnew] at h
    · rw [hcame] at h
      rcases List.eq_nil_or_concat after with rfl | ⟨after, q, rfl⟩
      · obtain ⟨hbefore, hlast⟩ := List.append_inj' h rfl
        cases hlast
        exact ⟨xs, fd', frame, [], by simp, by simp, hbefore⟩
      · rw [List.concat_eq_append, ← List.cons_append, ← List.append_assoc] at h
        exact earlier (by simp) (List.append_inj' h rfl).1

theorem ledger_seen (fd : Int) (xs : List Happening) (effs : List Effect) :
    ledger fd (xs ++ effs.map .server) =
      ((effs.filter isSeen).map Happening.server).foldl (Ledger.record fd) (ledger fd xs) := by
  rw [ledger_append]
  generalize ledger fd xs = g
  induction effs generalizing g with
  | nil => rfl
  | cons x effs ih =>
    rw [List.map_cons, List.foldl_cons, ih, List.filter_cons]
    cases x <;> rfl

section
variable {fd dest : Int} {toUser : CString} {frame accepted : List UInt8} {effs : List Effect}

end

/-- A server that forwards does it for a member, who stays one, to where a search for the name leads. -/
theorem forward_member {s s' : ServerState} {e : Event} {fd dest : Int} {toUser : CString}
    {frame accepted : List UInt8} (H : SoundState s) (he : Enabled s e) (hnameless : startsNameless e)
    (hok : (Server.step s e).result = .ok s')
    (h : .forward fd toUser dest frame accepted ∈ (Server.step s e).effects) :
    ∃ user found, standingOf (s.conns fd) = .member user ∧ standingOf (s'.conns fd) = .member user ∧
      (serviceOf s).Finds toUser found ∧ dest = found.getD (-1) ∧ accepted <+: frame ∧
      (found = none → accepted = []) ∧
      (Server.step s e).effects.filter isSeen = [.forward fd toUser dest frame accepted] := by
  have hseen : .forward fd toUser dest frame accepted ∈ (Server.step s e).effects.filter isSeen :=
    List.mem_filter.mpr ⟨h, rfl⟩
  have hstep : EventStep s e (Server.step s e).effects (.ok s') := hok ▸ step_event he
  rcases hstep.answers H hnameless with ⟨_, hnone⟩ | ⟨r, ⟨hpermitted, hr⟩, _⟩
  · rw [hnone] at hseen
    cases hseen
  · have heffects : (Server.step s e).effects.filter isSeen = ((serviceOf s).step r).effects := by rw [hr]
    rw [heffects] at hseen ⊢
    cases r with
    | relay fd' user toUser' found messageType text taken =>
      simp only [Service.step, List.mem_singleton, Effect.forward.injEq] at hseen hr
      obtain ⟨rfl, rfl, rfl, rfl, rfl⟩ := hseen
      obtain ⟨hmember, hfinds, _, htaken, hlost⟩ := hpermitted
      have hsame : serviceOf s = serviceOf s' := by
        injection hr with _ hresult
        exact Except.ok.inj hresult
      have hstays := congrArg (fun d => Directory.standing d fd) hsame
      exact ⟨user, found, hmember, hstays.symm.trans hmember, hfinds, rfl, htaken, hlost, rfl⟩
    | connect => simp [Service.step] at hseen
    | refuse => simp [Service.step] at hseen
    | grant => simp [Service.step] at hseen
    | hangUp => simp [Service.step] at hseen
    | leave fd' entry =>
      simp only [Service.step] at hseen
      split at hseen <;> simp at hseen

theorem Link.receive_effects (l : Link) (fd : Int) (chunk : Chunk) (beyond : Nat → UInt8) :
    (l.receive fd chunk beyond).effects = [] ∨
      ∃ msgChat, (l.receive fd chunk beyond).effects = [.shown fd msgChat] := by
  simp only [Link.receive]
  split
  · split
    · exact .inl rfl
    · exact .inl rfl
    · exact .inl rfl
  · split
    · exact .inl rfl
    · exact .inl rfl
    · exact .inr ⟨_, rfl⟩
  · exact .inl rfl

/-- What a move comes to: an event on one of the server's connections, a new connection, a message that
is shown, or what is typed. -/
inductive Moved (net net' : Network) (e : Network.Move) (xs : List Happening) : Prop
  | served (se : Event) (he : Enabled net.server se) (hnameless : startsNameless se)
      (hconn : (net.server.conns se.fd).isSome) (hres : (Server.step net.server se).result = .ok net'.server)
      (hxs : xs = (Server.step net.server se).effects.map .server)
  | connected (fd : Int) (junk : Junk) (he : e = .connect fd junk) (hfree : net.server.conns fd = none)
      (hserver : net'.server.conns = Function.update net.server.conns fd (some (createNewClient fd junk)))
      (hxs : xs = [.server (.accept fd), .connected fd])
  | shown (fd : Int) (msgChat : MessageChat) (hserver : net'.server = net.server)
      (hlink : (net'.links fd).isSome) (hxs : xs = [.shown fd msgChat])
  | typed (hserver : net'.server = net.server)
      (hxs : ∀ x ∈ xs, (∃ fd a, x = .asked fd a) ∨ ∃ fd m, x = .typed fd m)

theorem step_moved {net net' : Network} {e : Network.Move} (hp : net.permitted e)
    (hok : (net.step e).result = .ok net') : Moved net net' e (net.step e).effects := by
  cases e with
  | connect fd junk =>
    simp only [Network.permitted, decide_eq_true_eq] at hp
    obtain ⟨rfl, heffects⟩ := Network.step_connect hok
    exact .connected fd junk rfl hp.1.2 rfl heffects
  | serve fd chunk env =>
    simp only [Network.permitted, Option.any_eq_true, decide_eq_true_eq] at hp
    obtain ⟨l, hl, hconn, _⟩ := hp
    obtain ⟨s', hres, rfl, heffects⟩ := Network.step_serve hl hok
    exact .served (.data fd chunk env) hconn rfl hconn hres heffects
  | finish fd =>
    simp only [Network.permitted, Option.any_eq_true, decide_eq_true_eq] at hp
    obtain ⟨l, _, hconn, _⟩ := hp
    obtain ⟨s', hres, rfl, heffects⟩ := @Network.step_close _ _ fd _ (.eof fd) rfl hok
    exact .served (.eof fd) hconn rfl hconn hres heffects
  | lose fd =>
    obtain ⟨s', hres, rfl, heffects⟩ := @Network.step_close _ _ fd _ (.epollerr fd) rfl hok
    exact .served (.epollerr fd) hp rfl hp hres heffects
  | login fd a memory =>
    cases hl : net.links fd with
    | none =>
      simp only [Network.step, hl] at hok ⊢
      cases hok
      exact .typed rfl (by simp)
    | some l =>
      simp only [Network.step, hl] at hok ⊢
      cases hok
      exact .typed rfl (by simp [Traced.emit])
  | write fd m memory =>
    cases hl : net.links fd with
    | none =>
      simp only [Network.step, hl] at hok ⊢
      cases hok
      exact .typed rfl (by simp)
    | some l =>
      simp only [Network.step, hl] at hok ⊢
      cases hok
      exact .typed rfl (by simp [Traced.emit])
  | leave fd =>
    cases hl : net.links fd with
    | none =>
      simp only [Network.step, hl] at hok ⊢
      cases hok
      exact .typed rfl (by simp)
    | some l =>
      simp only [Network.step, hl] at hok ⊢
      cases hok
      exact .typed rfl (by simp)
  | receive fd chunk beyond =>
    cases hl : net.links fd with
    | none =>
      simp only [Network.step, hl] at hok ⊢
      cases hok
      exact .typed rfl (by simp)
    | some l =>
      simp only [Network.step, hl] at hok ⊢
      obtain ⟨l', hreceive, hok⟩ := Traced.result_bind_ok.mp hok
      rw [Traced.eq_mk hreceive]
      cases hok
      rcases l.receive_effects fd chunk beyond with heffects | ⟨msgChat, heffects⟩
      · exact .typed rfl (by simp [heffects])
      · exact .shown fd msgChat rfl (by simp [Network.setLink]) (by simp [heffects])

/-- The server has granted this name on the connection that the descriptor has: the login last asked for
there, before anything was typed, forwarded or shown. `since` is what has happened after the "200". -/
structure Granted (xs : List Happening) (fd : Int) (user : CString) (since : List Happening) : Prop where
  grant : ∃ before mid a, xs = before ++ (Effect.insert user fd :: mid ++ [welcome fd]).map .server ++ since ∧
    (ledger fd before).asked = some a ∧ a.user = user ∧ authVerify a.user a.password = 0 ∧
    Silent (ledger fd before)
  connection : .connected fd ∉ since

/-- The next message that the server forwards for a session: it was typed at its client after the name
was granted, and none that was typed before it waits. -/
structure Authored (xs : List Happening) (fd : Int) (toUser : CString) (x : Letter) : Prop where
  granted : ∃ since, Granted xs fd x.sender since ∧ .typed fd x.chat ∈ since
  next : (ledger fd xs).sent[(ledger fd xs).forwarded.length]? = some x.chat
  toUser : x.chat.toUser = toUser

namespace Granted
variable {xs since : List Happening} {fd : Int} {user : CString}

theorem mono (h : Granted xs fd user since) {ys : List Happening} (hys : .connected fd ∉ ys) :
    Granted (xs ++ ys) fd user (since ++ ys) := by
  obtain ⟨before, mid, a, rfl, hgrant⟩ := h.grant
  refine ⟨⟨before, mid, a, by simp, hgrant⟩, ?_⟩
  simp [h.connection, hys]

theorem served (h : Granted xs fd user since) (effs : List Effect) :
    Granted (xs ++ effs.map .server) fd user (since ++ effs.map .server) := h.mono (by simp)

theorem typed (h : Granted xs fd user since) {m : Chat} (hm : m ∈ (ledger fd xs).sent) : .typed fd m ∈ since := by
  obtain ⟨before, mid, a, rfl, _, _, _, silent⟩ := h.grant
  rw [ledger_append, ledger_append] at hm
  rcases mem_sent hm with hm | hm
  · rcases mem_sent hm with hm | hm
    · rw [silent.sent] at hm
      cases hm
    · simp at hm
  · exact hm

end Granted

theorem Linked.silent {xs : List Happening} {net : Network} (H : Linked xs net) {fd : Int}
    (hasks : Service.Asks (standingOf (net.server.conns fd))) : Silent (ledger fd xs) := by
  cases hconn : net.server.conns fd with
  | none => simp [hconn, Service.Asks, standingOf] at hasks
  | some c =>
    obtain ⟨l, _, hbetween⟩ := H.between fd c hconn
    cases hbetween with
    | idle _ _ _ silent => exact silent
    | asking _ _ _ _ silent => exact silent
    | session _ hs hu =>
      rw [Linked.member_of_holding hconn hs hu] at hasks
      simp [Service.Asks] at hasks

theorem Linked.granted {xs : List Happening} {net net' : Network} {effs : List Effect} (H : Linked xs net)
    (H' : Linked (xs ++ effs.map .server) net') {fd : Int} {user : CString}
    (hasks : Service.Asks (standingOf (net.server.conns fd)))
    (heffs : effs.filter isSeen = [.insert user fd, .reply fd grantedAnswer grantedAnswer])
    (hmember : standingOf (net'.server.conns fd) = .member user) :
    ∃ since, Granted (xs ++ effs.map .server) fd user since := by
  obtain ⟨early, rest, rfl, hearly, _, hrest⟩ := List.filter_eq_cons_iff.mp heffs
  obtain ⟨mid, late, rfl, _, _, _⟩ := List.filter_eq_cons_iff.mp hrest
  have hsame : ledger fd (xs ++ early.map .server) = ledger fd xs := by
    rw [ledger_seen, List.filter_eq_nil_iff.mpr hearly]
    rfl
  have hasked : (ledger fd (xs ++ (early ++ .insert user fd ::
      (mid ++ .reply fd grantedAnswer grantedAnswer :: late)).map .server)).asked = (ledger fd xs).asked := by
    rw [ledger_seen, heffs]
    rfl
  obtain ⟨c', hconn'⟩ := conn_of_member hmember
  obtain ⟨l', _, hbetween'⟩ := H'.between fd c' hconn'
  obtain ⟨_, _, a, _, _, _, _, _, _, huser, hverify, hlast, _⟩ := hbetween'.of_member (hconn' ▸ hmember)
  refine ⟨late.map .server, ⟨xs ++ early.map .server, mid, a, ?_, ?_, huser, hverify, ?_⟩, by simp⟩
  · simp [welcome, Server.replyFrame_text (show (0 : UInt8) ∉ ascii ['2', '0', '0'] by decide), grantedAnswer, answer]
  · rw [hsame, ← hasked, hlast]
  · rw [hsame]
    exact H.silent hasks

theorem run_granted {log : List (Network.Move × List Happening)} {net : Network}
    (run : Run Network.step (fun net e => net.permitted e) Network.start log net)
    (hw : ∀ p ∈ log, p.1.Writes) {fd : Int} {user : CString}
    (hmember : standingOf (net.server.conns fd) = .member user) :
    ∃ since, Granted (happenings log) fd user since := by
  induction run with
  | nil => cases hmember
  | @snoc log net net' e run hp hok ih =>
    have H := run_linked run fun p hp => hw p (List.mem_append_left _ hp)
    have H' := run_linked (run.snoc hp hok) hw
    have stays {ys : List Happening} (hys : .connected fd ∉ ys)
        (h : standingOf (net.server.conns fd) = .member user) :
        ∃ since, Granted (happenings log ++ ys) fd user since := by
      obtain ⟨since, hgranted⟩ := ih (fun p hp => hw p (List.mem_append_left _ hp)) h
      exact ⟨_, hgranted.mono hys⟩
    rw [happenings_snoc] at H' ⊢
    cases step_moved hp hok with
    | shown _ _ hserver _ heffects => exact stays (by simp [heffects]) (hserver ▸ hmember)
    | typed hserver htyped =>
      refine stays ?_ (hserver ▸ hmember)
      intro hconnected
      rcases htyped _ hconnected with ⟨_, _, h⟩ | ⟨_, _, h⟩ <;> cases h
    | connected fd' junk _ hfree hserver heffects =>
      rw [hserver] at hmember
      by_cases hfd : fd' = fd
      · subst hfd
        rw [Function.update_self] at hmember
        cases (standing_member hmember).1
      · rw [Function.update_of_ne (Ne.symm hfd)] at hmember
        exact stays (by simp [heffects, Ne.symm hfd]) hmember
    | served se he hnameless _ hres heffects =>
      rw [heffects] at H' ⊢
      have hserved : .connected fd ∉ (Server.step net.server se).effects.map Happening.server := by simp
      have hstep : EventStep net.server se (Server.step net.server se).effects (.ok net'.server) :=
        hres ▸ step_event he
      rcases hstep.answers H.sound hnameless with ⟨hservice, _⟩ | ⟨r, ⟨hpermitted, hr⟩, _⟩
      · exact stays hserved ((congrArg (fun d => Directory.standing d fd) hservice).symm.trans hmember)
      · rcases Service.step_joins (congrArg Traced.result hr) hmember with hbefore | ⟨password, rfl⟩
        · exact stays hserved hbefore
        · exact H.granted H' hpermitted.1 (congrArg Traced.effects hr).symm hmember

theorem Linked.last_forwarded {xs : List Happening} {net : Network} (H : Linked xs net) {fd : Int}
    {user toUser : CString} (hmember : standingOf (net.server.conns fd) = .member user)
    {done : List (CString × List UInt8)} {frame : List UInt8}
    (h : (ledger fd xs).forwarded = done ++ [(toUser, frame)]) :
    ∃ x : Letter, x.sender = user ∧ x.chat.toUser = toUser ∧ frame = x.frame ∧
      (ledger fd xs).sent[done.length]? = some x.chat := by
  obtain ⟨c, hconn⟩ := conn_of_member hmember
  obtain ⟨l, _, hbetween⟩ := H.between fd c hconn
  obtain ⟨_, _, a, waiting, _, _, _, _, _, rfl, granted, _, out, _⟩ := hbetween.of_member (hconn ▸ hmember)
  obtain ⟨sent, hsent, hforwarded⟩ := out.sent
  rw [h] at hforwarded
  obtain ⟨sent, last, rfl, rfl, hlast⟩ := List.map_eq_append_iff.mp hforwarded.symm
  obtain ⟨m, rfl, hm⟩ := List.map_eq_singleton_iff.mp hlast
  cases hm
  refine ⟨⟨a.user, m, (authVerify_mem granted).1⟩, rfl, rfl, rfl, ?_⟩
  rw [hsent]
  simp

/-- What is forwarded in a step has an author, and comes for a session if any of it is taken. -/
theorem authored_step {log : List (Network.Move × List Happening)} {net net' : Network}
    (run : Run Network.step (fun net e => net.permitted e) Network.start log net)
    (hw : ∀ p ∈ log, p.1.Writes) {se : Event} (he : Enabled net.server se) (hnameless : startsNameless se)
    (hres : (Server.step net.server se).result = .ok net'.server)
    (H' : Linked (happenings log ++ (Server.step net.server se).effects.map .server) net')
    {early late : List Effect} {fd dest : Int} {toUser : CString} {frame accepted : List UInt8}
    (h : (Server.step net.server se).effects = early ++ .forward fd toUser dest frame accepted :: late) :
    ∃ x, Authored (happenings log ++ early.map .server) fd toUser x ∧ frame = x.frame ∧ accepted <+: frame ∧
      (accepted ≠ [] → ∃ since, Granted (happenings log ++ early.map .server) dest toUser since) := by
  have H := run_linked run hw
  obtain ⟨user, found, hmember, hmember', hfinds, rfl, hprefix, hlost, hseen⟩ :=
    @forward_member _ _ _ fd dest toUser frame accepted H.sound he hnameless hres (by simp [h])
  have hearly : early.filter isSeen = [] := by
    rw [h, List.filter_append, List.filter_cons_of_pos rfl] at hseen
    exact (List.append_eq_singleton_iff.mp hseen).elim (·.1) fun hfirst => absurd hfirst.2 (by simp)
  have hbefore (k : Int) : ledger k (happenings log ++ early.map .server) = ledger k (happenings log) := by
    rw [ledger_seen, hearly]
    rfl
  have hlast : (ledger fd (happenings log ++ (Server.step net.server se).effects.map .server)).forwarded =
      (ledger fd (happenings log)).forwarded ++ [(toUser, frame)] := by
    rw [ledger_seen, hseen]
    simp [Ledger.record]
  obtain ⟨x, rfl, hto, rfl, hnext⟩ := H'.last_forwarded hmember' hlast
  rw [ledger_seen, hseen] at hnext
  have hsent : (ledger fd (happenings log)).sent[(ledger fd (happenings log)).forwarded.length]? = some x.chat := hnext
  obtain ⟨since, hgranted⟩ := run_granted run hw hmember
  refine ⟨x, ⟨⟨_, hgranted.served early, ?_⟩, ?_, hto⟩, rfl, hprefix, ?_⟩
  · exact List.mem_append_left _ (hgranted.typed (List.mem_of_getElem? hsent))
  · rw [hbefore, hsent]
  · intro hne
    cases found with
    | none => exact absurd (hlost rfl) hne
    | some k =>
      obtain ⟨since', hgranted'⟩ := run_granted run hw ((H.inOrder.exact.member toUser k).mp hfinds)
      exact ⟨_, hgranted'.served early⟩

theorem append_split {α : Type} {xs ys pre post : List α} {x : α} (h : xs ++ ys = pre ++ x :: post) :
    (∃ post', xs = pre ++ x :: post') ∨ ∃ pre', pre = xs ++ pre' ∧ ys = pre' ++ x :: post := by
  rcases List.append_eq_append_iff.mp h with ⟨pre', hpre, hys⟩ | ⟨bs, hxs, hpost⟩
  · exact .inr ⟨pre', hpre, hys⟩
  · cases bs with
    | nil => exact .inr ⟨[], by simpa using hxs.symm, by simpa using hpost.symm⟩
    | cons b bs =>
      cases hpost
      exact .inl ⟨bs, hxs⟩

/-- Everything forwarded has an author. -/
theorem run_authored {log : List (Network.Move × List Happening)} {net : Network}
    (run : Run Network.step (fun net e => net.permitted e) Network.start log net)
    (hw : ∀ p ∈ log, p.1.Writes) {pre post : List Happening} {fd dest : Int} {toUser : CString}
    {frame accepted : List UInt8}
    (h : happenings log = pre ++ .server (.forward fd toUser dest frame accepted) :: post) :
    ∃ x, Authored pre fd toUser x ∧ frame = x.frame ∧ accepted <+: frame ∧
      (accepted ≠ [] → ∃ since, Granted pre dest toUser since) := by
  induction run generalizing post with
  | nil => simp [happenings] at h
  | @snoc log net net' e run hp hok ih =>
    have hearlier := fun p hp => hw p (List.mem_append_left _ hp)
    have H' := run_linked (run.snoc hp hok) hw
    rw [happenings_snoc] at h H'
    rcases append_split h with ⟨post', hold⟩ | ⟨pre', rfl, hnew⟩
    · exact ih hearlier hold
    · have hmem : .server (.forward fd toUser dest frame accepted) ∈ (net.step e).effects := by simp [hnew]
      cases step_moved hp hok with
      | served se he hnameless _ hres heffects =>
        rw [heffects] at hnew H'
        obtain ⟨early, rest, heffs, rfl, hrest⟩ := List.map_eq_append_iff.mp hnew
        obtain ⟨_, late, rfl, heq, rfl⟩ := List.map_eq_cons_iff.mp hrest
        cases heq
        exact authored_step run hearlier he hnameless hres H' heffs
      | connected fd' _ _ _ _ heffects => simp [heffects] at hmem
      | shown fd' msgChat _ _ heffects => simp [heffects] at hmem
      | typed _ htyped => rcases htyped _ hmem with ⟨_, _, heq⟩ | ⟨_, _, heq⟩ <;> cases heq

theorem framed_prefix {f g : List UInt8} (hf : Framed f) (hg : Framed g) (h : f <+: g) : f = g := by
  obtain ⟨y, rfl⟩ := h
  have hlen := hg.len
  rw [headerOf_append hf.twelve, hf.len, List.length_append] at hlen
  have hy : y = [] := List.length_eq_zero_iff.mp (by omega)
  rw [hy, List.append_nil]

theorem Letter.message_congr {x y : Letter} (h : x.frame = y.frame) : x.message = y.message := by
  have decoded (z : Letter) : decodeMessageRecv Client.hostOrder ⟨z.frame, fun _ => 0⟩ = some z.message := by
    have hfits := z.packet.fits
    simp only [Letter.packet] at hfits
    exact decodeMessageRecv_packet Client.hostOrder _ (by omega) (by omega) _
  have hx := decoded x
  rw [h, decoded y] at hx
  exact (Option.some.inj hx).symm

theorem Linked.last_shown {xs : List Happening} {net : Network} {fd : Int} {msgChat : MessageChat}
    (H : Linked (xs ++ [.shown fd msgChat]) net) {l : Link} (hl : net.links fd = some l) :
    ∃ (user : CString) (x : Letter) (seen coming : List Letter), (ledger fd xs).shown = seen.map Letter.message ∧
      (ledger fd xs).routed =
        (seen.map fun x => (user, x.frame)) ++ (user, x.frame) :: coming.map (fun x => (user, x.frame)) ∧
      msgChat = x.message := by
  obtain ⟨c, _, hbetween⟩ := H.link hl
  have hledger : ledger fd (xs ++ [.shown fd msgChat]) =
      { ledger fd xs with shown := (ledger fd xs).shown ++ [msgChat] } := by
    simp [ledger_append, Ledger.record]
  rw [hledger] at hbetween
  cases hbetween with
  | idle _ _ _ silent => simpa using silent.shown
  | asking _ _ _ _ silent => simpa using silent.shown
  | @session _ _ _ a _ coming _ _ _ _ _ _ inc =>
    obtain ⟨seen, hshown, hrouted⟩ := inc.routed
    obtain ⟨seen, last, rfl, hseen, hlast⟩ := List.map_eq_append_iff.mp hshown.symm
    obtain ⟨x, rfl, rfl⟩ := List.map_eq_singleton_iff.mp hlast
    exact ⟨a.user, x, seen, coming, hseen.symm, by simpa using hrouted, rfl⟩

/-- What is shown at a client was forwarded to it in its turn, after its own login was granted: a letter
to the name granted there, typed at another client after the login under the name of its sender was
granted, and forwarded for that client in its turn. -/
theorem shown_was_typed {log : List (Network.Move × List Happening)} {net : Network}
    (run : Run Network.step (fun net e => net.permitted e) Network.start log net)
    (hw : ∀ p ∈ log, p.1.Writes) {pre post : List Happening} {fd : Int} {msgChat : MessageChat}
    (h : happenings log = pre ++ .shown fd msgChat :: post) :
    ∃ (user : CString) (fd' : Int) (x : Letter) (before after since : List Happening),
      pre = before ++ .server (.forward fd' user fd x.frame x.frame) :: after ∧
      .connected fd ∉ after ∧ (ledger fd before).routed.length = (ledger fd pre).shown.length ∧
      Granted before fd user since ∧ Authored before fd' user x ∧ msgChat = x.message := by
  induction run generalizing post with
  | nil => simp [happenings] at h
  | @snoc log net net' e run hp hok ih =>
    have hearlier := fun p hp => hw p (List.mem_append_left _ hp)
    have H' := run_linked (run.snoc hp hok) hw
    rw [happenings_snoc] at h H'
    rcases append_split h with ⟨post', hold⟩ | ⟨pre', rfl, hnew⟩
    · exact ih hearlier hold
    · have hmem : .shown fd msgChat ∈ (net.step e).effects := by simp [hnew]
      cases step_moved hp hok with
      | served _ _ _ _ _ heffects => simp [heffects] at hmem
      | connected fd' _ _ _ _ heffects => simp [heffects] at hmem
      | typed _ htyped => rcases htyped _ hmem with ⟨_, _, heq⟩ | ⟨_, _, heq⟩ <;> cases heq
      | shown fd0 msg0 _ hlink heffects =>
        rw [heffects] at hnew H'
        obtain ⟨rfl, hlast⟩ | ⟨_, hnil⟩ := List.append_eq_singleton_iff.mp hnew.symm
        · cases hlast
          obtain ⟨l, hl⟩ := Option.isSome_iff_exists.mp hlink
          obtain ⟨user, x, seen, coming, hshown, hrouted, rfl⟩ := H'.last_shown hl
          rw [List.append_nil]
          obtain ⟨before, fd', frame, after, heq, hafter, hbefore⟩ := routed_split hrouted
          obtain ⟨y, hauthored, rfl, hprefix, hgranted⟩ := run_authored run hearlier heq
          have hsame : x.frame = y.frame := framed_prefix x.packet.framed y.packet.framed hprefix
          obtain ⟨since, hgranted⟩ := hgranted (framed_ne_nil x.packet.framed)
          refine ⟨user, fd', y, before, after, since, ?_, hafter, ?_, hgranted, hauthored,
            Letter.message_congr hsame⟩
          · rw [heq, hsame]
          · rw [hbefore, hshown, List.length_map, List.length_map]
        · cases hnil

def isShownAt (fd : Int) : Happening → Bool
  | .shown fd' _ => fd' = fd
  | _ => false

theorem conversed_shown : ∃ pre msgChat post, happenings conversed.1 = pre ++ .shown 6 msgChat :: post := by
  have hany : (happenings conversed.1).any (isShownAt 6) = true := by decide +kernel
  obtain ⟨x, hx, hshown⟩ := List.any_eq_true.mp hany
  cases x with
  | shown fd msgChat =>
    obtain rfl : fd = 6 := by simpa [isShownAt] using hshown
    obtain ⟨pre, post, h⟩ := List.append_of_mem hx
    exact ⟨pre, msgChat, post, h⟩
  | _ => simp [isShownAt] at hshown

theorem conversed_shown_was_typed :
    ∃ pre msgChat post, happenings conversed.1 = pre ++ .shown 6 msgChat :: post ∧
      ∃ (user : CString) (fd' : Int) (x : Letter) (before after since : List Happening),
        pre = before ++ .server (.forward fd' user 6 x.frame x.frame) :: after ∧
        .connected 6 ∉ after ∧ (ledger 6 before).routed.length = (ledger 6 pre).shown.length ∧
        Granted before 6 user since ∧ Authored before fd' user x ∧ msgChat = x.message := by
  obtain ⟨pre, msgChat, post, h⟩ := conversed_shown
  exact ⟨pre, msgChat, post, h, shown_was_typed conversed_run conversed_writes h⟩

end Protocol
end TeamsInC
