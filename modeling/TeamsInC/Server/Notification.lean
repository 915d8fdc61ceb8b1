import TeamsInC.Lib.Notices
import TeamsInC.Server.Registration

/-!
# epoll_wait, accept and read

The server together with what the kernel holds for it: the connections that are not accepted
yet, the bytes that are not read yet, and the notices. All descriptors are registered with
`EPOLLET`: a notice is raised when something arrives, and not because something is left.
-/

set_option autoImplicit false

namespace TeamsInC
namespace Server

def MAX_EVENTS : Nat := 10

def BUFF_SIZE : Nat := 1024

/-- What the kernel holds for one connection. -/
structure Socket where
  inbox : List UInt8
  ended : Bool
  failed : Bool
deriving DecidableEq

inductive Arrival where
  | bytes (bs : List UInt8)
  /-- The peer has closed. -/
  | hangup
  | error

namespace Socket

def fresh : Socket := ⟨[], false, false⟩

def get (sock : Socket) : Arrival → Socket
  | .bytes bs => { sock with inbox := sock.inbox ++ bs }
  | .hangup => { sock with ended := true }
  | .error => { sock with failed := true }

def mayGet (sock : Socket) : Arrival → Bool
  | .bytes bs => bs ≠ [] ∧ sock.ended = false
  | _ => true

def readable (sock : Socket) : Bool := sock.inbox ≠ [] ∨ sock.ended ∨ sock.failed

/-- What the body of the loop finds: `EPOLLERR` if that was reported, else what `read` returns.
It takes the bytes first, then fails if the socket has failed. -/
def event (sock : Socket) (fd : Int) (epollerr : Bool) (env : Env) : Event :=
  if epollerr then .epollerr fd
  else if sock.inbox = [] ∧ sock.ended ∧ ¬ sock.failed then .eof fd
  else getsIn env fd (sock.inbox.take BUFF_SIZE)

def afterRead (sock : Socket) (epollerr : Bool) : Socket :=
  if epollerr then sock else { sock with inbox := sock.inbox.drop BUFF_SIZE }

end Socket

def Event.fd : Event → Int
  | .accept fd _ => fd
  | .epollerr fd => fd
  | .again fd => fd
  | .eof fd => fd
  | .data fd _ _ => fd

theorem Socket.event_fd (sock : Socket) (fd : Int) (epollerr : Bool) (env : Env) :
    (sock.event fd epollerr env).fd = fd := by
  simp only [Socket.event, getsIn]
  split
  · rfl
  · split
    · rfl
    · split <;> rfl

theorem Socket.event_enabled {s : ServerState} {fd : Int} (sock : Socket) (epollerr : Bool) (env : Env)
    (h : (s.conns fd).isSome) : Enabled s (sock.event fd epollerr env) := by
  simp only [Socket.event, getsIn]
  split
  · exact h
  · split
    · exact h
    · split <;> exact h

theorem step_conns {s s' : ServerState} {e : Event} (h : (step s e).result = .ok s') :
    ∃ c, s'.conns = Function.update s.conns e.fd c ∧ (e = .epollerr e.fd → c = none) := by
  have same {fd : Int} (hnone : s.conns fd = none) : s.conns = Function.update s.conns fd none := by
    rw [← hnone, Function.update_eq_self]
  cases e with
  | accept fd junk =>
    cases h
    exact ⟨_, rfl, by simp⟩
  | again fd =>
    cases h
    exact ⟨s.conns fd, (Function.update_eq_self fd s.conns).symm, by simp⟩
  | epollerr fd =>
    simp only [step] at h
    cases hc : s.conns fd with
    | none =>
      rw [hc] at h
      cases h
      exact ⟨none, same hc, fun _ => rfl⟩
    | some c =>
      rw [hc] at h
      obtain ⟨tree, _, h⟩ := Traced.result_bind_ok.mp h
      cases h
      exact ⟨none, rfl, fun _ => rfl⟩
  | eof fd =>
    simp only [step] at h
    cases hc : s.conns fd with
    | none =>
      rw [hc] at h
      cases h
      exact ⟨none, same hc, by simp⟩
    | some c =>
      rw [hc] at h
      obtain ⟨tree, _, h⟩ := Traced.result_bind_ok.mp h
      cases h
      exact ⟨none, rfl, by simp⟩
  | data fd chunk env =>
    simp only [step] at h
    cases hc : s.conns fd with
    | none =>
      rw [hc] at h
      cases h
      exact ⟨none, same hc, by simp⟩
    | some c =>
      rw [hc] at h
      obtain ⟨⟨c', tree⟩, _, h⟩ := Traced.result_bind_ok.mp h
      cases h
      exact ⟨c', rfl, by simp⟩

theorem step_frame {s s' : ServerState} {e : Event} {fd : Int} (h : (step s e).result = .ok s')
    (hne : fd ≠ e.fd) : s'.conns fd = s.conns fd := by
  obtain ⟨c, hconns, _⟩ := step_conns h
  rw [hconns, Function.update_of_ne hne]

theorem step_epollerr {s s' : ServerState} {fd : Int} (h : (step s (.epollerr fd)).result = .ok s') :
    s'.conns fd = none := by
  obtain ⟨c, hconns, hclosed⟩ := step_conns h
  rw [hconns, hclosed rfl]
  exact Function.update_self _ _ _

inductive Source where
  | listener
  | client (fd : Int)
deriving DecidableEq

structure System where
  server : ServerState
  pending : List Socket
  sockets : Int → Socket
  notices : Notices Source Bool

/-- What the calls made while one notice is handled answer. -/
structure Answers where
  clientfd : Int
  junk : Junk
  env : Env

inductive Action where
  | connect
  /-- Something arrives on a connection that is not accepted yet. -/
  | early (i : Nat) (x : Arrival)
  | arrive (fd : Int) (x : Arrival)
  | epollWait
  | handle (a : Answers)

namespace System

def start : System := ⟨Server.start, [], fun _ => .fresh, .none⟩

def epollerr (w : System) : Source → Bool
  | .listener => false
  | .client fd => (w.sockets fd).failed

/-- `NewUserHandler`: one connection is accepted, if there is one. -/
def newUserHandler (w : System) (a : Answers) : Act System :=
  match w.pending with
  | [] => return { w with notices := w.notices.next }
  | sock :: pending => do
    let server ← step w.server (.accept a.clientfd a.junk)
    let notices := w.notices.next
    return { server, pending, sockets := Function.update w.sockets a.clientfd sock,
             notices := if sock.readable then notices.raise (.client a.clientfd) else notices }

/-- The body of the loop for a client: one `read`. A close takes the descriptor out of epoll. -/
def handleClient (w : System) (fd : Int) (epollerr : Bool) (env : Env) : Act System := do
  let server ← step w.server ((w.sockets fd).event fd epollerr env)
  let notices := w.notices.next
  return { w with
    server, sockets := Function.update w.sockets fd ((w.sockets fd).afterRead epollerr),
    notices := if (server.conns fd).isSome then notices else notices.forget (.client fd) }

def step (w : System) : Action → Act System
  | .connect => return { w with
      pending := w.pending ++ [.fresh], notices := w.notices.raise .listener }
  | .early i x => return { w with pending := w.pending.modify i (·.get x) }
  | .arrive fd x => return { w with
      sockets := Function.update w.sockets fd ((w.sockets fd).get x),
      notices := w.notices.raise (.client fd) }
  | .epollWait => return { w with notices := w.notices.report MAX_EVENTS w.epollerr }
  | .handle a =>
    match w.notices.batch with
    | [] => return w
    | (.listener, _) :: _ => w.newUserHandler a
    | (.client fd, epollerr) :: _ => w.handleClient fd epollerr a.env

/-- The actions that can happen: `epoll_wait` is called when the last batch is handled, and
returns when there is something to report. -/
def possible (w : System) : Action → Bool
  | .connect => true
  | .early i x => (w.pending[i]?).any (·.mayGet x)
  | .arrive fd x => (w.server.conns fd).isSome ∧ (w.sockets fd).mayGet x
  | .epollWait => w.notices.batch.isEmpty ∧ ¬ w.notices.ready.isEmpty
  | .handle a => ¬ w.notices.batch.isEmpty ∧ 0 ≤ a.clientfd ∧ (w.server.conns a.clientfd).isNone

/-- When a notice is handled, one `accept` or one `read` takes all that is there. -/
def drains (w : System) : Action → Bool
  | .handle _ =>
    match w.notices.batch with
    | (.listener, _) :: _ => w.pending.length ≤ 1
    | (.client fd, epollerr) :: _ => epollerr ∨ (w.sockets fd).inbox.length ≤ BUFF_SIZE
    | [] => true
  | _ => true

/-- Where something is left, a notice is on its way. -/
structure Noticed (w : System) : Prop where
  pending : w.pending ≠ [] → w.notices.Raised .listener
  inbox : ∀ fd, (w.server.conns fd).isSome → (w.sockets fd).inbox ≠ [] →
    w.notices.Raised (.client fd)

theorem Noticed.accept {w w' : System} {err : Bool} {rest : List (Source × Bool)} {a : Answers}
    (H : w.Noticed) (hbatch : w.notices.batch = (.listener, err) :: rest)
    (hone : w.pending.length ≤ 1) (hok : (w.newUserHandler a).result = .ok w') : w'.Noticed := by
  have hnext {fd : Int} (h : w.notices.Raised (.client fd)) : w.notices.next.Raised (.client fd) :=
    h.next hbatch (by simp)
  simp only [newUserHandler] at hok
  cases hpending : w.pending with
  | nil =>
    rw [hpending] at hok
    cases hok
    exact ⟨fun h => absurd rfl h, fun fd hopen hleft => hnext (H.inbox fd hopen hleft)⟩
  | cons sock rest' =>
    rw [hpending] at hok hone
    obtain rfl : rest' = [] := by simpa using hone
    cases hok
    refine ⟨fun h => absurd rfl h, ?_⟩
    intro fd hopen hleft
    by_cases he : fd = a.clientfd
    · subst he
      have hreadable : sock.readable := by
        simp only [Function.update_self] at hleft
        simp [Socket.readable, hleft]
      simp only [hreadable, if_true]
      exact (Notices.raised_raise _ _ _).mpr (.inl rfl)
    · simp only [Function.update_of_ne he] at hopen hleft
      have h := hnext (H.inbox fd hopen hleft)
      split
      · exact (Notices.raised_raise _ _ _).mpr (.inr h)
      · exact h

theorem Noticed.read {w w' : System} {fd : Int} {err : Bool} {rest : List (Source × Bool)} {env : Env}
    (H : w.Noticed) (hbatch : w.notices.batch = (.client fd, err) :: rest)
    (hall : err ∨ (w.sockets fd).inbox.length ≤ BUFF_SIZE)
    (hok : (w.handleClient fd err env).result = .ok w') : w'.Noticed := by
  simp only [handleClient] at hok
  obtain ⟨server, hstep, hok⟩ := Traced.result_bind_ok.mp hok
  cases hok
  have hother {b : Source} (h : w.notices.Raised b) (hne : b ≠ .client fd) :
      (if (server.conns fd).isSome then w.notices.next
        else w.notices.next.forget (.client fd)).Raised b := by
    split
    · exact h.next hbatch hne
    · exact (h.next hbatch hne).forget hne
  refine ⟨fun h => hother (H.pending h) (by simp), ?_⟩
  intro fd' hopen hleft
  by_cases he : fd' = fd
  · subst he
    simp only [Function.update_self, Socket.afterRead] at hleft
    cases err with
    | true =>
      simp only [Socket.event, if_true] at hstep
      rw [step_epollerr hstep] at hopen
      cases hopen
    | false =>
      have hlen : (w.sockets fd').inbox.length ≤ BUFF_SIZE := by simpa using hall
      simp only [Bool.false_eq_true, if_false] at hleft
      exact absurd (List.drop_eq_nil_of_le hlen) hleft
  · simp only [Function.update_of_ne he] at hleft
    have hsame := step_frame hstep (by rwa [Socket.event_fd])
    rw [hsame] at hopen
    exact hother (H.inbox fd' hopen hleft) (by simpa using he)

/-- The step lemma: handling a notice leaves nothing behind that no notice is on its way for, as
long as one `accept` or `read` takes all. -/
theorem Noticed.step {w w' : System} {x : Action} (H : w.Noticed) (hp : w.possible x)
    (hd : w.drains x) (hok : (w.step x).result = .ok w') : w'.Noticed := by
  cases x with
  | connect =>
    cases hok
    refine ⟨fun _ => (Notices.raised_raise _ _ _).mpr (.inl rfl), ?_⟩
    intro fd hopen hleft
    exact (Notices.raised_raise _ _ _).mpr (.inr (H.inbox fd hopen hleft))
  | early i x =>
    cases hok
    refine ⟨?_, H.inbox⟩
    intro hleft
    apply H.pending
    intro hnil
    simp [hnil] at hleft
  | arrive fd x =>
    cases hok
    refine ⟨fun h => (Notices.raised_raise _ _ _).mpr (.inr (H.pending h)), ?_⟩
    intro fd' hopen hleft
    by_cases he : fd' = fd
    · subst he
      exact (Notices.raised_raise _ _ _).mpr (.inl rfl)
    · simp only [Function.update_of_ne he] at hleft
      exact (Notices.raised_raise _ _ _).mpr (.inr (H.inbox fd' hopen hleft))
  | epollWait =>
    have hbatch : w.notices.batch = [] := by
      simp only [possible, Bool.decide_and, Bool.and_eq_true] at hp
      simpa using hp.1
    cases hok
    refine ⟨fun h => (Notices.raised_report hbatch _ _ _).mpr (H.pending h), ?_⟩
    intro fd hopen hleft
    exact (Notices.raised_report hbatch _ _ _).mpr (H.inbox fd hopen hleft)
  | handle a =>
    simp only [System.step] at hok
    simp only [drains] at hd
    cases hbatch : w.notices.batch with
    | nil =>
      rw [hbatch] at hok
      cases hok
      exact H
    | cons p rest =>
      obtain ⟨source, err⟩ := p
      rw [hbatch] at hok hd
      cases source with
      | listener => exact H.accept hbatch (by simpa using hd) hok
      | client fd => exact H.read hbatch (by simpa using hd) hok

/-- No notice is stale: its descriptor is open, and it is there once. -/
structure Registered (w : System) : Prop where
  isOpen : ∀ fd, w.notices.Raised (.client fd) → (w.server.conns fd).isSome
  distinct : w.notices.Distinct

theorem registered_start : start.Registered where
  isOpen _ h := absurd h (Notices.not_raised_none _)
  distinct := Notices.distinct_none

theorem Registered.accept {w w' : System} {a : Answers} (H : w.Registered)
    (hok : (w.newUserHandler a).result = .ok w') : w'.Registered := by
  simp only [newUserHandler] at hok
  cases hpending : w.pending with
  | nil =>
    rw [hpending] at hok
    cases hok
    exact ⟨fun fd h => H.isOpen fd h.of_next, H.distinct.next⟩
  | cons sock rest =>
    rw [hpending] at hok
    cases hok
    have hopen {fd : Int} (h : (w.server.conns fd).isSome ∨ fd = a.clientfd) :
        (Function.update w.server.conns a.clientfd
          (some (createNewClient a.clientfd a.junk)) fd).isSome := by
      by_cases he : fd = a.clientfd
      · rw [he, Function.update_self]
        rfl
      · rw [Function.update_of_ne he]
        exact h.resolve_right he
    constructor
    · intro fd h
      apply hopen
      simp only at h
      split at h
      · rcases (Notices.raised_raise _ _ _).mp h with he | h
        · cases he
          exact .inr rfl
        · exact .inl (H.isOpen fd h.of_next)
      · exact .inl (H.isOpen fd h.of_next)
    · simp only
      split
      · exact H.distinct.next.raise _
      · exact H.distinct.next

theorem Registered.read {w w' : System} {fd : Int} {err : Bool} {rest : List (Source × Bool)}
    {env : Env} (H : w.Registered) (hbatch : w.notices.batch = (.client fd, err) :: rest)
    (hok : (w.handleClient fd err env).result = .ok w') : w'.Registered := by
  simp only [handleClient] at hok
  obtain ⟨server, hstep, hok⟩ := Traced.result_bind_ok.mp hok
  cases hok
  constructor
  · intro fd' h
    by_cases he : fd' = fd
    · subst he
      by_contra hclosed
      simp only [if_neg hclosed] at h
      exact H.distinct.not_raised_forget hbatch h
    · have hsame := step_frame hstep (by rwa [Socket.event_fd])
      rw [hsame]
      apply H.isOpen
      simp only at h
      split at h
      · exact h.of_next
      · exact h.of_forget.of_next
  · simp only
    split
    · exact H.distinct.next
    · exact H.distinct.next.forget _

theorem Registered.step {w w' : System} {x : Action} (H : w.Registered) (hp : w.possible x)
    (hok : (w.step x).result = .ok w') : w'.Registered := by
  have raised {a : Source} (ha : ∀ fd, Source.client fd = a → (w.server.conns fd).isSome) :
      ∀ fd, (w.notices.raise a).Raised (.client fd) → (w.server.conns fd).isSome := by
    intro fd h
    rcases (Notices.raised_raise _ _ _).mp h with he | h
    · exact ha fd he
    · exact H.isOpen fd h
  cases x with
  | connect =>
    cases hok
    exact ⟨raised (by simp), H.distinct.raise _⟩
  | early i x =>
    cases hok
    exact ⟨H.isOpen, H.distinct⟩
  | arrive fd x =>
    have hopen : (w.server.conns fd).isSome := by
      simp only [possible, Bool.decide_and, Bool.and_eq_true, decide_eq_true_eq] at hp
      exact hp.1
    cases hok
    refine ⟨raised ?_, H.distinct.raise _⟩
    rintro _ ⟨⟩
    exact hopen
  | epollWait =>
    have hbatch : w.notices.batch = [] := by
      simp only [possible, Bool.decide_and, Bool.and_eq_true] at hp
      simpa using hp.1
    cases hok
    exact ⟨fun fd h => H.isOpen fd ((Notices.raised_report hbatch _ _ _).mp h), H.distinct.report _ _⟩
  | handle a =>
    simp only [System.step] at hok
    cases hbatch : w.notices.batch with
    | nil =>
      rw [hbatch] at hok
      cases hok
      exact H
    | cons p rest =>
      obtain ⟨source, err⟩ := p
      rw [hbatch] at hok
      cases source with
      | listener => exact H.accept hok
      | client fd => exact H.read hbatch hok

theorem run_registered {log : List (Action × List Effect)} {w : System}
    (run : Run System.step (fun w x => w.possible x) start log w) : w.Registered := by
  refine run.invariant (I := fun _ w => w.Registered) registered_start ?_
  intro _ w w' x H hx hok
  exact H.step hx hok

/-- What handling a notice does to the server is one event of its loop, or nothing. -/
theorem handle_server {w w' : System} {a : Answers} (H : w.Registered) (hp : w.possible (.handle a))
    (hok : (w.step (.handle a)).result = .ok w') :
    (w'.server = w.server ∧ (w.step (.handle a)).effects = []) ∨
      ∃ e, Enabled w.server e ∧ (Server.step w.server e).result = .ok w'.server ∧
        (Server.step w.server e).effects = (w.step (.handle a)).effects := by
  simp only [System.step] at hok ⊢
  cases hbatch : w.notices.batch with
  | nil =>
    rw [hbatch] at hok
    cases hok
    exact .inl ⟨rfl, rfl⟩
  | cons p rest =>
    obtain ⟨source, err⟩ := p
    rw [hbatch] at hok
    cases source with
    | listener =>
      simp only [newUserHandler] at hok ⊢
      cases hpending : w.pending with
      | nil =>
        rw [hpending] at hok
        cases hok
        exact .inl ⟨rfl, rfl⟩
      | cons sock rest' =>
        rw [hpending] at hok
        cases hok
        have hfree : 0 ≤ a.clientfd ∧ w.server.conns a.clientfd = none := by
          simp only [possible, Bool.decide_and, Bool.and_eq_true, decide_eq_true_eq] at hp
          exact ⟨hp.2.1, Option.isNone_iff_eq_none.mp hp.2.2⟩
        exact .inr ⟨.accept a.clientfd a.junk, hfree, rfl, rfl⟩
    | client fd =>
      simp only [handleClient] at hok ⊢
      obtain ⟨server, hstep, hok⟩ := Traced.result_bind_ok.mp hok
      cases hok
      have hraised : w.notices.Raised (.client fd) := by
        right
        rw [hbatch]
        exact List.mem_cons_self
      refine .inr ⟨_, (w.sockets fd).event_enabled err a.env (H.isOpen fd hraised), hstep, ?_⟩
      rw [Traced.eq_mk hstep]
      simp

/-- The server in the kernel's hands runs as its loop does, whatever arrives and when. -/
theorem run_server {log : List (Action × List Effect)} {w : System}
    (run : Run System.step (fun w x => w.possible x) start log w) :
    ∃ log', Run Server.step Enabled Server.start log' w.server ∧
      log'.flatMap Prod.snd = log.flatMap Prod.snd := by
  refine run.simulates System.server rfl ?_
  intro log w w' x run hx hok
  cases x with
  | connect =>
    cases hok
    exact .inl ⟨rfl, rfl⟩
  | early =>
    cases hok
    exact .inl ⟨rfl, rfl⟩
  | arrive =>
    cases hok
    exact .inl ⟨rfl, rfl⟩
  | epollWait =>
    cases hok
    exact .inl ⟨rfl, rfl⟩
  | handle a => exact handle_server (run_registered run) hx hok

end System
end Server
end TeamsInC
