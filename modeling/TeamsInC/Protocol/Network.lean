import TeamsInC.Client.Login
import TeamsInC.Lib.Channel
import TeamsInC.Protocol.LoginAgreement
import TeamsInC.Server.Service

/-!
# The network

The server, its clients and the bytes between them. Each party takes its steps when it likes:
a login or a message is typed at a client, a client or the server reads some of the bytes that
have come for it, a connection is made, closed or lost. What is typed and shown at the clients
goes to the trace beside what the server does.
-/

set_option autoImplicit false

namespace TeamsInC
namespace Protocol
open Client Server

/-- A message that is typed. Its packet, and the frame that goes out under any account's name, are
not too long for their lengths. -/
structure Chat where
  toUser : CString
  text : List UInt8
  fits : 16 + toUser.strlen + text.length < 65536
  relayable : ∀ u ∈ accounts, 16 + u.strlen + text.length < 65536

namespace Chat

def packet (m : Chat) : Packet := ⟨MSG_TYPE_CHAT_MSG, m.toUser.bytes, m.text, m.fits⟩

def frame (m : Chat) (user : CString) : List UInt8 :=
  TeamsInC.packet MSG_TYPE_CHAT_MSG user.bytes m.text

end Chat

/-- A client at its end of a connection, and what is on the way between it and the server. -/
structure Link where
  state : State
  /-- The reads of the pass through a receiving state that the client is in. -/
  got : List Chunk
  isOpen : Bool
  toServer : List UInt8
  toClient : List UInt8

inductive Happening where
  | connected (fd : Int)
  | asked (fd : Int) (a : Attempt)
  | typed (fd : Int) (m : Chat)
  | shown (fd : Int) (msgChat : MessageChat)
  | server (x : Effect)

/-- One `read` of a client. It ends a pass, or the client goes on reading. -/
def Link.receive (l : Link) (fd : Int) (chunk : Chunk) (beyond : Nat → UInt8) :
    Traced Fault Happening Link :=
  let got := l.got ++ [chunk]
  let toClient := l.toClient.drop chunk.bytes.length
  match l.state with
  | .authState =>
    match authState beyond (chunks got) with
    | .error .blocked => return { l with got, toClient }
    | .error (.fault f) => Traced.fail f
    | .ok (state, _) => return { l with state, got := [], toClient }
  | .messageState =>
    match receiveMessage beyond (chunks got) with
    | .error .blocked => return { l with got, toClient }
    | .error (.fault f) => Traced.fail f
    | .ok (msgChat, _) => do
      Traced.emit [.shown fd msgChat]
      return { l with got := [], toClient }
  | _ => return l

structure Network where
  server : ServerState
  links : Int → Option Link

namespace Network

def start : Network := ⟨Server.start, fun _ => none⟩

inductive Move where
  | connect (fd : Int) (junk : Junk)
  /-- INITIAL_STATE of the client, over what was in memory. -/
  | login (fd : Int) (a : Attempt) (memory : List UInt8)
  /-- Option 1 of MESSAGE_STATE. -/
  | write (fd : Int) (m : Chat) (memory : List UInt8)
  /-- A `read` in AUTH_STATE or in option 2 of MESSAGE_STATE. -/
  | receive (fd : Int) (chunk : Chunk) (beyond : Nat → UInt8)
  | serve (fd : Int) (chunk : Chunk) (env : Env)
  /-- The client closes its socket. -/
  | leave (fd : Int)
  /-- The server's `read` returns 0. -/
  | finish (fd : Int)
  /-- EPOLLERR. -/
  | lose (fd : Int)

def setLink (net : Network) (fd : Int) (l : Option Link) : Network :=
  { net with links := Function.update net.links fd l }

def transmit (effs : List Effect) (links : Int → Option Link) (fd : Int) : Option Link :=
  (links fd).map fun l => { l with toClient := l.toClient ++ sentTo fd effs }

def serverStep (net : Network) (e : Event) : Traced Fault Happening Network :=
  let m := Server.step net.server e
  ⟨m.effects.map .server, m.result.map fun server => ⟨server, transmit m.effects net.links⟩⟩

def step (net : Network) : Move → Traced Fault Happening Network
  | .connect fd junk => do
    let net ← net.serverStep (.accept fd junk)
    Traced.emit [.connected fd]
    return net.setLink fd (some ⟨.initialState, [], true, [], []⟩)
  | .login fd a memory =>
    match net.links fd with
    | none => return net
    | some l => do
      Traced.emit [.asked fd a]
      let toServer := l.toServer ++ loginBuffer memory a.user a.password
      return net.setLink fd (some { l with state := .authState, toServer })
  | .write fd m memory =>
    match net.links fd with
    | none => return net
    | some l => do
      Traced.emit [.typed fd m]
      let toServer := l.toServer ++ chatBuffer memory (chatOf MSG_TYPE_CHAT_MSG m.toUser.bytes m.text)
      return net.setLink fd (some { l with toServer })
  | .receive fd chunk beyond =>
    match net.links fd with
    | none => return net
    | some l => do
      let l ← l.receive fd chunk beyond
      return net.setLink fd (some l)
  | .serve fd chunk env =>
    match net.links fd with
    | none => return net
    | some l =>
      let toServer := l.toServer.drop chunk.bytes.length
      (net.setLink fd (some { l with toServer })).serverStep (.data fd chunk env)
  | .leave fd =>
    match net.links fd with
    | none => return net
    | some l => return net.setLink fd (some { l with isOpen := false })
  | .finish fd => do
    let net ← net.serverStep (.eof fd)
    return net.setLink fd none
  | .lose fd => do
    let net ← net.serverStep (.epollerr fd)
    return net.setLink fd none

section
variable {net net' : Network} {fd : Int}

theorem transmit_nil (links : Int → Option Link) : transmit [] links = links := by
  funext fd'
  cases h : links fd' with
  | none => simp [transmit, h]
  | some l => simp [transmit, h, sentTo]

theorem step_connect {junk : Junk} (hok : (net.step (.connect fd junk)).result = .ok net') :
    net' = ⟨{ net.server with conns := Function.update net.server.conns fd (some (createNewClient fd junk)) },
      Function.update net.links fd (some ⟨.initialState, [], true, [], []⟩)⟩ ∧
      (net.step (.connect fd junk)).effects = [.server (.accept fd), .connected fd] := by
  have hquiet : transmit [.accept fd] net.links = net.links := transmit_nil _
  refine ⟨?_, rfl⟩
  rw [← hquiet]
  exact (Except.ok.inj hok).symm

theorem step_serve {l : Link} (hl : net.links fd = some l) {chunk : Chunk} {env : Env}
    (hok : (net.step (.serve fd chunk env)).result = .ok net') :
    ∃ s', (Server.step net.server (.data fd chunk env)).result = .ok s' ∧
      net' = ⟨s', transmit (Server.step net.server (.data fd chunk env)).effects (Function.update net.links fd
        (some { l with toServer := l.toServer.drop chunk.bytes.length }))⟩ ∧
      (net.step (.serve fd chunk env)).effects =
        (Server.step net.server (.data fd chunk env)).effects.map .server := by
  simp only [step, hl] at hok ⊢
  simp only [serverStep, setLink] at hok
  cases hres : (Server.step net.server (.data fd chunk env)).result with
  | error f =>
    rw [hres] at hok
    cases hok
  | ok s' =>
    rw [hres] at hok
    exact ⟨s', rfl, (Except.ok.inj hok).symm, rfl⟩

theorem step_close {e : Move} {se : Event} (hstep : net.step e = do
      let net ← net.serverStep se
      return net.setLink fd none)
    (hok : (net.step e).result = .ok net') :
    ∃ s', (Server.step net.server se).result = .ok s' ∧
      net' = ⟨s', Function.update (transmit (Server.step net.server se).effects net.links) fd none⟩ ∧
      (net.step e).effects = (Server.step net.server se).effects.map .server := by
  rw [hstep] at hok ⊢
  simp only [serverStep] at hok ⊢
  cases hres : (Server.step net.server se).result with
  | error f =>
    rw [hres] at hok
    cases hok
  | ok s' =>
    rw [hres] at hok
    exact ⟨s', rfl, (Except.ok.inj hok).symm, by simp [Except.map]⟩

end

/-- What has been read since the last frame does not go past the length in its header. -/
def within (b : List UInt8) : Bool := b.length < 12 ∨ b.length ≤ (headerOf b).len.toNat

/-- A login that the bytes complete, and that is accepted, is of a name that has no entry. -/
def freshName (s : ServerState) (fd : Int) (chunk : Chunk) (env : Env) : Bool :=
  match arrived s fd chunk with
  | none => true
  | some (c, b) => completesLogin c (env.mem b) →
      ∀ u ∈ loginName c (env.mem b), ∀ p ∈ s.tree.pairs, p.1 ≠ u

def buffered (s : ServerState) (fd : Int) : List UInt8 :=
  match s.conns fd with
  | none => []
  | some c => c.buff.bytes

/-- A login packet fits the client's buffer, what is read is there and lies in one frame, no name
logs in twice, and the server reads the end of a connection when it has read everything before. -/
def permitted (net : Network) : Move → Bool
  | .connect fd junk => Enabled net.server (.accept fd junk) ∧ startsNameless (.accept fd junk)
  | .login fd a _ => (net.links fd).any fun l =>
      l.isOpen ∧ l.state = .initialState ∧ a.packet.wire.length ≤ sizeofMessageAuth
  | .write fd _ _ => (net.links fd).any fun l => l.isOpen ∧ l.state = .messageState ∧ l.got = []
  | .receive fd chunk _ => (net.links fd).any fun l =>
      l.isOpen ∧ l.state ≠ .initialState ∧ chunk.bytes <+: l.toClient ∧
        within (l.got.flatMap Chunk.bytes ++ chunk.bytes)
  | .serve fd chunk env => (net.links fd).any fun l =>
      (net.server.conns fd).isSome ∧ chunk.bytes <+: l.toServer ∧
        within (buffered net.server fd ++ chunk.bytes) ∧ freshName net.server fd chunk env
  | .leave fd => (net.links fd).any fun l => l.isOpen
  | .finish fd => (net.links fd).any fun l =>
      (net.server.conns fd).isSome ∧ ¬l.isOpen ∧ l.toServer = []
  | .lose fd => (net.server.conns fd).isSome

def Move.Writes : Move → Prop
  | .serve _ _ env => env.Writes
  | _ => True

end Network

/-- Since the connection was made: the last login asked for, the messages typed, the frames made of
them with the recipients, the frames that have come for this connection with the name they were
for, and the messages shown. -/
structure Ledger where
  asked : Option Attempt
  sent : List Chat
  forwarded : List (CString × List UInt8)
  routed : List (CString × List UInt8)
  shown : List MessageChat

namespace Ledger

def new : Ledger := ⟨none, [], [], [], []⟩

def record (fd : Int) (g : Ledger) : Happening → Ledger
  | .connected fd' => if fd' = fd then new else g
  | .asked fd' a => if fd' = fd then { g with asked := some a } else g
  | .typed fd' m => if fd' = fd then { g with sent := g.sent ++ [m] } else g
  | .shown fd' msgChat => if fd' = fd then { g with shown := g.shown ++ [msgChat] } else g
  | .server (.forward fd' toUser dest frame accepted) =>
    { g with
      forwarded := if fd' = fd then g.forwarded ++ [(toUser, frame)] else g.forwarded
      routed := if dest = fd then g.routed ++ [(toUser, accepted)] else g.routed }
  | .server _ => g

end Ledger

def ledger (fd : Int) (xs : List Happening) : Ledger := xs.foldl (Ledger.record fd) .new

def happenings (log : List (Network.Move × List Happening)) : List Happening := log.flatMap Prod.snd

end Protocol
end TeamsInC
