import TeamsInC.Lib.Runs
import TeamsInC.Server.Handler

/-!
# server.c: the event loop

One event is one pass through the body of the loop over `epoll_wait`'s events: a new
connection, an error, or one `read` with its outcome. The records are kept by descriptor,
which the kernel may give out again once it is closed.
-/

set_option autoImplicit false

namespace TeamsInC
namespace Server

inductive Event where
  | accept (clientfd : Int) (junk : Junk)
  | epollerr (fd : Int)
  /-- `read` returns -1. -/
  | again (fd : Int)
  /-- `read` returns 0. -/
  | eof (fd : Int)
  | data (fd : Int) (chunk : Chunk) (env : Env)

structure ServerState where
  conns : Int → Option ClientConnData
  tree : HbTree

def start : ServerState := ⟨fun _ => none, HbTree.hbTreeNew⟩

/-- `if (cdp->user != NULL) hb_tree_remove(Tree, cdp->user)`. -/
def removeUser (client : ClientConnData) (tree : HbTree) : Act HbTree :=
  match client.user with
  | .null => return tree
  | .freed => Traced.fail .dangling
  | .live user => do
    let (tree, found) ← Traced.ofExcept (tree.hbTreeRemove user)
    Traced.emit [.remove user found]
    return tree

/-- Both close paths that look at `user`: EPOLLERR, and `read` returning 0. -/
def dropClient (client : ClientConnData) (tree : HbTree) : Act HbTree := do
  let tree ← removeUser client tree
  closeConn client
  return tree

/-- `malloc` or `realloc` of the buffer, then `memcpy` of the bytes read behind those used. -/
def receive (client : ClientConnData) (chunk : List UInt8) : Except Fault ClientConnData := do
  let ret := UInt32.ofNat chunk.length
  let (old, allocd) ← match client.buff with
    | .null => Except.ok ([], ret)
    | .live old => Except.ok (old, client.bufferAllocd + ret)
    | .freed => Except.error Fault.dangling
  if client.bufferUsed.toNat + chunk.length ≤ allocd.toNat then
    return { client with
      buff := .live (poke old client.bufferUsed.toNat chunk),
      bufferAllocd := allocd, bufferUsed := client.bufferUsed + ret }
  else Except.error Fault.overflow

def caseAuth (client : ClientConnData) (tree : HbTree) (env : Env) :
    Act (Option ClientConnData × HbTree) := do
  let payload ← Traced.ofExcept client.ptr.deref
  if client.bufferUsed.toNat ≥ payload.header.len.toNat then
    let (client, tree, r) ← authenticate client tree env
    if r < 0 then
      let _ ← sendMessage (ascii ['4', '0', '1']) client.fd env.write
      let client ← resetClient client
      return (some client, tree)
    else
      let sent ← sendMessage (ascii ['2', '0', '0']) client.fd env.write
      if sent < 0 then return (some client, tree)
      else
        let client ← refreshClient client
        return (some { client with clientState := .messageState }, tree)
  else return (some client, tree)

/-- `case INITIAL_STATE`, which falls through. -/
def caseInitial (client : ClientConnData) (tree : HbTree) (env : Env) :
    Act (Option ClientConnData × HbTree) := do
  if client.bufferUsed.toNat ≥ SIZE_HEADER then
    let (client, r) ← verifyHeader client env
    if r < 0 then
      closeConn client
      return (none, tree)
    else caseAuth { client with clientState := .authState } tree env
  else return (some client, tree)

/-- Bytes written into a block of this size, with nowhere to go on from if they do not fit. -/
def inBlock (size : Nat) (written : List UInt8) : Except Fault Unit :=
  if written.length ≤ size then .ok () else .error .overflow

/-- A whole chat message is in the buffer: it goes to the recipient under the sender's name. -/
def forwardChat (client : ClientConnData) (tree : HbTree) (env : Env) : Act ClientConnData := do
  let (client, msgChat) ← decodeMessageChat client env
  let toUser := CString.ofBuffer (← Traced.ofExcept msgChat.toUser.deref)
  let senderFd ← Traced.ofExcept (tree.hbTreeSearch toUser)
  release client.fd .buff client.buff
  let user ← Traced.ofExcept client.user.deref
  -- `updateBuff` frees the recipient's name and reads the message
  release client.fd .toUser msgChat.toUser
  let _ ← Traced.ofExcept msgChat.message.deref
  let (msgChat, frame) := updateBuff hostOrder msgChat user
  let client := { client with buff := .live frame }
  Traced.emit [.forward client.fd toUser senderFd frame (Write senderFd frame env.write).1]
  -- `updateBuff` has written the frame into a block of `header.len` bytes
  Traced.ofExcept (inBlock msgChat.header.len.toNat frame)
  release client.fd .toUser msgChat.toUser
  release client.fd .message msgChat.message
  let msgChat := { msgChat with toUser := .freed, message := .freed }
  refreshClient { client with ptr := .live (.chat msgChat) }

def caseMessage (client : ClientConnData) (tree : HbTree) (env : Env) :
    Act (Option ClientConnData × HbTree) := do
  if client.bufferUsed.toNat ≥ SIZE_HEADER then
    let (client, r) ← if client.offset = 0 then header client env else pure (client, 0)
    if r < 0 then
      closeConn client
      return (none, tree)
    else
      let payload ← Traced.ofExcept client.ptr.deref
      if client.bufferUsed.toNat ≥ payload.header.len.toNat then
        return (some (← forwardChat client tree env), tree)
      else return (some client, tree)
  else return (some client, tree)

/-- The part of the loop after a `read` that returned bytes. -/
def handleData (client : ClientConnData) (tree : HbTree) (chunk : List UInt8) (env : Env) :
    Act (Option ClientConnData × HbTree) := do
  let client ← Traced.ofExcept (receive client chunk)
  match client.clientState with
  | .initialState => caseInitial client tree env
  | .authState => caseAuth client tree env
  | .messageState => caseMessage client tree env
  | _ => return (some client, tree)

def step (s : ServerState) : Event → Act ServerState
  | .accept fd junk => do
    Traced.emit [.accept fd]
    return { s with conns := Function.update s.conns fd (some (createNewClient fd junk)) }
  | .epollerr fd =>
    match s.conns fd with
    | none => return s
    | some client => do
      let tree ← dropClient client s.tree
      return { conns := Function.update s.conns fd none, tree }
  | .again _ => return s
  | .eof fd =>
    match s.conns fd with
    | none => return s
    | some client => do
      let tree ← dropClient client s.tree
      return { conns := Function.update s.conns fd none, tree }
  | .data fd chunk env =>
    match s.conns fd with
    | none => return s
    | some client => do
      let (client, tree) ← handleData client s.tree chunk.bytes env
      return { conns := Function.update s.conns fd client, tree }

def steps : ServerState → List Event → Act ServerState
  | s, [] => return s
  | s, e :: es => do
    let s ← step s e
    steps s es

/-- The events that can happen: `accept` returns a descriptor not in use, and `epoll_wait`
reports open connections only. -/
def Enabled (s : ServerState) : Event → Prop
  | .accept fd _ => 0 ≤ fd ∧ s.conns fd = none
  | .epollerr fd => (s.conns fd).isSome
  | .again fd => (s.conns fd).isSome
  | .eof fd => (s.conns fd).isSome
  | .data fd _ _ => (s.conns fd).isSome

instance (s : ServerState) : (e : Event) → Decidable (Enabled s e)
  | .accept fd _ => inferInstanceAs (Decidable (0 ≤ fd ∧ s.conns fd = none))
  | .epollerr fd => inferInstanceAs (Decidable ((s.conns fd).isSome))
  | .again fd => inferInstanceAs (Decidable ((s.conns fd).isSome))
  | .eof fd => inferInstanceAs (Decidable ((s.conns fd).isSome))
  | .data fd _ _ => inferInstanceAs (Decidable ((s.conns fd).isSome))

def quiet : Env := ⟨fun _ => 0, writeAll, 0⟩

def zeroed : Junk := ⟨.null, .null⟩

def getsIn (env : Env) (fd : Int) (bytes : List UInt8) : Event :=
  if h : 0 < bytes.length ∧ bytes.length ≤ 1024 then .data fd ⟨bytes, h.1, h.2⟩ env else .again fd

def gets (fd : Int) (bytes : List UInt8) : Event := getsIn quiet fd bytes

end Server
end TeamsInC
