import TeamsInC.HbTree.Tree
import TeamsInC.Lib.Traced
import TeamsInC.Messages

/-!
# server_handler.c

The handlers on one connection record. Each returns the record as it leaves it; what
others can see of it, and every use of memory that a claim could be about, goes to the
trace. `free` of a block freed before is recorded as `misuse` and has no further effect.
-/

set_option autoImplicit false

namespace TeamsInC
namespace Server
open ByteOrder

def hostOrder : ByteOrder := .little

/-- `SIZE_HEADER` of the server, the padded size. -/
def SIZE_HEADER : Nat := sizeofMessageHeader

/-- What `ptr` of a record points to. Both structures start with the header. -/
inductive Payload where
  | auth (m : MessageAuth)
  | chat (m : MessageChat)
deriving DecidableEq, Repr

def Payload.header : Payload → MessageHeader
  | .auth m => m.header
  | .chat m => m.header

structure ClientConnData where
  ptr : Ptr Payload
  fd : Int
  buff : Ptr (List UInt8)
  bufferUsed : UInt32
  offset : UInt32
  bufferAllocd : UInt32
  clientState : State
  user : Ptr CString
deriving DecidableEq

/-- What memory and sockets answer while one event is handled: the bytes behind the buffer of
the record, the outcomes of `write`, and the `bal` field that a new tree node starts with. -/
structure Env where
  beyond : Nat → UInt8
  write : WriteOracle
  bal : Int8

/-- The blocks of a record, and those that hang off its `ptr`. -/
inductive Item where
  | ptr
  | buff
  | user
  | authUser
  | authPassword
  | toUser
  | message
deriving DecidableEq, Repr

inductive Effect where
  | accept (fd : Int)
  | close (fd : Int)
  /-- A decoder has loaded these ranges of the buffer, of which `used` bytes were received. -/
  | decode (fd : Int) (reads : List (Nat × Nat)) (used : Nat)
  /-- `AuthVerify` has answered for the pair decoded from `buff` at `offset`. -/
  | verify (fd : Int) (buff : List UInt8) (offset : Nat) (user password : CString) (accepted : Bool)
  | insert (key : CString) (fd : Int)
  | remove (key : CString) (found : Bool)
  | reply (fd : Int) (frame accepted : List UInt8)
  | forward (fd : Int) (toUser : CString) (dest : Int) (frame accepted : List UInt8)
  | misuse (fd : Int) (item : Item)
deriving DecidableEq

abbrev Act := Traced Fault Effect

/-- What `malloc` left in the two fields that `CreateNewClient` does not set. -/
structure Junk where
  ptr : Ptr Payload
  user : Ptr CString

def createNewClient (clientfd : Int) (junk : Junk) : ClientConnData where
  ptr := junk.ptr
  fd := clientfd
  buff := .null
  bufferUsed := 0
  offset := 0
  bufferAllocd := 0
  clientState := .initialState
  user := junk.user

def release {α : Type} (fd : Int) (item : Item) (p : Ptr α) : Act Unit :=
  Traced.emit (match p with
    | .freed => [.misuse fd item]
    | _ => [])

def freeClient (client : ClientConnData) : Act Unit := do
  release client.fd .ptr client.ptr
  release client.fd .buff client.buff
  release client.fd .user client.user

def closeConn (client : ClientConnData) : Act Unit := do
  Traced.emit [.close client.fd]
  freeClient client

def resetClient (client : ClientConnData) : Act ClientConnData := do
  release client.fd .ptr client.ptr
  release client.fd .buff client.buff
  release client.fd .user client.user
  return { client with
    ptr := .null, buff := .null, bufferUsed := 0, offset := 0, bufferAllocd := 0,
    clientState := .initialState, user := .null }

def refreshClient (client : ClientConnData) : Act ClientConnData := do
  release client.fd .ptr client.ptr
  release client.fd .buff client.buff
  return { client with
    ptr := .null, buff := .null, bufferUsed := 0, offset := 0, bufferAllocd := 0 }

section
variable (o : ByteOrder)

/-- `encode_header`: the count starts again from 0 and replaces the caller's. -/
def encodeHeader (header : MessageHeader) (buff : List UInt8) : List UInt8 × Nat :=
  let offset := 0
  let buff := poke buff offset (o.store 8 (htonll o header.magic).toNat)
  let offset := offset + 8
  let buff := poke buff offset (o.store 2 (htons o header.len).toNat)
  let offset := offset + 2
  let buff := poke buff offset (o.store 2 (htons o header.messageType).toNat)
  let offset := offset + 2
  (buff, offset)

def encodeMessage (msg : ServerMessage) (buff : List UInt8) : List UInt8 × Nat :=
  let (buff, used) := encodeHeader o msg.header buff
  let text := (CString.ofBuffer msg.message).bytes
  (poke buff used text, used + text.length)

def decodeHeader (inBuffer : Mem) : Decode MessageHeader := inBuffer.fetchHeader o

def decodeMessageAuth (inBuffer : Mem) (authToken : MessageAuth) : Decode MessageAuth := do
  let (userLen, user, passwordLen, password) ← inBuffer.fetchFields o
  return { authToken with userLen, user := .live user, passwordLen, password := .live password }

/-- The body of `decodeMessageChat`, on the buffer and the offset of the record. -/
def decodeChatBody (buff : Mem) (msgChat : MessageChat) : Decode MessageChat := do
  let (toUserLen, toUser, messageLen, message) ← buff.fetchFields o
  return { msgChat with toUserLen, toUser := .live toUser, messageLen, message := .live message }

/-- `updateBuff`: the message gets the sender's name in place of the recipient's, and a new
length; the frame is built in a new buffer. -/
def updateBuff (msgChat : MessageChat) (user : CString) : MessageChat × List UInt8 :=
  let toUserLen := UInt16.ofNat user.strlen
  let len := UInt16.ofNat (sizeofMessageHeader + toUserLen.toNat + msgChat.messageLen.toNat)
  let msgChat := { msgChat with
    toUserLen, header := { msgChat.header with len }, toUser := .live user.bytes }
  let (buff, used) := encodeHeader o msgChat.header []
  let buff := poke buff used (o.store 2 (htons o msgChat.toUserLen).toNat)
  let used := used + 2
  let buff := poke buff used (msgChat.toUser.bytes.take msgChat.toUserLen.toNat)
  let used := used + msgChat.toUserLen.toNat
  let buff := poke buff used (o.store 2 (htons o msgChat.messageLen).toNat)
  let used := used + 2
  let buff := poke buff used (msgChat.message.bytes.take msgChat.messageLen.toNat)
  let used := used + msgChat.messageLen.toNat
  (msgChat, buff.take used)

end

def bufferMem (client : ClientConnData) (env : Env) : Act Mem := do
  return ⟨← Traced.ofExcept client.buff.deref, env.beyond⟩

def verifyHeader (client : ClientConnData) (env : Env) : Act (ClientConnData × Int) := do
  let mem ← bufferMem client env
  let (header, cursor) := decodeHeader hostOrder mem ⟨client.offset, []⟩
  Traced.emit [.decode client.fd cursor.reads client.bufferUsed.toNat]
  if header.magic ≠ MAGIC then
    return ({ client with ptr := .freed, offset := cursor.offset, clientState := .errorState }, -1)
  else
    return ({ client with
      ptr := .live (.auth ⟨header, 0, .null, 0, .null⟩), offset := cursor.offset }, 0)

/-- The accounts user1 to user10, each with its name for a password. -/
def accounts : List CString :=
  [['1'], ['2'], ['3'], ['4'], ['5'], ['6'], ['7'], ['8'], ['9'], ['1', '0']].map fun n =>
    CString.ofBuffer (ascii (['u', 's', 'e', 'r'] ++ n))

def authVerify (user password : CString) : Int :=
  if accounts.any fun a => user = a ∧ password = a then 0 else -1

def authenticate (client : ClientConnData) (tree : HbTree) (env : Env) :
    Act (ClientConnData × HbTree × Int) := do
  let mem ← bufferMem client env
  match ← Traced.ofExcept client.ptr.deref with
  | .chat _ => Traced.fail .dangling
  | .auth authToken =>
    let (temp, cursor) := decodeMessageAuth hostOrder mem authToken ⟨client.offset, []⟩
    Traced.emit [.decode client.fd cursor.reads client.bufferUsed.toNat]
    let user := CString.ofBuffer (← Traced.ofExcept temp.user.deref)
    let password := CString.ofBuffer (← Traced.ofExcept temp.password.deref)
    let answer := authVerify user password
    Traced.emit [.verify client.fd mem.block client.offset.toNat user password (0 ≤ answer)]
    let freed := { temp with user := .freed, password := .freed }
    let client := { client with ptr := .live (.auth freed), offset := cursor.offset }
    if answer < 0 then
      release client.fd .authUser temp.user
      release client.fd .authPassword temp.password
      return (client, tree, -1)
    else
      let (tree, node) ← Traced.ofExcept (tree.hbTreeInsert user client.fd env.bal)
      if node = none then
        release client.fd .authUser temp.user
        release client.fd .authPassword temp.password
        return (client, tree, -1)
      else
        Traced.emit [.insert user client.fd]
        release client.fd .authUser temp.user
        release client.fd .authPassword temp.password
        return ({ client with user := .live user }, tree, 0)

/-- `Write`: no descriptor below 0 accepts anything. -/
def Write (fd : Int) (buff : List UInt8) (write : WriteOracle) : List UInt8 × Int :=
  writeLoop (if fd < 0 then fun _ _ => none else write) buff (buff.length + 1) 0 0

def serverMessage (message : List UInt8) : ServerMessage where
  header := ⟨MAGIC, UInt16.ofNat (12 + (CString.ofBuffer message).strlen), SERVER_INFO⟩
  message := message

def sendMessage (message : List UInt8) (fd : Int) (write : WriteOracle) : Act Int := do
  let (buff, used) := encodeMessage hostOrder (serverMessage message) []
  let frame := buff.take used
  let (accepted, r) := Write fd frame write
  Traced.emit [.reply fd frame accepted]
  return (if r < 0 then -1 else 0)

def header (client : ClientConnData) (env : Env) : Act (ClientConnData × Int) := do
  let mem ← bufferMem client env
  let (header, cursor) := decodeHeader hostOrder mem ⟨client.offset, []⟩
  Traced.emit [.decode client.fd cursor.reads client.bufferUsed.toNat]
  if header.magic ≠ MAGIC then
    return ({ client with ptr := .freed, offset := cursor.offset }, -1)
  else
    return ({ client with
      ptr := .live (.chat ⟨header, 0, .null, 0, .null⟩), offset := cursor.offset }, 0)

def decodeMessageChat (client : ClientConnData) (env : Env) :
    Act (ClientConnData × MessageChat) := do
  let mem ← bufferMem client env
  match ← Traced.ofExcept client.ptr.deref with
  | .auth _ => Traced.fail .dangling
  | .chat msgChat =>
    let (msgChat, cursor) := decodeChatBody hostOrder mem msgChat ⟨client.offset, []⟩
    Traced.emit [.decode client.fd cursor.reads client.bufferUsed.toNat]
    return ({ client with ptr := .live (.chat msgChat), offset := cursor.offset }, msgChat)

end Server
end TeamsInC
