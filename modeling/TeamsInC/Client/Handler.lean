import TeamsInC.Sending

/-!
# client_handler.c

The client's side of the protocol. Its `SIZE_HEADER` is the twelve bytes that a header takes
on the wire, while the lengths it declares count `sizeof(message_header_t)`.
-/

set_option autoImplicit false

namespace TeamsInC
namespace Client

def SIZE_HEADER : Nat := 12

def createAuthToken (user password : CString) : MessageAuth :=
  let userLen := UInt16.ofNat user.strlen
  let passwordLen := UInt16.ofNat password.strlen
  { header := ⟨MAGIC, UInt16.ofNat (sizeofMessageHeader + userLen.toNat + passwordLen.toNat),
      MSG_TYPE_AUTH⟩
    userLen, user := .live user.bytes, passwordLen, password := .live password.bytes }

def isSpace (c : UInt8) : Bool := c = 32 ∨ 9 ≤ c ∧ c ≤ 13

def newline : UInt8 := 10

/-- `scanf("%ms")`: the word, and what is left of the input. Where the input ends before a
word, nothing is stored. -/
def scanWord (stdin : List UInt8) : Option (List UInt8) × List UInt8 :=
  let stdin := stdin.dropWhile isSpace
  let word := stdin.takeWhile fun c => !isSpace c
  (if word = [] then none else some word, stdin.dropWhile fun c => !isSpace c)

/-- A field of `createAuthToken`. Without a word it stays NULL, and `strlen` follows it. -/
def scanField (stdin : List UInt8) : Except Fault (CString × List UInt8) :=
  match scanWord stdin with
  | (none, _) => .error .nullDeref
  | (some word, stdin) => .ok (CString.ofBuffer word, stdin)

/-- What `createAuthToken` asks for: the user and the password. -/
def scanCredentials (stdin : List UInt8) : Except Fault (CString × CString) := do
  let (user, stdin) ← scanField stdin
  let (password, _) ← scanField stdin
  return (user, password)

/-- `while ((c = getchar()) != '\n' && c != EOF)`. -/
def skipLine (stdin : List UInt8) : List UInt8 := (stdin.dropWhile (· ≠ newline)).tail

/-- `getline` with a size of 0: its result, the block it allocates, and what is left of the
input. At the end of the input the block holds nothing. -/
def getLine (stdin : List UInt8) : Int × List UInt8 × List UInt8 :=
  if stdin = [] then (-1, [], [])
  else
    let rest := stdin.dropWhile (· ≠ newline)
    let line := stdin.takeWhile (· ≠ newline) ++ rest.take 1
    (line.length, line ++ [0], rest.tail)

/-- `message[len-1] = '\0'`. -/
def terminate (message : List UInt8) (len : UInt16) : Except Fault (List UInt8) :=
  if 0 < len.toNat ∧ len.toNat ≤ message.length then .ok (message.set (len.toNat - 1) 0)
  else .error .overflow

section
variable (o : ByteOrder)

/-- `encode_header`: it counts on from the caller's `out_buffer_used`, but stores the magic at
the start. -/
def encodeHeader (header : MessageHeader) (outBuffer : List UInt8) (outBufferUsed : Nat) :
    List UInt8 × Nat :=
  let outBuffer := poke outBuffer 0 (o.store 8 (htonll o header.magic).toNat)
  let outBufferUsed := outBufferUsed + 8
  let outBuffer := poke outBuffer outBufferUsed (o.store 2 (htons o header.len).toNat)
  let outBufferUsed := outBufferUsed + 2
  let outBuffer := poke outBuffer outBufferUsed (o.store 2 (htons o header.messageType).toNat)
  let outBufferUsed := outBufferUsed + 2
  (outBuffer, outBufferUsed)

def encodeFields (aLen : UInt16) (a : List UInt8) (bLen : UInt16) (b : List UInt8)
    (p : List UInt8 × Nat) : List UInt8 × Nat :=
  let (buff, used) := p
  let buff := poke buff used (o.store 2 (htons o aLen).toNat)
  let used := used + 2
  let buff := poke buff used (a.take aLen.toNat)
  let used := used + aLen.toNat
  let buff := poke buff used (o.store 2 (htons o bLen).toNat)
  let used := used + 2
  let buff := poke buff used (b.take bLen.toNat)
  let used := used + bLen.toNat
  (buff, used)

def encodeAuthMsg (authToken : MessageAuth) (outBuffer : List UInt8) (outBufferUsed : Nat) :
    List UInt8 × Nat :=
  encodeFields o authToken.userLen authToken.user.bytes authToken.passwordLen authToken.password.bytes
    (encodeHeader o authToken.header outBuffer outBufferUsed)

def encodeMessageSend (msgChat : MessageChat) (buff : List UInt8) (buffUsed : Nat) :
    List UInt8 × Nat :=
  encodeFields o msgChat.toUserLen msgChat.toUser.bytes msgChat.messageLen msgChat.message.bytes
    (encodeHeader o msgChat.header buff buffUsed)

structure Created where
  buff : List UInt8
  buffUsed : Nat
  allocd : Nat
  stdin : List UInt8
deriving DecidableEq, Repr

/-- `createMessage`: `memory` is what its buffer held before. Without a word the pointer
`to_user` is not set. -/
def createMessage (memory stdin : List UInt8) (buffUsed : Nat) : Except Fault Created := do
  let (word, stdin) := scanWord stdin
  let toUser ← match word with
    | none => Except.error Fault.dangling
    | some word => Except.ok word
  let toUserLen := UInt16.ofNat (CString.ofBuffer toUser).strlen
  let stdin := skipLine stdin
  let (result, message, stdin) := getLine stdin
  let len := UInt16.ofInt result
  let message ← terminate message len
  let header : MessageHeader :=
    ⟨MAGIC, UInt16.ofNat (sizeofMessageHeader + toUserLen.toNat + len.toNat), MSG_TYPE_CHAT_MSG⟩
  let msgChat : MessageChat := ⟨header, toUserLen, .live toUser, len, .live message⟩
  let (buff, buffUsed) := encodeMessageSend o msgChat memory buffUsed
  return { buff, buffUsed, allocd := header.len.toNat, stdin }

def decodeHeader (buff : Mem) : Decode MessageHeader := buff.fetchHeader o

/-- `decode_server_message`; `none` is NULL. A `len` below 12 makes the count of the copy
negative. -/
def decodeServerMessage (buff : Mem) : Except Fault (Option ServerMessage) :=
  let (header, cursor) := decodeHeader o buff ⟨0, []⟩
  if header.magic ≠ MAGIC then .ok none
  else if header.len.toNat < SIZE_HEADER then .error .overflow
  else .ok (some ⟨header, (buff.fetch (header.len.toNat - SIZE_HEADER) cursor).1⟩)

def decodeMessageRecv (buff : Mem) : Option MessageChat :=
  let (header, cursor) := decodeHeader o buff ⟨0, []⟩
  if header.magic ≠ MAGIC then none
  else
    let (toUserLen, toUser, messageLen, message) := (buff.fetchFields o cursor).1
    some ⟨header, toUserLen, .live toUser, messageLen, .live message⟩

end

/-- `sendMessage`: the calls of `write` that it makes, and 0 or -1. No descriptor below 0
accepts anything. -/
def sendMessage (fd : Int) (buff : List UInt8) (write : WriteOracle) : Option (List WriteCall × Int) :=
  sendLoop (if fd < 0 then fun _ _ => none else write) (UInt32.ofNat buff.length) (buff.length + 1) 0 0

end Client
end TeamsInC
