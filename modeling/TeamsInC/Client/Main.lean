import TeamsInC.Client.Handler

/-!
# client.c: the three states

The client blocks: a loop over `read` goes through the outcomes of its calls and waits where
they end. Each pass through a state allocates a buffer of its own.
-/

set_option autoImplicit false

namespace TeamsInC
namespace Client

def hostOrder : ByteOrder := .little

/-- The loop that sends the login packet. It adds what `write` returned to its count, -1
included, and goes on; `none` if it has not ended after `fuel` calls. -/
def sendLogin (write : WriteOracle) (outBuffer : List UInt8) : Nat → Nat → UInt64 → Option (List UInt8)
  | 0, _, _ => none
  | fuel + 1, call, totalBytesSend =>
    if totalBytesSend.toNat < outBuffer.length then
      match write call (outBuffer.length - totalBytesSend.toNat) with
      | none => sendLogin write outBuffer fuel (call + 1) (totalBytesSend + 0xFFFFFFFFFFFFFFFF)
      | some k => do
        let rest ← sendLogin write outBuffer fuel (call + 1) (totalBytesSend + UInt64.ofNat (k + 1))
        return (outBuffer.drop totalBytesSend.toNat).take (k + 1) ++ rest
    else some []

def loginBuffer (memory : List UInt8) (user password : CString) : List UInt8 :=
  let (outBuffer, used) := encodeAuthMsg hostOrder (createAuthToken user password) memory 0
  outBuffer.take used

def chatBuffer (memory : List UInt8) (msgChat : MessageChat) : List UInt8 :=
  let (buff, buffUsed) := encodeMessageSend hostOrder msgChat memory 0
  buff.take buffUsed

/-- The outcome of a `read` into `temp_buff[1024]`. -/
inductive Read where
  | error
  | eof
  | chunk (c : Chunk)

inductive Stop where
  | blocked
  | fault (f : Fault)
deriving DecidableEq

abbrev Receive := StateT (List Read) (Except Stop)

def Receive.ofExcept {α : Type} (m : Except Fault α) : Receive α := fun reads =>
  match m with
  | .error f => .error (.fault f)
  | .ok a => .ok (a, reads)

/-- The test after each read, on `ntohs(*(uint16_t *)(read_buff+8))`. -/
def isReadFull (readBuff : List UInt8) : Bool :=
  SIZE_HEADER ≤ readBuff.length ∧
    (ntohs hostOrder (UInt16.ofNat (hostOrder.load ((readBuff.drop 8).take 2)))).toNat ≤ readBuff.length

/-- The loop of both receiving states. `bytes_read` is unsigned, so -1 passes the test and is
copied as a count; the buffer is NULL until a read has returned bytes. -/
def readLoop : Ptr (List UInt8) → List Read → Except Stop (Ptr (List UInt8) × List Read)
  | _, [] => .error .blocked
  | _, .error :: _ => .error (.fault .overflow)
  | readBuff, .eof :: rest => .ok (readBuff, rest)
  | readBuff, .chunk c :: rest =>
    let readBuff := readBuff.bytes ++ c.bytes
    if isReadFull readBuff then .ok (.live readBuff, rest) else readLoop (.live readBuff) rest

def readWhole (beyond : Nat → UInt8) : Receive Mem := do
  let readBuff ← Receive.ofExcept (← readLoop .null).deref
  return ⟨readBuff, beyond⟩

/-- The text is printed before the message is tested for NULL. -/
def authAnswer (m : Mem) : Receive State := do
  match ← Receive.ofExcept (decodeServerMessage hostOrder m) with
  | none => Receive.ofExcept (.error .nullDeref)
  | some sMsg =>
    if CString.ofBuffer sMsg.message = CString.ofBuffer (ascii ['2', '0', '0']) then
      return .messageState
    else return .initialState

def authState (beyond : Nat → UInt8) : Receive State := do
  authAnswer (← readWhole beyond)

def chatAnswer (m : Mem) : Receive MessageChat :=
  match decodeMessageRecv hostOrder m with
  | none => Receive.ofExcept (.error .nullDeref)
  | some msgChat => return msgChat

def receiveMessage (beyond : Nat → UInt8) : Receive MessageChat := do
  chatAnswer (← readWhole beyond)

def receiveMessages (beyond : Nat → Nat → UInt8) : Nat → Receive (List MessageChat)
  | 0 => return []
  | n + 1 => do
    let msgChat ← receiveMessage (beyond n)
    let rest ← receiveMessages beyond n
    return msgChat :: rest

def session (beyond : Nat → Nat → UInt8) (n : Nat) : Receive (State × List MessageChat) := do
  let state ← authState (beyond n)
  if state = .messageState then
    let msgs ← receiveMessages beyond n
    return (state, msgs)
  else return (state, [])

end Client
end TeamsInC
