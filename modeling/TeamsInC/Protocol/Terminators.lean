import TeamsInC.Protocol.Codecs

/-!
# Terminators

The client counts the terminator of a chat text but not that of a name, the decoders of the
server allocate exactly what is counted, and the copies are made into blocks of four different
sizes. No name that a client sends arrives with a terminator.
-/

set_option autoImplicit false

namespace TeamsInC
namespace Protocol

/-- What `strcmp`, `strlen`, `strcpy` and `str_cmp_func` rely on: the block holds a NUL. -/
def Terminated (block : List UInt8) : Prop := 0 ∈ block

/-- A call of `strcpy`: the size of the block it copies to, and the string. -/
structure StrCpy where
  allocd : Nat
  source : CString

def StrCpy.Fits (c : StrCpy) : Prop := c.source.strlen + 1 ≤ c.allocd

/-- In `new_node`: `calloc(sizeof(user), sizeof(char*))`. -/
def keyCopy (user : CString) : StrCpy := ⟨HbTree.keyBytes, user⟩

/-- In `Authenticate`: `calloc(strlen(temp->user), sizeof(char))`. -/
def userCopy (user : CString) : StrCpy := ⟨user.strlen, user⟩

/-- In `updateBuff`: `malloc(msg_chat->to_user_len)`, for the name of the sender. -/
def toUserCopy (user : CString) : StrCpy := ⟨(UInt16.ofNat user.strlen).toNat, user⟩

/-- A login handles its strings as C strings: those decoded and those copied. -/
structure LoginTerminated (t : MessageAuth) : Prop where
  user : Terminated t.user.bytes
  password : Terminated t.password.bytes
  key : (keyCopy (CString.ofBuffer t.user.bytes)).Fits
  recordUser : (userCopy (CString.ofBuffer t.user.bytes)).Fits

/-- A message from `sender` is forwarded with its names as C strings. -/
structure ChatTerminated (t : MessageChat) (sender : CString) : Prop where
  toUser : Terminated t.toUser.bytes
  copy : (toUserCopy sender).Fits

theorem keyCopy_fits_iff (user : CString) : (keyCopy user).Fits ↔ user.strlen < 64 := Nat.lt_iff_add_one_le.symm

theorem userCopy_not_fits (user : CString) : ¬ (userCopy user).Fits := Nat.not_succ_le_self user.strlen

theorem toUserCopy_not_fits (user : CString) : ¬ (toUserCopy user).Fits := by
  intro h
  have hle : (UInt16.ofNat user.strlen).toNat ≤ user.strlen := by
    rw [UInt16.toNat_ofNat']
    exact Nat.mod_le _ _
  exact Nat.not_succ_le_self user.strlen (Nat.le_trans h hle)

section
variable {encoding decoding : ByteOrder} {memory trailing : List UInt8} {beyond : Nat → UInt8}

theorem decoded_login {user password : CString} (hu : user.strlen ≤ 65535) (hp : password.strlen ≤ 65535) :
    (decodeAuth decoding ⟨(Client.encodeAuthMsg encoding (Client.createAuthToken user password) memory 0).1 ++
        trailing, beyond⟩ ⟨0, []⟩).1 =
      authWith (Client.createAuthToken user password).header user.bytes password.bytes :=
  (auth_undoes encoding decoding (Client.createAuthToken user password).header hu hp memory trailing
    beyond).1

theorem decoded_chat {h : MessageHeader} {toUser : CString} {message : List UInt8}
    (hu : toUser.strlen ≤ 65535) (hm : message.length ≤ 65535) :
    (decodeChat decoding ⟨(Client.encodeMessageSend encoding (chatWith h toUser.bytes message) memory 0).1 ++
        trailing, beyond⟩ ⟨0, []⟩).1 = chatWith h toUser.bytes message :=
  (chat_undoes encoding decoding h hu hm memory trailing beyond).1

end

/-- No login packet and no chat packet of the client is handled as the C functions require: no
name arrives terminated, and neither the record nor the forwarded message has room for a
terminator. -/
theorem names_never_terminated (encoding decoding : ByteOrder) (memory trailing : List UInt8)
    (beyond : Nat → UInt8) :
    (∀ user password : CString, user.strlen ≤ 65535 → password.strlen ≤ 65535 →
      ∀ t, t = (decodeAuth decoding
          ⟨(Client.encodeAuthMsg encoding (Client.createAuthToken user password) memory 0).1 ++ trailing,
            beyond⟩ ⟨0, []⟩).1 →
        ¬ LoginTerminated t ∧ ¬ Terminated t.user.bytes ∧ ¬ Terminated t.password.bytes ∧
          ((keyCopy (CString.ofBuffer t.user.bytes)).Fits ↔ user.strlen < 64) ∧
          ¬ (userCopy (CString.ofBuffer t.user.bytes)).Fits) ∧
    (∀ (h : MessageHeader) (toUser sender : CString) (message : List UInt8), toUser.strlen ≤ 65535 →
      message.length ≤ 65535 →
      ∀ t, t = (decodeChat decoding
          ⟨(Client.encodeMessageSend encoding (chatWith h toUser.bytes message) memory 0).1 ++ trailing,
            beyond⟩ ⟨0, []⟩).1 →
        ¬ ChatTerminated t sender ∧ ¬ Terminated t.toUser.bytes ∧ ¬ (toUserCopy sender).Fits) := by
  refine ⟨?_, ?_⟩
  · intro user password hu hp t ht
    rw [decoded_login hu hp] at ht
    subst ht
    refine ⟨fun h => user.noNul h.user, user.noNul, password.noNul, ?_, userCopy_not_fits _⟩
    have hname : CString.ofBuffer (authWith (Client.createAuthToken user password).header user.bytes
        password.bytes).user.bytes = user := CString.ofBuffer_bytes user
    rw [hname]
    exact keyCopy_fits_iff user
  · intro h toUser sender message hu hm t ht
    rw [decoded_chat hu hm] at ht
    subst ht
    exact ⟨fun h => toUser.noNul h.toUser, toUser.noNul, toUserCopy_not_fits sender⟩

theorem user1_not_terminated :
    ¬ LoginTerminated (decodeAuth .little ⟨(Client.encodeAuthMsg .little
        (Client.createAuthToken Server.user1 Server.user1) [] 0).1, fun _ => 0⟩ ⟨0, []⟩).1 := by
  intro h
  exact absurd h.user (by unfold Terminated; decide +kernel)

theorem names_never_terminated_user1 :
    ¬ LoginTerminated (decodeAuth .little ⟨(Client.encodeAuthMsg .little
        (Client.createAuthToken Server.user1 Server.user1) [] 0).1 ++ [], fun _ => 0⟩ ⟨0, []⟩).1 ∧
      ¬ ChatTerminated (decodeChat .little ⟨(Client.encodeMessageSend .little
        (chatWith ⟨MAGIC, 24, MSG_TYPE_CHAT_MSG⟩ Server.user1.bytes (ascii ['h', 'i'] ++ [0])) [] 0).1 ++ [],
          fun _ => 0⟩ ⟨0, []⟩).1 Server.user1 :=
  ⟨((names_never_terminated .little .little [] [] fun _ => 0).1 Server.user1 Server.user1 (by decide)
      (by decide) _ rfl).1,
    ((names_never_terminated .little .little [] [] fun _ => 0).2 ⟨MAGIC, 24, MSG_TYPE_CHAT_MSG⟩ Server.user1
      Server.user1 (ascii ['h', 'i'] ++ [0]) (by decide) (by decide) _ rfl).1⟩

end Protocol
end TeamsInC
