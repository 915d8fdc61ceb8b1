import TeamsInC.Client.Main
import TeamsInC.Packets

/-!
# What the client writes and reads

The encoders write packets over whatever was in memory, and the decoders find frames in any
memory that begins with one.
-/

set_option autoImplicit false

namespace TeamsInC
namespace Client
open Bytes

section
variable (o : ByteOrder)

theorem encodeHeader_mem (h : MessageHeader) (z : List UInt8) :
    encodeHeader o h z 0 = (headerBytes h ++ z.drop 12, 12) := by
  have h0 : poke z 0 (toBytes 8 h.magic.toNat) = toBytes 8 h.magic.toNat ++ z.drop 8 := by
    simp [poke]
  simp only [encodeHeader, store_htonll, store_htons, h0]
  simp (disch := simp) only [poke_mid]
  simp [headerBytes]

theorem encodeFields_mem {aLen bLen : UInt16} {x a b : List UInt8} {used : Nat} (hx : x.length = used)
    (ha : aLen.toNat = a.length) (hb : bLen.toNat = b.length) (z : List UInt8) :
    encodeFields o aLen a bLen b (x ++ z, used) =
      (x ++ fieldBytes a b ++ z.drop (fieldBytes a b).length, used + (fieldBytes a b).length) := by
  subst hx
  simp only [encodeFields, store_htons, ha, hb, List.take_length]
  simp (disch := simp <;> omega) only [poke_mid]
  simp only [fieldBytes, List.append_assoc, List.drop_drop, List.length_append, toBytes_length,
    Nat.add_assoc]

theorem encodeFields_take (aLen bLen : UInt16) (a b : List UInt8) (p : List UInt8 × Nat) :
    encodeFields o aLen (a.take aLen.toNat) bLen (b.take bLen.toNat) p =
      encodeFields o aLen a bLen b p := by
  simp only [encodeFields, List.take_take, Nat.min_self]

theorem encodeAuthMsg_take (h : MessageHeader) (aLen bLen : UInt16) (a b z : List UInt8) :
    encodeAuthMsg o ⟨h, aLen, .live (a.take aLen.toNat), bLen, .live (b.take bLen.toNat)⟩ z 0 =
      encodeAuthMsg o ⟨h, aLen, .live a, bLen, .live b⟩ z 0 := encodeFields_take o aLen bLen a b _

theorem encodeMessageSend_take (h : MessageHeader) (aLen bLen : UInt16) (a b z : List UInt8) :
    encodeMessageSend o ⟨h, aLen, .live (a.take aLen.toNat), bLen, .live (b.take bLen.toNat)⟩ z 0 =
      encodeMessageSend o ⟨h, aLen, .live a, bLen, .live b⟩ z 0 := encodeFields_take o aLen bLen a b _

section
variable {o} {h : MessageHeader} {aLen bLen : UInt16} {a b : List UInt8}

theorem encodeAuthMsg_eq (ha : aLen.toNat = a.length) (hb : bLen.toNat = b.length) (z : List UInt8) :
    encodeAuthMsg o ⟨h, aLen, .live a, bLen, .live b⟩ z 0 =
      (messageBytes h a b ++ z.drop (messageBytes h a b).length, (messageBytes h a b).length) := by
  simp only [encodeAuthMsg, encodeHeader_mem, Ptr.bytes]
  rw [encodeFields_mem o (headerBytes_length h) ha hb, List.drop_drop]
  simp only [messageBytes, List.length_append, headerBytes_length]

theorem encodeMessageSend_eq (ha : aLen.toNat = a.length) (hb : bLen.toNat = b.length)
    (z : List UInt8) :
    encodeMessageSend o ⟨h, aLen, .live a, bLen, .live b⟩ z 0 =
      (messageBytes h a b ++ z.drop (messageBytes h a b).length, (messageBytes h a b).length) := by
  simp only [encodeMessageSend, encodeHeader_mem, Ptr.bytes]
  rw [encodeFields_mem o (headerBytes_length h) ha hb, List.drop_drop]
  simp only [messageBytes, List.length_append, headerBytes_length]

end

theorem encodeAuthMsg_mem {user password : CString} (h : 16 + user.strlen + password.strlen < 65536)
    (z : List UInt8) :
    encodeAuthMsg o (createAuthToken user password) z 0 =
      (packet MSG_TYPE_AUTH user.bytes password.bytes ++
          z.drop (packet MSG_TYPE_AUTH user.bytes password.bytes).length,
        (packet MSG_TYPE_AUTH user.bytes password.bytes).length) := by
  have hu : (UInt16.ofNat user.strlen).toNat = user.bytes.length :=
    UInt16.toNat_ofNat_of_lt' (by simp [UInt16.size]; omega)
  have hp : (UInt16.ofNat password.strlen).toNat = password.bytes.length :=
    UInt16.toNat_ofNat_of_lt' (by simp [UInt16.size]; omega)
  have hheader : (createAuthToken user password).header =
      packetHeader MSG_TYPE_AUTH user.bytes password.bytes := by
    simp only [createAuthToken, packetHeader, hu, hp]
  change encodeAuthMsg o ⟨(createAuthToken user password).header, _, .live user.bytes, _,
    .live password.bytes⟩ z 0 = _
  rw [encodeAuthMsg_eq hu hp, hheader]
  rfl

/-- A message with its header: what `createMessage` fills in, and what the decoder returns. -/
def chatOf (messageType : UInt16) (name message : List UInt8) : MessageChat :=
  ⟨packetHeader messageType name message, .ofNat name.length, .live name, .ofNat message.length,
    .live message⟩

theorem encodeMessageSend_mem {toUser message : List UInt8}
    (h : 16 + toUser.length + message.length < 65536) (z : List UInt8) :
    encodeMessageSend o (chatOf MSG_TYPE_CHAT_MSG toUser message) z 0 =
      (packet MSG_TYPE_CHAT_MSG toUser message ++ z.drop (packet MSG_TYPE_CHAT_MSG toUser message).length,
        (packet MSG_TYPE_CHAT_MSG toUser message).length) := by
  have hu : (UInt16.ofNat toUser.length).toNat = toUser.length :=
    UInt16.toNat_ofNat_of_lt' (by simp [UInt16.size]; omega)
  have hm : (UInt16.ofNat message.length).toNat = message.length :=
    UInt16.toNat_ofNat_of_lt' (by simp [UInt16.size]; omega)
  exact encodeMessageSend_eq hu hm z

end

theorem loginBuffer_eq {user password : CString} (h : 16 + user.strlen + password.strlen < 65536)
    (memory : List UInt8) :
    loginBuffer memory user password = packet MSG_TYPE_AUTH user.bytes password.bytes := by
  rw [loginBuffer, encodeAuthMsg_mem hostOrder h]
  simp only [List.take_left]

theorem chatBuffer_eq {toUser message : List UInt8} (h : 16 + toUser.length + message.length < 65536)
    (memory : List UInt8) :
    chatBuffer memory (chatOf MSG_TYPE_CHAT_MSG toUser message) =
      packet MSG_TYPE_CHAT_MSG toUser message := by
  rw [chatBuffer, encodeMessageSend_mem hostOrder h]
  simp only [List.take_left]

section
variable {write : WriteOracle} {b : List UInt8}

theorem toNat_addBytes {total : UInt64} {k : Nat} (h : total.toNat + k < 2 ^ 64) :
    (total + UInt64.ofNat k).toNat = total.toNat + k := by
  rw [UInt64.toNat_add, UInt64.toNat_ofNat', Nat.mod_eq_of_lt (by omega : k < 2 ^ 64)]
  exact Nat.mod_eq_of_lt h

theorem sendLogin_sends (hw : ∀ call n, 0 < n → write call n ≠ none) (hb : b.length < 2 ^ 64)
    {fuel call : Nat} {total : UInt64} {out : List UInt8}
    (h : sendLogin write b fuel call total = some out) : out = b.drop total.toNat := by
  induction fuel generalizing call total out with
  | zero => cases h
  | succ fuel ih =>
    simp only [sendLogin] at h
    split at h
    · cases hk : write call (b.length - total.toNat) with
      | none => exact absurd hk (hw _ _ (by omega))
      | some k =>
        have hkn := k.isLt
        rw [hk] at h
        obtain ⟨rest, hrest, h⟩ := Option.bind_eq_some_iff.mp h
        cases h
        rw [ih hrest, toNat_addBytes (by omega), ← List.drop_drop, List.take_append_drop]
    · cases h
      rw [List.drop_eq_nil_of_le (by omega)]

theorem sendLogin_ends (hw : ∀ call n, 0 < n → write call n ≠ none) (hb : b.length < 2 ^ 64)
    {fuel call : Nat} {total : UInt64} (hfuel : b.length - total.toNat < fuel) :
    ∃ out, sendLogin write b fuel call total = some out := by
  induction fuel generalizing call total with
  | zero => omega
  | succ fuel ih =>
    simp only [sendLogin]
    split
    · cases hk : write call (b.length - total.toNat) with
      | none => exact absurd hk (hw _ _ (by omega))
      | some k =>
        have hkn := k.isLt
        have hnext : (total + UInt64.ofNat (k + 1)).toNat = total.toNat + (k + 1) :=
          toNat_addBytes (by omega)
        obtain ⟨rest, hrest⟩ := @ih (call + 1) (total + UInt64.ofNat (k + 1)) (by omega)
        exact ⟨(b.drop total.toNat).take (k + 1) ++ rest, by simp only [hrest]; rfl⟩
    · exact ⟨_, rfl⟩

end

theorem decodeMessageRecv_eq (o : ByteOrder) (m : Mem) :
    decodeMessageRecv o m = if (m.header 0).magic ≠ MAGIC then none
      else some ⟨m.header 0, m.u16 12, .live (m.first 12), m.u16 (m.secondAt 12).toNat,
        .live (m.second 12)⟩ := by
  simp only [decodeMessageRecv, decodeHeader, Mem.fetchHeader_eq, Mem.fetchFields_eq]
  rfl

theorem decodeMessageRecv_packet (o : ByteOrder) (messageType : UInt16) {name message : List UInt8}
    (hn : name.length < 65536) (hm : message.length < 65536) (beyond : Nat → UInt8) :
    decodeMessageRecv o ⟨packet messageType name message, beyond⟩ =
      some (chatOf messageType name message) := by
  have hheader : Mem.header ⟨packet messageType name message, beyond⟩ 0 =
      packetHeader messageType name message := Mem.header_at rfl
  obtain ⟨hfirst, hsecond, hfirstLen, hsecondLen⟩ :=
    Mem.fields_at (m := ⟨packet messageType name message, beyond⟩)
      (x := headerBytes (packetHeader messageType name message)) (z := []) (by simp [packet])
      (show _ = (12 : UInt32).toNat from headerBytes_length _) hn hm (by simp; omega)
  rw [decodeMessageRecv_eq, hheader, if_neg (by simp [packetHeader]), hfirst, hsecond, hsecondLen]
  exact congrArg (fun n => some (MessageChat.mk _ n _ _ _)) hfirstLen

theorem decodeServerMessage_at (o : ByteOrder) {m : Mem} {h : MessageHeader} {text z : List UInt8}
    (hm : m.block = headerBytes h ++ (text ++ z)) (hmagic : h.magic = MAGIC)
    (hlen : h.len.toNat = 12 + text.length) :
    decodeServerMessage o m = .ok (some ⟨h, text⟩) := by
  have htext : m.slice 12 text.length = text := Mem.slice_at hm (headerBytes_length h) rfl
  simp only [decodeServerMessage, decodeHeader, Mem.fetchHeader_eq, Mem.header_at hm, hlen, SIZE_HEADER]
  rw [if_neg (not_not.mpr hmagic), if_neg (by omega), Nat.add_sub_cancel_left]
  exact congrArg (fun b => Except.ok (some (ServerMessage.mk h b))) htext

theorem decodeServerMessage_frame (o : ByteOrder) {text : List UInt8} (h : 12 + text.length < 65536)
    (beyond : Nat → UInt8) :
    decodeServerMessage o ⟨serverBytes text, beyond⟩ =
      .ok (some ⟨⟨MAGIC, .ofNat (12 + text.length), SERVER_INFO⟩, text⟩) := by
  refine decodeServerMessage_at (z := []) o ?_ rfl (UInt16.toNat_ofNat_of_lt' h)
  rw [List.append_nil]
  rfl

theorem length_le_of_decoded {o : ByteOrder} {b name message : List UInt8}
    (h : ∀ beyond, ∃ msg, decodeMessageRecv o ⟨b, beyond⟩ = some msg ∧ msg.toUser = .live name ∧
      msg.message = .live message) : 16 + name.length + message.length ≤ b.length := by
  by_contra hlt
  have hlast (x : UInt8) :
      (fieldBytes name message)[3 + name.length + message.length]? = some x := by
    obtain ⟨msg, hmsg, hname, hmessage⟩ := h fun _ => x
    rw [decodeMessageRecv_eq] at hmsg
    split at hmsg
    · cases hmsg
    · cases hmsg
      injection hname with hname
      injection hmessage with hmessage
      have hlen := (Mem.u16 ⟨b, fun _ => x⟩ (12 : UInt32).toNat).toNat_lt
      have hslice := Mem.slice_fields ⟨b, fun _ => x⟩ 12 (by omega : 12 + 4 + _ < _)
      rw [hname, hmessage] at hslice
      have hget : Mem.get ⟨b, fun _ => x⟩ (12 + (3 + name.length + message.length)) = x :=
        dif_neg (by simp only; omega)
      rw [← hslice, Mem.slice, List.getElem?_map, List.getElem?_range (by simp)]
      exact congrArg some hget
  have hsame := (hlast 0).symm.trans (hlast 1)
  simp at hsame

end Client
end TeamsInC
