import TeamsInC.Client.Frames
import TeamsInC.Server.DecodeBounds
import TeamsInC.Server.Frames

/-!
# The codecs of the two sides

The encoders and decoders of client and server were written apart. On the bytes they agree:
a decoder finds what an encoder wrote, whatever follows it, and what a decoder has consumed
is what an encoder writes for the value found, on hosts of either byte order.
-/

set_option autoImplicit false

namespace TeamsInC
namespace Protocol
open Bytes

theorem server_encodeHeader_eq (o : ByteOrder) (h : MessageHeader) (z : List UInt8) :
    Server.encodeHeader o h z = (headerBytes h ++ z.drop 12, 12) :=
  Client.encodeHeader_mem o h z

theorem fetchHeader_headerBytes (o : ByteOrder) (h : MessageHeader) (z : List UInt8)
    (beyond : Nat → UInt8) :
    Mem.fetchHeader o ⟨headerBytes h ++ z, beyond⟩ ⟨0, []⟩ = (h, ⟨12, headerReads 0⟩) := by
  rw [Mem.fetchHeader_eq, Mem.header_at rfl]
  rfl

/-- Both sides write a header in network order, and read it from there, whatever the order
of each host. -/
theorem headers_order_independent (encoding decoding : ByteOrder) (h : MessageHeader)
    (memory : List UInt8) :
    Client.encodeHeader encoding h memory 0 = (headerBytes h ++ memory.drop 12, 12) ∧
      Server.encodeHeader encoding h memory = (headerBytes h ++ memory.drop 12, 12) ∧
      ∀ (z : List UInt8) (beyond : Nat → UInt8),
        Client.decodeHeader decoding ⟨headerBytes h ++ z, beyond⟩ ⟨0, []⟩ =
            (h, ⟨12, headerReads 0⟩) ∧
          Server.decodeHeader decoding ⟨headerBytes h ++ z, beyond⟩ ⟨0, []⟩ =
            (h, ⟨12, headerReads 0⟩) := by
  refine ⟨Client.encodeHeader_mem encoding h memory, server_encodeHeader_eq encoding h memory, ?_⟩
  intro z beyond
  exact ⟨fetchHeader_headerBytes decoding h z beyond, fetchHeader_headerBytes decoding h z beyond⟩

def decodeAuth (o : ByteOrder) (m : Mem) : Decode MessageAuth := do
  let header ← Server.decodeHeader o m
  Server.decodeMessageAuth o m ⟨header, 0, .null, 0, .null⟩

def decodeChat (o : ByteOrder) (m : Mem) : Decode MessageChat := do
  let header ← Server.decodeHeader o m
  Server.decodeChatBody o m ⟨header, 0, .null, 0, .null⟩

def authWith (h : MessageHeader) (user password : List UInt8) : MessageAuth :=
  ⟨h, .ofNat user.length, .live user, .ofNat password.length, .live password⟩

def chatWith (h : MessageHeader) (toUser message : List UInt8) : MessageChat :=
  ⟨h, .ofNat toUser.length, .live toUser, .ofNat message.length, .live message⟩

/-- In front of any bytes, `decode` finds what `encode` wrote, and stops where `encode` did. -/
def Undoes {α : Type} (encode : α → List UInt8 → List UInt8 × Nat) (decode : Mem → Decode α)
    (a : α) : Prop :=
  ∀ (memory trailing : List UInt8) (beyond : Nat → UInt8),
    (decode ⟨(encode a memory).1 ++ trailing, beyond⟩ ⟨0, []⟩).1 = a ∧
      (decode ⟨(encode a memory).1 ++ trailing, beyond⟩ ⟨0, []⟩).2.offset.toNat = (encode a memory).2

/-- If `decode` stays inside a buffer, `encode` writes for its value the bytes consumed. -/
def Redoes {α : Type} (encode : α → List UInt8 → List UInt8 × Nat) (decode : Mem → Decode α) : Prop :=
  ∀ (b : List UInt8) (beyond : Nat → UInt8) (memory : List UInt8),
    Inside (decode ⟨b, beyond⟩ ⟨0, []⟩).2.reads b.length →
      (encode (decode ⟨b, beyond⟩ ⟨0, []⟩).1 memory).2 =
          (decode ⟨b, beyond⟩ ⟨0, []⟩).2.offset.toNat ∧
        (encode (decode ⟨b, beyond⟩ ⟨0, []⟩).1 memory).1.take
            (encode (decode ⟨b, beyond⟩ ⟨0, []⟩).1 memory).2 =
          b.take (decode ⟨b, beyond⟩ ⟨0, []⟩).2.offset.toNat

section
variable (o : ByteOrder)

theorem decodeAuth_eq (m : Mem) :
    decodeAuth o m ⟨0, []⟩ =
      (⟨m.header 0, m.u16 12, .live (m.first 12), m.u16 (m.secondAt 12).toNat, .live (m.second 12)⟩,
        ⟨m.fieldsEnd 12, headerReads 0 ++ m.fieldReads 12⟩) := by
  change (let p := m.fetchHeader o ⟨0, []⟩
    let q := m.fetchFields o p.2
    ((⟨p.1, q.1.1, .live q.1.2.1, q.1.2.2.1, .live q.1.2.2.2⟩, q.2) : MessageAuth × Cursor)) = _
  simp only [Mem.fetchHeader_eq, Mem.fetchFields_eq]
  rfl

theorem decodeChat_eq (m : Mem) :
    decodeChat o m ⟨0, []⟩ =
      (⟨m.header 0, m.u16 12, .live (m.first 12), m.u16 (m.secondAt 12).toNat, .live (m.second 12)⟩,
        ⟨m.fieldsEnd 12, headerReads 0 ++ m.fieldReads 12⟩) := by
  change (let p := m.fetchHeader o ⟨0, []⟩
    let q := m.fetchFields o p.2
    ((⟨p.1, q.1.1, .live q.1.2.1, q.1.2.2.1, .live q.1.2.2.2⟩, q.2) : MessageChat × Cursor)) = _
  simp only [Mem.fetchHeader_eq, Mem.fetchFields_eq]
  rfl

end

structure Begins (m : Mem) (h : MessageHeader) (a b : List UInt8) : Prop where
  header : m.header 0 = h
  first : m.first 12 = a
  second : m.second 12 = b
  firstLen : m.u16 12 = .ofNat a.length
  secondLen : m.u16 (m.secondAt 12).toNat = .ofNat b.length

theorem begins_messageBytes (h : MessageHeader) {a b : List UInt8} (ha : a.length ≤ 65535)
    (hb : b.length ≤ 65535) (z : List UInt8) (beyond : Nat → UInt8) :
    Begins ⟨messageBytes h a b ++ z, beyond⟩ h a b := by
  have hblock : messageBytes h a b ++ z = headerBytes h ++ (fieldBytes a b ++ z) :=
    List.append_assoc _ _ _
  obtain ⟨hfirst, hsecond, hfirstLen, hsecondLen⟩ :=
    Mem.fields_at (m := ⟨messageBytes h a b ++ z, beyond⟩) hblock
      (show _ = (12 : UInt32).toNat from headerBytes_length h) (by omega) (by omega) (by simp; omega)
  exact ⟨Mem.header_at hblock, hfirst, hsecond, hfirstLen, hsecondLen⟩

namespace Begins
variable {m : Mem} {h : MessageHeader} {a b : List UInt8}

theorem fieldsEnd (hm : Begins m h a b) : (m.fieldsEnd 12).toNat = (messageBytes h a b).length := by
  rw [fieldsEnd_toNat, hm.first, hm.second, messageBytes_length]

theorem auth (hm : Begins m h a b) (o : ByteOrder) : (decodeAuth o m ⟨0, []⟩).1 = authWith h a b := by
  rw [decodeAuth_eq, hm.header, hm.first, hm.second, hm.firstLen, hm.secondLen]
  rfl

theorem chat (hm : Begins m h a b) (o : ByteOrder) : (decodeChat o m ⟨0, []⟩).1 = chatWith h a b := by
  rw [decodeChat_eq, hm.header, hm.first, hm.second, hm.firstLen, hm.secondLen]
  rfl

theorem recv (hm : Begins m h a b) (o : ByteOrder) (hmagic : h.magic = MAGIC) :
    Client.decodeMessageRecv o m = some (chatWith h a b) := by
  rw [Client.decodeMessageRecv_eq, hm.header, hm.first, hm.second, hm.firstLen, hm.secondLen,
    if_neg (not_not.mpr hmagic)]
  rfl

end Begins

theorem toNat_length {a : List UInt8} (ha : a.length ≤ 65535) : (UInt16.ofNat a.length).toNat = a.length :=
  UInt16.toNat_ofNat_of_lt' (by simp [UInt16.size]; omega)

section
variable (encoding decoding : ByteOrder) (h : MessageHeader) {a b : List UInt8}

theorem auth_undoes (ha : a.length ≤ 65535) (hb : b.length ≤ 65535) :
    Undoes (fun t z => Client.encodeAuthMsg encoding t z 0) (decodeAuth decoding) (authWith h a b) := by
  intro memory trailing beyond
  have hencode := @Client.encodeAuthMsg_eq encoding h _ _ a b (toNat_length ha) (toNat_length hb) memory
  have hm := begins_messageBytes h ha hb
    (memory.drop (messageBytes h a b).length ++ trailing) beyond
  simp only [authWith, hencode, List.append_assoc]
  refine ⟨hm.auth decoding, ?_⟩
  rw [decodeAuth_eq, hm.fieldsEnd]

theorem chat_undoes (ha : a.length ≤ 65535) (hb : b.length ≤ 65535) :
    Undoes (fun t z => Client.encodeMessageSend encoding t z 0) (decodeChat decoding)
      (chatWith h a b) := by
  intro memory trailing beyond
  have hencode := @Client.encodeMessageSend_eq encoding h _ _ a b (toNat_length ha) (toNat_length hb)
    memory
  have hm := begins_messageBytes h ha hb
    (memory.drop (messageBytes h a b).length ++ trailing) beyond
  simp only [chatWith, hencode, List.append_assoc]
  refine ⟨hm.chat decoding, ?_⟩
  rw [decodeChat_eq, hm.fieldsEnd]

theorem relay_decodes {len messageType toUserLen : UInt16} {toUser : Ptr (List UInt8)}
    {name : CString} {message : List UInt8} (hfits : 16 + name.strlen + message.length ≤ 65535)
    (trailing : List UInt8) (beyond : Nat → UInt8) :
    Client.decodeMessageRecv decoding ⟨(Server.updateBuff encoding
        ⟨⟨MAGIC, len, messageType⟩, toUserLen, toUser, .ofNat message.length, .live message⟩ name).2 ++
          trailing, beyond⟩ =
      some (chatWith ⟨MAGIC, .ofNat (16 + name.strlen + message.length), messageType⟩ name.bytes
        message) := by
  have hname : name.bytes.length = name.strlen := rfl
  have hframe := Server.updateBuff_frame encoding ⟨MAGIC, len, messageType⟩ toUserLen toUser message
    (by omega : name.strlen < 65536) (by omega)
  rw [hframe]
  exact (begins_messageBytes _ (by omega) (by omega) trailing beyond).recv decoding rfl

theorem reply_decodes {msg : ServerMessage} (hmagic : msg.header.magic = MAGIC)
    (hlen : msg.header.len.toNat = 12 + (CString.ofBuffer msg.message).strlen)
    (memory trailing : List UInt8) (beyond : Nat → UInt8) :
    Client.decodeServerMessage decoding
        ⟨(Server.encodeMessage encoding msg memory).1 ++ trailing, beyond⟩ =
      .ok (some ⟨msg.header, (CString.ofBuffer msg.message).bytes⟩) := by
  have hencode : (Server.encodeMessage encoding msg memory).1 =
      headerBytes msg.header ++ (CString.ofBuffer msg.message).bytes ++
        (memory.drop 12).drop (CString.ofBuffer msg.message).bytes.length := by
    simp only [Server.encodeMessage, server_encodeHeader_eq]
    exact poke_mid (headerBytes_length _) _ _
  refine Client.decodeServerMessage_at decoding (z := (memory.drop 12).drop
    (CString.ofBuffer msg.message).bytes.length ++ trailing) ?_ hmagic hlen
  rw [hencode]
  simp only [List.append_assoc]

end

theorem begins_read (m : Mem) :
    m.slice 0 (16 + (m.first 12).length + (m.second 12).length) =
      messageBytes (m.header 0) (m.first 12) (m.second 12) := by
  have hu := (m.u16 (12 : UInt32).toNat).toNat_lt
  have hfields := m.slice_fields 12 (by omega : 12 + 4 + _ < _)
  rw [fieldBytes_length] at hfields
  rw [messageBytes, Mem.headerBytes_header, ← hfields,
    (by omega : 16 + (m.first 12).length + (m.second 12).length =
      12 + (4 + (m.first 12).length + (m.second 12).length)), m.slice_add]
  rfl

section
variable (encoding decoding : ByteOrder)

theorem take_fieldsEnd {b : List UInt8} {beyond : Nat → UInt8}
    (h : Inside (headerReads 0 ++ Mem.fieldReads ⟨b, beyond⟩ 12) b.length) :
    b.take (Mem.fieldsEnd ⟨b, beyond⟩ 12).toNat =
      messageBytes (Mem.header ⟨b, beyond⟩ 0) (Mem.first ⟨b, beyond⟩ 12) (Mem.second ⟨b, beyond⟩ 12) := by
  have hfits := (packetReads_inside ⟨b, beyond⟩).mp h
  rw [← begins_read, Mem.slice_eq (by simp only; omega), fieldsEnd_toNat, List.drop_zero]

theorem auth_redoes :
    Redoes (fun t z => Client.encodeAuthMsg encoding t z 0) (decodeAuth decoding) := by
  intro b beyond memory h
  have hfirst : (Mem.u16 ⟨b, beyond⟩ 12).toNat = _ := (Mem.first_length ⟨b, beyond⟩ 12).symm
  simp only [decodeAuth_eq] at h ⊢
  rw [Client.encodeAuthMsg_eq hfirst (Mem.second_length _ 12).symm, take_fieldsEnd h, List.take_left, fieldsEnd_toNat, messageBytes_length]
  exact ⟨rfl, rfl⟩

theorem chat_redoes :
    Redoes (fun t z => Client.encodeMessageSend encoding t z 0) (decodeChat decoding) := by
  intro b beyond memory h
  have hfirst : (Mem.u16 ⟨b, beyond⟩ 12).toNat = _ := (Mem.first_length ⟨b, beyond⟩ 12).symm
  simp only [decodeChat_eq] at h ⊢
  rw [Client.encodeMessageSend_eq hfirst (Mem.second_length _ 12).symm, take_fieldsEnd h, List.take_left, fieldsEnd_toNat, messageBytes_length]
  exact ⟨rfl, rfl⟩

/-- Every wire format is read back as it was written, and written back as it was read. -/
theorem codecs_inverse :
    (∀ (h : MessageHeader) (a b : List UInt8), a.length ≤ 65535 → b.length ≤ 65535 →
      Undoes (fun t z => Client.encodeAuthMsg encoding t z 0) (decodeAuth decoding) (authWith h a b) ∧
      Undoes (fun t z => Client.encodeMessageSend encoding t z 0) (decodeChat decoding)
        (chatWith h a b)) ∧
    (∀ (len messageType toUserLen : UInt16) (toUser : Ptr (List UInt8)) (name : CString)
      (message trailing : List UInt8) (beyond : Nat → UInt8), 16 + name.strlen + message.length ≤ 65535 →
      Client.decodeMessageRecv decoding ⟨(Server.updateBuff encoding
          ⟨⟨MAGIC, len, messageType⟩, toUserLen, toUser, .ofNat message.length, .live message⟩ name).2 ++
            trailing, beyond⟩ =
        some (chatWith ⟨MAGIC, .ofNat (16 + name.strlen + message.length), messageType⟩ name.bytes
          message)) ∧
    (∀ (msg : ServerMessage) (memory trailing : List UInt8) (beyond : Nat → UInt8),
      msg.header.magic = MAGIC →
      msg.header.len.toNat = 12 + (CString.ofBuffer msg.message).strlen →
      Client.decodeServerMessage decoding
          ⟨(Server.encodeMessage encoding msg memory).1 ++ trailing, beyond⟩ =
        .ok (some ⟨msg.header, (CString.ofBuffer msg.message).bytes⟩)) ∧
    Redoes (fun t z => Client.encodeAuthMsg encoding t z 0) (decodeAuth decoding) ∧
    Redoes (fun t z => Client.encodeMessageSend encoding t z 0) (decodeChat decoding) := by
  refine ⟨?_, ?_, ?_, auth_redoes encoding decoding, chat_redoes encoding decoding⟩
  · intro h a b ha hb
    exact ⟨auth_undoes encoding decoding h ha hb, chat_undoes encoding decoding h ha hb⟩
  · intro len messageType toUserLen toUser name message trailing beyond hfits
    exact relay_decodes encoding decoding hfits trailing beyond
  · intro msg memory trailing beyond hmagic hlen
    exact reply_decodes encoding decoding hmagic hlen memory trailing beyond

end

theorem codecs_inverse_words :
    Undoes (fun t z => Client.encodeAuthMsg .big t z 0) (decodeAuth .little)
        (authWith ⟨MAGIC, 24, MSG_TYPE_AUTH⟩ (ascii ['a', 'n', 'n']) (ascii ['k', 'n', 'o', 'c', 'k'])) ∧
      Client.decodeMessageRecv .little ⟨(Server.updateBuff .big ⟨⟨MAGIC, 24, MSG_TYPE_CHAT_MSG⟩, 3,
          .live (ascii ['b', 'o', 'b']), .ofNat (ascii ['h', 'e', 'l', 'l', 'o']).length,
          .live (ascii ['h', 'e', 'l', 'l', 'o'])⟩ ⟨ascii ['a', 'n', 'n'], by decide⟩).2 ++ [186, 220, 205],
          fun _ => 7⟩ =
        some (chatWith ⟨MAGIC, 24, MSG_TYPE_CHAT_MSG⟩ (ascii ['a', 'n', 'n'])
          (ascii ['h', 'e', 'l', 'l', 'o'])) ∧
      Client.decodeServerMessage .little
          ⟨(Server.encodeMessage .big ⟨⟨MAGIC, 15, SERVER_INFO⟩, ascii ['4', '0', '1']⟩ []).1 ++ [186, 220],
            fun _ => 7⟩ =
        .ok (some ⟨⟨MAGIC, 15, SERVER_INFO⟩, ascii ['4', '0', '1']⟩) ∧
      (Client.encodeAuthMsg .big (decodeAuth .little ⟨messageBytes ⟨MAGIC, 24, MSG_TYPE_AUTH⟩
          (ascii ['a', 'n', 'n']) (ascii ['k', 'n', 'o', 'c', 'k']), fun _ => 7⟩ ⟨0, []⟩).1 [] 0).2 =
        (decodeAuth .little ⟨messageBytes ⟨MAGIC, 24, MSG_TYPE_AUTH⟩ (ascii ['a', 'n', 'n'])
          (ascii ['k', 'n', 'o', 'c', 'k']), fun _ => 7⟩ ⟨0, []⟩).2.offset.toNat := by
  obtain ⟨hundo, hrelay, hreply, hredo, _⟩ := codecs_inverse .big .little
  refine ⟨(hundo _ _ _ (by decide) (by decide)).1, ?_, ?_, (hredo _ _ [] (by decide +kernel)).1⟩
  · exact hrelay 24 MSG_TYPE_CHAT_MSG 3 (.live (ascii ['b', 'o', 'b'])) ⟨ascii ['a', 'n', 'n'], by decide⟩
      (ascii ['h', 'e', 'l', 'l', 'o']) [186, 220, 205] (fun _ => 7) (by decide)
  · exact hreply ⟨⟨MAGIC, 15, SERVER_INFO⟩, ascii ['4', '0', '1']⟩ [] [186, 220] (fun _ => 7) rfl (by decide)

end Protocol
end TeamsInC
