import TeamsInC.Packets
import TeamsInC.Server.Steps

/-!
# What the server writes

The two frames of the server, on their bytes.
-/

set_option autoImplicit false

namespace TeamsInC
namespace Server
open Bytes

theorem encodeHeader_nil (o : ByteOrder) (h : MessageHeader) :
    encodeHeader o h [] = (headerBytes h, 12) := by
  simp only [encodeHeader, store_htonll, store_htons]
  simp (disch := simp) only [poke_end]
  simp [headerBytes]

theorem replyFrame_eq (text : List UInt8) :
    replyFrame text = serverBytes (CString.ofBuffer text).bytes := by
  simp only [replyFrame, encodeMessage, encodeHeader_nil, serverMessage]
  rw [poke_end (by simp), List.take_of_length_le (by simp)]
  rfl

theorem replyFrame_text {text : List UInt8} (h : 0 ∉ text) :
    replyFrame text = serverBytes text := by
  have hbytes : (CString.ofBuffer text).bytes = text :=
    congrArg CString.bytes (CString.ofBuffer_bytes ⟨text, h⟩)
  rw [replyFrame_eq, hbytes]

theorem updateBuff_frame (o : ByteOrder) (h : MessageHeader) (toUserLen : UInt16)
    (toUser : Ptr (List UInt8)) (message : List UInt8) {user : CString} (hu : user.strlen < 65536)
    (hm : message.length < 65536) :
    (updateBuff o ⟨h, toUserLen, toUser, .ofNat message.length, .live message⟩ user).2 =
      headerBytes ⟨h.magic, .ofNat (16 + user.strlen + message.length), h.messageType⟩ ++
        fieldBytes user.bytes message := by
  have hlen : (UInt16.ofNat user.strlen).toNat = user.strlen := UInt16.toNat_ofNat_of_lt' hu
  have hmessage : (UInt16.ofNat message.length).toNat = message.length :=
    UInt16.toNat_ofNat_of_lt' hm
  have huser : user.bytes.take user.strlen = user.bytes := List.take_of_length_le (Nat.le_refl _)
  simp only [updateBuff, encodeHeader_nil, store_htons, Ptr.bytes, hlen, hmessage, huser, List.take_length,
    sizeofMessageHeader]
  simp (disch := simp [CString.strlen] <;> omega) only [poke_end]
  rw [List.take_of_length_le (by simp [CString.strlen]; omega)]
  simp [fieldBytes, CString.strlen]

theorem chatFrame_eq (c : ClientConnData) (m : Mem) (h : MessageHeader) {user : CString}
    (hu : user.strlen < 65536) :
    chatFrame c m h user = headerBytes ⟨h.magic, .ofNat (16 + user.strlen +
      (m.second c.offset).length), h.messageType⟩ ++ fieldBytes user.bytes (m.second c.offset) := by
  have hlt := (m.u16 (m.secondAt c.offset).toNat).toNat_lt
  have hlen : (m.second c.offset).length = (m.u16 (m.secondAt c.offset).toNat).toNat :=
    m.second_length c.offset
  have hframe := updateBuff_frame hostOrder h (m.u16 c.offset.toNat) (.live (m.first c.offset))
    (m.second c.offset) hu (by omega)
  rw [← hframe, hlen, UInt16.ofNat_toNat]
  rfl

/-- A message with its strings, whose lengths are as `createMessage` declares them. -/
structure Declared (msgChat : MessageChat) (name text : List UInt8) : Prop where
  toUser : msgChat.toUser = .live name
  toUserLen : msgChat.toUserLen.toNat = name.length
  message : msgChat.message = .live text
  messageLen : msgChat.messageLen.toNat = text.length
  len : msgChat.header.len.toNat =
    sizeofMessageHeader + msgChat.toUserLen.toNat + msgChat.messageLen.toNat

section
variable {o : ByteOrder} {msgChat : MessageChat} {name text : List UInt8} {user : CString}

theorem updateBuff_len (hu : user.strlen < 65536) :
    (updateBuff o msgChat user).1.header.len.toNat =
      (16 + user.strlen + msgChat.messageLen.toNat) % 65536 := by
  have hlen : (UInt16.ofNat user.strlen).toNat = user.strlen := UInt16.toNat_ofNat_of_lt' hu
  change (UInt16.ofNat (16 + (UInt16.ofNat user.strlen).toNat + msgChat.messageLen.toNat)).toNat = _
  rw [hlen, UInt16.toNat_ofNat']

theorem updateBuff_length (hmessage : msgChat.message = .live text)
    (hlen : msgChat.messageLen.toNat = text.length) (hu : user.strlen < 65536) :
    (updateBuff o msgChat user).2.length = 16 + user.strlen + msgChat.messageLen.toNat := by
  obtain ⟨header, toUserLen, toUser, messageLen, message⟩ := msgChat
  obtain rfl : message = .live text := hmessage
  have hlt := messageLen.toNat_lt
  have hlen : messageLen.toNat = text.length := hlen
  have hframe := updateBuff_frame o header toUserLen toUser text hu (by omega)
  rw [← hlen, UInt16.ofNat_toNat] at hframe
  rw [hframe, List.length_append, headerBytes_length, fieldBytes_length, hlen, ← CString.strlen]
  omega

theorem updateBuff_fits (hmessage : msgChat.message = .live text)
    (hlen : msgChat.messageLen.toNat = text.length)
    (hfits : sizeofMessageHeader + user.strlen + text.length ≤ 65535) :
    (updateBuff o msgChat user).2.length ≤ updateBuffAllocd o msgChat user := by
  rw [sizeofMessageHeader] at hfits
  have hu : user.strlen < 65536 := by omega
  rw [updateBuff_length hmessage hlen hu, updateBuffAllocd, updateBuff_len hu, hlen]
  omega

/-- The frame fills its buffer, whose size is the new length, if and only if the sender's name
and the message are not too long for a length. -/
theorem updateBuff_fills_iff (h : Declared msgChat name text) {password : CString}
    (hu : authVerify user password = 0) :
    ((updateBuff o msgChat user).2.length = (updateBuff o msgChat user).1.header.len.toNat ∧
      updateBuffAllocd o msgChat user = (updateBuff o msgChat user).1.header.len.toNat) ↔
      sizeofMessageHeader + user.strlen + msgChat.messageLen.toNat ≤ 65535 := by
  have hfit := accounts_fit user (authVerify_mem hu).1
  simp only [HbTree.keyBytes] at hfit
  have halloc : updateBuffAllocd o msgChat user = (updateBuff o msgChat user).1.header.len.toNat := rfl
  rw [and_iff_left halloc, updateBuff_length h.message h.messageLen (by omega), updateBuff_len (by omega),
    sizeofMessageHeader]
  constructor
  · intro heq
    have hmod := Nat.mod_lt (16 + user.strlen + msgChat.messageLen.toNat) (by omega : 0 < 65536)
    omega
  · intro hle
    exact (Nat.mod_eq_of_lt (by omega)).symm

end

def user1 : CString := CString.ofBuffer (ascii ['u', 's', 'e', 'r', '1'])

def hiToUser2 : MessageChat :=
  ⟨⟨MAGIC, 23, MSG_TYPE_CHAT_MSG⟩, 5, .live (ascii ['u', 's', 'e', 'r', '2']), 2,
    .live (ascii ['h', 'i'])⟩

theorem hiToUser2_updateBuff_fills_iff :
    ((updateBuff hostOrder hiToUser2 user1).2.length =
        (updateBuff hostOrder hiToUser2 user1).1.header.len.toNat ∧
      updateBuffAllocd hostOrder hiToUser2 user1 =
        (updateBuff hostOrder hiToUser2 user1).1.header.len.toNat) ↔
      sizeofMessageHeader + user1.strlen + hiToUser2.messageLen.toNat ≤ 65535 := by
  have h : Declared hiToUser2 (ascii ['u', 's', 'e', 'r', '2']) (ascii ['h', 'i']) := by
    constructor <;> decide
  exact updateBuff_fills_iff h (by decide : authVerify user1 user1 = 0)

def longestNameless : MessageChat :=
  ⟨⟨MAGIC, 65535, MSG_TYPE_CHAT_MSG⟩, 0, .live [], 65519, .live (List.replicate 65519 0)⟩

theorem longestNameless_overflows :
    Declared longestNameless [] (List.replicate 65519 0) ∧ authVerify user1 user1 = 0 ∧
      ¬ ((updateBuff hostOrder longestNameless user1).2.length =
          (updateBuff hostOrder longestNameless user1).1.header.len.toNat ∧
        updateBuffAllocd hostOrder longestNameless user1 =
          (updateBuff hostOrder longestNameless user1).1.header.len.toNat) := by
  have h : Declared longestNameless [] (List.replicate 65519 0) := by
    refine ⟨rfl, rfl, rfl, ?_, by decide⟩
    rw [List.length_replicate]
    rfl
  have hu : user1.strlen = 5 := by decide
  have hlen : longestNameless.messageLen.toNat = 65519 := rfl
  refine ⟨h, by decide, ?_⟩
  rintro ⟨hfills, _⟩
  rw [updateBuff_length h.message h.messageLen (by omega), updateBuff_len (by omega), hu, hlen] at hfills
  omega

end Server
end TeamsInC
