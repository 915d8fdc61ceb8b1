import TeamsInC.Messages

/-!
# Packets on the wire

What the encoders of both sides write and what their decoders find in it, stated on the
bytes: a header of twelve bytes, then two byte strings, each after its length.
-/

set_option autoImplicit false

namespace TeamsInC
open Bytes

def headerBytes (h : MessageHeader) : List UInt8 :=
  toBytes 8 h.magic.toNat ++ (toBytes 2 h.len.toNat ++ toBytes 2 h.messageType.toNat)

@[simp] theorem headerBytes_length (h : MessageHeader) : (headerBytes h).length = 12 := by
  simp [headerBytes]

def fieldBytes (a b : List UInt8) : List UInt8 :=
  toBytes 2 a.length ++ (a ++ (toBytes 2 b.length ++ b))

@[simp] theorem fieldBytes_length (a b : List UInt8) :
    (fieldBytes a b).length = 4 + a.length + b.length := by
  simp [fieldBytes]
  omega

def messageBytes (h : MessageHeader) (a b : List UInt8) : List UInt8 := headerBytes h ++ fieldBytes a b

theorem messageBytes_length (h : MessageHeader) (a b : List UInt8) :
    (messageBytes h a b).length = 16 + a.length + b.length := by
  simp [messageBytes]
  omega

/-- The header of a packet with these two strings. `sizeof(message_header_t)` stands in its
length for twelve bytes of header and the two lengths. -/
def packetHeader (messageType : UInt16) (a b : List UInt8) : MessageHeader :=
  ⟨MAGIC, UInt16.ofNat (sizeofMessageHeader + a.length + b.length), messageType⟩

def packet (messageType : UInt16) (a b : List UInt8) : List UInt8 :=
  headerBytes (packetHeader messageType a b) ++ fieldBytes a b

@[simp] theorem packet_length (messageType : UInt16) (a b : List UInt8) :
    (packet messageType a b).length = 16 + a.length + b.length := by
  simp [packet]
  omega

theorem packetHeader_len {messageType : UInt16} {a b : List UInt8}
    (h : 16 + a.length + b.length < 65536) :
    (packetHeader messageType a b).len.toNat = 16 + a.length + b.length :=
  UInt16.toNat_ofNat_of_lt' h

/-- What a client sends: two strings whose packet is not too long for its length. -/
structure Packet where
  messageType : UInt16
  first : List UInt8
  second : List UInt8
  fits : 16 + first.length + second.length < 65536

namespace Packet

def header (p : Packet) : MessageHeader := packetHeader p.messageType p.first p.second

def wire (p : Packet) : List UInt8 := packet p.messageType p.first p.second

theorem wire_length (p : Packet) : p.wire.length = 16 + p.first.length + p.second.length :=
  packet_length _ _ _

theorem header_len (p : Packet) : p.header.len.toNat = p.wire.length := by
  rw [header, packetHeader_len p.fits, wire_length]

theorem wire_eq (p : Packet) : p.wire = headerBytes p.header ++ fieldBytes p.first p.second := rfl

end Packet

/-- A server message: the header counts its twelve bytes only. -/
def serverBytes (text : List UInt8) : List UInt8 :=
  headerBytes ⟨MAGIC, UInt16.ofNat (12 + text.length), SERVER_INFO⟩ ++ text

theorem poke_mid {x : List UInt8} {i : Nat} (h : x.length = i) (z b : List UInt8) :
    poke (x ++ z) i b = x ++ b ++ z.drop b.length := by
  subst h
  simp [poke]

theorem poke_end {buff : List UInt8} {i : Nat} (h : buff.length = i) (b : List UInt8) :
    poke buff i b = buff ++ b := by
  subst h
  simp [poke]

namespace Mem
variable {m : Mem}

theorem first_length (m : Mem) (offset : UInt32) :
    (m.first offset).length = (m.u16 offset.toNat).toNat := m.slice_length _ _

theorem second_length (m : Mem) (offset : UInt32) :
    (m.second offset).length = (m.u16 (m.secondAt offset).toNat).toNat := m.slice_length _ _

theorem slice_at {x y z : List UInt8} {i n : Nat} (h : m.block = x ++ (y ++ z)) (hi : x.length = i)
    (hn : y.length = n) : m.slice i n = y := by
  subst hi hn
  rw [slice_eq (by simp [h]), h]
  simp

theorem u16_at {x z : List UInt8} {i n : Nat} (h : m.block = x ++ (toBytes 2 n ++ z))
    (hi : x.length = i) (hn : n < 65536) : m.u16 i = UInt16.ofNat n := by
  rw [u16, slice_at h hi (toBytes_length 2 n), ofBytes_toBytes (by omega)]

theorem header_at {hd : MessageHeader} {z : List UInt8} (h : m.block = headerBytes hd ++ z) :
    m.header 0 = hd := by
  have hmagic := hd.magic.toNat_lt
  have hlen := hd.len.toNat_lt
  have htype := hd.messageType.toNat_lt
  have h0 : m.slice (0 : UInt32).toNat 8 = toBytes 8 hd.magic.toNat := by
    refine slice_at (x := []) (z := toBytes 2 hd.len.toNat ++ (toBytes 2 hd.messageType.toNat ++ z)) ?_
      rfl (by simp)
    simp [h, headerBytes]
  have h8 : m.u16 ((0 : UInt32) + 8).toNat = UInt16.ofNat hd.len.toNat := by
    refine u16_at (x := toBytes 8 hd.magic.toNat) (z := toBytes 2 hd.messageType.toNat ++ z) ?_
      (by simp) hlen
    simp [h, headerBytes]
  have h10 : m.u16 ((0 : UInt32) + 8 + 2).toNat = UInt16.ofNat hd.messageType.toNat := by
    refine u16_at (x := toBytes 8 hd.magic.toNat ++ toBytes 2 hd.len.toNat) (z := z) ?_ (by simp) htype
    simp [h, headerBytes]
  rw [header, h0, h8, h10, ofBytes_toBytes (by omega)]
  simp

theorem fields_at {x z a b : List UInt8} {offset : UInt32}
    (h : m.block = x ++ (fieldBytes a b ++ z)) (hx : x.length = offset.toNat)
    (ha : a.length < 65536) (hb : b.length < 65536) (hfit : x.length + (fieldBytes a b).length < 2 ^ 32) :
    m.first offset = a ∧ m.second offset = b ∧ m.u16 offset.toNat = UInt16.ofNat a.length ∧
      m.u16 (m.secondAt offset).toNat = UInt16.ofNat b.length := by
  rw [fieldBytes_length] at hfit
  have hu : m.u16 offset.toNat = UInt16.ofNat a.length := by
    refine u16_at (x := x) (z := a ++ (toBytes 2 b.length ++ b) ++ z) ?_ hx ha
    simp [h, fieldBytes]
  have hua : (m.u16 offset.toNat).toNat = a.length := by
    rw [hu]
    exact UInt16.toNat_ofNat_of_lt' ha
  obtain ⟨h2, hat, h4⟩ := m.offsets_toNat offset (by omega)
  have hfirst : m.first offset = a := by
    rw [first, hua, h2]
    refine slice_at (x := x ++ toBytes 2 a.length) (z := toBytes 2 b.length ++ b ++ z) ?_ (by simp [hx]) rfl
    simp [h, fieldBytes]
  have hv : m.u16 (m.secondAt offset).toNat = UInt16.ofNat b.length := by
    refine u16_at (x := x ++ toBytes 2 a.length ++ a) (z := b ++ z) ?_ ?_ hb
    · simp [h, fieldBytes]
    · simp [hx, hat, hua]
      omega
  have hvb : (UInt16.ofNat b.length).toNat = b.length := UInt16.toNat_ofNat_of_lt' hb
  refine ⟨hfirst, ?_, hu, hv⟩
  rw [second, hv, hvb, h4, hua]
  refine slice_at (x := x ++ toBytes 2 a.length ++ a ++ toBytes 2 b.length) (z := z) ?_ ?_ rfl
  · simp [h, fieldBytes]
  · simp [hx]
    omega

theorem toBytes_u16 (m : Mem) (i : Nat) : toBytes 2 (m.u16 i).toNat = m.slice i 2 := by
  have hlt := ofBytes_lt (m.slice i 2)
  rw [slice_length] at hlt
  rw [u16, UInt16.toNat_ofNat_of_lt' (by simpa using hlt)]
  simpa using toBytes_ofBytes (m.slice i 2)

theorem slice_fields (m : Mem) (offset : UInt32)
    (h : offset.toNat + 4 + (m.u16 offset.toNat).toNat < 2 ^ 32) :
    m.slice offset.toNat (fieldBytes (m.first offset) (m.second offset)).length =
      fieldBytes (m.first offset) (m.second offset) := by
  obtain ⟨h2, hat, h4⟩ := m.offsets_toNat offset h
  have hlen : (fieldBytes (m.first offset) (m.second offset)).length =
      2 + ((m.u16 offset.toNat).toNat + (2 + (m.u16 (m.secondAt offset).toNat).toNat)) := by
    simp only [fieldBytes_length, first, second, slice_length]
    omega
  rw [hlen, slice_add, slice_add, slice_add, ← toBytes_u16, ← h2, ← first,
    (by omega : (offset + 2).toNat + (m.u16 offset.toNat).toNat = (m.secondAt offset).toNat),
    ← toBytes_u16, (by omega : (m.secondAt offset).toNat + 2 = (m.secondAt offset + 2).toNat), ← second]
  simp [fieldBytes, first, second]

theorem headerBytes_header (m : Mem) : headerBytes (m.header 0) = m.slice 0 12 := by
  have hlt := ofBytes_lt (m.slice 0 8)
  rw [slice_length] at hlt
  have hmagic : toBytes 8 (UInt64.ofNat (ofBytes (m.slice 0 8))).toNat = m.slice 0 8 := by
    rw [UInt64.toNat_ofNat_of_lt' hlt]
    simpa using toBytes_ofBytes (m.slice 0 8)
  change toBytes 8 (UInt64.ofNat (ofBytes (m.slice 0 8))).toNat ++
    (toBytes 2 (m.u16 8).toNat ++ toBytes 2 (m.u16 10).toNat) = m.slice 0 (8 + (2 + 2))
  rw [hmagic, toBytes_u16, toBytes_u16, slice_add, slice_add]

end Mem

/-- Every index that was loaded is below `n`. -/
def Inside (reads : List (Nat × Nat)) (n : Nat) : Prop := ∀ r ∈ reads, ∀ i < r.2, r.1 + i < n

instance (reads : List (Nat × Nat)) (n : Nat) : Decidable (Inside reads n) :=
  inferInstanceAs (Decidable (∀ r ∈ reads, ∀ i < r.2, r.1 + i < n))

theorem range_below {i n used : Nat} : (∀ j < n, i + j < used) ↔ n = 0 ∨ i + n ≤ used := by
  constructor
  · intro h
    rcases Nat.eq_zero_or_pos n with hn | hn
    · exact .inl hn
    · have := h (n - 1) (by omega)
      omega
  · intro h j hj
    omega

theorem headerReads_inside {n : Nat} : Inside (headerReads 0) n ↔ 12 ≤ n := by
  simp only [Inside, headerReads, List.forall_mem_cons, range_below, List.not_mem_nil, false_implies,
    implies_true, and_true, UInt32.reduceAdd, UInt32.reduceToNat]
  omega

theorem fieldsEnd_toNat (m : Mem) :
    (m.fieldsEnd 12).toNat = 16 + (m.first 12).length + (m.second 12).length := by
  have hu := (m.u16 (12 : UInt32).toNat).toNat_lt
  have hv := (m.u16 (m.secondAt 12).toNat).toNat_lt
  have hat := m.offsets_toNat 12 (by omega : 12 + 4 + _ < _)
  have h12 : (12 : UInt32).toNat = 12 := rfl
  rw [Mem.fieldsEnd, UInt32.toNat_add, UInt32.toNat_ofNat', Mem.first_length, Mem.second_length]
  omega

theorem packetReads_inside (m : Mem) {n : Nat} :
    Inside (headerReads 0 ++ m.fieldReads 12) n ↔
      16 + (m.first 12).length + (m.second 12).length ≤ n := by
  have hu := (m.u16 (12 : UInt32).toNat).toNat_lt
  have hat := m.offsets_toNat 12 (by omega : 12 + 4 + _ < _)
  have h12 : (12 : UInt32).toNat = 12 := rfl
  have happend : Inside (headerReads 0 ++ m.fieldReads 12) n ↔
      Inside (headerReads 0) n ∧ Inside (m.fieldReads 12) n := List.forall_mem_append
  rw [happend, headerReads_inside]
  simp only [Inside, Mem.fieldReads, List.forall_mem_cons, range_below, List.not_mem_nil, false_implies,
    implies_true, and_true, Mem.first_length, Mem.second_length]
  omega

def headerOf (b : List UInt8) : MessageHeader := Mem.header ⟨b, fun _ => 0⟩ 0

theorem header_congr {m m' : Mem} (h : ∀ i n, i + n ≤ 12 → m.slice i n = m'.slice i n) :
    m.header 0 = m'.header 0 := by
  have h0 : m.slice (0 : UInt32).toNat 8 = m'.slice (0 : UInt32).toNat 8 := h 0 8 (by omega)
  have h8 : m.slice ((0 : UInt32) + 8).toNat 2 = m'.slice ((0 : UInt32) + 8).toNat 2 :=
    h 8 2 (by omega)
  have h10 : m.slice ((0 : UInt32) + 8 + 2).toNat 2 = m'.slice ((0 : UInt32) + 8 + 2).toNat 2 :=
    h 10 2 (by omega)
  simp only [Mem.header, Mem.u16, h0, h8, h10]

theorem header_headerOf (beyond : Nat → UInt8) {b : List UInt8} (hb : 12 ≤ b.length) :
    Mem.header ⟨b, beyond⟩ 0 = headerOf b := by
  refine header_congr ?_
  intro i n hin
  rw [Mem.slice_eq (by simp; omega), Mem.slice_eq (by simp; omega)]

theorem headerOf_append {b : List UInt8} (hb : 12 ≤ b.length) (x : List UInt8) :
    headerOf (b ++ x) = headerOf b := by
  refine header_congr ?_
  intro i n hin
  rw [Mem.slice_eq (by simp; omega), Mem.slice_eq (by simp; omega)]
  simp only [List.drop_append_of_le_length (by omega : i ≤ b.length)]
  rw [List.take_append_of_le_length (by simp; omega)]

theorem headerOf_headerBytes (h : MessageHeader) (x : List UInt8) :
    headerOf (headerBytes h ++ x) = h :=
  Mem.header_at rfl

/-- The length in the header is that of the whole. -/
structure Framed (f : List UInt8) : Prop where
  twelve : 12 ≤ f.length
  len : (headerOf f).len.toNat = f.length

theorem Packet.framed (p : Packet) : Framed p.wire where
  twelve := by
    rw [p.wire_length]
    omega
  len := by rw [p.wire_eq, headerOf_headerBytes, p.header_len, p.wire_eq]

theorem framed_serverBytes {text : List UInt8} (h : 12 + text.length < 65536) :
    Framed (serverBytes text) where
  twelve := by simp [serverBytes]
  len := by
    rw [serverBytes, headerOf_headerBytes, List.length_append, headerBytes_length]
    exact UInt16.toNat_ofNat_of_lt' h

end TeamsInC
