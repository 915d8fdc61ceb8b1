import TeamsInC.Lib.Bytes
import TeamsInC.Machine

/-!
# Message structures, memory and byte order

The structures that server and client share, the pointers in them, and the two ways the
code touches a buffer: stores at an index, and a cursor that loads and advances. A load may
leave its block; `beyond` is what then lies there. The counts of encoded bytes stay far
below 2^32 and are natural numbers; the offset of a decoder is a `uint32_t`.
-/

set_option autoImplicit false

namespace TeamsInC
open Bytes

/-- A pointer field: NULL, a block in use, or a block that has been freed. -/
inductive Ptr (α : Type) where
  | null
  | live (a : α)
  | freed
deriving DecidableEq, Repr

namespace Ptr
variable {α : Type}

def deref : Ptr α → Except Fault α
  | null => .error .nullDeref
  | live a => .ok a
  | freed => .error .dangling

theorem deref_eq_ok {p : Ptr α} {a : α} : p.deref = .ok a ↔ p = .live a := by
  cases p <;> simp [deref]

def bytes : Ptr (List UInt8) → List UInt8
  | live b => b
  | _ => []

end Ptr

def MAGIC : UInt64 := 0xABCDDCBA

inductive State where
  | errorState
  | initialState
  | authState
  | messageState
  | connCloseState
deriving DecidableEq, Repr

def MSG_TYPE_AUTH : UInt16 := 1

def MSG_TYPE_CHAT_MSG : UInt16 := 2

def SERVER_INFO : UInt16 := 4

/-- `sizeof(message_header_t)`: twelve bytes, padded to the alignment of `magic`. -/
def sizeofMessageHeader : Nat := 16

structure MessageHeader where
  magic : UInt64
  len : UInt16
  messageType : UInt16
deriving DecidableEq, Repr

structure MessageAuth where
  header : MessageHeader
  userLen : UInt16
  user : Ptr (List UInt8)
  passwordLen : UInt16
  password : Ptr (List UInt8)
deriving DecidableEq, Repr

structure MessageChat where
  header : MessageHeader
  toUserLen : UInt16
  toUser : Ptr (List UInt8)
  messageLen : UInt16
  message : Ptr (List UInt8)
deriving DecidableEq, Repr

structure ServerMessage where
  header : MessageHeader
  message : List UInt8
deriving DecidableEq, Repr

section
variable (o : ByteOrder)

def htons (x : UInt16) : UInt16 := UInt16.ofNat (o.hton 2 x.toNat)

def ntohs (x : UInt16) : UInt16 := UInt16.ofNat (o.ntoh 2 x.toNat)

def htonl (x : UInt32) : UInt32 := UInt32.ofNat (o.hton 4 x.toNat)

def ntohl (x : UInt32) : UInt32 := UInt32.ofNat (o.ntoh 4 x.toNat)

def htonll (x : UInt64) : UInt64 :=
  if 1 = htonl o 1 then x
  else (htonl o (x &&& 0xFFFFFFFF).toUInt32).toUInt64 <<< 32 ||| (htonl o (x >>> 32).toUInt32).toUInt64

def ntohll (x : UInt64) : UInt64 :=
  if 1 = ntohl o 1 then x
  else (ntohl o (x &&& 0xFFFFFFFF).toUInt32).toUInt64 <<< 32 ||| (ntohl o (x >>> 32).toUInt32).toUInt64

end

theorem toNat_join (a b : UInt32) :
    (a.toUInt64 <<< 32 ||| b.toUInt64).toNat = a.toNat * 2 ^ 32 + b.toNat := by
  have ha := a.toNat_lt
  have hb := b.toNat_lt
  rw [UInt64.toNat_or, UInt64.toNat_shiftLeft, UInt32.toNat_toUInt64, UInt32.toNat_toUInt64]
  have hmod : a.toNat <<< ((32 : UInt64).toNat % 64) % 2 ^ 64 = a.toNat <<< 32 := by
    have h32 : (32 : UInt64).toNat % 64 = 32 := by decide
    rw [h32, Nat.shiftLeft_eq]
    apply Nat.mod_eq_of_lt
    omega
  rw [hmod, ← Nat.shiftLeft_add_eq_or_of_lt hb, Nat.shiftLeft_eq]

theorem toNat_low (x : UInt64) : (x &&& 0xFFFFFFFF).toUInt32.toNat = x.toNat % 2 ^ 32 := by
  have h : (0xFFFFFFFF : UInt64).toNat = 2 ^ 32 - 1 := by decide
  rw [UInt64.toNat_toUInt32, UInt64.toNat_and, h, Nat.and_two_pow_sub_one_eq_mod, Nat.mod_mod]

theorem toNat_high (x : UInt64) : (x >>> 32).toUInt32.toNat = x.toNat / 2 ^ 32 := by
  have hx := x.toNat_lt
  have h32 : (32 : UInt64).toNat % 64 = 32 := by decide
  rw [UInt64.toNat_toUInt32, UInt64.toNat_shiftRight, h32, Nat.shiftRight_eq_div_pow]
  apply Nat.mod_eq_of_lt
  omega

section
variable (o : ByteOrder)

theorem toNat_htonl (x : UInt32) : (htonl o x).toNat = o.hton 4 x.toNat :=
  UInt32.toNat_ofNat_of_lt' (o.hton_lt 4 x.toNat)

theorem store_htons (x : UInt16) : o.store 2 (htons o x).toNat = toBytes 2 x.toNat := by
  rw [htons, UInt16.toNat_ofNat_of_lt' (o.hton_lt 2 x.toNat), ByteOrder.store_hton]

theorem store_htonll (x : UInt64) : o.store 8 (htonll o x).toNat = toBytes 8 x.toNat := by
  cases o with
  | big =>
    rw [htonll, if_pos (by decide)]
    rfl
  | little =>
    have hlow := ByteOrder.store_hton .little 4 (x.toNat % 2 ^ 32)
    have hhigh := ByteOrder.store_hton .little 4 (x.toNat / 2 ^ 32)
    rw [htonll, if_neg (by decide), toNat_join, toNat_htonl, toNat_htonl, toNat_low, toNat_high]
    generalize hL : ByteOrder.hton .little 4 (x.toNat % 2 ^ 32) = L at *
    generalize hH : ByteOrder.hton .little 4 (x.toNat / 2 ^ 32) = H at *
    have hlt : H < 256 ^ 4 := by
      rw [← hH]
      exact ByteOrder.hton_lt _ _ _
    have hdiv : (L * 2 ^ 32 + H) / 256 ^ 4 = L := by omega
    have hmod : (L * 2 ^ 32 + H) % 256 ^ 4 = H := by omega
    simp only [ByteOrder.store, ByteOrder.arrange] at *
    rw [toBytes_add 4 4, hdiv, hmod, List.reverse_append, hlow, hhigh, toBytes_add 4 4 x.toNat]
    rw [(by decide : (256 : Nat) ^ 4 = 2 ^ 32)]

theorem ntohs_load {b : List UInt8} (hb : b.length = 2) :
    ntohs o (UInt16.ofNat (o.load b)) = UInt16.ofNat (ofBytes b) := by
  have h := o.load_lt b
  rw [hb] at h
  rw [ntohs, UInt16.toNat_ofNat_of_lt' h, o.ntoh_load hb]

theorem toNat_ntohl (x : UInt32) : (ntohl o x).toNat = o.ntoh 4 x.toNat :=
  UInt32.toNat_ofNat_of_lt' (o.ntoh_lt 4 x.toNat)

theorem ntohll_load {b : List UInt8} (hb : b.length = 8) :
    ntohll o (UInt64.ofNat (o.load b)) = UInt64.ofNat (ofBytes b) := by
  have hload := o.load_lt b
  rw [hb] at hload
  have hof := ofBytes_lt b
  rw [hb] at hof
  apply UInt64.toNat_inj.mp
  rw [UInt64.toNat_ofNat_of_lt' hof]
  cases o with
  | big =>
    rw [ntohll, if_pos (by decide), UInt64.toNat_ofNat_of_lt' hload]
    rfl
  | little =>
    obtain ⟨p, q, rfl, hp, hq⟩ : ∃ p q, b = p ++ q ∧ p.length = 4 ∧ q.length = 4 :=
      ⟨b.take 4, b.drop 4, (List.take_append_drop 4 b).symm, by simp [hb], by simp [hb]⟩
    have hhost : ByteOrder.load .little (p ++ q) =
        ByteOrder.load .little q * 256 ^ 4 + ByteOrder.load .little p := by
      simp only [ByteOrder.load, ByteOrder.arrange, List.reverse_append, ofBytes_append,
        List.length_reverse, hp]
    have hpl := ByteOrder.load_lt .little p
    have hql := ByteOrder.load_lt .little q
    rw [hp] at hpl
    rw [hq] at hql
    rw [ntohll, if_neg (by decide), toNat_join, toNat_ntohl, toNat_ntohl, toNat_low, toNat_high,
      UInt64.toNat_ofNat_of_lt' hload, hhost]
    have hdiv : (ByteOrder.load .little q * 256 ^ 4 + ByteOrder.load .little p) / 2 ^ 32 =
        ByteOrder.load .little q := by omega
    have hmod : (ByteOrder.load .little q * 256 ^ 4 + ByteOrder.load .little p) % 2 ^ 32 =
        ByteOrder.load .little p := by omega
    rw [hdiv, hmod, ByteOrder.ntoh_load _ hp, ByteOrder.ntoh_load _ hq, ofBytes_append, hq]
    rfl

end

/-- Write bytes at an index of a buffer that holds at least the bytes before it. -/
def poke (buff : List UInt8) (at_ : Nat) (b : List UInt8) : List UInt8 :=
  buff.take at_ ++ b ++ buff.drop (at_ + b.length)

/-- A block and what lies behind it. -/
structure Mem where
  block : List UInt8
  beyond : Nat → UInt8

def Mem.get (m : Mem) (i : Nat) : UInt8 :=
  if h : i < m.block.length then m.block[i] else m.beyond (i - m.block.length)

def Mem.slice (m : Mem) (i n : Nat) : List UInt8 := (List.range n).map fun j => m.get (i + j)

@[simp] theorem Mem.slice_length (m : Mem) (i n : Nat) : (m.slice i n).length = n := by simp [slice]

theorem Mem.slice_eq {m : Mem} {i n : Nat} (h : i + n ≤ m.block.length) :
    m.slice i n = (m.block.drop i).take n := by
  apply List.ext_getElem
  · simp
    omega
  · intro j h1 h2
    simp only [slice_length] at h1
    simp only [slice, List.getElem_map, List.getElem_range, get, List.getElem_take,
      List.getElem_drop]
    rw [dif_pos (by omega)]

theorem Mem.slice_add (m : Mem) (i j n : Nat) :
    m.slice i (j + n) = m.slice i j ++ m.slice (i + j) n := by
  simp only [slice, List.range_add, List.map_append, List.map_map, Function.comp_def, Nat.add_assoc]

theorem Mem.drop_eq_slice {m : Mem} {i n : Nat} (h : i + n ≤ m.block.length) :
    m.block.drop i = m.slice i n ++ m.block.drop (i + n) := by
  rw [slice_eq h, ← List.drop_drop, List.take_append_drop]

/-- A decoder's place in the buffer, and the ranges it has loaded, each a first index and a
length. -/
structure Cursor where
  offset : UInt32
  reads : List (Nat × Nat)
deriving DecidableEq, Repr

abbrev Decode := StateM Cursor

def Mem.fetch (m : Mem) (n : Nat) : Decode (List UInt8) := fun c =>
  (m.slice c.offset.toNat n, ⟨c.offset + UInt32.ofNat n, c.reads ++ [(c.offset.toNat, n)]⟩)

def Mem.fetch16 (o : ByteOrder) (m : Mem) : Decode UInt16 := do
  return ntohs o (UInt16.ofNat (o.load (← m.fetch 2)))

/-- The number that two bytes at an index show in network order. -/
def Mem.u16 (m : Mem) (i : Nat) : UInt16 := UInt16.ofNat (ofBytes (m.slice i 2))

theorem Mem.fetch16_eq (o : ByteOrder) (m : Mem) (c : Cursor) :
    m.fetch16 o c = (m.u16 c.offset.toNat, ⟨c.offset + 2, c.reads ++ [(c.offset.toNat, 2)]⟩) := by
  change (ntohs o (UInt16.ofNat (o.load (m.slice c.offset.toNat 2))), _) = _
  rw [ntohs_load o (m.slice_length _ 2)]
  rfl

/-- `decode_header`, of which server and client have a copy each. -/
def Mem.fetchHeader (o : ByteOrder) (m : Mem) : Decode MessageHeader := do
  let magic := ntohll o (UInt64.ofNat (o.load (← m.fetch 8)))
  let len ← m.fetch16 o
  let messageType ← m.fetch16 o
  return ⟨magic, len, messageType⟩

/-- Two strings, each after its length: what the three decoders of packets load. -/
def Mem.fetchFields (o : ByteOrder) (m : Mem) : Decode (UInt16 × List UInt8 × UInt16 × List UInt8) := do
  let aLen ← m.fetch16 o
  let a ← m.fetch aLen.toNat
  let bLen ← m.fetch16 o
  let b ← m.fetch bLen.toNat
  return (aLen, a, bLen, b)

theorem Mem.fetch_eq (m : Mem) (n : Nat) (c : Cursor) :
    m.fetch n c = (m.slice c.offset.toNat n,
      ⟨c.offset + UInt32.ofNat n, c.reads ++ [(c.offset.toNat, n)]⟩) := rfl

namespace Mem
variable (m : Mem) (offset : UInt32)

def first : List UInt8 := m.slice (offset + 2).toNat (m.u16 offset.toNat).toNat

def secondAt : UInt32 := offset + 2 + UInt32.ofNat (m.u16 offset.toNat).toNat

def second : List UInt8 :=
  m.slice (m.secondAt offset + 2).toNat (m.u16 (m.secondAt offset).toNat).toNat

def fieldsEnd : UInt32 :=
  m.secondAt offset + 2 + UInt32.ofNat (m.u16 (m.secondAt offset).toNat).toNat

def fieldReads : List (Nat × Nat) :=
  [(offset.toNat, 2), ((offset + 2).toNat, (m.u16 offset.toNat).toNat),
    ((m.secondAt offset).toNat, 2),
    ((m.secondAt offset + 2).toNat, (m.u16 (m.secondAt offset).toNat).toNat)]

theorem offsets_toNat (h : offset.toNat + 4 + (m.u16 offset.toNat).toNat < 2 ^ 32) :
    (offset + 2).toNat = offset.toNat + 2 ∧
      (m.secondAt offset).toNat = offset.toNat + 2 + (m.u16 offset.toNat).toNat ∧
      (m.secondAt offset + 2).toNat = offset.toNat + 4 + (m.u16 offset.toNat).toNat := by
  have h2 : (offset + 2).toNat = (offset.toNat + 2) % 2 ^ 32 := UInt32.toNat_add offset 2
  have hat : (m.secondAt offset).toNat =
      ((offset + 2).toNat + (m.u16 offset.toNat).toNat % 2 ^ 32) % 2 ^ 32 := by
    rw [secondAt, UInt32.toNat_add, UInt32.toNat_ofNat']
  have h4 : (m.secondAt offset + 2).toNat = ((m.secondAt offset).toNat + 2) % 2 ^ 32 :=
    UInt32.toNat_add (m.secondAt offset) 2
  omega

def header : MessageHeader :=
  ⟨UInt64.ofNat (ofBytes (m.slice offset.toNat 8)), m.u16 (offset + 8).toNat, m.u16 (offset + 8 + 2).toNat⟩

end Mem

def headerReads (offset : UInt32) : List (Nat × Nat) :=
  [(offset.toNat, 8), ((offset + 8).toNat, 2), ((offset + 8 + 2).toNat, 2)]

namespace Mem
variable (o : ByteOrder) (m : Mem)

theorem fetchHeader_eq (offset : UInt32) :
    m.fetchHeader o ⟨offset, []⟩ = (m.header offset, ⟨offset + 8 + 2 + 2, headerReads offset⟩) := by
  change (let p := m.fetch 8 ⟨offset, []⟩
    let q := m.fetch16 o p.2
    let r := m.fetch16 o q.2
    ((⟨ntohll o (UInt64.ofNat (o.load p.1)), q.1, r.1⟩, r.2) : MessageHeader × Cursor)) = _
  simp only [fetch_eq, fetch16_eq, ntohll_load o (m.slice_length offset.toNat 8)]
  rfl

theorem fetchFields_eq (offset : UInt32) (reads : List (Nat × Nat)) :
    m.fetchFields o ⟨offset, reads⟩ =
      ((m.u16 offset.toNat, m.first offset, m.u16 (m.secondAt offset).toNat, m.second offset),
        ⟨m.fieldsEnd offset, reads ++ m.fieldReads offset⟩) := by
  change (let p := m.fetch16 o ⟨offset, reads⟩
    let q := m.fetch p.1.toNat p.2
    let r := m.fetch16 o q.2
    let s := m.fetch r.1.toNat r.2
    (((p.1, q.1, r.1, s.1), s.2) : (UInt16 × List UInt8 × UInt16 × List UInt8) × Cursor)) = _
  simp only [fetch_eq, fetch16_eq, List.append_assoc]
  rfl

end Mem

/-- What one `read` into `buff[1024]` returns when it returns bytes. -/
structure Chunk where
  bytes : List UInt8
  pos : 0 < bytes.length
  le : bytes.length ≤ 1024

/-- What each call of `write` accepts, by its number and the count requested: -1, or at least
one byte and at most those requested; `k` stands for `k + 1` bytes. -/
abbrev WriteOracle := Nat → (n : Nat) → Option (Fin n)

def writeAll : WriteOracle := fun _ n => if h : 0 < n then some ⟨n - 1, by omega⟩ else none

/-- `while (total_bytes_send < buff_size)`: the bytes accepted, and 0 or -1. Every call accepts a
byte, so the fuel is not used up. -/
def writeLoop (write : WriteOracle) (buff : List UInt8) : Nat → Nat → Nat → List UInt8 × Int
  | 0, _, _ => ([], 0)
  | fuel + 1, call, total =>
    if total < buff.length then
      match write call (buff.length - total) with
      | none => ([], -1)
      | some k =>
        let (rest, r) := writeLoop write buff fuel (call + 1) (total + (k + 1))
        ((buff.drop total).take (k + 1) ++ rest, r)
    else ([], 0)

theorem writeLoop_all {write : WriteOracle} {buff : List UInt8}
    (h : ∀ call n, 0 < n → write call n ≠ none) {fuel call total : Nat}
    (hfuel : buff.length - total < fuel) : writeLoop write buff fuel call total = (buff.drop total, 0) := by
  induction fuel generalizing call total with
  | zero => omega
  | succ fuel ih =>
    simp only [writeLoop]
    by_cases hlt : total < buff.length
    · rw [if_pos hlt]
      cases hw : write call (buff.length - total) with
      | none => exact absurd hw (h _ _ (by omega))
      | some k =>
        simp only [@ih (call + 1) (total + (k + 1)) (by omega)]
        rw [← List.drop_drop, List.take_append_drop]
    · rw [if_neg hlt, List.drop_eq_nil_of_le (by omega)]

/-- Whether the calls, the first of them `call`, take the `n` bytes from `total` on without a
failure. -/
def takesAll (write : WriteOracle) (n : Nat) : Nat → Nat → Nat → Bool
  | 0, _, _ => true
  | fuel + 1, call, total =>
    if total < n then
      match write call (n - total) with
      | none => false
      | some k => takesAll write n fuel (call + 1) (total + (k + 1))
    else true

/-- The loop has written all that is left, or a proper prefix of it. -/
theorem writeLoop_cases (write : WriteOracle) (buff : List UInt8) {fuel call total : Nat}
    (hfuel : buff.length - total < fuel) :
    takesAll write buff.length fuel call total = true ∧
        writeLoop write buff fuel call total = (buff.drop total, 0) ∨
      takesAll write buff.length fuel call total = false ∧
        (writeLoop write buff fuel call total).2 = -1 ∧
        ∃ rest, rest ≠ [] ∧ (writeLoop write buff fuel call total).1 ++ rest = buff.drop total := by
  induction fuel generalizing call total with
  | zero => omega
  | succ fuel ih =>
    simp only [takesAll, writeLoop]
    by_cases hlt : total < buff.length
    · simp only [if_pos hlt]
      cases write call (buff.length - total) with
      | none => exact .inr ⟨rfl, rfl, buff.drop total, by simp; omega, rfl⟩
      | some k =>
        have hsplit : (buff.drop total).take (k + 1) ++ buff.drop (total + (k + 1)) = buff.drop total := by
          rw [← List.drop_drop, List.take_append_drop]
        rcases @ih (call + 1) (total + (k + 1)) (by omega) with ⟨htakes, hloop⟩ | ⟨htakes, hr, rest, hne, hrest⟩
        · refine .inl ⟨htakes, ?_⟩
          simp only [hloop, hsplit]
        · refine .inr ⟨htakes, hr, rest, hne, ?_⟩
          rw [List.append_assoc, hrest, hsplit]
    · simp only [if_neg hlt]
      refine .inl ⟨trivial, ?_⟩
      rw [List.drop_eq_nil_of_le (by omega)]

theorem writeAll_ne_none : ∀ call n, 0 < n → writeAll call n ≠ none := by
  intro call n hn
  simp [writeAll, hn]

end TeamsInC
