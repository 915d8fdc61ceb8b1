import TeamsInC.Client.Receive

/-!
# When receiving goes wrong

A pass through a receiving state is at the mercy of its peer: a read may fail, the connection
may close early, and the lengths that the decoders follow are the peer's. It survives exactly
when what has arrived at the end of the loop is a message that its decoder can read.
-/

set_option autoImplicit false

namespace TeamsInC
namespace Client
open Bytes

/-- The ranges of the buffer that `decode_server_message` loads. -/
def serverMessageReads (o : ByteOrder) (buff : Mem) : List (Nat × Nat) :=
  let (header, cursor) := decodeHeader o buff ⟨0, []⟩
  if header.magic ≠ MAGIC ∨ header.len.toNat < SIZE_HEADER then cursor.reads
  else (buff.fetch (header.len.toNat - SIZE_HEADER) cursor).2.reads

def messageRecvReads (o : ByteOrder) (buff : Mem) : List (Nat × Nat) :=
  let (header, cursor) := decodeHeader o buff ⟨0, []⟩
  if header.magic ≠ MAGIC then cursor.reads else (buff.fetchFields o cursor).2.reads

/-- A pass through a state ends without a fault, and its decoder has loaded no byte from behind
the bytes received. -/
structure Survives {α : Type} (state : Receive α) (readsOf : Mem → List (Nat × Nat))
    (beyond : Nat → UInt8) (reads : List Read) : Prop where
  no_fault : ∀ f, state reads ≠ .error (.fault f)
  inside : ∀ b rest, readLoop .null reads = .ok (.live b, rest) → Inside (readsOf ⟨b, beyond⟩) b.length

structure GoodReply (b : List UInt8) : Prop where
  twelve : 12 ≤ b.length
  magic : (headerOf b).magic = MAGIC
  low : 12 ≤ (headerOf b).len.toNat
  high : (headerOf b).len.toNat ≤ b.length

structure GoodChat (beyond : Nat → UInt8) (b : List UInt8) : Prop where
  magic : (headerOf b).magic = MAGIC
  fields : 16 + (Mem.first ⟨b, beyond⟩ 12).length + (Mem.second ⟨b, beyond⟩ 12).length ≤ b.length

/-- No read fails, and the bytes are good where reading stops: where the connection closes, and
where there are as many as the header announces. -/
def Delivers (good : List UInt8 → Prop) : List UInt8 → List Read → Prop
  | _, [] => True
  | _, .error :: _ => False
  | b, .eof :: _ => good b
  | b, .chunk c :: rest =>
    if isReadFull (b ++ c.bytes) then good (b ++ c.bytes) else Delivers good (b ++ c.bytes) rest

/-- How the loop ends: it waits, or it leaves a buffer with the property. -/
def Leaves (P : List UInt8 → List Read → Prop) : Except Stop (Ptr (List UInt8) × List Read) → Prop
  | .error .blocked => True
  | .error (.fault _) => False
  | .ok (.live b, rest) => P b rest
  | .ok (.null, _) => False
  | .ok (.freed, _) => False

theorem leaves_iff_delivers {P : List UInt8 → List Read → Prop} {good : List UInt8 → Prop}
    (hgood : ∀ b rest, P b rest ↔ good b) (hnil : ¬ good []) {readBuff : Ptr (List UInt8)}
    (hfreed : readBuff ≠ .freed) (reads : List Read) :
    Leaves P (readLoop readBuff reads) ↔ Delivers good readBuff.bytes reads := by
  induction reads generalizing readBuff with
  | nil => exact Iff.rfl
  | cons r reads ih =>
    cases r with
    | error => exact Iff.rfl
    | eof =>
      cases readBuff with
      | null => exact iff_of_false (fun h => h) hnil
      | freed => exact absurd rfl hfreed
      | live b => exact hgood b reads
    | chunk c =>
      rw [readLoop, Delivers]
      split
      · exact hgood _ reads
      · exact ih (by simp)

theorem Receive.bind_run {α β : Type} (m : Receive α) (f : α → Receive β) (reads : List Read) :
    (m >>= f) reads = m reads >>= fun p => f p.1 p.2 := rfl

theorem readWhole_run {α : Type} (beyond : Nat → UInt8) (k : Mem → Receive α) (reads : List Read) :
    (readWhole beyond >>= k) reads =
      match readLoop .null reads with
      | .error s => .error s
      | .ok (p, rest) =>
        match p.deref with
        | .error f => .error (.fault f)
        | .ok b => k ⟨b, beyond⟩ rest := by
  rw [readWhole, Receive.bind_run, Receive.bind_run]
  cases readLoop .null reads with
  | error s => rfl
  | ok p =>
    obtain ⟨p, rest⟩ := p
    cases p with
    | null => rfl
    | live b => rfl
    | freed => rfl

theorem survives_iff {α : Type} {k : Mem → Receive α} {readsOf : Mem → List (Nat × Nat)}
    {good : List UInt8 → Prop} {beyond : Nat → UInt8}
    (hgood : ∀ b rest, ((∀ f, k ⟨b, beyond⟩ rest ≠ .error (.fault f)) ∧
      Inside (readsOf ⟨b, beyond⟩) b.length) ↔ good b) (hnil : ¬ good []) (reads : List Read) :
    Survives (readWhole beyond >>= k) readsOf beyond reads ↔ Delivers good [] reads := by
  have hleaves := @leaves_iff_delivers _ good hgood hnil .null (by simp) reads
  have hrun := readWhole_run beyond k reads
  refine Iff.trans ?_ hleaves
  cases hloop : readLoop .null reads with
  | error s =>
    rw [hloop] at hrun
    cases s with
    | blocked =>
      refine iff_of_true ⟨fun f h => ?_, fun b rest h => ?_⟩ trivial
      · rw [hrun] at h
        cases h
      · rw [hloop] at h
        cases h
    | fault f => exact iff_of_false (fun h => h.no_fault f hrun) (fun h => h)
  | ok p =>
    obtain ⟨p, rest⟩ := p
    rw [hloop] at hrun
    cases p with
    | null => exact iff_of_false (fun h => h.no_fault .nullDeref hrun) (fun h => h)
    | freed => exact iff_of_false (fun h => h.no_fault .dangling hrun) (fun h => h)
    | live b =>
      constructor
      · intro h
        exact ⟨fun f hf => h.no_fault f (hrun.trans hf), h.inside b rest hloop⟩
      · rintro ⟨hfault, hinside⟩
        refine ⟨fun f hf => hfault f (hrun.symm.trans hf), fun b' rest' h => ?_⟩
        rw [hloop] at h
        cases h
        exact hinside

theorem decodeServerMessage_eq (o : ByteOrder) (m : Mem) :
    decodeServerMessage o m =
      if (m.header 0).magic ≠ MAGIC then .ok none
      else if (m.header 0).len.toNat < 12 then .error .overflow
      else .ok (some ⟨m.header 0, m.slice 12 ((m.header 0).len.toNat - 12)⟩) := by
  simp only [decodeServerMessage, decodeHeader, Mem.fetchHeader_eq]
  rfl

theorem serverMessageReads_eq (o : ByteOrder) (m : Mem) :
    serverMessageReads o m =
      if (m.header 0).magic ≠ MAGIC ∨ (m.header 0).len.toNat < 12 then headerReads 0
      else headerReads 0 ++ [(12, (m.header 0).len.toNat - 12)] := by
  simp only [serverMessageReads, decodeHeader, Mem.fetchHeader_eq]
  rfl

theorem serverMessageReads_good {o : ByteOrder} {m : Mem} (hmagic : (m.header 0).magic = MAGIC)
    (hlow : 12 ≤ (m.header 0).len.toNat) :
    serverMessageReads o m = headerReads 0 ++ [(12, (m.header 0).len.toNat - 12)] := by
  rw [serverMessageReads_eq, if_neg]
  rintro (hbad | hshort)
  · exact hbad hmagic
  · omega

theorem messageRecvReads_eq (o : ByteOrder) (m : Mem) :
    messageRecvReads o m =
      if (m.header 0).magic ≠ MAGIC then headerReads 0 else headerReads 0 ++ m.fieldReads 12 := by
  simp only [messageRecvReads, decodeHeader, Mem.fetchHeader_eq, Mem.fetchFields_eq]
  rfl

theorem twelve_of_inside {reads : List (Nat × Nat)} {n : Nat} (h : Inside (headerReads 0 ++ reads) n) :
    12 ≤ n :=
  headerReads_inside.mp fun r hr => h r (List.mem_append_left _ hr)

theorem serverMessageReads_inside {o : ByteOrder} {b : List UInt8} {beyond : Nat → UInt8}
    (h : Inside (serverMessageReads o ⟨b, beyond⟩) b.length) : 12 ≤ b.length := by
  rw [serverMessageReads_eq] at h
  split at h
  · exact headerReads_inside.mp h
  · exact twelve_of_inside h

theorem inside_range {n k : Nat} :
    Inside (headerReads 0 ++ [(12, k)]) n ↔ 12 ≤ n ∧ 12 + k ≤ n ∨ 12 ≤ n ∧ k = 0 := by
  have happend : Inside (headerReads 0 ++ [(12, k)]) n ↔ Inside (headerReads 0) n ∧ Inside [(12, k)] n :=
    List.forall_mem_append
  have hone : Inside [(12, k)] n ↔ k = 0 ∨ 12 + k ≤ n := by
    rw [← range_below]
    exact List.forall_mem_singleton
  rw [happend, hone, headerReads_inside]
  omega

theorem authAnswer_fault_iff (m : Mem) (rest : List Read) :
    (∀ f, authAnswer m rest ≠ .error (.fault f)) ↔
      (m.header 0).magic = MAGIC ∧ 12 ≤ (m.header 0).len.toNat := by
  rw [authAnswer, Receive.bind_run, decodeServerMessage_eq]
  by_cases hmagic : (m.header 0).magic = MAGIC
  · rw [if_neg (not_not.mpr hmagic)]
    by_cases hlen : (m.header 0).len.toNat < 12
    · rw [if_pos hlen]
      exact iff_of_false (fun h => h .overflow rfl) (fun h => absurd h.2 (by omega))
    · rw [if_neg hlen]
      refine iff_of_true ?_ ⟨hmagic, by omega⟩
      intro f h
      change (if _ then (pure .messageState : Receive State) else pure .initialState) rest = _ at h
      split at h
      · cases h
      · cases h
  · rw [if_pos hmagic]
    exact iff_of_false (fun h => h .nullDeref rfl) (fun h => hmagic h.1)

theorem goodReply_iff (beyond : Nat → UInt8) (b : List UInt8) (rest : List Read) :
    ((∀ f, authAnswer ⟨b, beyond⟩ rest ≠ .error (.fault f)) ∧
      Inside (serverMessageReads hostOrder ⟨b, beyond⟩) b.length) ↔ GoodReply b := by
  rw [authAnswer_fault_iff]
  constructor
  · rintro ⟨⟨hmagic, hlow⟩, hinside⟩
    have htwelve := serverMessageReads_inside hinside
    rw [serverMessageReads_good hmagic hlow, inside_range] at hinside
    rw [header_headerOf beyond htwelve] at hmagic hlow hinside
    exact ⟨htwelve, hmagic, hlow, by omega⟩
  · intro h
    have hheader := header_headerOf beyond h.twelve
    have hlow := h.low
    have hhigh := h.high
    rw [serverMessageReads_good (hheader ▸ h.magic) (hheader ▸ hlow), inside_range, hheader]
    exact ⟨⟨h.magic, h.low⟩, .inl ⟨h.twelve, by omega⟩⟩

theorem chatAnswer_fault_iff (m : Mem) (rest : List Read) :
    (∀ f, chatAnswer m rest ≠ .error (.fault f)) ↔ (m.header 0).magic = MAGIC := by
  rw [chatAnswer, decodeMessageRecv_eq]
  by_cases hmagic : (m.header 0).magic = MAGIC
  · rw [if_neg (not_not.mpr hmagic)]
    refine iff_of_true ?_ hmagic
    intro f h
    cases h
  · rw [if_pos hmagic]
    exact iff_of_false (fun h => h .nullDeref rfl) hmagic

theorem goodChat_iff (beyond : Nat → UInt8) (b : List UInt8) (rest : List Read) :
    ((∀ f, chatAnswer ⟨b, beyond⟩ rest ≠ .error (.fault f)) ∧
      Inside (messageRecvReads hostOrder ⟨b, beyond⟩) b.length) ↔ GoodChat beyond b := by
  rw [chatAnswer_fault_iff]
  constructor
  · rintro ⟨hmagic, hinside⟩
    rw [messageRecvReads_eq, if_neg (not_not.mpr hmagic)] at hinside
    rw [header_headerOf beyond (twelve_of_inside hinside)] at hmagic
    exact ⟨hmagic, (packetReads_inside _).mp hinside⟩
  · intro h
    have hfields := h.fields
    have hheader := header_headerOf beyond (by omega : 12 ≤ b.length)
    rw [messageRecvReads_eq, hheader, if_neg (not_not.mpr h.magic), packetReads_inside]
    exact ⟨h.magic, hfields⟩

/-- Each receiving state survives what it reads if and only if its peer delivers a message that
its decoder can read. -/
theorem receiving_survives_iff (beyond : Nat → UInt8) (reads : List Read) :
    (Survives (authState beyond) (serverMessageReads hostOrder) beyond reads ↔
        Delivers GoodReply [] reads) ∧
      (Survives (receiveMessage beyond) (messageRecvReads hostOrder) beyond reads ↔
        Delivers (GoodChat beyond) [] reads) := by
  refine ⟨?_, ?_⟩
  · exact survives_iff (goodReply_iff beyond) (fun h => absurd h.twelve (by simp)) reads
  · exact survives_iff (goodChat_iff beyond) (fun h => absurd h.fields (by simp)) reads

theorem closed_not_survived :
    ¬ Survives (authState fun _ => 0) (serverMessageReads hostOrder) (fun _ => 0) [.eof] ∧
      ¬ Survives (receiveMessage fun _ => 0) (messageRecvReads hostOrder) (fun _ => 0) [.eof] :=
  ⟨fun h => h.no_fault .nullDeref rfl, fun h => h.no_fault .nullDeref rfl⟩

end Client
end TeamsInC
