import TeamsInC.Server.Reassembly
import TeamsInC.Server.Registration
import TeamsInC.Server.Streams

/-!
# A connection record between events

As long as the replies are written in full, and every frame that is forwarded fits its block,
the fields of every open record fit together between events: what is in the buffer, how far its
packet is decoded, and the counters. A frame that does not fit goes over other records.
-/

set_option autoImplicit false

namespace TeamsInC
namespace Server

/-- The header of the packet in the buffer is decoded, and it is one of ours. -/
structure Decoded (c : ClientConnData) (b : List UInt8) : Prop where
  offset : c.offset = 12
  size : SIZE_HEADER ≤ b.length
  ptr : ∃ p, c.ptr = .live p ∧ p.header = headerOf b ∧ p.header.magic = MAGIC

/-- The header is decoded, and the packet is not complete. -/
structure Waiting (c : ClientConnData) : Prop where
  offset : c.offset = 12
  size : SIZE_HEADER ≤ c.bufferUsed.toNat
  ptr : ∃ p, c.ptr = .live p ∧ p.header = headerOf c.buff.bytes ∧ p.header.magic = MAGIC ∧
    c.bufferUsed.toNat < p.header.len.toNat

/-- What a record is like between events. -/
structure Settled (c : ClientConnData) : Prop where
  buff : (∃ b, c.buff = .live b ∧ c.bufferUsed.toNat = b.length ∧ c.bufferAllocd.toNat = b.length) ∨
    c.buff = .null ∧ c.bufferUsed = 0 ∧ c.bufferAllocd = 0
  initial : c.clientState = .initialState → c.offset = 0 ∧ c.bufferUsed.toNat < SIZE_HEADER
  auth : c.clientState = .authState → Waiting c
  message : c.clientState = .messageState →
    (c.offset = 0 ∧ c.ptr = .null ∧ c.bufferUsed.toNat < SIZE_HEADER) ∨ Waiting c
  state : c.clientState ≠ .errorState ∧ c.clientState ≠ .connCloseState

def withChunk (c : ClientConnData) (chunk : List UInt8) : ClientConnData :=
  received c (c.buff.bytes ++ chunk) (c.bufferUsed + UInt32.ofNat chunk.length) chunk.length

/-- A record whose buffer has just received bytes and now holds `b`. -/
structure Filled (c : ClientConnData) (b : List UInt8) : Prop where
  buff : c.buff = .live b
  used : c.bufferUsed.toNat = b.length
  allocd : c.bufferAllocd.toNat = b.length
  initial : c.clientState = .initialState → c.offset = 0
  auth : c.clientState = .authState → Decoded c b
  message : c.clientState = .messageState → (c.offset = 0 ∧ c.ptr = .null) ∨ Decoded c b
  state : c.clientState ≠ .errorState ∧ c.clientState ≠ .connCloseState

theorem Waiting.used_lt {c : ClientConnData} (h : Waiting c) : c.bufferUsed.toNat < 65535 := by
  obtain ⟨p, _, _, _, hlen⟩ := h.ptr
  have := p.header.len.toNat_lt
  omega

theorem Waiting.decoded {c d : ClientConnData} (h : Waiting c)
    (hlen : c.buff.bytes.length = c.bufferUsed.toNat) (chunk : List UInt8)
    (hoffset : d.offset = c.offset) (hptr : d.ptr = c.ptr) : Decoded d (c.buff.bytes ++ chunk) where
  offset := hoffset.trans h.offset
  size := by
    have := h.size
    rw [List.length_append]
    omega
  ptr := by
    obtain ⟨p, hp, hheader, hmagic, _⟩ := h.ptr
    have hsize := h.size
    simp only [SIZE_HEADER, sizeofMessageHeader] at hsize
    refine ⟨p, hptr.trans hp, ?_, hmagic⟩
    rw [headerOf_append (by omega), hheader]

theorem settled_new (fd : Int) (junk : Junk) : Settled (createNewClient fd junk) where
  buff := .inr ⟨rfl, rfl, rfl⟩
  initial _ := ⟨rfl, Nat.zero_lt_succ _⟩
  auth hs := by cases hs
  message hs := by cases hs
  state := by constructor <;> simp [createNewClient]

theorem settled_empty {c : ClientConnData} (hbuff : c.buff = .null) (hptr : c.ptr = .null)
    (hused : c.bufferUsed = 0) (hoffset : c.offset = 0) (hallocd : c.bufferAllocd = 0)
    (hs : c.clientState = .initialState ∨ c.clientState = .messageState) : Settled c where
  buff := .inr ⟨hbuff, hused, hallocd⟩
  initial _ := by simp [hoffset, hused, SIZE_HEADER, sizeofMessageHeader]
  auth h := by rcases hs with hs | hs <;> simp [hs] at h
  message _ := .inl (by simp [hoffset, hptr, hused, SIZE_HEADER, sizeofMessageHeader])
  state := by rcases hs with hs | hs <;> simp [hs]

namespace Settled
variable {c d : ClientConnData}

theorem used_lt (h : Settled c) : c.bufferUsed.toNat < 65535 := by
  cases hs : c.clientState with
  | errorState => exact absurd hs h.state.1
  | connCloseState => exact absurd hs h.state.2
  | initialState =>
    have := (h.initial hs).2
    simp only [SIZE_HEADER, sizeofMessageHeader] at this
    omega
  | authState => exact (h.auth hs).used_lt
  | messageState =>
    rcases h.message hs with ⟨_, _, hlt⟩ | hwait
    · simp only [SIZE_HEADER, sizeofMessageHeader] at hlt
      omega
    · exact hwait.used_lt

theorem allocd_eq (h : Settled c) : c.bufferAllocd = c.bufferUsed := by
  rcases h.buff with ⟨b, _, hused, hallocd⟩ | ⟨_, hused, hallocd⟩
  · apply UInt32.toNat_inj.mp
    omega
  · rw [hused, hallocd]

theorem bytes_length (h : Settled c) : c.buff.bytes.length = c.bufferUsed.toNat := by
  rcases h.buff with ⟨b, hb, hused, _⟩ | ⟨hb, hused, _⟩
  · rw [hb, hused]
    rfl
  · rw [hb, hused]
    rfl

theorem toNat_add_chunk {x : UInt32} {n : Nat} (hx : x.toNat < 65535) (hn : n ≤ 1024) :
    (x + UInt32.ofNat n).toNat = x.toNat + n := by
  rw [UInt32.toNat_add, UInt32.toNat_ofNat', Nat.mod_eq_of_lt (by omega : n < 2 ^ 32)]
  exact Nat.mod_eq_of_lt (by omega)

theorem receive_eq {chunk : List UInt8} (h : Settled c) (hn : chunk.length ≤ 1024) :
    receive c chunk = .ok (withChunk c chunk) := by
  have hsum := toNat_add_chunk h.used_lt hn
  have hpoke : poke c.buff.bytes c.bufferUsed.toNat chunk = c.buff.bytes ++ chunk :=
    poke_end h.bytes_length chunk
  rcases h.buff with ⟨b, hb, _, _⟩ | ⟨hb, hused, _⟩
  · simp only [receive, withChunk, received, hb, ok_bind, h.allocd_eq, hsum, Nat.le_refl, if_true,
      Ptr.bytes] at hpoke ⊢
    rw [hpoke]
    rfl
  · rw [hused, UInt32.zero_add] at hsum
    simp only [receive, withChunk, received, hb, ok_bind, hused, hsum, UInt32.toNat_zero, Nat.le_refl,
      if_true, UInt32.zero_add, Ptr.bytes] at hpoke ⊢
    rw [hpoke]
    rfl

theorem filled {chunk : List UInt8} (h : Settled c) (hn : chunk.length ≤ 1024) :
    Filled (withChunk c chunk) (c.buff.bytes ++ chunk) where
  buff := rfl
  used := by
    rw [List.length_append, h.bytes_length]
    exact toNat_add_chunk h.used_lt hn
  allocd := by
    rw [List.length_append, h.bytes_length]
    exact toNat_add_chunk h.used_lt hn
  initial hs := (h.initial hs).1
  auth hs := (h.auth hs).decoded h.bytes_length chunk rfl rfl
  message hs := by
    rcases h.message hs with ⟨hoff, hptr, _⟩ | hwait
    · exact .inl ⟨hoff, hptr⟩
    · exact .inr (hwait.decoded h.bytes_length chunk rfl rfl)
  state := h.state

end Settled

theorem Write_cases (fd : Int) (buff : List UInt8) (write : WriteOracle) :
    Write fd buff write = (buff, 0) ∨
      (Write fd buff write).2 = -1 ∧ (Write fd buff write).1 ≠ buff := by
  rcases @writeLoop_cases (if fd < 0 then fun _ _ => none else write) buff (buff.length + 1) 0 0
    (by omega) with ⟨_, hloop⟩ | ⟨_, hr, rest, hne, hrest⟩
  · exact .inl hloop
  · right
    refine ⟨hr, ?_⟩
    intro heq
    rw [List.drop_zero] at hrest
    exact hne (List.append_right_eq_self.mp (hrest.trans heq.symm))

theorem Headed.decoded {c d : ClientConnData} {b : List UInt8} {env : Env} {pre : List Effect}
    (h : Headed c (env.mem b) pre d) (hc : Filled c b) : Decoded d b := by
  have hused := hc.used
  cases h with
  | auth hs => exact hc.auth hs
  | chat hs _ hoff =>
    rcases hc.message hs with ⟨hzero, _⟩ | hd
    · exact absurd hzero hoff
    · exact hd
  | initial hs hsize magic =>
    have hsize' : 16 ≤ b.length := hused ▸ hsize
    rw [hc.initial hs] at magic ⊢
    have hheader : (env.mem b).header 0 = headerOf b := header_headerOf _ (by omega)
    refine ⟨?_, hsize', _, rfl, hheader, magic⟩
    simp [withHeader, hc.initial hs]
  | first hs hsize hoff magic =>
    have hsize' : 16 ≤ b.length := hused ▸ hsize
    rw [hoff] at magic ⊢
    have hheader : (env.mem b).header 0 = headerOf b := header_headerOf _ (by omega)
    refine ⟨?_, hsize', _, rfl, hheader, magic⟩
    simp [withHeader, hoff]

theorem Headed.waiting {c d : ClientConnData} {b : List UInt8} {env : Env} {pre : List Effect}
    {p : Payload} (h : Headed c (env.mem b) pre d) (hc : Filled c b) (hp : d.ptr = .live p)
    (hlen : d.bufferUsed.toNat < p.header.len.toNat) : Waiting d := by
  have hd := h.decoded hc
  obtain ⟨p', hp', hheader, hmagic⟩ := hd.ptr
  rw [hp] at hp'
  cases hp'
  refine ⟨hd.offset, ?_, p, hp, ?_, hmagic, hlen⟩
  · rw [h.used_eq, hc.used]
    exact hd.size
  · rw [h.buff_eq, hc.buff]
    exact hheader

/-- After the bytes of a read the record is settled again, if the reply was written in full. -/
theorem DataStep.settled {c c' : ClientConnData} {b : List UInt8} {tree tree' : HbTree} {env : Env}
    {effs : List Effect} (h : DataStep c b tree env effs (.ok (some c', tree'))) (hc : Filled c b)
    (hreply : ∀ x ∈ effs, answered x) : Settled c' := by
  cases h with
  | idle hs =>
    rcases hs with hs | hs
    · exact absurd hs hc.state.1
    · exact absurd hs hc.state.2
  | short hs hused =>
    refine ⟨.inl ⟨b, hc.buff, hc.used, hc.allocd⟩, fun h => ⟨hc.initial h, hused⟩, ?_, ?_, hc.state⟩
    · intro h
      rcases hs with hs | hs <;> simp [hs] at h
    · intro h
      rcases hc.message h with ⟨hoff, hptr⟩ | hd
      · exact .inl ⟨hoff, hptr, hused⟩
      · have hsize := hd.size
        have hlen := hc.used
        omega
  | @wait pre _ p h hp hlen =>
    have hwait := h.waiting hc hp hlen
    refine ⟨.inl ⟨b, h.buff_eq.trans hc.buff, by rw [h.used_eq, hc.used], ?_⟩, ?_, fun _ => hwait,
      fun _ => .inr hwait, ?_⟩
    · rw [← hc.allocd]
      cases h <;> rfl
    · intro hs
      cases h <;> simp_all [withHeader]
    · cases h <;> simp_all [withHeader]
  | rejected => exact settled_empty rfl rfl rfl rfl rfl (.inl rfl)
  | notInserted => exact settled_empty rfl rfl rfl rfl rfl (.inl rfl)
  | accepted => exact settled_empty rfl rfl rfl rfl rfl (.inr rfl)
  | @unanswered pre d t _ _ h _ _ _ _ _ hw =>
    have hans : answered (replied d ['2', '0', '0'] env) := hreply _ (by simp)
    simp only [replied, answered, decide_eq_true_eq] at hans
    rcases Write_cases d.fd (replyFrame (ascii ['2', '0', '0'])) env.write with hall | ⟨_, hne⟩
    · rw [hall] at hw
      simp at hw
    · exact absurd hans hne
  | forwarded _ hs => exact settled_empty rfl rfl rfl rfl rfl (.inr hs)

theorem EventStep.settled {s s' : ServerState} {e : Event} {effs : List Effect}
    (h : EventStep s e effs (.ok s')) (hreply : ∀ x ∈ effs, answered x)
    (hs : ∀ fd c, s.conns fd = some c → Settled c) : ∀ fd c, s'.conns fd = some c → Settled c := by
  refine h.forall_conns hs ?_ ?_
  · intro fd junk _
    exact settled_new fd junk
  · intro chunk c d c' b _ _ hsettled hr hb h
    have heq := hsettled.receive_eq chunk.le
    rw [hr] at heq
    cases heq
    obtain rfl : c.buff.bytes ++ chunk.bytes = b := by
      injection hb
    exact h.settled (hsettled.filled chunk.le) hreply

theorem run_settled {log : List (Event × List Effect)} {s : ServerState}
    (run : Run step Enabled start log s) (hreply : ∀ p ∈ log, ∀ x ∈ p.2, answered x) :
    ∀ fd c, s.conns fd = some c → Settled c := by
  refine run.invariant (I := fun log s => (∀ p ∈ log, ∀ x ∈ p.2, answered x) →
    ∀ fd c, s.conns fd = some c → Settled c) ?_ ?_ hreply
  · intro _ fd c hc
    cases hc
  · intro log s s' e ih he hok hreply
    simp only [List.forall_mem_append, List.forall_mem_singleton] at hreply
    exact (hok ▸ step_event he : EventStep s e _ (.ok s')).settled hreply.2 (ih hreply.1)

theorem Ptr.deref_no_overflow {α : Type} (p : Ptr α) : p.deref ≠ .error .overflow := by
  cases p <;> simp [Ptr.deref]

theorem DataStep.no_overflow {c : ClientConnData} {b : List UInt8} {tree : HbTree} {env : Env}
    {effs : List Effect} (hwf : tree.WellFormed) (hfits : chatFits c (env.mem b)) :
    ¬ DataStep c b tree env effs (.error .overflow) := by
  intro h
  cases h with
  | noPtr _ hp => exact Ptr.deref_no_overflow _ hp
  | insertFault _ _ _ _ hv hi => cases hwf.insert_fault (accounts_fit _ (authVerify_mem hv).1) hi
  | notForwarded _ _ _ _ hf =>
    rcases hf with hf | ⟨_, _, hf⟩
    · obtain ⟨dest, hdest, _⟩ := hwf.search (chatTo _ (env.mem b))
      rw [hdest] at hf
      cases hf
    · exact Ptr.deref_no_overflow _ hf
  | overran h _ hp hlen _ hu hlong =>
    have hle := h.frame_fits hp hlen hu hfits
    omega

theorem EventStep.no_overflow {s : ServerState} {e : Event} {effs : List Effect}
    (hs : ∀ fd c, s.conns fd = some c → Settled c) (hwf : s.tree.WellFormed) (hfits : framesFit s e) :
    ¬ EventStep s e effs (.error .overflow) := by
  intro h
  cases h with
  | dropFault _ _ hf =>
    rcases hf with ⟨_, hf⟩ | ⟨u, _, hf⟩
    · cases hf
    · cases hwf.remove_fault hf
  | notReceived hc hr =>
    rw [(hs _ _ hc).receive_eq (Chunk.le _)] at hr
    cases hr
  | dataFault hc hr hb h =>
    simp only [framesFit, arrived_eq hc hr hb] at hfits
    exact h.no_overflow hwf hfits

/-- Where every reply is written in full and no event goes beyond the blocks of the server: every
open record is settled between events, its counters stay below 65535, so no read makes them wrap,
and the next event writes behind no block. -/
theorem records_settled {log : List (Event × List Effect)} {s : ServerState}
    (run : Run step (fun s e => Enabled s e ∧ keepsMemory s e) start log s)
    (hreply : ∀ p ∈ log, ∀ x ∈ p.2, answered x) :
    (∀ fd c, s.conns fd = some c → Settled c ∧ c.bufferUsed.toNat ≤ 65534 ∧ ∀ chunk : Chunk,
      (c.bufferUsed + UInt32.ofNat chunk.bytes.length).toNat =
          c.bufferUsed.toNat + chunk.bytes.length ∧
        (c.bufferAllocd + UInt32.ofNat chunk.bytes.length).toNat =
          c.bufferAllocd.toNat + chunk.bytes.length) ∧
    ∀ e, Enabled s e → keepsMemory s e → (step s e).result ≠ .error .overflow := by
  have hrun : Run step Enabled start log s := run.mono fun _ _ h => h.1
  have hall := run_settled hrun hreply
  constructor
  · intro fd c hc
    have hsettled := hall fd c hc
    have hused := hsettled.used_lt
    refine ⟨hsettled, by omega, ?_⟩
    intro chunk
    have hadd := Settled.toNat_add_chunk hused chunk.le
    rw [hsettled.allocd_eq]
    exact ⟨hadd, hadd⟩
  · intro e he hm hover
    have hstep := step_event he
    rw [hover] at hstep
    exact hstep.no_overflow hall (run_wellFormed hrun) (keepsMemory_iff.mp hm).2

def partOfChat : List (Event × List Effect) × ServerState :=
  (Run.exec step (fun s e => decide (Enabled s e) && keepsMemory s e) ([], start)
    [.accept 5 zeroed, login 5 '1',
      gets 5 ((packet MSG_TYPE_CHAT_MSG (userName '2') (ascii ['h', 'i'])).take 20)]).get
    (by decide +kernel)

theorem partOfChat_records_settled :
    (∀ fd c, partOfChat.2.conns fd = some c → Settled c ∧ c.bufferUsed.toNat ≤ 65534 ∧ ∀ chunk : Chunk,
      (c.bufferUsed + UInt32.ofNat chunk.bytes.length).toNat =
          c.bufferUsed.toNat + chunk.bytes.length ∧
        (c.bufferAllocd + UInt32.ofNat chunk.bytes.length).toNat =
          c.bufferAllocd.toNat + chunk.bytes.length) ∧
    ∀ e, Enabled partOfChat.2 e → keepsMemory partOfChat.2 e →
      (step partOfChat.2 e).result ≠ .error .overflow :=
  records_settled (Run.run_exec_get (fun _ _ h => by simpa using h) _) (by decide +kernel)

section
variable {log : List (Event × List Effect)} {s : ServerState} {fd : Int} {c : ClientConnData} {p : Packet}

theorem answered_of_seen {m : Act ServerState} {effs : List Effect} (h : (seen m).effects = effs)
    (heffs : ∀ x ∈ effs, answered x) : ∀ x ∈ m.effects, answered x := by
  intro x hx
  cases x with
  | reply fd frame accepted =>
    refine heffs _ ?_
    rw [← h]
    exact List.mem_filter.mpr ⟨hx, rfl⟩
  | _ => rfl

theorem run_holding {b y : List UInt8} (run : Run step Enabled start log s)
    (hreply : ∀ p ∈ log, ∀ x ∈ p.2, answered x) (hc : s.conns fd = some c) (hrests : Rests c)
    (hfd : 0 ≤ c.fd) (hp : b ++ y = p.wire) (hy : y ≠ []) :
    ∃ log' s', Run step Enabled start log' s' ∧ (∀ p ∈ log', ∀ x ∈ p.2, answered x) ∧
      s'.conns fd = some (holding c b) ∧ s'.tree = s.tree := by
  induction b using List.reverseRecOn generalizing y with
  | nil => exact ⟨log, s, run, hreply, by simpa using hc, rfl⟩
  | append_singleton b x ih =>
    obtain ⟨log', s', run', hreply', hc', htree⟩ := ih (y := x :: y) (by simpa using hp) (by simp)
    let chunk : Chunk := ⟨[x], by simp, by simp⟩
    have hstep := step_inside hc' hrests hfd (show quiet.Writes from writeAll_ne_none)
      (show b ++ chunk.bytes ++ y = p.wire from hp) hy
    have hok : (step s' (.data fd chunk quiet)).result = .ok _ :=
      (congrArg Traced.result hstep : (seen (step s' (.data fd chunk quiet))).result = _)
    refine ⟨_, _, run'.snoc (by simp [Enabled, hc']) hok, ?_, by simp [chunk], htree⟩
    simp only [List.forall_mem_append, List.forall_mem_singleton]
    exact ⟨hreply', answered_of_seen (congrArg Traced.effects hstep) (by simp)⟩

/-- A packet whose frame does not fit its block is sent. -/
theorem run_overruns {x : Effect} (run : Run step Enabled start log s)
    (hreply : ∀ p ∈ log, ∀ x ∈ p.2, answered x) (hc : s.conns fd = some c) (hrests : Rests c)
    (hfd : 0 ≤ c.fd) (hx : answered x) (hover : servePacket c s.tree 0 p = ⟨[x], .error .overflow⟩) :
    ∃ log s e, Run step Enabled start log s ∧ (∀ p ∈ log, ∀ x ∈ p.2, answered x) ∧ Enabled s e ∧
      (∀ x ∈ (step s e).effects, answered x) ∧ (step s e).result = .error .overflow := by
  have hne : p.wire ≠ [] := by
    intro h
    have hlen := p.wire_length
    simp [h] at hlen
    omega
  let chunk : Chunk := ⟨[p.wire.getLast hne], by simp, by simp⟩
  have hwire : p.wire.dropLast ++ chunk.bytes = p.wire := List.dropLast_append_getLast hne
  obtain ⟨log', s', run', hreply', hc', htree⟩ := run_holding run hreply hc hrests hfd hwire (by simp [chunk])
  have hstep := step_end hc' hrests hfd (show quiet.Writes from writeAll_ne_none) hwire
  rw [htree, show quiet.bal = 0 from rfl, hover, Traced.bind_error] at hstep
  refine ⟨log', s', .data fd chunk quiet, run', hreply', by simp [Enabled, hc'], ?_,
    congrArg Traced.result hstep⟩
  exact answered_of_seen (congrArg Traced.effects hstep) (by simpa using hx)

end

def restingSession : List (Event × List Effect) × ServerState :=
  (Run.exec step (fun s e => decide (Enabled s e)) ([], start) [.accept 5 zeroed, login 5 '1']).get
    (by decide +kernel)

theorem restingSession_conn : (restingSession.2.conns 5).isSome := by decide +kernel

def longestMessage : Packet where
  messageType := MSG_TYPE_CHAT_MSG
  first := []
  second := List.replicate 65519 0
  fits := by
    rw [List.length_nil, List.length_replicate]
    omega

theorem longestMessage_overruns {c : ClientConnData} {tree : HbTree} {dest : Int}
    (hs : c.clientState = .messageState) (hu : c.user = .live (CString.ofBuffer (userName '1')))
    (hdest : tree.hbTreeSearch (CString.ofBuffer []) = .ok dest) :
    ∃ x, answered x ∧ servePacket c tree 0 longestMessage = ⟨[x], .error .overflow⟩ := by
  have hsecond : longestMessage.second.length = 65519 := List.length_replicate
  have hname : (CString.ofBuffer (userName '1')).strlen = 5 := by decide
  have hlen : (decodedChat longestMessage.header longestMessage.first
      longestMessage.second).messageLen.toNat = longestMessage.second.length := by
    rw [decodedChat, hsecond]
    rfl
  refine ⟨_, rfl, serve_overruns 0 longestMessage.header longestMessage.second hs hdest hu ?_⟩
  rw [relayed, relayedBlock, updateBuff_length rfl hlen (by omega), updateBuffAllocd,
    updateBuff_len (by omega), hlen]
  omega

theorem restingSession_overruns :
    ∃ log s e, Run step Enabled start log s ∧ (∀ p ∈ log, ∀ x ∈ p.2, answered x) ∧ Enabled s e ∧
      (∀ x ∈ (step s e).effects, answered x) ∧ (step s e).result = .error .overflow := by
  have run : Run step Enabled start restingSession.1 restingSession.2 :=
    Run.run_exec_get (fun _ _ h => by simpa using h) _
  obtain ⟨dest, hdest, _⟩ := (run_wellFormed run).search (CString.ofBuffer [])
  obtain ⟨x, hx, hover⟩ := longestMessage_overruns
    (c := (restingSession.2.conns 5).get restingSession_conn) (by decide +kernel) (by decide +kernel) hdest
  exact run_overruns run (by decide +kernel) (Option.some_get restingSession_conn).symm
    ⟨by decide +kernel, by decide +kernel, by decide +kernel, by decide +kernel⟩ (by decide +kernel) hx hover

end Server
end TeamsInC
