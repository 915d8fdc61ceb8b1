import TeamsInC.Packets
import TeamsInC.Server.Steps

/-!
# What the decoders read

The handlers decode the two strings of a packet as soon as as many bytes are there as its
header announces; how many bytes the decoder reads depends on the lengths of the strings
alone. It stays within the bytes received exactly when those lengths let it.
-/

set_option autoImplicit false

namespace TeamsInC
namespace Server

/-- What a record holds in each state. -/
structure Shaped (c : ClientConnData) : Prop where
  initial : c.clientState = .initialState → c.offset = 0
  auth : c.clientState = .authState → ∃ t, c.ptr = .live (.auth t)
  chat : c.clientState = .messageState → c.offset ≠ 0 → ∃ t, c.ptr = .live (.chat t)

theorem receive_shaped {c d : ClientConnData} {chunk : List UInt8} (h : receive c chunk = .ok d)
    (hc : Shaped c) : Shaped d := by
  obtain ⟨old, allocd, rfl, _⟩ := receive_ok h
  exact ⟨hc.initial, hc.auth, hc.chat⟩

theorem Headed.kind {c d : ClientConnData} {m : Mem} {pre : List Effect} (h : Headed c m pre d)
    (hc : Shaped c) :
    d.clientState = .authState ∧ (∃ t, d.ptr = .live (.auth t)) ∨
      d.clientState = .messageState ∧ d.offset ≠ 0 ∧ ∃ t, d.ptr = .live (.chat t) := by
  cases h with
  | initial => exact .inl ⟨rfl, _, rfl⟩
  | auth hs => exact .inl ⟨hs, hc.auth hs⟩
  | first hs hused hoff =>
    refine .inr ⟨rfl, ?_, _, rfl⟩
    simp [withHeader, hoff]
  | chat hs hused hoff => exact .inr ⟨hs, hoff, hc.chat hs hoff⟩

theorem Headed.shaped {c d : ClientConnData} {m : Mem} {pre : List Effect} (h : Headed c m pre d)
    (hc : Shaped c) : Shaped d := by
  rcases h.kind hc with ⟨hs, hp⟩ | ⟨hs, hoff, hp⟩
  · exact ⟨by simp [hs], fun _ => hp, by simp [hs]⟩
  · exact ⟨by simp [hs], by simp [hs], fun _ _ => hp⟩

theorem DataStep.shaped {c c' : ClientConnData} {b : List UInt8} {tree tree' : HbTree} {env : Env}
    {effs : List Effect} (h : DataStep c b tree env effs (.ok (some c', tree'))) (hc : Shaped c) :
    Shaped c' := by
  cases h with
  | idle => exact hc
  | short => exact hc
  | wait h => exact h.shaped hc
  | rejected => exact ⟨fun _ => rfl, by simp [rejectedRecord], by simp [rejectedRecord]⟩
  | notInserted => exact ⟨fun _ => rfl, by simp [rejectedRecord], by simp [rejectedRecord]⟩
  | accepted => exact ⟨by simp, by simp, by simp [cleared]⟩
  | unanswered _ hs =>
    exact ⟨by simp [afterLogin, hs], fun _ => ⟨_, rfl⟩, by simp [afterLogin, hs]⟩
  | forwarded _ hs => exact ⟨by simp [cleared, hs], by simp [cleared, hs], by simp [cleared]⟩

theorem EventStep.shaped {s s' : ServerState} {e : Event} {effs : List Effect}
    (h : EventStep s e effs (.ok s')) (hs : ∀ fd c, s.conns fd = some c → Shaped c) :
    ∀ fd c, s'.conns fd = some c → Shaped c := by
  refine h.forall_conns hs ?_ ?_
  · intro fd junk _
    exact ⟨fun _ => rfl, by simp [createNewClient], by simp [createNewClient]⟩
  · intro _ _ _ _ _ _ _ hc hr _ h
    exact h.shaped (receive_shaped hr hc)

/-- Every index that a decoder loads is below the number of bytes received. -/
def InReceived : Effect → Prop
  | .decode _ reads used => ∀ r ∈ reads, ∀ i < r.2, r.1 + i < used
  | _ => True

/-- Where the announced length is reached, the two strings end within the bytes received. -/
def FieldsReceived (c : ClientConnData) (m : Mem) : Prop :=
  ∀ d p, headed c m = some d → d.ptr = .live p → p.header.len.toNat ≤ d.bufferUsed.toNat →
    d.offset.toNat + 4 + (m.u16 d.offset.toNat).toNat + (m.u16 (m.secondAt d.offset).toNat).toNat ≤
      d.bufferUsed.toNat

instance (c : ClientConnData) (m : Mem) : Decidable (FieldsReceived c m) :=
  match hd : headed c m with
  | none => .isTrue fun _ _ h => by simp [hd] at h
  | some d =>
    match hp : d.ptr with
    | .live p => decidable_of_iff (p.header.len.toNat ≤ d.bufferUsed.toNat →
        d.offset.toNat + 4 + (m.u16 d.offset.toNat).toNat + (m.u16 (m.secondAt d.offset).toNat).toNat ≤
          d.bufferUsed.toNat) ⟨fun hall d' p' h h' => by
            cases hd.symm.trans h
            cases hp.symm.trans h'
            exact hall, fun hall => hall d p hd hp⟩
    | .null => .isTrue fun _ _ h h' => by
        cases hd.symm.trans h
        cases hp.symm.trans h'
    | .freed => .isTrue fun _ _ h h' => by
        cases hd.symm.trans h
        cases hp.symm.trans h'

/-- No wrap of the 32-bit offset hides a read out of bounds. -/
theorem fieldReads_received (m : Mem) (offset : UInt32) {used : Nat} (hused : used < 2 ^ 32) :
    (∀ r ∈ m.fieldReads offset, ∀ i < r.2, r.1 + i < used) ↔
      offset.toNat + 4 + (m.u16 offset.toNat).toNat + (m.u16 (m.secondAt offset).toNat).toNat ≤ used := by
  have hn := (m.u16 offset.toNat).toNat_lt
  have hk := (m.u16 (m.secondAt offset).toNat).toNat_lt
  have h2 : (offset + 2).toNat = (offset.toNat + 2) % 2 ^ 32 := UInt32.toNat_add offset 2
  have hat : (m.secondAt offset).toNat =
      ((offset + 2).toNat + (m.u16 offset.toNat).toNat % 2 ^ 32) % 2 ^ 32 := by
    rw [Mem.secondAt, UInt32.toNat_add, UInt32.toNat_ofNat']
  have h4 : (m.secondAt offset + 2).toNat = ((m.secondAt offset).toNat + 2) % 2 ^ 32 :=
    UInt32.toNat_add (m.secondAt offset) 2
  simp only [Mem.fieldReads, List.forall_mem_cons, range_below, List.not_mem_nil, false_implies,
    implies_true, and_true]
  generalize m.u16 (m.secondAt offset).toNat = k at *
  omega

theorem headerReads_received {offset : UInt32} {used : Nat} (h0 : offset = 0) (h : SIZE_HEADER ≤ used) :
    ∀ r ∈ headerReads offset, ∀ i < r.2, r.1 + i < used := by
  subst h0
  simp only [SIZE_HEADER, sizeofMessageHeader] at h
  simp only [headerReads, List.forall_mem_cons, range_below, List.not_mem_nil, false_implies,
    implies_true, and_true, UInt32.reduceAdd, UInt32.reduceToNat]
  omega

theorem Headed.pre_received {c d : ClientConnData} {m : Mem} {pre : List Effect}
    (h : Headed c m pre d) (hc : Shaped c) : ∀ x ∈ pre, InReceived x := by
  intro x hx
  cases h with
  | initial hs hused =>
    rw [List.mem_singleton.mp hx]
    exact headerReads_received (hc.initial hs) hused
  | auth => simp at hx
  | first hs hused hoff =>
    rw [List.mem_singleton.mp hx]
    exact headerReads_received hoff hused
  | chat => simp at hx

theorem Headed.fields_received {c d : ClientConnData} {m : Mem} {pre rest : List Effect} {p : Payload}
    (h : Headed c m pre d) (hc : Shaped c) (hp : d.ptr = .live p)
    (hlen : p.header.len.toNat ≤ d.bufferUsed.toNat) (hrest : ∀ x ∈ rest, InReceived x) :
    (∀ x ∈ pre ++ fieldsDecoded d m :: rest, InReceived x) ↔ FieldsReceived c m := by
  have hfields : InReceived (fieldsDecoded d m) ↔ _ :=
    fieldReads_received m d.offset d.bufferUsed.toNat_lt
  have hpre := h.pre_received hc
  constructor
  · intro hall d' p' hd' hp' _
    rw [h.headed] at hd'
    cases hd'
    exact hfields.mp (hall _ (by simp))
  · intro hrec x hx
    rcases List.mem_append.mp hx with hx | hx
    · exact hpre x hx
    · rcases List.mem_cons.mp hx with rfl | hx
      · exact hfields.mpr (hrec d p h.headed hp hlen)
      · exact hrest x hx

theorem DataStep.received_iff {c : ClientConnData} {b : List UInt8} {tree : HbTree} {env : Env}
    {effs : List Effect} {result : Except Fault (Option ClientConnData × HbTree)}
    (h : DataStep c b tree env effs result) (hc : Shaped c) :
    (∀ x ∈ effs, InReceived x) ↔ FieldsReceived c (env.mem b) := by
  have none {effs' : List Effect} (hall : ∀ x ∈ effs', InReceived x) (hno : headed c (env.mem b) = none) :
      (∀ x ∈ effs', InReceived x) ↔ FieldsReceived c (env.mem b) :=
    iff_of_true hall fun d p hd => by simp [hno] at hd
  cases h with
  | idle hs => exact none (by simp) (by rcases hs with hs | hs <;> simp [headed, hs])
  | short hs hused =>
    exact none (by simp) (by rcases hs with hs | hs <;> simp [headed, hs, Nat.not_le.mpr hused])
  | badHeader hs hused magic =>
    refine none ?_ ?_
    · have h0 : c.offset = 0 := by
        rcases hs with hs | ⟨_, hoff⟩
        · exact hc.initial hs
        · exact hoff
      simp only [List.forall_mem_cons]
      refine ⟨headerReads_received h0 hused, trivial, trivial, ?_⟩
      simp [InReceived]
    · rcases hs with hs | ⟨hs, hoff⟩
      · simp [headed, hs, magic]
      · simp [headed, hs, hoff, hoff ▸ magic]
  | noPtr h hp =>
    rcases h.kind hc with ⟨_, t, ht⟩ | ⟨_, _, t, ht⟩ <;> simp [ht, Ptr.deref] at hp
  | wait h hp hlen =>
    refine iff_of_true (h.pre_received hc) ?_
    intro d' p' hd' hp' hlen'
    rw [h.headed] at hd'
    cases hd'
    rw [hp] at hp'
    cases hp'
    omega
  | badPtr h hp hkind =>
    rcases h.kind hc with ⟨hs, t, ht⟩ | ⟨hs, _, t, ht⟩ <;> rw [hp] at ht <;> cases ht <;>
      simp [hs] at hkind
  | rejected h hs hp hlen =>
    rw [List.append_assoc]
    exact h.fields_received hc hp hlen (by simp [InReceived, verified, replied])
  | insertFault h hs hp hlen => exact h.fields_received hc hp hlen (by simp [InReceived, verified])
  | notInserted h hs hp hlen =>
    rw [List.append_assoc]
    exact h.fields_received hc hp hlen (by simp [InReceived, verified, replied])
  | accepted h hs hp hlen => exact h.fields_received hc hp hlen (by simp [InReceived, verified, replied])
  | unanswered h hs hp hlen => exact h.fields_received hc hp hlen (by simp [InReceived, verified, replied])
  | notForwarded h hs hp hlen => exact h.fields_received hc hp hlen (by simp)
  | forwarded h hs hp hlen => exact h.fields_received hc hp hlen (by simp [InReceived])
  | overran h hs hp hlen => exact h.fields_received hc hp hlen (by simp [InReceived])

/-- The condition on an event: the bytes it brings let the decoders stay within them. -/
def BringsFields (s : ServerState) : Event → Prop
  | .data fd chunk env => ∀ c b, arrived s fd chunk = some (c, b) → FieldsReceived c (env.mem b)
  | _ => True

instance (s : ServerState) : (e : Event) → Decidable (BringsFields s e)
  | .accept _ _ => .isTrue trivial
  | .epollerr _ => .isTrue trivial
  | .again _ => .isTrue trivial
  | .eof _ => .isTrue trivial
  | .data fd chunk env =>
    match h : arrived s fd chunk with
    | none => .isTrue fun _ _ h' => by simp [h] at h'
    | some (c, b) => decidable_of_iff (FieldsReceived c (env.mem b)) (by simp [BringsFields, h])

theorem EventStep.received_iff {s : ServerState} {e : Event} {effs : List Effect}
    {result : Except Fault ServerState} (h : EventStep s e effs result)
    (hs : ∀ fd c, s.conns fd = some c → Shaped c) :
    (∀ x ∈ effs, InReceived x) ↔ BringsFields s e := by
  have closing {c : ClientConnData} : ∀ x ∈ freeEffects c, InReceived x := by
    intro x hx
    simp only [freeEffects, List.mem_append, mem_misuseOf] at hx
    rcases hx with ⟨_, rfl⟩ | ⟨_, rfl⟩ | ⟨_, rfl⟩ <;> trivial
  have other {e : Event} {fd : Int} (he : e = .epollerr fd ∨ e = .eof fd) : BringsFields s e := by
    rcases he with rfl | rfl <;> trivial
  have bring {fd : Int} {chunk : Chunk} {env : Env} {c d : ClientConnData} {b : List UInt8}
      {effs : List Effect} {r : Except Fault (Option ClientConnData × HbTree)}
      (hc : s.conns fd = some c) (hr : receive c chunk.bytes = .ok d) (hb : d.buff = .live b)
      (h : DataStep d b s.tree env effs r) :
      (∀ x ∈ effs, InReceived x) ↔ BringsFields s (.data fd chunk env) := by
    rw [h.received_iff (receive_shaped hr (hs _ _ hc))]
    simp only [BringsFields, arrived_eq hc hr hb, Option.some.injEq, Prod.mk.injEq]
    exact ⟨fun hf c' b' h => h.1 ▸ h.2 ▸ hf, fun hf => hf d b ⟨rfl, rfl⟩⟩
  cases h with
  | accept => exact iff_of_true (by simp [InReceived]) trivial
  | again => exact iff_of_true (by simp) trivial
  | drop he hc hu =>
    refine iff_of_true ?_ (other he)
    exact List.forall_mem_cons.mpr ⟨trivial, closing⟩
  | dropUser he hc hu hr =>
    refine iff_of_true ?_ (other he)
    exact List.forall_mem_cons.mpr ⟨trivial, List.forall_mem_cons.mpr ⟨trivial, closing⟩⟩
  | dropFault he => exact iff_of_true (by simp) (other he)
  | notReceived hc hr =>
    refine iff_of_true (by simp) ?_
    intro c b hcb
    simp [arrived, hc, hr] at hcb
  | data hc hr hb h => exact bring hc hr hb h
  | dataFault hc hr hb h => exact bring hc hr hb h

theorem run_shaped {log : List (Event × List Effect)} {s : ServerState}
    (run : Run step Enabled start log s) : ∀ fd c, s.conns fd = some c → Shaped c :=
  run.invariant (I := fun _ s => ∀ fd c, s.conns fd = some c → Shaped c) (by simp [start])
    fun _ s s' e H he hok => (hok ▸ step_event he : EventStep s e _ (.ok s')).shaped H

end Server
end TeamsInC
