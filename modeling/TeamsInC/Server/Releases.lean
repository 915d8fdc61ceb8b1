import TeamsInC.Server.DecodeBounds
import TeamsInC.Server.Registration

/-!
# What is released, and when

`VerifyHeader` and `Header` free what they have allocated when the magic is not ours, and
leave the pointer in the record; the close that follows frees it again. Nothing else in the
life of a record is released twice or used after its release.
-/

set_option autoImplicit false

namespace TeamsInC
namespace Server

/-- No block of the record has been released, and a session has a name. -/
structure Owned (c : ClientConnData) : Prop where
  ptr : c.ptr ≠ .freed
  buff : c.buff ≠ .freed
  user : c.user ≠ .freed
  session : c.clientState = .messageState → ∃ u, c.user = .live u

theorem receive_owned {c d : ClientConnData} {chunk : List UInt8} (h : receive c chunk = .ok d)
    (hc : Owned c) : Owned d := by
  obtain ⟨old, allocd, rfl, _⟩ := receive_ok h
  refine ⟨hc.ptr, ?_, hc.user, hc.session⟩
  simp [received]

theorem receive_fault {c : ClientConnData} {chunk : List UInt8} {f : Fault}
    (h : receive c chunk = .error f) (hc : Owned c) : f = .overflow := by
  simp only [receive] at h
  cases hb : c.buff with
  | null =>
    simp only [hb, ok_bind] at h
    split at h
    · cases h
    · cases h
      rfl
  | live old =>
    simp only [hb, ok_bind] at h
    split at h
    · cases h
    · cases h
      rfl
  | freed => exact absurd hb hc.buff

theorem Headed.owned {c d : ClientConnData} {m : Mem} {pre : List Effect} (h : Headed c m pre d)
    (hc : Owned c) : Owned d := by
  constructor
  · cases h with
    | initial => simp [withHeader]
    | auth => exact hc.ptr
    | first => simp [withHeader]
    | chat => exact hc.ptr
  · rw [h.buff_eq]
    exact hc.buff
  · rw [h.user_eq]
    exact hc.user
  · rw [h.user_eq, h.message_iff]
    exact hc.session

theorem DataStep.owned {c c' : ClientConnData} {b : List UInt8} {tree tree' : HbTree} {env : Env}
    {effs : List Effect} (h : DataStep c b tree env effs (.ok (some c', tree'))) (hc : Owned c) :
    Owned c' := by
  cases h with
  | idle => exact hc
  | short => exact hc
  | wait h => exact h.owned hc
  | rejected => constructor <;> simp [rejectedRecord, cleared]
  | notInserted => constructor <;> simp [rejectedRecord, cleared]
  | accepted => constructor <;> simp [cleared]
  | unanswered h =>
    refine ⟨?_, (h.owned hc).buff, ?_, ?_⟩
    · simp [afterLogin]
    · simp
    · simp
  | forwarded h =>
    have hd := h.owned hc
    refine ⟨?_, ?_, hd.user, hd.session⟩
    · simp [cleared]
    · simp [cleared]

/-- `malloc` has left nothing in a new record. -/
def startsNone : Event → Bool
  | .accept _ junk => junk.ptr = .null ∧ junk.user = .null
  | _ => true

theorem EventStep.owned {s s' : ServerState} {e : Event} {effs : List Effect}
    (h : EventStep s e effs (.ok s')) (hnone : startsNone e)
    (hs : ∀ fd c, s.conns fd = some c → Owned c) : ∀ fd c, s'.conns fd = some c → Owned c := by
  refine h.forall_conns hs ?_ ?_
  · rintro fd junk rfl
    obtain ⟨hptr, huser⟩ : junk.ptr = .null ∧ junk.user = .null := by simpa [startsNone] using hnone
    constructor <;> simp [createNewClient, hptr, huser]
  · intro _ _ _ _ _ _ _ hc hr _ h
    exact h.owned (receive_owned hr hc)

def isMisuse : Effect → Bool
  | .misuse _ _ => true
  | _ => false

/-- Nothing released before is released or used. -/
def Disciplined {α : Type} (effs : List Effect) (result : Except Fault α) : Prop :=
  (∀ x ∈ effs, isMisuse x = false) ∧ result ≠ .error .dangling

/-- The bytes complete a header that is decoded now, and its magic is not ours. -/
def strangeHeader (c : ClientConnData) (m : Mem) : Bool :=
  (c.clientState = .initialState ∨ c.clientState = .messageState ∧ c.offset = 0) ∧
    SIZE_HEADER ≤ c.bufferUsed.toNat ∧ (m.header c.offset).magic ≠ MAGIC

def bringsHeader (s : ServerState) : Event → Bool
  | .data fd chunk env =>
    match arrived s fd chunk with
    | some (c, b) => !strangeHeader c (env.mem b)
    | none => true
  | _ => true

theorem Headed.not_strange {c d : ClientConnData} {m : Mem} {pre : List Effect} (h : Headed c m pre d) :
    strangeHeader c m = false := by
  cases h with
  | initial hs hused magic => simp [strangeHeader, magic]
  | auth hs => simp [strangeHeader, hs]
  | first hs hused hoff magic => simp [strangeHeader, magic]
  | chat hs hused hoff => simp [strangeHeader, hs, hoff]

theorem Headed.pre_clean {c d : ClientConnData} {m : Mem} {pre : List Effect} (h : Headed c m pre d) :
    ∀ x ∈ pre, isMisuse x = false := by
  intro x hx
  rw [h.eq_decode hx]
  rfl

theorem misuseOf_clean {α : Type} {p : Ptr α} (fd : Int) (item : Item) (hp : p ≠ .freed) :
    misuseOf fd item p = [] := by
  cases p with
  | null => rfl
  | live a => rfl
  | freed => exact absurd rfl hp

theorem Owned.freeEffects_eq {c : ClientConnData} (hc : Owned c) : freeEffects c = [] := by
  rw [freeEffects, misuseOf_clean _ _ hc.ptr, misuseOf_clean _ _ hc.buff, misuseOf_clean _ _ hc.user]
  rfl

/-- The bytes of a read lead to a second release, or to a use after one, exactly when they complete
a header that is not ours. -/
theorem DataStep.disciplined_iff {c : ClientConnData} {b : List UInt8} {tree : HbTree} {env : Env}
    {effs : List Effect} {result : Except Fault (Option ClientConnData × HbTree)}
    (h : DataStep c b tree env effs result) (hc : Owned c) (hshaped : Shaped c)
    (hwf : tree.WellFormed) : Disciplined effs result ↔ strangeHeader c (env.mem b) = false := by
  have rest {pre effs : List Effect} {d : ClientConnData} (h : Headed c (env.mem b) pre d)
      (heffs : ∀ x ∈ effs, isMisuse x = false) : ∀ x ∈ pre ++ effs, isMisuse x = false :=
    List.forall_mem_append.mpr ⟨h.pre_clean, heffs⟩
  cases h with
  | idle hs =>
    refine iff_of_true ⟨by simp, by simp⟩ ?_
    rcases hs with hs | hs <;> simp [strangeHeader, hs]
  | short hs hused => exact iff_of_true ⟨by simp, by simp⟩ (by simp [strangeHeader, Nat.not_le.mpr hused])
  | badHeader hs hused magic =>
    refine iff_of_false ?_ (by simp [strangeHeader, hs, hused, magic])
    intro hdisc
    have hmisuse := hdisc.1 (.misuse c.fd .ptr) (by simp)
    cases hmisuse
  | noPtr h hp =>
    rcases h.kind hshaped with ⟨_, t, ht⟩ | ⟨_, _, t, ht⟩ <;> simp [ht, Ptr.deref] at hp
  | wait h => exact iff_of_true ⟨h.pre_clean, by simp⟩ h.not_strange
  | badPtr h hp hkind =>
    rcases h.kind hshaped with ⟨hs, t, ht⟩ | ⟨hs, _, t, ht⟩ <;> rw [hp] at ht <;> cases ht <;>
      simp [hs] at hkind
  | rejected h =>
    rw [misuseOf_clean _ _ (h.owned hc).user, List.append_nil]
    exact iff_of_true ⟨rest h (by simp [isMisuse, fieldsDecoded, verified, replied]), by simp⟩
      h.not_strange
  | insertFault h hs hp hlen hv hi =>
    refine iff_of_true ⟨rest h (by simp [isMisuse, fieldsDecoded, verified]), ?_⟩ h.not_strange
    rw [hwf.insert_fault (accounts_fit _ (authVerify_mem hv).1) hi]
    simp
  | notInserted h =>
    rw [misuseOf_clean _ _ (h.owned hc).user, List.append_nil]
    exact iff_of_true ⟨rest h (by simp [isMisuse, fieldsDecoded, verified, replied]), by simp⟩
      h.not_strange
  | accepted h =>
    exact iff_of_true ⟨rest h (by simp [isMisuse, fieldsDecoded, verified, replied]), by simp⟩
      h.not_strange
  | unanswered h =>
    exact iff_of_true ⟨rest h (by simp [isMisuse, fieldsDecoded, verified, replied]), by simp⟩
      h.not_strange
  | notForwarded h hs hp hlen hf =>
    obtain ⟨dest, hdest, _⟩ := hwf.search (chatTo _ (env.mem b))
    obtain ⟨u, hu⟩ := (h.owned hc).session hs
    rcases hf with hf | ⟨_, _, hf⟩
    · rw [hdest] at hf
      cases hf
    · rw [hu] at hf
      cases hf
  | forwarded h =>
    exact iff_of_true ⟨rest h (by simp [isMisuse, fieldsDecoded]), by simp⟩ h.not_strange
  | overran h =>
    exact iff_of_true ⟨rest h (by simp [isMisuse, fieldsDecoded]), by simp⟩ h.not_strange

/-- What holds of the records and the tree when an event comes. -/
structure Tidy (s : ServerState) : Prop where
  owned : ∀ fd c, s.conns fd = some c → Owned c
  shaped : ∀ fd c, s.conns fd = some c → Shaped c
  tree : s.tree.WellFormed

theorem EventStep.disciplined_iff {s : ServerState} {e : Event} {effs : List Effect}
    {result : Except Fault ServerState} (h : EventStep s e effs result) (hs : Tidy s) :
    Disciplined effs result ↔ bringsHeader s e := by
  have other {e : Event} {fd : Int} (he : e = .epollerr fd ∨ e = .eof fd) : bringsHeader s e := by
    rcases he with rfl | rfl <;> rfl
  have bring {fd : Int} {chunk : Chunk} {env : Env} {c d : ClientConnData} {b : List UInt8}
      {effs : List Effect} {r : Except Fault (Option ClientConnData × HbTree)}
      (hc : s.conns fd = some c) (hr : receive c chunk.bytes = .ok d) (hb : d.buff = .live b)
      (h : DataStep d b s.tree env effs r) :
      Disciplined effs r ↔ bringsHeader s (.data fd chunk env) := by
    rw [h.disciplined_iff (receive_owned hr (hs.owned _ _ hc)) (receive_shaped hr (hs.shaped _ _ hc))
      hs.tree]
    simp only [bringsHeader, arrived_eq hc hr hb, Bool.not_eq_true']
  cases h with
  | accept => exact iff_of_true ⟨by simp [isMisuse], by simp⟩ rfl
  | again => exact iff_of_true ⟨by simp, by simp⟩ rfl
  | drop he hc hu =>
    refine iff_of_true ⟨?_, by simp⟩ (other he)
    simp [(hs.owned _ _ hc).freeEffects_eq, isMisuse]
  | dropUser he hc hu hr =>
    refine iff_of_true ⟨?_, by simp⟩ (other he)
    simp [(hs.owned _ _ hc).freeEffects_eq, isMisuse]
  | @dropFault _ fd c f he hc hf =>
    refine iff_of_true ⟨by simp, ?_⟩ (other he)
    rcases hf with ⟨hf, _⟩ | ⟨u, _, hf⟩
    · exact absurd hf (hs.owned _ _ hc).user
    · rw [hs.tree.remove_fault hf]
      simp
  | notReceived hc hr =>
    refine iff_of_true ⟨by simp, ?_⟩ (by simp [bringsHeader, arrived, hc, hr])
    rw [receive_fault hr (hs.owned _ _ hc)]
    simp
  | data hc hr hb h =>
    rw [← bring hc hr hb h]
    simp [Disciplined]
  | dataFault hc hr hb h =>
    rw [← bring hc hr hb h]
    simp [Disciplined]

theorem run_tidy {log : List (Event × List Effect)} {s : ServerState}
    (run : Run step (fun s e => Enabled s e ∧ startsNone e) start log s) : Tidy s := by
  have hrun : Run step Enabled start log s := run.mono fun _ _ h => h.1
  refine ⟨?_, run_shaped hrun, run_wellFormed hrun⟩
  refine run.invariant (I := fun _ s => ∀ fd c, s.conns fd = some c → Owned c) (by simp [start]) ?_
  intro log s s' e H he hok
  exact (hok ▸ step_event he.1 : EventStep s e _ (.ok s')).owned he.2 H

/-- In a run and the event after it, nothing is released or used that has been released, if and
only if no event brings the rest of a header that is not ours. -/
theorem releases_once_iff {log : List (Event × List Effect)} {s : ServerState} {e : Event}
    (run : Run step (fun s e => Enabled s e ∧ startsNone e) start log s) (he : Enabled s e) :
    ((∀ p ∈ log ++ [(e, (step s e).effects)], ∀ x ∈ p.2, isMisuse x = false) ∧
        (step s e).result ≠ .error .dangling) ↔
      Run step (fun s e => (Enabled s e ∧ startsNone e) ∧ bringsHeader s e) start log s ∧
        bringsHeader s e := by
  have hstep := (step_event he).disciplined_iff (run_tidy run)
  rw [List.forall_mem_append, List.forall_mem_singleton, and_assoc]
  refine and_congr (run.log_forall_iff ?_) hstep
  intro log s s' e run he hok
  have h := (step_event he.1).disciplined_iff (run_tidy run)
  rw [hok] at h
  simpa [Disciplined] using h

def idleSession : List (Event × List Effect) × ServerState :=
  (Run.exec step (fun s e => decide (Enabled s e) && startsNone e) ([], start)
    [.accept 5 zeroed, login 5 '1']).get (by decide +kernel)

theorem idleSession_releases_once_iff :
    ((∀ p ∈ idleSession.1 ++ [(.eof 5, (step idleSession.2 (.eof 5)).effects)], ∀ x ∈ p.2,
          isMisuse x = false) ∧ (step idleSession.2 (.eof 5)).result ≠ .error .dangling) ↔
      Run step (fun s e => (Enabled s e ∧ startsNone e) ∧ bringsHeader s e) start idleSession.1
          idleSession.2 ∧ bringsHeader idleSession.2 (.eof 5) :=
  releases_once_iff (Run.run_exec_get (fun _ _ h => by simpa using h) _) (by decide +kernel)

def newConnection : List (Event × List Effect) × ServerState :=
  (Run.exec step (fun s e => decide (Enabled s e) && startsNone e) ([], start)
    [.accept 5 zeroed]).get (by decide +kernel)

def noHeader : Event := gets 5 (List.replicate 16 0)

/-- `ptr` is freed in `VerifyHeader`, and again by the close. -/
theorem noHeader_frees_twice :
    ∃ log s e, Run step (fun s e => Enabled s e ∧ startsNone e) start log s ∧ Enabled s e ∧
      startsNone e ∧ ¬ Disciplined (step s e).effects (step s e).result := by
  refine ⟨newConnection.1, newConnection.2, noHeader, ?_, by decide +kernel, rfl, ?_⟩
  · exact Run.run_exec_get (fun _ _ h => by simpa using h) _
  · intro h
    have hmisuse : Effect.misuse 5 .ptr ∈ (step newConnection.2 noHeader).effects := by
      decide +kernel
    cases h.1 _ hmisuse

end Server
end TeamsInC
