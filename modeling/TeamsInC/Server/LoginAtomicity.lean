import TeamsInC.Server.Records

/-!
# Logins that do not complete

Until the reply "200" is out, a login can still end; all that it has done is then undone,
save for the pair in the tree when it is the reply itself that fails.
-/

set_option autoImplicit false

namespace TeamsInC
namespace Server

/-- The record is as it was when the connection was accepted. -/
structure StartsOver (c : ClientConnData) : Prop where
  state : c.clientState = .initialState
  buff : c.buff = .null
  used : c.bufferUsed = 0
  offset : c.offset = 0

theorem Headed.completesLogin_iff {c d : ClientConnData} {m : Mem} {pre : List Effect} {t : MessageAuth}
    (h : Headed c m pre d) (hs : d.clientState = .authState) (hp : d.ptr = .live (.auth t)) :
    Server.completesLogin c m ↔ t.header.len.toNat ≤ d.bufferUsed.toNat ∧
      authVerify (loginUser d m) (loginPassword d m) = 0 := by
  simp [Server.completesLogin, h.headed, hp, hs]

/-- What an event on a connection that has not logged in leaves behind, if it stays open: the
record and the tree. -/
inductive LoginStep (c : ClientConnData) (m : Mem) (tree : HbTree) (env : Env) :
    ClientConnData → HbTree → Prop
  | waits {c' : ClientConnData} (hlogin : ¬ completesLogin c m) (hbuff : c'.buff = c.buff)
      (hused : c'.bufferUsed = c.bufferUsed)
      (hshort : (c'.clientState = .initialState ∧ c'.offset = 0 ∧ c'.bufferUsed.toNat < SIZE_HEADER) ∨
        c'.clientState = .authState ∧ c'.offset = 12 ∧
          ∃ p, c'.ptr = .live p ∧ c'.bufferUsed.toNat < p.header.len.toNat) :
      LoginStep c m tree env c' tree
  | startsOver {c' : ClientConnData} (hlogin : ¬ completesLogin c m) (h : StartsOver c') :
      LoginStep c m tree env c' tree
  | completes {c' : ClientConnData} {tree' : HbTree} (hgreet : 0 ≤ greeted c.fd env)
      (hs : c'.clientState = .messageState) : LoginStep c m tree env c' tree'
  | unanswered {c' : ClientConnData} {tree' : HbTree} (hlogin : completesLogin c m)
      (hgreet : ¬ 0 ≤ greeted c.fd env) (hs : c'.clientState ≠ .messageState) (htree : tree' ≠ tree) :
      LoginStep c m tree env c' tree'

theorem DataStep.login {c c' : ClientConnData} {b : List UInt8} {tree tree' : HbTree} {env : Env}
    {effs : List Effect} (h : DataStep c b tree env effs (.ok (some c', tree'))) (hc : Filled c b)
    (hs : c.clientState = .initialState ∨ c.clientState = .authState) (hwf : tree.WellFormed) :
    LoginStep c (env.mem b) tree env c' tree' := by
  have notMessage : c.clientState ≠ .messageState := by
    rcases hs with hs | hs <;> simp [hs]
  have inserted {d : ClientConnData}
      (hv : authVerify (loginUser d (env.mem b)) (loginPassword d (env.mem b)) = 0) {l : LinkedTree.Link}
      (hi : tree.hbTreeInsert (loginUser d (env.mem b)) d.fd env.bal = .ok (tree', l)) :
      l ≠ none ∧ tree' ≠ tree := by
    obtain ⟨hl, _, hp⟩ := hwf.of_insert (accounts_fit _ (authVerify_mem hv).1) hi
    refine ⟨hl, ?_⟩
    rintro rfl
    have hlen := hp.length_eq
    simp at hlen
  cases h with
  | idle hs' =>
    rcases hs' with hs' | hs'
    · exact absurd hs' hc.state.1
    · exact absurd hs' hc.state.2
  | short hs' hused =>
    have hinit : c.clientState = .initialState := by
      rcases hs' with hs' | hs'
      · exact hs'
      · exact absurd hs' notMessage
    refine .waits ?_ rfl rfl (.inl ⟨hinit, hc.initial hinit, hused⟩)
    simp [completesLogin, headed, hinit, Nat.not_le.mpr hused]
  | @wait pre _ p h hp hlen =>
    have hauth : c'.clientState = .authState := by
      cases h <;> simp_all [withHeader]
    refine .waits ?_ h.buff_eq h.used_eq (.inr ⟨hauth, (h.decoded hc).offset, p, hp, hlen⟩)
    cases p with
    | auth t =>
      rw [h.completesLogin_iff hauth hp]
      rintro ⟨hle, _⟩
      exact absurd hlen (Nat.not_lt.mpr hle)
    | chat t => simp [completesLogin, h.headed, hp]
  | rejected h hs' hp hlen hv =>
    refine .startsOver ?_ ⟨rfl, rfl, rfl, rfl⟩
    rw [h.completesLogin_iff hs' hp]
    rintro ⟨_, hzero⟩
    omega
  | notInserted h _ _ _ hv hi => exact absurd rfl (inserted hv hi).1
  | accepted h _ _ _ _ _ hw =>
    refine .completes ?_ rfl
    rw [greeted, ← h.fd_eq]
    exact hw
  | unanswered h hs' hp hlen hv hi hw =>
    refine .unanswered (h.completesLogin hs' hp hlen hv) ?_ ?_ (inserted hv hi).2
    · rw [greeted, ← h.fd_eq]
      omega
    · simp [afterLogin, hs']
  | forwarded h hs' => exact absurd (h.message_iff.mp hs') notMessage

def wrongPassword : Chunk :=
  ⟨packet MSG_TYPE_AUTH (userName '1') (userName '2'), by decide +kernel, by decide +kernel⟩

def rightPassword : Chunk :=
  ⟨packet MSG_TYPE_AUTH (userName '1') (userName '1'), by decide +kernel, by decide +kernel⟩

end Server
end TeamsInC
