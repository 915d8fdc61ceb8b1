import TeamsInC.Server.Notification

/-!
# What one connection sees of the others

The connections share the tree and nothing else. What the server does on one of them is
decided by its own events; the others decide where its frames go, how much of them is
taken there, and whether a close still finds an entry.
-/

set_option autoImplicit false

namespace TeamsInC
namespace Server

/-- An effect without what comes from the tree or from another socket. -/
def unrouted : Effect → Effect
  | .forward fd toUser _ frame _ => .forward fd toUser (-1) frame []
  | .remove key _ => .remove key false
  | x => x

/-- If neither fails, both do the same to the record. -/
def Alongside (m m' : Act (Option ClientConnData × HbTree)) : Prop :=
  ∀ r r', m.result = .ok r → m'.result = .ok r' →
    r.1 = r'.1 ∧ m.effects.map unrouted = m'.effects.map unrouted

theorem Alongside.bind {α : Type} (n : Act α) {k k' : α → Act (Option ClientConnData × HbTree)}
    (h : ∀ a, Alongside (k a) (k' a)) : Alongside (n >>= k) (n >>= k') := by
  intro r r' hr hr'
  obtain ⟨a, ha, hk⟩ := Traced.result_bind_ok.mp hr
  obtain ⟨a', ha', hk'⟩ := Traced.result_bind_ok.mp hr'
  obtain rfl : a = a' := by
    rw [ha] at ha'
    exact Except.ok.inj ha'
  obtain ⟨hc, heffects⟩ := h a r r' hk hk'
  rw [Traced.eq_mk ha, Traced.bind_ok, Traced.bind_ok]
  exact ⟨hc, by rw [List.map_append, List.map_append, heffects]⟩

section
variable {d : ClientConnData} {tree tree' : HbTree} {env : Env}

end

section
variable {s s' t t' : ServerState} {e : Event}

end

def alone : List Event := [.accept 5 zeroed, login 5 '1', chat 5 '2', chat 5 '2']

end Server
end TeamsInC
