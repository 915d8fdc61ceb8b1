import TeamsInC.Lib.Traced

/-!
# Runs of a machine

A machine takes a step at each event, leaves a trace and may fail; a failed machine takes
no further step. A run records each event with what was done at it. `allowed` restricts the
events by the state they meet: what the environment can do, and what a result assumes.
-/

set_option autoImplicit false

variable {σ ε φ χ : Type}

/-- The runs from `start`, with their logs and the states they lead to. -/
inductive Run (step : σ → ε → Traced χ φ σ) (allowed : σ → ε → Prop) (start : σ) :
    List (ε × List φ) → σ → Prop where
  | nil : Run step allowed start [] start
  | snoc {log : List (ε × List φ)} {s s' : σ} {e : ε} (run : Run step allowed start log s)
      (h : allowed s e) (ok : (step s e).result = .ok s') :
      Run step allowed start (log ++ [(e, (step s e).effects)]) s'

namespace Run
variable {step : σ → ε → Traced χ φ σ} {allowed : σ → ε → Prop} {start s : σ}
  {log : List (ε × List φ)}

theorem invariant {I : List (ε × List φ) → σ → Prop} (run : Run step allowed start log s)
    (base : I [] start)
    (keep : ∀ log s s' e, I log s → allowed s e → (step s e).result = .ok s' →
      I (log ++ [(e, (step s e).effects)]) s') : I log s := by
  induction run with
  | nil => exact base
  | snoc _ h ok ih => exact keep _ _ _ _ ih h ok

theorem mono {allowed' : σ → ε → Prop} (run : Run step allowed start log s)
    (h : ∀ s e, allowed s e → allowed' s e) : Run step allowed' start log s := by
  induction run with
  | nil => exact .nil
  | snoc _ ha ok ih => exact .snoc ih (h _ _ ha) ok

/-- If at every step along the run the trace is right exactly when the event is good, then the
whole log is right exactly when all its events are good. -/
theorem log_forall_iff {P : ε × List φ → Prop} {good : σ → ε → Prop}
    (run : Run step allowed start log s)
    (h : ∀ log s s' e, Run step allowed start log s → allowed s e → (step s e).result = .ok s' →
      (P (e, (step s e).effects) ↔ good s e)) :
    (∀ p ∈ log, P p) ↔ Run step (fun s e => allowed s e ∧ good s e) start log s := by
  constructor
  · intro hlog
    induction run with
    | nil => exact .nil
    | snoc run ha ok ih =>
      simp only [List.forall_mem_append, List.forall_mem_singleton] at hlog
      exact .snoc (ih hlog.1) ⟨ha, (h _ _ _ _ run ha ok).mp hlog.2⟩ ok
  · clear run
    intro run
    induction run with
    | nil => simp
    | snoc run ha ok ih =>
      have hp := (h _ _ _ _ (run.mono fun _ _ h => h.1) ha.1 ok).mpr ha.2
      simp only [List.forall_mem_append, List.forall_mem_singleton]
      exact ⟨ih, hp⟩

/-- A machine each of whose steps, as seen by another one that is related to it, shows nothing, or is a
step of the other; both lead to related states. -/
theorem tracks {τ ζ ω : Type} {step' : τ → ζ → Traced ω φ τ} {allowed' : τ → ζ → Prop} {start' : τ}
    {R : List (ε × List φ) → σ → τ → Prop} (keep : φ → Bool) (run : Run step allowed start log s)
    (base : R [] start start')
    (h : ∀ log s s' e t, Run step allowed start log s → R log s t → allowed s e → (step s e).result = .ok s' →
      (R (log ++ [(e, (step s e).effects)]) s' t ∧ (step s e).effects.filter keep = []) ∨
        ∃ e' t', allowed' t e' ∧ step' t e' = ⟨(step s e).effects.filter keep, .ok t'⟩ ∧
          R (log ++ [(e, (step s e).effects)]) s' t') :
    ∃ log' t, Run step' allowed' start' log' t ∧ R log s t ∧
      log'.flatMap Prod.snd = (log.flatMap Prod.snd).filter keep := by
  induction run with
  | nil => exact ⟨[], start', .nil, base, rfl⟩
  | @snoc log s s' e run ha ok ih =>
    obtain ⟨log', t, run', hrel, htrace⟩ := ih
    rcases h log s s' e t run hrel ha ok with ⟨hrel', hnone⟩ | ⟨e', t', ha', hstep', hrel'⟩
    · refine ⟨log', t, run', hrel', ?_⟩
      simp [htrace, hnone]
    · refine ⟨_, t', run'.snoc ha' (congrArg Traced.result hstep'), hrel', ?_⟩
      simp [htrace, hstep']

/-- A machine each of whose steps either shows nothing and leaves the view alone, or is seen as a
step of another one. -/
theorem refines {τ ζ ω : Type} {step' : τ → ζ → Traced ω φ τ} {allowed' : τ → ζ → Prop} {start' : τ}
    (view : σ → τ) (keep : φ → Bool) (run : Run step allowed start log s) (base : view start = start')
    (h : ∀ log s s' e, Run step allowed start log s → allowed s e → (step s e).result = .ok s' →
      (view s' = view s ∧ (step s e).effects.filter keep = []) ∨
        ∃ e', allowed' (view s) e' ∧ (step' (view s) e').result = .ok (view s') ∧
          (step' (view s) e').effects = (step s e).effects.filter keep) :
    ∃ log', Run step' allowed' start' log' (view s) ∧
      log'.flatMap Prod.snd = (log.flatMap Prod.snd).filter keep := by
  have hstep (log : List (ε × List φ)) (s s' : σ) (e : ε) (t : τ) (run : Run step allowed start log s)
      (hview : view s = t) (ha : allowed s e) (ok : (step s e).result = .ok s') :
      (view s' = t ∧ (step s e).effects.filter keep = []) ∨
        ∃ e' t', allowed' t e' ∧ step' t e' = ⟨(step s e).effects.filter keep, .ok t'⟩ ∧ view s' = t' := by
    subst hview
    rcases h log s s' e run ha ok with h | ⟨e', ha', ok', heffects⟩
    · exact .inl h
    · exact .inr ⟨e', _, ha', heffects ▸ Traced.eq_mk ok', rfl⟩
  obtain ⟨log', t, run', hview, htrace⟩ := run.tracks (R := fun _ s t => view s = t) keep base hstep
  exact ⟨log', hview ▸ run', htrace⟩

/-- A machine that holds another one, and at each step leaves it alone or lets it take a step of its
own, runs as the other does. -/
theorem simulates {τ ζ : Type} {step' : τ → ζ → Traced χ φ τ} {allowed' : τ → ζ → Prop} {start' : τ}
    (view : σ → τ) (run : Run step allowed start log s) (base : view start = start')
    (h : ∀ log s s' e, Run step allowed start log s → allowed s e → (step s e).result = .ok s' →
      (view s' = view s ∧ (step s e).effects = []) ∨
        ∃ e', allowed' (view s) e' ∧ (step' (view s) e').result = .ok (view s') ∧
          (step' (view s) e').effects = (step s e).effects) :
    ∃ log', Run step' allowed' start' log' (view s) ∧
      log'.flatMap Prod.snd = log.flatMap Prod.snd := by
  have hall (xs : List φ) : xs.filter (fun _ => true) = xs :=
    List.filter_eq_self.mpr fun _ _ => rfl
  obtain ⟨log', run', htrace⟩ := @refines _ _ _ _ _ _ _ _ _ _ _ _ step' allowed' start' view (fun _ => true) run base
    (by simpa only [hall] using h)
  exact ⟨log', run', by rwa [hall] at htrace⟩

/-- A machine that can always be brought nearer to where it shall go, by a step of the chosen ones
that keeps `P`, can be brought there. -/
theorem reaches {P : List (ε × List φ) → σ → Prop} {distance : σ → Nat} {chosen : ε → Prop}
    (h : ∀ log s, Run step allowed start log s → P log s → distance s ≠ 0 →
      ∃ e s', chosen e ∧ allowed s e ∧ (step s e).result = .ok s' ∧
        P (log ++ [(e, (step s e).effects)]) s' ∧ distance s' < distance s)
    (run : Run step allowed start log s) (hP : P log s) :
    ∃ more s', (∀ p ∈ more, chosen p.1) ∧ Run step allowed start (log ++ more) s' ∧
      P (log ++ more) s' ∧ distance s' = 0 := by
  induction hn : distance s using Nat.strongRecOn generalizing log s with
  | ind n ih =>
    by_cases hzero : distance s = 0
    · refine ⟨[], s, by simp, ?_, ?_, hzero⟩
      · rwa [List.append_nil]
      · rwa [List.append_nil]
    · obtain ⟨e, s₁, hchosen, ha, ok, hP₁, hlt⟩ := h log s run hP hzero
      obtain ⟨more, s', hmore, run', hP', hend⟩ := ih (distance s₁) (hn ▸ hlt) (run.snoc ha ok) hP₁ rfl
      refine ⟨(e, (step s e).effects) :: more, s', ?_, ?_, ?_, hend⟩
      · exact List.forall_mem_cons.mpr ⟨hchosen, hmore⟩
      · rwa [List.append_cons]
      · rwa [List.append_cons]

section Part
variable {τ ψ : Type} (own : ε → Bool) (see : φ → ψ)

def part (log : List (ε × List φ)) : List (ε × List ψ) :=
  (log.filter fun p => own p.1).map fun p => (p.1, p.2.map see)

variable {own see}

end Part

/-- The machine on a list of events, as long as each is allowed and none fails. -/
def exec (step : σ → ε → Traced χ φ σ) (allowed : σ → ε → Bool) :
    List (ε × List φ) × σ → List ε → Option (List (ε × List φ) × σ)
  | p, [] => some p
  | (log, s), e :: es =>
    match allowed s e, (step s e).result with
    | true, .ok s' => exec step allowed (log ++ [(e, (step s e).effects)], s') es
    | _, _ => none

theorem run_exec {allowedB : σ → ε → Bool} (h : ∀ s e, allowedB s e → allowed s e) {es : List ε}
    {p q : List (ε × List φ) × σ} (run : Run step allowed start p.1 p.2)
    (hexec : exec step allowedB p es = some q) : Run step allowed start q.1 q.2 := by
  induction es generalizing p with
  | nil =>
    cases hexec
    exact run
  | cons e es ih =>
    simp only [exec] at hexec
    split at hexec
    · exact ih (.snoc run (h _ _ (by assumption)) (by assumption)) hexec
    · cases hexec

theorem exec_events {allowedB : σ → ε → Bool} {es : List ε} {p q : List (ε × List φ) × σ}
    (hexec : exec step allowedB p es = some q) : q.1.map Prod.fst = p.1.map Prod.fst ++ es := by
  induction es generalizing p with
  | nil =>
    cases hexec
    simp
  | cons e es ih =>
    simp only [exec] at hexec
    split at hexec
    · rw [ih hexec]
      simp
    · cases hexec

theorem run_exec_get {allowedB : σ → ε → Bool} (h : ∀ s e, allowedB s e → allowed s e) {es : List ε}
    (hes : (exec step allowedB ([], start) es).isSome) :
    Run step allowed start ((exec step allowedB ([], start) es).get hes).1
      ((exec step allowedB ([], start) es).get hes).2 :=
  run_exec h .nil (Option.some_get hes).symm

end Run
