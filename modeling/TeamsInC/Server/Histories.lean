import TeamsInC.Server.Service

/-!
# The history of a connection

What the server does for one descriptor, over a whole run in which the events of all
connections are mixed: lives that start with `accept` and end with `close`, and in each of
them logins, one answer to each, and chat only after an answer that was taken in full.
-/

set_option autoImplicit false

namespace TeamsInC
namespace Server
open Bytes

/-- What the server does for this descriptor and under its name. -/
def isOf (fd : Int) : Effect → Bool
  | .accept fd' => fd' = fd
  | .close fd' => fd' = fd
  | .insert _ fd' => fd' = fd
  | .reply fd' _ _ => fd' = fd
  | .forward fd' _ _ _ _ => fd' = fd
  | _ => false

/-- The histories of a descriptor, and what its connection is after them. -/
inductive History (fd : Int) : List Effect → Standing CString → Prop
  | nil : History fd [] .away
  | accept {xs : List Effect} (h : History fd xs .away) : History fd (xs ++ [.accept fd]) .guest
  | refuse {xs : List Effect} {p : Standing CString} (h : History fd xs p) (hask : Service.Asks p)
      {taken : List UInt8} (htaken : taken <+: answer ['4', '0', '1']) :
      History fd (xs ++ [.reply fd (answer ['4', '0', '1']) taken]) .guest
  | grant {xs : List Effect} {p : Standing CString} (h : History fd xs p) (hask : Service.Asks p)
      {user : CString} (huser : user ∈ accounts) {taken : List UInt8}
      (htaken : taken <+: answer ['2', '0', '0']) :
      History fd (xs ++ [.insert user fd, .reply fd (answer ['2', '0', '0']) taken])
        (if taken = answer ['2', '0', '0'] then .member user else .entered user)
  | relay {xs : List Effect} {user : CString} (h : History fd xs (.member user)) {toUser : CString}
      {dest : Int} {messageType : UInt16} {text taken : List UInt8} (htext : text.length < 65536)
      (htaken : taken <+: packet messageType user.bytes text) :
      History fd (xs ++ [.forward fd toUser dest (packet messageType user.bytes text) taken]) (.member user)
  | close {xs : List Effect} {p : Standing CString} (h : History fd xs p) (hopen : p ≠ .away) :
      History fd (xs ++ [.close fd]) .away

namespace Service
variable {d d' : Service} {fd : Int} {xs : List Effect}

/-- What a request adds to the history of a descriptor. -/
theorem history_step {r : Request} (h : History fd xs (d.standing fd)) (hr : d.Permitted r)
    (hok : (d.step r).result = .ok d') :
    History fd (xs ++ (d.step r).effects.filter (isOf fd)) (d'.standing fd) := by
  have other {fd' : Int} (hne : fd ≠ fd') (hstanding : d'.standing fd = d.standing fd)
      (heffects : (d.step r).effects.filter (isOf fd) = []) :
      History fd (xs ++ (d.step r).effects.filter (isOf fd)) (d'.standing fd) := by
    rw [heffects, List.append_nil, hstanding]
    exact h
  cases r with
  | connect fd' =>
    cases hok
    by_cases hfd : fd = fd'
    · subst hfd
      rw [hr.2] at h
      simpa [step, isOf, Directory.place] using h.accept
    · exact other hfd (by simp [Directory.place, hfd]) (by simp [step, isOf, Ne.symm hfd])
  | refuse fd' user password taken =>
    cases hok
    by_cases hfd : fd = fd'
    · subst hfd
      simpa [step, isOf, Directory.place] using h.refuse hr.1 hr.2.2
    · exact other hfd (by simp [Directory.place, hfd]) (by simp [step, isOf, Ne.symm hfd])
  | grant fd' user password taken =>
    cases hok
    by_cases hfd : fd = fd'
    · subst hfd
      simpa [step, isOf, Directory.enter] using h.grant hr.1 (authVerify_mem hr.2.1).1 hr.2.2
    · exact other hfd (by simp [Directory.enter, hfd]) (by simp [step, isOf, Ne.symm hfd])
  | relay fd' user toUser dest messageType text taken =>
    cases hok
    by_cases hfd : fd = fd'
    · subst hfd
      obtain ⟨hmember, _, htext, htaken, _⟩ := hr
      rw [hmember] at h ⊢
      simpa [step, isOf] using h.relay htext htaken
    · exact other hfd rfl (by simp [step, isOf, Ne.symm hfd])
  | hangUp fd' =>
    cases hok
    by_cases hfd : fd = fd'
    · subst hfd
      have hopen : d.standing fd ≠ .away := by
        rcases hr with hr | ⟨u, hr⟩ <;> simp [hr]
      simpa [step, isOf, Directory.place] using h.close hopen
    · exact other hfd (by simp [Directory.place, hfd]) (by simp [step, isOf, Ne.symm hfd])
  | leave fd' entry =>
    have hgone : d'.standing = Function.update d.standing fd' .away := by
      simp only [step] at hok
      split at hok
      · cases hok
        rfl
      · cases hok
        cases entry <;> rfl
    by_cases hfd : fd = fd'
    · subst hfd
      have hown : (d.step (.leave fd entry)).effects.filter (isOf fd) = [.close fd] := by
        simp only [step]
        split <;> simp [isOf]
      rw [hown, hgone, Function.update_self]
      exact h.close hr.1
    · have hown : (d.step (.leave fd' entry)).effects.filter (isOf fd) = [] := by
        simp only [step]
        split <;> simp [isOf, Ne.symm hfd]
      exact other hfd (by rw [hgone, Function.update_of_ne hfd]) hown

theorem run_history {log : List (Request × List Effect)} (fd : Int)
    (run : Run Service.step Permitted Directory.empty log d) :
    History fd ((log.flatMap Prod.snd).filter (isOf fd)) (d.standing fd) := by
  refine run.invariant (I := fun log d => History fd ((log.flatMap Prod.snd).filter (isOf fd))
    (d.standing fd)) .nil ?_
  intro log d d' r h hr hok
  simp only [List.flatMap_append, List.filter_append, List.flatMap_singleton]
  exact history_step h hr hok

end Service

theorem isOf_seen {fd : Int} {x : Effect} (h : isOf fd x = true) : isSeen x = true := by
  cases x <;> simp_all [isOf, isSeen]

theorem filter_isOf (fd : Int) (xs : List Effect) : (xs.filter isSeen).filter (isOf fd) = xs.filter (isOf fd) := by
  rw [List.filter_filter]
  refine List.filter_congr ?_
  intro x _
  by_cases h : isOf fd x = true
  · simp [h, isOf_seen h]
  · simp [h]

/-- Whatever the order of the events, the bytes received and the outcomes of the writes: each
descriptor has a history, and its record is what the history says. -/
theorem run_keeps_history {log : List (Event × List Effect)} {s : ServerState} (fd : Int)
    (run : Run step (fun s e => Enabled s e ∧ startsNameless e) start log s) :
    History fd ((log.flatMap Prod.snd).filter (isOf fd)) (standingOf (s.conns fd)) := by
  obtain ⟨log', run', hseen⟩ := server_refines_service run
  have h := Service.run_history fd run'
  rw [hseen, filter_isOf] at h
  exact h

theorem visited_keeps_history :
    History 5 ((visited.1.flatMap Prod.snd).filter (isOf 5)) (standingOf (visited.2.conns 5)) :=
  run_keeps_history 5 (Run.run_exec_get (fun _ _ h => by simpa using h) _)

end Server
end TeamsInC
