import NyanSD.Foundation.Machine
import Mathlib.Data.List.Basic

/-!
# Starting and stopping the listener

One controlling thread calls `startListener` and `stopListener`, while the
threads it has created run `clientHandler`. They share the atomic flag `running`
and nothing else; every access to it is a step of its own. Binding the socket is
assumed to succeed, and of the handler's loop only the tests of the flag matter.
-/

namespace NyanSD

/-- Where a thread stands in `clientHandler`. -/
inductive HandlerPhase
  | created
  | bound
  | testing
  | serving
  | finished
deriving DecidableEq, Repr

/-- How the last call of the controlling thread ended. -/
inductive CallResult
  | returned (success : Bool)
  | threw
deriving DecidableEq, Repr

/-- What the controlling thread does next. -/
inductive Control
  | idle
  | creating
  | assigning (thread : Nat)
  | joining
  | terminated
deriving DecidableEq, Repr

structure Listener where
  running : Bool := false
  /-- The thread that the static `std::thread` stands for while it is joinable. -/
  handler : Option Nat := none
  /-- Every thread ever created, in order. -/
  threads : List HandlerPhase := []
  control : Control := .idle
  result : Option CallResult := none
deriving DecidableEq, Repr

namespace Listener

/-- `startListener` is called: it tests the flag. -/
def startListener (s : Listener) : Option Listener :=
  match s.control with
  | .idle =>
      if s.running then some { s with result := some (.returned false) }
      else some { s with control := .creating }
  | _ => none

/-- `stopListener` is called: it clears the flag. -/
def stopListener (s : Listener) : Option Listener :=
  match s.control with
  | .idle => some { s with running := false, control := .joining }
  | _ => none

/-- The controlling thread goes on with its call. Assigning to a joinable
`std::thread` terminates the process; joining one that is not joinable throws,
and joining a thread that has not finished blocks. -/
def proceed (s : Listener) : Option Listener :=
  match s.control with
  | .idle => none
  | .creating =>
      some { s with threads := s.threads ++ [.created], control := .assigning s.threads.length }
  | .assigning thread =>
      if s.handler.isSome then some { s with control := .terminated }
      else some { s with handler := some thread, control := .idle,
                         result := some (.returned true) }
  | .joining =>
      match s.handler with
      | none => some { s with control := .idle, result := some .threw }
      | some thread =>
          if s.threads[thread]? = some .finished then
            some { s with handler := none, control := .idle, result := some (.returned true) }
          else none
  | .terminated => none

/-- A thread takes its next step in `clientHandler`. -/
def clientHandler (s : Listener) (thread : Nat) : Option Listener :=
  if s.control = .terminated then none
  else
    match s.threads[thread]? with
    | some .created => some { s with threads := s.threads.set thread .bound }
    | some .bound => some { s with threads := s.threads.set thread .testing, running := true }
    | some .testing =>
        some { s with threads := s.threads.set thread (if s.running then .serving else .finished) }
    | some .serving => some { s with threads := s.threads.set thread .testing }
    | some .finished => none
    | none => none

end Listener

inductive ListenerEvent
  | start
  | stop
  | proceed
  | handle (thread : Nat)
deriving DecidableEq, Repr

def listener : Machine Listener ListenerEvent where
  initial := {}
  step s
    | .start => s.startListener
    | .stop => s.stopListener
    | .proceed => s.proceed
    | .handle thread => s.clientHandler thread

namespace Listener

/-! ## What a step can do -/

/-- The steps of the machine, one case for each way an event can go. -/
inductive Step (s : Listener) : ListenerEvent → Listener → Prop
  | refuse (hidle : s.control = .idle) (hrunning : s.running = true) :
      Step s .start { s with result := some (.returned false) }
  | begin (hidle : s.control = .idle) (hrunning : s.running = false) :
      Step s .start { s with control := .creating }
  | clear (hidle : s.control = .idle) :
      Step s .stop { s with running := false, control := .joining }
  | create (hcreating : s.control = .creating) :
      Step s .proceed { s with threads := s.threads ++ [.created],
                               control := .assigning s.threads.length }
  | terminate {thread : Nat} (hassigning : s.control = .assigning thread)
      (hjoinable : s.handler.isSome) : Step s .proceed { s with control := .terminated }
  | assign {thread : Nat} (hassigning : s.control = .assigning thread)
      (hfree : s.handler = none) :
      Step s .proceed { s with handler := some thread, control := .idle,
                               result := some (.returned true) }
  | throw (hjoining : s.control = .joining) (hfree : s.handler = none) :
      Step s .proceed { s with control := .idle, result := some .threw }
  | join {thread : Nat} (hjoining : s.control = .joining) (hhandler : s.handler = some thread)
      (hfinished : s.threads[thread]? = some .finished) :
      Step s .proceed { s with handler := none, control := .idle,
                               result := some (.returned true) }
  | bind {thread : Nat} (hphase : s.threads[thread]? = some .created) :
      Step s (.handle thread) { s with threads := s.threads.set thread .bound }
  | store {thread : Nat} (hphase : s.threads[thread]? = some .bound) :
      Step s (.handle thread) { s with threads := s.threads.set thread .testing, running := true }
  | enter {thread : Nat} (hphase : s.threads[thread]? = some .testing)
      (hrunning : s.running = true) :
      Step s (.handle thread) { s with threads := s.threads.set thread .serving }
  | leave {thread : Nat} (hphase : s.threads[thread]? = some .testing)
      (hrunning : s.running = false) :
      Step s (.handle thread) { s with threads := s.threads.set thread .finished }
  | again {thread : Nat} (hphase : s.threads[thread]? = some .serving) :
      Step s (.handle thread) { s with threads := s.threads.set thread .testing }

theorem step_of_startListener {s s' : Listener} (hnext : s.startListener = some s') :
    Step s .start s' := by
  unfold startListener at hnext
  split at hnext
  · rename_i hidle
    split at hnext <;> rename_i hrunning <;> cases hnext
    · exact .refuse hidle hrunning
    · exact .begin hidle (by simpa using hrunning)
  · cases hnext

theorem step_of_stopListener {s s' : Listener} (hnext : s.stopListener = some s') :
    Step s .stop s' := by
  unfold stopListener at hnext
  split at hnext <;> cases hnext
  rename_i hidle
  exact .clear hidle

theorem step_of_proceed {s s' : Listener} (hnext : s.proceed = some s') :
    Step s .proceed s' := by
  unfold proceed at hnext
  cases hcontrol : s.control with
  | idle => simp [hcontrol] at hnext
  | creating =>
      simp only [hcontrol, Option.some.injEq] at hnext
      exact hnext ▸ .create hcontrol
  | assigning thread =>
      simp only [hcontrol] at hnext
      split at hnext <;> rename_i hhandler <;> cases hnext
      · exact .terminate hcontrol hhandler
      · exact .assign hcontrol (by simpa using hhandler)
  | joining =>
      simp only [hcontrol] at hnext
      split at hnext <;> rename_i hhandler
      · cases hnext
        exact .throw hcontrol hhandler
      · split at hnext <;> rename_i hfinished <;> cases hnext
        exact .join hcontrol hhandler hfinished
  | terminated => simp [hcontrol] at hnext

theorem step_of_clientHandler {s s' : Listener} {thread : Nat}
    (hnext : s.clientHandler thread = some s') : Step s (.handle thread) s' := by
  unfold clientHandler at hnext
  split at hnext
  · cases hnext
  split at hnext <;> rename_i hphase <;> cases hnext
  · exact .bind hphase
  · exact .store hphase
  · by_cases hrunning : s.running = true
    · rw [if_pos hrunning]
      exact .enter hphase hrunning
    · rw [if_neg hrunning]
      exact .leave hphase (by simpa using hrunning)
  · exact .again hphase

theorem step_of_next {s s' : Listener} {e : ListenerEvent}
    (hnext : listener.step s e = some s') : Step s e s' := by
  cases e with
  | start => exact step_of_startListener hnext
  | stop => exact step_of_stopListener hnext
  | proceed => exact step_of_proceed hnext
  | handle thread => exact step_of_clientHandler hnext

/-! ## Stopping -/

/-- A stop waits until every handler thread has set the flag. -/
def StopsAfterStore (s : Listener) : ListenerEvent → Prop
  | .stop => ∀ phase ∈ s.threads, phase ≠ .created ∧ phase ≠ .bound
  | _ => True

instance (s : Listener) (e : ListenerEvent) : Decidable (s.StopsAfterStore e) :=
  match e with
  | .stop => inferInstanceAs (Decidable (∀ phase ∈ s.threads, phase ≠ .created ∧ phase ≠ .bound))
  | .start | .proceed | .handle _ => inferInstanceAs (Decidable True)

/-- While a stop is waiting for its thread, the flag is clear and nobody is left
who would set it. -/
def StopPending (s : Listener) : Prop :=
  s.control = .joining →
    s.running = false ∧ ∀ phase ∈ s.threads, phase ≠ .created ∧ phase ≠ .bound

/-- Moving one thread past its store leaves all threads past theirs. -/
theorem past_store_set {threads : List HandlerPhase} {thread : Nat} {next : HandlerPhase}
    (hpast : ∀ phase ∈ threads, phase ≠ .created ∧ phase ≠ .bound)
    (hnext : next ≠ .created ∧ next ≠ .bound) :
    ∀ phase ∈ threads.set thread next, phase ≠ .created ∧ phase ≠ .bound := by
  intro phase hmem
  rcases List.mem_or_eq_of_mem_set hmem with hold | rfl
  · exact hpast phase hold
  · exact hnext

/-- While a stop is waiting, a thread in its loop can only test the flag and leave,
or end its turn and come back to the test. -/
theorem handle_of_stopPending {s s' : Listener} {thread : Nat} (hpending : s.StopPending)
    (hjoining : s.control = .joining) (hstep : Step s (.handle thread) s') :
    (s.threads[thread]? = some .testing ∧
        s' = { s with threads := s.threads.set thread .finished }) ∨
      (s.threads[thread]? = some .serving ∧
        s' = { s with threads := s.threads.set thread .testing }) := by
  obtain ⟨hclear, hpast⟩ := hpending hjoining
  cases hstep with
  | bind hphase => exact absurd rfl (hpast _ (List.mem_of_getElem? hphase)).1
  | store hphase => exact absurd rfl (hpast _ (List.mem_of_getElem? hphase)).2
  | enter hphase hrunning => exact absurd (hclear.symm.trans hrunning) (by decide)
  | leave hphase => exact .inl ⟨hphase, rfl⟩
  | again hphase => exact .inr ⟨hphase, rfl⟩

theorem control_eq_of_handle {s s' : Listener} {thread : Nat}
    (hstep : Step s (.handle thread) s') : s'.control = s.control := by
  cases hstep <;> rfl

theorem stopPending_step {s s' : Listener} {e : ListenerEvent} (hpending : s.StopPending)
    (hguard : s.StopsAfterStore e) (hstep : Step s e s') : s'.StopPending := by
  intro hjoining
  cases e with
  | start =>
      cases hstep with
      | refuse hidle => exact absurd (hidle.symm.trans hjoining) (by decide)
      | begin => cases hjoining
  | stop =>
      cases hstep
      exact ⟨rfl, hguard⟩
  | proceed =>
      -- no step of a call leads to another wait: only `stop` does
      cases hstep <;> cases hjoining
  | handle thread =>
      have hbefore : s.control = .joining := (control_eq_of_handle hstep).symm.trans hjoining
      obtain ⟨hclear, hpast⟩ := hpending hbefore
      rcases handle_of_stopPending hpending hbefore hstep with ⟨-, rfl⟩ | ⟨-, rfl⟩
      · exact ⟨hclear, past_store_set hpast (by decide)⟩
      · exact ⟨hclear, past_store_set hpast (by decide)⟩

theorem stopPending_of_reachable {s : Listener}
    (hreach : listener.Reachable StopsAfterStore s) : s.StopPending := by
  apply hreach.invariant
  · intro hinitial
    cases hinitial
  · intro s e s' hkept hguard hnext
    exact stopPending_step hkept hguard (step_of_next hnext)

theorem clientHandler_created {s : Listener} {thread : Nat} (halive : s.control ≠ .terminated)
    (hphase : s.threads[thread]? = some .created) :
    s.clientHandler thread = some { s with threads := s.threads.set thread .bound } := by
  simp [clientHandler, halive, hphase]

theorem clientHandler_bound {s : Listener} {thread : Nat} (halive : s.control ≠ .terminated)
    (hphase : s.threads[thread]? = some .bound) :
    s.clientHandler thread =
      some { s with threads := s.threads.set thread .testing, running := true } := by
  simp [clientHandler, halive, hphase]

theorem run_store_of_joining {s : Listener} {thread : Nat} (hjoining : s.control = .joining)
    (hphase : s.threads[thread]? = some .bound) :
    ∃ s', listener.run (fun _ _ => True) s [.handle thread] = some s' ∧
      s'.control = .joining ∧ s'.running = true := by
  have hnext : listener.step s (.handle thread) =
      some { s with threads := s.threads.set thread .testing, running := true } :=
    clientHandler_bound (by simp [hjoining]) hphase
  have hrun : listener.run (fun _ _ => True) s [.handle thread] =
      some { s with threads := s.threads.set thread .testing, running := true } :=
    Machine.run_cons trivial hnext []
  exact ⟨_, hrun, hjoining, rfl⟩

/-- A stop that does not wait for the store of some thread can be undone. -/
theorem stop_undone {s s' : Listener} {thread : Nat} (hstop : s.stopListener = some s')
    (hearly : s.threads[thread]? = some .created ∨ s.threads[thread]? = some .bound) :
    ∃ events s'', listener.run (fun _ _ => True) s' events = some s'' ∧
      s''.control = .joining ∧ s''.running = true := by
  cases step_of_stopListener hstop
  rcases hearly with hphase | hphase
  · let waiting : Listener := { s with running := false, control := .joining }
    let bound : Listener := { waiting with threads := s.threads.set thread .bound }
    have hcreated : waiting.threads[thread]? = some .created := hphase
    have hnext : listener.step waiting (.handle thread) = some bound :=
      clientHandler_created (by simp [waiting]) hcreated
    have hbound : bound.threads[thread]? = some .bound :=
      List.getElem?_set_self (List.getElem?_eq_some_iff.mp hphase).1
    obtain ⟨s₂, hrun, hstored⟩ := run_store_of_joining (s := bound) rfl hbound
    exact ⟨[.handle thread, .handle thread], s₂,
      (Machine.run_cons trivial hnext _).trans hrun, hstored⟩
  · obtain ⟨s₂, hrun, hstored⟩ := run_store_of_joining
      (s := { s with running := false, control := .joining }) rfl hphase
    exact ⟨[.handle thread], s₂, hrun, hstored⟩

/-- In every run whose stops wait for the handler's store, a requested stop is not
undone while it waits: the flag stays clear, and a handler thread can only finish
the turn it is in and leave its loop. -/
theorem stop_not_undone {s : Listener} (hreach : listener.Reachable StopsAfterStore s)
    (hjoining : s.control = .joining) :
    s.running = false ∧
      ∀ thread s', s.clientHandler thread = some s' →
        (s.threads[thread]? = some .testing ∧
            s' = { s with threads := s.threads.set thread .finished }) ∨
          (s.threads[thread]? = some .serving ∧
            s' = { s with threads := s.threads.set thread .testing }) := by
  have hpending := stopPending_of_reachable hreach
  refine ⟨(hpending hjoining).1, ?_⟩
  intro thread s' hnext
  exact handle_of_stopPending hpending hjoining (step_of_clientHandler hnext)

/-- A stop requested while the handler is answering a datagram. -/
def stopWhileServing : Listener where
  running := false
  handler := some 0
  threads := [.serving]
  control := .joining
  result := some (.returned true)

theorem stop_not_undone_serving :
    listener.Reachable StopsAfterStore stopWhileServing ∧
      stopWhileServing.control = .joining ∧ stopWhileServing.running = false := by
  have hreach : listener.Reachable StopsAfterStore stopWhileServing :=
    Machine.reachable_of_run [.start, .proceed, .proceed, .handle 0, .handle 0, .handle 0, .stop]
      (by decide)
  exact ⟨hreach, rfl, (stop_not_undone hreach rfl).1⟩

/-- The handler sets the flag after the stop has cleared it. -/
theorem stop_then_store :
    (listener.run (fun _ _ => True) {}
      [.start, .proceed, .proceed, .stop, .handle 0, .handle 0]).map
        (fun s => (s.control, s.running)) = some (.joining, true) := by
  decide

/-! ## The life cycle of the handler -/

/-- The thread exists and has not left `clientHandler`. -/
def Alive (s : Listener) (thread : Nat) : Prop :=
  ∃ phase, s.threads[thread]? = some phase ∧ phase ≠ .finished

def HandlerExists (s : Listener) : Prop := s.handler.isSome ∨ ∃ thread, s.Alive thread

/-- There is one thread at a time, the `std::thread` is only assigned while it is
not joinable and only joined while it is, and no call has failed. -/
structure LifeCycle (s : Listener) : Prop where
  one_thread : ∀ first second, s.Alive first → s.Alive second → first = second
  assigned_free : ∀ thread, s.control = .assigning thread → s.handler = none
  joined_joinable : s.control = .joining → s.handler.isSome
  not_terminated : s.control ≠ .terminated
  not_thrown : s.result ≠ some .threw

/-- The listener is started only when there is no handler or its thread has set
the flag, and stopped only when there is a handler. -/
def CalledInTurn (s : Listener) : ListenerEvent → Prop
  | .start => s.handler = none ∨ s.running = true
  | .stop => s.handler.isSome
  | _ => True

instance (s : Listener) (e : ListenerEvent) : Decidable (s.CalledInTurn e) :=
  match e with
  | .start => inferInstanceAs (Decidable (s.handler = none ∨ s.running = true))
  | .stop => inferInstanceAs (Decidable (s.handler.isSome = true))
  | .proceed | .handle _ => inferInstanceAs (Decidable True)

/-- Every thread that has not finished is the one that the `std::thread` stands
for, or the one that is about to be assigned to it. -/
structure InTurn (s : Listener) : Prop where
  owner : ∀ thread, s.Alive thread → s.handler = some thread ∨ s.control = .assigning thread
  created_free : s.control = .creating → s.handler = none
  assigned_free : ∀ thread, s.control = .assigning thread → s.handler = none
  joined_joinable : s.control = .joining → s.handler.isSome
  not_terminated : s.control ≠ .terminated
  not_thrown : s.result ≠ some .threw

theorem InTurn.lifeCycle {s : Listener} (hturn : s.InTurn) : s.LifeCycle where
  one_thread first second hfirst hsecond := by
    rcases hturn.owner first hfirst with hhandler | hassigning
    · rcases hturn.owner second hsecond with hhandler' | hassigning'
      · exact Option.some.inj (hhandler.symm.trans hhandler')
      · exact absurd (hhandler.symm.trans (hturn.assigned_free second hassigning')) (by simp)
    · rcases hturn.owner second hsecond with hhandler' | hassigning'
      · exact absurd (hhandler'.symm.trans (hturn.assigned_free first hassigning)) (by simp)
      · simpa using hassigning.symm.trans hassigning'
  assigned_free := hturn.assigned_free
  joined_joinable := hturn.joined_joinable
  not_terminated := hturn.not_terminated
  not_thrown := hturn.not_thrown

/-- Outside an assignment every thread that has not finished is the one the
`std::thread` stands for. -/
theorem InTurn.handler_of_alive {s : Listener} {thread : Nat} (hturn : s.InTurn)
    (hcontrol : ∀ other, s.control ≠ .assigning other) (halive : s.Alive thread) :
    s.handler = some thread :=
  (hturn.owner thread halive).resolve_right (hcontrol thread)

/-- A step of a thread brings no other thread to life. -/
theorem alive_of_handle {s s' : Listener} {thread other : Nat}
    (hstep : Step s (.handle thread) s') (halive : s'.Alive other) : s.Alive other := by
  have hset : ∀ phase next : HandlerPhase, s.threads[thread]? = some phase →
      phase ≠ .finished → s'.threads = s.threads.set thread next → s.Alive other := by
    intro phase next hphase hbusy hthreads
    by_cases hother : thread = other
    · subst hother
      exact ⟨phase, hphase, hbusy⟩
    · obtain ⟨last, hlast, hne⟩ := halive
      rw [hthreads, List.getElem?_set_ne hother] at hlast
      exact ⟨last, hlast, hne⟩
  cases hstep with
  | bind hphase => exact hset _ _ hphase (by decide) rfl
  | store hphase => exact hset _ _ hphase (by decide) rfl
  | enter hphase => exact hset _ _ hphase (by decide) rfl
  | leave hphase => exact hset _ _ hphase (by decide) rfl
  | again hphase => exact hset _ _ hphase (by decide) rfl

theorem InTurn.handle {s s' : Listener} {thread : Nat} (hturn : s.InTurn)
    (hstep : Step s (.handle thread) s') : s'.InTurn := by
  have hcontrol := control_eq_of_handle hstep
  have hsame : s'.handler = s.handler ∧ s'.result = s.result := by
    cases hstep <;> exact ⟨rfl, rfl⟩
  obtain ⟨hhandler, hresult⟩ := hsame
  refine ⟨?_, ?_, ?_, ?_, ?_, ?_⟩
  · intro other halive
    rw [hhandler, hcontrol]
    exact hturn.owner other (alive_of_handle hstep halive)
  · rw [hhandler, hcontrol]
    exact hturn.created_free
  · rw [hhandler, hcontrol]
    exact hturn.assigned_free
  · rw [hhandler, hcontrol]
    exact hturn.joined_joinable
  · rw [hcontrol]
    exact hturn.not_terminated
  · rw [hresult]
    exact hturn.not_thrown

theorem InTurn.create {s : Listener} (hturn : s.InTurn) (hcreating : s.control = .creating) :
    InTurn { s with threads := s.threads ++ [.created],
                    control := .assigning s.threads.length } where
  owner thread halive := by
    obtain ⟨phase, hphase, hbusy⟩ := halive
    by_cases hold : thread < s.threads.length
    · rw [List.getElem?_append_left hold] at hphase
      exact .inl (hturn.handler_of_alive (by simp [hcreating]) ⟨phase, hphase, hbusy⟩)
    · have hlt := (List.getElem?_eq_some_iff.mp hphase).1
      rw [List.length_append, List.length_singleton] at hlt
      exact .inr (by simp; omega)
  created_free := nofun
  assigned_free _ _ := hturn.created_free hcreating
  joined_joinable := nofun
  not_terminated := nofun
  not_thrown := hturn.not_thrown

theorem InTurn.proceed {s s' : Listener} (hturn : s.InTurn) (hstep : Step s .proceed s') :
    s'.InTurn := by
  cases hstep with
  | create hcreating => exact hturn.create hcreating
  | @terminate thread hassigning hjoinable =>
      rw [hturn.assigned_free thread hassigning] at hjoinable
      cases hjoinable
  | @assign thread hassigning hfree =>
      refine ⟨?_, nofun, nofun, nofun, nofun, nofun⟩
      intro other halive
      rcases hturn.owner other halive with hhandler | hother
      · exact absurd (hfree.symm.trans hhandler) (by simp)
      · exact .inl (by simpa using hassigning.symm.trans hother)
  | throw hjoining hfree =>
      have hjoinable := hturn.joined_joinable hjoining
      rw [hfree] at hjoinable
      cases hjoinable
  | @join thread hjoining hhandler hfinished =>
      refine ⟨?_, nofun, nofun, nofun, nofun, nofun⟩
      intro other halive
      -- the only thread that could be alive is the one that has finished
      have hother := hturn.handler_of_alive (by simp [hjoining]) halive
      obtain rfl : thread = other := Option.some.inj (hhandler.symm.trans hother)
      obtain ⟨phase, hphase, hbusy⟩ := halive
      exact absurd (Option.some.inj (hphase.symm.trans hfinished)) hbusy

/-- No call fails that is made in turn, and a start while a handler exists changes
nothing. -/
theorem InTurn.step {s s' : Listener} {e : ListenerEvent} (hturn : s.InTurn)
    (hguard : s.CalledInTurn e) (hstep : Step s e s') :
    s'.InTurn ∧
      (e = .start → s.HandlerExists → s' = { s with result := some (.returned false) }) := by
  cases e with
  | start =>
      cases hstep with
      | refuse hidle hrunning =>
          exact ⟨⟨hturn.owner, hturn.created_free, hturn.assigned_free, hturn.joined_joinable,
            hturn.not_terminated, nofun⟩, fun _ _ => rfl⟩
      | begin hidle hrunning =>
          have hfree : s.handler = none := hguard.resolve_right (by simp [hrunning])
          have hnone : ∀ thread, ¬ s.Alive thread := by
            intro thread halive
            have hhandler := hturn.handler_of_alive (by simp [hidle]) halive
            exact absurd (hfree.symm.trans hhandler) (by simp)
          refine ⟨⟨fun thread halive => absurd halive (hnone thread), fun _ => hfree, nofun,
            nofun, nofun, hturn.not_thrown⟩, ?_⟩
          intro _ hexists
          rcases hexists with hjoinable | ⟨thread, halive⟩
          · rw [hfree] at hjoinable
            cases hjoinable
          · exact absurd halive (hnone thread)
  | stop =>
      cases hstep with
      | clear hidle =>
          refine ⟨⟨?_, nofun, nofun, fun _ => hguard, nofun, hturn.not_thrown⟩, nofun⟩
          intro thread halive
          exact .inl (hturn.handler_of_alive (by simp [hidle]) halive)
  | proceed => exact ⟨hturn.proceed hstep, nofun⟩
  | handle thread => exact ⟨hturn.handle hstep, nofun⟩

/-- A call out of turn breaks the life cycle, or starts a second handler, at once. -/
theorem InTurn.step_iff {s s' : Listener} {e : ListenerEvent} (hturn : s.InTurn)
    (hstep : Step s e s') :
    (s'.LifeCycle ∧
      (e = .start → s.HandlerExists → s' = { s with result := some (.returned false) })) ↔
    s.CalledInTurn e := by
  constructor
  · rintro ⟨hcycle, hrefused⟩
    cases hstep with
    | refuse hidle hrunning => exact .inr hrunning
    | begin hidle hrunning =>
        by_contra hout
        have hjoinable : s.handler.isSome := by
          rw [Option.isSome_iff_ne_none]
          exact fun hfree => hout (.inl hfree)
        have hcontrol := congrArg control (hrefused rfl (.inl hjoinable))
        exact absurd (hcontrol.trans hidle) (by simp)
    | clear => exact hcycle.joined_joinable rfl
    | _ => trivial
  · intro hguard
    obtain ⟨hnext, hrefused⟩ := hturn.step hguard hstep
    exact ⟨hnext.lifeCycle, hrefused⟩

theorem inTurn_of_reachable {s : Listener} (hreach : listener.Reachable CalledInTurn s) :
    s.InTurn := by
  apply hreach.invariant
  · refine ⟨?_, nofun, nofun, nofun, nofun, nofun⟩
    intro thread halive
    obtain ⟨phase, hphase, -⟩ := halive
    cases hphase
  · intro s e s' hturn hguard hnext
    exact (hturn.step hguard (step_of_next hnext)).1

/-- In every run whose calls are made in turn, the life cycle is kept, and starting
the listener while a handler exists returns false and changes nothing. -/
theorem life_cycle {s : Listener} (hreach : listener.Reachable CalledInTurn s) :
    s.LifeCycle ∧
      ∀ s', s.CalledInTurn .start → s.startListener = some s' → s.HandlerExists →
        s' = { s with result := some (.returned false) } := by
  have hturn := inTurn_of_reachable hreach
  refine ⟨hturn.lifeCycle, ?_⟩
  intro s' hguard hnext hexists
  exact (hturn.step hguard (step_of_startListener hnext)).2 rfl hexists

/-- The listener has been started, stopped and started again. -/
def restarted : Listener where
  running := true
  handler := some 1
  threads := [.finished, .serving]
  control := .idle
  result := some (.returned true)

theorem life_cycle_restarted :
    restarted.LifeCycle ∧ restarted.HandlerExists ∧
      restarted.startListener = some { restarted with result := some (.returned false) } := by
  have hreach : listener.Reachable CalledInTurn restarted :=
    Machine.reachable_of_run [.start, .proceed, .proceed, .handle 0, .handle 0, .stop, .handle 0,
      .proceed, .start, .proceed, .proceed, .handle 1, .handle 1, .handle 1] (by decide)
  obtain ⟨hcycle, hrefused⟩ := life_cycle hreach
  have hexists : restarted.HandlerExists := .inl rfl
  cases hnext : restarted.startListener with
  | none => cases hnext
  | some s' => exact ⟨hcycle, hexists, congrArg some (hrefused s' (.inr rfl) hnext hexists)⟩

/-- Starting twice in a row terminates the process, and stopping first throws. -/
theorem calls_out_of_turn :
    (listener.run (fun _ _ => True) {}
      [.start, .proceed, .proceed, .start, .proceed, .proceed]).map control =
        some .terminated ∧
    (listener.run (fun _ _ => True) {} [.stop, .proceed]).map result = some (some .threw) := by
  decide

end Listener

end NyanSD
