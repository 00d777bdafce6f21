import NyanSD.Foundation.Schedule
import NyanSD.Listener
import NyanSD.StopSignal

/-!
# The process around the listener

From the installation of its signal handler on, the daemon's `main` calls
`startListener`, waits to be notified, and calls `stopListener`, while the thread it
has created runs `clientHandler`. The reference server's `main` does the same. Here the
two machines run together, and `main` is the controlling thread of the listener.
-/

namespace NyanSD

structure Process where
  main : StopSignal := {}
  listener : Listener := {}
deriving DecidableEq, Repr

namespace Process

/-- `main` takes its next step. It calls the listener on its way into the wait and on its
way out, and goes on when the call has returned. Nothing catches what a call throws. -/
def proceed (p : Process) : Option Process :=
  if p.listener.result = some .threw then none
  else if p.listener.control = .idle then
    p.main.proceed.bind fun main =>
      match p.main.phase with
      | .installed => p.listener.startListener.map fun listener => { main, listener }
      | .awake => p.listener.stopListener.map fun listener => { main, listener }
      | _ => some { p with main }
  else p.listener.proceed.map fun listener => { p with listener }

end Process

inductive ProcessEvent
  | main
  | handle (thread : Nat)
  | wakeSpuriously
  | deliver
  | signalHandler
deriving DecidableEq, Repr

/-- A step of one of the two threads, and not something that happens to the process. -/
def ProcessEvent.own : ProcessEvent → Bool
  | .main => true
  | .handle _ => true
  | .wakeSpuriously => false
  | .deliver => false
  | .signalHandler => false

def process : Machine Process ProcessEvent where
  initial := {}
  step p
    | .main => p.proceed
    | .handle thread => (p.listener.clientHandler thread).map fun listener => { p with listener }
    | .wakeSpuriously => p.main.wakeSpuriously.map fun main => { p with main }
    | .deliver => p.main.deliver.map fun main => { p with main }
    | .signalHandler => p.main.signalHandler.map fun main => { p with main }

/-! ## The only thread -/

/-- The thread has set the flag. -/
def HandlerPhase.stored : HandlerPhase → Bool
  | .created => false
  | .bound => false
  | .testing => true
  | .serving => true
  | .finished => true

/-- What a thread does with the flag on its next step. -/
inductive HandlerPhase.Turns : HandlerPhase → Bool → HandlerPhase → Bool → Prop
  | bind (running : Bool) : Turns .created running .bound running
  | store (running : Bool) : Turns .bound running .testing true
  | enter : Turns .testing true .serving true
  | leave : Turns .testing false .finished false
  | again (running : Bool) : Turns .serving running .testing running

namespace HandlerPhase

/-- While nobody else writes the flag it says how far the thread is, which then never leaves
its loop. -/
theorem Turns.alive {thread next : HandlerPhase} {running : Bool}
    (hturns : Turns thread thread.stored next running) :
    next ≠ .finished ∧ running = next.stored := by
  generalize hstored : thread.stored = before at hturns
  cases hturns <;> simp_all [stored]

end HandlerPhase

namespace Listener

theorem turns_of_handle {s s' : Listener} {phase : HandlerPhase} {thread : Nat}
    (hthreads : s.threads = [phase]) (hstep : Step s (.handle thread) s') :
    thread = 0 ∧ ∃ next running, phase.Turns s.running next running ∧
      s' = { s with threads := [next], running } := by
  have hfirst : ∀ current : HandlerPhase, s.threads[thread]? = some current →
      thread = 0 ∧ phase = current := by
    intro current hcurrent
    rw [hthreads, List.getElem?_singleton] at hcurrent
    split at hcurrent
    next hzero => exact ⟨hzero, Option.some.inj hcurrent⟩
    next => cases hcurrent
  obtain ⟨running, handler, threads, control, result⟩ := s
  obtain rfl : threads = [phase] := hthreads
  cases hstep with
  | bind hphase =>
      obtain ⟨rfl, rfl⟩ := hfirst _ hphase
      exact ⟨rfl, _, _, .bind running, rfl⟩
  | store hphase =>
      obtain ⟨rfl, rfl⟩ := hfirst _ hphase
      exact ⟨rfl, _, _, .store running, rfl⟩
  | enter hphase hrunning =>
      obtain ⟨rfl, rfl⟩ := hfirst _ hphase
      obtain rfl : running = true := hrunning
      exact ⟨rfl, _, _, .enter, rfl⟩
  | leave hphase hrunning =>
      obtain ⟨rfl, rfl⟩ := hfirst _ hphase
      obtain rfl : running = false := hrunning
      exact ⟨rfl, _, _, .leave, rfl⟩
  | again hphase =>
      obtain ⟨rfl, rfl⟩ := hfirst _ hphase
      exact ⟨rfl, _, _, .again running, rfl⟩

/-- The listener after `startListener` has returned, with its thread in the given phase. -/
def started (thread : HandlerPhase) : Listener where
  running := thread.stored
  handler := some 0
  threads := [thread]
  result := some (.returned true)

/-- `stopListener` waits for the thread. -/
def joining (running : Bool) (thread : HandlerPhase) : Listener where
  running
  handler := some 0
  threads := [thread]
  control := .joining
  result := some (.returned true)

/-- `stopListener` has returned. -/
def joined : Listener where
  threads := [.finished]
  result := some (.returned true)

end Listener

namespace Process

open Listener

/-! ## What a step can do -/

/-- The steps of the process, one case for each way an event can go. -/
inductive Step (p : Process) : ProcessEvent → Process → Prop
  | start {main : StopSignal} {l : Listener} (hphase : p.main.phase = .installed)
      (hmain : p.main.proceed = some main) (hstart : p.listener.startListener = some l) :
      Step p .main { main, listener := l }
  | stop {main : StopSignal} {l : Listener} (hphase : p.main.phase = .awake)
      (hmain : p.main.proceed = some main) (hstop : p.listener.stopListener = some l) :
      Step p .main { main, listener := l }
  | goOn {main : StopSignal} (hmain : p.main.proceed = some main) :
      Step p .main { p with main }
  | inCall {l : Listener} (hcall : p.listener.proceed = some l) :
      Step p .main { p with listener := l }
  | handle {thread : Nat} {l : Listener} (hhandle : p.listener.clientHandler thread = some l) :
      Step p (.handle thread) { p with listener := l }
  | wakeSpuriously {main : StopSignal} (hmain : p.main.wakeSpuriously = some main) :
      Step p .wakeSpuriously { p with main }
  | deliver {main : StopSignal} (hmain : p.main.deliver = some main) :
      Step p .deliver { p with main }
  | signalHandler {main : StopSignal} (hmain : p.main.signalHandler = some main) :
      Step p .signalHandler { p with main }

theorem step_of_proceed {p p' : Process} (hnext : p.proceed = some p') : Step p .main p' := by
  unfold proceed at hnext
  split at hnext
  · cases hnext
  split at hnext
  · obtain ⟨main, hmain, hcalls⟩ := Option.bind_eq_some_iff.mp hnext
    split at hcalls
    next hphase =>
      obtain ⟨l, hstart, rfl⟩ := Option.map_eq_some_iff.mp hcalls
      exact .start hphase hmain hstart
    next hphase =>
      obtain ⟨l, hstop, rfl⟩ := Option.map_eq_some_iff.mp hcalls
      exact .stop hphase hmain hstop
    next =>
      cases hcalls
      exact .goOn hmain
  · obtain ⟨l, hcall, rfl⟩ := Option.map_eq_some_iff.mp hnext
    exact .inCall hcall

theorem step_of_next {p p' : Process} {e : ProcessEvent} (hnext : process.step p e = some p') :
    Step p e p' := by
  cases e with
  | main => exact step_of_proceed hnext
  | handle thread =>
      obtain ⟨l, hhandle, rfl⟩ := Option.map_eq_some_iff.mp hnext
      exact .handle hhandle
  | wakeSpuriously =>
      obtain ⟨main, hmain, rfl⟩ := Option.map_eq_some_iff.mp hnext
      exact .wakeSpuriously hmain
  | deliver =>
      obtain ⟨main, hmain, rfl⟩ := Option.map_eq_some_iff.mp hnext
      exact .deliver hmain
  | signalHandler =>
      obtain ⟨main, hmain, rfl⟩ := Option.map_eq_some_iff.mp hnext
      exact .signalHandler hmain

/-- What is not a step of the two threads leaves the listener alone, and moves `main` at most
out of its wait. -/
theorem phase_of_not_own {p p' : Process} {e : ProcessEvent} (hown : e.own = false)
    (hstep : Step p e p') :
    p'.listener = p.listener ∧
      (p'.main.phase = p.main.phase ∨
        p.main.phase = .waiting ∧ (p'.main.phase = .notified ∨ p'.main.phase = .awake)) := by
  cases hstep with
  | start => cases hown
  | stop => cases hown
  | goOn => cases hown
  | inCall => cases hown
  | handle => cases hown
  | wakeSpuriously hmain =>
      unfold StopSignal.wakeSpuriously at hmain
      split at hmain <;> cases hmain
      next hwaiting => exact ⟨rfl, .inr ⟨hwaiting, .inr rfl⟩⟩
  | deliver hmain =>
      unfold StopSignal.deliver at hmain
      split at hmain <;> cases hmain
      exact ⟨rfl, .inl rfl⟩
  | signalHandler hmain =>
      unfold StopSignal.signalHandler at hmain
      split at hmain <;> cases hmain
      refine ⟨rfl, ?_⟩
      by_cases hwaiting : p.main.phase = .waiting
      · exact .inr ⟨hwaiting, .inl (if_pos hwaiting)⟩
      · exact .inl (if_neg hwaiting)

/-- Unless `main` waits, only a step of its own moves it on. -/
theorem phase_of_ne_main {p p' : Process} {e : ProcessEvent} (hmain : e ≠ .main)
    (hwaiting : p.main.phase ≠ .waiting) (hstep : Step p e p') : p'.main.phase = p.main.phase := by
  cases hown : e.own with
  | true =>
      cases hstep with
      | handle => rfl
      | start => exact absurd rfl hmain
      | stop => exact absurd rfl hmain
      | goOn => exact absurd rfl hmain
      | inCall => exact absurd rfl hmain
      | wakeSpuriously => cases hown
      | deliver => cases hown
      | signalHandler => cases hown
  | false =>
      exact (phase_of_not_own hown hstep).2.resolve_right fun hleft => hwaiting hleft.1

/-! ## The states of a run -/

/-- The flag is clear for good and the thread is past its store. The number counts the steps
that are left, which the two threads can only take in one order. -/
inductive Ending : Nat → MainPhase → Listener → Prop
  | serving : Ending 4 .stopping (joining false .serving)
  | testing : Ending 3 .stopping (joining false .testing)
  | left : Ending 2 .stopping (joining false .finished)
  | joined : Ending 1 .stopping joined
  | finished : Ending 0 .finished joined

/-- `main` and the listener, as every run of the process leads to them. -/
inductive Shape : MainPhase → Listener → Prop
  | unstarted : Shape .installed {}
  | creating : Shape .listening { control := .creating }
  | assigning (thread : HandlerPhase) (hbusy : thread ≠ .finished) :
      Shape .listening { running := thread.stored, threads := [thread], control := .assigning 0 }
  | started (phase : MainPhase) (thread : HandlerPhase) (hbegun : phase ≠ .installed)
      (hstays : ¬ phase.Stops) (hbusy : thread ≠ .finished) : Shape phase (started thread)
  /-- The stop came before the store. -/
  | hanging (thread : HandlerPhase) (hbusy : thread ≠ .finished) :
      Shape .stopping (joining thread.stored thread)
  | ending {left : Nat} {phase : MainPhase} {l : Listener} (hending : Ending left phase l) :
      Shape phase l

/-- The step that comes next on the way to the end. -/
def upNext (left : Nat) : ProcessEvent := if left ≤ 2 then .main else .handle 0

/-- The thread takes a step on the way to the end: the flag is clear, so it leaves. -/
theorem Ending.handle {left thread : Nat} {phase : MainPhase} {l l' : Listener}
    (hending : Ending left phase l) (hstep : Listener.Step l (.handle thread) l') :
    .handle thread = upNext left ∧ ∃ fewer, left = fewer + 1 ∧ Ending fewer phase l' := by
  cases hending with
  | serving =>
      obtain ⟨rfl, next, running, hturns, rfl⟩ := turns_of_handle rfl hstep
      cases hturns
      exact ⟨rfl, 3, rfl, .testing⟩
  | testing =>
      obtain ⟨rfl, next, running, hturns, rfl⟩ := turns_of_handle rfl hstep
      cases hturns
      exact ⟨rfl, 2, rfl, .left⟩
  | left =>
      obtain ⟨-, next, running, hturns, rfl⟩ := turns_of_handle rfl hstep
      cases hturns
  | joined =>
      obtain ⟨-, next, running, hturns, rfl⟩ := turns_of_handle rfl hstep
      cases hturns
  | finished =>
      obtain ⟨-, next, running, hturns, rfl⟩ := turns_of_handle rfl hstep
      cases hturns

theorem Shape.handle {thread : Nat} {phase : MainPhase} {l l' : Listener} (hshape : Shape phase l)
    (hstep : Listener.Step l (.handle thread) l') : Shape phase l' := by
  cases hshape with
  | unstarted => cases hstep <;> rename_i hphase <;> cases hphase
  | creating => cases hstep <;> rename_i hphase <;> cases hphase
  | assigning thread hbusy =>
      obtain ⟨-, next, running, hturns, rfl⟩ := turns_of_handle rfl hstep
      obtain ⟨hnext, rfl⟩ := hturns.alive
      exact .assigning next hnext
  | started phase thread hbegun hstays hbusy =>
      obtain ⟨-, next, running, hturns, rfl⟩ := turns_of_handle rfl hstep
      obtain ⟨hnext, rfl⟩ := hturns.alive
      exact .started phase next hbegun hstays hnext
  | hanging thread hbusy =>
      obtain ⟨-, next, running, hturns, rfl⟩ := turns_of_handle rfl hstep
      obtain ⟨hnext, rfl⟩ := hturns.alive
      exact .hanging next hnext
  | ending hending =>
      obtain ⟨-, fewer, -, hfewer⟩ := hending.handle hstep
      exact .ending hfewer

/-- `main` takes a step on the way to the end: it joins the thread that has left, or returns. -/
theorem Ending.main {left : Nat} {p p' : Process}
    (hending : Ending left p.main.phase p.listener) (hnext : p.proceed = some p') :
    .main = upNext left ∧ ∃ fewer, left = fewer + 1 ∧ Ending fewer p'.main.phase p'.listener := by
  obtain ⟨⟨phase, entered, handled⟩, l⟩ := p
  cases hending with
  | serving => cases hnext
  | testing => cases hnext
  | left =>
      cases hnext
      exact ⟨rfl, 1, rfl, .joined⟩
  | joined =>
      cases hnext
      exact ⟨rfl, 0, rfl, .finished⟩
  | finished => cases hnext

/-- `main` calls `stopListener`. Whether the thread has set the flag decides what follows. -/
theorem main_of_awake {p p' : Process} {thread : HandlerPhase}
    (hawake : p.main.phase = .awake) (hlistener : p.listener = started thread)
    (hnext : p.proceed = some p') :
    p'.main.phase = .stopping ∧ p'.listener = joining false thread := by
  obtain ⟨⟨phase, entered, handled⟩, l⟩ := p
  obtain rfl : phase = .awake := hawake
  obtain rfl : l = started thread := hlistener
  cases hnext
  exact ⟨rfl, rfl⟩

theorem Shape.joining {thread : HandlerPhase} (hbusy : thread ≠ .finished) :
    Shape .stopping (joining false thread) := by
  cases thread with
  | created => exact .hanging .created hbusy
  | bound => exact .hanging .bound hbusy
  | testing => exact .ending .testing
  | serving => exact .ending .serving
  | finished => exact .ending .left

theorem Shape.main {p p' : Process} (hshape : Shape p.main.phase p.listener)
    (hnext : p.proceed = some p') : Shape p'.main.phase p'.listener := by
  by_cases hending : ∃ left, Ending left p.main.phase p.listener
  · obtain ⟨left, hending⟩ := hending
    obtain ⟨-, fewer, -, hfewer⟩ := hending.main hnext
    exact .ending hfewer
  obtain ⟨⟨phase, entered, handled⟩, l⟩ := p
  cases hshape with
  | unstarted =>
      cases hnext
      exact .creating
  | creating =>
      cases hnext
      exact .assigning .created (by decide)
  | assigning thread hbusy =>
      cases hnext
      exact .started .listening thread (by decide) (by decide) hbusy
  | started phase thread hbegun hstays hbusy =>
      cases phase with
      | installed => exact absurd rfl hbegun
      | listening =>
          cases hnext
          exact .started .locked thread (by decide) (by decide) hbusy
      | locked =>
          cases hnext
          exact .started .waiting thread (by decide) (by decide) hbusy
      | waiting => cases hnext
      | notified =>
          cases hnext
          exact .started .awake thread (by decide) (by decide) hbusy
      | awake =>
          obtain ⟨hstopping, hjoining⟩ := main_of_awake rfl rfl hnext
          rw [hstopping, hjoining]
          exact .joining hbusy
      | stopping => exact absurd (.inl rfl) hstays
      | finished => exact absurd (.inr rfl) hstays
  | hanging thread hbusy =>
      -- the thread has not finished, so the join goes on
      cases thread <;> first | exact absurd rfl hbusy | cases hnext
  | ending hending' => exact absurd ⟨_, hending'⟩ hending

/-- A notification changes nothing about the listener that has been started. -/
theorem Shape.notified {phase phase' : MainPhase} {l : Listener} (hshape : Shape phase l)
    (hwaiting : phase = .waiting) (hphase' : phase' = .notified ∨ phase' = .awake) :
    Shape phase' l := by
  subst hwaiting
  cases hshape with
  | started _ thread _ _ hbusy =>
      rcases hphase' with rfl | rfl
      · exact .started .notified thread (by decide) (by decide) hbusy
      · exact .started .awake thread (by decide) (by decide) hbusy
  | ending hending => cases hending

theorem Shape.step {p p' : Process} {e : ProcessEvent} (hshape : Shape p.main.phase p.listener)
    (hnext : process.step p e = some p') : Shape p'.main.phase p'.listener := by
  cases e with
  | main => exact hshape.main hnext
  | handle thread =>
      obtain ⟨l, hhandle, rfl⟩ := Option.map_eq_some_iff.mp hnext
      exact hshape.handle (step_of_clientHandler hhandle)
  | _ =>
      obtain ⟨hlistener, hphase⟩ := phase_of_not_own rfl (step_of_next hnext)
      rw [hlistener]
      rcases hphase with hphase | ⟨hwaiting, hleft⟩
      · rwa [hphase]
      · exact hshape.notified hwaiting hleft

theorem shape_of_reachable {p : Process} (hreach : process.Reachable (fun _ _ => True) p) :
    Shape p.main.phase p.listener := by
  induction hreach with
  | initial => exact .unstarted
  | step _ _ hnext ih => exact ih.step hnext

/-! ## In turn -/

/-- `main` calls the listener in turn: `startListener` before there is a thread, and
`stopListener` while there is one. -/
theorem calledInTurn_of_main {p : Process} (hshape : Shape p.main.phase p.listener) :
    (p.main.phase = .installed → p.listener.CalledInTurn .start) ∧
      (p.main.phase = .awake → p.listener.CalledInTurn .stop) := by
  obtain ⟨⟨phase, entered, handled⟩, l⟩ := p
  cases hshape with
  | unstarted => exact ⟨fun _ => .inl rfl, nofun⟩
  | creating => exact ⟨nofun, nofun⟩
  | assigning => exact ⟨nofun, nofun⟩
  | started phase thread hbegun => exact ⟨fun hphase => absurd hphase hbegun, fun _ => rfl⟩
  | hanging => exact ⟨nofun, nofun⟩
  | ending hending => cases hending <;> exact ⟨nofun, nofun⟩

/-- What the process does to the listener is a run of the listener with every call in turn. -/
theorem listener_reachable {p : Process} (hreach : process.Reachable (fun _ _ => True) p) :
    NyanSD.listener.Reachable CalledInTurn p.listener := by
  induction hreach with
  | initial => exact .initial
  | @step p p' e hreach _ hnext ih =>
      obtain ⟨hstarts, hstops⟩ := calledInTurn_of_main (shape_of_reachable hreach)
      cases step_of_next hnext with
      | start hphase _ hstart => exact .step (e := .start) ih (hstarts hphase) hstart
      | stop hphase _ hstop => exact .step (e := .stop) ih (hstops hphase) hstop
      | inCall hcall => exact .step (e := .proceed) ih trivial hcall
      | @handle thread _ hhandle => exact .step (e := .handle thread) ih trivial hhandle
      | _ => exact ih

/-- What the process does to `main` is a run of the wait for the signal. -/
theorem main_reachable {p : Process} (hreach : process.Reachable (fun _ _ => True) p) :
    stopSignal.Reachable (fun _ _ => True) p.main := by
  induction hreach with
  | initial => exact .initial
  | @step p p' e hreach _ hnext ih =>
      cases step_of_next hnext with
      | start _ hmain => exact .step (e := .proceed) ih trivial hmain
      | stop _ hmain => exact .step (e := .proceed) ih trivial hmain
      | goOn hmain => exact .step (e := .proceed) ih trivial hmain
      | wakeSpuriously hmain => exact .step (e := .wakeSpuriously) ih trivial hmain
      | deliver hmain => exact .step (e := .deliver) ih trivial hmain
      | signalHandler hmain => exact .step (e := .signalHandler) ih trivial hmain
      | _ => exact ih

/-- The process at any moment: no call of `main` has failed, `main` is held up by the wait and
by a thread it joins and by nothing else, and it does not return before its thread has. -/
structure Orderly (p : Process) : Prop where
  calls : p.listener.LifeCycle
  served : p.main.phase ≠ .installed → p.main.phase ≠ .listening → ¬ p.main.phase.Stops →
    ∃ thread, p.listener.handler = some thread ∧ p.listener.Alive thread
  held_up : p.proceed = none ↔ p.main.phase = .finished ∨ p.main.phase = .waiting ∨
    p.listener.control = .joining ∧ ∃ thread, p.listener.Alive thread
  done : p.main.phase = .finished → ¬ p.listener.HandlerExists ∧ p.listener.running = false

theorem alive_of_threads {l : Listener} {phase : HandlerPhase} (hthreads : l.threads = [phase])
    (hbusy : phase ≠ .finished) : l.Alive 0 :=
  ⟨phase, by rw [hthreads]; rfl, hbusy⟩

theorem not_alive_of_threads {l : Listener} {thread : Nat} (hthreads : l.threads = [.finished]) :
    ¬ l.Alive thread := by
  rintro ⟨phase, hphase, hbusy⟩
  rw [hthreads] at hphase
  exact hbusy (List.mem_singleton.mp (List.mem_of_getElem? hphase))

/-- Between its two calls `main` finds the listener started. -/
theorem Shape.started_of_serves {phase : MainPhase} {l : Listener} (hshape : Shape phase l)
    (hinstalled : phase ≠ .installed) (hlistening : phase ≠ .listening) (hstays : ¬ phase.Stops) :
    ∃ thread, thread ≠ HandlerPhase.finished ∧ l = Listener.started thread := by
  cases hshape with
  | unstarted => exact absurd rfl hinstalled
  | creating => exact absurd rfl hlistening
  | assigning => exact absurd rfl hlistening
  | started _ thread _ _ hbusy => exact ⟨thread, hbusy, rfl⟩
  | hanging => exact absurd (.inl rfl) hstays
  | ending hending => cases hending <;> exact absurd (by decide) hstays

theorem Shape.served {phase : MainPhase} {l : Listener} (hshape : Shape phase l)
    (hinstalled : phase ≠ .installed) (hlistening : phase ≠ .listening) (hstays : ¬ phase.Stops) :
    ∃ thread, l.handler = some thread ∧ l.Alive thread := by
  obtain ⟨thread, hbusy, rfl⟩ := hshape.started_of_serves hinstalled hlistening hstays
  exact ⟨0, rfl, alive_of_threads rfl hbusy⟩

theorem Shape.done {phase : MainPhase} {l : Listener} (hshape : Shape phase l)
    (hfinished : phase = .finished) : ¬ l.HandlerExists ∧ l.running = false := by
  subst hfinished
  cases hshape with
  | started _ _ _ hstays => exact absurd (.inr rfl) hstays
  | ending hending =>
      cases hending
      refine ⟨?_, rfl⟩
      rintro (hhandler | ⟨thread, halive⟩)
      · cases hhandler
      · exact not_alive_of_threads rfl halive

theorem Shape.held_up {p : Process} (hshape : Shape p.main.phase p.listener) :
    p.proceed = none ↔ p.main.phase = .finished ∨ p.main.phase = .waiting ∨
      p.listener.control = .joining ∧ ∃ thread, p.listener.Alive thread := by
  obtain ⟨⟨phase, entered, handled⟩, l⟩ := p
  cases hshape with
  | unstarted => exact iff_of_false nofun nofun
  | creating => exact iff_of_false nofun nofun
  | assigning => exact iff_of_false nofun nofun
  | started phase thread hbegun hstays =>
      cases phase with
      | installed => exact absurd rfl hbegun
      | waiting => exact iff_of_true rfl (.inr (.inl rfl))
      | stopping => exact absurd (.inl rfl) hstays
      | finished => exact absurd (.inr rfl) hstays
      | _ => exact iff_of_false nofun nofun
  | hanging thread hbusy =>
      refine iff_of_true ?_ (.inr (.inr ⟨rfl, 0, alive_of_threads rfl hbusy⟩))
      cases thread <;> first | exact absurd rfl hbusy | rfl
  | ending hending =>
      cases hending with
      | serving =>
          exact iff_of_true rfl (.inr (.inr ⟨rfl, 0, alive_of_threads rfl (by decide)⟩))
      | testing =>
          exact iff_of_true rfl (.inr (.inr ⟨rfl, 0, alive_of_threads rfl (by decide)⟩))
      | left =>
          refine iff_of_false nofun ?_
          rintro (hphase | hphase | ⟨-, thread, halive⟩)
          · cases hphase
          · cases hphase
          · exact not_alive_of_threads rfl halive
      | joined => exact iff_of_false nofun nofun
      | finished => exact iff_of_true rfl (.inl rfl)

/-- Every run of the process is a run of the listener with every call in turn and a run of the
wait, and all its states are orderly, whenever and however often the process is interrupted. -/
theorem runs_in_turn {p : Process} (hreach : process.Reachable (fun _ _ => True) p) :
    NyanSD.listener.Reachable CalledInTurn p.listener ∧
      stopSignal.Reachable (fun _ _ => True) p.main ∧ p.Orderly := by
  have hshape := shape_of_reachable hreach
  have hlistener := listener_reachable hreach
  exact ⟨hlistener, main_reachable hreach,
    (inTurn_of_reachable hlistener).lifeCycle, hshape.served, hshape.held_up, hshape.done⟩

/-- The daemon has been interrupted, has joined its thread and has returned. -/
def ended : Process where
  main := { phase := .finished, handled := 1 }
  listener := joined

/-- One way to get there. -/
def interrupted : List ProcessEvent :=
  [.main, .main, .main, .handle 0, .handle 0, .main, .main, .deliver, .signalHandler,
    .main, .main, .handle 0, .main, .main]

theorem runs_in_turn_ended :
    NyanSD.listener.Reachable CalledInTurn joined ∧ ended.Orderly ∧ ¬ joined.HandlerExists := by
  have hreach : process.Reachable (fun _ _ => True) ended :=
    Machine.reachable_of_run interrupted rfl
  obtain ⟨hlistener, -, horderly⟩ := runs_in_turn hreach
  exact ⟨hlistener, horderly, (horderly.done rfl).1⟩

/-! ## The end of the process -/

/-- However the process goes on, its threads take four more steps at most, and until `main` has
returned one of them can take the next. -/
def Ends (p : Process) : Prop :=
  ∀ events later, process.run (fun _ _ => True) p events = some later →
    events.countP ProcessEvent.own ≤ 4 ∧
      (later.main.phase = .finished ∨ ∃ e, e.own = true ∧ (process.step later e).isSome)

/-- However the process goes on, `main` waits in `stopListener` for a thread that has not left
`clientHandler`. -/
def Hangs (p : Process) : Prop :=
  ∀ events later, process.run (fun _ _ => True) p events = some later →
    later.main.phase = .stopping ∧ later.listener.control = .joining ∧
      ∃ thread, later.listener.handler = some thread ∧ later.listener.Alive thread

/-- What is kept while the process hangs: the flag says how far the thread is, and `main` waits
for the thread. -/
def Hanging (p : Process) : Prop :=
  p.main.phase = .stopping ∧
    ∃ thread, thread ≠ HandlerPhase.finished ∧ p.listener = joining thread.stored thread

/-- The two threads can take only the step that comes next, and nothing else counts. -/
theorem Ending.step {left : Nat} {p p' : Process} {e : ProcessEvent}
    (hending : Ending left p.main.phase p.listener) (hnext : process.step p e = some p') :
    (e = upNext left ∧ ∃ fewer, left = fewer + 1 ∧ Ending fewer p'.main.phase p'.listener) ∨
      (e.own = false ∧ Ending left p'.main.phase p'.listener) := by
  cases e with
  | main => exact .inl (hending.main hnext)
  | handle thread =>
      obtain ⟨l, hhandle, rfl⟩ := Option.map_eq_some_iff.mp hnext
      exact .inl (hending.handle (step_of_clientHandler hhandle))
  | _ =>
      obtain ⟨hlistener, hphase⟩ := phase_of_not_own rfl (step_of_next hnext)
      rcases hphase with hphase | ⟨hwaiting, -⟩
      · refine .inr ⟨rfl, ?_⟩
        rwa [hphase, hlistener]
      · rw [hwaiting] at hending
        cases hending

theorem own_upNext (left : Nat) : (upNext left).own = true := by
  unfold upNext
  split
  · rfl
  · rfl

theorem Ending.progress {fewer : Nat} {p : Process}
    (hending : Ending (fewer + 1) p.main.phase p.listener) :
    (process.step p (upNext (fewer + 1))).isSome := by
  obtain ⟨⟨phase, entered, handled⟩, l⟩ := p
  cases hending with
  | serving => rfl
  | testing => rfl
  | left => rfl
  | joined => rfl

theorem Ending.phase_of_zero {phase : MainPhase} {l : Listener} (hending : Ending 0 phase l) :
    phase = .finished := by
  cases hending
  rfl

theorem Ending.ends {left : Nat} {p : Process} (hending : Ending left p.main.phase p.listener)
    (hleft : left ≤ 4) : p.Ends := by
  intro events later hrun
  obtain ⟨fewer, hsum, hlater⟩ := Machine.run_countP ProcessEvent.own
    (fun left p => Ending left p.main.phase p.listener)
    (fun left p e p' hending _ hnext => by
      rcases hending.step hnext with ⟨rfl, fewer, rfl, hfewer⟩ | ⟨hown, hsame⟩
      · exact ⟨fewer, by rw [own_upNext, if_pos rfl], hfewer⟩
      · exact ⟨left, by rw [hown]; rfl, hsame⟩) hending hrun
  refine ⟨by omega, ?_⟩
  cases fewer with
  | zero => exact .inl hlater.phase_of_zero
  | succ fewer => exact .inr ⟨_, own_upNext _, hlater.progress⟩

theorem Hanging.step {p p' : Process} {e : ProcessEvent} (hhanging : p.Hanging)
    (hnext : process.step p e = some p') : p'.Hanging := by
  obtain ⟨hstopping, thread, hbusy, hlistener⟩ := hhanging
  cases e with
  | main =>
      -- `main` is held up by the thread that it joins
      have hshape : Shape p.main.phase p.listener := by
        rw [hstopping, hlistener]
        exact .hanging thread hbusy
      have hheld : p.proceed = none := by
        refine hshape.held_up.mpr (.inr (.inr ?_))
        rw [hlistener]
        exact ⟨rfl, 0, alive_of_threads rfl hbusy⟩
      exact absurd (hheld.symm.trans hnext) (by simp)
  | handle n =>
      obtain ⟨l, hhandle, rfl⟩ := Option.map_eq_some_iff.mp hnext
      rw [hlistener] at hhandle
      obtain ⟨-, next, running, hturns, rfl⟩ := turns_of_handle rfl (step_of_clientHandler hhandle)
      obtain ⟨halive, rfl⟩ := hturns.alive
      exact ⟨hstopping, next, halive, rfl⟩
  | _ =>
      obtain ⟨hsame, hphase⟩ := phase_of_not_own rfl (step_of_next hnext)
      rcases hphase with hphase | ⟨hwaiting, -⟩
      · exact ⟨hphase.trans hstopping, thread, hbusy, hsame.trans hlistener⟩
      · exact absurd (hstopping.symm.trans hwaiting) (by decide)

theorem Hanging.hangs {p : Process} (hhanging : p.Hanging) : p.Hangs := by
  intro events later hrun
  obtain ⟨hstopping, thread, hbusy, hlistener⟩ :=
    Machine.run_invariant (fun _ _ _ hhanging _ hnext => Hanging.step hhanging hnext) hhanging hrun
  rw [hlistener]
  exact ⟨hstopping, rfl, 0, rfl, alive_of_threads rfl hbusy⟩

/-- `main` leaves its wait and calls `stopListener`: the flag decides what follows. -/
theorem ending_or_hanging {p p' : Process} (hshape : Shape p.main.phase p.listener)
    (hawake : p.main.phase = .awake) (hnext : p.proceed = some p') :
    (p.listener.running = true ∧ ∃ left, left ≤ 4 ∧ Ending left p'.main.phase p'.listener) ∨
      (p.listener.running = false ∧ p'.Hanging) := by
  obtain ⟨thread, hbusy, hlistener⟩ := hshape.started_of_serves (by rw [hawake]; decide)
    (by rw [hawake]; decide) (by rw [hawake]; decide)
  obtain ⟨hstopping, hjoining⟩ := main_of_awake hawake hlistener hnext
  rw [Hanging, hlistener, hstopping, hjoining]
  cases thread with
  | created => exact .inr ⟨rfl, rfl, .created, hbusy, rfl⟩
  | bound => exact .inr ⟨rfl, rfl, .bound, hbusy, rfl⟩
  | testing => exact .inl ⟨rfl, 3, by decide, .testing⟩
  | serving => exact .inl ⟨rfl, 4, by decide, .serving⟩
  | finished => exact absurd rfl hbusy

/-- When `main` leaves its wait and calls `stopListener`, the flag decides: if the thread has
set it, the process ends on every schedule; if not, it hangs on every schedule. -/
theorem ends_or_hangs {p p' : Process} (hreach : process.Reachable (fun _ _ => True) p)
    (hawake : p.main.phase = .awake) (hnext : process.step p .main = some p') :
    (p.listener.running = true → p'.Ends) ∧ (p.listener.running = false → p'.Hangs) := by
  rcases ending_or_hanging (shape_of_reachable hreach) hawake hnext with
    ⟨hset, left, hleft, hending⟩ | ⟨hclear, hhanging⟩
  · exact ⟨fun _ => hending.ends hleft, fun hclear => absurd (hset.symm.trans hclear) (by decide)⟩
  · exact ⟨fun hset => absurd (hclear.symm.trans hset) (by decide), fun _ => hhanging.hangs⟩

/-- The daemon has been notified and has left its wait. -/
def awake (thread : HandlerPhase) : Process where
  main := { phase := .awake, handled := 1 }
  listener := started thread

/-- It is about to call `stopListener` while the thread answers a datagram, or before the
thread has run at all. -/
theorem ends_or_hangs_awake :
    (∃ p', process.step (awake .serving) .main = some p' ∧ p'.Ends) ∧
      ∃ p', process.step (awake .created) .main = some p' ∧ p'.Hangs := by
  have hserving : process.Reachable (fun _ _ => True) (awake .serving) :=
    Machine.reachable_of_run [.main, .main, .main, .handle 0, .handle 0, .handle 0, .main, .main,
      .deliver, .signalHandler, .main] rfl
  have hcreated : process.Reachable (fun _ _ => True) (awake .created) :=
    Machine.reachable_of_run [.main, .main, .main, .main, .main, .deliver, .signalHandler, .main]
      rfl
  exact ⟨⟨_, rfl, (ends_or_hangs hserving rfl rfl).1 rfl⟩,
    ⟨_, rfl, (ends_or_hangs hcreated rfl rfl).2 rfl⟩⟩

/-! ## Fair schedules -/

section Schedules

variable (sched : process.Schedule fun _ _ => True)

/-- Both threads go on whenever they can for long enough. -/
structure FairToThreads : Prop where
  main : sched.FairTo (· = .main)
  handler : sched.FairTo (· = .handle 0)

variable {sched}

/-- What is left is taken in the end. -/
theorem Ending.returns (hfair : FairToThreads sched) {left n : Nat}
    (hending : Ending left (sched.state n).main.phase (sched.state n).listener) :
    ∃ k, (sched.state k).main.phase = .finished := by
  induction left generalizing n with
  | zero => exact ⟨n, hending.phase_of_zero⟩
  | succ fewer ih =>
      have hnext : sched.FairTo (· = upNext (fewer + 1)) := by
        unfold upNext
        split
        · exact hfair.main
        · exact hfair.handler
      obtain ⟨k, e, -, hk, hevent, rfl⟩ := sched.exists_taken hnext
        (fun p => Ending (fewer + 1) p.main.phase p.listener)
        (fun p e p' hp hother _ hstep => by
          rcases hp.step hstep with ⟨hup, -⟩ | ⟨-, hsame⟩
          · exact absurd hup hother
          · exact hsame)
        (fun p hp => ⟨_, rfl, trivial, hp.progress⟩) hending
      rcases hk.step (sched.takes k _ hevent).2 with ⟨-, less, hless, hlater⟩ | ⟨hown, -⟩
      · obtain rfl : fewer = less := by omega
        exact ih hlater
      · exact absurd (hown.symm.trans (own_upNext _)) (by decide)

/-- Between its two calls `main` can go on once it does not wait. -/
theorem isSome_proceed {p : Process} (hshape : Shape p.main.phase p.listener)
    (hphase : p.main.phase = .notified ∨ p.main.phase = .awake) : p.proceed.isSome := by
  have hserves : p.main.phase ≠ .installed ∧ p.main.phase ≠ .listening ∧
      p.main.phase ≠ .waiting ∧ ¬ p.main.phase.Stops := by
    rcases hphase with hphase | hphase <;> rw [hphase] <;> decide
  obtain ⟨hinstalled, hlistening, hwaiting, hstays⟩ := hserves
  obtain ⟨thread, -, hlistener⟩ := hshape.started_of_serves hinstalled hlistening hstays
  rw [Option.isSome_iff_ne_none]
  intro hnone
  rcases hshape.held_up.mp hnone with hfinished | hwaits | ⟨hjoining, -⟩
  · exact hstays (.inr hfinished)
  · exact hwaiting hwaits
  · rw [hlistener] at hjoining
    cases hjoining

/-- Once `main` does not wait its next step comes, and nothing moves it on before. -/
theorem exists_main (hfair : FairToThreads sched) {phase : MainPhase}
    (hphase : phase = .notified ∨ phase = .awake) {n : Nat}
    (hn : (sched.state n).main.phase = phase) :
    ∃ k, n ≤ k ∧ (sched.state k).main.phase = phase ∧ sched.event k = some .main := by
  have hwaiting : phase ≠ .waiting := by rcases hphase with rfl | rfl <;> decide
  obtain ⟨k, e, hle, ⟨hk, -⟩, hevent, rfl⟩ := sched.exists_taken hfair.main
    (fun p => p.main.phase = phase ∧ Shape p.main.phase p.listener)
    (fun p e p' hp hother _ hstep => by
      obtain ⟨hp, hshape⟩ := hp
      have hsame := phase_of_ne_main hother (by rwa [hp]) (step_of_next hstep)
      exact ⟨hsame.trans hp, hshape.step hstep⟩)
    (fun p hp => ⟨.main, rfl, trivial, isSome_proceed hp.2 (by rwa [hp.1])⟩)
    ⟨hn, shape_of_reachable (sched.reachable n)⟩
  exact ⟨k, hle, hk, hevent⟩

/-- `main` has returned for good. -/
theorem finished_of_step {p p' : Process} {e : ProcessEvent}
    (hfinished : p.main.phase = .finished) (hstep : Step p e p') :
    p'.main.phase = .finished := by
  by_cases hmain : e = .main
  · subst hmain
    cases hstep with
    | start hphase => exact absurd (hfinished.symm.trans hphase) (by decide)
    | stop hphase => exact absurd (hfinished.symm.trans hphase) (by decide)
    | goOn hmain =>
        rw [StopSignal.proceed, hfinished] at hmain
        cases hmain
    | inCall => exact hfinished
  · exact (phase_of_ne_main hmain (by rw [hfinished]; decide) hstep).trans hfinished

theorem finished_of_le {n k : Nat} (hle : n ≤ k) (hn : (sched.state n).main.phase = .finished) :
    (sched.state k).main.phase = .finished :=
  sched.invariant (fun p => p.main.phase = .finished)
    (fun _ _ _ hfinished _ hnext => finished_of_step hfinished (step_of_next hnext)) hle hn

theorem awake_of_notified {p p' : Process} (hshape : Shape p.main.phase p.listener)
    (hnotified : p.main.phase = .notified) (hnext : p.proceed = some p') :
    p'.main.phase = .awake := by
  obtain ⟨thread, -, hlistener⟩ := hshape.started_of_serves (by rw [hnotified]; decide)
    (by rw [hnotified]; decide) (by rw [hnotified]; decide)
  obtain ⟨⟨phase, entered, handled⟩, l⟩ := p
  obtain rfl : phase = .notified := hnotified
  obtain rfl : l = started thread := hlistener
  cases hnext
  rfl

/-- Where both threads go on whenever they can for long enough, an interrupt that reaches `main`
in its wait makes it call `stopListener`, and `main` returns in the end exactly if the thread has
set the flag by then. -/
theorem returns_iff (hfair : FairToThreads sched) {n : Nat}
    (hnotified : (sched.state n).main.phase = .notified) :
    ∃ k, n ≤ k ∧ (sched.state k).main.phase = .awake ∧ sched.event k = some .main ∧
      ((∃ j, (sched.state j).main.phase = .finished) ↔
        (sched.state k).listener.running = true) := by
  obtain ⟨i, hi, hphase, hleaves⟩ := exists_main hfair (.inl rfl) hnotified
  have hawake := awake_of_notified (shape_of_reachable (sched.reachable i)) hphase
    (sched.takes i _ hleaves).2
  obtain ⟨k, hk, hawake, hstops⟩ := exists_main hfair (.inr rfl) hawake
  refine ⟨k, by omega, hawake, hstops, ?_⟩
  rcases ending_or_hanging (shape_of_reachable (sched.reachable k)) hawake
    (sched.takes k _ hstops).2 with ⟨hset, left, -, hending⟩ | ⟨hclear, hhanging⟩
  · exact iff_of_true (hending.returns hfair) hset
  · refine iff_of_false ?_ (by rw [hclear]; decide)
    rintro ⟨j, hj⟩
    rcases Nat.lt_or_ge k j with hlt | hge
    · have hlater := sched.invariant Hanging
        (fun _ _ _ hhanging _ hnext => Hanging.step hhanging hnext) hlt hhanging
      exact absurd (hlater.1.symm.trans hj) (by decide)
    · exact absurd (hawake.symm.trans (finished_of_le hge hj)) (by decide)

end Schedules

theorem returns_iff_interrupted :
    ∃ sched : process.Schedule fun _ _ => True, (sched.state 9).main.phase = .notified ∧
      ∃ k, 9 ≤ k ∧ (sched.state k).main.phase = .awake ∧ sched.event k = some .main ∧
        ((∃ j, (sched.state j).main.phase = .finished) ↔
          (sched.state k).listener.running = true) := by
  have hrun : process.run (fun _ _ => True) process.initial interrupted = some ended := rfl
  have hquiet : ∀ e : ProcessEvent, process.step ended e = none →
      ¬ process.Enabled (fun _ _ => True) (· = e) ended := by
    rintro e hnone ⟨e', rfl, -, hsome⟩
    rw [hnone] at hsome
    cases hsome
  refine ⟨.ofRun interrupted ended hrun, rfl, ?_⟩
  exact returns_iff ⟨(Machine.Schedule.stronglyFairTo_ofRun (hquiet .main rfl)).fairTo,
    (Machine.Schedule.stronglyFairTo_ofRun (hquiet (.handle 0) rfl)).fairTo⟩ rfl

end Process

end NyanSD
