import NyanSD.Foundation.Machine

/-!
# Waiting for the stop signal

The daemon installs its handler for SIGINT, starts the listener and then waits on a
condition variable without a predicate; the handler does nothing but notify. A
notification is kept by a thread that waits, and by nobody else. The server's `main`
ends in the same way.
-/

namespace NyanSD

/-- Where `main` stands, from the return of `std::signal` on. -/
inductive MainPhase
  | installed
  | listening
  | locked
  /-- In `gCv.wait`, and nobody has notified it. -/
  | waiting
  /-- Still in `gCv.wait`, with a notification pending. -/
  | notified
  | awake
  | stopping
  | finished
deriving DecidableEq, Repr

namespace MainPhase

/-- The next step of `main`. While it waits it has none. -/
def next : MainPhase → Option MainPhase
  | .installed => some .listening
  | .listening => some .locked
  | .locked => some .waiting
  | .waiting => none
  | .notified => some .awake
  | .awake => some .stopping
  | .stopping => some .finished
  | .finished => none

/-- `main` has called `stopListener`. -/
def Stops (phase : MainPhase) : Prop := phase = .stopping ∨ phase = .finished

/-- The wait is over, or a notification is pending that will end it. -/
def Leaves (phase : MainPhase) : Prop := phase = .notified ∨ phase = .awake ∨ phase.Stops

instance (phase : MainPhase) : Decidable phase.Stops := inferInstanceAs (Decidable (_ ∨ _))

instance (phase : MainPhase) : Decidable phase.Leaves := inferInstanceAs (Decidable (_ ∨ _))

/-- `main` leaves the wait by being notified, and not by a step of its own. -/
theorem leaves_next {phase later : MainPhase} (hnext : phase.next = some later) :
    later.Leaves ↔ phase.Leaves := by
  cases phase <;> cases hnext <;> decide

end MainPhase

structure StopSignal where
  phase : MainPhase := .installed
  /-- Handlers that have been entered and have not notified yet. -/
  entered : Nat := 0
  /-- SIGINTs that have been handled. -/
  handled : Nat := 0
deriving DecidableEq, Repr

namespace StopSignal

def proceed (s : StopSignal) : Option StopSignal :=
  s.phase.next.map fun phase => { s with phase }

/-- `gCv.wait` returns on its own. -/
def wakeSpuriously (s : StopSignal) : Option StopSignal :=
  if s.phase = .waiting then some { s with phase := .awake } else none

/-- SIGINT is delivered: a thread of the process enters the handler. -/
def deliver (s : StopSignal) : Option StopSignal :=
  if s.phase = .finished then none else some { s with entered := s.entered + 1 }

/-- The body of `signal_handler`: `gCv.notify_all()`. -/
def signalHandler (s : StopSignal) : Option StopSignal :=
  if s.phase = .finished ∨ s.entered = 0 then none
  else some { s with phase := if s.phase = .waiting then .notified else s.phase
                     entered := s.entered - 1
                     handled := s.handled + 1 }

end StopSignal

inductive StopEvent
  | proceed
  | wakeSpuriously
  | deliver
  | signalHandler
deriving DecidableEq, Repr

def stopSignal : Machine StopSignal StopEvent where
  initial := {}
  step s
    | .proceed => s.proceed
    | .wakeSpuriously => s.wakeSpuriously
    | .deliver => s.deliver
    | .signalHandler => s.signalHandler

namespace StopSignal

/-- No handled signal is lost, and nothing but a signal stops the listener. -/
structure Heard (s : StopSignal) : Prop where
  not_lost : ¬ (0 < s.handled ∧ s.phase = .waiting)
  stops : s.phase.Stops → 0 < s.handled

/-- The handler notifies only from the time on that `main` waits, and a wait does not end on
its own. -/
def Timely (s : StopSignal) : StopEvent → Prop
  | .wakeSpuriously => False
  | .signalHandler => s.phase = .waiting ∨ s.phase.Leaves
  | .proceed => True
  | .deliver => True

/-- A signal has been handled exactly when the wait is over or about to be. -/
def Balanced (s : StopSignal) : Prop := 0 < s.handled ↔ s.phase.Leaves

instance (s : StopSignal) : (e : StopEvent) → Decidable (Timely s e)
  | .wakeSpuriously => .isFalse id
  | .signalHandler => inferInstanceAs (Decidable (_ ∨ _))
  | .proceed => .isTrue trivial
  | .deliver => .isTrue trivial

theorem Balanced.heard {s : StopSignal} (hbalanced : s.Balanced) : s.Heard where
  not_lost := by
    rintro ⟨hhandled, hwaiting⟩
    have hleaves := hbalanced.mp hhandled
    rw [hwaiting] at hleaves
    exact absurd hleaves (by decide)
  stops := fun hstops => hbalanced.mpr (.inr (.inr hstops))

theorem balanced_proceed {s s' : StopSignal} (hbalanced : s.Balanced)
    (hnext : s.proceed = some s') : s'.Balanced := by
  obtain ⟨later, hlater, rfl⟩ := Option.map_eq_some_iff.mp hnext
  exact hbalanced.trans (MainPhase.leaves_next hlater).symm

theorem balanced_deliver {s s' : StopSignal} (hbalanced : s.Balanced)
    (hnext : s.deliver = some s') : s'.Balanced := by
  unfold deliver at hnext
  split at hnext
  · cases hnext
  · cases hnext
    exact hbalanced

/-- A handler that notifies in time leaves `main` on its way out of the wait. -/
theorem balanced_signalHandler {s s' : StopSignal} (htimely : Timely s .signalHandler)
    (hnext : s.signalHandler = some s') : s'.Balanced := by
  unfold signalHandler at hnext
  split at hnext
  · cases hnext
  · cases hnext
    refine iff_of_true (Nat.succ_pos _) ?_
    dsimp only
    split
    next => exact .inl rfl
    next hwaiting => exact htimely.resolve_left hwaiting

theorem balanced_step {s s' : StopSignal} {e : StopEvent} (hbalanced : s.Balanced)
    (htimely : Timely s e) (hnext : stopSignal.step s e = some s') : s'.Balanced := by
  cases e with
  | proceed => exact balanced_proceed hbalanced hnext
  | wakeSpuriously => exact htimely.elim
  | deliver => exact balanced_deliver hbalanced hnext
  | signalHandler => exact balanced_signalHandler htimely hnext

theorem balanced {s : StopSignal} (hreach : stopSignal.Reachable Timely s) : s.Balanced :=
  hreach.invariant (iff_of_false (Nat.lt_irrefl 0) (by decide)) fun _ _ _ => balanced_step

/-- As long as every notification comes in time and the wait does not end on its own, a signal
is not lost and a stop needs a signal. -/
theorem heard_of_timely {s : StopSignal} (hreach : stopSignal.Reachable Timely s) : s.Heard :=
  (balanced hreach).heard

theorem heard_of_timely_finished :
    Heard { phase := .finished, entered := 0, handled := 1 } :=
  heard_of_timely (Machine.reachable_of_run
    [.proceed, .proceed, .proceed, .deliver, .signalHandler, .proceed, .proceed, .proceed] rfl)

/-- From in front of the wait `main` gets into it by steps of its own. -/
theorem run_to_wait (s : StopSignal) (hwaiting : s.phase ≠ .waiting) (hstays : ¬ s.phase.Leaves) :
    ∃ events, stopSignal.run (fun _ _ => True) s events = some { s with phase := .waiting } := by
  obtain ⟨phase, entered, handled⟩ := s
  cases phase with
  | installed => exact ⟨[.proceed, .proceed, .proceed], rfl⟩
  | listening => exact ⟨[.proceed, .proceed], rfl⟩
  | locked => exact ⟨[.proceed], rfl⟩
  | waiting => exact absurd rfl hwaiting
  | notified => exact absurd (show MainPhase.notified.Leaves by decide) hstays
  | awake => exact absurd (show MainPhase.awake.Leaves by decide) hstays
  | stopping => exact absurd (show MainPhase.stopping.Leaves by decide) hstays
  | finished => exact absurd (show MainPhase.finished.Leaves by decide) hstays

/-- A notification in front of the wait is lost. -/
theorem lost_of_early {s s' : StopSignal} (huntimely : ¬ Timely s .signalHandler)
    (hnext : s.signalHandler = some s') :
    ∃ (events : List StopEvent) (s'' : StopSignal),
      stopSignal.run (fun _ _ => True) s' events = some s'' ∧ ¬ s''.Heard := by
  obtain ⟨hwaiting, hstays⟩ := not_or.mp huntimely
  unfold signalHandler at hnext
  split at hnext
  · cases hnext
  · cases hnext
    obtain ⟨events, hrun⟩ := run_to_wait
      { s with entered := s.entered - 1, handled := s.handled + 1 } hwaiting hstays
    exact ⟨events, _, hrun, fun hheard => hheard.not_lost ⟨Nat.succ_pos _, rfl⟩⟩

/-- A wait that ends on its own stops the listener without a signal. -/
theorem unasked_of_spurious {s s' : StopSignal} (hbalanced : s.Balanced)
    (hnext : s.wakeSpuriously = some s') :
    ∃ (events : List StopEvent) (s'' : StopSignal),
      stopSignal.run (fun _ _ => True) s' events = some s'' ∧ ¬ s''.Heard := by
  unfold wakeSpuriously at hnext
  split at hnext
  next hwaiting =>
    cases hnext
    have hstays : ¬ s.phase.Leaves := by
      rw [hwaiting]
      decide
    refine ⟨[.proceed], { s with phase := .stopping }, rfl, ?_⟩
    intro hheard
    exact hstays (hbalanced.mp (hheard.stops (.inl rfl)))
  next => cases hnext

/-- Any other step can be followed by steps of `main` to a state in which a signal is lost or
the listener is stopped without one. -/
theorem unheard_of_not_timely {s s' : StopSignal} {e : StopEvent}
    (hreach : stopSignal.Reachable Timely s) (huntimely : ¬ Timely s e)
    (hnext : stopSignal.step s e = some s') :
    ∃ (events : List StopEvent) (s'' : StopSignal),
      stopSignal.run (fun _ _ => True) s' events = some s'' ∧ ¬ s''.Heard := by
  cases e with
  | proceed => exact absurd trivial huntimely
  | wakeSpuriously => exact unasked_of_spurious (balanced hreach) hnext
  | deliver => exact absurd trivial huntimely
  | signalHandler => exact lost_of_early huntimely hnext

/-- A SIGINT during the start of the listener leaves `main` waiting for good, and a spurious
wake-up stops the daemon without one. -/
theorem signal_lost :
    stopSignal.run (fun _ _ => True) stopSignal.initial
        [.proceed, .deliver, .signalHandler, .proceed, .proceed] =
      some { phase := .waiting, entered := 0, handled := 1 } ∧
    ¬ Heard { phase := .waiting, entered := 0, handled := 1 } ∧
    stopSignal.run (fun _ _ => True) stopSignal.initial
        [.proceed, .proceed, .proceed, .wakeSpuriously, .proceed] =
      some { phase := .stopping, entered := 0, handled := 0 } ∧
    ¬ Heard { phase := .stopping, entered := 0, handled := 0 } ∧
    ¬ ∀ s, stopSignal.Reachable (fun _ _ => True) s → s.Heard := by
  have hlost : stopSignal.run (fun _ _ => True) stopSignal.initial
      [.proceed, .deliver, .signalHandler, .proceed, .proceed] =
        some { phase := .waiting, entered := 0, handled := 1 } := rfl
  have hunheard : ¬ Heard { phase := .waiting, entered := 0, handled := 1 } := fun hheard =>
    hheard.not_lost ⟨by decide, rfl⟩
  refine ⟨hlost, hunheard, rfl, ?_, ?_⟩
  · intro hheard
    exact absurd (hheard.stops (.inl rfl)) (by decide)
  · intro hall
    exact hunheard (hall _ (Machine.reachable_of_run _ hlost))

end StopSignal

end NyanSD
