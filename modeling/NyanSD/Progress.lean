import NyanSD.Foundation.Schedule
import NyanSD.Locking

/-!
# Everybody gets through

If a thread that can go on again and again does go on, no call of `addService` and no query
waits for ever: every call returns with its service registered, and every query is answered
for the services of one moment in which it was handled.
-/

namespace NyanSD.Locking

open Machine

variable {Caller : Type} [DecidableEq Caller]

/-! ## What the other threads leave alone -/

section Steps

variable {s s' : State Caller} {e : Event Caller}

/-- A call that is under way is moved on by its own thread only. -/
theorem callers_eq_of_step {id : Caller} (hbusy : s.callers id ≠ .idle)
    (hthread : e.thread ≠ some (.caller id)) (hstep : s.Step e s') :
    s'.callers id = s.callers id := by
  have hother : ∀ {other : Caller} {phase : CallerPhase}, id ≠ other →
      Function.update s.callers other phase id = s.callers id :=
    fun hne => Function.update_of_ne hne ..
  have hne : ∀ {other : Caller}, e.thread = some (.caller other) → id ≠ other := by
    rintro other hof rfl
    exact hthread hof
  cases hstep with
  | call hidle =>
      apply hother
      rintro rfl
      exact hbusy hidle
  | lock => exact hother (hne rfl)
  | push => exact hother (hne rfl)
  | unlock => exact hother (hne rfl)
  | _ => rfl

/-- A query that is under way is moved on by the handler only. -/
theorem handler_eq_of_step (hbusy : s.handler ≠ .idle) (hthread : e.thread ≠ some .handler)
    (hstep : s.Step e s') : s'.handler = s.handler := by
  cases hstep with
  | query hidle => exact absurd hidle hbusy
  | handlerLock => exact absurd rfl hthread
  | pass => exact absurd rfl hthread
  | handlerUnlock => exact absurd rfl hthread
  | send => exact absurd rfl hthread
  | _ => rfl

/-- While the handler is in its loop nobody registers anything. -/
theorem services_eq_of_step (hs : Invariant s) (hholds : s.handler.Holds) (hstep : s.Step e s') :
    s'.services = s.services := by
  cases hstep with
  | push hphase =>
      have hsame := (hs.handler.mp hholds).symm.trans (hs.owner_of_pushing hphase)
      simp at hsame
  | _ => rfl

/-! ## What a thread does next -/

/-- What the thread of a call does: it takes the lock, pushes its service and gives the lock
back. -/
theorem step_of_caller {id : Caller} (hthread : e.thread = some (.caller id))
    (hstep : s.Step e s') :
    (∃ call, s.callers id = .locking call ∧ s'.callers id = .pushing call) ∨
      (∃ call, s.callers id = .pushing call ∧ s'.callers id = .unlocking call) ∨
      ∃ call, s.callers id = .unlocking call ∧ s'.owner = none ∧ s'.callers id = .idle ∧
        s'.returned = s.returned ++ [call.val] := by
  cases hstep with
  | @lock other call hphase =>
      obtain rfl : other = id := by simpa [Event.thread] using hthread
      exact .inl ⟨call, hphase, Function.update_self ..⟩
  | @push other call hphase =>
      obtain rfl : other = id := by simpa [Event.thread] using hthread
      exact .inr (.inl ⟨call, hphase, Function.update_self ..⟩)
  | @unlock other call hphase =>
      obtain rfl : other = id := by simpa [Event.thread] using hthread
      exact .inr (.inr ⟨call, hphase, rfl, Function.update_self .., rfl⟩)
  | _ => simp [Event.thread] at hthread

/-- What the handler does in its loop: it passes a service, or has passed them all and gives
the lock back with the response composed. -/
theorem step_of_looping (hs : Invariant s) {found : Surroundings} {filter : Bytes} {i : Nat}
    {body : ServicesBody} (hphase : s.handler = .looping found filter i body)
    (hthread : e.thread = some .handler) (hstep : s.Step e s') :
    (i < s.services.length ∧ ∃ body', s'.handler = .looping found filter (i + 1) body') ∨
      (s'.owner = none ∧ ∃ body', s'.handler = .sending found body' ∧
        respond (found.server s.services) found.sender filter = assemble found.host body') := by
  cases hstep with
  | handlerLock hbefore => cases hphase.symm.trans hbefore
  | pass hbefore hsv =>
      cases hphase.symm.trans hbefore
      exact .inl ⟨(List.getElem?_eq_some_iff.mp hsv).1, _, rfl⟩
  | handlerUnlock hbefore hdone =>
      cases hphase.symm.trans hbefore
      exact .inr ⟨rfl, body, rfl, hs.assemble_of_done hphase hdone⟩
  | send hbefore => cases hphase.symm.trans hbefore
  | _ => simp [Event.thread] at hthread

theorem step_of_waiting {found : Surroundings} {filter : Bytes}
    (hphase : s.handler = .locking found filter) (hthread : e.thread = some .handler)
    (hstep : s.Step e s') : s'.handler = .looping found filter 0 {} := by
  cases hstep with
  | handlerLock hbefore =>
      cases hphase.symm.trans hbefore
      rfl
  | pass hbefore => cases hphase.symm.trans hbefore
  | handlerUnlock hbefore => cases hphase.symm.trans hbefore
  | send hbefore => cases hphase.symm.trans hbefore
  | _ => simp [Event.thread] at hthread

theorem step_of_sending {found : Surroundings} {body : ServicesBody}
    (hphase : s.handler = .sending found body) (hthread : e.thread = some .handler)
    (hstep : s.Step e s') : s'.sent = s.sent ++ [assemble found.host body] := by
  cases hstep with
  | handlerLock hbefore => cases hphase.symm.trans hbefore
  | pass hbefore => cases hphase.symm.trans hbefore
  | handlerUnlock hbefore => cases hphase.symm.trans hbefore
  | send hbefore =>
      cases hphase.symm.trans hbefore
      rfl
  | _ => simp [Event.thread] at hthread

end Steps

/-! ## What comes in the end -/

section Schedules

variable (sched : (locking Caller).Schedule fun _ _ => True)

/-- Every thread that can go on again and again goes on. -/
def FairToThreads : Prop :=
  ∀ thread : Thread Caller, sched.StronglyFairTo fun e => e.thread = some thread

variable {sched}

theorem invariant_of_schedule (n : Nat) : Invariant (sched.state n) :=
  reachable_invariant (sched.reachable n)

theorem step_of_event {n : Nat} {e : Event Caller} (hevent : sched.event n = some e) :
    (sched.state n).Step e (sched.state (n + 1)) :=
  step_iff.mp (sched.takes n e hevent).2

theorem enabled_of_step {s s' : State Caller} {e : Event Caller} {thread : Thread Caller}
    (hthread : e.thread = some thread) (hstep : s.Step e s') :
    (locking Caller).Enabled (fun _ _ => True) (fun e => e.thread = some thread) s :=
  ⟨e, hthread, trivial, Option.isSome_of_eq_some (step_iff.mpr hstep)⟩

/-- A call that is under way stays where it is until its thread goes on. -/
theorem exists_caller (hfair : FairToThreads sched) {id : Caller} {phase : CallerPhase}
    (hbusy : phase ≠ .idle)
    (henabled : ∀ s : State Caller, s.callers id = phase →
      ∃ e s', e.thread = some (.caller id) ∧ s.Step e s') {n : Nat}
    (hn : (sched.state n).callers id = phase) :
    ∃ k e, n ≤ k ∧ (sched.state k).callers id = phase ∧ sched.event k = some e ∧
      e.thread = some (.caller id) := by
  refine sched.exists_taken (hfair (.caller id)).fairTo (fun s => s.callers id = phase) ?_ ?_ hn
  · intro s e s' hs hthread _ hnext
    exact (callers_eq_of_step (by rwa [hs]) hthread (step_iff.mp hnext)).trans hs
  · intro s hs
    obtain ⟨e, s', hthread, hstep⟩ := henabled s hs
    exact enabled_of_step hthread hstep

/-- A call that has the lock gives it back, and returns. -/
theorem caller_returns (hfair : FairToThreads sched) {id : Caller} {call : AcceptedCall} {n : Nat}
    (hn : (sched.state n).callers id = .pushing call ∨
      (sched.state n).callers id = .unlocking call) :
    ∃ k, n ≤ k ∧ (sched.state k).callers id = .unlocking call ∧
      (sched.state (k + 1)).owner = none ∧ (sched.state (k + 1)).callers id = .idle ∧
      (sched.state (k + 1)).returned = (sched.state k).returned ++ [call.val] := by
  have hunlocks : ∀ {n : Nat}, (sched.state n).callers id = .unlocking call →
      ∃ k, n ≤ k ∧ (sched.state k).callers id = .unlocking call ∧
        (sched.state (k + 1)).owner = none ∧ (sched.state (k + 1)).callers id = .idle ∧
        (sched.state (k + 1)).returned = (sched.state k).returned ++ [call.val] := by
    intro n hn
    obtain ⟨k, e, hle, hk, hevent, hthread⟩ := exists_caller hfair (by simp)
      (fun s hs => ⟨.unlock id, _, rfl, .unlock hs⟩) hn
    refine ⟨k, hle, hk, ?_⟩
    rcases step_of_caller hthread (step_of_event hevent) with
      ⟨call', hbefore, -⟩ | ⟨call', hbefore, -⟩ | ⟨call', hbefore, hreturns⟩
    · cases hk.symm.trans hbefore
    · cases hk.symm.trans hbefore
    · cases hk.symm.trans hbefore
      exact hreturns
  rcases hn with hn | hn
  · obtain ⟨k, e, hle, hk, hevent, hthread⟩ := exists_caller hfair (by simp)
      (fun s hs => ⟨.push id, _, rfl, .push hs⟩) hn
    rcases step_of_caller hthread (step_of_event hevent) with
      ⟨call', hbefore, -⟩ | ⟨call', hbefore, hafter⟩ | ⟨call', hbefore, -⟩
    · cases hk.symm.trans hbefore
    · cases hk.symm.trans hbefore
      obtain ⟨k', hle', hk'⟩ := hunlocks hafter
      exact ⟨k', by omega, hk'⟩
    · cases hk.symm.trans hbefore
  · exact hunlocks hn

/-- A query that is under way stays where it is until the handler goes on, and as long as the
handler is in its loop so do the services. -/
theorem exists_handler (hfair : FairToThreads sched) {phase : HandlerPhase}
    (hbusy : phase ≠ .idle)
    (henabled : ∀ s : State Caller, s.handler = phase →
      ∃ e s', e.thread = some .handler ∧ s.Step e s') {n : Nat}
    (hn : (sched.state n).handler = phase) :
    ∃ k e, n ≤ k ∧ (sched.state k).handler = phase ∧
      (phase.Holds → (sched.state k).services = (sched.state n).services) ∧
      sched.event k = some e ∧ e.thread = some .handler := by
  let holds (s : State Caller) : Prop :=
    Invariant s ∧ s.handler = phase ∧ (phase.Holds → s.services = (sched.state n).services)
  have hkeep : ∀ s e s', holds s → ¬ e.thread = some .handler → True →
      (locking Caller).step s e = some s' → holds s' := by
    rintro s e s' ⟨hs, hphase, hservices⟩ hthread - hnext
    have hstep := step_iff.mp hnext
    refine ⟨hs.step hstep, ?_, ?_⟩
    · exact (handler_eq_of_step (by rwa [hphase]) hthread hstep).trans hphase
    · intro hholds
      exact (services_eq_of_step hs (by rwa [hphase]) hstep).trans (hservices hholds)
  obtain ⟨k, e, hle, ⟨-, hk, hservices⟩, htaken⟩ :=
    sched.exists_taken (hfair .handler).fairTo holds hkeep
      (fun s hs => by
        obtain ⟨e, s', hthread, hstep⟩ := henabled s hs.2.1
        exact enabled_of_step hthread hstep)
      ⟨invariant_of_schedule n, hn, fun _ => rfl⟩
  exact ⟨k, e, hle, hk, hservices, htaken⟩

/-- The loop comes to its end, with the response for the services as they are then. -/
theorem handler_unlocks (hfair : FairToThreads sched) {found : Surroundings} {filter : Bytes}
    {i left : Nat} {body : ServicesBody} {n : Nat}
    (hn : (sched.state n).handler = .looping found filter i body)
    (hleft : (sched.state n).services.length ≤ i + left) :
    ∃ k, n ≤ k ∧ (sched.state (k + 1)).owner = none ∧
      ∃ body', (sched.state (k + 1)).handler = .sending found body' ∧
        respond (found.server (sched.state k).services) found.sender filter =
          assemble found.host body' := by
  induction left generalizing n i body with
  | zero =>
      obtain ⟨k, e, hle, hk, hservices, hevent, hthread⟩ := exists_handler hfair (by simp)
        (fun s hs => exists_step_of_looping hs) hn
      have hsame := hservices trivial
      rcases step_of_looping (invariant_of_schedule k) hk hthread (step_of_event hevent) with
        ⟨hmore, -⟩ | hdone
      · rw [hsame] at hmore
        omega
      · exact ⟨k, hle, hdone⟩
  | succ left ih =>
      obtain ⟨k, e, hle, hk, hservices, hevent, hthread⟩ := exists_handler hfair (by simp)
        (fun s hs => exists_step_of_looping hs) hn
      have hstep := step_of_event hevent
      have hsame := (services_eq_of_step (invariant_of_schedule k) (by rw [hk]; trivial)
        hstep).trans (hservices trivial)
      rcases step_of_looping (invariant_of_schedule k) hk hthread hstep with
        ⟨-, body', hafter⟩ | hdone
      · obtain ⟨k', hle', hk'⟩ := ih hafter (by rw [hsame]; omega)
        exact ⟨k', by omega, hk'⟩
      · exact ⟨k, hle, hdone⟩

/-- The lock becomes free again and again. -/
theorem lock_free (hfair : FairToThreads sched) (n : Nat) :
    ∃ k, n ≤ k ∧ (sched.state k).owner = none := by
  have hs : Invariant (sched.state n) := invariant_of_schedule n
  cases howner : (sched.state n).owner with
  | none => exact ⟨n, Nat.le_refl n, howner⟩
  | some thread =>
      cases thread with
      | handler =>
          have hholds := hs.handler.mpr howner
          cases hphase : (sched.state n).handler with
          | looping found filter i body =>
              obtain ⟨k, hle, hfree, -⟩ := handler_unlocks hfair hphase (Nat.le_add_left _ i)
              exact ⟨k + 1, by omega, hfree⟩
          | _ =>
              rw [hphase] at hholds
              exact hholds.elim
      | caller id =>
          have hholds := (hs.callers id).mpr howner
          cases hphase : (sched.state n).callers id with
          | pushing call =>
              obtain ⟨k, hle, -, hfree, -⟩ := caller_returns hfair (.inl hphase)
              exact ⟨k + 1, by omega, hfree⟩
          | unlocking call =>
              obtain ⟨k, hle, -, hfree, -⟩ := caller_returns hfair (.inr hphase)
              exact ⟨k + 1, by omega, hfree⟩
          | _ =>
              rw [hphase] at hholds
              exact hholds.elim

/-- A call that waits for the lock gets it. -/
theorem caller_locks (hfair : FairToThreads sched) {id : Caller} {call : AcceptedCall} {n : Nat}
    (hn : (sched.state n).callers id = .locking call) :
    ∃ k, n ≤ k ∧ (sched.state (k + 1)).callers id = .pushing call := by
  obtain ⟨k, e, hle, hk, hevent, hthread⟩ := sched.exists_taken_often (hfair (.caller id))
    (fun s => s.callers id = .locking call)
    (fun s e s' hs hthread _ hnext =>
      (callers_eq_of_step (by simp [hs]) hthread (step_iff.mp hnext)).trans hs)
    (lock_free hfair)
    (fun s hs hfree => enabled_of_step rfl (.lock hs hfree)) hn
  refine ⟨k, hle, ?_⟩
  rcases step_of_caller hthread (step_of_event hevent) with
    ⟨call', hbefore, hafter⟩ | ⟨call', hbefore, -⟩ | ⟨call', hbefore, -⟩
  · cases hk.symm.trans hbefore
    exact hafter
  · cases hk.symm.trans hbefore
  · cases hk.symm.trans hbefore

/-- A query that waits for the lock gets it. -/
theorem handler_locks (hfair : FairToThreads sched) {found : Surroundings} {filter : Bytes}
    {n : Nat} (hn : (sched.state n).handler = .locking found filter) :
    ∃ k, n ≤ k ∧ (sched.state (k + 1)).handler = .looping found filter 0 {} := by
  obtain ⟨k, e, hle, hk, hevent, hthread⟩ := sched.exists_taken_often (hfair .handler)
    (fun s => s.handler = .locking found filter)
    (fun s e s' hs hthread _ hnext =>
      (handler_eq_of_step (by simp [hs]) hthread (step_iff.mp hnext)).trans hs)
    (lock_free hfair)
    (fun s hs hfree => enabled_of_step rfl (.handlerLock hs hfree)) hn
  exact ⟨k, hle, step_of_waiting hk hthread (step_of_event hevent)⟩

/-- A response that has been composed is sent. -/
theorem handler_sends (hfair : FairToThreads sched) {found : Surroundings} {body : ServicesBody}
    {n : Nat} (hn : (sched.state n).handler = .sending found body) :
    ∃ k, n ≤ k ∧
      (sched.state (k + 1)).sent = (sched.state k).sent ++ [assemble found.host body] := by
  obtain ⟨k, e, hle, hk, -, hevent, hthread⟩ := exists_handler hfair (by simp)
    (fun s hs => ⟨.send, _, rfl, .send hs⟩) hn
  exact ⟨k, hle, step_of_sending hk hthread (step_of_event hevent)⟩

/-- Where every thread that can go on again and again goes on, every call of `addService` that
is accepted returns to its caller with its service among those registered, and every query is
answered, with the response for the services as they are at one moment in between. -/
theorem gets_through (hfair : FairToThreads sched) :
    (∀ n id call, (sched.state n).callers id = .locking call →
      ∃ k, n ≤ k ∧ (sched.state k).callers id = .unlocking call ∧
        call.val.record ∈ (sched.state k).services ∧ (sched.state (k + 1)).callers id = .idle ∧
        (sched.state (k + 1)).returned = (sched.state k).returned ++ [call.val]) ∧
    ∀ n found filter, (sched.state n).handler = .locking found filter →
      ∃ j k, n ≤ j ∧ j ≤ k ∧ (sched.state (k + 1)).sent = (sched.state k).sent ++
        [respond (found.server (sched.state j).services) found.sender filter] := by
  constructor
  · intro n id call hn
    obtain ⟨i, hi, hpushing⟩ := caller_locks hfair hn
    obtain ⟨k, hk, hphase, -, hreturned⟩ := caller_returns hfair (.inl hpushing)
    refine ⟨k, by omega, hphase, ?_, hreturned⟩
    rw [(invariant_of_schedule k).unreturned hphase]
    exact List.mem_append_right _ (List.mem_singleton.mpr rfl)
  · intro n found filter hn
    obtain ⟨i, hi, hlooping⟩ := handler_locks hfair hn
    obtain ⟨j, hj, -, body, hsending, hbody⟩ :=
      handler_unlocks hfair hlooping (Nat.le_add_left _ 0)
    obtain ⟨k, hk, hsent⟩ := handler_sends hfair hsending
    exact ⟨j, k, by omega, by omega, by rw [hsent, hbody]⟩

end Schedules

/-- The crossed calls return, and the query in between is answered. -/
def settled : List (Event Bool) := crossed ++ [.unlock false]

def settledState : State Bool :=
  ((locking Bool).run (fun _ _ => True) {} settled).getD {}

theorem gets_through_settled :
    ∃ sched : (locking Bool).Schedule fun _ _ => True,
      (∃ k, 1 ≤ k ∧ (sched.state k).callers true = .unlocking ⟨⟨printer, []⟩, by decide⟩ ∧
        printer ∈ (sched.state k).services ∧ (sched.state (k + 1)).callers true = .idle ∧
        (sched.state (k + 1)).returned = (sched.state k).returned ++ [⟨printer, []⟩]) ∧
      ∃ j k, 3 ≤ j ∧ j ≤ k ∧ (sched.state (k + 1)).sent = (sched.state k).sent ++
        [respond (surroundings.server (sched.state j).services) surroundings.sender []] := by
  have hrun : (locking Bool).run (fun _ _ => True) {} settled = some settledState := rfl
  have hidle : ∀ id, settledState.callers id = .idle := by
    intro id
    cases id with
    | true => rfl
    | false => rfl
  have hquiet : ∀ thread, ¬ (locking Bool).Enabled (fun _ _ => True)
      (fun e => e.thread = some thread) settledState := by
    rintro thread ⟨e, hthread, -, hsome⟩
    obtain ⟨s', hnext⟩ := Option.isSome_iff_exists.mp hsome
    have hhandler : settledState.handler = .idle := rfl
    cases step_iff.mp hnext with
    | refused => cases hthread
    | call => cases hthread
    | query => cases hthread
    | lock hphase => cases (hidle _).symm.trans hphase
    | push hphase => cases (hidle _).symm.trans hphase
    | unlock hphase => cases (hidle _).symm.trans hphase
    | handlerLock hphase => cases hhandler.symm.trans hphase
    | pass hphase => cases hhandler.symm.trans hphase
    | handlerUnlock hphase => cases hhandler.symm.trans hphase
    | send hphase => cases hhandler.symm.trans hphase
  have hfair : FairToThreads (.ofRun settled settledState hrun) := fun thread =>
    Schedule.stronglyFairTo_ofRun (hquiet thread)
  obtain ⟨hcalls, hqueries⟩ := gets_through hfair
  have haccepted : (⟨printer, []⟩ : Registration).Accepted := by decide
  exact ⟨_, hcalls 1 true ⟨_, haccepted⟩ rfl, hqueries 3 surroundings [] rfl⟩

end NyanSD.Locking
