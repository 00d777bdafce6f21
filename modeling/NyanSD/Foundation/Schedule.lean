import NyanSD.Foundation.Machine
import Mathlib.Data.Nat.Find
import Mathlib.Data.Nat.Init
import Mathlib.Tactic.ByContra

/-!
# Fair schedules

A schedule is a run without an end, in which time may also pass without an event. It is fair
to some events if they cannot stay possible for ever without one of them being taken, and
strongly fair if it is enough that they become possible again and again.
-/

namespace Machine

variable {State Event : Type}

structure Schedule (m : Machine State Event) (guard : State → Event → Prop) where
  state : Nat → State
  event : Nat → Option Event
  starts : state 0 = m.initial
  idles : ∀ n, event n = none → state (n + 1) = state n
  takes : ∀ n e, event n = some e → guard (state n) e ∧ m.step (state n) e = some (state (n + 1))

/-- One of the events can be taken. -/
def Enabled (m : Machine State Event) (guard : State → Event → Prop) (events : Event → Prop)
    (s : State) : Prop :=
  ∃ e, events e ∧ guard s e ∧ (m.step s e).isSome

variable {m : Machine State Event} {guard : State → Event → Prop}

namespace Schedule

/-- Weak fairness. -/
def FairTo (sched : m.Schedule guard) (events : Event → Prop) : Prop :=
  ∀ n, (∀ k, n ≤ k → m.Enabled guard events (sched.state k)) →
    ∃ k e, n ≤ k ∧ sched.event k = some e ∧ events e

/-- Strong fairness. -/
def StronglyFairTo (sched : m.Schedule guard) (events : Event → Prop) : Prop :=
  ∀ n, (∀ k, n ≤ k → ∃ j, k ≤ j ∧ m.Enabled guard events (sched.state j)) →
    ∃ k e, n ≤ k ∧ sched.event k = some e ∧ events e

theorem StronglyFairTo.fairTo {sched : m.Schedule guard} {events : Event → Prop}
    (hfair : sched.StronglyFairTo events) : sched.FairTo events :=
  fun n henabled => hfair n fun k hle => ⟨k, Nat.le_refl k, henabled k hle⟩

variable (sched : m.Schedule guard)

/-- What is kept by the events that are taken is kept while nothing happens, too. -/
theorem keeps {holds : State → Prop} {n k : Nat} (hle : n ≤ k) (hn : holds (sched.state n))
    (hstep : ∀ i e, n ≤ i → i < k → sched.event i = some e → holds (sched.state i) →
      guard (sched.state i) e → m.step (sched.state i) e = some (sched.state (i + 1)) →
      holds (sched.state (i + 1))) : holds (sched.state k) := by
  induction k, hle using Nat.le_induction with
  | base => exact hn
  | succ k hle ih =>
      have hk : holds (sched.state k) := ih fun i e hfrom hbefore => hstep i e hfrom (by omega)
      cases hevent : sched.event k with
      | none => rwa [sched.idles k hevent]
      | some e =>
          obtain ⟨hguard, hnext⟩ := sched.takes k e hevent
          exact hstep k e hle (Nat.lt_succ_self k) hevent hk hguard hnext

theorem invariant (holds : State → Prop)
    (hstep : ∀ s e s', holds s → guard s e → m.step s e = some s' → holds s') {n k : Nat}
    (hle : n ≤ k) (hn : holds (sched.state n)) : holds (sched.state k) :=
  sched.keeps hle hn fun _ _ _ _ _ hs hguard hnext => hstep _ _ _ hs hguard hnext

theorem reachable (n : Nat) : m.Reachable guard (sched.state n) := by
  refine sched.invariant _ (fun s e s' hs hguard hnext => .step hs hguard hnext) (Nat.zero_le n) ?_
  rw [sched.starts]
  exact .initial

/-- What only the awaited events can change lasts until the first of them. -/
theorem first_taken {awaited : Event → Prop} (holds : State → Prop)
    (hkeep : ∀ s e s', holds s → ¬ awaited e → guard s e → m.step s e = some s' → holds s')
    {n : Nat} (hn : holds (sched.state n))
    (hfair : (∀ k, n ≤ k → holds (sched.state k)) →
      ∃ k e, n ≤ k ∧ sched.event k = some e ∧ awaited e) :
    ∃ k e, n ≤ k ∧ holds (sched.state k) ∧ sched.event k = some e ∧ awaited e := by
  classical
  have htaken : ∃ k, n ≤ k ∧ ∃ e, sched.event k = some e ∧ awaited e := by
    by_contra hnever
    have hholds : ∀ k, n ≤ k → holds (sched.state k) := fun k hle =>
      sched.keeps hle hn fun i e hfrom _ hevent hs hguard hnext =>
        hkeep _ e _ hs (fun hawaited => hnever ⟨i, hfrom, e, hevent, hawaited⟩) hguard hnext
    obtain ⟨k, e, hle, hevent, hawaited⟩ := hfair hholds
    exact hnever ⟨k, hle, e, hevent, hawaited⟩
  obtain ⟨hle, e, hevent, hawaited⟩ := Nat.find_spec htaken
  refine ⟨Nat.find htaken, e, hle, ?_, hevent, hawaited⟩
  refine sched.keeps hle hn fun i e' hfrom hbefore hevent' hs hguard hnext => ?_
  exact hkeep _ e' _ hs
    (fun hawaited' => Nat.find_min htaken hbefore ⟨hfrom, e', hevent', hawaited'⟩) hguard hnext

/-- If one of the awaited events is possible all the while, one is taken. -/
theorem exists_taken {awaited : Event → Prop} (hfair : sched.FairTo awaited)
    (holds : State → Prop)
    (hkeep : ∀ s e s', holds s → ¬ awaited e → guard s e → m.step s e = some s' → holds s')
    (henabled : ∀ s, holds s → m.Enabled guard awaited s) {n : Nat}
    (hn : holds (sched.state n)) :
    ∃ k e, n ≤ k ∧ holds (sched.state k) ∧ sched.event k = some e ∧ awaited e :=
  sched.first_taken holds hkeep hn fun hholds =>
    hfair n fun k hle => henabled _ (hholds k hle)

/-- If one of the awaited events is possible wherever something holds that holds again and
again, one is taken. -/
theorem exists_taken_often {awaited : Event → Prop} (hfair : sched.StronglyFairTo awaited)
    (holds : State → Prop)
    (hkeep : ∀ s e s', holds s → ¬ awaited e → guard s e → m.step s e = some s' → holds s')
    {often : State → Prop} (hoften : ∀ k, ∃ j, k ≤ j ∧ often (sched.state j))
    (henabled : ∀ s, holds s → often s → m.Enabled guard awaited s) {n : Nat}
    (hn : holds (sched.state n)) :
    ∃ k e, n ≤ k ∧ holds (sched.state k) ∧ sched.event k = some e ∧ awaited e := by
  refine sched.first_taken holds hkeep hn fun hholds => hfair n fun k hle => ?_
  obtain ⟨j, hlater, hj⟩ := hoften k
  exact ⟨j, hlater, henabled _ (hholds j (Nat.le_trans hle hlater)) hj⟩

end Schedule

section Finite

variable [∀ s e, Decidable (guard s e)]

theorem run_append (s : State) (first second : List Event) :
    m.run guard s (first ++ second) = (m.run guard s first).bind (m.run guard · second) := by
  induction first generalizing s with
  | nil => rfl
  | cons e rest ih =>
      rw [List.cons_append, Machine.run, Machine.run]
      split
      · rw [Option.bind_assoc]
        exact congrArg _ (funext ih)
      · rfl

/-- A run after which nothing happens. -/
def Schedule.ofRun (events : List Event) (s : State)
    (hrun : m.run guard m.initial events = some s) : m.Schedule guard where
  state n := (m.run guard m.initial (events.take n)).getD s
  event n := events[n]?
  starts := rfl
  idles n hevent := by
    have hlength := List.getElem?_eq_none_iff.mp hevent
    rw [List.take_of_length_le hlength, List.take_of_length_le (Nat.le_succ_of_le hlength)]
  takes n e hevent := by
    obtain ⟨hlt, rfl⟩ := List.getElem?_eq_some_iff.mp hevent
    have hsplit : m.run guard m.initial (events.take (n + 1) ++ events.drop (n + 1)) = _ :=
      run_append m.initial (events.take (n + 1)) (events.drop (n + 1))
    rw [List.take_append_drop, hrun] at hsplit
    obtain ⟨next, hnext, -⟩ := Option.bind_eq_some_iff.mp hsplit.symm
    rw [hnext]
    rw [List.take_succ_eq_append_getElem hlt, run_append] at hnext
    obtain ⟨before, hbefore, hlast⟩ := Option.bind_eq_some_iff.mp hnext
    obtain ⟨hguard, after, hafter, hend⟩ := exists_of_run_cons hlast
    obtain rfl := Option.some.inj hend
    rw [hbefore]
    exact ⟨hguard, hafter⟩

theorem Schedule.state_ofRun {events : List Event} {s : State}
    {hrun : m.run guard m.initial events = some s} {n : Nat} (hle : events.length ≤ n) :
    (ofRun events s hrun).state n = s := by
  simp only [ofRun]
  rw [List.take_of_length_le hle, hrun, Option.getD_some]

/-- It is fair to what is not possible at its end. -/
theorem Schedule.stronglyFairTo_ofRun {events : List Event} {s : State}
    {hrun : m.run guard m.initial events = some s} {awaited : Event → Prop}
    (hquiet : ¬ m.Enabled guard awaited s) : (ofRun events s hrun).StronglyFairTo awaited := by
  intro n hoften
  obtain ⟨j, hle, henabled⟩ := hoften (max n events.length) (Nat.le_max_left _ _)
  rw [state_ofRun (Nat.le_trans (Nat.le_max_right _ _) hle)] at henabled
  exact absurd henabled hquiet

end Finite

end Machine
