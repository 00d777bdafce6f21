import Mathlib.Logic.Relation

/-!
# State machines whose runs obey a guard

A machine moves from state to state on events, and an event that is not enabled
leads nowhere. A guard restricts the events that may be taken in a state, so that
the runs obeying a discipline can be told from all runs of the same machine.
-/

structure Machine (State Event : Type) where
  initial : State
  step : State → Event → Option State

namespace Machine

variable {State Event : Type} (m : Machine State Event)

/-- The states of the runs whose every event the guard allows when it is taken. -/
inductive Reachable (guard : State → Event → Prop) : State → Prop
  | initial : Reachable guard m.initial
  | step {s s' : State} {e : Event} : Reachable guard s → guard s e → m.step s e = some s' →
      Reachable guard s'

/-- Take the listed events in order, if the guard allows them and all are enabled. -/
def run (guard : State → Event → Prop) [∀ s e, Decidable (guard s e)] :
    State → List Event → Option State
  | s, [] => some s
  | s, e :: rest => if guard s e then (m.step s e).bind fun s' => run guard s' rest else none

variable {m}

/-- What holds initially and is kept by every allowed step holds in every state
reached. -/
theorem Reachable.invariant {guard : State → Event → Prop} {holds : State → Prop} {s : State}
    (hreach : m.Reachable guard s) (hinitial : holds m.initial)
    (hstep : ∀ s e s', holds s → guard s e → m.step s e = some s' → holds s') : holds s := by
  induction hreach with
  | initial => exact hinitial
  | step _ hguard hnext ih => exact hstep _ _ _ ih hguard hnext

/-- One allowed step. -/
def Leads (m : Machine State Event) (guard : State → Event → Prop) (s s' : State) : Prop :=
  ∃ e, guard s e ∧ m.step s e = some s'

theorem Reachable.trans {guard : State → Event → Prop} {s s' : State}
    (hreach : m.Reachable guard s) (hleads : Relation.ReflTransGen (m.Leads guard) s s') :
    m.Reachable guard s' := by
  induction hleads with
  | refl => exact hreach
  | tail _ hlast ih =>
      obtain ⟨e, hguard, hnext⟩ := hlast
      exact .step ih hguard hnext

/-- A machine each of whose steps is matched by steps of another, perhaps by none, reaches no
state that is not related to one the other reaches. -/
theorem Reachable.simulate {State' Event' : Type} {m' : Machine State' Event'}
    {guard : State → Event → Prop} {guard' : State' → Event' → Prop}
    {related : State → State' → Prop} {s : State} (hreach : m.Reachable guard s)
    (hinitial : related m.initial m'.initial)
    (hstep : ∀ s e t a, m.Reachable guard s → related s a → guard s e → m.step s e = some t →
      ∃ b, Relation.ReflTransGen (m'.Leads guard') a b ∧ related t b) :
    ∃ a, m'.Reachable guard' a ∧ related s a := by
  induction hreach with
  | initial => exact ⟨m'.initial, .initial, hinitial⟩
  | @step s t e hreach hguard hnext ih =>
      obtain ⟨a, ha, hrelated⟩ := ih
      obtain ⟨b, hleads, hb⟩ := hstep s e t a hreach hrelated hguard hnext
      exact ⟨b, ha.trans hleads, hb⟩

section Run

variable {guard : State → Event → Prop} [∀ s e, Decidable (guard s e)]

theorem run_cons {s s' : State} {e : Event} (hguard : guard s e)
    (hnext : m.step s e = some s') (rest : List Event) :
    m.run guard s (e :: rest) = m.run guard s' rest := by
  rw [Machine.run, if_pos hguard, hnext]
  rfl

/-- A run takes its first event, and then the others. -/
theorem exists_of_run_cons {s s' : State} {e : Event} {rest : List Event}
    (hrun : m.run guard s (e :: rest) = some s') :
    guard s e ∧ ∃ next, m.step s e = some next ∧ m.run guard next rest = some s' := by
  rw [Machine.run] at hrun
  split at hrun
  · rename_i hguard
    exact ⟨hguard, Option.bind_eq_some_iff.mp hrun⟩
  · cases hrun

/-- What every allowed step keeps is kept by a run from any state. -/
theorem run_invariant {holds : State → Prop}
    (hstep : ∀ s e s', holds s → guard s e → m.step s e = some s' → holds s')
    {s s' : State} {events : List Event} (hs : holds s)
    (hrun : m.run guard s events = some s') : holds s' := by
  induction events generalizing s with
  | nil =>
      obtain rfl := Option.some.inj hrun
      exact hs
  | cons e rest ih =>
      obtain ⟨hguard, next, hnext, hrest⟩ := exists_of_run_cons hrun
      exact ih (hstep s e next hs hguard hnext) hrest

/-- Where every counted event uses up one of the steps that are left and no other event uses
any, a run uses up as many as it has counted events. -/
theorem run_countP (counted : Event → Bool) (left : Nat → State → Prop)
    (hstep : ∀ n s e s', left n s → guard s e → m.step s e = some s' →
      ∃ fewer, n = fewer + (if counted e then 1 else 0) ∧ left fewer s')
    {n : Nat} {s s' : State} {events : List Event} (hs : left n s)
    (hrun : m.run guard s events = some s') :
    ∃ fewer, n = fewer + events.countP counted ∧ left fewer s' := by
  induction events generalizing n s with
  | nil =>
      obtain rfl := Option.some.inj hrun
      exact ⟨n, rfl, hs⟩
  | cons e rest ih =>
      obtain ⟨hguard, next, hnext, hrest⟩ := exists_of_run_cons hrun
      obtain ⟨fewer, hleft, hfewer⟩ := hstep n s e next hs hguard hnext
      obtain ⟨fewest, hfewest, hlater⟩ := ih hfewer hrest
      refine ⟨fewest, ?_, hlater⟩
      rw [hleft, hfewest, List.countP_cons, Nat.add_assoc]

theorem Reachable.run {s s' : State} {events : List Event} (hreach : m.Reachable guard s)
    (hrun : m.run guard s events = some s') : m.Reachable guard s' := by
  induction events generalizing s with
  | nil =>
      obtain rfl := Option.some.inj hrun
      exact hreach
  | cons e rest ih =>
      rw [Machine.run] at hrun
      split at hrun
      · rename_i hguard
        obtain ⟨next, hnext, hrest⟩ := Option.bind_eq_some_iff.mp hrun
        exact ih (.step hreach hguard hnext) hrest
      · cases hrun

theorem reachable_of_run {s : State} (events : List Event)
    (hrun : m.run guard m.initial events = some s) : m.Reachable guard s :=
  Reachable.initial.run hrun

/-- Events that change nothing where they are taken can be left out of a run. -/
theorem run_filter {keep : Event → Bool} {holds : State → Prop}
    (hstep : ∀ s e s', holds s → guard s e → m.step s e = some s' → holds s')
    (hskip : ∀ s e s', holds s → guard s e → keep e = false → m.step s e = some s' → s' = s)
    {s s' : State} {events : List Event} (hs : holds s)
    (hrun : m.run guard s events = some s') :
    m.run guard s (events.filter keep) = some s' := by
  induction events generalizing s with
  | nil => exact hrun
  | cons e rest ih =>
      rw [Machine.run] at hrun
      split at hrun
      · rename_i hguard
        obtain ⟨next, hnext, hrest⟩ := Option.bind_eq_some_iff.mp hrun
        have htail := ih (hstep s e next hs hguard hnext) hrest
        cases hkeep : keep e with
        | true =>
            rw [List.filter_cons_of_pos hkeep, run_cons hguard hnext]
            exact htail
        | false =>
            obtain rfl := hskip s e next hs hguard hkeep hnext
            rwa [List.filter_cons_of_neg (by simp [hkeep])]
      · cases hrun

end Run

end Machine
