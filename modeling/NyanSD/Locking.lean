import NyanSD.Network

/-!
# The lock around the services

The handler composes a response while it holds the lock of the services, one service after
another, and any number of threads call `addService` meanwhile. What comes of it is what
would come of calls and queries that are handled one at a time.
-/

namespace NyanSD.Locking

/-! ## The threads -/

/-- A call of `addService` that comes to the lock. -/
abbrev AcceptedCall := { call : Registration // call.Accepted }

/-- Where a call of `addService` is. -/
inductive CallerPhase
  | idle
  | locking (call : AcceptedCall)
  | pushing (call : AcceptedCall)
  | unlocking (call : AcceptedCall)

/-- Where the handler is with a query. -/
inductive HandlerPhase
  | idle
  | locking (found : Surroundings) (filter : Bytes)
  | looping (found : Surroundings) (filter : Bytes) (i : Nat) (body : ServicesBody)
  | sending (found : Surroundings) (body : ServicesBody)

inductive Thread (Caller : Type)
  | handler
  | caller (id : Caller)
deriving DecidableEq

/-- `returned` is bookkeeping: the calls that have returned true, in their order. -/
structure State (Caller : Type) where
  services : List NYSDService := []
  owner : Option (Thread Caller) := none
  handler : HandlerPhase := .idle
  callers : Caller → CallerPhase := fun _ => .idle
  returned : List Registration := []
  sent : List Bytes := []

inductive Event (Caller : Type)
  | call (id : Caller) (call : Registration)
  | lock (id : Caller)
  | push (id : Caller)
  | unlock (id : Caller)
  | query (found : Surroundings) (filter : Bytes)
  | handlerLock
  | pass
  | handlerUnlock
  | send

/-- The thread that goes on with what it is at. Calls and queries come from outside. -/
def Event.thread {Caller : Type} : Event Caller → Option (Thread Caller)
  | .call .. => none
  | .lock id => some (.caller id)
  | .push id => some (.caller id)
  | .unlock id => some (.caller id)
  | .query .. => none
  | .handlerLock => some .handler
  | .pass => some .handler
  | .handlerUnlock => some .handler
  | .send => some .handler

/-- One pass of the loop, in either branch. -/
def pass (server : Server) (sender : SocketAddress) (filter : Bytes) (body : ServicesBody)
    (sv : NYSDService) : ServicesBody :=
  if filter.length ≠ 0 then
    if filterMatches filter sv then appendService server sender body sv else body
  else appendService server sender body sv

section

variable (Caller : Type) [DecidableEq Caller]

/-- The loop looks at the services as they are at each pass. -/
def locking : Machine (State Caller) (Event Caller) where
  initial := {}
  step s e :=
    match e with
    | .call id call =>
        match s.callers id with
        | .idle =>
            if haccepted : call.Accepted then
              some { s with callers := Function.update s.callers id (.locking ⟨call, haccepted⟩) }
            else some s
        | _ => none
    | .lock id =>
        match s.callers id, s.owner with
        | .locking call, none => some { s with
            owner := some (.caller id)
            callers := Function.update s.callers id (.pushing call) }
        | _, _ => none
    | .push id =>
        match s.callers id with
        | .pushing call => some { s with
            services := s.services ++ [call.val.record]
            callers := Function.update s.callers id (.unlocking call) }
        | _ => none
    | .unlock id =>
        match s.callers id with
        | .unlocking call => some { s with
            owner := none
            callers := Function.update s.callers id .idle
            returned := s.returned ++ [call.val] }
        | _ => none
    | .query found filter =>
        match s.handler with
        | .idle => some { s with handler := .locking found filter }
        | _ => none
    | .handlerLock =>
        match s.handler, s.owner with
        | .locking found filter, none => some { s with
            owner := some .handler
            handler := .looping found filter 0 {} }
        | _, _ => none
    | .pass =>
        match s.handler with
        | .looping found filter i body =>
            match s.services[i]? with
            | some sv =>
                let body := pass (found.server s.services) found.sender filter body sv
                some { s with handler := .looping found filter (i + 1) body }
            | none => none
        | _ => none
    | .handlerUnlock =>
        match s.handler with
        | .looping found _ i body =>
            if i < s.services.length then none
            else some { s with owner := none, handler := .sending found body }
        | _ => none
    | .send =>
        match s.handler with
        | .sending found body => some { s with
            handler := .idle
            sent := s.sent ++ [assemble found.host body] }
        | _ => none

end

/-! ## One at a time -/

/-- Registering and answering as steps of their own. -/
structure Atomic where
  services : List NYSDService := []
  answers : List Bytes := []

inductive AtomicEvent
  | register (call : Registration)
  | answer (found : Surroundings) (filter : Bytes)

def atomic : Machine Atomic AtomicEvent where
  initial := {}
  step a e :=
    match e with
    | .register call => some { a with
        services := (addService call.hostName a.services call.service).2 }
    | .answer found filter => some { a with
        answers := a.answers ++ [respond (found.server a.services) found.sender filter] }

/-! ## What a step does -/

variable {Caller : Type} [DecidableEq Caller]

/-- One case for each way a step can go. -/
inductive State.Step (s : State Caller) : Event Caller → State Caller → Prop
  | refused {id : Caller} {call : Registration} (hidle : s.callers id = .idle)
      (hrefused : ¬ call.Accepted) : Step s (.call id call) s
  | call {id : Caller} {call : AcceptedCall} (hidle : s.callers id = .idle) :
      Step s (.call id call.val)
        { s with callers := Function.update s.callers id (.locking call) }
  | lock {id : Caller} {call : AcceptedCall} (hphase : s.callers id = .locking call)
      (hfree : s.owner = none) :
      Step s (.lock id)
        { s with owner := some (.caller id)
                 callers := Function.update s.callers id (.pushing call) }
  | push {id : Caller} {call : AcceptedCall} (hphase : s.callers id = .pushing call) :
      Step s (.push id)
        { s with services := s.services ++ [call.val.record]
                 callers := Function.update s.callers id (.unlocking call) }
  | unlock {id : Caller} {call : AcceptedCall} (hphase : s.callers id = .unlocking call) :
      Step s (.unlock id)
        { s with owner := none
                 callers := Function.update s.callers id .idle
                 returned := s.returned ++ [call.val] }
  | query {found : Surroundings} {filter : Bytes} (hidle : s.handler = .idle) :
      Step s (.query found filter) { s with handler := .locking found filter }
  | handlerLock {found : Surroundings} {filter : Bytes} (hphase : s.handler = .locking found filter)
      (hfree : s.owner = none) :
      Step s .handlerLock
        { s with owner := some .handler, handler := .looping found filter 0 {} }
  | pass {found : Surroundings} {filter : Bytes} {i : Nat} {body : ServicesBody} {sv : NYSDService}
      (hphase : s.handler = .looping found filter i body) (hsv : s.services[i]? = some sv) :
      Step s .pass
        { s with handler := .looping found filter (i + 1)
                   (pass (found.server s.services) found.sender filter body sv) }
  | handlerUnlock {found : Surroundings} {filter : Bytes} {i : Nat} {body : ServicesBody}
      (hphase : s.handler = .looping found filter i body) (hdone : s.services.length ≤ i) :
      Step s .handlerUnlock { s with owner := none, handler := .sending found body }
  | send {found : Surroundings} {body : ServicesBody} (hphase : s.handler = .sending found body) :
      Step s .send { s with handler := .idle, sent := s.sent ++ [assemble found.host body] }

theorem step_iff {s s' : State Caller} {e : Event Caller} :
    (locking Caller).step s e = some s' ↔ s.Step e s' := by
  constructor
  · intro hnext
    cases e with
    | call id call =>
        dsimp only [locking] at hnext
        split at hnext
        · rename_i hidle
          split at hnext
          · rename_i haccepted
            obtain rfl := Option.some.inj hnext
            exact @State.Step.call _ _ s id ⟨call, haccepted⟩ hidle
          · rename_i hrefused
            obtain rfl := Option.some.inj hnext
            exact .refused hidle hrefused
        · cases hnext
    | lock id =>
        dsimp only [locking] at hnext
        split at hnext
        · rename_i call hphase hfree
          obtain rfl := Option.some.inj hnext
          exact .lock hphase hfree
        · cases hnext
    | push id =>
        dsimp only [locking] at hnext
        split at hnext
        · rename_i call hphase
          obtain rfl := Option.some.inj hnext
          exact .push hphase
        · cases hnext
    | unlock id =>
        dsimp only [locking] at hnext
        split at hnext
        · rename_i call hphase
          obtain rfl := Option.some.inj hnext
          exact .unlock hphase
        · cases hnext
    | query found filter =>
        dsimp only [locking] at hnext
        split at hnext
        · rename_i hidle
          obtain rfl := Option.some.inj hnext
          exact .query hidle
        · cases hnext
    | handlerLock =>
        dsimp only [locking] at hnext
        split at hnext
        · rename_i found filter hphase hfree
          obtain rfl := Option.some.inj hnext
          exact .handlerLock hphase hfree
        · cases hnext
    | pass =>
        dsimp only [locking] at hnext
        split at hnext
        · rename_i found filter i body hphase
          split at hnext
          · rename_i sv hsv
            obtain rfl := Option.some.inj hnext
            exact .pass hphase hsv
          · cases hnext
        · cases hnext
    | handlerUnlock =>
        dsimp only [locking] at hnext
        split at hnext
        · rename_i found filter i body hphase
          split at hnext
          · cases hnext
          · rename_i hdone
            obtain rfl := Option.some.inj hnext
            exact .handlerUnlock hphase (Nat.not_lt.mp hdone)
        · cases hnext
    | send =>
        dsimp only [locking] at hnext
        split at hnext
        · rename_i found body hphase
          obtain rfl := Option.some.inj hnext
          exact .send hphase
        · cases hnext
  · intro hstep
    cases hstep with
    | refused hidle hrefused =>
        dsimp only [locking]
        simp [hidle, hrefused]
    | @call id call hidle =>
        dsimp only [locking]
        simp [hidle, call.property]
    | lock hphase hfree =>
        dsimp only [locking]
        rw [hphase, hfree]
    | push hphase =>
        dsimp only [locking]
        rw [hphase]
    | unlock hphase =>
        dsimp only [locking]
        rw [hphase]
    | query hidle =>
        dsimp only [locking]
        rw [hidle]
    | handlerLock hphase hfree =>
        dsimp only [locking]
        rw [hphase, hfree]
    | pass hphase hsv =>
        dsimp only [locking]
        rw [hphase]
        dsimp only
        rw [hsv]
    | handlerUnlock hphase hdone =>
        dsimp only [locking]
        rw [hphase]
        exact if_neg (Nat.not_lt.mpr hdone)
    | send hphase =>
        dsimp only [locking]
        rw [hphase]

/-! ## Who holds the lock -/

/-- In this phase the lock is held. -/
def CallerPhase.Holds : CallerPhase → Prop
  | .idle | .locking _ => False
  | .pushing _ | .unlocking _ => True

def HandlerPhase.Holds : HandlerPhase → Prop
  | .looping .. => True
  | _ => False

/-- The lock belongs to the one thread that is between taking and giving it back. Meanwhile
the loop has composed the response for the services it has seen, and no more than one service
is there whose call has not returned. -/
structure Invariant (s : State Caller) : Prop where
  handler : s.handler.Holds ↔ s.owner = some .handler
  callers : ∀ id, (s.callers id).Holds ↔ s.owner = some (.caller id)
  composed : ∀ {found filter i body}, s.handler = .looping found filter i body →
    i ≤ s.services.length ∧ body = (s.services.take i).foldl
      (pass (found.server s.services) found.sender filter) {}
  unreturned : ∀ {id call}, s.callers id = .unlocking call →
    s.services = s.returned.map Registration.record ++ [call.val.record]
  returned : (∀ id call, s.callers id ≠ .unlocking call) →
    s.services = s.returned.map Registration.record

theorem invariant_initial : Invariant (locking Caller).initial where
  handler := iff_of_false id nofun
  callers _ := iff_of_false id nofun
  composed := nofun
  unreturned := nofun
  returned _ := rfl

namespace Invariant

variable {s s' : State Caller}

/-- A thread that takes the lock, or gives it back, or leaves it alone, is the only one that
counts. -/
theorem callers_update {owner : Option (Thread Caller)} {phase : CallerPhase} {id : Caller}
    (hs : Invariant s) (hphase : phase.Holds ↔ owner = some (.caller id))
    (hothers : ∀ other, other ≠ id → (owner = some (.caller other) ↔
      s.owner = some (.caller other))) (other : Caller) :
    (Function.update s.callers id phase other).Holds ↔ owner = some (.caller other) := by
  by_cases hother : other = id
  · subst hother
    rw [Function.update_self]
    exact hphase
  · rw [Function.update_of_ne hother, hs.callers, hothers other hother]

omit [DecidableEq Caller] in
theorem not_looping (hs : Invariant s) (howner : s.owner ≠ some .handler)
    {found : Surroundings} {filter : Bytes} {i : Nat} {body : ServicesBody} :
    s.handler ≠ .looping found filter i body := by
  intro hphase
  apply howner
  rw [← hs.handler, hphase]
  trivial

omit [DecidableEq Caller] in
theorem owner_of_unlocking (hs : Invariant s) {id : Caller} {call : AcceptedCall}
    (hphase : s.callers id = .unlocking call) : s.owner = some (.caller id) := by
  rw [← hs.callers, hphase]
  trivial

omit [DecidableEq Caller] in
theorem owner_of_pushing (hs : Invariant s) {id : Caller} {call : AcceptedCall}
    (hphase : s.callers id = .pushing call) : s.owner = some (.caller id) := by
  rw [← hs.callers, hphase]
  trivial

/-- Where a thread is in front of its push makes no difference to what is there. -/
theorem unlocking_update {id : Caller} {phase : CallerPhase}
    (hbefore : ∀ call, s.callers id ≠ .unlocking call) (hafter : ∀ call, phase ≠ .unlocking call)
    (other : Caller) (call : AcceptedCall) :
    Function.update s.callers id phase other = .unlocking call ↔
      s.callers other = .unlocking call := by
  by_cases hother : other = id
  · subst hother
    rw [Function.update_self]
    exact iff_of_false (hafter call) (hbefore call)
  · rw [Function.update_of_ne hother]

/-- A thread that moves on in front of its push changes the lock at most. -/
theorem moves {owner : Option (Thread Caller)} {phase : CallerPhase} {id : Caller}
    (hs : Invariant s) (hbefore : ∀ call, s.callers id ≠ .unlocking call)
    (hafter : ∀ call, phase ≠ .unlocking call)
    (hhandler : s.handler.Holds ↔ owner = some .handler)
    (hphase : phase.Holds ↔ owner = some (.caller id))
    (hothers : ∀ other, other ≠ id → (owner = some (.caller other) ↔
      s.owner = some (.caller other))) :
    Invariant { s with owner := owner, callers := Function.update s.callers id phase } := by
  have hsame := @unlocking_update _ _ s id phase hbefore hafter
  refine ⟨hhandler, hs.callers_update hphase hothers, hs.composed, ?_, ?_⟩
  · intro other before hother
    exact hs.unreturned ((hsame other before).mp hother)
  · intro hnone
    apply hs.returned
    intro other before hother
    exact hnone other before ((hsame other before).mpr hother)

theorem call (hs : Invariant s) {id : Caller} (hidle : s.callers id = .idle) (call : AcceptedCall) :
    Invariant { s with callers := Function.update s.callers id (.locking call) } := by
  apply hs.moves
  · simp [hidle]
  · simp
  · exact hs.handler
  · rw [← hs.callers, hidle]
    exact Iff.rfl
  · exact fun _ _ => Iff.rfl

theorem lock (hs : Invariant s) {id : Caller} {call : AcceptedCall}
    (hphase : s.callers id = .locking call) (hfree : s.owner = none) :
    Invariant { s with owner := some (.caller id)
                       callers := Function.update s.callers id (.pushing call) } := by
  apply hs.moves
  · simp [hphase]
  · simp
  · rw [hs.handler, hfree]
    simp
  · simp [CallerPhase.Holds]
  · intro other hother
    simp [hfree, Ne.symm hother]

theorem push (hs : Invariant s) {id : Caller} {call : AcceptedCall}
    (hphase : s.callers id = .pushing call) :
    Invariant { s with services := s.services ++ [call.val.record]
                       callers := Function.update s.callers id (.unlocking call) } := by
  have howner := hs.owner_of_pushing hphase
  -- the thread that holds the lock is the only one whose service could be there
  have hothers : ∀ other before, s.callers other ≠ .unlocking before := by
    intro other before hother
    have hsame := howner.symm.trans (hs.owner_of_unlocking hother)
    simp only [Option.some.injEq, Thread.caller.injEq] at hsame
    subst hsame
    rw [hphase] at hother
    cases hother
  have hservices := hs.returned hothers
  refine ⟨hs.handler, ?_, ?_, ?_, ?_⟩
  · apply hs.callers_update
    · simp [howner, CallerPhase.Holds]
    · exact fun _ _ => Iff.rfl
  · -- the handler cannot be in its loop while another thread holds the lock
    intro found filter i body hlooping
    exact absurd hlooping (hs.not_looping (by simp [howner]))
  · intro other before hother
    by_cases hid : other = id
    · subst hid
      dsimp only at hother
      rw [Function.update_self] at hother
      obtain rfl := CallerPhase.unlocking.inj hother
      exact congrArg (· ++ [call.val.record]) hservices
    · dsimp only at hother
      rw [Function.update_of_ne hid] at hother
      exact absurd hother (hothers other before)
  · intro hnone
    exact absurd (Function.update_self ..) (hnone id call)

theorem unlock (hs : Invariant s) {id : Caller} {call : AcceptedCall}
    (hphase : s.callers id = .unlocking call) :
    Invariant { s with owner := none
                       callers := Function.update s.callers id .idle
                       returned := s.returned ++ [call.val] } := by
  have howner := hs.owner_of_unlocking hphase
  refine ⟨?_, ?_, ?_, ?_, ?_⟩
  · rw [hs.handler, howner]
    simp
  · apply hs.callers_update
    · simp [CallerPhase.Holds]
    · intro other hother
      simp [howner, Ne.symm hother]
  · intro found filter i body hlooping
    exact absurd hlooping (hs.not_looping (by simp [howner]))
  · intro other before hother
    by_cases hid : other = id
    · subst hid
      dsimp only at hother
      rw [Function.update_self] at hother
      cases hother
    · dsimp only at hother
      rw [Function.update_of_ne hid] at hother
      have hsame := howner.symm.trans (hs.owner_of_unlocking hother)
      simp only [Option.some.injEq, Thread.caller.injEq] at hsame
      exact absurd hsame.symm hid
  · intro _
    rw [List.map_append]
    exact hs.unreturned hphase

theorem step (hs : Invariant s) {e : Event Caller} (hstep : s.Step e s') : Invariant s' := by
  cases hstep with
  | refused => exact hs
  | call hidle => exact hs.call hidle _
  | lock hphase hfree => exact hs.lock hphase hfree
  | push hphase => exact hs.push hphase
  | unlock hphase => exact hs.unlock hphase
  | query hidle =>
      have howner := hs.handler
      rw [hidle] at howner
      exact ⟨howner, hs.callers, nofun, hs.unreturned, hs.returned⟩
  | handlerLock hphase hfree =>
      refine ⟨by simp [HandlerPhase.Holds], ?_, ?_, hs.unreturned, hs.returned⟩
      · intro id
        rw [hs.callers, hfree]
        simp
      · intro found filter i body hlooping
        cases hlooping
        exact ⟨Nat.zero_le _, rfl⟩
  | pass hphase hsv =>
      obtain ⟨-, hbody⟩ := hs.composed hphase
      have howner := hs.handler
      rw [hphase] at howner
      refine ⟨howner, hs.callers, ?_, hs.unreturned, hs.returned⟩
      intro found filter i body hlooping
      cases hlooping
      refine ⟨(List.getElem?_eq_some_iff.mp hsv).1, ?_⟩
      rw [List.take_add_one, hsv, Option.toList_some, List.foldl_concat, hbody]
  | handlerUnlock hphase hdone =>
      have howner := hs.handler
      rw [hphase] at howner
      refine ⟨by simp [HandlerPhase.Holds], ?_, nofun, hs.unreturned, hs.returned⟩
      intro id
      rw [hs.callers, howner.mp trivial]
      simp
  | send hphase =>
      have howner := hs.handler
      rw [hphase] at howner
      exact ⟨howner, hs.callers, nofun, hs.unreturned, hs.returned⟩

end Invariant

/-! ## One at a time, again -/

/-- The loop is a fold over the services, in either branch. -/
theorem servicesBody_eq (server : Server) (sender : SocketAddress) (filter : Bytes) :
    servicesBody server sender filter = server.services.foldl (pass server sender filter) {} := by
  have hfiltered : ∀ (services : List NYSDService) (body : ServicesBody), filter.length ≠ 0 →
      filteredBody server sender filter services body =
        services.foldl (pass server sender filter) body := by
    intro services body hlength
    induction services generalizing body with
    | nil => rfl
    | cons sv rest ih =>
        rw [filteredBody, List.foldl_cons, ih, ih, pass, if_pos hlength]
        split
        · rfl
        · rfl
  have hwildcard : ∀ (services : List NYSDService) (body : ServicesBody), ¬ filter.length ≠ 0 →
      wildcardBody server sender services body =
        services.foldl (pass server sender filter) body := by
    intro services body hlength
    induction services generalizing body with
    | nil => rfl
    | cons sv rest ih => rw [wildcardBody, List.foldl_cons, ih, pass, if_neg hlength]
  rw [servicesBody]
  split
  · rename_i hlength
    exact hfiltered server.services {} hlength
  · rename_i hlength
    exact hwildcard server.services {} hlength

/-- The response that is composed but not yet sent. -/
def HandlerPhase.pending : HandlerPhase → List Bytes
  | .sending found body => [assemble found.host body]
  | _ => []

omit [DecidableEq Caller] in
/-- The services have not changed since the loop began, so what it leaves has passed what is
there when it is done. -/
theorem Invariant.assemble_of_done {s : State Caller} (hs : Invariant s) {found : Surroundings}
    {filter : Bytes} {i : Nat} {body : ServicesBody}
    (hphase : s.handler = .looping found filter i body) (hdone : s.services.length ≤ i) :
    respond (found.server s.services) found.sender filter = assemble found.host body := by
  obtain ⟨-, hbody⟩ := hs.composed hphase
  rw [List.take_of_length_le hdone] at hbody
  rw [respond, servicesBody_eq, hbody]
  rfl

/-- What is registered and answered so far. -/
structure Related (s : State Caller) (a : Atomic) : Prop where
  services : a.services = s.services
  answers : a.answers = s.sent ++ s.handler.pending

/-- A call takes effect when it pushes, a query when its loop is done. -/
theorem Related.step {s s' : State Caller} {a : Atomic} {e : Event Caller} (hs : Invariant s)
    (hrelated : Related s a) (hstep : s.Step e s') :
    ∃ b, Relation.ReflTransGen (atomic.Leads fun _ _ => True) a b ∧ Related s' b := by
  obtain ⟨hservices, hanswers⟩ := hrelated
  cases hstep with
  | refused => exact ⟨a, .refl, hservices, hanswers⟩
  | call hidle => exact ⟨a, .refl, hservices, hanswers⟩
  | lock hphase hfree => exact ⟨a, .refl, hservices, hanswers⟩
  | @push id call hphase =>
      refine ⟨_, .single ⟨.register call.val, trivial, rfl⟩, ?_, hanswers⟩
      rw [addService_eq, if_pos call.property, hservices]
  | unlock hphase => exact ⟨a, .refl, hservices, hanswers⟩
  | query hidle =>
      rw [hidle] at hanswers
      exact ⟨a, .refl, hservices, hanswers⟩
  | handlerLock hphase hfree =>
      rw [hphase] at hanswers
      exact ⟨a, .refl, hservices, hanswers⟩
  | pass hphase hsv =>
      rw [hphase] at hanswers
      exact ⟨a, .refl, hservices, hanswers⟩
  | @handlerUnlock found filter i body hphase hdone =>
      have hcomposed := hs.assemble_of_done hphase hdone
      rw [← hservices] at hcomposed
      refine ⟨_, .single ⟨.answer found filter, trivial, rfl⟩, hservices, ?_⟩
      have hnone : s.handler.pending = [] := by rw [hphase]; rfl
      rw [hnone, List.append_nil] at hanswers
      dsimp only
      rw [hanswers, hcomposed]
      rfl
  | send hphase =>
      rw [hphase] at hanswers
      exact ⟨a, .refl, hservices, by rw [hanswers]; simp [HandlerPhase.pending]⟩

theorem reachable_invariant {s : State Caller}
    (hreach : (locking Caller).Reachable (fun _ _ => True) s) : Invariant s :=
  hreach.invariant invariant_initial fun _ _ _ hs _ hnext => hs.step (step_iff.mp hnext)

/-- Whatever the order of the steps of all threads, the services and the responses are those
of calls and queries that are handled one at a time. No call is lost or counted twice: the
services are those of the calls that have returned, in their order, and of at most one that
is about to. -/
theorem one_at_a_time {s : State Caller}
    (hreach : (locking Caller).Reachable (fun _ _ => True) s) :
    (∃ a, atomic.Reachable (fun _ _ => True) a ∧ a.services = s.services ∧
      a.answers = s.sent ++ s.handler.pending) ∧
    (s.services = s.returned.map Registration.record ∨
      ∃ id call, s.callers id = .unlocking call ∧
        s.services = s.returned.map Registration.record ++ [call.val.record]) := by
  constructor
  · obtain ⟨a, ha, hrelated⟩ := @Machine.Reachable.simulate _ _ _ _ _ atomic _ (fun _ _ => True)
      Related s hreach ⟨rfl, rfl⟩ fun s e t a hreach hrelated _ hnext =>
        hrelated.step (reachable_invariant hreach) (step_iff.mp hnext)
    exact ⟨a, ha, hrelated.services, hrelated.answers⟩
  · have hs := reachable_invariant hreach
    by_cases hnone : ∀ id call, s.callers id ≠ .unlocking call
    · exact .inl (hs.returned hnone)
    · simp only [not_forall, not_not] at hnone
      obtain ⟨id, call, hphase⟩ := hnone
      exact .inr ⟨id, call, hphase, hs.unreturned hphase⟩

/-- A service is registered while a query waits, and another one while it is answered. -/
def crossed : List (Event Bool) :=
  [.call true ⟨printer, []⟩, .lock true, .query surroundings [], .call false ⟨printer, []⟩,
    .push true, .unlock true, .handlerLock, .pass, .handlerUnlock, .lock false, .push false, .send]

theorem one_at_a_time_crossed :
    ∃ s a, (locking Bool).run (fun _ _ => True) {} crossed = some s ∧
      s.services = [printer, printer] ∧ s.sent = [Wire.response [printer]] ∧
      atomic.Reachable (fun _ _ => True) a ∧ a.services = s.services ∧ a.answers = s.sent := by
  have hruns : ((locking Bool).run (fun _ _ => True) {} crossed).map
      (fun s => (s.services, s.sent, s.handler.pending)) =
        some ([printer, printer], [Wire.response [printer]], []) := by
    decide
  obtain ⟨s, hrun, hs⟩ := Option.map_eq_some_iff.mp hruns
  simp only [Prod.mk.injEq] at hs
  obtain ⟨hservices, hsent, hpending⟩ := hs
  obtain ⟨⟨a, ha, hsame, hanswers⟩, -⟩ := one_at_a_time (Machine.reachable_of_run crossed hrun)
  rw [hpending, List.append_nil] at hanswers
  exact ⟨s, a, hrun, hservices, hsent, ha, hsame, hanswers⟩

/-! ## The lock is given back -/

/-- The thread has a call or a query that is not through. -/
def State.Busy (s : State Caller) : Thread Caller → Prop
  | .handler => s.handler ≠ .idle
  | .caller id => s.callers id ≠ .idle

/-- How many steps the thread that holds the lock has left until it gives it back. -/
def State.remaining (s : State Caller) : Nat :=
  match s.owner with
  | none => 0
  | some .handler =>
      match s.handler with
      | .looping _ _ i _ => s.services.length - i + 1
      | _ => 0
  | some (.caller id) =>
      match s.callers id with
      | .pushing _ => 2
      | .unlocking _ => 1
      | _ => 0

theorem exists_step_of_looping {s : State Caller} {found : Surroundings} {filter : Bytes} {i : Nat}
    {body : ServicesBody} (hphase : s.handler = .looping found filter i body) :
    ∃ e s', e.thread = some .handler ∧ s.Step e s' := by
  by_cases hmore : i < s.services.length
  · exact ⟨.pass, _, rfl, .pass hphase (List.getElem?_eq_getElem hmore)⟩
  · exact ⟨.handlerUnlock, _, rfl, .handlerUnlock hphase (Nat.not_lt.mp hmore)⟩

/-- The thread that holds the lock can go on. -/
theorem owner_goes_on {s : State Caller} (hs : Invariant s) {thread : Thread Caller}
    (howner : s.owner = some thread) : ∃ e s', e.thread = some thread ∧ s.Step e s' := by
  cases thread with
  | handler =>
      have hholds := hs.handler.mpr howner
      cases hphase : s.handler with
      | looping found filter i body => exact exists_step_of_looping hphase
      | _ =>
          rw [hphase] at hholds
          exact hholds.elim
  | caller id =>
      have hholds := (hs.callers id).mpr howner
      cases hphase : s.callers id with
      | pushing call => exact ⟨.push id, _, rfl, .push hphase⟩
      | unlocking call => exact ⟨.unlock id, _, rfl, .unlock hphase⟩
      | _ =>
          rw [hphase] at hholds
          exact hholds.elim

/-- Where nobody holds the lock, every thread that is at something can go on. -/
theorem busy_goes_on {s : State Caller} (hs : Invariant s) (hfree : s.owner = none)
    {thread : Thread Caller} (hbusy : s.Busy thread) :
    ∃ e s', e.thread = some thread ∧ s.Step e s' := by
  cases thread with
  | handler =>
      cases hphase : s.handler with
      | idle => exact absurd hphase hbusy
      | locking found filter => exact ⟨.handlerLock, _, rfl, .handlerLock hphase hfree⟩
      | looping found filter i body =>
          exact absurd hphase (hs.not_looping (by simp [hfree]))
      | sending found body => exact ⟨.send, _, rfl, .send hphase⟩
  | caller id =>
      cases hphase : s.callers id with
      | idle => exact absurd hphase hbusy
      | locking call => exact ⟨.lock id, _, rfl, .lock hphase hfree⟩
      | pushing call =>
          rw [hs.owner_of_pushing hphase] at hfree
          cases hfree
      | unlocking call =>
          rw [hs.owner_of_unlocking hphase] at hfree
          cases hfree

/-- Whatever the thread that holds the lock does brings it closer to giving it back. -/
theorem remaining_lt {s s' : State Caller} {e : Event Caller} {thread : Thread Caller}
    (hs : Invariant s) (howner : s.owner = some thread) (hthread : e.thread = some thread)
    (hstep : s.Step e s') : s'.remaining < s.remaining := by
  cases hstep with
  | refused => cases hthread
  | call => cases hthread
  | lock _ hfree => cases hfree.symm.trans howner
  | push hphase => simp [State.remaining, hs.owner_of_pushing hphase, hphase]
  | unlock hphase => simp [State.remaining, hs.owner_of_unlocking hphase, hphase]
  | query => cases hthread
  | handlerLock _ hfree => cases hfree.symm.trans howner
  | pass hphase hsv =>
      have hhandler := hs.handler.mp (by rw [hphase]; trivial)
      have hmore := (List.getElem?_eq_some_iff.mp hsv).1
      simp only [State.remaining, hhandler, hphase]
      omega
  | handlerUnlock hphase =>
      have hhandler := hs.handler.mp (by rw [hphase]; trivial)
      simp only [State.remaining, hhandler, hphase]
      omega
  | send hphase =>
      -- a response is sent when the lock has been given back
      have hholds := hs.handler.mpr (howner.trans hthread.symm)
      rw [hphase] at hholds
      exact hholds.elim

omit [DecidableEq Caller] in
/-- Where the handler is makes no difference when another thread holds the lock. -/
theorem Invariant.remaining_handler {s : State Caller} (hs : Invariant s) (howner : s.owner ≠ none)
    (hother : ¬ s.handler.Holds) (phase : HandlerPhase) (sent : List Bytes) :
    State.remaining { s with handler := phase, sent := sent } = s.remaining := by
  cases hthread : s.owner with
  | none => exact absurd hthread howner
  | some thread =>
      cases thread with
      | handler => exact absurd (hs.handler.mpr hthread) hother
      | caller id => simp [State.remaining, hthread]

/-- Nothing that another thread does keeps the lock any longer. -/
theorem remaining_le {s s' : State Caller} {e : Event Caller} (hs : Invariant s)
    (howner : s.owner ≠ none) (hstep : s.Step e s') : s'.remaining ≤ s.remaining := by
  cases hstep with
  | refused => exact le_refl _
  | @call id call hidle =>
      cases hthread : s.owner with
      | none => exact absurd hthread howner
      | some thread =>
          cases thread with
          | handler => simp [State.remaining, hthread]
          | caller other =>
              have hne : other ≠ id := by
                rintro rfl
                have hholds := (hs.callers other).mpr hthread
                rw [hidle] at hholds
                exact hholds
              simp [State.remaining, hthread, Function.update_of_ne hne]
  | lock _ hfree => exact absurd hfree howner
  | push hphase => exact (remaining_lt hs (hs.owner_of_pushing hphase) rfl (.push hphase)).le
  | unlock hphase => exact Nat.zero_le _
  | query hidle => exact (hs.remaining_handler howner (by rw [hidle]; exact id) _ s.sent).le
  | handlerLock _ hfree => exact absurd hfree howner
  | pass hphase hsv =>
      have hthread := hs.handler.mp (by rw [hphase]; trivial)
      exact (remaining_lt hs hthread rfl (.pass hphase hsv)).le
  | handlerUnlock hphase hdone => exact Nat.zero_le _
  | send hphase => exact (hs.remaining_handler howner (by rw [hphase]; exact id) _ _).le

/-- The thread that holds the lock can go on, every step of its own brings it closer to giving
the lock back, and no step of another thread takes that back. So the lock becomes free, and
then every thread that is at something can go on: no order of steps ends in a deadlock. -/
theorem no_deadlock {s : State Caller} (hreach : (locking Caller).Reachable (fun _ _ => True) s) :
    (∀ thread, s.owner = some thread →
      (∃ e s', e.thread = some thread ∧ (locking Caller).step s e = some s') ∧
      ∀ e s', (locking Caller).step s e = some s' → s'.remaining ≤ s.remaining ∧
        (e.thread = some thread → s'.remaining < s.remaining)) ∧
    (s.owner = none → ∀ thread, s.Busy thread →
      ∃ e s', e.thread = some thread ∧ (locking Caller).step s e = some s') := by
  have hs := reachable_invariant hreach
  simp only [step_iff]
  constructor
  · intro thread howner
    refine ⟨owner_goes_on hs howner, ?_⟩
    intro e s' hstep
    have hheld : s.owner ≠ none := howner ▸ Option.some_ne_none thread
    exact ⟨remaining_le hs hheld hstep, fun hthread => remaining_lt hs howner hthread hstep⟩
  · intro hfree thread hbusy
    exact busy_goes_on hs hfree hbusy

/-- In the end a caller holds the lock. In between nobody does, and both the handler and this
caller are waiting for it. -/
theorem no_deadlock_crossed :
    (∃ s, (locking Bool).run (fun _ _ => True) {} crossed = some s ∧
      ∃ e s', e.thread = some (.caller false) ∧ (locking Bool).step s e = some s' ∧
        s'.remaining < s.remaining) ∧
    ∃ s, (locking Bool).run (fun _ _ => True) {} (crossed.take 6) = some s ∧
      (∃ e s', e.thread = some .handler ∧ (locking Bool).step s e = some s') ∧
      ∃ e s', e.thread = some (.caller false) ∧ (locking Bool).step s e = some s' := by
  constructor
  · have hruns : ((locking Bool).run (fun _ _ => True) {} crossed).map (fun s => s.owner) =
        some (some (.caller false)) := by
      decide
    obtain ⟨s, hrun, howner⟩ := Option.map_eq_some_iff.mp hruns
    obtain ⟨⟨e, s', hthread, hnext⟩, hall⟩ :=
      (no_deadlock (Machine.reachable_of_run crossed hrun)).1 _ howner
    exact ⟨s, hrun, e, s', hthread, hnext, (hall e s' hnext).2 hthread⟩
  · refine ⟨_, rfl, ?_, ?_⟩
    · have hfree := (no_deadlock (Machine.reachable_of_run (crossed.take 6) rfl)).2 rfl
      exact hfree .handler nofun
    · have hfree := (no_deadlock (Machine.reachable_of_run (crossed.take 6) rfl)).2 rfl
      exact hfree (.caller false) nofun

end NyanSD.Locking
