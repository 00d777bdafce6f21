import NyanSD.ReceiveQueue

/-!
# Queries that fail on the Arduino

`sendQuery` writes the port before it looks at the number of queries, and empties the
response list before it knows whether the message could be sent. A call that fails
leaves the client as it was only where these writes change nothing.
-/

namespace NyanSD.Arduino

variable {c : Client} {port : UInt16} {queries : List Query} {qnum : UInt8} {sent : Bool}

/-- What a call has left alone: the response list, the counters and the port. -/
structure Unchanged (c c' : Client) : Prop where
  response : c'.response = c.response
  last : c'.last = c.last
  count : c'.count = c.count
  received : c'.received = c.received
  port : c'.port = c.port

/-- The port is the one of the query before, and there is no list to lose if the call gets
as far as sending. -/
def Harmless (c : Client) (port : UInt16) (qnum : UInt8) : Prop :=
  port = c.port ∧ (qnum = 0 ∨ c.response = none ∧ c.count = 0)

instance (c : Client) (port : UInt16) (qnum : UInt8) : Decidable (Harmless c port qnum) :=
  inferInstanceAs (Decidable (_ ∧ _))

/-- A call changes nothing exactly when it is harmless: whether it fails makes no
difference to what it writes. -/
theorem unchanged_sendQuery_iff :
    Unchanged c (sendQuery c port queries qnum sent).client ↔ Harmless c port qnum := by
  by_cases hqnum : qnum = 0
  · subst hqnum
    rw [sendQuery_zero, Harmless, and_iff_left (.inl rfl)]
    exact ⟨Unchanged.port, fun hport => ⟨rfl, rfl, rfl, rfl, hport⟩⟩
  · rw [sendQuery_of_ne_zero c port queries sent hqnum, Harmless, or_iff_right hqnum]
    constructor
    · intro hunchanged
      exact ⟨hunchanged.port, hunchanged.response.symm, hunchanged.count.symm⟩
    · rintro ⟨hport, hresponse, hcount⟩
      exact ⟨hresponse.symm, rfl, hcount.symm, rfl, hport⟩

/-- A harmless call leaves the client as it was. -/
theorem client_sendQuery_of_harmless (hharmless : Harmless c port qnum) :
    (sendQuery c port queries qnum sent).client = c := by
  obtain ⟨rfl, hlist⟩ := hharmless
  by_cases hqnum : qnum = 0
  · rw [hqnum, sendQuery_zero]
  · obtain ⟨hresponse, hcount⟩ := hlist.resolve_left hqnum
    rw [sendQuery_of_ne_zero c c.port queries sent hqnum, ← hresponse, ← hcount]

/-! ## Runs -/

/-- A query that returns a code other than zero. -/
def Call.fails : Call → Bool
  | .receive .. => false
  | .sendQuery _ _ qnum sent => qnum = 0 || !sent
  | .getResponses => false

/-- A query is sent for another port or with a list to lose only if it succeeds. -/
def FailsHarmlessly (s : Session) : Call → Prop
  | .receive .. => True
  | .sendQuery port _ qnum sent => qnum = 0 ∨ sent = false → Harmless s.client port qnum
  | .getResponses => True

instance (s : Session) (e : Call) : Decidable (FailsHarmlessly s e) :=
  match e with
  | .receive .. => inferInstanceAs (Decidable True)
  | .sendQuery port _ qnum sent =>
      inferInstanceAs (Decidable (qnum = 0 ∨ sent = false → Harmless s.client port qnum))
  | .getResponses => inferInstanceAs (Decidable True)

/-- Without a list there is nothing that waits to be read. -/
def Drained (s : Session) : Prop :=
  s.client.response = none → s.pending = []

/-- A datagram that is taken is in the list afterwards. -/
theorem response_udpReceiveCallback {address : Address} {datagram : Bytes}
    {before : Nat → UInt8} {c' : Client}
    (hreceived : udpReceiveCallback c address datagram before c.port = .ok c') :
    c'.response ≠ none := by
  rw [udpReceiveCallback, if_neg (not_not.mpr rfl)] at hreceived
  cases hresponse : c.response with
  | none =>
      rw [hresponse] at hreceived
      cases hreceived
      exact Option.some_ne_none address
  | some head =>
      rw [hresponse] at hreceived
      simp only [bind, Except.bind] at hreceived
      split at hreceived
      · cases hreceived
      · cases hreceived
        exact Option.some_ne_none head

/-- Reading never clears the head: behind the last node it goes on pointing there. -/
theorem response_readNodes {remaining completed : Nat} {services : List NYSDService}
    {r : NodesRead} (hread : readNodes remaining c completed services = .ok r)
    (hnone : r.client.response = none) : c.response = none := by
  induction remaining generalizing c completed services with
  | zero =>
      cases hread
      exact hnone
  | succ remaining ih =>
      by_contra hsome
      obtain ⟨address, hresponse⟩ := Option.ne_none_iff_exists'.mp hsome
      rw [readNodes] at hread
      simp only [bind, Except.bind] at hread
      split at hread
      · cases hread
      split at hread
      · cases hread
        exact hsome hnone
      · have hmoved := ih hread
        split at hmoved
        next hnext => exact Option.isSome_iff_ne_none.mp hnext hmoved
        next => exact hsome hmoved

theorem response_getResponses {r : ResponsesRead} (hread : getResponses c = .ok r)
    (hnone : r.client.response = none) : c.response = none := by
  unfold getResponses at hread
  split at hread
  · cases hread
    exact hnone
  · simp only [bind, Except.bind] at hread
    split at hread
    · cases hread
    next read hnodes =>
      apply response_readNodes hnodes
      cases hcode : read.code with
      | none =>
          rw [hcode] at hread
          cases hread
          exact hnone
      | some code =>
          rw [hcode] at hread
          cases hread
          exact hnone

theorem Drained.step {s s' : Session} {e : Call} (hs : Drained s)
    (hnext : session.step s e = some s') : Drained s' := by
  obtain ⟨-, hstep⟩ := step_of_session hnext
  intro hnone
  cases hstep with
  | receiveFault => exact hs hnone
  | @receive address datagram before remotePort client hfresh hreceived =>
      by_cases hport : remotePort = s.client.port
      · subst hport
        exact absurd hnone (response_udpReceiveCallback hreceived)
      · rw [udpReceiveCallback_other hport] at hreceived
        cases hreceived
        exact (if_neg hport).trans (hs hnone)
  | @sendQuery port queries qnum sent =>
      by_cases hqnum : qnum = 0
      · subst hqnum
        rw [sendQuery_zero] at hnone ⊢
        exact hs hnone
      · rw [sendQuery_of_ne_zero _ _ _ _ hqnum]
        rfl
  | readFault => exact hs hnone
  | read hread => exact (congrArg _ (hs (response_getResponses hread hnone))).trans List.drop_nil

/-- A call that fails harmlessly leaves the whole session as it was. -/
theorem step_of_harmless {s s' : Session} {e : Call} (hs : Drained s)
    (hguard : FailsHarmlessly s e) (hfails : e.fails = true)
    (hnext : session.step s e = some s') : s' = s := by
  obtain ⟨-, hstep⟩ := step_of_session hnext
  cases hstep with
  | receiveFault => cases hfails
  | receive => cases hfails
  | readFault => cases hfails
  | read => cases hfails
  | @sendQuery port queries qnum sent =>
      have hharmless : Harmless s.client port qnum := hguard (by simpa [Call.fails] using hfails)
      have hclient : (Arduino.sendQuery s.client port queries qnum sent).client = s.client :=
        client_sendQuery_of_harmless hharmless
      by_cases hqnum : qnum = 0
      · subst hqnum
        rw [hclient, sendQuery_zero]
        rfl
      · have hempty := hs (hharmless.2.resolve_left hqnum).1
        rw [hclient, sendQuery_of_ne_zero _ _ _ _ hqnum, ← hempty]
        rfl

/-- Exactly the harmless ones among the calls that fail change nothing; and a run in which
every call that fails is harmless ends as it would without these calls. -/
theorem failed_sendQuery (c : Client) (port : UInt16) (queries : List Query) (qnum : UInt8)
    (sent : Bool) (events : List Call) (s : Session) :
    ((sendQuery c port queries qnum sent).code ≠ 0 →
      (Unchanged c (sendQuery c port queries qnum sent).client ↔ Harmless c port qnum)) ∧
    (session.run FailsHarmlessly {} events = some s →
      session.run FailsHarmlessly {} (events.filter fun e => !e.fails) = some s) := by
  refine ⟨fun _ => unchanged_sendQuery_iff, ?_⟩
  intro hrun
  have hdrained : ∀ s e s', Drained s → FailsHarmlessly s e → session.step s e = some s' →
      Drained s' :=
    fun s e s' hs _ hnext => hs.step hnext
  have hskip : ∀ s e s', Drained s → FailsHarmlessly s e → (!e.fails) = false →
      session.step s e = some s' → s' = s := by
    intro s e s' hs hguard hkeep hnext
    exact step_of_harmless hs hguard (by simpa using hkeep) hnext
  exact Machine.run_filter hdrained hskip (fun _ => rfl) hrun

/-- A query that is not sent, and one with no query in it, in front of one that is. -/
def failedFirst : List Call :=
  [.sendQuery 0 [anyService] 1 false, .sendQuery 0 [] 0 true, .sendQuery 4004 [anyService] 1 true,
    .receive 1 (Wire.response [{}]) (fun _ => 0) 4004, .sendQuery 4004 [] 0 true]

theorem failed_sendQuery_failedFirst :
    Unchanged {} (sendQuery {} 0 [] 0 true).client ∧
    ∃ s, session.run FailsHarmlessly {} failedFirst = some s ∧
      session.run FailsHarmlessly {} [.sendQuery 4004 [anyService] 1 true,
        .receive 1 (Wire.response [{}]) (fun _ => 0) 4004] = some s := by
  have hruns : (session.run FailsHarmlessly {} failedFirst).isSome := by decide
  obtain ⟨s, hrun⟩ := Option.isSome_iff_exists.mp hruns
  obtain ⟨hcall, hfiltered⟩ := failed_sendQuery {} 0 [] 0 true failedFirst s
  exact ⟨(hcall (by decide)).mpr (by decide), s, hrun, hfiltered hrun⟩

/-- A send that fails empties the list of a datagram that was queued, and a call without a
query turns the answers to the query before away. -/
theorem failed_sendQuery_loses :
    ∃ s, session.run (fun _ _ => True) {} [.sendQuery 4004 [anyService] 1 true,
        .receive 1 (Wire.response [{}]) (fun _ => 0) 4004] = some s ∧
      (sendQuery s.client 4004 [anyService] 1 false).code = 4 ∧
      ¬ Unchanged s.client (sendQuery s.client 4004 [anyService] 1 false).client ∧
      (sendQuery s.client 4005 [] 0 true).code = 2 ∧
      ¬ Unchanged s.client (sendQuery s.client 4005 [] 0 true).client := by
  have hruns : (session.run (fun _ _ => True) {} [.sendQuery 4004 [anyService] 1 true,
      .receive 1 (Wire.response [{}]) (fun _ => 0) 4004]).map
        (fun s => (s.client.count, s.client.port)) = some (1, 4004) := by
    decide
  obtain ⟨s, hrun, hs⟩ := Option.map_eq_some_iff.mp hruns
  obtain ⟨hcount, hport⟩ := Prod.mk.inj hs
  have hone : (1 : UInt8) ≠ 0 := by decide
  refine ⟨s, hrun, ?_, ?_, ?_, ?_⟩
  · rw [sendQuery_of_ne_zero s.client 4004 [anyService] false hone]
    rfl
  · intro hunchanged
    have hkept := hunchanged.count
    rw [sendQuery_of_ne_zero s.client 4004 [anyService] false hone, hcount] at hkept
    exact Nat.zero_ne_one hkept
  · rw [sendQuery_zero]
  · intro hunchanged
    have hkept := hunchanged.port
    rw [sendQuery_zero, hport] at hkept
    exact absurd hkept (by decide : (4005 : UInt16) ≠ 4004)

end NyanSD.Arduino
