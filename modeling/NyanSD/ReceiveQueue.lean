import NyanSD.ArduinoClient
import NyanSD.Foundation.Machine
import NyanSD.Parsing

/-!
# The receive queue of the Arduino client

Five static variables describe one list of received datagrams. Receiving keeps
them consistent. A query resets the head and the count but not the flag, and
reading frees nodes without counting them down, so both keep the queue only where
they find nothing to do.
-/

namespace NyanSD.Arduino

open Access LinkedHeap

/-- The chain of received nodes, seen as the datagrams they hold. -/
abbrev DatagramChain (heap : Address → Option ListNode) (start : Option Address)
    (nodes : List (Address × Bytes)) : Prop :=
  Chain ListNode.next ListNode.datagram heap start nodes

/-- The static variables describe this list of live nodes. -/
structure Queue (c : Client) (nodes : List (Address × Bytes)) : Prop where
  chain : DatagramChain c.heap c.response nodes
  last : nodes ≠ [] → c.last = nodes.getLast?.map Prod.fst
  count : c.count = nodes.length
  received : c.received = true ↔ 0 < c.count

namespace Queue

variable {c : Client} {nodes : List (Address × Bytes)}

theorem nil_iff (hqueue : Queue c nodes) : nodes = [] ↔ c.count = 0 := by
  rw [hqueue.count, List.length_eq_zero_iff]

theorem response_eq_none_iff (hqueue : Queue c nodes) : c.response = none ↔ c.count = 0 := by
  rw [hqueue.chain.start_eq_none_iff, hqueue.nil_iff]

end Queue

@[simp] theorem datagram_newNode (datagram : Bytes) (before : Nat → UInt8) :
    (newNode datagram before).datagram = datagram := by
  apply List.ext_getElem
  · simp [ListNode.datagram, newNode]
  · intro i hi hi'
    simp [ListNode.datagram, newNode, hi']

/-! ## Receiving -/

theorem udpReceiveCallback_other {c : Client} {address : Address} {datagram : Bytes}
    {before : Nat → UInt8} {remotePort : UInt16} (hport : remotePort ≠ c.port) :
    udpReceiveCallback c address datagram before remotePort = .ok c := if_pos hport

/-- A datagram from the queried port is appended to the queue, wherever its node is
put. -/
theorem udpReceiveCallback_append {c : Client} {nodes : List (Address × Bytes)}
    {address : Address} (datagram : Bytes) (before : Nat → UInt8)
    (hqueue : Queue c nodes) (hfresh : c.heap address = none) :
    ∃ c', udpReceiveCallback c address datagram before c.port = .ok c' ∧ c'.port = c.port ∧
      Queue c' (nodes ++ [(address, datagram)]) := by
  unfold udpReceiveCallback
  rw [if_neg (not_not.mpr rfl)]
  rcases List.eq_nil_or_concat nodes with rfl | ⟨init, ⟨last, bytes⟩, hsplit⟩
  · have hresponse : c.response = none := hqueue.chain.start_eq
    rw [hresponse]
    have hchain : DatagramChain (Function.update c.heap address (some (newNode datagram before)))
        (some address) [(address, (newNode datagram before).datagram)] :=
      .cons (Function.update_self ..) .nil
    rw [datagram_newNode] at hchain
    exact ⟨_, rfl, rfl, hchain, fun _ => rfl, congrArg (· + 1) hqueue.count, by simp⟩
  · rw [List.concat_eq_append] at hsplit
    subst hsplit
    obtain ⟨head, hresponse⟩ : ∃ head, c.response = some head := by
      rw [← Option.ne_none_iff_exists']
      intro hnone
      simpa using hqueue.chain.start_eq_none_iff.mp hnone
    obtain ⟨lastNode, hlast⟩ : ∃ node, c.heap last = some node :=
      hqueue.chain.live (by simp)
    have hpointer : c.last = some last := by simpa using hqueue.last (by simp)
    have hne : last ≠ address := by
      rintro rfl
      rw [hfresh] at hlast
      cases hlast
    have hderef : deref (Function.update c.heap address (some (newNode datagram before)))
        c.last = .ok (last, lastNode) := by
      simp [hpointer, deref, Function.update_of_ne hne, hlast]
    have hchain : DatagramChain
        (Function.update (Function.update c.heap address (some (newNode datagram before))) last
          (some { lastNode with next := some address })) c.response
        (init ++ [(last, bytes)] ++ [(address, (newNode datagram before).datagram)]) :=
      hqueue.chain.append_node hfresh hlast rfl rfl rfl
    rw [datagram_newNode] at hchain
    rw [hresponse]
    dsimp only
    rw [hderef]
    refine ⟨_, rfl, rfl, hresponse ▸ hchain, fun _ => by simp, ?_, by simp⟩
    rw [List.length_append, ← hqueue.count]
    rfl

/-! ## Reading -/

/-- `getResponses` returns an error code at this node: it is too short, starts with
a wrong signature, has too large a length field or another type, or its first
section has a wrong signature. -/
def ListNode.Refused (node : ListNode) : Prop :=
  node.length < 8 ∨ ¬ Holds node.data 0 Wire.signature ∨
    node.length - 8 < ((load UInt16 .le 6).run node.data).toNat ∨
    node.data 8 ≠ NYSDMessageType.response.toByte ∨
    (node.data 9 ≠ 0 ∧ node.data 10 ≠ Wire.serviceSignature)

instance (node : ListNode) : Decidable node.Refused :=
  inferInstanceAs (Decidable (_ ∨ _ ∨ _ ∨ _ ∨ _))

/-- The checks of one turn, in order. -/
theorem run_parseNode (length : Nat) (memory : Nat → UInt8) :
    (parseNode length).run memory =
      if length < 8 then .error 8
      else if (span 0 6).run memory ≠ Wire.signature then .error 9
      else if length - 8 < ((load UInt16 .le 6).run memory).toNat then .error 10
      else if memory 8 ≠ NYSDMessageType.response.toByte then .error 11
      else if memory 9 = 0 then .ok none
      else if memory 10 ≠ Wire.serviceSignature then .error 12
      else .ok (some ((parseService 11).run memory)) := by
  simp only [parseNode, run_ite, run_bind, run_pure]
  rfl

theorem ListNode.refused_iff (node : ListNode) :
    node.Refused ↔ ∃ code, (parseNode node.length).run node.data = .error code := by
  have hsignature : (span 0 Wire.signature.length).run node.data = Wire.signature ↔
      Holds node.data 0 Wire.signature := run_span_eq_iff_holds
  rw [Wire.length_signature] at hsignature
  rw [run_parseNode, Refused, ← hsignature]
  by_cases hshort : node.length < 8
  · simp [hshort]
  by_cases hsign : (span 0 6).run node.data = Wire.signature
  · by_cases hlarge : node.length - 8 < ((load UInt16 .le 6).run node.data).toNat
    · simp [hshort, hsign, hlarge]
    by_cases htype : node.data 8 = NYSDMessageType.response.toByte
    · by_cases hnone : node.data 9 = 0
      · simp [hshort, hsign, hlarge, htype, hnone]
      by_cases hmark : node.data 10 = Wire.serviceSignature
      · simp [hshort, hsign, hlarge, htype, hnone, hmark]
      · simp [hshort, hsign, hlarge, htype, hnone, hmark]
    · simp [hshort, hsign, hlarge, htype]
  · simp [hshort, hsign]

/-- A refused node ends the loop and changes nothing. -/
theorem readNodes_refused {c : Client} {address : Address} {node : ListNode}
    (remaining completed : Nat) (services : List NYSDService)
    (hresponse : c.response = some address) (hnode : c.heap address = some node)
    (hrefused : node.Refused) :
    ∃ code, readNodes (remaining + 1) c completed services =
      .ok ⟨c, completed, some code, services⟩ := by
  obtain ⟨code, hcode⟩ := node.refused_iff.mp hrefused
  refine ⟨code, ?_⟩
  have hderef : deref c.heap c.response = .ok (address, node) := by simp [hresponse, deref, hnode]
  rw [readNodes, hderef]
  simp only [bind, Except.bind, hcode]

/-- Behind a node that is freed the head finds the rest of the chain, if there is one. -/
theorem chain_behind {heap : Address → Option ListNode} {address : Address} {node : ListNode}
    {content : Bytes} {rest : List (Address × Bytes)} (hnode : heap address = some node)
    (hchain : DatagramChain heap (some address) ((address, content) :: rest)) :
    rest = [] ∨ DatagramChain (Function.update heap address none)
      (if node.next.isSome then node.next else some address) rest := by
  have hfreed := Chain.free_head hnode hchain
  cases hnext : node.next with
  | none => exact .inl (hfreed.start_eq_none_iff.mp hnext)
  | some following =>
      rw [hnext] at hfreed
      exact .inr hfreed

/-- A node that is read is freed, and the head moves on unless it was the last one. -/
theorem readNodes_ok {c : Client} {address : Address} {node : ListNode}
    {found : Option NYSDService} (remaining completed : Nat) (services : List NYSDService)
    (hresponse : c.response = some address) (hnode : c.heap address = some node)
    (hparsed : (parseNode node.length).run node.data = .ok found) :
    readNodes (remaining + 1) c completed services =
      readNodes remaining
        { c with heap := Function.update c.heap address none,
                 response := if node.next.isSome then node.next else some address }
        (completed + 1) (services ++ found.toList) := by
  have hderef : deref c.heap c.response = .ok (address, node) := by
    simp [hresponse, deref, hnode]
  rw [readNodes, hderef]
  simp only [bind, Except.bind, hparsed, hresponse]

theorem readNodes_accepted {c : Client} {address : Address} {node : ListNode}
    (remaining completed : Nat) (services : List NYSDService)
    (hresponse : c.response = some address) (hnode : c.heap address = some node)
    (haccepted : ¬ node.Refused) :
    ∃ taken, readNodes (remaining + 1) c completed services =
      readNodes remaining
        { c with heap := Function.update c.heap address none,
                 response := if node.next.isSome then node.next else some address }
        (completed + 1) (services ++ taken) := by
  cases hparsed : (parseNode node.length).run node.data with
  | error code => exact absurd (node.refused_iff.mpr ⟨code, hparsed⟩) haccepted
  | ok found => exact ⟨_, readNodes_ok remaining completed services hresponse hnode hparsed⟩

/-- `getResponses` returns an error code at the first datagram. -/
def Client.HeadRefused (c : Client) : Prop :=
  ∃ address ∈ c.response, ∃ node ∈ c.heap address, node.Refused

instance (c : Client) : Decidable c.HeadRefused :=
  inferInstanceAs (Decidable (∃ address ∈ c.response, ∃ node ∈ c.heap address, node.Refused))

/-- The head points to a node that has been freed. -/
def Client.Dangling (c : Client) : Prop :=
  ∃ address, c.response = some address ∧ c.heap address = none

/-- The loop never faults on a chain of as many nodes as it has turns. It leaves the
count alone, and either a rest of the chain, all of it only if the first node is
refused, or a dangling head. -/
theorem readNodes_chain {c : Client} {nodes : List (Address × Bytes)} (completed : Nat)
    (services : List NYSDService) (hchain : DatagramChain c.heap c.response nodes) :
    ∃ r, readNodes nodes.length c completed services = .ok r ∧ r.client.count = c.count ∧
      ((∃ k, DatagramChain r.client.heap r.client.response (nodes.drop k) ∧
          (k = 0 → nodes ≠ [] → c.HeadRefused)) ∨
        r.client.Dangling) := by
  induction nodes generalizing c completed services with
  | nil => exact ⟨_, rfl, rfl, .inl ⟨0, hchain, fun _ hne => absurd rfl hne⟩⟩
  | cons entry rest ih =>
      obtain ⟨address, content⟩ := entry
      have hresponse : c.response = some address := hchain.start_eq
      obtain ⟨node, hnode⟩ := hchain.live List.mem_cons_self
      by_cases hrefused : node.Refused
      · obtain ⟨code, hread⟩ :=
          readNodes_refused rest.length completed services hresponse hnode hrefused
        exact ⟨_, hread, rfl,
          .inl ⟨0, hchain, fun _ _ => ⟨address, hresponse, node, hnode, hrefused⟩⟩⟩
      · obtain ⟨taken, hread⟩ :=
          readNodes_accepted rest.length completed services hresponse hnode hrefused
        rw [List.length_cons, hread]
        have hfreed := Chain.free_head hnode (hresponse ▸ hchain)
        cases hnext : node.next with
        | none =>
            -- the head stays where it was, on the node that has just been freed
            obtain rfl := hfreed.start_eq_none_iff.mp hnext
            exact ⟨_, rfl, rfl, .inr ⟨address, rfl, Function.update_self ..⟩⟩
        | some following =>
            rw [hnext] at hfreed
            obtain ⟨r, hok, hcount, hleft⟩ := ih
              (c := { c with heap := Function.update c.heap address none,
                             response := some following })
              (completed + 1) (services ++ taken) hfreed
            refine ⟨r, hok, hcount, ?_⟩
            rcases hleft with ⟨k, hrest, -⟩ | hdangling
            · exact .inl ⟨k + 1, hrest, nofun⟩
            · exact .inr hdangling

/-- Reading leaves a queue alone when it is empty or its first datagram is refused. -/
theorem getResponses_untouched {c : Client} {nodes : List (Address × Bytes)}
    (hqueue : Queue c nodes) (hguard : c.count = 0 ∨ c.HeadRefused) :
    ∃ r, getResponses c = .ok r ∧ r.client = c ∧ r.completed = 0 := by
  by_cases hempty : c.count = 0
  · have hreceived : c.received = false := by
      rw [← Bool.not_eq_true, hqueue.received]
      omega
    exact ⟨⟨c, 0, 1, [], none⟩, by simp [getResponses, hreceived], rfl, rfl⟩
  · obtain ⟨address, hresponse, node, hnode, hrefused⟩ := hguard.resolve_left hempty
    obtain ⟨remaining, hcount⟩ := Nat.exists_eq_succ_of_ne_zero hempty
    obtain ⟨code, hread⟩ := readNodes_refused remaining 0 [] hresponse hnode hrefused
    have hreceived : c.received = true := hqueue.received.mpr (by omega)
    refine ⟨⟨c, 0, code, [], none⟩, ?_, rfl, rfl⟩
    rw [getResponses, hreceived, hcount, hread]
    rfl

/-- Once a node has been consumed, the count is too large for what is left. -/
theorem getResponses_consumed {c : Client} {nodes : List (Address × Bytes)}
    (hqueue : Queue c nodes) (hcount : c.count ≠ 0) (hhead : ¬ c.HeadRefused) :
    ∃ r, getResponses c = .ok r ∧ ∀ others, ¬ Queue r.client others := by
  have hreceived : c.received = true := hqueue.received.mpr (by omega)
  obtain ⟨r, hread, hkept, hleft⟩ := readNodes_chain 0 [] hqueue.chain
  have hbroken : ∀ others, ¬ Queue r.client others := by
    intro others hothers
    have hlength : others.length = nodes.length := by
      rw [← hothers.count, hkept, hqueue.count]
    rw [hqueue.count] at hcount
    -- the count still asks for the whole chain, which only a refused head leaves
    rcases hleft with ⟨k, hrest, hwhole⟩ | ⟨address, hresponse, hfreed⟩
    · have hshorter := congrArg List.length (hothers.chain.unique hrest)
      rw [List.length_drop] at hshorter
      exact hhead (hwhole (by omega) (List.length_pos_iff.mp (by omega)))
    · have hchain := hothers.chain
      rw [hresponse] at hchain
      cases hchain with
      | cons hnode _ =>
          rw [hfreed] at hnode
          cases hnode
  rw [getResponses, hreceived, hqueue.count, hread]
  cases hcode : r.code with
  | none => exact ⟨_, by simp [bind, Except.bind, hcode]; rfl, hbroken⟩
  | some code => exact ⟨_, by simp [bind, Except.bind, hcode]; rfl, hbroken⟩

/-! ## Sequences of calls -/

/-- The client, the datagrams it has queued and not yet consumed, and the fault that
ended the program. -/
structure Session where
  client : Client := {}
  pending : List Bytes := []
  fault : Option Fault := none

inductive Call
  | receive (address : Address) (datagram : Bytes) (before : Nat → UInt8) (remotePort : UInt16)
  | sendQuery (port : UInt16) (queries : List Query) (qnum : UInt8) (sent : Bool)
  | getResponses

/-- Memory is only handed out where no node lives, and nothing is called after a
fault. -/
def session : Machine Session Call where
  initial := {}
  step s e :=
    if s.fault.isSome then none
    else
      match e with
      | .receive address datagram before remotePort =>
          if (s.client.heap address).isSome then none
          else
            match udpReceiveCallback s.client address datagram before remotePort with
            | .error fault => some { s with fault := some fault }
            | .ok client =>
                some { s with client := client
                              pending := if remotePort = s.client.port then s.pending ++ [datagram]
                                else s.pending }
      | .sendQuery port queries qnum sent =>
          let r := Arduino.sendQuery s.client port queries qnum sent
          some { s with client := r.client
                        pending := if r.msg.isSome then [] else s.pending }
      | .getResponses =>
          match Arduino.getResponses s.client with
          | .error fault => some { s with fault := some fault }
          | .ok r => some { s with client := r.client, pending := s.pending.drop r.completed }

/-- What a call can do to a session, one case for each way it can go. -/
inductive Session.Step (s : Session) : Call → Session → Prop
  | receiveFault {address : Address} {datagram : Bytes} {before : Nat → UInt8}
      {remotePort : UInt16} {fault : Fault} (hfresh : s.client.heap address = none)
      (hfault : udpReceiveCallback s.client address datagram before remotePort = .error fault) :
      Step s (.receive address datagram before remotePort) { s with fault := some fault }
  | receive {address : Address} {datagram : Bytes} {before : Nat → UInt8} {remotePort : UInt16}
      {client : Client} (hfresh : s.client.heap address = none)
      (hreceived : udpReceiveCallback s.client address datagram before remotePort = .ok client) :
      Step s (.receive address datagram before remotePort)
        { s with client := client
                 pending := if remotePort = s.client.port then s.pending ++ [datagram]
                   else s.pending }
  | sendQuery {port : UInt16} {queries : List Query} {qnum : UInt8} {sent : Bool} :
      Step s (.sendQuery port queries qnum sent)
        { s with client := (Arduino.sendQuery s.client port queries qnum sent).client
                 pending := if (Arduino.sendQuery s.client port queries qnum sent).msg.isSome
                   then [] else s.pending }
  | readFault {fault : Fault} (hfault : Arduino.getResponses s.client = .error fault) :
      Step s .getResponses { s with fault := some fault }
  | read {r : ResponsesRead} (hread : Arduino.getResponses s.client = .ok r) :
      Step s .getResponses
        { s with client := r.client, pending := s.pending.drop r.completed }

theorem step_of_session {s s' : Session} {e : Call} (hnext : session.step s e = some s') :
    s.fault = none ∧ s.Step e s' := by
  unfold session at hnext
  simp only at hnext
  split at hnext
  · cases hnext
  rename_i hrunning
  refine ⟨by simpa using hrunning, ?_⟩
  cases e with
  | receive address datagram before remotePort =>
      simp only at hnext
      split at hnext
      · cases hnext
      rename_i hunused
      have hfresh : s.client.heap address = none := by simpa using hunused
      split at hnext
      next hfault =>
        cases hnext
        exact .receiveFault hfresh hfault
      next hreceived =>
        cases hnext
        exact .receive hfresh hreceived
  | sendQuery port queries qnum sent =>
      cases hnext
      exact .sendQuery
  | getResponses =>
      simp only at hnext
      split at hnext
      next hfault =>
        cases hnext
        exact .readFault hfault
      next hread =>
        cases hnext
        exact .read hread

/-- The call finds nothing to reset or to consume: a query is sent only while the
queue is empty, and it is read only while it is empty or its first datagram is
refused. -/
def LeavesQueue (s : Session) : Call → Prop
  | .receive .. => True
  | .sendQuery _ _ qnum _ => qnum = 0 ∨ s.client.count = 0
  | .getResponses => s.client.count = 0 ∨ s.client.HeadRefused

instance (s : Session) (e : Call) : Decidable (LeavesQueue s e) :=
  match e with
  | .receive .. => inferInstanceAs (Decidable True)
  | .sendQuery _ _ qnum _ => inferInstanceAs (Decidable (qnum = 0 ∨ s.client.count = 0))
  | .getResponses => inferInstanceAs (Decidable (s.client.count = 0 ∨ s.client.HeadRefused))

/-- There was no fault, and the queue holds the pending datagrams in order. -/
structure Consistent (s : Session) : Prop where
  no_fault : s.fault = none
  queue : ∃ nodes, Queue s.client nodes ∧ nodes.map Prod.snd = s.pending

theorem sendQuery_zero (c : Client) (port : UInt16) (queries : List Query) (sent : Bool) :
    sendQuery c port queries 0 sent = ⟨{ c with port := port }, 2, none⟩ := by
  simp [sendQuery]

theorem sendQuery_of_ne_zero {qnum : UInt8} (c : Client) (port : UInt16) (queries : List Query)
    (sent : Bool) (hqnum : qnum ≠ 0) :
    sendQuery c port queries qnum sent =
      ⟨{ c with port := port, response := none, count := 0 }, if sent then 0 else 4,
        some (composeQuery queries qnum)⟩ := by
  have hsmall : ¬ 255 < qnum.toNat := by
    have hlt := qnum.toNat_lt
    omega
  have hpos : ¬ qnum < 1 := by
    intro hlt
    rw [UInt8.lt_iff_toNat_lt] at hlt
    exact hqnum (UInt8.toNat_inj.mp (Nat.lt_one_iff.mp hlt))
  cases sent <;> simp [sendQuery, hsmall, hpos]

/-- The queue does not depend on the port. -/
theorem Queue.withPort {c : Client} {nodes : List (Address × Bytes)} (hqueue : Queue c nodes)
    (port : UInt16) : Queue { c with port := port } nodes :=
  ⟨hqueue.chain, hqueue.last, hqueue.count, hqueue.received⟩

/-- A reset keeps the queue consistent exactly when it was empty: the flag stays. -/
theorem queue_reset_iff {c : Client} {nodes : List (Address × Bytes)} (hqueue : Queue c nodes)
    (port : UInt16) :
    (∃ others, Queue { c with port := port, response := none, count := 0 } others) ↔
      c.count = 0 := by
  constructor
  · rintro ⟨others, hothers⟩
    by_contra hcount
    have hflag : c.received = true := hqueue.received.mpr (by omega)
    exact absurd (hothers.received.mp hflag) (lt_irrefl 0)
  · intro hcount
    refine ⟨[], .nil, fun hne => absurd rfl hne, rfl, ?_⟩
    rw [hqueue.received, hcount]

namespace Consistent

variable {s : Session}

/-- A datagram that arrives is queued if it comes from the queried port. -/
theorem exists_received (hs : Consistent s) {address : Address} (datagram : Bytes)
    (before : Nat → UInt8) (remotePort : UInt16) (hfresh : s.client.heap address = none) :
    ∃ client, udpReceiveCallback s.client address datagram before remotePort = .ok client ∧
      Consistent { s with client := client
                          pending := if remotePort = s.client.port then s.pending ++ [datagram]
                            else s.pending } := by
  obtain ⟨nodes, hqueue, hpending⟩ := hs.queue
  by_cases hport : remotePort = s.client.port
  · subst hport
    obtain ⟨client, hclient, -, happended⟩ :=
      udpReceiveCallback_append datagram before hqueue hfresh
    exact ⟨client, hclient, hs.no_fault, _, happended, by simp [hpending]⟩
  · refine ⟨s.client, udpReceiveCallback_other hport, ?_⟩
    rw [if_neg hport]
    exact hs

/-- A query that is sent leaves a consistent session if there was nothing to reset. -/
theorem sendQuery_iff (hs : Consistent s) (port : UInt16) (queries : List Query) (qnum : UInt8)
    (sent : Bool) :
    Consistent { s with client := (Arduino.sendQuery s.client port queries qnum sent).client
                        pending := if (Arduino.sendQuery s.client port queries qnum sent).msg.isSome
                          then [] else s.pending } ↔
      qnum = 0 ∨ s.client.count = 0 := by
  obtain ⟨nodes, hqueue, hpending⟩ := hs.queue
  by_cases hqnum : qnum = 0
  · subst hqnum
    refine iff_of_true ?_ (.inl rfl)
    rw [sendQuery_zero]
    exact ⟨hs.no_fault, nodes, hqueue.withPort port, hpending⟩
  · have hreset := queue_reset_iff hqueue port
    rw [sendQuery_of_ne_zero _ _ _ _ hqnum, or_iff_right hqnum, ← hreset]
    constructor
    · rintro ⟨-, others, hothers, -⟩
      exact ⟨others, hothers⟩
    · rintro ⟨others, hothers⟩
      refine ⟨hs.no_fault, others, hothers, ?_⟩
      rw [hothers.nil_iff.mpr rfl]
      rfl

/-- Reading never ends in a fault, and leaves a consistent session if there was nothing to
consume. -/
theorem exists_read (hs : Consistent s) :
    ∃ r, Arduino.getResponses s.client = .ok r ∧
      (Consistent { s with client := r.client, pending := s.pending.drop r.completed } ↔
        s.client.count = 0 ∨ s.client.HeadRefused) := by
  obtain ⟨nodes, hqueue, hpending⟩ := hs.queue
  by_cases hguard : s.client.count = 0 ∨ s.client.HeadRefused
  · obtain ⟨r, hread, hclient, hcompleted⟩ := getResponses_untouched hqueue hguard
    refine ⟨r, hread, iff_of_true ?_ hguard⟩
    rw [hclient, hcompleted]
    exact hs
  · obtain ⟨hcount, hhead⟩ := not_or.mp hguard
    obtain ⟨r, hread, hbroken⟩ := getResponses_consumed hqueue hcount hhead
    refine ⟨r, hread, iff_of_false ?_ hguard⟩
    rintro ⟨-, others, hothers, -⟩
    exact hbroken others hothers

/-- From a consistent session a call leads to a consistent one exactly when it
leaves the queue. -/
theorem step_iff {s' : Session} {e : Call} (hs : Consistent s)
    (hnext : session.step s e = some s') : Consistent s' ↔ LeavesQueue s e := by
  obtain ⟨-, hstep⟩ := step_of_session hnext
  cases hstep with
  | @receiveFault address datagram before remotePort fault hfresh hfault =>
      obtain ⟨client, hclient, -⟩ := hs.exists_received datagram before remotePort hfresh
      cases hfault.symm.trans hclient
  | @receive address datagram before remotePort client hfresh hreceived =>
      obtain ⟨_, hclient, hconsistent⟩ := hs.exists_received datagram before remotePort hfresh
      obtain rfl := Except.ok.inj (hreceived.symm.trans hclient)
      exact iff_of_true hconsistent trivial
  | sendQuery => exact hs.sendQuery_iff _ _ _ _
  | readFault hfault =>
      obtain ⟨r, hread, -⟩ := hs.exists_read
      cases hfault.symm.trans hread
  | read hread =>
      obtain ⟨_, hread', hiff⟩ := hs.exists_read
      obtain rfl := Except.ok.inj (hread.symm.trans hread')
      exact hiff

end Consistent

theorem consistent_of_reachable {s : Session} (hreach : session.Reachable LeavesQueue s) :
    Consistent s := by
  apply hreach.invariant
  · exact ⟨rfl, [], ⟨.nil, fun hne => absurd rfl hne, rfl, by decide⟩, rfl⟩
  · intro s e s' hs hguard hnext
    exact (hs.step_iff hnext).mpr hguard

/-- In every run whose queries and reads leave the queue, no call faults, and the
static variables describe the list of the pending datagrams. -/
theorem receive_queue {s : Session} (hreach : session.Reachable LeavesQueue s) :
    s.fault = none ∧
      (∃ nodes, DatagramChain s.client.heap s.client.response nodes ∧
        (nodes.map Prod.fst).Nodup ∧ nodes.length = s.client.count ∧
        nodes.map Prod.snd = s.pending ∧
        (nodes ≠ [] → s.client.last = nodes.getLast?.map Prod.fst)) ∧
      (s.client.response = none ↔ s.client.count = 0) ∧
      (s.client.received = true ↔ 0 < s.client.count) := by
  have hs := consistent_of_reachable hreach
  obtain ⟨nodes, hqueue, hpending⟩ := hs.queue
  exact ⟨hs.no_fault, ⟨nodes, hqueue.chain, hqueue.chain.nodup, hqueue.count.symm, hpending,
    hqueue.last⟩, hqueue.response_eq_none_iff, hqueue.received⟩

/-- A query for every service. -/
def anyService : Query := ⟨.all, ⟨[], by decide⟩, 0⟩

/-- A query, two answers of which the first is too short, and an attempt to read. -/
def refusedFirst : List Call :=
  [.sendQuery 4004 [anyService] 1 true, .receive 1 [] (fun _ => 0) 4004,
    .receive 2 (Wire.response [{}]) (fun _ => 0) 4004, .getResponses]

theorem receive_queue_refusedFirst :
    ∃ s, session.run LeavesQueue {} refusedFirst = some s ∧
      s.pending = [[], Wire.response [{}]] ∧ s.fault = none ∧ s.client.response ≠ none := by
  have hruns : (session.run LeavesQueue {} refusedFirst).map
      (fun s => (s.pending, s.client.count)) = some ([[], Wire.response [{}]], 2) := by decide
  obtain ⟨s, hrun, hs⟩ := Option.map_eq_some_iff.mp hruns
  obtain ⟨hfault, -, hresponse, -⟩ := receive_queue (Machine.reachable_of_run refusedFirst hrun)
  have hcount : s.client.count = 2 := congrArg Prod.snd hs
  refine ⟨s, hrun, congrArg Prod.fst hs, hfault, ?_⟩
  intro hnone
  rw [hresponse, hcount] at hnone
  cases hnone

/-- Reading a good datagram leaves the head dangling, so that reading again faults;
and a query sent while a datagram is queued leaves the flag set. -/
theorem read_twice_faults :
    (session.run (fun _ _ => True) {}
      [.sendQuery 4004 [anyService] 1 true, .receive 1 (Wire.response [{}]) (fun _ => 0) 4004,
        .getResponses, .getResponses]).map Session.fault = some (some .freedNode) ∧
    (session.run (fun _ _ => True) {}
      [.sendQuery 4004 [anyService] 1 true, .receive 1 (Wire.response [{}]) (fun _ => 0) 4004,
        .sendQuery 4004 [anyService] 1 true]).map
        (fun s => (s.client.count, s.client.received)) = some (0, true) := by
  decide

end NyanSD.Arduino
