import NyanSD.Foundation.Machine
import NyanSD.QueryRoundTrip
import NyanSD.Registry

/-!
# Servers that hear each other

Queries and responses share a header, a port and a handler, and a response can reach
a server. It never makes one send: its type byte is in front of everything that is
answered. So whatever a network of servers sends is paid for by the counts of the
client datagrams that were delivered, however often and in whatever order.
-/

namespace NyanSD

open Access ByteBauble

/-! ## What one delivery sends -/

section Delivery

variable (server : Server) (sender : SocketAddress)

/-- The value of the query count byte. -/
def queryCount (datagram : Bytes) : Nat := (datagram[9]?.getD 0).toNat

/-- Every pass of the section loop answers once or not at all. -/
theorem length_querySections_le (memory : Nat → UInt8) (count index : Nat)
    (answers : List Answer) :
    ((querySections server sender count index answers).run memory).2.length ≤
      answers.length + count := by
  induction count generalizing index answers with
  | zero => exact le_refl _
  | succ count ih =>
      rw [querySections, run_bind, run_cell, run_ite]
      split
      · have hrest := ih index answers
        omega
      · rw [run_bind, run_bind, run_bind]
        apply (ih _ _).trans
        rw [List.length_append, List.length_singleton]
        omega

/-- What the handler reads at a place the datagram reaches is the byte there. -/
theorem receive_data_eq {datagram : Bytes} (buffer : Nat → UInt8) {i : Nat}
    (hi : i < (receive datagram buffer).length) :
    (receive datagram buffer).data i = datagram[i]?.getD 0 := by
  rw [length_receive, lt_min_iff] at hi
  simp only [receive, List.getElem?_take_of_lt hi.1, List.getElem?_eq_getElem hi.2,
    Option.getD_some]

theorem length_sent_le (datagram : Bytes) (buffer : Nat → UInt8) :
    (clientHandler server sender datagram buffer).sent.length ≤ queryCount datagram := by
  cases hhandled : clientHandler server sender datagram buffer with
  | sections index answers =>
      obtain ⟨hchecks, hrun⟩ := passesChecks_of_sections server sender hhandled
      have hlong := hchecks.long
      have hanswers := length_querySections_le server sender (receive datagram buffer).data
        ((receive datagram buffer).data 9).toNat 10 []
      rw [hrun, receive_data_eq buffer (by omega), List.length_nil, Nat.zero_add] at hanswers
      rw [Handled.sent, List.length_map]
      exact hanswers
  | _ => exact Nat.zero_le _

/-- A datagram with another type byte than that of a broadcast is not answered. -/
theorem sent_eq_nil {datagram : Bytes} (buffer : Nat → UInt8)
    (htype : datagram[8]?.getD 0 ≠ NYSDMessageType.broadcast.toByte) :
    (clientHandler server sender datagram buffer).sent = [] := by
  cases hhandled : clientHandler server sender datagram buffer with
  | sections index answers =>
      obtain ⟨hchecks, -⟩ := passesChecks_of_sections server sender hhandled
      have hlong := hchecks.long
      rw [← receive_data_eq buffer (by omega)] at htype
      exact absurd hchecks.type htype
  | _ => rfl

/-- What the handler sends has the type byte of a response. -/
theorem type_of_mem_sent {datagram msg : Bytes} {buffer : Nat → UInt8}
    (hmem : msg ∈ (clientHandler server sender datagram buffer).sent) :
    msg[8]?.getD 0 = NYSDMessageType.response.toByte := by
  cases hhandled : clientHandler server sender datagram buffer with
  | sections index answers =>
      rw [hhandled, Handled.sent] at hmem
      obtain ⟨a, ha, rfl⟩ := List.mem_map.mp hmem
      rw [clientHandler_answers server sender hhandled a ha, respond_eq, Wire.message,
        List.getElem?_append_right (by rw [Wire.length_header]), Wire.length_header]
      rfl
  | _ =>
      rw [hhandled] at hmem
      cases hmem

end Delivery

/-! ## Networks -/

/-- Who sent a datagram. -/
inductive Origin
  | client
  | server
deriving DecidableEq, Repr

structure Packet where
  origin : Origin
  datagram : Bytes
deriving DecidableEq, Repr

/-- What a delivery finds at the server besides its services. -/
structure Surroundings where
  host : BBEndianness
  interfaces : List NetworkInterface
  uninitialised : UInt32
  sender : SocketAddress
  buffer : Nat → UInt8

def Surroundings.server (found : Surroundings) (services : List NYSDService) : Server :=
  ⟨found.host, services, found.interfaces, found.uninitialised⟩

/-- The services of every server, and what was sent and delivered so far. A packet that
was sent stays there, to be delivered later, again or never. -/
structure Network (Name : Type) where
  services : Name → List NYSDService := fun _ => []
  sent : List Packet := []
  delivered : List Packet := []

inductive NetworkEvent (Name : Type)
  /-- A client sends any datagram. -/
  | send (datagram : Bytes)
  /-- A server receives a packet that somebody has sent. -/
  | deliver (packet : Packet) (name : Name) (found : Surroundings)
  | register (name : Name) (call : Registration)

section

variable (Name : Type) [DecidableEq Name]

def network : Machine (Network Name) (NetworkEvent Name) where
  initial := {}
  step s e :=
    match e with
    | .send datagram => some { s with sent := s.sent ++ [⟨.client, datagram⟩] }
    | .deliver packet name found =>
        if packet ∈ s.sent then
          let handled := clientHandler (found.server (s.services name)) found.sender
            packet.datagram found.buffer
          some { s with sent := s.sent ++ handled.sent.map (Packet.mk .server)
                        delivered := s.delivered ++ [packet] }
        else none
    | .register name call =>
        some { s with services := Function.update s.services name
                        (addService call.hostName (s.services name) call.service).2 }

end

namespace Network

variable {Name : Type}

/-- The datagrams that servers have sent. -/
def responses (s : Network Name) : List Packet := s.sent.filter fun packet => packet.origin = .server

/-- The counts of the client datagrams, once for every delivery. -/
def queriesDelivered (s : Network Name) : Nat :=
  ((s.delivered.filter fun packet => packet.origin = .client).map
    fun packet => queryCount packet.datagram).sum

/-- What servers have sent are responses, and no more than was asked for. -/
structure Quiet (s : Network Name) : Prop where
  type : ∀ packet ∈ s.sent, packet.origin = .server →
    packet.datagram[8]?.getD 0 = NYSDMessageType.response.toByte
  bounded : s.responses.length ≤ s.queriesDelivered

/-- A packet of a server is not answered by any other. -/
theorem Quiet.sent_eq_nil {s : Network Name} (hs : s.Quiet) {packet : Packet}
    (hmem : packet ∈ s.sent) (hserver : packet.origin = .server) (server : Server)
    (sender : SocketAddress) (buffer : Nat → UInt8) :
    (clientHandler server sender packet.datagram buffer).sent = [] := by
  apply NyanSD.sent_eq_nil
  rw [hs.type packet hmem hserver]
  decide

theorem quiet_initial : ({} : Network Name).Quiet := ⟨nofun, Nat.zero_le _⟩

/-- A delivery keeps the balance: a response is not answered, and a client datagram pays
for its answers. -/
theorem Quiet.deliver {s : Network Name} (hs : s.Quiet) {packet : Packet}
    (hmem : packet ∈ s.sent) (server : Server) (sender : SocketAddress)
    (buffer : Nat → UInt8) :
    Quiet { s with
      sent := s.sent ++
        (clientHandler server sender packet.datagram buffer).sent.map (Packet.mk .server)
      delivered := s.delivered ++ [packet] } := by
  have hsilent : packet.origin = .server →
      (clientHandler server sender packet.datagram buffer).sent = [] :=
    fun hserver => hs.sent_eq_nil hmem hserver server sender buffer
  have hcount := length_sent_le server sender packet.datagram buffer
  have hbounded := hs.bounded
  constructor
  · intro other hother hserver
    rcases List.mem_append.mp hother with hold | hnew
    · exact hs.type other hold hserver
    · obtain ⟨msg, hmsg, rfl⟩ := List.mem_map.mp hnew
      exact type_of_mem_sent server sender hmsg
  · have hall : ∀ sent : List Bytes, (sent.map (Packet.mk .server)).filter
        (fun packet => packet.origin = .server) = sent.map (Packet.mk .server) := by
      intro sent
      simp [List.filter_eq_self]
    simp only [responses, queriesDelivered] at hbounded
    simp only [responses, queriesDelivered, List.filter_append, hall, List.length_append,
      List.length_map, List.map_append, List.sum_append, List.filter_singleton]
    cases horigin : packet.origin with
    | client =>
        simp only [decide_true, cond_true, List.map_cons, List.map_nil, List.sum_cons,
          List.sum_nil]
        omega
    | server =>
        rw [hsilent horigin]
        simpa using hbounded

variable [DecidableEq Name]

theorem Quiet.step {s s' : Network Name} {e : NetworkEvent Name} (hs : s.Quiet)
    (hnext : (network Name).step s e = some s') : s'.Quiet := by
  cases e with
  | send datagram =>
      obtain rfl := Option.some.inj hnext
      constructor
      · intro packet hmem hserver
        rcases List.mem_append.mp hmem with hold | hnew
        · exact hs.type packet hold hserver
        · rw [List.mem_singleton.mp hnew] at hserver
          cases hserver
      · have hbounded := hs.bounded
        simpa [responses, queriesDelivered, List.filter_append] using hbounded
  | deliver packet name found =>
      simp only [network] at hnext
      split at hnext
      next hmem =>
        obtain rfl := Option.some.inj hnext
        exact hs.deliver hmem _ found.sender found.buffer
      next => cases hnext
  | register name call =>
      obtain rfl := Option.some.inj hnext
      exact ⟨hs.type, hs.bounded⟩

end Network

/-- In every run of a network of servers a datagram sent by a server makes no server
send, no delivery is answered more often than the count of its datagram says, and so
the responses are no more than the counts of the client datagrams delivered. -/
theorem no_storm {Name : Type} [DecidableEq Name] {s : Network Name}
    (hreach : (network Name).Reachable (fun _ _ => True) s) :
    (∀ packet ∈ s.sent, packet.origin = .server →
      ∀ (server : Server) (sender : SocketAddress) (buffer : Nat → UInt8),
        (clientHandler server sender packet.datagram buffer).sent = []) ∧
    (∀ (datagram : Bytes) (server : Server) (sender : SocketAddress) (buffer : Nat → UInt8),
      (clientHandler server sender datagram buffer).sent.length ≤ queryCount datagram) ∧
    s.responses.length ≤ s.queriesDelivered := by
  have hquiet : s.Quiet :=
    hreach.invariant Network.quiet_initial fun _ _ _ hs _ hnext => hs.step hnext
  refine ⟨?_, ?_, hquiet.bounded⟩
  · intro packet hmem hserver server sender buffer
    exact hquiet.sent_eq_nil hmem hserver server sender buffer
  · intro datagram server sender buffer
    exact length_sent_le server sender datagram buffer

/-- A server at its port, asked from a laptop. -/
def surroundings : Surroundings := ⟨.le, [], 0, laptop, fun _ => 0⟩

/-- A broadcast that two servers receive, one of them twice, and one of the responses
at both servers. -/
def heardTwice : List (NetworkEvent Bool) :=
  let broadcast := Wire.broadcast [⟨.all, []⟩]
  [.register true ⟨printer, []⟩, .send broadcast, .deliver ⟨.client, broadcast⟩ true surroundings,
    .deliver ⟨.client, broadcast⟩ false surroundings,
    .deliver ⟨.client, broadcast⟩ true surroundings,
    .deliver ⟨.server, Wire.response [printer]⟩ true surroundings,
    .deliver ⟨.server, Wire.response [printer]⟩ false surroundings]

theorem no_storm_heardTwice :
    ∃ s, (network Bool).run (fun _ _ => True) {} heardTwice = some s ∧
      s.responses.length = 3 ∧ s.responses.length ≤ s.queriesDelivered := by
  have hruns : ((network Bool).run (fun _ _ => True) {} heardTwice).map
      (fun s => s.responses.length) = some 3 := by
    decide
  obtain ⟨s, hrun, hlength⟩ := Option.map_eq_some_iff.mp hruns
  exact ⟨s, hrun, hlength, (no_storm (Machine.reachable_of_run heardTwice hrun)).2.2⟩

end NyanSD
