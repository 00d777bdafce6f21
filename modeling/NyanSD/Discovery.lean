import NyanSD.Network
import NyanSD.Selection

/-!
# What clients discover

Servers register services while clients ask and datagrams travel: a datagram may arrive
late, more than once or never, and is cut to the size of the buffer it arrives in. What a
client has found is then made of responses that servers gave to its own queries, each
taken whole or not at all, so it finds nothing that no server has registered.
-/

namespace NyanSD

open Access ByteBauble

/-! ## Reading replies -/

/-- The service is given as it was registered, but for an address that had to be looked up. -/
def FoundAs (record sv : NYSDService) : Prop :=
  sv = { record with ipv4 := sv.ipv4, ipv6 := sv.ipv6 } ∧ (record.ipv4 ≠ 0 → sv = record)

theorem foundAs_of_filledIn {server : Server} {sender : SocketAddress} {record sv : NYSDService}
    (hfilled : filledIn server sender record = some sv) : FoundAs record sv := by
  constructor
  · obtain ⟨hport, hhostname, hservice, hprotocol⟩ := filledIn_fields hfilled
    cases sv
    simp_all only
  · intro hipv4
    rw [filledIn_of_ipv4_ne_zero _ _ hipv4] at hfilled
    exact (Option.some.inj hfilled).symm

namespace Reply

/-- The reply arrives whole. -/
def Fits (reply : Reply) : Prop := reply.message.length ≤ receiveSize

instance : DecidablePred Fits := fun reply =>
  inferInstanceAs (Decidable (reply.message.length ≤ receiveSize))

/-- Every selected record is answered with. -/
theorem Answerable.forall₂ {reply : Reply} (hanswerable : reply.Answerable) :
    List.Forall₂ FoundAs reply.selected reply.records := by
  have hfilled := hanswerable.filled
  rw [records]
  generalize reply.selected = selected at hfilled ⊢
  induction selected with
  | nil => exact .nil
  | cons record rest ih =>
      obtain ⟨hrecord, hrest⟩ := List.forall_mem_cons.mp hfilled
      obtain ⟨sv, hsv⟩ := Option.isSome_iff_exists.mp hrecord
      rw [List.filterMap_cons_some hsv]
      exact .cons (foundAs_of_filledIn hsv) (ih hrest)

theorem mem_of_mem_selected {reply : Reply} {sv : NYSDService} (hmem : sv ∈ reply.selected) :
    sv ∈ reply.server.services ∧ PassesName reply.filter sv := by
  rw [selected, NyanSD.selected] at hmem
  split at hmem
  · obtain ⟨hmem, hmatches⟩ := List.mem_filter.mp hmem
    exact ⟨hmem, .inr hmatches⟩
  · rename_i hempty
    exact ⟨hmem, .inl (List.length_eq_zero_iff.mp (not_not.mp hempty))⟩

/-- Services with short IPv6 strings and a known address, if only by lookup, can be answered
with. -/
theorem answerable {reply : Reply}
    (hservices : ∀ sv ∈ reply.server.services, sv.ipv6.length ≤ 255 ∧
      (sv.ipv4 ≠ 0 ∨ LookupSucceeds reply.server reply.sender)) : reply.Answerable where
  filled sv hmem :=
    (isSome_filledIn_iff _ _ sv).mpr (hservices sv (mem_of_mem_selected hmem).1).2
  ipv6 sv hmem := by
    obtain ⟨record, hrecord, hfilled⟩ := List.mem_filterMap.mp hmem
    have hshort := (hservices record (mem_of_mem_selected hrecord).1).1
    rw [filledIn] at hfilled
    split at hfilled
    · split at hfilled
      · cases hfilled
      split at hfilled
      · cases hfilled
      · rename_i hlength
        cases hfilled
        exact (Nat.not_lt.mp hlength).trans (by decide)
    · cases hfilled
      exact hshort

end Reply

/-- The buffer was filled with the reply, or with as much of it as there was room for. -/
structure Reply.Arrives (reply : Reply) (buffer : ResponseStruct) : Prop where
  answerable : reply.Answerable
  length_le : reply.message.length ≤ maxDatagram
  filled : ∃ heap, buffer = receiveBytes reply.message heap

/-- Replies are read whole, one after another, up to the first that was cut off. -/
theorem parseResponses_replies (client : BBEndianness) {replies : List Reply}
    {buffers : List ResponseStruct} (responses : List NYSDService)
    (hbuffers : List.Forall₂ Reply.Arrives replies buffers) :
    parseResponses client buffers responses =
      (replies.all fun reply => reply.Fits,
        responses ++ (replies.takeWhile fun reply => reply.Fits).flatMap Reply.records) := by
  induction hbuffers generalizing responses with
  | nil => simp [parseResponses]
  | @cons reply buffer replies buffers hreply _ ih =>
      obtain ⟨hanswerable, hlength, heap, rfl⟩ := hreply
      by_cases hfits : reply.Fits
      · have hfirst := parseBuffer_carries client heap responses (hanswerable.carries hfits) hfits
        simp [parseResponses, hfirst, ih, hfits]
      · have hlong : receiveSize < reply.message.length := Nat.not_le.mp hfits
        have hfirst := parseResponses_truncated client reply heap responses hlength hlong
        rw [parseResponses_singleton] at hfirst
        simp [parseResponses, hfirst, hfits]

/-- Replies that all fit are read completely. -/
theorem parseResponses_whole (client : BBEndianness) (heap : Nat → UInt8) {replies : List Reply}
    (hreplies : ∀ reply ∈ replies, reply.Answerable ∧ reply.Fits) :
    parseResponses client (replies.map fun reply => receiveBytes reply.message heap) [] =
      (true, replies.flatMap Reply.records) := by
  have harrives : List.Forall₂ Reply.Arrives replies
      (replies.map fun reply => receiveBytes reply.message heap) := by
    rw [List.forall₂_map_right_iff, List.forall₂_same]
    intro reply hmem
    obtain ⟨hanswerable, hfits⟩ := hreplies reply hmem
    exact ⟨hanswerable, hfits.trans (by decide), heap, rfl⟩
  have hfits : ∀ reply ∈ replies, decide reply.Fits = true := fun reply hmem =>
    decide_eq_true (hreplies reply hmem).2
  rw [parseResponses_replies client [] harrives, List.all_eq_true.mpr hfits,
    List.takeWhile_eq_self_iff.mpr hfits, List.nil_append]

/-! ## Hearing queries -/

/-- A composed message that can be sent is well formed. -/
theorem exists_queryMessage {host : BBEndianness} {queries : List NYSDQuery} {msg : Bytes}
    (hcompose : composeQuery host queries = .ok msg)
    (hfilter : ∀ query ∈ queries, query.filter.length ≤ 255) (hlength : msg.length ≤ maxDatagram) :
    ∃ message : Wire.QueryMessage, message.queries = queries ∧ msg = message.encode := by
  have hcount : ¬ 255 < queries.length ∧ ¬ queries.length < 1 := by
    refine ⟨fun hmany => ?_, fun hnone => ?_⟩
    · rw [composeQuery, if_pos hmany] at hcompose
      cases hcompose
    · rw [composeQuery, if_neg (by omega), if_pos hnone] at hcompose
      cases hcompose
  rw [composeQuery_eq host (by omega) (by omega) hfilter] at hcompose
  cases hcompose
  rw [maxDatagram] at hlength
  exact ⟨⟨queries, fun query hmem => Nat.lt_succ_of_le (hfilter query hmem), by omega, by omega,
    by omega⟩, rfl, rfl⟩

/-- One response is sent for each query of a message that arrives whole. -/
theorem sent_broadcast (server : Server) (sender : SocketAddress) (message : Wire.QueryMessage)
    (buffer : Nat → UInt8) (hsize : message.encode.length ≤ receiveSize) :
    (clientHandler server sender message.encode buffer).sent =
      message.queries.map fun query => respond server sender query.filter := by
  rw [clientHandler_broadcast server sender message buffer hsize, Handled.sent, List.map_map]
  rfl

/-- Whatever the handler sends for such a message answers one of its queries. -/
theorem exists_query_of_mem_sent (server : Server) (sender : SocketAddress)
    {message : Wire.QueryMessage} {buffer : Nat → UInt8} {msg : Bytes}
    (hlength : message.encode.length ≤ maxDatagram)
    (hsent : msg ∈ (clientHandler server sender message.encode buffer).sent) :
    ∃ query ∈ message.queries, msg = respond server sender query.filter := by
  by_cases hsize : message.encode.length ≤ receiveSize
  · rw [sent_broadcast server sender message buffer hsize] at hsent
    obtain ⟨query, hquery, rfl⟩ := List.mem_map.mp hsent
    exact ⟨query, hquery, rfl⟩
  · have htotal := Wire.length_message .broadcast
      (UInt8.ofNat message.queries.length :: message.queries.flatMap Wire.querySection)
    rw [Wire.QueryMessage.encode, Wire.broadcast] at hlength hsize hsent
    rw [maxDatagram] at hlength
    rw [clientHandler_truncated server sender buffer (by omega) (Nat.not_le.mp hsize)] at hsent
    cases hsent

/-- A client whose queries are heard whole, and that receives every response whole and in the
order of the queries, finds what the server has for each of them. -/
theorem sendQuery_clientHandler (client : BBEndianness) (server : Server) (sender : SocketAddress)
    {queries : List NYSDQuery} (hpos : 1 ≤ queries.length) (hcount : queries.length ≤ 255)
    (hfilter : ∀ query ∈ queries, query.filter.length ≤ 255)
    (hquery : (Wire.broadcast queries).length ≤ receiveSize)
    (hservices : ∀ sv ∈ server.services, sv.ipv6.length ≤ 255 ∧
      (sv.ipv4 ≠ 0 ∨ LookupSucceeds server sender))
    (hanswer : ∀ query ∈ queries, (respond server sender query.filter).length ≤ receiveSize)
    (buffer heap : Nat → UInt8) :
    sendQuery client
        (fun msg => (clientHandler server sender msg buffer).sent.map fun answer =>
          receiveBytes answer heap) queries [] =
      (true, queries.flatMap fun query =>
        (selected server query.filter).filterMap (filledIn server sender)) := by
  have hcompose := composeQuery_eq client hpos hcount hfilter
  obtain ⟨message, rfl, hmessage⟩ := exists_queryMessage hcompose hfilter (hquery.trans (by decide))
  have hreplies : ∀ reply ∈ message.queries.map fun query => Reply.mk server sender query.filter,
      reply.Answerable ∧ reply.Fits := by
    intro reply hmem
    obtain ⟨query, hquery, rfl⟩ := List.mem_map.mp hmem
    exact ⟨Reply.answerable hservices, hanswer query hquery⟩
  have hparsed := parseResponses_whole client heap hreplies
  rw [List.map_map, List.flatMap_map] at hparsed
  rw [hmessage] at hquery
  rw [sendQuery, hcompose]
  dsimp only
  rw [hmessage, sent_broadcast server sender message buffer hquery, List.map_map]
  exact hparsed

namespace Discovery

/-! ## Clients and servers -/

/-- What travels between a client and the servers. -/
inductive Packet (Client : Type)
  | broadcast (client : Client) (datagram : Bytes)
  | response (client : Client) (datagram : Bytes)
deriving DecidableEq

/-- The services of every server, the queries of every client and the buffers it has filled.
A datagram that was sent stays there, to arrive later, again or never. -/
structure State (Name Client : Type) where
  services : Name → List NYSDService := fun _ => []
  asked : Client → Option (List NYSDQuery) := fun _ => none
  sent : List (Packet Client) := []
  received : Client → List ResponseStruct := fun _ => []
  /-- An exception has ended the server. -/
  stopped : Name → Bool := fun _ => false

inductive Event (Name Client : Type)
  | register (name : Name) (call : Registration)
  /-- A call of `sendQuery` starts. -/
  | ask (client : Client) (host : BBEndianness) (queries : List NYSDQuery)
  /-- A server hears a broadcast. -/
  | deliver (client : Client) (datagram : Bytes) (name : Name) (found : Surroundings)
  /-- A client fills another buffer. -/
  | receive (client : Client) (datagram : Bytes) (heap : Nat → UInt8)

section

variable (Name Client : Type) [DecidableEq Name] [DecidableEq Client]

/-- On what is longer than a datagram can be, `sendTo` throws. A client goes on without it,
while nothing catches what a handler throws. -/
def discovery : Machine (State Name Client) (Event Name Client) where
  initial := {}
  step s e :=
    match e with
    | .register name call =>
        if s.stopped name then none
        else
          let (_, services) := addService call.hostName (s.services name) call.service
          some { s with services := Function.update s.services name services }
    | .ask client host queries =>
        match s.asked client, composeQuery host queries with
        | none, .ok msg => some { s with
            asked := Function.update s.asked client (some queries)
            sent := s.sent ++ if msg.length ≤ maxDatagram then [.broadcast client msg] else [] }
        | _, _ => none
    | .deliver client datagram name found =>
        if .broadcast client datagram ∈ s.sent ∧ s.stopped name = false then
          let msgs := (clientHandler (found.server (s.services name)) found.sender datagram
            found.buffer).sent
          let sent := msgs.takeWhile fun msg => msg.length ≤ maxDatagram
          some { s with
            sent := s.sent ++ sent.map (.response client)
            stopped := Function.update s.stopped name (sent ≠ msgs) }
        else none
    | .receive client datagram heap =>
        if .response client datagram ∈ s.sent then
          let buffers := s.received client ++ [receiveBytes datagram heap]
          some { s with received := Function.update s.received client buffers }
        else none

end

variable {Name Client : Type}

/-- What a step does, one case for each event. -/
inductive State.Step [DecidableEq Name] [DecidableEq Client] (s : State Name Client) :
    Event Name Client → State Name Client → Prop
  | register {name : Name} (call : Registration) (hup : s.stopped name = false) :
      Step s (.register name call)
        { s with services := Function.update s.services name
                   (addService call.hostName (s.services name) call.service).2 }
  | ask {client : Client} {host : BBEndianness} {queries : List NYSDQuery} {msg : Bytes}
      (hnone : s.asked client = none) (hcompose : composeQuery host queries = .ok msg) :
      Step s (.ask client host queries)
        { s with
          asked := Function.update s.asked client (some queries)
          sent := s.sent ++ if msg.length ≤ maxDatagram then [.broadcast client msg] else [] }
  | deliver {client : Client} {datagram : Bytes} {name : Name} {found : Surroundings}
      {sent : List Bytes} (hmem : .broadcast client datagram ∈ s.sent)
      (hsent : (clientHandler (found.server (s.services name)) found.sender datagram
        found.buffer).sent.takeWhile (fun msg => msg.length ≤ maxDatagram) = sent)
      (stopped : Name → Bool) :
      Step s (.deliver client datagram name found)
        { s with sent := s.sent ++ sent.map (.response client), stopped := stopped }
  | receive {client : Client} {datagram : Bytes} (heap : Nat → UInt8)
      (hmem : .response client datagram ∈ s.sent) :
      Step s (.receive client datagram heap)
        { s with received := Function.update s.received client
                   (s.received client ++ [receiveBytes datagram heap]) }

theorem step_of_discovery [DecidableEq Name] [DecidableEq Client] {s s' : State Name Client}
    {e : Event Name Client} (hnext : (discovery Name Client).step s e = some s') : s.Step e s' := by
  cases e with
  | register name call =>
      simp only [discovery] at hnext
      split at hnext
      · cases hnext
      · rename_i hup
        obtain rfl := Option.some.inj hnext
        exact .register call (Bool.not_eq_true _ ▸ hup)
  | ask client host queries =>
      simp only [discovery] at hnext
      split at hnext
      · rename_i msg hnone hcompose
        obtain rfl := Option.some.inj hnext
        exact .ask hnone hcompose
      · cases hnext
  | deliver client datagram name found =>
      simp only [discovery] at hnext
      split at hnext
      · rename_i hmem
        obtain rfl := Option.some.inj hnext
        exact .deliver hmem.1 rfl _
      · cases hnext
  | receive client datagram heap =>
      simp only [discovery] at hnext
      split at hnext
      · rename_i hmem
        obtain rfl := Option.some.inj hnext
        exact .receive heap hmem
      · cases hnext

/-- Registered IPv6 strings and filters fit their length bytes, and a server that hears a
client knows an address for each of its services. -/
def Orderly (s : State Name Client) : Event Name Client → Prop
  | .register _ call => call.service.ipv6.length ≤ 255
  | .ask _ _ queries => ∀ query ∈ queries, query.filter.length ≤ 255
  | .deliver _ _ name found => ∀ sv ∈ s.services name,
      sv.ipv4 ≠ 0 ∨ LookupSucceeds (found.server (s.services name)) found.sender
  | .receive .. => True

instance (server : Server) (sender : SocketAddress) : Decidable (LookupSucceeds server sender) :=
  decidable_of_iff
    (∃ address ∈ remoteToLocalIP server.host server.interfaces sender server.uninitialised [],
      address.2.length ≤ 39) (by simp [LookupSucceeds, Option.mem_def])

instance (s : State Name Client) (e : Event Name Client) : Decidable (Orderly s e) :=
  match e with
  | .register _ call => inferInstanceAs (Decidable (call.service.ipv6.length ≤ 255))
  | .ask _ _ queries => inferInstanceAs (Decidable (∀ query ∈ queries, query.filter.length ≤ 255))
  | .deliver _ _ name found => inferInstanceAs (Decidable (∀ sv ∈ s.services name,
      sv.ipv4 ≠ 0 ∨ LookupSucceeds (found.server (s.services name)) found.sender))
  | .receive .. => instDecidableTrue

/-- What a call of `sendQuery` has made of its buffers. -/
def State.result (s : State Name Client) (client : Client) (host : BBEndianness) :
    Bool × List NYSDService :=
  parseResponses host (s.received client) []

/-- The reply is one of the server of this name to a query of the client. -/
structure State.Answers (s : State Name Client) (client : Client) (name : Name) (reply : Reply) :
    Prop where
  asked : ∃ queries, s.asked client = some queries ∧ ∃ query ∈ queries, query.filter = reply.filter
  registered : reply.server.services <+: s.services name
  answerable : reply.Answerable
  length_le : reply.message.length ≤ maxDatagram

/-- The buffer was filled from the reply of some server to the client. -/
def State.Fills (s : State Name Client) (client : Client) (reply : Reply)
    (buffer : ResponseStruct) : Prop :=
  (∃ name, s.Answers client name reply) ∧ ∃ heap, buffer = receiveBytes reply.message heap

structure Invariant (s : State Name Client) : Prop where
  registered : ∀ name, ∀ sv ∈ s.services name,
    sv.port ≠ 0 ∧ sv.service ≠ [] ∧ sv.ipv6.length ≤ 255
  broadcasts : ∀ client datagram, .broadcast client datagram ∈ s.sent →
    ∃ message : Wire.QueryMessage, s.asked client = some message.queries ∧
      datagram = message.encode ∧ datagram.length ≤ maxDatagram
  responses : ∀ client datagram, .response client datagram ∈ s.sent →
    ∃ name reply, s.Answers client name reply ∧ reply.message = datagram
  received : ∀ client, ∃ replies, List.Forall₂ (s.Fills client) replies (s.received client)

/-! ## The invariant -/

/-- Nothing that was asked or registered is forgotten. -/
structure Grows (s s' : State Name Client) : Prop where
  asked : ∀ client queries, s.asked client = some queries → s'.asked client = some queries
  services : ∀ name, s.services name <+: s'.services name

theorem State.Answers.grow {s s' : State Name Client} {client : Client} {name : Name}
    {reply : Reply} (hgrows : Grows s s') (hanswers : s.Answers client name reply) :
    s'.Answers client name reply := by
  obtain ⟨⟨queries, hasked, hquery⟩, hregistered, hanswerable, hlength⟩ := hanswers
  exact ⟨⟨queries, hgrows.asked client queries hasked, hquery⟩,
    hregistered.trans (hgrows.services name), hanswerable, hlength⟩

namespace Invariant

variable {s s' : State Name Client}

/-- What was sent and received before a step stays explained behind it. -/
theorem grow (hs : Invariant s) (hgrows : Grows s s') :
    (∀ client datagram, .broadcast client datagram ∈ s.sent →
      ∃ message : Wire.QueryMessage, s'.asked client = some message.queries ∧
        datagram = message.encode ∧ datagram.length ≤ maxDatagram) ∧
    (∀ client datagram, .response client datagram ∈ s.sent →
      ∃ name reply, s'.Answers client name reply ∧ reply.message = datagram) ∧
    ∀ client, ∃ replies, List.Forall₂ (s'.Fills client) replies (s.received client) := by
  refine ⟨?_, ?_, ?_⟩
  · intro client datagram hmem
    obtain ⟨message, hasked, hdatagram⟩ := hs.broadcasts client datagram hmem
    exact ⟨message, hgrows.asked client _ hasked, hdatagram⟩
  · intro client datagram hmem
    obtain ⟨name, reply, hanswers, hmessage⟩ := hs.responses client datagram hmem
    exact ⟨name, reply, hanswers.grow hgrows, hmessage⟩
  · intro client
    obtain ⟨replies, hreplies⟩ := hs.received client
    refine ⟨replies, hreplies.imp ?_⟩
    rintro reply buffer ⟨⟨name, hanswers⟩, hbuffer⟩
    exact ⟨⟨name, hanswers.grow hgrows⟩, hbuffer⟩

variable [DecidableEq Name] [DecidableEq Client]

omit [DecidableEq Client] in
theorem register (hs : Invariant s) (name : Name) {services : List NYSDService}
    (hkept : s.services name <+: services) (hregistered : ∀ sv ∈ services,
      sv.port ≠ 0 ∧ sv.service ≠ [] ∧ sv.ipv6.length ≤ 255) :
    Invariant { s with services := Function.update s.services name services } := by
  have hgrows : Grows s { s with services := Function.update s.services name services } := by
    refine ⟨fun _ _ => id, ?_⟩
    intro other
    by_cases hother : other = name
    · subst hother
      simpa using hkept
    · simp [hother]
  obtain ⟨hbroadcasts, hresponses, hreceived⟩ := hs.grow hgrows
  refine ⟨?_, hbroadcasts, hresponses, hreceived⟩
  intro other
  by_cases hother : other = name
  · subst hother
    dsimp only
    rw [Function.update_self]
    exact hregistered
  · dsimp only
    rw [Function.update_of_ne hother]
    exact hs.registered other

omit [DecidableEq Name] in
theorem ask (hs : Invariant s) {client : Client} {host : BBEndianness} {queries : List NYSDQuery}
    {msg : Bytes} (hnone : s.asked client = none) (hcompose : composeQuery host queries = .ok msg)
    (hfilter : ∀ query ∈ queries, query.filter.length ≤ 255) {sent : List (Packet Client)}
    (hsent : ∀ packet ∈ sent, packet = .broadcast client msg ∧ msg.length ≤ maxDatagram) :
    Invariant { s with asked := Function.update s.asked client (some queries)
                       sent := s.sent ++ sent } := by
  have hgrows : Grows s { s with asked := Function.update s.asked client (some queries)
                                 sent := s.sent ++ sent } := by
    refine ⟨?_, fun _ => List.prefix_refl _⟩
    intro other before hasked
    have hother : other ≠ client := by
      rintro rfl
      rw [hnone] at hasked
      cases hasked
    simpa [hother] using hasked
  obtain ⟨hbroadcasts, hresponses, hreceived⟩ := hs.grow hgrows
  refine ⟨hs.registered, ?_, ?_, hreceived⟩
  · intro other datagram hmem
    rcases List.mem_append.mp hmem with hold | hnew
    · exact hbroadcasts other datagram hold
    · obtain ⟨hpacket, hlength⟩ := hsent _ hnew
      obtain ⟨rfl, rfl⟩ := Packet.broadcast.inj hpacket
      obtain ⟨message, rfl, hmessage⟩ := exists_queryMessage hcompose hfilter hlength
      exact ⟨message, Function.update_self _ _ _, hmessage, hlength⟩
  · intro other datagram hmem
    rcases List.mem_append.mp hmem with hold | hnew
    · exact hresponses other datagram hold
    · exact absurd (hsent _ hnew).1 (by simp)

omit [DecidableEq Name] [DecidableEq Client] in
theorem deliver (hs : Invariant s) {client : Client} {datagram : Bytes} {name : Name}
    {found : Surroundings} (hmem : .broadcast client datagram ∈ s.sent)
    (haddresses : ∀ sv ∈ s.services name,
      sv.ipv4 ≠ 0 ∨ LookupSucceeds (found.server (s.services name)) found.sender)
    {msgs : List Bytes} (hmsgs : ∀ msg ∈ msgs, msg.length ≤ maxDatagram ∧
      msg ∈ (clientHandler (found.server (s.services name)) found.sender datagram
        found.buffer).sent) (stopped : Name → Bool) :
    Invariant { s with sent := s.sent ++ msgs.map (.response client), stopped := stopped } := by
  have hgrows : Grows s { s with
      sent := s.sent ++ msgs.map (.response client), stopped := stopped } :=
    ⟨fun _ _ => id, fun _ => List.prefix_refl _⟩
  obtain ⟨hbroadcasts, hresponses, hreceived⟩ := hs.grow hgrows
  refine ⟨hs.registered, ?_, ?_, hreceived⟩
  · intro other datagram hpacket
    rcases List.mem_append.mp hpacket with hold | hnew
    · exact hbroadcasts other datagram hold
    · obtain ⟨msg, -, heq⟩ := List.mem_map.mp hnew
      cases heq
  · intro other msg hpacket
    rcases List.mem_append.mp hpacket with hold | hnew
    · exact hresponses other msg hold
    obtain ⟨msg', hmsg, heq⟩ := List.mem_map.mp hnew
    obtain ⟨rfl, rfl⟩ := Packet.response.inj heq
    obtain ⟨hlength, hsent⟩ := hmsgs msg' hmsg
    obtain ⟨message, hasked, rfl, hdatagram⟩ := hs.broadcasts client datagram hmem
    obtain ⟨query, hquery, rfl⟩ := exists_query_of_mem_sent _ _ hdatagram hsent
    refine ⟨name, ⟨found.server (s.services name), found.sender, query.filter⟩,
      ⟨⟨_, hasked, query, hquery, rfl⟩, List.prefix_refl _, ?_, hlength⟩, rfl⟩
    exact Reply.answerable fun sv hsv => ⟨(hs.registered name sv hsv).2.2, haddresses sv hsv⟩

omit [DecidableEq Name] in
theorem receive (hs : Invariant s) {client : Client} {datagram : Bytes}
    (hmem : .response client datagram ∈ s.sent) (heap : Nat → UInt8) {buffers : List ResponseStruct}
    (hbuffers : s.received client ++ [receiveBytes datagram heap] = buffers) :
    Invariant { s with received := Function.update s.received client buffers } := by
  have hgrows : Grows s { s with received := Function.update s.received client buffers } :=
    ⟨fun _ _ => id, fun _ => List.prefix_refl _⟩
  obtain ⟨hbroadcasts, hresponses, hreceived⟩ := hs.grow hgrows
  refine ⟨hs.registered, hbroadcasts, hresponses, ?_⟩
  intro other
  by_cases hother : other = client
  · subst hother
    obtain ⟨replies, hreplies⟩ := hreceived other
    obtain ⟨name, reply, hanswers, rfl⟩ := hresponses other datagram hmem
    -- the new buffer is filled from the reply that explains its datagram
    have hall := List.rel_append hreplies (.cons ⟨⟨name, hanswers⟩, heap, rfl⟩ .nil)
    dsimp only at hall ⊢
    rw [Function.update_self]
    exact ⟨replies ++ [reply], hbuffers ▸ hall⟩
  · dsimp only
    rw [Function.update_of_ne hother]
    exact hreceived other

theorem step (hs : Invariant s) {e : Event Name Client} (horderly : Orderly s e)
    (hstep : s.Step e s') : Invariant s' := by
  cases hstep with
  | @register name call hup =>
      rw [addService_eq]
      split
      · rename_i haccepted
        apply hs.register name (List.prefix_append _ _)
        intro sv hmem
        rcases List.mem_append.mp hmem with hold | hnew
        · exact hs.registered name sv hold
        · rw [List.mem_singleton.mp hnew, Registration.record_eq]
          exact ⟨haccepted.1, haccepted.2, horderly⟩
      · exact hs.register name (List.prefix_refl _) (hs.registered name)
  | ask hnone hcompose =>
      apply hs.ask hnone hcompose horderly
      intro packet hpacket
      split at hpacket
      · rename_i hlength
        exact ⟨List.mem_singleton.mp hpacket, hlength⟩
      · cases hpacket
  | deliver hmem hsent stopped =>
      apply hs.deliver hmem horderly
      intro msg hmsg
      -- what is sent is the front of what the handler composed, up to what cannot be sent
      rw [← hsent] at hmsg
      have hlength := List.mem_takeWhile_imp hmsg
      exact ⟨of_decide_eq_true hlength, (List.takeWhile_sublist _).subset hmsg⟩
  | receive heap hmem => exact hs.receive hmem heap rfl

end Invariant

/-! ## What is found -/

section

variable [DecidableEq Name] [DecidableEq Client] {s s' : State Name Client}

theorem initial_invariant : Invariant (discovery Name Client).initial where
  registered _ _ hmem := absurd hmem List.not_mem_nil
  broadcasts _ _ hmem := absurd hmem List.not_mem_nil
  responses _ _ hmem := absurd hmem List.not_mem_nil
  received _ := ⟨[], .nil⟩

theorem reachable_invariant (hreach : (discovery Name Client).Reachable Orderly s) :
    Invariant s :=
  hreach.invariant initial_invariant fun _ _ _ hs horderly hnext =>
    hs.step horderly (step_of_discovery hnext)

omit [DecidableEq Name] [DecidableEq Client] in
theorem State.Fills.arrives {client : Client} {reply : Reply} {buffer : ResponseStruct}
    (hfills : s.Fills client reply buffer) : reply.Arrives buffer := by
  obtain ⟨⟨name, hanswers⟩, hfilled⟩ := hfills
  exact ⟨hanswers.answerable, hanswers.length_le, hfilled⟩

omit [DecidableEq Name] [DecidableEq Client] in
/-- A record of a reply describes a service that its server has and that was asked for. -/
theorem State.Answers.exists_record {client : Client} {name : Name} {reply : Reply}
    (hanswers : s.Answers client name reply) {sv : NYSDService} (hmem : sv ∈ reply.records) :
    ∃ queries, s.asked client = some queries ∧ ∃ query ∈ queries, ∃ record ∈ s.services name,
      PassesName query.filter record ∧ FoundAs record sv := by
  obtain ⟨⟨queries, hasked, query, hquery, hfilter⟩, hregistered, -, -⟩ := hanswers
  obtain ⟨record, hselected, hfilled⟩ := List.mem_filterMap.mp hmem
  obtain ⟨hrecord, hpasses⟩ := Reply.mem_of_mem_selected hselected
  refine ⟨queries, hasked, query, hquery, record, hregistered.subset hrecord, ?_,
    foundAs_of_filledIn hfilled⟩
  rw [hfilter]
  exact hpasses

/-- In every orderly run (IPv6 strings and filters fit their length bytes, and servers know
addresses for what they answer with) a call of `sendQuery` ends up with the records of the
replies it received, in their order, up to the first that was cut off, and fails exactly if
there is one. So everything it finds was registered with some server, with a port and a name,
passes one of its own filters and is given as registered, but for an address its server had to
look up. -/
theorem finds_what_is_registered (hreach : (discovery Name Client).Reachable Orderly s)
    (client : Client) (host : BBEndianness) :
    (∃ replies, List.Forall₂ (s.Fills client) replies (s.received client) ∧
      s.result client host = (replies.all fun reply => reply.Fits,
        (replies.takeWhile fun reply => reply.Fits).flatMap Reply.records)) ∧
    ∀ sv ∈ (s.result client host).2, sv.port ≠ 0 ∧ sv.service ≠ [] ∧
      ∃ queries, s.asked client = some queries ∧ ∃ query ∈ queries,
        ∃ name, ∃ record ∈ s.services name, PassesName query.filter record ∧
          FoundAs record sv := by
  have hs := reachable_invariant hreach
  obtain ⟨replies, hreplies⟩ := hs.received client
  have hresult : s.result client host = _ :=
    parseResponses_replies host [] (hreplies.imp fun _ _ => State.Fills.arrives)
  refine ⟨⟨replies, hreplies, hresult⟩, ?_⟩
  intro sv hmem
  rw [hresult] at hmem
  obtain ⟨reply, hreply, hrecords⟩ := List.mem_flatMap.mp hmem
  obtain ⟨hanswered, -⟩ := (List.forall₂_and_left _ _).mp hreplies
  obtain ⟨name, hanswers⟩ := hanswered reply ((List.takeWhile_sublist _).subset hreply)
  obtain ⟨queries, hasked, query, hquery, record, hrecord, hpasses, hfound⟩ :=
    hanswers.exists_record hrecords
  obtain ⟨hport, hname, -⟩ := hs.registered name record hrecord
  have hsvport : sv.port = record.port := by rw [hfound.1]
  have hsvname : sv.service = record.service := by rw [hfound.1]
  refine ⟨hsvport ▸ hport, hsvname ▸ hname, queries, hasked, query, hquery, name, record, ?_⟩
  exact ⟨hrecord, hpasses, hfound⟩

/-! ## What is heard -/

theorem sent_subset_of_step {e : Event Name Client} (hstep : s.Step e s') : s.sent ⊆ s'.sent := by
  cases hstep with
  | register => exact List.Subset.refl _
  | ask => exact List.subset_append_left _ _
  | deliver => exact List.subset_append_left _ _
  | receive => exact List.Subset.refl _

theorem sent_subset (hleads : Relation.ReflTransGen ((discovery Name Client).Leads Orderly) s s') :
    s.sent ⊆ s'.sent := by
  induction hleads with
  | refl => exact List.Subset.refl _
  | tail _ hlast ih =>
      obtain ⟨e, -, hnext⟩ := hlast
      exact List.Subset.trans ih (sent_subset_of_step (step_of_discovery hnext))

/-- A server that hears a broadcast whole sends the responses to its queries, if all of them
can be sent. -/
theorem deliver_broadcast {client : Client} (message : Wire.QueryMessage) {name : Name}
    (found : Surroundings) (hsent : .broadcast client message.encode ∈ s.sent)
    (hsize : message.encode.length ≤ receiveSize) (hup : s.stopped name = false)
    (hlengths : ∀ query ∈ message.queries,
      (respond (found.server (s.services name)) found.sender query.filter).length ≤ maxDatagram) :
    (discovery Name Client).step s (.deliver client message.encode name found) = some { s with
      sent := s.sent ++ message.queries.map fun query => .response client
        (respond (found.server (s.services name)) found.sender query.filter) } := by
  have hall : ∀ msg ∈ message.queries.map fun query =>
      respond (found.server (s.services name)) found.sender query.filter,
        decide (msg.length ≤ maxDatagram) := by
    intro msg hmem
    obtain ⟨query, hquery, rfl⟩ := List.mem_map.mp hmem
    exact decide_eq_true (hlengths query hquery)
  have hstopped : Function.update s.stopped name false = s.stopped := by
    rw [← hup, Function.update_eq_self]
  simp only [discovery]
  rw [if_pos ⟨hsent, hup⟩, sent_broadcast _ _ message found.buffer hsize,
    List.takeWhile_eq_self_iff.mpr hall]
  simp [hstopped, Function.comp_def]

/-- A response that is received whole after others that were adds its records to what they
brought. -/
theorem result_receive (hs : Invariant s) {client : Client} {reply : Reply}
    (hsent : .response client reply.message ∈ s.sent) (hanswerable : reply.Answerable)
    (hfits : reply.Fits) (heap : Nat → UInt8) (host : BBEndianness)
    (hsuccess : (s.result client host).1 = true) :
    ∃ s', (discovery Name Client).step s (.receive client reply.message heap) = some s' ∧
      s'.result client host = (true, (s.result client host).2 ++ reply.records) := by
  obtain ⟨replies, hfills⟩ := hs.received client
  have harrives := hfills.imp fun _ _ => State.Fills.arrives
  have hreply : reply.Arrives (receiveBytes reply.message heap) :=
    ⟨hanswerable, hfits.trans (by decide), heap, rfl⟩
  have hbefore : s.result client host = _ := parseResponses_replies host [] harrives
  rw [hbefore] at hsuccess
  have hwhole : ∀ other ∈ replies ++ [reply], decide other.Fits = true := by
    intro other hmem
    rcases List.mem_append.mp hmem with hold | hnew
    · exact List.all_eq_true.mp hsuccess other hold
    · rw [List.mem_singleton.mp hnew]
      exact decide_eq_true hfits
  refine ⟨_, if_pos hsent, ?_⟩
  rw [hbefore, State.result]
  dsimp only
  rw [Function.update_self,
    parseResponses_replies host [] (List.rel_append harrives (.cons hreply .nil)),
    List.all_eq_true.mpr hwhole, List.takeWhile_eq_self_iff.mpr hwhole,
    List.takeWhile_eq_self_iff.mpr (List.all_eq_true.mp hsuccess)]
  simp

/-- When a server hears a query whole in an orderly run, knows addresses for what it has and
has responses that fit, it goes on and answers every query of it. However the run continues in
an orderly way, a client that has lost nothing so far and receives one of these responses
finds, in addition, all services that the server had for that query when it heard it. -/
theorem finds_what_is_heard (hreach : (discovery Name Client).Reachable Orderly s)
    {client : Client} {datagram : Bytes} {queries : List NYSDQuery} {name : Name}
    {found : Surroundings} (hasked : s.asked client = some queries)
    (hsent : .broadcast client datagram ∈ s.sent) (hsize : datagram.length ≤ receiveSize)
    (hup : s.stopped name = false) (horderly : Orderly s (.deliver client datagram name found))
    (hlengths : ∀ query ∈ queries,
      (respond (found.server (s.services name)) found.sender query.filter).length ≤ receiveSize) :
    ∃ s', (discovery Name Client).step s (.deliver client datagram name found) = some s' ∧
      s'.stopped name = false ∧
      ∀ query ∈ queries, ∀ later,
        Relation.ReflTransGen ((discovery Name Client).Leads Orderly) s' later →
        ∀ heap host, (later.result client host).1 = true →
          ∃ last, (discovery Name Client).step later (.receive client
              (respond (found.server (s.services name)) found.sender query.filter) heap) =
                some last ∧
            last.result client host = (true, (later.result client host).2 ++
              (selected (found.server (s.services name)) query.filter).filterMap
                (filledIn (found.server (s.services name)) found.sender)) := by
  have hs := reachable_invariant hreach
  obtain ⟨message, hmessage, rfl, -⟩ := hs.broadcasts client datagram hsent
  obtain rfl := Option.some.inj (hasked.symm.trans hmessage)
  have hstep := deliver_broadcast message found hsent hsize hup fun query hquery =>
    (hlengths query hquery).trans (by decide)
  refine ⟨_, hstep, hup, ?_⟩
  intro query hquery later hleads heap host hsuccess
  -- the response stays in flight however the run goes on, with the services of that moment
  have hlater := (Machine.Reachable.step hreach horderly hstep).trans hleads
  let reply : Reply := ⟨found.server (s.services name), found.sender, query.filter⟩
  have hanswerable : reply.Answerable := Reply.answerable fun sv hsv =>
    ⟨(hs.registered name sv hsv).2.2, horderly sv hsv⟩
  have hresponse : .response client reply.message ∈ later.sent := by
    apply sent_subset hleads
    exact List.mem_append_right _ (List.mem_map.mpr ⟨query, hquery, rfl⟩)
  exact result_receive (reachable_invariant hlater) hresponse hanswerable
    (hlengths query hquery) heap host hsuccess

end

/-- Two clients ask for everything and two servers hear one of them. -/
def oneHeard : List (Event Bool Bool) :=
  let everything : List NYSDQuery := [⟨.all, []⟩]
  [.register true ⟨printer, []⟩, .ask true .le everything, .ask false .be everything,
    .deliver true (Wire.broadcast everything) true surroundings,
    .deliver true (Wire.broadcast everything) false surroundings]

/-- The client that was heard receives both responses, one of them twice. -/
def oneAnswered : List (Event Bool Bool) :=
  oneHeard ++ [.receive true (Wire.response [printer]) fun _ => 0,
    .receive true (Wire.response []) fun _ => 0,
    .receive true (Wire.response [printer]) fun _ => 0]

theorem finds_what_is_registered_oneAnswered :
    ∃ s, (discovery Bool Bool).run Orderly {} oneAnswered = some s ∧
      (s.result true .le).2 = [printer, printer] ∧
      ∀ sv ∈ (s.result true .le).2, sv.port ≠ 0 ∧ sv.service ≠ [] := by
  have hruns : ((discovery Bool Bool).run Orderly {} oneAnswered).map
      (fun s => (s.result true .le).2) = some [printer, printer] := by
    decide
  obtain ⟨s, hrun, hresult⟩ := Option.map_eq_some_iff.mp hruns
  refine ⟨s, hrun, hresult, ?_⟩
  intro sv hmem
  have hfound := (finds_what_is_registered (Machine.reachable_of_run oneAnswered hrun) true .le).2
  obtain ⟨hport, hname, -⟩ := hfound sv hmem
  exact ⟨hport, hname⟩

theorem finds_what_is_heard_oneHeard :
    ∃ s s' last, (discovery Bool Bool).run Orderly {} (oneHeard.take 3) = some s ∧
      (discovery Bool Bool).step s (.deliver true (Wire.broadcast [⟨.all, []⟩]) true
        surroundings) = some s' ∧
      (discovery Bool Bool).step s' (.receive true (Wire.response [printer]) fun _ => 0) =
        some last ∧
      last.result true .le = (true, [printer]) := by
  have hruns : ((discovery Bool Bool).run Orderly {} (oneHeard.take 3)).map
      (fun s => (s.asked true, s.services true, s.stopped true)) =
        some (some [⟨.all, []⟩], [printer], false) := by
    decide
  have hsends : ∀ s ∈ (discovery Bool Bool).run Orderly {} (oneHeard.take 3),
      .broadcast true (Wire.broadcast [⟨.all, []⟩]) ∈ s.sent := by
    decide
  obtain ⟨s, hrun, hs⟩ := Option.map_eq_some_iff.mp hruns
  simp only [Prod.mk.injEq] at hs
  obtain ⟨hasked, hservices, hup⟩ := hs
  have hresponse : respond (surroundings.server (s.services true)) surroundings.sender [] =
      Wire.response [printer] := by
    rw [hservices]
    decide
  have hrecords : (selected (surroundings.server (s.services true)) []).filterMap
      (filledIn (surroundings.server (s.services true)) surroundings.sender) = [printer] := by
    rw [hservices]
    decide
  have horderly : Orderly s (.deliver true (Wire.broadcast [⟨.all, []⟩]) true surroundings) := by
    intro sv hmem
    rw [hservices] at hmem
    rw [List.mem_singleton.mp hmem]
    exact .inl (by decide)
  obtain ⟨s', hstep, -, hfinds⟩ := finds_what_is_heard (Machine.reachable_of_run _ hrun) hasked
    (hsends s hrun) (by decide) hup horderly fun query hquery => by
      rw [List.mem_singleton.mp hquery, hresponse]
      decide
  have hresult : (((discovery Bool Bool).run Orderly {} (oneHeard.take 3)).bind fun s =>
      (discovery Bool Bool).step s (.deliver true (Wire.broadcast [⟨.all, []⟩]) true
        surroundings)).map (fun s => s.result true .le) = some (true, []) := by
    decide
  rw [hrun, Option.bind_some, hstep, Option.map_some, Option.some.injEq] at hresult
  obtain ⟨last, hreceive, hlast⟩ := hfinds ⟨.all, []⟩ (List.mem_singleton.mpr rfl) s' .refl
    (fun _ => 0) .le (congrArg Prod.fst hresult)
  rw [hresponse] at hreceive
  rw [hrecords, hresult] at hlast
  exact ⟨s, s', last, hrun, hstep, hreceive, hlast⟩

end Discovery

end NyanSD
