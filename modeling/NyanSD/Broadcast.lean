import NyanSD.Blanks
import NyanSD.Discovery
import NyanSD.LocalNetwork

/-!
# Asking on every interface

A query is composed once and sent on one interface after another, each time to the address
that ends in 255 on the network of the first IPv4 address. An interface without such an
address, or on which sending fails, is passed over. What is heard on each is read when all
have been asked.
-/

namespace NyanSD

open StdString

/-! ## The loop over the interfaces -/

/-- What the socket library makes of addresses: every IPv4 address is one that is compatible,
and a dotted quad is a host. -/
structure Sockets where
  isIPv4Compatible : IPAddress → Bool
  socketAddress : Bytes → UInt16 → Except StdException SocketAddress
  compatible (a b c d : UInt8) : isIPv4Compatible (.ipv4 a b c d) = true
  parses (a b c d : UInt8) (port : UInt16) :
    socketAddress (dottedQuad a b c d) port = .ok (.ipv4 a b c d port)

/-- What one call of `receiveBytes` gets: a datagram, in memory that held something before, or
an exception. -/
abbrev Reception := Option (Bytes × (Nat → UInt8))

/-- An interface, and what happens on it: whether `sendTo` returns, and what is received
until nothing more comes. -/
structure Interface extends NetworkInterface where
  supportsIPv4 : Bool := true
  sendTo : SocketAddress → Bytes → Bool := fun _ _ => true
  receptions : SocketAddress → Bytes → List Reception

/-- `firstAddress(IPv4)`; `none` is an exception. -/
def firstAddress : List IPAddress → Option IPAddress
  | [] => none
  | .ipv4 a b c d :: _ => some (.ipv4 a b c d)
  | .ipv6 _ :: rest => firstAddress rest

/-- The loop around `select`. -/
def listen : List Reception → List ResponseStruct → List ResponseStruct
  | [], buffers => buffers
  | none :: rest, buffers => listen rest buffers
  | some (datagram, heap) :: rest, buffers => listen rest (buffers ++ [receiveBytes datagram heap])

/-- `sent` is bookkeeping: the datagrams that were sent. -/
structure Exchange where
  sent : List (SocketAddress × Bytes) := []
  buffers : List ResponseStruct := []

section Loop

variable (sockets : Sockets) (port : UInt16) (msg : Bytes)

/-- One turn of the loop over the interfaces. -/
def Exchange.on (s : Exchange) (ifc : Interface) : Except StdException Exchange :=
  if ifc.supportsIPv4 = false then .ok s
  else
    match firstAddress ifc.addressList with
    | none => .ok s
    | some ip =>
        if sockets.isIPv4Compatible ip = false then .ok s
        else do
          let ipStr := ip.toString
          let ipStr ← replace ipStr (advance (findLastOf ipStr dot) 1) 3 (ascii ['2', '5', '5'])
          let sa ← sockets.socketAddress ipStr port
          return if ifc.sendTo sa msg then
            { sent := s.sent ++ [(sa, msg)], buffers := listen (ifc.receptions sa msg) s.buffers }
          else s

/-- The loop over the interfaces, in the order of their indices. -/
def exchange : List Interface → Exchange → Except StdException Exchange
  | [], s => .ok s
  | ifc :: rest, s => do exchange rest (← s.on sockets port msg ifc)

/-- `sendQuery`, with all that it does between composing and parsing. -/
def sendQueryOn (host : BBEndianness) (interfaces : List Interface) (queries : List NYSDQuery)
    (responses : List NYSDService) : Except StdException (Bool × List NYSDService) :=
  match composeQuery host queries with
  | .error _ => .ok (false, responses)
  | .ok msg => do
      let s ← exchange sockets port msg interfaces {}
      return parseResponses host s.buffers responses

end Loop

/-! ## Where a query goes and what is heard -/

/-- The address that a query is broadcast to, if the interface has an IPv4 address. -/
def Interface.broadcastAddress (port : UInt16) (ifc : Interface) : Option SocketAddress :=
  match ifc.supportsIPv4, firstAddress ifc.addressList with
  | true, some (.ipv4 a b c _) => some (.ipv4 a b c 255 port)
  | _, _ => none

/-- What is sent on the interface: the message once, or nothing. -/
def Interface.sent (port : UInt16) (msg : Bytes) (ifc : Interface) : List (SocketAddress × Bytes) :=
  match ifc.broadcastAddress port with
  | none => []
  | some sa => if ifc.sendTo sa msg then [(sa, msg)] else []

/-- What is heard on the interface: all datagrams that could be received. -/
def Interface.heard (port : UInt16) (msg : Bytes) (ifc : Interface) : List ResponseStruct :=
  match ifc.broadcastAddress port with
  | none => []
  | some sa =>
      if ifc.sendTo sa msg then
        (ifc.receptions sa msg).filterMap fun reception =>
          reception.map fun (datagram, heap) => receiveBytes datagram heap
      else []

theorem listen_eq (receptions : List Reception) (buffers : List ResponseStruct) :
    listen receptions buffers = buffers ++ receptions.filterMap fun reception =>
      reception.map fun (datagram, heap) => receiveBytes datagram heap := by
  induction receptions generalizing buffers with
  | nil => simp [listen]
  | cons reception rest ih =>
      cases reception with
      | none => simp [listen, ih]
      | some received =>
          obtain ⟨datagram, heap⟩ := received
          simp [listen, ih]

theorem firstAddress_eq_some {addresses : List IPAddress} {ip : IPAddress}
    (hfirst : firstAddress addresses = some ip) : ∃ a b c d, ip = .ipv4 a b c d := by
  induction addresses with
  | nil => cases hfirst
  | cons address rest ih =>
      cases address with
      | ipv4 a b c d => exact ⟨a, b, c, d, (Option.some.inj hfirst).symm⟩
      | ipv6 text => exact ih hfirst

/-- Whatever the width of the last octet, 255 takes its place. -/
theorem replace_lastOctet (a b c d : UInt8) :
    replace (dottedQuad a b c d) (advance (findLastOf (dottedQuad a b c d) dot) 1) 3
        (ascii ['2', '5', '5']) = .ok (dottedQuad a b c 255) := by
  have hquad : dottedQuad a b c d = (decimal a.toNat ++ dot :: (decimal b.toNat ++ dot ::
      decimal c.toNat)) ++ dot :: decimal d.toNat := by
    simp [dottedQuad]
  have hnetwork : (networkText a b c).length = (decimal a.toNat ++ dot :: (decimal b.toNat ++ dot ::
      decimal c.toNat)).length + 1 := by
    simp [networkText]
    omega
  have hlength := length_dottedQuad_le a b c d
  have hlast : advance (findLastOf (dottedQuad a b c d) dot) 1 = (networkText a b c).length := by
    rw [hquad, List.length_append] at hlength
    rw [hquad, findLastOf_separator _ (dot_not_mem_decimal _), hnetwork, advance,
      Nat.mod_eq_of_lt (by omega)]
  have hoctet : (decimal d.toNat).length ≤ 3 :=
    length_decimal_le (by decide) (Nat.lt_trans d.toNat_lt (by decide))
  rw [hlast, dottedQuad_eq, dottedQuad_eq, replace_end _ hoctet]
  rfl

section Loop

variable (sockets : Sockets) (port : UInt16) (msg : Bytes)

theorem Exchange.on_eq (s : Exchange) (ifc : Interface) :
    s.on sockets port msg ifc =
      .ok { sent := s.sent ++ ifc.sent port msg, buffers := s.buffers ++ ifc.heard port msg } := by
  rw [Exchange.on, Interface.sent, Interface.heard, Interface.broadcastAddress]
  cases hsupports : ifc.supportsIPv4 with
  | false => simp
  | true =>
      cases hfirst : firstAddress ifc.addressList with
      | none => simp
      | some ip =>
          obtain ⟨a, b, c, d, rfl⟩ := firstAddress_eq_some hfirst
          simp only [sockets.compatible, IPAddress.toString, replace_lastOctet, Bool.true_eq_false,
            if_false]
          dsimp only [bind, Except.bind, pure, Except.pure]
          rw [sockets.parses a b c 255 port]
          dsimp only
          split
          · rw [listen_eq]
          · simp

/-- The loop over the interfaces comes to its end, whatever happens on them. -/
theorem exchange_eq (interfaces : List Interface) (s : Exchange) :
    exchange sockets port msg interfaces s =
      .ok { sent := s.sent ++ interfaces.flatMap (Interface.sent port msg)
            buffers := s.buffers ++ interfaces.flatMap (Interface.heard port msg) } := by
  induction interfaces generalizing s with
  | nil => simp [exchange]
  | cons ifc rest ih =>
      rw [exchange, Exchange.on_eq]
      apply (ih _).trans
      simp

end Loop

/-- A query is sent once on every interface with an IPv4 address, to the address that ends in
255 there, and no interface keeps it from the others: sending and receiving may fail on any
of them. What comes of it is what the datagrams say, interface by interface. -/
theorem sendQueryOn_eq (sockets : Sockets) (port : UInt16) (host : BBEndianness)
    (interfaces : List Interface) (queries : List NYSDQuery) (responses : List NYSDService) :
    (∀ msg, exchange sockets port msg interfaces {} =
      .ok { sent := interfaces.flatMap (Interface.sent port msg)
            buffers := interfaces.flatMap (Interface.heard port msg) }) ∧
    sendQueryOn sockets port host interfaces queries responses =
      .ok (sendQuery host (fun msg => interfaces.flatMap (Interface.heard port msg)) queries
        responses) := by
  refine ⟨fun msg => exchange_eq sockets port msg interfaces {}, ?_⟩
  rw [sendQueryOn, sendQuery]
  cases composeQuery host queries with
  | error e => rfl
  | ok msg =>
      dsimp only
      rw [exchange_eq]
      rfl

/-! ## The servers on a network -/

/-- An interface of a client with the servers that a broadcast on it reaches: each has an
address on the network of the client's. -/
structure Lan where
  addressList : List IPAddress
  a : UInt8
  b : UInt8
  c : UInt8
  d : UInt8
  first : firstAddress addressList = some (.ipv4 a b c d)
  servers : List Server
  near : ∀ server ∈ servers, ∃ ifc ∈ server.interfaces, ifc.OnNetwork a b c
  prints : ∀ server ∈ servers, ∀ ifc ∈ server.interfaces, ∀ ip ∈ ifc.addressList, ip.PrintsAsKnown
  short : ∀ server ∈ servers, ∀ sv ∈ server.services, sv.ipv6.length ≤ 255

namespace Lan

/-- The client as the servers see it. -/
def client (own : UInt16) (lan : Lan) : SocketAddress := .ipv4 lan.a lan.b lan.c lan.d own

/-- Every server hears what is sent, and the client receives what they answer. -/
def interface (own : UInt16) (buffer heap : Nat → UInt8) (lan : Lan) : Interface where
  addressList := lan.addressList
  receptions _ msg := lan.servers.flatMap fun server =>
    (clientHandler server (lan.client own) msg buffer).sent.map fun answer => some (answer, heap)

theorem lookupSucceeds (lan : Lan) (own : UInt16) {server : Server}
    (hserver : server ∈ lan.servers) : LookupSucceeds server (lan.client own) := by
  obtain ⟨ifc, hifc, hnear⟩ := lan.near server hserver
  rcases remoteToLocalIP_cases server.host lan.a lan.b lan.c lan.d own server.uninitialised []
    (lan.prints server hserver) with ⟨-, hnone⟩ | ⟨x, y, z, w, -, hfound⟩
  · exact absurd hnear (hnone ifc hifc)
  · exact ⟨_, [], hfound, Nat.zero_le _⟩

/-- The answers of the servers, in the order in which they are received. -/
def replies (own : UInt16) (queries : List NYSDQuery) (lan : Lan) : List Reply :=
  lan.servers.flatMap fun server => queries.map fun query => ⟨server, lan.client own, query.filter⟩

theorem answerable (lan : Lan) (own : UInt16) {queries : List NYSDQuery} {reply : Reply}
    (hreply : reply ∈ lan.replies own queries) : reply.Answerable := by
  obtain ⟨server, hserver, hmem⟩ := List.mem_flatMap.mp hreply
  obtain ⟨query, -, rfl⟩ := List.mem_map.mp hmem
  apply Reply.answerable
  intro sv hsv
  exact ⟨lan.short server hserver sv hsv, .inr (lan.lookupSucceeds own hserver)⟩

/-- A client hears the answers to its queries, if it asks in a message that arrives whole. -/
theorem heard_interface (lan : Lan) (own port : UInt16) (message : Wire.QueryMessage)
    (buffer heap : Nat → UInt8) (hsize : message.encode.length ≤ receiveSize) :
    (lan.interface own buffer heap).heard port message.encode =
      (lan.replies own message.queries).map fun reply => receiveBytes reply.message heap := by
  -- the broadcast goes to the network of the client's first address, where the servers are
  have haddress : (lan.interface own buffer heap).broadcastAddress port =
      some (.ipv4 lan.a lan.b lan.c 255 port) := by
    simp [Interface.broadcastAddress, interface, lan.first]
  have hsends : (lan.interface own buffer heap).sendTo (.ipv4 lan.a lan.b lan.c 255 port)
      message.encode = true := rfl
  rw [Interface.heard, haddress]
  dsimp only
  rw [if_pos hsends, interface, List.filterMap_flatMap, replies, List.map_flatMap]
  apply List.flatMap_congr
  intro server _
  rw [sent_broadcast server _ message buffer hsize]
  simp [Reply.message, Function.comp_def]

end Lan

/-- A query finds what the servers answer that hear it, network by network. -/
theorem sendQueryOn_lans (sockets : Sockets) (lans : List Lan) (own port : UInt16)
    (host : BBEndianness) {queries : List NYSDQuery} (hpos : 1 ≤ queries.length)
    (hcount : queries.length ≤ 255) (hfilter : ∀ query ∈ queries, query.filter.length ≤ 255)
    (hquery : (Wire.broadcast queries).length ≤ receiveSize)
    (hanswer : ∀ lan ∈ lans, ∀ reply ∈ lan.replies own queries, reply.Fits)
    (buffer heap : Nat → UInt8) :
    sendQueryOn sockets port host (lans.map (Lan.interface own buffer heap)) queries [] =
      .ok (true, lans.flatMap fun lan => (lan.replies own queries).flatMap Reply.records) := by
  have hcompose := composeQuery_eq host hpos hcount hfilter
  obtain ⟨message, rfl, hmessage⟩ := exists_queryMessage hcompose hfilter (hquery.trans (by decide))
  rw [hmessage] at hquery
  have hreplies : ∀ reply ∈ lans.flatMap (Lan.replies own message.queries),
      reply.Answerable ∧ reply.Fits := by
    intro reply hmem
    obtain ⟨lan, hlan, hreply⟩ := List.mem_flatMap.mp hmem
    exact ⟨lan.answerable own hreply, hanswer lan hlan reply hreply⟩
  have hparsed := parseResponses_whole host heap hreplies
  have hheard : (lans.map (Lan.interface own buffer heap)).flatMap
      (Interface.heard port message.encode) =
        (lans.flatMap (Lan.replies own message.queries)).map fun reply =>
          receiveBytes reply.message heap := by
    rw [List.flatMap_map, List.map_flatMap]
    apply List.flatMap_congr
    intro lan _
    exact lan.heard_interface own port message buffer heap hquery
  rw [sendQueryOn, hcompose]
  dsimp only
  rw [hmessage, exchange_eq]
  dsimp only [bind, Except.bind, pure, Except.pure]
  rw [List.nil_append, hheard, hparsed, List.flatMap_assoc]

/-- A query that arrives whole, with answers that do, finds on each network that the client is on
all services there that its filters name: every server that hears it has an address on that
network, and so gives one to every service that has none. -/
theorem finds_every_service (sockets : Sockets) (lans : List Lan) (own port : UInt16)
    (host : BBEndianness) {queries : List NYSDQuery} (hpos : 1 ≤ queries.length)
    (hcount : queries.length ≤ 255) (hfilter : ∀ query ∈ queries, query.filter.length ≤ 255)
    (hquery : (Wire.broadcast queries).length ≤ receiveSize)
    (hanswer : ∀ lan ∈ lans, ∀ reply ∈ lan.replies own queries, reply.Fits)
    (buffer heap : Nat → UInt8) :
    sendQueryOn sockets port host (lans.map (Lan.interface own buffer heap)) queries [] =
        .ok (true, lans.flatMap fun lan => (lan.replies own queries).flatMap Reply.records) ∧
      ∀ lan ∈ lans, ∀ reply ∈ lan.replies own queries,
        List.Forall₂ FoundAs reply.selected reply.records := by
  constructor
  · exact sendQueryOn_lans sockets lans own port host hpos hcount hfilter hquery hanswer buffer heap
  · intro lan hlan reply hreply
    exact (lan.answerable own hreply).forall₂

/-- Addresses that are read as the program reads them. -/
def plainSockets : Sockets where
  isIPv4Compatible
    | .ipv4 .. => true
    | .ipv6 _ => false
  socketAddress text port := do
    match ← parseOctets text 4 0 [] with
    | [a, b, c, d] => return .ipv4 a b c d port
    | _ => throw .invalidArgument
  compatible _ _ _ _ := rfl
  parses a b c d port := by
    rw [parseOctets_dottedQuad]
    rfl

/-- The laptop and a host of its network. -/
def officeLan : Lan where
  addressList := [.ipv6 (ascii [':', ':', '9']), .ipv4 192 168 1 9]
  a := 192
  b := 168
  c := 1
  d := 9
  first := rfl
  servers := [officeServer [printer, addressless]]
  near := by
    intro server hserver
    rw [List.mem_singleton.mp hserver]
    exact ⟨_, List.mem_cons_self, _, List.mem_cons_self, 5, rfl⟩
  prints := by
    intro server hserver ifc hifc ip hip
    rw [List.mem_singleton.mp hserver] at hifc
    rw [List.mem_singleton.mp hifc] at hip
    rw [List.mem_singleton.mp hip]
    trivial
  short := by
    intro server hserver sv hsv
    rw [List.mem_singleton.mp hserver] at hsv
    rcases List.mem_pair.mp hsv with rfl | rfl
    · decide
    · decide

theorem finds_every_service_office :
    sendQueryOn plainSockets 11310 .be
        ([officeLan].map (Lan.interface 4004 (fun _ => 0) fun _ => 0)) [⟨.all, []⟩] [] =
      .ok (true, [printer, { printer with ipv6 := [] }]) := by
  have hfinds := @finds_every_service plainSockets [officeLan] 4004 11310 .be [⟨.all, []⟩]
    (by decide) (by decide) (by decide) (by decide) (by decide) (fun _ => 0) fun _ => 0
  rw [hfinds.1]
  decide

end NyanSD
