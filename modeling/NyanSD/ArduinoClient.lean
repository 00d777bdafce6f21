import NyanSD.Foundation.LinkedHeap
import NyanSD.Client

/-!
# The Arduino client

`NyanSD_client` keeps the datagrams it receives in a linked list and parses them
when it is asked to. It assumes a little-endian target. Memory that `new` and
`malloc` hand out comes from outside and is taken to be unused; dereferencing or
deleting a node that is not there is a fault. Nothing else runs while one of the
three functions does.
-/

namespace NyanSD.Arduino

open Access

abbrev Address := Nat

structure ListNode where
  next : Option Address
  /-- The block `data` points to, and whatever lies behind it. -/
  data : Nat → UInt8
  length : Nat

/-- The bytes the node was allocated for. -/
def ListNode.datagram (node : ListNode) : Bytes :=
  (List.range node.length).map node.data

/-- The static members of `NyanSD_client`, and the live nodes. -/
structure Client where
  heap : Address → Option ListNode := fun _ => none
  response : Option Address := none
  last : Option Address := none
  count : Nat := 0
  received : Bool := false
  port : UInt16 := 0

/-- A pointer that is followed leads to no node. -/
inductive Fault
  | nullPointer
  | freedNode
deriving DecidableEq, Repr

/-- The node behind a pointer. -/
def deref (heap : Address → Option ListNode) :
    Option Address → Except Fault (Address × ListNode)
  | none => .error .nullPointer
  | some address =>
      match heap address with
      | none => .error .freedNode
      | some node => .ok (address, node)

/-! ## Receiving -/

/-- A node for a received datagram, in memory that held `before`. -/
def newNode (datagram : Bytes) (before : Nat → UInt8) : ListNode where
  next := none
  data i := datagram[i]?.getD (before i)
  length := datagram.length

/-- `address` is where `new` puts the node. -/
def udpReceiveCallback (c : Client) (address : Address) (datagram : Bytes)
    (before : Nat → UInt8) (remotePort : UInt16) : Except Fault Client :=
  if remotePort ≠ c.port then .ok c
  else
    let node := newNode datagram before
    let heap := Function.update c.heap address (some node)
    match c.response with
    | none =>
        .ok { c with heap := heap, response := some address, last := some address,
                     count := c.count + 1, received := true }
    | some _ => do
        let (last, lastNode) ← deref heap c.last
        .ok { c with heap := Function.update heap last (some { lastNode with next := some address }),
                     last := some address, count := c.count + 1, received := true }

/-! ## Sending a query -/

/-- The bytes of a C string in front of its terminator. -/
structure CString where
  bytes : Bytes
  nonzero : 0 ∉ bytes

structure Query where
  protocol : NYSDProtocol
  filter : CString
  length : UInt16

/-- The loop over the queries. The length byte is narrowed from the length member,
the filter is appended up to its terminator. -/
def appendQueries : List Query → Bytes → Bytes
  | [], body => body
  | query :: rest, body =>
      let qlen : UInt8 := query.length.toUInt8
      let body := body ++ [Wire.querySignature] ++ [query.protocol.toByte] ++ [qlen]
      appendQueries rest (if 0 < qlen then body ++ query.filter.bytes else body)

/-- The message for the first `qnum` elements of the array. -/
def composeQuery (queries : List Query) (qnum : UInt8) : Bytes :=
  let body := appendQueries (queries.take qnum.toNat) [qnum]
  let len := UInt16.ofNat (body.length + 1)
  Wire.signature ++ objectBytes .le len ++ [NYSDMessageType.broadcast.toByte] ++ body

/-- What a call of `sendQuery` leaves: the return code, and the message it has
handed to the socket. -/
structure QuerySent where
  client : Client
  code : Nat
  msg : Option Bytes

/-- `sent` is what `sendStringTo` returns. The check for more than 255 queries
cannot fail in eight bits. -/
def sendQuery (c : Client) (port : UInt16) (queries : List Query) (qnum : UInt8)
    (sent : Bool) : QuerySent :=
  let c := { c with port := port }
  if 255 < qnum.toNat then ⟨c, 1, none⟩
  else if qnum < 1 then ⟨c, 2, none⟩
  else
    let msg := composeQuery queries qnum
    -- `last` and `received` keep what they were
    let c := { c with response := none, count := 0 }
    if sent then ⟨c, 0, some msg⟩ else ⟨c, 4, some msg⟩

/-! ## Reading responses -/

def parseString (index : Nat) : Access Nat UInt8 (Bytes × Nat) := do
  let len : UInt16 ← load UInt16 .le index
  let text ← span (index + 2) len.toNat
  return (text, index + 2 + len.toNat)

/-- A service section behind its signature. -/
def parseService (index : Nat) : Access Nat UInt8 NYSDService := do
  let ipv4 : UInt32 ← load UInt32 .le index
  let ipv6len ← cell (index + 4)
  let ipv6 ← span (index + 5) ipv6len.toNat
  let (hostname, index) ← parseString (index + 5 + ipv6len.toNat)
  let port : UInt16 ← load UInt16 .le index
  let prot ← cell (index + 2)
  let (svname, _) ← parseString (index + 3)
  return { ipv4 := ipv4, ipv6 := ipv6, port := port, hostname := hostname,
           service := svname, protocol := protocolOfByte prot }

/-- One turn of the loop over the nodes: an error code, or the service taken. The
loop over the sections ends after its first turn. -/
def parseNode (length : Nat) : Access Nat UInt8 (Except Nat (Option NYSDService)) := do
  if length < 8 then return .error 8
  let signature ← span 0 6
  if signature ≠ Wire.signature then return .error 9
  let len : UInt16 ← load UInt16 .le 6
  if length - 8 < len.toNat then return .error 10
  let type ← cell 8
  if type ≠ NYSDMessageType.response.toByte then return .error 11
  let rnum ← cell 9
  if rnum = 0 then return .ok none
  let mark ← cell 10
  if mark ≠ Wire.serviceSignature then return .error 12
  let sv ← parseService 11
  return .ok (some sv)

/-- Where the loop over the nodes ended: how many turns were completed, the error
code if there was one, and the services linked so far. -/
structure NodesRead where
  client : Client
  completed : Nat
  code : Option Nat
  services : List NYSDService

/-- `remaining` turns of the loop. Every completed turn frees its node, and moves
on if there is a next one. -/
def readNodes : Nat → Client → Nat → List NYSDService → Except Fault NodesRead
  | 0, c, completed, services => .ok ⟨c, completed, none, services⟩
  | remaining + 1, c, completed, services => do
      let (old, node) ← deref c.heap c.response
      match (parseNode node.length).run node.data with
      | .error code => .ok ⟨c, completed, some code, services⟩
      | .ok found =>
          -- behind the last node the head goes on pointing to what is freed here
          let response := if node.next.isSome then node.next else c.response
          readNodes remaining
            { c with heap := Function.update c.heap old none, response := response }
            (completed + 1) (services ++ found.toList)

/-- What a call of `getResponses` leaves: the return code, the list it has built,
and `resnum` if it was set. -/
structure ResponsesRead where
  client : Client
  completed : Nat
  code : Nat
  services : List NYSDService
  resnum : Option Nat

def getResponses (c : Client) : Except Fault ResponsesRead :=
  if !c.received then .ok ⟨c, 0, 1, [], none⟩
  else do
    let read ← readNodes c.count c 0 []
    match read.code with
    | some code => .ok ⟨read.client, read.completed, code, read.services, none⟩
    | none => .ok ⟨read.client, read.completed, 0, read.services, some read.services.length⟩

end NyanSD.Arduino
