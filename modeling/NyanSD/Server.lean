import NyanSD.Foundation.Access
import NyanSD.LocalAddress
import NyanSD.Wire

/-!
# Answering broadcasts

The body of the handler loop, from a received datagram to the responses it
sends. A datagram arrives in a buffer of fixed size whose remaining bytes are
whatever the buffer held before, and the handler never looks at the part of a
datagram that did not fit.
-/

namespace NyanSD

open Access ByteBauble StdString

/-! ## Received datagrams -/

/-- Size of every receive buffer, on both sides. -/
def receiveSize : Nat := 2048

/-- Memory after receiving into it, and the number of bytes received. -/
structure Received where
  data : Nat → UInt8
  length : Nat

/-- Receive a datagram into memory that held `before`: what exceeds the buffer
is cut off, and the rest of the memory is left alone. -/
def receive (datagram : Bytes) (before : Nat → UInt8) : Received where
  data i := ((datagram.take receiveSize)[i]?).getD (before i)
  length := (datagram.take receiveSize).length

/-- Read an integer at an address, in the byte order of the host. -/
def load (T : Type) [MachineInt T] (host : BBEndianness) (address : Nat) :
    Access Nat UInt8 T := do
  let bytes ← span address (MachineInt.size T)
  return ofObjectBytes host bytes

/-! ## The state of a server -/

structure Server where
  /-- Byte order of the server's memory. -/
  host : BBEndianness
  services : List NYSDService
  interfaces : List NetworkInterface
  /-- What the address local to a pass holds before the lookup assigns it. -/
  uninitialised : UInt32

/-! ## Composing a response -/

/-- `servicesBody` and `scount`. -/
structure ServicesBody where
  bytes : Bytes := []
  scount : UInt8 := 0
deriving DecidableEq, Repr

/-- Address fields of a section: the IPv4 address, then the IPv6 string behind
its one-byte length. -/
def appendAddress (host : BBEndianness) (bytes : Bytes) (ipv4 : UInt32) (ipv6 : Bytes) :
    Bytes :=
  let bb := onHost host
  let he := bb.getHostEndian
  bytes ++ objectBytes host (bb.toGlobal ipv4 he) ++
    [UInt8.ofNat ipv6.length] ++ ipv6

/-- The fields behind the address, which end a section and count it. -/
def appendRest (host : BBEndianness) (body : ServicesBody) (sv : NYSDService) :
    ServicesBody where
  bytes :=
    let bb := onHost host
    let he := bb.getHostEndian
    body.bytes ++ objectBytes host (bb.toGlobal (UInt16.ofNat sv.hostname.length) he) ++
      sv.hostname ++ objectBytes host (bb.toGlobal sv.port he) ++ [sv.protocol.toByte] ++
      objectBytes host (bb.toGlobal (UInt16.ofNat sv.service.length) he) ++ sv.service
  scount := body.scount + 1

/-- One pass over a record that is to be answered with. Both branches of the
handler repeat it word for word. The section signature is written before the
address is known, so a pass that gives up leaves it behind. -/
def appendService (server : Server) (sender : SocketAddress) (body : ServicesBody)
    (sv : NYSDService) : ServicesBody :=
  let bytes := body.bytes ++ [Wire.serviceSignature]
  if sv.ipv4 = 0 then
    match remoteToLocalIP server.host server.interfaces sender server.uninitialised [] with
    | none => { body with bytes := bytes }
    | some (ipv4, ipv6) =>
        if 39 < ipv6.length then { body with bytes := bytes }
        else
          appendRest server.host
            { body with bytes := appendAddress server.host bytes ipv4 ipv6 } sv
  else
    appendRest server.host
      { body with bytes := appendAddress server.host bytes sv.ipv4 sv.ipv6 } sv

/-- The comparison of the filtered branch. -/
def filterMatches (filter : Bytes) (sv : NYSDService) : Bool :=
  comparesEqual filter 0 filter.length sv.service

/-- The loop of the branch taken for a non-empty filter. -/
def filteredBody (server : Server) (sender : SocketAddress) (filter : Bytes) :
    List NYSDService → ServicesBody → ServicesBody
  | [], body => body
  | sv :: rest, body =>
      if filterMatches filter sv then
        filteredBody server sender filter rest (appendService server sender body sv)
      else filteredBody server sender filter rest body

/-- The loop of the branch taken for an empty filter. -/
def wildcardBody (server : Server) (sender : SocketAddress) :
    List NYSDService → ServicesBody → ServicesBody
  | [], body => body
  | sv :: rest, body => wildcardBody server sender rest (appendService server sender body sv)

/-- The services body for a query with this filter, whose length decides between
the two branches. -/
def servicesBody (server : Server) (sender : SocketAddress) (filter : Bytes) :
    ServicesBody :=
  if filter.length ≠ 0 then filteredBody server sender filter server.services {}
  else wildcardBody server sender server.services {}

/-- Assemble the full response message. -/
def assemble (host : BBEndianness) (body : ServicesBody) : Bytes :=
  let bb := onHost host
  let msglen : UInt16 := 1 + UInt16.ofNat (body.bytes.length + 1)
  Wire.signature ++ objectBytes host (bb.toGlobal msglen bb.getHostEndian) ++
    [NYSDMessageType.response.toByte] ++ [body.scount] ++ body.bytes

/-- The response to one query section. Its protocol is not looked at. -/
def respond (server : Server) (sender : SocketAddress) (filter : Bytes) : Bytes :=
  assemble server.host (servicesBody server sender filter)

/-! ## Handling a datagram -/

/-- One query section as read, and the response sent for it. -/
structure Answer where
  prot : UInt8
  filter : Bytes
  msg : Bytes
deriving DecidableEq, Repr

/-- The query section loop, with the final index. A byte other than the section
signature does not move the index, so the passes that are left find it again. -/
def querySections (server : Server) (sender : SocketAddress) :
    Nat → Nat → List Answer → Access Nat UInt8 (Nat × List Answer)
  | 0, index, answers => pure (index, answers)
  | count + 1, index, answers => do
      let mark ← cell index
      if mark ≠ Wire.querySignature then querySections server sender count index answers
      else
        let prot ← cell (index + 1)
        let qlen ← cell (index + 2)
        let filter ← span (index + 3) qlen.toNat
        querySections server sender count (index + 3 + qlen.toNat)
          (answers ++ [⟨prot, filter, respond server sender filter⟩])

/-- Where handling a datagram ended: at one of the header checks, or after the
section loop. -/
inductive Handled
  | incomplete
  | wrongSignature
  | wrongLength
  | notBroadcast
  | noQueries
  | sections (index : Nat) (answers : List Answer)
deriving DecidableEq, Repr

/-- The datagrams sent while handling. -/
def Handled.sent : Handled → List Bytes
  | .sections _ answers => answers.map Answer.msg
  | _ => []

/-- The handler loop's body for `n` received bytes. -/
def handle (server : Server) (sender : SocketAddress) (n : Nat) :
    Access Nat UInt8 Handled := do
  if n < 10 then return .incomplete
  let signature ← span 0 6
  if signature ≠ Wire.signature then return .wrongSignature
  let len ← load UInt16 server.host 6
  let len := (onHost server.host).toHost len .le
  -- at least ten bytes were received, so the difference is not negative
  if n - 8 ≠ len.toNat then return .wrongLength
  let type ← cell 8
  if type ≠ NYSDMessageType.broadcast.toByte then return .notBroadcast
  let rnum ← cell 9
  if rnum = 0 then return .noQueries
  let (index, answers) ← querySections server sender rnum.toNat 10 []
  return .sections index answers

/-- One turn of the handler loop on an arriving datagram. -/
def clientHandler (server : Server) (sender : SocketAddress) (datagram : Bytes)
    (buffer : Nat → UInt8) : Handled :=
  let received := receive datagram buffer
  (handle server sender received.length).run received.data

end NyanSD
