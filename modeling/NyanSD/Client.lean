import NyanSD.Server

/-!
# Sending queries and reading responses

`sendQuery` composes one broadcast, lets the interface loop send it and collect
what comes back, and then parses the collected datagrams. The interface loop is
an input: it maps the message to the buffers that were received.
-/

namespace NyanSD

open Access ByteBauble

/-! ## Composing a query -/

inductive QueryError
  | tooMany
  | noQuery
deriving DecidableEq, Repr

/-- The loop over the queries. The length byte is narrowed, and decides whether
the filter is written at all. -/
def appendQueries : List NYSDQuery → Bytes → Bytes
  | [], body => body
  | query :: rest, body =>
      let qlen := UInt8.ofNat query.filter.length
      let body := body ++ [Wire.querySignature] ++ [query.protocol.toByte] ++ [qlen]
      appendQueries rest (if 0 < qlen then body ++ query.filter else body)

def composeQuery (host : BBEndianness) (queries : List NYSDQuery) :
    Except QueryError Bytes :=
  if 255 < queries.length then .error .tooMany
  else if queries.length < 1 then .error .noQuery
  else
    let bb := onHost host
    let qnum := UInt8.ofNat queries.length
    let body := appendQueries queries [qnum]
    let len := UInt16.ofNat (body.length + 1)
    .ok (Wire.signature ++ objectBytes host (bb.toGlobal len bb.getHostEndian) ++
      [NYSDMessageType.broadcast.toByte] ++ body)

/-! ## Reading responses -/

/-- A received datagram: where it lies, and how many bytes were received. -/
structure ResponseStruct where
  data : Nat → UInt8
  length : UInt32

/-- `udpsocket.receiveBytes` into a freshly allocated buffer. -/
def receiveBytes (datagram : Bytes) (heap : Nat → UInt8) : ResponseStruct where
  data := (receive datagram heap).data
  length := UInt32.ofNat (receive datagram heap).length

/-- A two-byte length and the string behind it, with the index after it. -/
def parseLongString (host : BBEndianness) (index : Nat) :
    Access Nat UInt8 (Bytes × Nat) := do
  let len ← load UInt16 host index
  let len := (onHost host).toHost len .le
  let text ← span (index + 2) len.toNat
  return (text, index + 2 + len.toNat)

/-- A protocol byte of no known protocol leaves the default. -/
def protocolOfByte (prot : UInt8) : NYSDProtocol :=
  if prot = NYSDProtocol.all.toByte then .all
  else if prot = NYSDProtocol.tcp.toByte then .tcp
  else if prot = NYSDProtocol.udp.toByte then .udp
  else .all

/-- A service section behind its signature, with the index after it. -/
def parseService (host : BBEndianness) (index : Nat) :
    Access Nat UInt8 (NYSDService × Nat) := do
  let ipv4 ← load UInt32 host index
  let ipv4 := (onHost host).toHost ipv4 .le
  let ipv6len ← cell (index + 4)
  let ipv6 ← span (index + 5) ipv6len.toNat
  let (hostname, index) ← parseLongString host (index + 5 + ipv6len.toNat)
  let port ← load UInt16 host index
  let port := (onHost host).toHost port .le
  let prot ← cell (index + 2)
  let (svname, index) ← parseLongString host (index + 3)
  return ({ ipv4 := ipv4, ipv6 := ipv6, port := port, hostname := hostname,
            service := svname, protocol := protocolOfByte prot }, index)

/-- The service section loop. `none` is the error return at a wrong section
signature; the sections before it stay in `responses`. -/
def parseServices (host : BBEndianness) :
    Nat → Nat → List NYSDService → Access Nat UInt8 (Option Nat × List NYSDService)
  | 0, index, responses => pure (some index, responses)
  | count + 1, index, responses => do
      let mark ← cell index
      if mark ≠ Wire.serviceSignature then return (none, responses)
      let (sv, index) ← parseService host (index + 1)
      parseServices host count index (responses ++ [sv])

/-- The message loop over one buffer. Every pass moves the index by nine bytes
or more, so `fuel` passes are enough for `fuel` bytes. The signature is read at
the start of the buffer in every pass, and a message of another type is left
right behind its type byte. -/
def parseMessages (host : BBEndianness) (length : UInt32) :
    Nat → Nat → List NYSDService → Access Nat UInt8 (Bool × List NYSDService)
  | 0, _, responses => pure (true, responses)
  | fuel + 1, index, responses =>
      if index < length.toNat then do
        let signature ← span 0 6
        if signature ≠ Wire.signature then return (false, responses)
        let len ← load UInt16 host (index + 6)
        let len := (onHost host).toHost len .le
        -- the remaining length is computed in 32 unsigned bits
        if (length - UInt32.ofNat (index + 8)).toNat < len.toNat then
          return (false, responses)
        let type ← cell (index + 8)
        if type ≠ NYSDMessageType.response.toByte then
          -- what follows the type byte is taken for the next message
          parseMessages host length fuel (index + 9) responses
        else
          let rnum ← cell (index + 9)
          match ← parseServices host rnum.toNat (index + 10) responses with
          | (none, responses) => return (false, responses)
          | (some index, responses) => parseMessages host length fuel index responses
      else pure (true, responses)

/-- One turn of the loop over the received buffers. -/
def parseBuffer (host : BBEndianness) (buffer : ResponseStruct)
    (responses : List NYSDService) : Bool × List NYSDService :=
  let n := buffer.length.toNat
  if n < 8 then (false, responses)
  else (parseMessages host buffer.length n 0 responses).run buffer.data

/-- The loop over the received buffers, which the first error return ends. -/
def parseResponses (host : BBEndianness) :
    List ResponseStruct → List NYSDService → Bool × List NYSDService
  | [], responses => (true, responses)
  | buffer :: rest, responses =>
      match parseBuffer host buffer responses with
      | (false, responses) => (false, responses)
      | (true, responses) => parseResponses host rest responses

/-- `exchange` sends the message on every interface and returns what was
received. -/
def sendQuery (host : BBEndianness) (exchange : Bytes → List ResponseStruct)
    (queries : List NYSDQuery) (responses : List NYSDService) : Bool × List NYSDService :=
  match composeQuery host queries with
  | .error _ => (false, responses)
  | .ok msg => parseResponses host (exchange msg) responses

end NyanSD
