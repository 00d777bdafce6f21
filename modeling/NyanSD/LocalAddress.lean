import NyanSD.IPv4

/-!
# Finding the local address a sender can reach

The socket library reports the interfaces of the host and prints addresses; both
are inputs here. An IPv4 address prints as a canonical dotted quad and an IPv4
socket address with a colon and the port behind it. Nothing is assumed about the
text of IPv6 addresses.
-/

namespace NyanSD

open StdString

/-- `Poco::Net::IPAddress`. -/
inductive IPAddress
  | ipv4 (a b c d : UInt8)
  | ipv6 (text : Bytes)
deriving DecidableEq, Repr

/-- `Poco::Net::SocketAddress`; an IPv6 one is known by its text alone. -/
inductive SocketAddress
  | ipv4 (a b c d : UInt8) (port : UInt16)
  | ipv6 (text : Bytes)
deriving DecidableEq, Repr

/-- `Poco::Net::NetworkInterface`, as far as the search looks at it. -/
structure NetworkInterface where
  addressList : List IPAddress
deriving DecidableEq, Repr

def colon : UInt8 := ':'.toUInt8

def percent : UInt8 := '%'.toUInt8

def IPAddress.toString : IPAddress → Bytes
  | .ipv4 a b c d => dottedQuad a b c d
  | .ipv6 text => text

def SocketAddress.toString : SocketAddress → Bytes
  | .ipv4 a b c d port => dottedQuad a b c d ++ colon :: decimal port.toNat
  | .ipv6 text => text

/-- The sender's text up to and including its last separator. -/
def lanBase (sa : SocketAddress) : Bytes :=
  let addr := sa.toString
  -- without a separator the position wraps to zero, and nothing is left
  match sa with
  | .ipv4 .. => addr.take (advance (findLastOf addr dot) 1)
  | .ipv6 _ => addr.take (advance (findLastOf addr colon) 1)

/-- `ipv4_stringToUint` of a printed address, on which it cannot throw. -/
def printedToUint (host : BBEndianness) (a b c d : UInt8) : UInt32 :=
  (ipv4StringToUint host (dottedQuad a b c d)).toOption.get
    (by simp [ipv4StringToUint_dottedQuad, Except.toOption])

/-- The first IPv4 address on the interface. -/
def firstIPv4 (host : BBEndianness) : List IPAddress → Option UInt32
  | [] => none
  | .ipv4 a b c d :: _ => some (printedToUint host a b c d)
  | .ipv6 _ :: rest => firstIPv4 host rest

/-- The first IPv6 address on the interface, without a trailing scope. -/
def firstIPv6 : List IPAddress → Option Bytes
  | [] => none
  | .ipv4 .. :: rest => firstIPv6 rest
  | .ipv6 text :: _ =>
      let st := findLastOf text percent
      some (if st = npos then text else text.take st)

/-- Search the interfaces in order. The first one with an address that starts
like the sender's decides: either it has an address of the sender's family, which
overwrites `ipv4` or `ipv6`, or the search has failed (`none`). -/
def remoteToLocalIP (host : BBEndianness) (interfaces : List NetworkInterface)
    (sa : SocketAddress) (ipv4 : UInt32) (ipv6 : Bytes) : Option (UInt32 × Bytes) :=
  let addr := lanBase sa
  match interfaces with
  | [] => none
  | ifc :: rest =>
      if ifc.addressList.any fun ip =>
          comparesEqual addr 0 addr.length (ip.toString.take addr.length) then
        match sa with
        | .ipv4 .. => (firstIPv4 host ifc.addressList).map fun found => (found, ipv6)
        | .ipv6 _ => (firstIPv6 ifc.addressList).map fun found => (ipv4, found)
      else remoteToLocalIP host rest sa ipv4 ipv6

/-- For an IPv4 sender the IPv6 string stays as it was. -/
theorem remoteToLocalIP_ipv4 {host : BBEndianness} {interfaces : List NetworkInterface}
    {a b c d : UInt8} {port : UInt16} {ipv4 foundIPv4 : UInt32} {ipv6 foundIPv6 : Bytes}
    (hfound : remoteToLocalIP host interfaces (.ipv4 a b c d port) ipv4 ipv6 =
      some (foundIPv4, foundIPv6)) : foundIPv6 = ipv6 := by
  induction interfaces with
  | nil => cases hfound
  | cons ifc rest ih =>
      rw [remoteToLocalIP] at hfound
      split at hfound
      · obtain ⟨address, -, haddress⟩ := Option.map_eq_some_iff.mp hfound
        cases haddress
        rfl
      · exact ih hfound

end NyanSD
