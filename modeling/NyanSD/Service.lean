import NyanSD.ByteBauble
import NyanSD.Foundation.StdString

/-!
# Services, queries and message types

The records the library exchanges. Names and addresses are byte strings: nothing
in the library looks at their characters except the two IPv4 conversions.
-/

namespace NyanSD

inductive NYSDMessageType
  | broadcast
  | response
deriving DecidableEq, Repr

def NYSDMessageType.toByte : NYSDMessageType → UInt8
  | .broadcast => 0x01
  | .response => 0x02

inductive NYSDProtocol
  | all
  | tcp
  | udp
deriving DecidableEq, Repr

def NYSDProtocol.toByte : NYSDProtocol → UInt8
  | .all => 0x00
  | .tcp => 0x01
  | .udp => 0x02

theorem NYSDProtocol.toByte_injective : Function.Injective NYSDProtocol.toByte := by
  intro first second heq
  cases first <;> cases second <;> first | rfl | exact absurd heq (by decide)

structure NYSDService where
  ipv4 : UInt32 := 0
  ipv6 : Bytes := []
  port : UInt16 := 0
  hostname : Bytes := []
  service : Bytes := []
  protocol : NYSDProtocol := .all
deriving DecidableEq, Repr

structure NYSDQuery where
  protocol : NYSDProtocol
  filter : Bytes
deriving DecidableEq, Repr

end NyanSD
