import NyanSD.Foundation.MachineInt

/-!
# Byte order conversion

`ByteBauble` carries the byte order of the wire, which nothing ever changes from
little endian, and the byte order it detected on its host. How a host lays an
integer out in memory is modelled separately, so that converting a value and
copying its bytes can be checked against each other.
-/

namespace NyanSD

inductive BBEndianness
  | be
  | le
deriving DecidableEq, Repr

section Layout

variable {T : Type} [MachineInt T]

/-- The bytes of a value in the memory of a host, lowest address first. -/
def objectBytes (host : BBEndianness) (x : T) : List UInt8 :=
  match host with
  | .le => MachineInt.bytes x
  | .be => (MachineInt.bytes x).reverse

/-- The value a host reads from these bytes of its memory. -/
def ofObjectBytes (host : BBEndianness) (bytes : List UInt8) : T :=
  match host with
  | .le => MachineInt.ofBytes bytes
  | .be => MachineInt.ofBytes bytes.reverse

@[simp] theorem length_objectBytes (host : BBEndianness) (x : T) :
    (objectBytes host x).length = MachineInt.size T := by
  cases host <;> simp [objectBytes]

/-- Bytes written on one host and looked at on another come out in the same
order exactly when the two hosts agree, and reversed otherwise. -/
theorem objectBytes_ofObjectBytes (writer reader : BBEndianness) {bytes : List UInt8}
    (hlength : bytes.length = MachineInt.size T) :
    objectBytes reader (ofObjectBytes writer bytes : T) =
      if writer = reader then bytes else bytes.reverse := by
  have hreverse : bytes.reverse.length = MachineInt.size T := by simpa using hlength
  cases writer <;> cases reader <;>
    simp [objectBytes, ofObjectBytes, MachineInt.bytes_ofBytes, hlength, hreverse]

/-- A host reads back the value whose bytes it holds. -/
theorem ofObjectBytes_objectBytes (host : BBEndianness) (x : T) :
    ofObjectBytes host (objectBytes host x) = x := by
  cases host with
  | le => exact MachineInt.ofBytes_bytes x
  | be => rw [objectBytes, ofObjectBytes, List.reverse_reverse, MachineInt.ofBytes_bytes]

/-- `__builtin_bswap16`, `__builtin_bswap32` and `__builtin_bswap64`; the
fallback for every other size returns zero. -/
def byteSwap (x : T) : T :=
  if MachineInt.size T = 2 ∨ MachineInt.size T = 4 ∨ MachineInt.size T = 8 then
    MachineInt.ofBytes (MachineInt.bytes x).reverse
  else MachineInt.ofNat 0

end Layout

structure ByteBauble where
  globalEndian : BBEndianness := .le
  hostEndian : BBEndianness := .le

namespace ByteBauble

/-- Store 1 in a 16-bit integer and look at the byte with the lowest address. -/
def detectHostEndian (memory : BBEndianness) : BBEndianness :=
  if (objectBytes memory (1 : UInt16)).head? = some 1 then .le else .be

/-- The object every NyanSD process keeps: detection runs in the constructor. -/
def onHost (memory : BBEndianness) : ByteBauble where
  hostEndian := detectHostEndian memory

def getHostEndian (bb : ByteBauble) : BBEndianness := bb.hostEndian

section Convert

variable {T : Type} [MachineInt T]

def toGlobal (bb : ByteBauble) (x : T) (order : BBEndianness) : T :=
  if order = bb.globalEndian then x else byteSwap x

def toHost (bb : ByteBauble) (x : T) (order : BBEndianness) : T :=
  if order = bb.hostEndian then x else byteSwap x

end Convert

@[simp] theorem hostEndian_onHost (memory : BBEndianness) :
    (onHost memory).hostEndian = memory := by
  cases memory <;> decide

@[simp] theorem getHostEndian_onHost (memory : BBEndianness) :
    (onHost memory).getHostEndian = memory := hostEndian_onHost memory

@[simp] theorem globalEndian_onHost (memory : BBEndianness) :
    (onHost memory).globalEndian = .le := rfl

end ByteBauble

section Wire

variable {T : Type} [MachineInt T]

/-- A width the conversions know how to swap. -/
def Swappable (T : Type) [MachineInt T] : Prop :=
  MachineInt.size T = 2 ∨ MachineInt.size T = 4 ∨ MachineInt.size T = 8

theorem swappable_uint16 : Swappable UInt16 := .inl rfl

theorem swappable_uint32 : Swappable UInt32 := .inr (.inl rfl)

theorem byteSwap_of_swappable (hswap : Swappable T) (x : T) :
    byteSwap x = MachineInt.ofBytes (MachineInt.bytes x).reverse := if_pos hswap

/-- Whatever the host, a converted value lies in memory in the order of the
wire: least significant byte first. -/
theorem objectBytes_toGlobal (hswap : Swappable T) (host : BBEndianness) (x : T) :
    objectBytes host ((ByteBauble.onHost host).toGlobal x host) = MachineInt.bytes x := by
  have hlength : (MachineInt.bytes x).reverse.length = MachineInt.size T := by simp
  cases host <;>
    simp [objectBytes, ByteBauble.toGlobal, byteSwap_of_swappable hswap,
      MachineInt.bytes_ofBytes hlength]

/-- Whatever the host, converting what it reads from the wire gives back the
value whose bytes the wire carries. -/
theorem toHost_ofObjectBytes (hswap : Swappable T) (host : BBEndianness) (x : T) :
    (ByteBauble.onHost host).toHost (ofObjectBytes host (MachineInt.bytes x)) .le = x := by
  have hlength : (MachineInt.bytes x).reverse.length = MachineInt.size T := by simp
  cases host <;>
    simp [ofObjectBytes, ByteBauble.toHost, byteSwap_of_swappable hswap,
      MachineInt.bytes_ofBytes hlength]

end Wire

end NyanSD
