import NyanSD.ByteBauble

/-!
# Any byte order on the wire

The order of the wire can be set, and two hosts that set it to the same one should exchange
any integer. They do for the widths that can be swapped. Of another width only zero arrives,
unless both hosts have the order of the wire and nothing has to be swapped.
-/

namespace NyanSD

instance : MachineInt UInt8 where
  size := 1
  toNat := UInt8.toNat
  ofNat := UInt8.ofNat
  toNat_lt := UInt8.toNat_lt
  ofNat_toNat _ := UInt8.ofNat_toNat
  toNat_ofNat _ := UInt8.toNat_ofNat_of_lt'

namespace ByteBauble

def setGlobalEndianness (bb : ByteBauble) (order : BBEndianness) : ByteBauble :=
  { bb with globalEndian := order }

section Exchange

variable {T : Type} [MachineInt T] (writer reader wire : BBEndianness)

/-- What a host has in memory after converting a value for the wire. -/
def written (x : T) : List UInt8 :=
  let bb := (onHost writer).setGlobalEndianness wire
  objectBytes writer (bb.toGlobal x bb.getHostEndian)

/-- What a host makes of bytes from the wire. -/
def readBack (bytes : List UInt8) : T :=
  let bb := (onHost reader).setGlobalEndianness wire
  bb.toHost (ofObjectBytes reader bytes) wire

/-- Converting is swapping, where the orders differ. -/
theorem written_eq (x : T) :
    written writer wire x = objectBytes writer (if writer = wire then x else byteSwap x) := by
  have hhost : ((onHost writer).setGlobalEndianness wire).getHostEndian = writer :=
    getHostEndian_onHost writer
  rw [written, hhost]
  rfl

theorem readBack_eq (bytes : List UInt8) :
    (readBack reader wire bytes : T) =
      if wire = reader then ofObjectBytes reader bytes
      else byteSwap (ofObjectBytes reader bytes) := by
  have hhost : ((onHost reader).setGlobalEndianness wire).hostEndian = reader :=
    hostEndian_onHost reader
  rw [readBack, toHost, hhost]

/-- Bytes lie on the wire in its order. -/
theorem written_of_swappable (hswap : Swappable T) (x : T) :
    written writer wire x = objectBytes wire x := by
  have hlength : (MachineInt.bytes x).reverse.length = MachineInt.size T := by simp
  rw [written_eq]
  cases writer <;> cases wire <;>
    simp [objectBytes, byteSwap_of_swappable hswap, MachineInt.bytes_ofBytes hlength]

theorem readBack_of_swappable (hswap : Swappable T) (x : T) :
    readBack reader wire (objectBytes wire x) = x := by
  have hlength : (MachineInt.bytes x).reverse.length = MachineInt.size T := by simp
  rw [readBack_eq]
  cases reader <;> cases wire <;>
    simp [objectBytes, ofObjectBytes, byteSwap_of_swappable hswap,
      MachineInt.bytes_ofBytes hlength]

/-- Swapping anything of another width gives zero. -/
theorem byteSwap_of_not_swappable (hswap : ¬ Swappable T) (x : T) :
    byteSwap x = MachineInt.ofNat 0 := if_neg hswap

/-- Zero is zero in every order. -/
theorem ofObjectBytes_objectBytes_zero :
    (ofObjectBytes reader (objectBytes writer (MachineInt.ofNat 0 : T)) : T) =
      MachineInt.ofNat 0 := by
  have hlow : ∀ width, lowBytes width 0 = List.replicate width 0 := by
    intro width
    induction width with
    | zero => rfl
    | succ width ih => exact congrArg (List.cons 0) ih
  have hbytes : MachineInt.bytes (MachineInt.ofNat 0 : T) =
      List.replicate (MachineInt.size T) 0 := by
    rw [MachineInt.bytes, MachineInt.toNat_ofNat 0 (Nat.pow_pos (by decide)), hlow]
  have hzero : (MachineInt.ofBytes (List.replicate (MachineInt.size T) 0) : T) =
      MachineInt.ofNat 0 := by
    rw [← hbytes, MachineInt.ofBytes_bytes]
  cases writer <;> cases reader <;>
    simp [objectBytes, ofObjectBytes, hbytes, hzero, List.reverse_replicate]

/-- Whatever the orders of the two hosts and of the wire, an integer lies on the wire in the
order of the wire and arrives as it was if its width can be swapped. Otherwise it arrives
exactly if it is zero or both hosts have the order of the wire. -/
theorem readBack_written_iff (x : T) :
    (Swappable T → written writer wire x = objectBytes wire x) ∧
      (readBack reader wire (written writer wire x) = x ↔
        Swappable T ∨ x = MachineInt.ofNat 0 ∨ (writer = wire ∧ reader = wire)) := by
  refine ⟨fun hswap => written_of_swappable writer wire hswap x, ?_⟩
  by_cases hswap : Swappable T
  · rw [written_of_swappable writer wire hswap, readBack_of_swappable reader wire hswap]
    exact iff_of_true rfl (.inl hswap)
  have hzero : ∀ y : T, byteSwap y = MachineInt.ofNat 0 := byteSwap_of_not_swappable hswap
  rw [readBack_eq, written_eq, hzero x]
  by_cases hwriter : writer = wire
  · subst hwriter
    by_cases hreader : writer = reader
    · subst hreader
      rw [if_pos rfl, if_pos rfl, ofObjectBytes_objectBytes]
      exact iff_of_true rfl (.inr (.inr ⟨rfl, rfl⟩))
    · rw [if_neg hreader, hzero]
      have hother : reader ≠ writer := Ne.symm hreader
      simp [hswap, hother, eq_comm]
  · have hread := @ofObjectBytes_objectBytes_zero T _ writer reader
    rw [if_neg hwriter, hread, hzero, ite_self]
    simp [hswap, hwriter, eq_comm]

end Exchange

/-- A byte does not cross between hosts of different orders. -/
example : readBack .be .le (written .le .le (7 : UInt8)) = (0 : UInt8) := by decide

end ByteBauble

end NyanSD
