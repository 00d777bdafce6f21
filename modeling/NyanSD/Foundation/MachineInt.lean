import Mathlib.Algebra.Order.Ring.Nat

/-!
# Fixed-width unsigned integers as bytes

A number is written with a fixed count of base-256 digits, least significant
first, and read back from them. `MachineInt` collects what the fixed-width types
share, so that byte swapping and memory layout are stated once for all widths.
-/

/-- The `width` low base-256 digits of a number, least significant first. -/
def lowBytes : Nat → Nat → List UInt8
  | 0, _ => []
  | width + 1, n => UInt8.ofNat n :: lowBytes width (n / 256)

/-- The number with the given base-256 digits, least significant first. -/
def fromBytes : List UInt8 → Nat
  | [] => 0
  | byte :: rest => byte.toNat + 256 * fromBytes rest

@[simp] theorem length_lowBytes (width n : Nat) : (lowBytes width n).length = width := by
  induction width generalizing n with
  | zero => rfl
  | succ width ih => simp only [lowBytes, List.length_cons, ih]

theorem fromBytes_lt (bytes : List UInt8) : fromBytes bytes < 256 ^ bytes.length := by
  induction bytes with
  | nil => simp [fromBytes]
  | cons byte rest ih =>
      have hbyte : byte.toNat < 256 := byte.toNat_lt
      rw [fromBytes, List.length_cons, Nat.pow_succ]
      omega

/-- Writing a number and reading it back keeps what fits in the width. -/
theorem fromBytes_lowBytes {width n : Nat} (hfits : n < 256 ^ width) :
    fromBytes (lowBytes width n) = n := by
  induction width generalizing n with
  | zero => simp only [Nat.pow_zero] at hfits; simp only [lowBytes, fromBytes]; omega
  | succ width ih =>
      have hquot : n / 256 < 256 ^ width := by
        rw [Nat.div_lt_iff_lt_mul (by decide)]
        simpa [Nat.pow_succ] using hfits
      have hdigit : (UInt8.ofNat n).toNat = n % 256 := UInt8.toNat_ofNat'
      rw [lowBytes, fromBytes, ih hquot, hdigit]
      omega

theorem lowBytes_fromBytes (bytes : List UInt8) :
    lowBytes bytes.length (fromBytes bytes) = bytes := by
  induction bytes with
  | nil => rfl
  | cons byte rest ih =>
      have hbyte : byte.toNat < 256 := byte.toNat_lt
      have hdigit : UInt8.ofNat (byte.toNat + 256 * fromBytes rest) = byte := by
        apply UInt8.toNat_inj.mp
        have hnarrow := UInt8.toNat_ofNat' (n := byte.toNat + 256 * fromBytes rest)
        omega
      have hquot : (byte.toNat + 256 * fromBytes rest) / 256 = fromBytes rest := by omega
      rw [List.length_cons, fromBytes, lowBytes, hdigit, hquot, ih]

/-- The lowest digits do not depend on how many there are. -/
theorem take_lowBytes {count width : Nat} (n : Nat) (hcount : count ≤ width) :
    (lowBytes width n).take count = lowBytes count n := by
  induction count generalizing width n with
  | zero => rfl
  | succ count ih =>
      cases width with
      | zero => exact absurd hcount (Nat.not_succ_le_zero count)
      | succ width =>
          rw [lowBytes, List.take_succ_cons, ih (n / 256) (Nat.le_of_succ_le_succ hcount), lowBytes]

/-- An unsigned type of `size` bytes, with narrowing from the naturals. -/
class MachineInt (T : Type) where
  size : Nat
  toNat : T → Nat
  ofNat : Nat → T
  toNat_lt : ∀ x, toNat x < 256 ^ size
  ofNat_toNat : ∀ x, ofNat (toNat x) = x
  toNat_ofNat : ∀ n, n < 256 ^ size → toNat (ofNat n) = n

instance : MachineInt UInt16 where
  size := 2
  toNat := UInt16.toNat
  ofNat := UInt16.ofNat
  toNat_lt := UInt16.toNat_lt
  ofNat_toNat _ := UInt16.ofNat_toNat
  toNat_ofNat _ := UInt16.toNat_ofNat_of_lt'

instance : MachineInt UInt32 where
  size := 4
  toNat := UInt32.toNat
  ofNat := UInt32.ofNat
  toNat_lt := UInt32.toNat_lt
  ofNat_toNat _ := UInt32.ofNat_toNat
  toNat_ofNat _ := UInt32.toNat_ofNat_of_lt'

namespace MachineInt

@[simp] theorem size_uint16 : size UInt16 = 2 := rfl

@[simp] theorem size_uint32 : size UInt32 = 4 := rfl

variable {T : Type} [MachineInt T]

/-- The bytes of a value, least significant first. -/
def bytes (x : T) : List UInt8 := lowBytes (size T) (toNat x)

/-- The value with the given bytes, least significant first. -/
def ofBytes (digits : List UInt8) : T := ofNat (fromBytes digits)

@[simp] theorem length_bytes (x : T) : (bytes x).length = size T := length_lowBytes _ _

@[simp] theorem ofBytes_bytes (x : T) : ofBytes (bytes x) = x := by
  rw [ofBytes, bytes, fromBytes_lowBytes (toNat_lt x), ofNat_toNat]

theorem bytes_ofBytes {digits : List UInt8} (hlength : digits.length = size T) :
    bytes (ofBytes digits : T) = digits := by
  have hlt := fromBytes_lt digits
  rw [hlength] at hlt
  rw [bytes, ofBytes, toNat_ofNat _ hlt, ← hlength, lowBytes_fromBytes]

end MachineInt
