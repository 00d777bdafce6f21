import NyanSD.Foundation.MachineInt

/-!
# Groups of seven bits

A number is written as bytes of which each carries seven bits, lowest group first, and
whose top bits tell whether another byte follows. The writer is told how many groups to
write; the reader stops behind the first byte without a flag.
-/

namespace Base128

/-- The `count` low groups of a number, all but the last with the flag. -/
def groups : Nat → Nat → List UInt8
  | 0, _ => []
  | 1, n => [UInt8.ofNat (n % 128)]
  | count + 2, n => UInt8.ofNat (n % 128 + 128) :: groups (count + 1) (n / 128)

/-- How many bytes are read, and the number they carry. Where every byte has the flag, the
missing one is counted. -/
def readGroups : List UInt8 → Nat × Nat
  | [] => (1, 0)
  | byte :: rest =>
      if byte.toNat < 128 then (1, byte.toNat)
      else ((readGroups rest).1 + 1, byte.toNat % 128 + 128 * (readGroups rest).2)

@[simp] theorem length_groups (count n : Nat) : (groups count n).length = count := by
  induction count, n using groups.induct with
  | case1 n => rfl
  | case2 n => rfl
  | case3 count n ih => rw [groups, List.length_cons, ih]

theorem toNat_ofNat_mod (n : Nat) : (UInt8.ofNat (n % 128)).toNat = n % 128 := by
  rw [UInt8.toNat_ofNat', Nat.mod_eq_of_lt (by omega)]

theorem toNat_ofNat_mod_add (n : Nat) : (UInt8.ofNat (n % 128 + 128)).toNat = n % 128 + 128 := by
  rw [UInt8.toNat_ofNat', Nat.mod_eq_of_lt (by omega)]

/-- A last byte ends the reading, whatever follows. -/
theorem readGroups_last {byte : UInt8} (rest : List UInt8) (hlast : byte.toNat < 128) :
    readGroups (byte :: rest) = (1, byte.toNat) := if_pos hlast

theorem readGroups_more {byte : UInt8} (rest : List UInt8) (hmore : 128 ≤ byte.toNat) :
    readGroups (byte :: rest) =
      ((readGroups rest).1 + 1, byte.toNat % 128 + 128 * (readGroups rest).2) :=
  if_neg (Nat.not_lt.mpr hmore)

/-- Written groups are read back, up to what they have room for. -/
theorem readGroups_groups {count : Nat} (n : Nat) (rest : List UInt8) (hpos : 0 < count) :
    readGroups (groups count n ++ rest) = (count, n % 128 ^ count) := by
  induction count, n using groups.induct with
  | case1 n => exact absurd hpos (lt_irrefl 0)
  | case2 n =>
      have hlast : (UInt8.ofNat (n % 128)).toNat < 128 := by
        rw [toNat_ofNat_mod]
        exact Nat.mod_lt n (by decide)
      rw [groups, List.singleton_append, readGroups_last rest hlast, toNat_ofNat_mod, Nat.pow_one]
  | case3 count n ih =>
      have hmore : 128 ≤ (UInt8.ofNat (n % 128 + 128)).toNat := by
        rw [toNat_ofNat_mod_add]
        exact Nat.le_add_left _ _
      have hlow : (n % 128 + 128) % 128 = n % 128 := by
        rw [Nat.add_mod_right, Nat.mod_mod]
      rw [groups, List.cons_append, readGroups_more _ hmore, ih (Nat.succ_pos count),
        toNat_ofNat_mod_add, hlow, Nat.pow_succ' (n := count + 1), Nat.mod_mul]

/-! ## Any bytes -/

/-- The number that the low seven bits of the bytes carry, lowest group first. -/
def joinGroups : List UInt8 → Nat
  | [] => 0
  | byte :: rest => byte.toNat % 128 + 128 * joinGroups rest

/-- The bytes of one number: all but the last have the flag. -/
def Packed (bytes : List UInt8) : Prop :=
  ∃ lead last, bytes = lead ++ [last] ∧ (∀ byte ∈ lead, 128 ≤ byte.toNat) ∧ last.toNat < 128

theorem joinGroups_lt (bytes : List UInt8) : joinGroups bytes < 2 ^ (7 * bytes.length) := by
  induction bytes with
  | nil => exact Nat.one_pos
  | cons byte rest ih =>
      have hgroup : byte.toNat % 128 < 128 := Nat.mod_lt _ (by decide)
      rw [joinGroups, List.length_cons, Nat.mul_succ, Nat.pow_add]
      omega

/-- The reader takes the bytes of one number, whatever follows them. -/
theorem readGroups_append {front : List UInt8} (rest : List UInt8) (hfront : Packed front) :
    readGroups (front ++ rest) = (front.length, joinGroups front) := by
  obtain ⟨lead, last, rfl, hflags, hlast⟩ := hfront
  rw [List.append_assoc, List.singleton_append]
  induction lead with
  | nil =>
      rw [List.nil_append, List.nil_append, readGroups_last rest hlast, joinGroups, joinGroups,
        Nat.mod_eq_of_lt hlast]
      rfl
  | cons byte lead ih =>
      obtain ⟨hbyte, hflags⟩ := List.forall_mem_cons.mp hflags
      rw [List.cons_append, readGroups_more _ hbyte, ih hflags, List.cons_append, joinGroups,
        List.length_cons]

/-- Where a byte has no flag, the bytes up to the first one of them are those of a number. -/
theorem exists_packed_append {bytes : List UInt8} (hlast : ∃ byte ∈ bytes, byte.toNat < 128) :
    ∃ front rest, bytes = front ++ rest ∧ Packed front := by
  induction bytes with
  | nil =>
      obtain ⟨byte, hmem, -⟩ := hlast
      cases hmem
  | cons byte bytes ih =>
      by_cases hbyte : byte.toNat < 128
      · exact ⟨[byte], bytes, rfl, [], byte, rfl, List.forall_mem_nil _, hbyte⟩
      · obtain ⟨front, rest, rfl, lead, last, rfl, hflags, hclear⟩ :=
          ih (by simpa [hbyte] using hlast)
        refine ⟨byte :: (lead ++ [last]), rest, rfl, byte :: lead, last, rfl, ?_, hclear⟩
        exact List.forall_mem_cons.mpr ⟨Nat.not_lt.mp hbyte, hflags⟩

/-- Where every byte has the flag, the reader counts one more than there are. -/
theorem readGroups_fst_of_flags {bytes : List UInt8} (hflags : ∀ byte ∈ bytes, 128 ≤ byte.toNat) :
    (readGroups bytes).1 = bytes.length + 1 := by
  induction bytes with
  | nil => rfl
  | cons byte rest ih =>
      obtain ⟨hbyte, hrest⟩ := List.forall_mem_cons.mp hflags
      rw [readGroups_more rest hbyte, ih hrest, List.length_cons]

end Base128
