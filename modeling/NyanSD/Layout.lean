import NyanSD.Foundation.Access
import NyanSD.Wire

/-!
# Sections as they lie in a datagram

A section is a mark, some fields, and strings behind stored lengths. The stored
length of a string and the string itself are kept apart here, since a composer can
narrow the one and append the other, and a datagram can claim a length it has no
bytes for. A section is what a reader takes it for only if the two agree.
-/

namespace NyanSD.Wire

structure QueryFields where
  prot : UInt8
  length : UInt8
  filter : Bytes

namespace QueryFields

def bytes (q : QueryFields) : Bytes := querySignature :: q.prot :: q.length :: q.filter

/-- The stored length is the one of the string. -/
def Exact (q : QueryFields) : Prop := q.length.toNat = q.filter.length

end QueryFields

/-- A query section with any protocol byte that lies in a datagram as a whole. -/
structure QuerySection extends QueryFields where
  exact : toQueryFields.Exact

structure ServiceFields where
  ipv4 : UInt32
  ipv6Length : UInt8
  ipv6 : Bytes
  hostLength : UInt16
  hostname : Bytes
  port : UInt16
  prot : UInt8
  serviceLength : UInt16
  service : Bytes

namespace ServiceFields

def bytes (s : ServiceFields) : Bytes :=
  serviceSignature :: (MachineInt.bytes s.ipv4 ++ s.ipv6Length :: s.ipv6 ++
    MachineInt.bytes s.hostLength ++ s.hostname ++ MachineInt.bytes s.port ++ [s.prot] ++
    MachineInt.bytes s.serviceLength ++ s.service)

/-- The stored lengths are those of the strings. -/
structure Exact (s : ServiceFields) : Prop where
  ipv6 : s.ipv6Length.toNat = s.ipv6.length
  hostname : s.hostLength.toNat = s.hostname.length
  service : s.serviceLength.toNat = s.service.length

end ServiceFields

/-- A service section with any protocol byte that lies in a datagram as a whole. -/
structure ServiceSection extends ServiceFields where
  exact : toServiceFields.Exact

theorem QueryFields.length_bytes (q : QueryFields) : q.bytes.length = 3 + q.filter.length := by
  simp only [bytes, List.length_cons]
  omega

theorem ServiceFields.length_bytes (s : ServiceFields) :
    s.bytes.length = 13 + s.ipv6.length + s.hostname.length + s.service.length := by
  simp [bytes]
  omega

/-! ## Records as sections -/

/-- The fields a record is stored in; its lengths are narrowed to their widths. -/
def storedService (sv : NYSDService) : ServiceFields where
  ipv4 := sv.ipv4
  ipv6Length := UInt8.ofNat sv.ipv6.length
  ipv6 := sv.ipv6
  hostLength := UInt16.ofNat sv.hostname.length
  hostname := sv.hostname
  port := sv.port
  prot := sv.protocol.toByte
  serviceLength := UInt16.ofNat sv.service.length
  service := sv.service

theorem bytes_storedService (sv : NYSDService) : (storedService sv).bytes = serviceSection sv := by
  simp [ServiceFields.bytes, storedService, serviceSection, shortString, longString]

theorem toNat_ofNat8_eq_iff {n : Nat} : (UInt8.ofNat n).toNat = n ↔ n < 2 ^ 8 := by
  rw [UInt8.toNat_ofNat', Nat.mod_eq_iff_lt (by decide)]

theorem toNat_ofNat16_eq_iff {n : Nat} : (UInt16.ofNat n).toNat = n ↔ n < 2 ^ 16 := by
  rw [UInt16.toNat_ofNat', Nat.mod_eq_iff_lt (by decide)]

/-- The stored lengths of a record are exact when none of them is narrowed. -/
theorem exact_storedService_iff (sv : NYSDService) : (storedService sv).Exact ↔ Fits sv := by
  constructor
  · intro hexact
    exact ⟨toNat_ofNat8_eq_iff.mp hexact.ipv6, toNat_ofNat16_eq_iff.mp hexact.hostname,
      toNat_ofNat16_eq_iff.mp hexact.service⟩
  · intro hfits
    exact ⟨toNat_ofNat8_eq_iff.mpr hfits.ipv6, toNat_ofNat16_eq_iff.mpr hfits.hostname,
      toNat_ofNat16_eq_iff.mpr hfits.service⟩

/-- The section of a record whose strings fit. -/
def sectionOf (sv : NYSDService) (hfits : Fits sv) : ServiceSection where
  toServiceFields := storedService sv
  exact := (exact_storedService_iff sv).mpr hfits

/-! ## Bytes that a section loop can walk over -/

section Sectioned

variable {α : Type} {emit : α → Bytes} {mark : UInt8}

variable (emit mark) in
/-- The bytes start with sections: as many as are asked for, or fewer of them and then
a byte that does not start another one. -/
def Sectioned (count : Nat) (bytes : Bytes) : Prop :=
  ∃ (sections : List α) (rest : Bytes), bytes = sections.flatMap emit ++ rest ∧
    (sections.length = count ∨
      sections.length < count ∧ ∃ other tail, rest = other :: tail ∧ other ≠ mark)

theorem sectioned_zero (bytes : Bytes) : Sectioned emit mark 0 bytes :=
  ⟨[], bytes, rfl, .inl rfl⟩

theorem sectioned_of_ne {count : Nat} {other : UInt8} (tail : Bytes) (hother : other ≠ mark) :
    Sectioned emit mark count (other :: tail) := by
  refine ⟨[], other :: tail, rfl, ?_⟩
  rcases Nat.eq_zero_or_pos count with hzero | hpos
  · exact .inl hzero.symm
  · exact .inr ⟨hpos, other, tail, rfl, hother⟩

theorem not_sectioned_nil (hmark : ∀ s, (emit s).head? = some mark) (count : Nat) :
    ¬ Sectioned emit mark (count + 1) [] := by
  rintro ⟨sections, rest, hsplit, hend⟩
  cases sections with
  | nil =>
      rcases hend with hcount | ⟨-, other, tail, rfl, -⟩
      · cases hcount
      · cases hsplit
  | cons s sections =>
      have hhead := hmark s
      rw [List.flatMap_cons, List.append_assoc] at hsplit
      rw [(List.append_eq_nil_iff.mp hsplit.symm).1] at hhead
      cases hhead

/-- Where a section starts, the others follow behind it. -/
theorem sectioned_cons_iff {count : Nat} (tail : Bytes) :
    Sectioned emit mark (count + 1) (mark :: tail) ↔
      ∃ s rest, mark :: tail = emit s ++ rest ∧ Sectioned emit mark count rest := by
  constructor
  · rintro ⟨sections, rest, hsplit, hend⟩
    cases sections with
    | nil =>
        rcases hend with hcount | ⟨-, other, more, rfl, hother⟩
        · cases hcount
        · exact absurd (List.cons.inj hsplit).1.symm hother
    | cons s sections =>
        rw [List.flatMap_cons, List.append_assoc] at hsplit
        refine ⟨s, _, hsplit, sections, rest, rfl, ?_⟩
        simpa using hend
  · rintro ⟨s, rest, hsplit, sections, last, rfl, hend⟩
    refine ⟨s :: sections, last, ?_, by simpa using hend⟩
    rw [hsplit, List.flatMap_cons, List.append_assoc]

/-- What a loop over sections asks of the bytes in front of `bound`: nothing when no pass
is left, one more byte for a pass, and a whole section behind its mark. Then it asks for
bytes that it can walk over. -/
theorem sectioned_of_passes {σ : Type} {P : Nat → Nat → σ → Prop} {f : α → σ → σ}
    {memory : Nat → UInt8} {bound : Nat} (hmark : ∀ s, (emit s).head? = some mark)
    (hdone : ∀ index state, P 0 index state)
    (hend : ∀ count state, ¬ P (count + 1) bound state)
    (hother : ∀ count index state, index < bound → memory index ≠ mark → P count index state)
    (hsection : ∀ count index state tail, index + (mark :: tail).length = bound →
      Access.Holds memory index (mark :: tail) →
      (P (count + 1) index state ↔ ∃ s more, mark :: tail = emit s ++ more ∧
        P count (index + (emit s).length) (f s state)))
    {count index : Nat} (state : σ) {rest : Bytes} (hbound : index + rest.length = bound)
    (hholds : Access.Holds memory index rest) :
    P count index state ↔ Sectioned emit mark count rest := by
  induction count generalizing index state rest with
  | zero => exact iff_of_true (hdone index state) (sectioned_zero rest)
  | succ count ih =>
      rcases rest with _ | ⟨other, tail⟩
      · obtain rfl : index = bound := hbound
        exact iff_of_false (hend count state) (not_sectioned_nil hmark count)
      by_cases hstarts : other = mark
      · subst hstarts
        rw [hsection count index state tail hbound hholds, sectioned_cons_iff]
        refine exists_congr fun s => exists_congr fun more => and_congr_right ?_
        intro hsplit
        rw [hsplit] at hbound hholds
        rw [List.length_append, ← Nat.add_assoc] at hbound
        exact ih (f s state) hbound ((Access.holds_append _ _ _ _).mp hholds).2
      · refine iff_of_true (hother _ index state ?_ ?_) (sectioned_of_ne tail hstarts)
        · rw [← hbound, List.length_cons]
          omega
        · rw [hholds.1]
          exact hstarts

end Sectioned

end NyanSD.Wire
