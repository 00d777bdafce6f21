import NyanSD.Suppression
import NyanSD.ResponseBounds

/-!
# The length field as a frame

The length field of a message counts the bytes behind it. The parser uses it for one
comparison with what is left of the datagram; where a message ends it learns from the
count and from the lengths in its sections. A response ends where its length field says
exactly when a datagram is put together in that way.
-/

namespace NyanSD

open Access ByteBauble

variable (host : BBEndianness)

/-! ## The responses the loop reads -/

/-- A response message that the loop comes to: where it starts, the records so far, and
what the section loop makes of it. -/
structure ResponsePass where
  index : Nat
  before : List NYSDService
  outcome : Option Nat × List NYSDService
deriving DecidableEq, Repr

/-- The response messages that the message loop reads, pass after pass. -/
def responsePasses (length : UInt32) (memory : Nat → UInt8) :
    Nat → Nat → List NYSDService → List ResponsePass
  | 0, _, _ => []
  | fuel + 1, index, responses =>
      if index < length.toNat then
        if (span 0 6).run memory ≠ Wire.signature then []
        else if LengthTooLarge host length memory index then []
        else if memory (index + 8) ≠ NYSDMessageType.response.toByte then
          responsePasses length memory fuel (index + 9) responses
        else
          let outcome :=
            (parseServices host (memory (index + 9)).toNat (index + 10) responses).run memory
          ⟨index, responses, outcome⟩ ::
            match outcome with
            | (none, _) => []
            | (some next, taken) => responsePasses length memory fuel next taken
      else []

/-- Every record comes from one of these messages: the loop ends with what the last of
them left. -/
theorem run_parseMessages_snd (length : UInt32) (memory : Nat → UInt8) (fuel index : Nat)
    (responses : List NYSDService) :
    ((parseMessages host length fuel index responses).run memory).2 =
      (responsePasses host length memory fuel index responses).foldl
        (fun _ pass => pass.outcome.2) responses := by
  induction fuel generalizing index responses with
  | zero => rfl
  | succ fuel ih =>
      rw [run_parseMessages_succ, responsePasses]
      split
      · split
        · rfl
        split
        · rfl
        split
        · exact ih _ _
        rw [List.foldl_cons]
        split
        next hrun => rw [hrun]; rfl
        next hrun => rw [hrun]; exact ih _ _
      · rfl

/-- The messages read from a buffer that holds at least eight bytes. -/
def ResponseStruct.passes (buffer : ResponseStruct) (responses : List NYSDService) :
    List ResponsePass :=
  let n := buffer.length.toNat
  if n < 8 then [] else responsePasses host buffer.length buffer.data n 0 responses

/-- A message that is accepted ends where its length field says, and one that is
rejected adds no record. -/
def ResponsePass.Framed (memory : Nat → UInt8) (pass : ResponsePass) : Prop :=
  match pass.outcome with
  | (some next, _) => next = pass.index + 8 + lengthField host memory pass.index
  | (none, taken) => taken = pass.before

/-- Whatever the buffer held before, the length fields frame the responses that are read
from a datagram. -/
def LengthsFrame (datagram : Bytes) : Prop :=
  ∀ (heap : Nat → UInt8) (responses : List NYSDService),
    ∀ pass ∈ (receiveBytes datagram heap).passes host responses,
      pass.Framed host (receiveBytes datagram heap).data

/-- These bytes are messages whose length fields say where the responses end. -/
inductive FramedBytes : Bytes → Prop
  | done : FramedBytes []
  /-- A length field that says more than is there ends the parsing. -/
  | refused (start : Bytes) (length : UInt16) (rest : Bytes) : start.length = 6 →
      rest.length < length.toNat → FramedBytes (start ++ MachineInt.bytes length ++ rest)
  /-- A message of another type is taken to end behind its type byte. -/
  | otherType (header : Bytes) (type : UInt8) (rest : Bytes) : header.length = 8 →
      type ≠ NYSDMessageType.response.toByte → FramedBytes rest →
      FramedBytes (header ++ type :: rest)
  /-- The length field counts the type byte, the count byte and the sections. -/
  | response (start : Bytes) (length : UInt16) (count : UInt8)
      (sections : List Wire.ServiceSection) (rest : Bytes) : start.length = 6 →
      length.toNat = 2 + (sections.flatMap fun s => s.bytes).length →
      sections.length = count.toNat → FramedBytes rest →
      FramedBytes (start ++ MachineInt.bytes length ++
        NYSDMessageType.response.toByte :: count :: ((sections.flatMap fun s => s.bytes) ++ rest))
  /-- A byte that starts no section, in front of the first record, ends the parsing. -/
  | stopped (header : Bytes) (count other : UInt8) (rest : Bytes) : header.length = 8 →
      count ≠ 0 → other ≠ Wire.serviceSignature →
      FramedBytes (header ++ NYSDMessageType.response.toByte :: count :: other :: rest)

/-! ## One pass -/

section Pass

variable {host} {memory : Nat → UInt8} {length : UInt32} {index : Nat}

theorem responsePasses_of_le (fuel : Nat) (responses : List NYSDService)
    (hend : length.toNat ≤ index) :
    responsePasses host length memory fuel index responses = [] := by
  cases fuel with
  | zero => rfl
  | succ fuel => rw [responsePasses, if_neg (Nat.not_lt.mpr hend)]

theorem responsePasses_of_large (fuel : Nat) (responses : List NYSDService)
    (hlarge : LengthTooLarge host length memory index) :
    responsePasses host length memory fuel index responses = [] := by
  cases fuel with
  | zero => rfl
  | succ fuel =>
      rw [responsePasses]
      split
      · split
        · rfl
        · rfl
      · rfl

/-- A pass behind a right signature, with a length field that is not too large. -/
theorem responsePasses_pass (fuel : Nat) (responses : List NYSDService)
    (hsignature : (span 0 6).run memory = Wire.signature) (hinside : index < length.toNat)
    (hfits : ¬ LengthTooLarge host length memory index) :
    responsePasses host length memory (fuel + 1) index responses =
      if memory (index + 8) ≠ NYSDMessageType.response.toByte then
        responsePasses host length memory fuel (index + 9) responses
      else
        let outcome :=
          (parseServices host (memory (index + 9)).toNat (index + 10) responses).run memory
        ⟨index, responses, outcome⟩ ::
          match outcome with
          | (none, _) => []
          | (some next, taken) => responsePasses host length memory fuel next taken := by
  rw [responsePasses, if_pos hinside, if_neg (not_not.mpr hsignature), if_neg hfits]

/-- The passes are framed when the first one is and the ones behind it are. -/
theorem framed_responsePasses_response {fuel : Nat} (responses : List NYSDService)
    (hsignature : (span 0 6).run memory = Wire.signature) (hinside : index < length.toNat)
    (hfits : ¬ LengthTooLarge host length memory index)
    (htype : memory (index + 8) = NYSDMessageType.response.toByte) :
    (∀ pass ∈ responsePasses host length memory (fuel + 1) index responses,
        pass.Framed host memory) ↔
      ResponsePass.Framed host memory ⟨index, responses,
        (parseServices host (memory (index + 9)).toNat (index + 10) responses).run memory⟩ ∧
      ∀ next taken, (parseServices host (memory (index + 9)).toNat (index + 10)
          responses).run memory = (some next, taken) →
        ∀ pass ∈ responsePasses host length memory fuel next taken, pass.Framed host memory := by
  rw [responsePasses_pass fuel responses hsignature hinside hfits, if_neg (not_not.mpr htype),
    List.forall_mem_cons]
  apply and_congr_right
  intro _
  rcases (parseServices host (memory (index + 9)).toNat (index + 10) responses).run memory with
    ⟨_ | next, taken⟩
  · apply iff_of_true (List.forall_mem_nil _)
    intro next taken hnone
    cases hnone
  · constructor
    · rintro hrest _ _ ⟨⟩
      exact hrest
    · intro hrest
      exact hrest next taken rfl

/-- The two bytes of a length field, wherever they lie. -/
theorem lengthField_eq (memory : Nat → UInt8) (index : Nat) :
    lengthField host memory index =
      (memory (index + 6)).toNat + 256 * (memory (index + 7)).toNat := by
  have hholds : Holds memory (index + 6) [memory (index + 6), memory (index + 7)] :=
    ⟨rfl, rfl, trivial⟩
  have hbytes : MachineInt.bytes (MachineInt.ofBytes [memory (index + 6), memory (index + 7)] :
      UInt16) = [memory (index + 6), memory (index + 7)] := MachineInt.bytes_ofBytes rfl
  rw [← hbytes] at hholds
  have hlow := (memory (index + 6)).toNat_lt
  have hhigh := (memory (index + 7)).toNat_lt
  have hvalue : fromBytes [memory (index + 6), memory (index + 7)] =
      (memory (index + 6)).toNat + 256 * (memory (index + 7)).toNat := by
    simp only [fromBytes, Nat.mul_zero, Nat.add_zero]
  have hrange : (memory (index + 6)).toNat + 256 * (memory (index + 7)).toNat < 2 ^ 16 := by omega
  rw [lengthField, toHost_load swappable_uint16 host hholds, MachineInt.ofBytes, hvalue]
  exact UInt16.toNat_ofNat_of_lt' hrange

/-- Where the length field itself is not all there, the computed remaining length wraps
around, and no length field is too large. -/
theorem not_lengthTooLarge_of_wrap (hinside : index < length.toNat)
    (hshort : length.toNat < index + 8) (hsmall : length.toNat ≤ receiveSize) :
    ¬ LengthTooLarge host length memory index := by
  have hlow := (memory (index + 6)).toNat_lt
  have hhigh := (memory (index + 7)).toNat_lt
  rw [receiveSize] at hsmall
  have hrange : index + 8 < 2 ^ 32 := by omega
  have hposition : (UInt32.ofNat (index + 8)).toNat = index + 8 :=
    UInt32.toNat_ofNat_of_lt' hrange
  have hwrap := UInt32.toNat_sub length (UInt32.ofNat (index + 8))
  rw [LengthTooLarge, lengthField_eq, hwrap, hposition]
  omega

/-- Sections that were read to the last lie in the memory one behind the other. -/
theorem exists_sections_of_run {count next : Nat} {responses taken : List NYSDService}
    (hrun : (parseServices host count index responses).run memory = (some next, taken)) :
    ∃ sections : List Wire.ServiceSection, sections.length = count ∧
      Holds memory index (sections.flatMap fun s => s.bytes) ∧
      next = index + (sections.flatMap fun s => s.bytes).length := by
  induction count generalizing index responses with
  | zero =>
      cases hrun
      exact ⟨[], rfl, holds_nil memory _, rfl⟩
  | succ count ih =>
      rw [run_parseServices_succ] at hrun
      split at hrun
      · cases hrun
      next hmark =>
        obtain ⟨s, hsection⟩ := exists_section (not_not.mp hmark)
        rw [run_parseService host s hsection] at hrun
        obtain ⟨sections, hcount, hholds, hnext⟩ := ih hrun
        refine ⟨s :: sections, congrArg (· + 1) hcount, ?_, ?_⟩
        · rw [List.flatMap_cons]
          exact (holds_append _ _ _ _).mpr ⟨hsection, hholds⟩
        · rw [List.flatMap_cons, List.length_append, hnext, Nat.add_assoc]

end Pass

/-! ## Framed bytes are framed -/

section Sufficient

variable {memory : Nat → UInt8} {length : UInt32} {index : Nat}

theorem framed_of_framedBytes {fuel : Nat} {rest : Bytes} (responses : List NYSDService)
    (hsignature : (span 0 6).run memory = Wire.signature) (hframed : FramedBytes rest)
    (hlength : index + rest.length = length.toNat) (hfuel : rest.length ≤ fuel)
    (hholds : Holds memory index rest) :
    ∀ pass ∈ responsePasses host length memory fuel index responses, pass.Framed host memory := by
  induction hframed generalizing fuel index responses with
  | done =>
      have hend : length.toNat ≤ index := hlength.ge
      rw [responsePasses_of_le fuel responses hend]
      exact List.forall_mem_nil _
  | refused start field rest hstart hmore =>
      have hlarge := (lengthTooLarge_iff host hstart hlength hholds).mpr hmore
      rw [responsePasses_of_large fuel responses hlarge]
      exact List.forall_mem_nil _
  | otherType header type rest hheader htype _ ih =>
      by_cases hlarge : LengthTooLarge host length memory index
      · rw [responsePasses_of_large fuel responses hlarge]
        exact List.forall_mem_nil _
      obtain ⟨hmark, hrest⟩ := hholds.behind hheader
      simp only [List.length_append, List.length_cons, hheader] at hlength hfuel
      obtain ⟨fuel, rfl⟩ := Nat.exists_eq_add_of_le' (show 1 ≤ fuel by omega)
      rw [responsePasses_pass fuel responses hsignature (by omega) hlarge, if_pos (by rwa [hmark])]
      exact ih responses (by omega) (by omega) hrest
  | response start field count sections rest hstart hfield hcount _ ih =>
      obtain ⟨hmark, hnumber, hbody⟩ := hholds.behind (length_start_field field hstart)
      have hfits := mt (lengthTooLarge_iff host hstart hlength hholds).mp
        (by rw [List.length_cons, List.length_cons, List.length_append]; omega)
      have hsame := lengthField_of_bytes host hstart ((holds_append _ _ _ _).mp hholds).1
      rw [List.length_append, length_start_field field hstart] at hlength hfuel
      simp only [List.length_append, List.length_cons] at hlength hfuel
      obtain ⟨hsections, hrest⟩ := (holds_append _ _ _ _).mp hbody
      have hrun := run_parseServices host sections responses hsections
      obtain ⟨fuel, rfl⟩ := Nat.exists_eq_add_of_le' (show 1 ≤ fuel by omega)
      rw [framed_responsePasses_response responses hsignature (by omega) hfits hmark, hnumber,
        ← hcount, hrun]
      refine ⟨?_, ?_⟩
      · change _ = index + 8 + lengthField host memory index
        omega
      · rintro _ _ ⟨⟩
        exact ih _ (by omega) (by omega) hrest
  | stopped header count other rest hheader hcount hother =>
      by_cases hlarge : LengthTooLarge host length memory index
      · rw [responsePasses_of_large fuel responses hlarge]
        exact List.forall_mem_nil _
      obtain ⟨hmark, hnumber, hbyte, -⟩ := hholds.behind hheader
      simp only [List.length_append, List.length_cons, hheader] at hlength hfuel
      obtain ⟨fuel, rfl⟩ := Nat.exists_eq_add_of_le' (show 1 ≤ fuel by omega)
      obtain ⟨passes, hsucc⟩ := Nat.exists_eq_succ_of_ne_zero
        (fun hzero => hcount (UInt8.toNat_inj.mp hzero) : count.toNat ≠ 0)
      rw [framed_responsePasses_response responses hsignature (by omega) hlarge hmark, hnumber,
        hsucc, run_parseServices_succ, hbyte, if_pos hother]
      refine ⟨rfl, ?_⟩
      intro next taken hnone
      cases hnone

end Sufficient

/-! ## What is framed is framed bytes -/

section Necessary

variable {data : (Nat → UInt8) → Nat → UInt8} {length : UInt32} {index : Nat}

/-- A response without a section is framed by a length field of two. -/
theorem lengthField_eq_two {memory : Nat → UInt8} {fuel : Nat} {responses : List NYSDService}
    (hsignature : (span 0 6).run memory = Wire.signature) (hinside : index < length.toNat)
    (hfits : ¬ LengthTooLarge host length memory index)
    (htype : memory (index + 8) = NYSDMessageType.response.toByte)
    (hcount : memory (index + 9) = 0)
    (hframed : ∀ pass ∈ responsePasses host length memory (fuel + 1) index responses,
      pass.Framed host memory) :
    lengthField host memory index = 2 := by
  rw [framed_responsePasses_response responses hsignature hinside hfits htype, hcount] at hframed
  have hnext : index + 10 = index + 8 + lengthField host memory index := hframed.1
  omega

/-- Memory that would be taken for a response without a section. -/
def emptyResponseAt (index : Nat) : Nat → UInt8 := fun address =>
  if address = index + 8 then NYSDMessageType.response.toByte
  else if address = index + 9 then 0 else 1

@[simp] theorem emptyResponseAt_type (index : Nat) :
    emptyResponseAt index (index + 8) = NYSDMessageType.response.toByte := if_pos rfl

@[simp] theorem emptyResponseAt_count (index : Nat) : emptyResponseAt index (index + 9) = 0 := by
  simp [emptyResponseAt]

@[simp] theorem emptyResponseAt_length (index : Nat) : emptyResponseAt index (index + 7) = 1 := by
  simp [emptyResponseAt]

/-- A response whose first section has the right signature and that is framed lies in the
datagram with all its sections. -/
theorem exists_sections_of_framed {memory : Nat → UInt8} {fuel : Nat}
    {responses : List NYSDService} {count : UInt8}
    (hsignature : (span 0 6).run memory = Wire.signature) (hinside : index + 8 ≤ length.toNat)
    (hfits : ¬ LengthTooLarge host length memory index)
    (htype : memory (index + 8) = NYSDMessageType.response.toByte)
    (hnumber : memory (index + 9) = count) (hcount : count ≠ 0)
    (hmark : memory (index + 10) = Wire.serviceSignature)
    (hframed : ∀ pass ∈ responsePasses host length memory (fuel + 1) index responses,
      pass.Framed host memory) :
    ∃ sections : List Wire.ServiceSection, sections.length = count.toNat ∧
      Holds memory (index + 10) (sections.flatMap fun s => s.bytes) ∧
      lengthField host memory index = 2 + (sections.flatMap fun s => s.bytes).length ∧
      index + 8 + lengthField host memory index ≤ length.toNat := by
  rw [framed_responsePasses_response responses hsignature (by omega) hfits htype, hnumber]
    at hframed
  have htaken := length_lt_length_parseServices host responses
    (fun hzero => hcount (UInt8.toNat_inj.mp hzero) : count.toNat ≠ 0) hmark
  rcases hrun : (parseServices host count.toNat (index + 10) responses).run memory with
    ⟨_ | next, taken⟩
  · -- the record of the first section was added
    rw [hrun] at htaken hframed
    have hnone : taken = responses := hframed.1
    rw [hnone] at htaken
    exact absurd htaken (lt_irrefl _)
  · rw [hrun] at hframed
    have hnext : next = index + 8 + lengthField host memory index := hframed.1
    obtain ⟨sections, hlength, hholds, hend⟩ := exists_sections_of_run hrun
    rw [LengthTooLarge, toNat_sub_ofNat hinside] at hfits
    exact ⟨sections, hlength, hholds, by omega, by omega⟩

/-- A message with its length field in the datagram, and framed whatever the buffer held
before. -/
structure FramedHeader (data : (Nat → UInt8) → Nat → UInt8) (length : UInt32) (index fuel : Nat)
    (responses : List NYSDService) (field : UInt16) (behind : Bytes) : Prop where
  signature : ∀ heap, (span 0 6).run (data heap) = Wire.signature
  beyond : ∀ heap address, length.toNat ≤ address → data heap address = heap address
  field_le : field.toNat ≤ behind.length
  length_eq : index + 8 + behind.length = length.toNat
  fits : ∀ heap, ¬ LengthTooLarge host length (data heap) index
  field_eq : ∀ heap, lengthField host (data heap) index = field.toNat
  holds : ∀ heap, Holds (data heap) (index + 8) behind
  framed : ∀ heap, ∀ pass ∈ responsePasses host length (data heap) (fuel + 1) index responses,
    pass.Framed host (data heap)

namespace FramedHeader

variable {host} {fuel : Nat} {responses : List NYSDService} {field : UInt16} {type count : UInt8}
  {behind body : Bytes}

/-- An empty response is framed by a length field of two. -/
theorem field_eq_two (hheader : FramedHeader host data length index fuel responses field behind)
    (hinside : index < length.toNat) (heap : Nat → UInt8)
    (htype : data heap (index + 8) = NYSDMessageType.response.toByte)
    (hcount : data heap (index + 9) = 0) : field.toNat = 2 := by
  rw [← hheader.field_eq heap]
  exact lengthField_eq_two host (hheader.signature heap) hinside (hheader.fits heap) htype hcount
    (hheader.framed heap)

/-- Without a type byte, what stood there before is taken for one. -/
theorem behind_ne_nil (hinside : index < length.toNat) :
    ¬ FramedHeader host data length index fuel responses field [] := by
  intro hheader
  have hlength := hheader.length_eq
  have hfield := hheader.field_le
  have htype := hheader.beyond (emptyResponseAt index) (index + 8) hlength.ge
  have hcount := hheader.beyond (emptyResponseAt index) (index + 9) (Nat.le_succ_of_le hlength.ge)
  rw [emptyResponseAt_type] at htype
  rw [emptyResponseAt_count] at hcount
  rw [hheader.field_eq_two hinside _ htype hcount] at hfield
  cases hfield

/-- Without a count, zero is read where it should be. -/
theorem count_exists :
    ¬ FramedHeader host data length index fuel responses field
      [NYSDMessageType.response.toByte] := by
  intro hheader
  have hlength := hheader.length_eq
  have hfield := hheader.field_le
  rw [List.length_singleton] at hlength hfield
  have hcount := hheader.beyond (emptyResponseAt index) (index + 9) hlength.ge
  rw [emptyResponseAt_count] at hcount
  have htwo := hheader.field_eq_two (by omega) _ (hheader.holds _).1 hcount
  omega

/-- The passes behind the sections of a response are framed as well. -/
theorem framed_next
    (hheader : FramedHeader host data length index fuel responses field
      (NYSDMessageType.response.toByte :: count :: body)) (heap : Nat → UInt8) {next : Nat}
    {taken : List NYSDService}
    (hrun : (parseServices host count.toNat (index + 10) responses).run (data heap) =
      (some next, taken)) :
    ∀ pass ∈ responsePasses host length (data heap) fuel next taken,
      pass.Framed host (data heap) := by
  obtain ⟨htype, hnumber, -⟩ := hheader.holds heap
  have hinside : index < length.toNat := by
    have hlength := hheader.length_eq
    omega
  apply ((framed_responsePasses_response responses (hheader.signature heap) hinside
    (hheader.fits heap) htype).mp (hheader.framed heap)).2
  rwa [hnumber]

/-- A section that would begin behind the datagram takes more than there is. -/
theorem body_ne_nil (hcount : count ≠ 0) :
    ¬ FramedHeader host data length index fuel responses field
      [NYSDMessageType.response.toByte, count] := by
  intro hheader
  have hlength := hheader.length_eq
  rw [List.length_cons, List.length_singleton] at hlength
  obtain ⟨htype, hnumber, -⟩ := hheader.holds fun _ => Wire.serviceSignature
  have hmark := hheader.beyond (fun _ => Wire.serviceSignature) (index + 10) (by omega)
  obtain ⟨sections, hsections, -, hfills, hroom⟩ := exists_sections_of_framed host
    (hheader.signature _) (by omega) (hheader.fits _) htype hnumber hcount hmark
    (hheader.framed _)
  have hbytes : 13 * sections.length ≤ (sections.flatMap fun s => s.bytes).length := by
    apply Wire.mul_length_le_length_flatMap
    intro s
    rw [s.length_bytes]
    omega
  have hnone : count.toNat = 0 := by omega
  exact hcount (UInt8.toNat_inj.mp hnone)

/-- The sections of a response lie in the datagram, and its length field counts them. -/
theorem exists_sections (hcount : count ≠ 0)
    (hheader : FramedHeader host data length index fuel responses field
      (NYSDMessageType.response.toByte :: count :: Wire.serviceSignature :: body)) :
    ∃ (sections : List Wire.ServiceSection) (rest : Bytes), sections.length = count.toNat ∧
      Wire.serviceSignature :: body = (sections.flatMap fun s => s.bytes) ++ rest ∧
      field.toNat = 2 + (sections.flatMap fun s => s.bytes).length := by
  have hlength := hheader.length_eq
  simp only [List.length_cons] at hlength
  obtain ⟨htype, hnumber, hbody⟩ := hheader.holds fun _ => 0
  obtain ⟨sections, hsections, hholds, hfills, hroom⟩ := exists_sections_of_framed host
    (hheader.signature _) (by omega) (hheader.fits _) htype hnumber hcount hbody.1
    (hheader.framed _)
  rw [hheader.field_eq] at hfills hroom
  obtain ⟨rest, hrest⟩ := hholds.isPrefix hbody (by rw [List.length_cons]; omega)
  exact ⟨sections, rest, hsections, hrest.symm, hfills⟩

/-- A message is framed by its bytes, if the passes behind it leave framed bytes. -/
theorem framedBytes {start : Bytes}
    (hheader : FramedHeader host data length index fuel responses field behind)
    (hinside : index < length.toNat) (hstart : start.length = 6)
    (hpasses : ∀ next rest taken, next + rest.length = length.toNat →
      rest.length ≤ behind.length → (∀ heap, Holds (data heap) next rest) →
      (∀ heap, ∀ pass ∈ responsePasses host length (data heap) fuel next taken,
        pass.Framed host (data heap)) → FramedBytes rest) :
    FramedBytes (start ++ MachineInt.bytes field ++ behind) := by
  have height := length_start_field field hstart
  have hlength := hheader.length_eq
  have hholds := hheader.holds
  rcases behind with _ | ⟨type, behind⟩
  · exact absurd hheader (behind_ne_nil hinside)
  rw [List.length_cons] at hlength hpasses
  by_cases hresponse : type = NYSDMessageType.response.toByte
  swap
  · refine .otherType _ type behind height hresponse ?_
    apply hpasses (index + 9) behind responses (by omega) (by omega) fun heap => (hholds heap).2
    intro heap
    have hpass := hheader.framed heap
    rwa [responsePasses_pass fuel responses (hheader.signature heap) hinside (hheader.fits heap),
      if_pos (by rwa [(hholds heap).1])] at hpass
  subst hresponse
  rcases behind with _ | ⟨count, body⟩
  · exact absurd hheader count_exists
  rw [List.length_cons] at hlength hpasses
  by_cases hcount : count = 0
  · subst hcount
    obtain ⟨htype, hnumber, -⟩ := hholds fun _ => 0
    refine .response start field 0 [] body hstart
      (hheader.field_eq_two hinside _ htype hnumber) rfl ?_
    apply hpasses (index + 10) body responses (by omega) (by omega) fun heap => (hholds heap).2.2
    exact fun heap => hheader.framed_next heap rfl
  rcases body with _ | ⟨other, tail⟩
  · exact absurd hheader (body_ne_nil hcount)
  by_cases hother : other = Wire.serviceSignature
  swap
  · exact .stopped _ count other tail height hcount hother
  subst hother
  obtain ⟨sections, rest, hnumber, hbody, hfills⟩ := hheader.exists_sections hcount
  rw [hbody] at hlength hholds hpasses ⊢
  rw [List.length_append] at hlength hpasses
  refine .response start field count sections rest hstart hfills hnumber ?_
  apply hpasses (index + 10 + (sections.flatMap fun s => s.bytes).length) rest
    (responses ++ sections.map fun s => s.record) (by omega) (by omega)
    fun heap => ((holds_append _ _ _ _).mp (hholds heap).2.2).2
  intro heap
  apply hheader.framed_next heap
  rw [← hnumber]
  exact run_parseServices host sections responses ((holds_append _ _ _ _).mp (hholds heap).2.2).1

end FramedHeader

/-- Were not even the length field there, what stands behind the buffer could be read as a
large one. -/
theorem eight_le_of_framed {fuel : Nat} {rest : Bytes} (responses : List NYSDService)
    (hsignature : ∀ heap, (span 0 6).run (data heap) = Wire.signature)
    (hbeyond : ∀ heap address, length.toNat ≤ address → data heap address = heap address)
    (hsmall : length.toNat ≤ receiveSize) (hlength : index + rest.length = length.toNat)
    (hpos : 0 < rest.length)
    (hframed : ∀ heap, ∀ pass ∈ responsePasses host length (data heap) (fuel + 1) index responses,
      pass.Framed host (data heap)) :
    8 ≤ rest.length := by
  by_contra hshort
  have hinside : index < length.toNat := by omega
  have htype := hbeyond (emptyResponseAt index) (index + 8) (by omega)
  have hcount := hbeyond (emptyResponseAt index) (index + 9) (by omega)
  have hhigh := hbeyond (emptyResponseAt index) (index + 7) (by omega)
  rw [emptyResponseAt_type] at htype
  rw [emptyResponseAt_count] at hcount
  rw [emptyResponseAt_length] at hhigh
  have htwo := lengthField_eq_two host (hsignature _) hinside
    (not_lengthTooLarge_of_wrap hinside (by omega) hsmall) htype hcount (hframed _)
  have hone : (1 : UInt8).toNat = 1 := rfl
  rw [lengthField_eq, hhigh, hone] at htwo
  omega

theorem framedBytes_of_framed {fuel : Nat} {rest : Bytes} (responses : List NYSDService)
    (hsignature : ∀ heap, (span 0 6).run (data heap) = Wire.signature)
    (hbeyond : ∀ heap address, length.toNat ≤ address → data heap address = heap address)
    (hsmall : length.toNat ≤ receiveSize) (hlength : index + rest.length = length.toNat)
    (hfuel : rest.length ≤ fuel) (hholds : ∀ heap, Holds (data heap) index rest)
    (hframed : ∀ heap, ∀ pass ∈ responsePasses host length (data heap) fuel index responses,
      pass.Framed host (data heap)) :
    FramedBytes rest := by
  induction fuel generalizing index rest responses with
  | zero =>
      rw [List.length_eq_zero_iff.mp (Nat.le_zero.mp hfuel)]
      exact .done
  | succ fuel ih =>
      rcases Nat.eq_zero_or_pos rest.length with hempty | hpos
      · rw [List.length_eq_zero_iff.mp hempty]
        exact .done
      have hinside : index < length.toNat := by omega
      obtain ⟨start, field, behind, hstart, rfl⟩ := exists_header
        (eight_le_of_framed host responses hsignature hbeyond hsmall hlength hpos hframed)
      by_cases hlarge : behind.length < field.toNat
      · exact .refused start field behind hstart hlarge
      have hbehind := fun heap => (holds_append _ _ _ _).mp (hholds heap)
      have hbytes := length_start_field field hstart
      rw [List.length_append, hbytes] at hfuel
      have hheader : FramedHeader host data length index fuel responses field behind := by
        refine ⟨hsignature, hbeyond, Nat.not_lt.mp hlarge, ?_, ?_, ?_, ?_, hframed⟩
        · rw [← hlength, List.length_append, hbytes, Nat.add_assoc]
        · exact fun heap => mt (lengthTooLarge_iff host hstart hlength (hholds heap)).mp hlarge
        · exact fun heap => lengthField_of_bytes host hstart (hbehind heap).1
        · exact fun heap => hbytes ▸ (hbehind heap).2
      apply hheader.framedBytes hinside hstart
      intro next rest taken hnext hshorter hrest hpasses
      exact ih taken hnext (by omega) hrest hpasses

end Necessary

section Datagram

variable (datagram : Bytes)

theorem toNat_length_received (heap : Nat → UInt8) :
    (receiveBytes datagram heap).length.toNat = (datagram.take receiveSize).length := by
  rw [toNat_length_receiveBytes, List.length_take]

/-- The signature that the loop compares is the start of the datagram. -/
theorem run_span_received (hlong : 8 ≤ (datagram.take receiveSize).length) (heap : Nat → UInt8) :
    (span 0 6).run (receiveBytes datagram heap).data = datagram.take 6 := by
  have hstart := (holds_receive datagram heap).run_span
    (show 6 ≤ (datagram.take receiveSize).length by omega)
  rwa [List.take_take, Nat.min_eq_left (by decide)] at hstart

/-- For a datagram that is not too short, the passes are those of the loop. -/
theorem lengthsFrame_iff_passes (hlong : 8 ≤ (datagram.take receiveSize).length) :
    LengthsFrame host datagram ↔ ∀ (heap : Nat → UInt8) responses,
      ∀ pass ∈ responsePasses host (receiveBytes datagram heap).length
        (receiveBytes datagram heap).data (datagram.take receiveSize).length 0 responses,
        pass.Framed host (receiveBytes datagram heap).data := by
  apply forall_congr'
  intro heap
  apply forall_congr'
  intro responses
  rw [ResponseStruct.passes, toNat_length_received, if_neg (Nat.not_lt.mpr hlong)]

/-- Nothing is read of a datagram that is too short for the parser. -/
theorem lengthsFrame_of_short (hshort : (datagram.take receiveSize).length < 8) :
    LengthsFrame host datagram := by
  intro heap responses
  rw [ResponseStruct.passes, if_pos (by rwa [toNat_length_received])]
  exact List.forall_mem_nil _

/-- Nothing is read behind a wrong signature. -/
theorem lengthsFrame_of_signature (hlong : 8 ≤ (datagram.take receiveSize).length)
    (hsignature : datagram.take 6 ≠ Wire.signature) : LengthsFrame host datagram := by
  rw [lengthsFrame_iff_passes host datagram hlong]
  intro heap responses
  obtain ⟨fuel, hfuel⟩ := Nat.exists_eq_add_of_le'
    (show 1 ≤ (datagram.take receiveSize).length by omega)
  rw [hfuel, responsePasses, toNat_length_received, if_pos (by omega),
    run_span_received datagram hlong, if_pos hsignature]
  exact List.forall_mem_nil _

/-- Behind a right signature the bytes that are received decide. -/
theorem lengthsFrame_iff_framedBytes (hlong : 8 ≤ (datagram.take receiveSize).length)
    (hsignature : datagram.take 6 = Wire.signature) :
    LengthsFrame host datagram ↔ FramedBytes (datagram.take receiveSize) := by
  have hspan : ∀ heap, (span 0 6).run (receiveBytes datagram heap).data = Wire.signature :=
    fun heap => (run_span_received datagram hlong heap).trans hsignature
  rw [lengthsFrame_iff_passes host datagram hlong]
  constructor
  · intro hframed
    have hbeyond : ∀ heap address, (receiveBytes datagram fun _ => 0).length.toNat ≤ address →
        (receiveBytes datagram heap).data address = heap address :=
      fun heap address => data_receiveBytes_of_le heap
    apply framedBytes_of_framed host [] hspan hbeyond
    · rw [toNat_length_received, List.length_take]
      exact Nat.min_le_left _ _
    · rw [toNat_length_received, Nat.zero_add]
    · exact le_refl _
    · exact holds_receive datagram
    · exact fun heap => hframed heap []
  · intro hframed heap responses
    apply framed_of_framedBytes host responses (hspan heap) hframed
    · rw [toNat_length_received, Nat.zero_add]
    · exact le_refl _
    · exact holds_receive datagram heap

end Datagram

/-- The length fields frame the responses of a datagram exactly when what is received of
it is too short for the parser, has another signature, or is framed. -/
theorem lengthsFrame_iff (datagram : Bytes) :
    LengthsFrame host datagram ↔
      (datagram.take receiveSize).length < 8 ∨ datagram.take 6 ≠ Wire.signature ∨
        FramedBytes (datagram.take receiveSize) := by
  by_cases hshort : (datagram.take receiveSize).length < 8
  · exact iff_of_true (lengthsFrame_of_short host datagram hshort) (.inl hshort)
  rw [or_iff_right hshort]
  have hlong := Nat.not_lt.mp hshort
  by_cases hsignature : datagram.take 6 = Wire.signature
  · rw [or_iff_right (not_not.mpr hsignature)]
    exact lengthsFrame_iff_framedBytes host datagram hlong hsignature
  · exact iff_of_true (lengthsFrame_of_signature host datagram hlong hsignature) (.inl hsignature)

/-- A response whose length field counts its type and count bytes only. -/
def shortFrame : Bytes :=
  Wire.signature ++ MachineInt.bytes (2 : UInt16) ++
    NYSDMessageType.response.toByte :: 1 :: Wire.serviceSection printer

/-- The record behind the two bytes that the length field counts is taken. -/
theorem shortFrame_accepted :
    lengthField .le (receiveBytes shortFrame fun _ => 0).data 0 = 2 ∧
    (receiveBytes shortFrame fun _ => 0).passes .le [] =
      [⟨0, [], some (shortFrame.length), [printer]⟩] ∧
    parseBuffer .le (receiveBytes shortFrame fun _ => 0) [] = (true, [printer]) ∧
    8 + 2 < shortFrame.length ∧ ¬ LengthsFrame .le shortFrame := by
  have hfield : lengthField .le (receiveBytes shortFrame fun _ => 0).data 0 = 2 := by decide
  have hpasses : (receiveBytes shortFrame fun _ => 0).passes .le [] =
      [⟨0, [], some (shortFrame.length), [printer]⟩] := by
    decide
  refine ⟨hfield, hpasses, by decide, by decide, ?_⟩
  intro hframe
  have hframed := hframe (fun _ => 0) [] ⟨0, [], some (shortFrame.length), [printer]⟩ (by
    rw [hpasses]
    exact List.mem_cons_self)
  have hend : shortFrame.length = 0 + 8 + 2 := hframed.trans (by rw [hfield])
  exact absurd hend (by decide)

end NyanSD
