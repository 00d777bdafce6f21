import NyanSD.ResponseRoundTrip

/-!
# What the response parser reads

The parser compares the length field of a message with what is left of the
datagram and believes everything behind it: the type byte that may not be there,
the count, and four lengths in every section. It stays inside the datagram exactly
when this is a sequence of messages that end where the next one starts.
-/

namespace NyanSD

open Access ByteBauble

variable (host : BBEndianness)

/-! ## Fields and sections -/

/-- Any memory holds an integer anywhere. -/
theorem exists_integer (T : Type) [MachineInt T] (memory : Nat → UInt8) (index : Nat) :
    ∃ x : T, Holds memory index (MachineInt.bytes x) := by
  refine ⟨MachineInt.ofBytes ((span index (MachineInt.size T)).run memory), ?_⟩
  rw [MachineInt.bytes_ofBytes (length_run_span _ _ _)]
  exact holds_span memory index _

theorem exists_byte (memory : Nat → UInt8) (index : Nat) :
    ∃ byte, Holds memory index [byte] := ⟨memory index, rfl, trivial⟩

theorem within_parseLongString (memory : Nat → UInt8) (bound index : Nat) :
    Within memory bound (parseLongString host index) ↔
      ((parseLongString host index).run memory).2 ≤ bound := by
  simp only [parseLongString, within_bind, within_load, within_span, run_bind, run_pure,
    MachineInt.size_uint16, and_iff_left (within_pure _)]
  omega

/-- A section is read inside the bound exactly when it ends there. -/
theorem within_parseService (memory : Nat → UInt8) (bound index : Nat) :
    Within memory bound (parseService host index) ↔
      ((parseService host index).run memory).2 ≤ bound := by
  simp only [parseService, within_bind, within_load, within_span, within_cell,
    within_parseLongString, run_bind, run_pure, run_cell, MachineInt.size_uint16,
    MachineInt.size_uint32, and_iff_left (within_pure _)]
  simp only [parseLongString, run_bind, run_pure]
  omega

/-- Any memory holds a string behind a one-byte length, if there is no end to it. -/
theorem exists_shortString (memory : Nat → UInt8) (index : Nat) :
    ∃ (length : UInt8) (text : Bytes), length.toNat = text.length ∧
      Holds memory index (length :: text) :=
  ⟨memory index, _, (length_run_span memory (index + 1) _).symm, rfl, holds_span memory _ _⟩

theorem exists_longString (memory : Nat → UInt8) (index : Nat) :
    ∃ (length : UInt16) (text : Bytes), length.toNat = text.length ∧
      Holds memory index (MachineInt.bytes length ++ text) := by
  obtain ⟨length, hlength⟩ := exists_integer UInt16 memory index
  have htext := holds_span memory (index + (MachineInt.bytes length).length) length.toNat
  exact ⟨length, _, (length_run_span _ _ _).symm, (holds_append _ _ _ _).mpr ⟨hlength, htext⟩⟩

/-- Wherever there is a section signature, the memory holds a section. -/
theorem exists_section {memory : Nat → UInt8} {index : Nat}
    (hmark : memory index = Wire.serviceSignature) :
    ∃ s : Wire.ServiceSection, Holds memory index s.bytes := by
  -- field after field, each one where the fields before it end
  obtain ⟨ipv4, hipv4⟩ := exists_integer UInt32 memory (index + 1)
  obtain ⟨ipv6Length, ipv6, hipv6, hholds⟩ := exists_shortString memory _
  have haddress := (holds_append _ _ _ _).mpr ⟨hipv4, hholds⟩
  obtain ⟨hostLength, hostname, hhostname, hholds⟩ := exists_longString memory _
  have hhost := (holds_append _ _ _ _).mpr ⟨haddress, hholds⟩
  obtain ⟨port, hholds⟩ := exists_integer UInt16 memory _
  have hport := (holds_append _ _ _ _).mpr ⟨hhost, hholds⟩
  obtain ⟨prot, hholds⟩ := exists_byte memory _
  have hprot := (holds_append _ _ _ _).mpr ⟨hport, hholds⟩
  obtain ⟨serviceLength, service, hservice, hholds⟩ := exists_longString memory _
  have hsection := (holds_append _ _ _ _).mpr ⟨hprot, hholds⟩
  refine ⟨⟨⟨ipv4, ipv6Length, ipv6, hostLength, hostname, port, prot, serviceLength, service⟩,
    hipv6, hhostname, hservice⟩, hmark, ?_⟩
  simpa only [List.append_assoc] using hsection

/-- A section is read inside the bytes that are left exactly when they start with it. -/
theorem within_parseService_iff {memory : Nat → UInt8} {index : Nat} {rest : Bytes}
    (hmark : memory index = Wire.serviceSignature) (hholds : Holds memory index rest) :
    Within memory (index + rest.length) (parseService host (index + 1)) ↔
      ∃ (s : Wire.ServiceSection) (more : Bytes), rest = s.bytes ++ more := by
  rw [within_parseService]
  constructor
  · intro hend
    obtain ⟨s, hsection⟩ := exists_section hmark
    rw [run_parseService host s hsection] at hend
    obtain ⟨more, hmore⟩ := hsection.isPrefix hholds (Nat.le_of_add_le_add_left hend)
    exact ⟨s, more, hmore.symm⟩
  · rintro ⟨s, more, rfl⟩
    rw [run_parseService host s ((holds_append _ _ _ _).mp hholds).1, List.length_append]
    omega

/-! ## The section loop -/

theorem within_parseServices_succ (memory : Nat → UInt8) (bound count index : Nat)
    (responses : List NYSDService) :
    Within memory bound (parseServices host (count + 1) index responses) ↔
      index < bound ∧ (memory index = Wire.serviceSignature →
        Within memory bound (parseService host (index + 1)) ∧
          let parsed := (parseService host (index + 1)).run memory
          Within memory bound (parseServices host count parsed.2 (responses ++ [parsed.1]))) := by
  rw [parseServices, within_bind, within_cell, run_cell]
  refine and_congr_right fun _ => ?_
  by_cases hmark : memory index = Wire.serviceSignature
  · rw [within_ite, if_neg (not_not.mpr hmark), within_bind]
    exact ⟨fun hparsed _ => hparsed, fun hparsed => hparsed hmark⟩
  · rw [within_ite, if_pos hmark]
    exact iff_of_true (within_pure _) fun hsame => absurd hsame hmark

theorem within_parseServices_mark {memory : Nat → UInt8} {bound index : Nat} {tail : Bytes}
    (count : Nat) (responses : List NYSDService)
    (hbound : index + (Wire.serviceSignature :: tail).length = bound)
    (hholds : Holds memory index (Wire.serviceSignature :: tail)) :
    Within memory bound (parseServices host (count + 1) index responses) ↔
      ∃ (s : Wire.ServiceSection) (more : Bytes),
        Wire.serviceSignature :: tail = s.bytes ++ more ∧
        Within memory bound (parseServices host count (index + s.bytes.length)
          (responses ++ [s.record])) := by
  have hinside : index < bound := by
    rw [← hbound, List.length_cons]
    omega
  rw [within_parseServices_succ, and_iff_right hinside, forall_prop_of_true hholds.1, ← hbound,
    within_parseService_iff host hholds.1 hholds]
  constructor
  · rintro ⟨⟨s, more, hsplit⟩, hloop⟩
    refine ⟨s, more, hsplit, ?_⟩
    rw [hsplit] at hholds
    rwa [run_parseService host s ((holds_append _ _ _ _).mp hholds).1] at hloop
  · rintro ⟨s, more, hsplit, hloop⟩
    refine ⟨⟨s, more, hsplit⟩, ?_⟩
    rw [hsplit] at hholds
    rwa [run_parseService host s ((holds_append _ _ _ _).mp hholds).1]

/-- The loop stays inside the bytes that are left exactly when these are sections it
can walk over. -/
theorem within_parseServices_iff {memory : Nat → UInt8} {index : Nat} {rest : Bytes}
    (count : Nat) (responses : List NYSDService) (hholds : Holds memory index rest) :
    Within memory (index + rest.length) (parseServices host count index responses) ↔
      Wire.Sectioned (fun s : Wire.ServiceSection => s.bytes) Wire.serviceSignature count
        rest := by
  generalize hbound : index + rest.length = bound
  apply Wire.sectioned_of_passes (f := fun s responses => responses ++ [s.record])
    (P := fun count index responses =>
      Within memory bound (parseServices host count index responses))
  · exact fun _ => rfl
  · exact fun _ _ => within_pure _
  · intro count responses hwithin
    exact absurd ((within_parseServices_succ ..).mp hwithin).1 (Nat.lt_irrefl bound)
  · intro count index responses hinside hother
    cases count with
    | zero => exact within_pure _
    | succ count =>
        rw [within_parseServices_succ]
        exact ⟨hinside, fun hmark => absurd hmark hother⟩
  · exact fun count _ responses _ => within_parseServices_mark host count responses
  · exact hbound
  · exact hholds

/-- Where the passes meet a byte that starts no section, the parser gives up. -/
theorem run_parseServices_stopped {memory : Nat → UInt8} {index count : Nat} {other : UInt8}
    (sections : List Wire.ServiceSection) (responses : List NYSDService)
    (hcount : sections.length < count) (hother : other ≠ Wire.serviceSignature)
    (hholds : Holds memory index ((sections.flatMap fun s => s.bytes) ++ [other])) :
    (parseServices host count index responses).run memory =
      (none, responses ++ sections.map fun s => s.record) := by
  obtain ⟨hsections, hend, -⟩ := (holds_append _ _ _ _).mp hholds
  obtain ⟨remaining, rfl⟩ := Nat.exists_eq_add_of_lt hcount
  rw [Nat.add_assoc, run_parseServices_append host sections _ responses hsections,
    run_parseServices_succ, hend, if_pos hother]

/-! ## The message loop -/

/-- A pass that is made reads the signature, and behind a right one the length field,
and behind a length field that is not too large the rest of the message. -/
theorem within_parseMessages_succ (memory : Nat → UInt8) (bound : Nat) (length : UInt32)
    (fuel index : Nat) (responses : List NYSDService)
    (hsignature : (span 0 6).run memory = Wire.signature) (hinside : index < length.toNat) :
    Within memory bound (parseMessages host length (fuel + 1) index responses) ↔
      index + 8 ≤ bound ∧ (¬ LengthTooLarge host length memory index →
        index + 8 < bound ∧
        if memory (index + 8) ≠ NYSDMessageType.response.toByte then
          Within memory bound (parseMessages host length fuel (index + 9) responses)
        else
          index + 9 < bound ∧
          Within memory bound
            (parseServices host (memory (index + 9)).toNat (index + 10) responses) ∧
          ∀ next taken, (parseServices host (memory (index + 9)).toNat (index + 10)
              responses).run memory = (some next, taken) →
            Within memory bound (parseMessages host length fuel next taken)) := by
  rw [parseMessages, if_pos hinside, within_bind, within_ite, hsignature,
    if_neg (not_not.mpr rfl), within_span, within_bind, within_load, MachineInt.size_uint16,
    within_ite]
  split
  next hlarge =>
    constructor
    · rintro ⟨-, hheader, -⟩
      exact ⟨by omega, fun hsmall => absurd hlarge hsmall⟩
    · rintro ⟨hheader, -⟩
      exact ⟨by omega, by omega, within_pure _⟩
  next hsmall =>
    rw [within_bind, within_cell, run_cell, within_ite, within_bind, within_cell, run_cell,
      within_bind, ← and_assoc]
    apply and_congr (by omega)
    rw [forall_prop_of_true (show ¬ LengthTooLarge host length memory index from hsmall)]
    refine and_congr_right fun _ => ?_
    split
    · rfl
    refine and_congr_right fun _ => and_congr_right fun _ => ?_
    generalize (parseServices host (memory (index + 9)).toNat (index + 10) responses).run memory =
      outcome
    obtain ⟨_ | next, taken⟩ := outcome
    · apply iff_of_true (within_pure _)
      intro next taken hnone
      cases hnone
    · constructor
      · rintro hloop _ _ ⟨⟩
        exact hloop
      · intro hloop
        exact hloop next taken rfl

/-! ## Datagrams -/

/-- The bytes that are left of a datagram are messages whose fields all lie in it. The
loop skips the six bytes in front of a length field without looking at them. -/
inductive Contained : Bytes → Prop
  /-- Nothing is left. -/
  | done : Contained []
  /-- A length field that says more than is there ends the parsing. -/
  | refused (start : Bytes) (length : UInt16) (rest : Bytes) : start.length = 6 →
      rest.length < length.toNat → Contained (start ++ MachineInt.bytes length ++ rest)
  /-- A message of another type is taken to end behind its type byte. -/
  | otherType (header : Bytes) (type : UInt8) (rest : Bytes) : header.length = 8 →
      type ≠ NYSDMessageType.response.toByte → Contained rest →
      Contained (header ++ type :: rest)
  /-- A response with as many sections as it counts. -/
  | response (header : Bytes) (count : UInt8) (sections : List Wire.ServiceSection)
      (rest : Bytes) : header.length = 8 → sections.length = count.toNat → Contained rest →
      Contained (header ++ NYSDMessageType.response.toByte :: count ::
        ((sections.flatMap fun s => s.bytes) ++ rest))
  /-- A response in which a byte that starts no section ends the parsing. -/
  | stopped (header : Bytes) (count : UInt8) (sections : List Wire.ServiceSection)
      (other : UInt8) (rest : Bytes) : header.length = 8 → sections.length < count.toNat →
      other ≠ Wire.serviceSignature →
      Contained (header ++ NYSDMessageType.response.toByte :: count ::
        ((sections.flatMap fun s => s.bytes) ++ other :: rest))

/-- At least a header that is left can be taken apart at its length field. -/
theorem exists_header {rest : Bytes} (hlong : 8 ≤ rest.length) :
    ∃ (start : Bytes) (length : UInt16) (behind : Bytes), start.length = 6 ∧
      rest = start ++ MachineInt.bytes length ++ behind := by
  have hfield : ((rest.drop 6).take 2).length = MachineInt.size UInt16 := by
    rw [List.length_take, List.length_drop, MachineInt.size_uint16]
    omega
  refine ⟨rest.take 6, MachineInt.ofBytes ((rest.drop 6).take 2), (rest.drop 6).drop 2, ?_, ?_⟩
  · rw [List.length_take]
    omega
  · rw [MachineInt.bytes_ofBytes hfield, List.append_assoc, List.take_append_drop,
      List.take_append_drop]

/-- Well-formed responses are contained. -/
theorem contained_responses (messages : List Wire.ResponseMessage) :
    Contained (messages.flatMap Wire.ResponseMessage.encode) := by
  induction messages with
  | nil => exact .done
  | cons m rest ih =>
      obtain ⟨sections, hbytes, hrecords⟩ := exists_sections m.fits
      have hnumber : sections.length = m.services.length := by rw [← hrecords, List.length_map]
      have hcount : (UInt8.ofNat m.services.length).toNat = m.services.length :=
        UInt8.toNat_ofNat_of_lt' m.count_lt
      rw [List.flatMap_cons, Wire.ResponseMessage.encode, Wire.response, Wire.message,
        List.append_assoc, ← hbytes]
      exact .response _ _ sections _ (Wire.length_header _) (hnumber.trans hcount.symm) ih

section Loop

variable {memory : Nat → UInt8} {length : UInt32} {index : Nat}

theorem within_parseMessages_of_le (bound fuel : Nat) (responses : List NYSDService)
    (hend : length.toNat ≤ index) :
    Within memory bound (parseMessages host length fuel index responses) := by
  cases fuel with
  | zero => exact within_pure _
  | succ fuel =>
      rw [parseMessages, if_neg (Nat.not_lt.mpr hend)]
      exact within_pure _

/-- A length field is too large when it says more than is left behind it. -/
theorem lengthTooLarge_iff {start : Bytes} {field : UInt16} {behind : Bytes}
    (hstart : start.length = 6)
    (hlength : index + (start ++ MachineInt.bytes field ++ behind).length = length.toNat)
    (hholds : Holds memory index (start ++ MachineInt.bytes field ++ behind)) :
    LengthTooLarge host length memory index ↔ behind.length < field.toNat := by
  rw [List.length_append, length_start_field field hstart] at hlength
  rw [lengthTooLarge_iff_lt host hstart (by omega) ((holds_append _ _ _ _).mp hholds).1, ← hlength]
  omega

/-- A pass over a response whose sections can be walked over stays inside, if the passes
behind it do. -/
theorem within_of_sectioned {fuel : Nat} {header body : Bytes} {count : UInt8}
    (responses : List NYSDService) (hsignature : (span 0 6).run memory = Wire.signature)
    (hheader : header.length = 8)
    (hsections : Wire.Sectioned (fun s : Wire.ServiceSection => s.bytes) Wire.serviceSignature
      count.toNat body)
    (hlength : index +
      (header ++ NYSDMessageType.response.toByte :: count :: body).length = length.toNat)
    (hfuel : (header ++ NYSDMessageType.response.toByte :: count :: body).length ≤ fuel)
    (hholds : Holds memory index (header ++ NYSDMessageType.response.toByte :: count :: body))
    (hbehind : ∀ fuel next taken, body.length ≤ fuel →
      (parseServices host count.toNat (index + 10) responses).run memory = (some next, taken) →
      Within memory length.toNat (parseMessages host length fuel next taken)) :
    Within memory length.toNat (parseMessages host length fuel index responses) := by
  obtain ⟨hmark, hnumber, hbody⟩ := hholds.behind hheader
  have hinside := (within_parseServices_iff host count.toNat responses hbody).mpr hsections
  simp only [List.length_append, List.length_cons, hheader] at hlength hfuel
  have hend : index + 8 + 1 + 1 + body.length = length.toNat := by omega
  rw [hend] at hinside
  obtain ⟨fuel, rfl⟩ := Nat.exists_eq_add_of_le' (show 1 ≤ fuel by omega)
  rw [within_parseMessages_succ host memory _ length fuel index responses hsignature (by omega)]
  refine ⟨by omega, fun _ => ⟨by omega, ?_⟩⟩
  rw [hmark, if_neg (not_not.mpr rfl), hnumber]
  refine ⟨by omega, hinside, ?_⟩
  intro next taken hnext
  exact hbehind fuel next taken (by omega) hnext

theorem within_of_contained {fuel : Nat} {rest : Bytes} (responses : List NYSDService)
    (hsignature : (span 0 6).run memory = Wire.signature) (hcontained : Contained rest)
    (hlength : index + rest.length = length.toNat) (hfuel : rest.length ≤ fuel)
    (hholds : Holds memory index rest) :
    Within memory length.toNat (parseMessages host length fuel index responses) := by
  induction hcontained generalizing fuel index responses with
  | done => exact within_parseMessages_of_le host _ fuel responses hlength.ge
  | refused start field behind hstart hlarge =>
      have htoo := (lengthTooLarge_iff host hstart hlength hholds).mpr hlarge
      rw [List.length_append, length_start_field field hstart] at hlength hfuel
      obtain ⟨fuel, rfl⟩ := Nat.exists_eq_add_of_le' (show 1 ≤ fuel by omega)
      rw [within_parseMessages_succ host memory _ length fuel index responses hsignature
        (by omega)]
      exact ⟨by omega, fun hsmall => absurd htoo hsmall⟩
  | otherType header type behind hheader htype _ ih =>
      obtain ⟨hmark, hbehind⟩ := hholds.behind hheader
      simp only [List.length_append, List.length_cons, hheader] at hlength hfuel
      obtain ⟨fuel, rfl⟩ := Nat.exists_eq_add_of_le' (show 1 ≤ fuel by omega)
      rw [within_parseMessages_succ host memory _ length fuel index responses hsignature
        (by omega)]
      refine ⟨by omega, fun _ => ⟨by omega, ?_⟩⟩
      rw [hmark, if_pos htype]
      exact ih responses (by omega) (by omega) hbehind
  | response header count sections behind hheader hcount _ ih =>
      obtain ⟨-, -, hsections⟩ := hholds.behind hheader
      obtain ⟨hwhole, hbehind⟩ := (holds_append _ _ _ _).mp hsections
      have hrun := run_parseServices host sections responses hwhole
      rw [hcount] at hrun
      apply within_of_sectioned host responses hsignature hheader
        ⟨sections, behind, rfl, .inl hcount⟩ hlength hfuel hholds
      intro fuel next taken hroom hnext
      obtain ⟨⟨rfl⟩, rfl⟩ := Prod.mk.inj (hrun.symm.trans hnext)
      simp only [List.length_append, List.length_cons, hheader] at hlength hroom
      exact ih _ (by omega) (by omega) hbehind
  | stopped header count sections other behind hheader hcount hother =>
      obtain ⟨-, -, hsections⟩ := hholds.behind hheader
      rw [List.append_cons, holds_append] at hsections
      have hrun := run_parseServices_stopped host sections responses hcount hother hsections.1
      apply within_of_sectioned host responses hsignature hheader
        ⟨sections, other :: behind, rfl, .inr ⟨hcount, other, behind, rfl, hother⟩⟩
        hlength hfuel hholds
      intro fuel next taken _ hnext
      cases hrun.symm.trans hnext

/-- A pass behind the header that stays inside reads one of the messages, if the passes
behind it leave something contained. -/
theorem contained_behind_header {fuel : Nat} {header behind : Bytes}
    (responses : List NYSDService) (hheader : header.length = 8)
    (hlength : index + (header ++ behind).length = length.toNat)
    (hholds : Holds memory index (header ++ behind)) (htype : index + 8 < length.toNat)
    (hbody : if memory (index + 8) ≠ NYSDMessageType.response.toByte then
        Within memory length.toNat (parseMessages host length fuel (index + 9) responses)
      else
        index + 9 < length.toNat ∧
        Within memory length.toNat
          (parseServices host (memory (index + 9)).toNat (index + 10) responses) ∧
        ∀ next taken, (parseServices host (memory (index + 9)).toNat (index + 10)
            responses).run memory = (some next, taken) →
          Within memory length.toNat (parseMessages host length fuel next taken))
    (hpasses : ∀ next rest taken, next + rest.length = length.toNat →
      rest.length ≤ behind.length → Holds memory next rest →
      Within memory length.toNat (parseMessages host length fuel next taken) →
      Contained rest) :
    Contained (header ++ behind) := by
  have hbehind := hholds.behind hheader
  rw [List.length_append, hheader] at hlength
  rcases behind with _ | ⟨type, behind⟩
  · rw [List.length_nil] at hlength
    omega
  rw [List.length_cons] at hlength hpasses
  obtain ⟨hmark, hbehind⟩ := hbehind
  rw [hmark] at hbody
  by_cases hresponse : type = NYSDMessageType.response.toByte
  swap
  · rw [if_pos hresponse] at hbody
    exact .otherType header type behind hheader hresponse
      (hpasses _ _ responses (by omega) (by omega) hbehind hbody)
  subst hresponse
  rw [if_neg (not_not.mpr rfl)] at hbody
  obtain ⟨hcount, hsections, hloop⟩ := hbody
  rcases behind with _ | ⟨count, behind⟩
  · rw [List.length_nil] at hlength
    omega
  rw [List.length_cons] at hlength hpasses
  obtain ⟨hnumber, hbehind⟩ := hbehind
  rw [hnumber] at hsections hloop
  have hend : length.toNat = index + 10 + behind.length := by omega
  rw [hend, within_parseServices_iff host _ responses hbehind] at hsections
  obtain ⟨sections, more, rfl, hcounted | ⟨hfewer, other, tail, rfl, hother⟩⟩ := hsections
  · obtain ⟨hwhole, hmore⟩ := (holds_append _ _ _ _).mp hbehind
    have hrun := run_parseServices host sections responses hwhole
    rw [hcounted] at hrun
    rw [List.length_append] at hlength hpasses
    exact .response header count sections more hheader hcounted
      (hpasses _ _ _ (by omega) (by omega) hmore (hloop _ _ hrun))
  · exact .stopped header count sections other tail hheader hfewer hother

theorem contained_of_within {fuel : Nat} {rest : Bytes} (responses : List NYSDService)
    (hsignature : (span 0 6).run memory = Wire.signature)
    (hlength : index + rest.length = length.toNat) (hfuel : rest.length ≤ fuel)
    (hholds : Holds memory index rest)
    (hwithin : Within memory length.toNat (parseMessages host length fuel index responses)) :
    Contained rest := by
  induction fuel generalizing index rest responses with
  | zero =>
      rw [List.length_eq_zero_iff.mp (Nat.le_zero.mp hfuel)]
      exact .done
  | succ fuel ih =>
      rcases Nat.eq_zero_or_pos rest.length with hempty | hpos
      · rw [List.length_eq_zero_iff.mp hempty]
        exact .done
      rw [within_parseMessages_succ host memory _ length fuel index responses hsignature
        (by omega)] at hwithin
      obtain ⟨hheader, hbody⟩ := hwithin
      obtain ⟨start, field, behind, hstart, rfl⟩ :=
        exists_header (show 8 ≤ rest.length by omega)
      have htoo := lengthTooLarge_iff host hstart hlength hholds
      by_cases hlarge : behind.length < field.toNat
      · exact .refused start field behind hstart hlarge
      obtain ⟨htype, hbody⟩ := hbody (mt htoo.mp hlarge)
      have height := length_start_field field hstart
      apply contained_behind_header host responses height hlength hholds htype hbody
      intro next rest taken hnext hshorter hrest hwithin
      rw [List.length_append, height] at hfuel
      exact ih taken hnext (by omega) hrest hwithin

end Loop

/-- The indices at which the loop computes how much of the buffer is left, pass after
pass. -/
def remainingAt (length : UInt32) (memory : Nat → UInt8) :
    Nat → Nat → List NYSDService → List Nat
  | 0, _, _ => []
  | fuel + 1, index, responses =>
      if index < length.toNat then
        if (span 0 6).run memory ≠ Wire.signature then []
        else (index + 8) ::
          if LengthTooLarge host length memory index then []
          else if memory (index + 8) ≠ NYSDMessageType.response.toByte then
            remainingAt length memory fuel (index + 9) responses
          else
            match (parseServices host (memory (index + 9)).toNat (index + 10) responses).run
              memory with
            | (none, _) => []
            | (some index, responses) => remainingAt length memory fuel index responses
      else []

/-- A pass has read the length field right in front of where it subtracts. -/
theorem le_of_mem_remainingAt {memory : Nat → UInt8} {length : UInt32} {bound fuel index : Nat}
    {responses : List NYSDService}
    (hwithin : Within memory bound (parseMessages host length fuel index responses)) :
    ∀ position ∈ remainingAt host length memory fuel index responses, position ≤ bound := by
  induction fuel generalizing index responses with
  | zero => exact nofun
  | succ fuel ih =>
      rw [remainingAt]
      split
      next hinside =>
        split
        · exact nofun
        next hsignature =>
          rw [within_parseMessages_succ host memory bound length fuel index responses
            (not_not.mp hsignature) hinside] at hwithin
          obtain ⟨hheader, hbody⟩ := hwithin
          refine List.forall_mem_cons.mpr ⟨hheader, ?_⟩
          split
          · exact nofun
          next hsmall =>
            obtain ⟨-, hbody⟩ := hbody hsmall
            split
            next htype =>
              rw [if_pos htype] at hbody
              exact ih hbody
            next htype =>
              rw [if_neg htype] at hbody
              split
              · exact nofun
              next next taken hrun => exact ih (hbody.2.2 next taken hrun)
      · exact nofun

/-- What a response parser that stays inside its datagram reads, computes and returns. -/
structure ParserStaysInside (datagram : Bytes) (heap : Nat → UInt8) : Prop where
  reads : ∀ responses, Within (receiveBytes datagram heap).data datagram.length
    (parseMessages host (receiveBytes datagram heap).length datagram.length 0 responses)
  remaining : ∀ responses,
    ∀ index ∈ remainingAt host (receiveBytes datagram heap).length
      (receiveBytes datagram heap).data datagram.length 0 responses, index ≤ datagram.length
  result : ∀ (other : Nat → UInt8) (responses : List NYSDService),
    parseBuffer host (receiveBytes datagram other) responses =
      parseBuffer host (receiveBytes datagram heap) responses

/-- The parser stays inside a datagram of at least eight bytes exactly when it has
another signature or is contained. -/
theorem parserStaysInside_iff {datagram : Bytes} {heap : Nat → UInt8}
    (hlong : 8 ≤ datagram.length) (hsize : datagram.length ≤ receiveSize) :
    ParserStaysInside host datagram heap ↔
      datagram.take 6 ≠ Wire.signature ∨ Contained datagram := by
  have hlength : (receiveBytes datagram heap).length.toNat = datagram.length := by
    rw [toNat_length_receiveBytes, Nat.min_eq_right hsize]
  have hholds := holds_receiveBytes heap hsize
  have hspan : (span 0 6).run (receiveBytes datagram heap).data = datagram.take 6 :=
    hholds.run_span (by omega)
  have hreads : ∀ responses, Within (receiveBytes datagram heap).data datagram.length
      (parseMessages host (receiveBytes datagram heap).length datagram.length 0 responses) ↔
        datagram.take 6 ≠ Wire.signature ∨ Contained datagram := by
    intro responses
    by_cases hsignature : datagram.take 6 = Wire.signature
    · rw [or_iff_right (not_not.mpr hsignature)]
      have hstart := hspan.trans hsignature
      have hroom : 0 + datagram.length = (receiveBytes datagram heap).length.toNat := by omega
      constructor
      · intro hwithin
        rw [← hlength] at hwithin
        exact contained_of_within host responses hstart hroom hlength.ge hholds hwithin
      · intro hcontained
        have hwithin := within_of_contained host responses hstart hcontained hroom hlength.ge hholds
        rwa [hlength] at hwithin
    · -- nothing is read behind a wrong signature
      refine iff_of_true ?_ (.inl hsignature)
      obtain ⟨fuel, hfuel⟩ := Nat.exists_eq_add_of_le' (show 1 ≤ datagram.length by omega)
      rw [hfuel, parseMessages, if_pos (by omega), within_bind, within_span, hspan, within_ite,
        if_pos hsignature]
      exact ⟨by omega, within_pure _⟩
  refine ⟨fun hinside => (hreads []).mp (hinside.reads []), ?_⟩
  intro hcondition
  have hwithin := fun responses => (hreads responses).mpr hcondition
  refine ⟨hwithin, fun responses => le_of_mem_remainingAt host (hwithin responses), ?_⟩
  intro other responses
  have hsame := ((hwithin responses).congr (receive_data_congr heap other hsize)).1
  have hother : (receiveBytes datagram other).length.toNat = datagram.length := by
    rw [toNat_length_receiveBytes, Nat.min_eq_right hsize]
  rw [parseBuffer, parseBuffer, hother, hlength, if_neg (by omega), if_neg (by omega)]
  exact hsame

theorem parserStaysInside_printer :
    ParserStaysInside .be (Wire.response [printer]) fun _ => 0 := by
  apply (parserStaysInside_iff .be (by decide) (by decide)).mpr
  have hfits : ∀ sv ∈ [printer], Wire.Fits sv := List.forall_mem_singleton.mpr fits_printer
  have hcontained := contained_responses [⟨[printer], hfits, by decide, by decide⟩]
  rw [List.flatMap_singleton] at hcontained
  exact .inr hcontained

/-- A broadcast and one more byte. -/
def strayByte : Bytes := Wire.message .broadcast [] ++ [0]

/-- The broadcast is skipped, and a length field is read where the stray byte is. -/
theorem strayByte_read_beyond :
    8 ≤ strayByte.length ∧ strayByte.length ≤ receiveSize ∧
    ¬ Within (receiveBytes strayByte fun _ => 0).data strayByte.length
      (parseMessages .le (receiveBytes strayByte fun _ => 0).length strayByte.length 0 []) ∧
    17 ∈ remainingAt .le (receiveBytes strayByte fun _ => 0).length
      (receiveBytes strayByte fun _ => 0).data strayByte.length 0 [] ∧
    strayByte.length < 17 ∧
    parseBuffer .le (receiveBytes strayByte fun _ => 0) [] = (true, []) ∧
    parseBuffer .le (receiveBytes strayByte fun _ => 2) [] = (false, []) ∧
    ¬ ParserStaysInside .le strayByte fun _ => 0 := by
  have hbeyond : 15 ∈ (parseMessages .le (receiveBytes strayByte fun _ => 0).length
      strayByte.length 0 []).reads (receiveBytes strayByte fun _ => 0).data := by
    decide
  refine ⟨by decide, by decide, fun hwithin => absurd (hwithin 15 hbeyond) (by decide), by decide,
    by decide, by decide, by decide, ?_⟩
  intro hinside
  exact absurd (hinside.reads [] 15 hbeyond) (by decide)

end NyanSD
