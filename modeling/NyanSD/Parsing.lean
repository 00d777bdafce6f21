import NyanSD.Client
import NyanSD.Layout

/-!
# Reading well-formed messages

Where the memory holds a well-formed piece of a message, the readers of both
sides return what the piece was built from and the index right behind it,
whatever lies beyond. The statements go from fields to sections, messages and
datagrams.
-/

namespace NyanSD

open Access ByteBauble

/-! ## Fields -/

theorem toHost_load {T : Type} [MachineInt T] (hswap : Swappable T) (host : BBEndianness)
    {memory : Nat → UInt8} {address : Nat} {x : T}
    (hholds : Holds memory address (MachineInt.bytes x)) :
    (onHost host).toHost ((load T host address).run memory) .le = x := by
  have hspan := run_span_of_holds hholds
  rw [MachineInt.length_bytes] at hspan
  rw [load, run_bind, run_pure, hspan, toHost_ofObjectBytes hswap]

theorem within_load {T : Type} [MachineInt T] {memory : Nat → UInt8} {bound : Nat}
    (host : BBEndianness) (address : Nat) :
    Within memory bound (load T host address) ↔
      MachineInt.size T = 0 ∨ address + MachineInt.size T ≤ bound := by
  rw [load, within_bind, within_span, and_iff_left (within_pure _)]

theorem run_parseLongString (host : BBEndianness) {memory : Nat → UInt8} {index : Nat}
    {length : UInt16} {text : Bytes} (hexact : length.toNat = text.length)
    (hholds : Holds memory index (MachineInt.bytes length ++ text)) :
    (parseLongString host index).run memory = (text, index + 2 + text.length) := by
  obtain ⟨hlen, htext⟩ := (holds_append _ _ _ _).mp hholds
  have hfield := toHost_load swappable_uint16 host hlen
  rw [MachineInt.length_bytes, MachineInt.size_uint16] at htext
  simp only [parseLongString, run_bind, run_pure, hfield, hexact]
  rw [run_span_of_holds htext]

@[simp] theorem protocolOfByte_toByte (protocol : NYSDProtocol) :
    protocolOfByte protocol.toByte = protocol := by
  cases protocol <;> decide

/-! ## Service sections -/

/-- The record a section is read as. -/
def Wire.ServiceFields.record (s : Wire.ServiceFields) : NYSDService where
  ipv4 := s.ipv4
  ipv6 := s.ipv6
  port := s.port
  hostname := s.hostname
  service := s.service
  protocol := protocolOfByte s.prot

@[simp] theorem record_storedService (sv : NYSDService) : (Wire.storedService sv).record = sv := by
  simp [Wire.ServiceFields.record, Wire.storedService]

/-- Records whose strings fit lie in a datagram as whole sections. -/
theorem exists_sections {services : List NYSDService} (hfits : ∀ sv ∈ services, Wire.Fits sv) :
    ∃ sections : List Wire.ServiceSection,
      (sections.flatMap fun s => s.bytes) = services.flatMap Wire.serviceSection ∧
        (sections.map fun s => s.record) = services := by
  induction services with
  | nil => exact ⟨[], rfl, rfl⟩
  | cons sv rest ih =>
      obtain ⟨hsv, hrest⟩ := List.forall_mem_cons.mp hfits
      obtain ⟨sections, hbytes, hrecords⟩ := ih hrest
      refine ⟨Wire.sectionOf sv hsv :: sections, ?_, ?_⟩
      · rw [List.flatMap_cons, List.flatMap_cons, hbytes, Wire.sectionOf, Wire.bytes_storedService]
      · rw [List.map_cons, hrecords, Wire.sectionOf, record_storedService]

theorem run_parseService (host : BBEndianness) {memory : Nat → UInt8} {index : Nat}
    (s : Wire.ServiceSection) (hholds : Holds memory index s.bytes) :
    (parseService host (index + 1)).run memory = (s.record, index + s.bytes.length) := by
  simp only [Wire.ServiceFields.bytes, holds_cons, holds_append, holds_nil,
    MachineInt.length_bytes, List.length_append, List.length_cons, List.length_nil,
    MachineInt.size_uint16, MachineInt.size_uint32] at hholds
  obtain ⟨-, ⟨⟨⟨⟨⟨⟨⟨hipv4, hipv6len, hipv6⟩, hhostlen⟩, hhostname⟩, hport⟩, hprot, -⟩,
    hservicelen⟩, hservice⟩⟩ := hholds
  have hhostname' : Holds memory (index + 1 + 5 + s.ipv6.length)
      (MachineInt.bytes s.hostLength ++ s.hostname) := by
    rw [holds_append, MachineInt.length_bytes, MachineInt.size_uint16]
    -- the positions of the fields, spelled the way the reader reaches them
    constructor
    · convert hhostlen using 1
      omega
    · convert hhostname using 1
      omega
  have hport' : Holds memory (index + 1 + 5 + s.ipv6.length + 2 + s.hostname.length)
      (MachineInt.bytes s.port) := by
    convert hport using 1
    omega
  have hprot' : memory (index + 1 + 5 + s.ipv6.length + 2 + s.hostname.length + 2) = s.prot := by
    convert hprot using 2
    omega
  have hservice' : Holds memory (index + 1 + 5 + s.ipv6.length + 2 + s.hostname.length + 3)
      (MachineInt.bytes s.serviceLength ++ s.service) := by
    rw [holds_append, MachineInt.length_bytes, MachineInt.size_uint16]
    constructor
    · convert hservicelen using 1
      omega
    · convert hservice using 1
      omega
  simp only [parseService, run_bind, run_pure, run_cell, toHost_load swappable_uint32 host hipv4,
    hipv6len, s.exact.ipv6, run_span_of_holds hipv6,
    run_parseLongString host s.exact.hostname hhostname',
    toHost_load swappable_uint16 host hport', hprot',
    run_parseLongString host s.exact.service hservice', Wire.ServiceFields.record,
    Wire.ServiceFields.length_bytes]
  congr 1
  omega

/-- One pass of the section loop. -/
theorem run_parseServices_succ (host : BBEndianness) (count index : Nat)
    (responses : List NYSDService) (memory : Nat → UInt8) :
    (parseServices host (count + 1) index responses).run memory =
      if memory index ≠ Wire.serviceSignature then (none, responses)
      else
        let parsed := (parseService host (index + 1)).run memory
        (parseServices host count parsed.2 (responses ++ [parsed.1])).run memory := by
  simp only [parseServices, run_ite, run_bind, run_pure]
  rfl

/-- A section is read forwards. -/
theorem index_le_parseService (host : BBEndianness) (memory : Nat → UInt8) (index : Nat) :
    index ≤ ((parseService host index).run memory).2 := by
  simp only [parseService, parseLongString, run_bind, run_pure]
  omega

theorem index_le_parseServices (host : BBEndianness) {memory : Nat → UInt8}
    {count index next : Nat} {responses taken : List NYSDService}
    (hrun : (parseServices host count index responses).run memory = (some next, taken)) :
    index ≤ next := by
  induction count generalizing index responses with
  | zero =>
      cases hrun
      exact le_refl _
  | succ count ih =>
      rw [run_parseServices_succ] at hrun
      split at hrun
      · cases hrun
      · have hsection := index_le_parseService host memory (index + 1)
        have hrest := ih hrun
        omega

/-- Whole sections are read one after another, and the passes that are left go on
behind them. -/
theorem run_parseServices_append (host : BBEndianness) {memory : Nat → UInt8} {index : Nat}
    (sections : List Wire.ServiceSection) (count : Nat) (responses : List NYSDService)
    (hholds : Holds memory index (sections.flatMap fun s => s.bytes)) :
    (parseServices host (sections.length + count) index responses).run memory =
      (parseServices host count (index + (sections.flatMap fun s => s.bytes).length)
        (responses ++ sections.map fun s => s.record)).run memory := by
  -- the index moves by the section just read, and the record joins the responses
  induction sections generalizing index responses with
  | nil => simp
  | cons s rest ih =>
      rw [List.flatMap_cons, holds_append] at hholds
      have hmark : memory index = Wire.serviceSignature := hholds.1.1
      have hsection := run_parseService host s hholds.1
      have htail := ih (responses ++ [s.record]) hholds.2
      rw [List.length_cons, Nat.add_right_comm, run_parseServices_succ,
        if_neg (not_not.mpr hmark), hsection]
      simp only [htail, List.flatMap_cons, List.length_append, List.append_assoc,
        List.map_cons, List.cons_append, List.nil_append, Nat.add_assoc]

/-- A run of sections is read to its end. -/
theorem run_parseServices (host : BBEndianness) {memory : Nat → UInt8} {index : Nat}
    (sections : List Wire.ServiceSection) (responses : List NYSDService)
    (hholds : Holds memory index (sections.flatMap fun s => s.bytes)) :
    (parseServices host sections.length index responses).run memory =
      (some (index + (sections.flatMap fun s => s.bytes).length),
        responses ++ sections.map fun s => s.record) :=
  run_parseServices_append host sections 0 responses hholds

/-! ## Messages -/

/-- The length field of the message at `index`. -/
def lengthField (host : BBEndianness) (memory : Nat → UInt8) (index : Nat) : Nat :=
  ((onHost host).toHost ((load UInt16 host (index + 6)).run memory) .le).toNat

/-- The check that rejects a length field, in the 32-bit arithmetic of the code. -/
def LengthTooLarge (host : BBEndianness) (length : UInt32) (memory : Nat → UInt8)
    (index : Nat) : Prop :=
  (length - UInt32.ofNat (index + 8)).toNat < lengthField host memory index

instance (host : BBEndianness) (length : UInt32) (memory : Nat → UInt8) (index : Nat) :
    Decidable (LengthTooLarge host length memory index) :=
  inferInstanceAs (Decidable (_ < _))

/-- One pass of the message loop. -/
theorem run_parseMessages_succ (host : BBEndianness) (length : UInt32) (fuel index : Nat)
    (responses : List NYSDService) (memory : Nat → UInt8) :
    (parseMessages host length (fuel + 1) index responses).run memory =
      if index < length.toNat then
        if (span 0 6).run memory ≠ Wire.signature then (false, responses)
        else if LengthTooLarge host length memory index then (false, responses)
        else if memory (index + 8) ≠ NYSDMessageType.response.toByte then
          (parseMessages host length fuel (index + 9) responses).run memory
        else
          match (parseServices host (memory (index + 9)).toNat (index + 10) responses).run
            memory with
          | (none, responses) => (false, responses)
          | (some index, responses) =>
              (parseMessages host length fuel index responses).run memory
      else (true, responses) := by
  unfold LengthTooLarge lengthField
  simp only [parseMessages, run_ite, run_bind, run_pure]
  refine if_congr Iff.rfl ?_ rfl
  refine if_congr Iff.rfl rfl (if_congr Iff.rfl rfl (if_congr Iff.rfl rfl ?_))
  rw [run_cell]
  generalize (parseServices host (memory (index + 9)).toNat (index + 10) responses).run memory =
    outcome
  obtain ⟨_ | _, _⟩ := outcome <;> rfl

/-- A pass inside a buffer that starts with the right signature. -/
theorem run_parseMessages_pass (host : BBEndianness) {length : UInt32} {index : Nat}
    {memory : Nat → UInt8} (fuel : Nat) (responses : List NYSDService)
    (hsignature : Holds memory 0 Wire.signature) (hinside : index < length.toNat) :
    (parseMessages host length (fuel + 1) index responses).run memory =
      if LengthTooLarge host length memory index then (false, responses)
      else if memory (index + 8) ≠ NYSDMessageType.response.toByte then
        (parseMessages host length fuel (index + 9) responses).run memory
      else
        match (parseServices host (memory (index + 9)).toNat (index + 10) responses).run
          memory with
        | (none, responses) => (false, responses)
        | (some index, responses) =>
            (parseMessages host length fuel index responses).run memory := by
  have hspan : (span 0 6).run memory = Wire.signature := run_span_of_holds hsignature
  rw [run_parseMessages_succ, if_pos hinside, if_neg (not_not.mpr hspan)]

/-- The loop ends with success at the end of the received bytes. -/
theorem run_parseMessages_of_le (host : BBEndianness) {length : UInt32} {index : Nat}
    (fuel : Nat) (responses : List NYSDService) (memory : Nat → UInt8)
    (hend : length.toNat ≤ index) :
    (parseMessages host length fuel index responses).run memory = (true, responses) := by
  cases fuel with
  | zero => rfl
  | succ fuel => rw [run_parseMessages_succ, if_neg (Nat.not_lt.mpr hend)]

/-- As many passes as bytes are left are enough for the message loop: with more of
them it goes the same way. -/
theorem run_parseMessages_of_fuel (host : BBEndianness) {length : UInt32} {fuel more index : Nat}
    (responses : List NYSDService) (memory : Nat → UInt8) (hfuel : length.toNat ≤ index + fuel)
    (hmore : fuel ≤ more) :
    (parseMessages host length more index responses).run memory =
      (parseMessages host length fuel index responses).run memory := by
  induction fuel generalizing more index responses with
  | zero => exact run_parseMessages_of_le host more responses memory (by omega)
  | succ fuel ih =>
      obtain ⟨more, rfl⟩ : ∃ rest, more = rest + 1 := ⟨more - 1, by omega⟩
      rw [run_parseMessages_succ, run_parseMessages_succ, ih responses (by omega) (by omega)]
      rcases hsections : (parseServices host (memory (index + 9)).toNat (index + 10)
        responses).run memory with ⟨_ | next, taken⟩
      · rfl
      · have hnext := index_le_parseServices host hsections
        have hinside : length.toNat ≤ next + fuel := by omega
        have hloop := ih taken hinside (by omega : fuel ≤ more)
        simp only [hloop]

theorem toNat_sub_ofNat {length : UInt32} {index : Nat} (hle : index ≤ length.toNat) :
    (length - UInt32.ofNat index).toNat = length.toNat - index := by
  have hindex : (UInt32.ofNat index).toNat = index :=
    UInt32.toNat_ofNat_of_lt' (Nat.lt_of_le_of_lt hle length.toNat_lt)
  rw [UInt32.toNat_sub_of_le _ _ (by rw [UInt32.le_iff_toNat_le, hindex]; exact hle), hindex]

/-- The signature check passes where a header lies at the start of the memory. -/
theorem run_signature_of_holds {memory : Nat → UInt8} {length : Nat}
    (hholds : Holds memory 0 (Wire.header length)) :
    (span 0 6).run memory = Wire.signature :=
  run_span_of_holds ((holds_append _ _ _ _).mp hholds).1

/-- A header is the six bytes of the signature and the two of the length field. -/
theorem length_start_field {start : Bytes} (field : UInt16) (hstart : start.length = 6) :
    (start ++ MachineInt.bytes field).length = 8 := by
  rw [List.length_append, hstart, MachineInt.length_bytes, MachineInt.size_uint16]

theorem lengthField_of_bytes {start : Bytes} {field : UInt16} {memory : Nat → UInt8}
    {index : Nat} (host : BBEndianness) (hstart : start.length = 6)
    (hholds : Holds memory index (start ++ MachineInt.bytes field)) :
    lengthField host memory index = field.toNat := by
  have hfield := ((holds_append _ _ _ _).mp hholds).2
  rw [hstart] at hfield
  rw [lengthField, toHost_load swappable_uint16 host hfield]

theorem lengthField_of_holds {memory : Nat → UInt8} {index length : Nat} (host : BBEndianness)
    (hlength : length < 2 ^ 16) (hholds : Holds memory index (Wire.header length)) :
    lengthField host memory index = length := by
  rw [lengthField_of_bytes host Wire.length_signature hholds]
  exact UInt16.toNat_ofNat_of_lt' hlength

/-- A length field inside the received bytes is too large when it counts beyond their
end. -/
theorem lengthTooLarge_iff_lt {start : Bytes} {field : UInt16} {length : UInt32}
    {memory : Nat → UInt8} {index : Nat} (host : BBEndianness) (hstart : start.length = 6)
    (hinside : index + 8 ≤ length.toNat)
    (hholds : Holds memory index (start ++ MachineInt.bytes field)) :
    LengthTooLarge host length memory index ↔ length.toNat < index + 8 + field.toNat := by
  rw [LengthTooLarge, lengthField_of_bytes host hstart hholds, toNat_sub_ofNat hinside]
  omega

/-- One pass over a well-formed response that lies within the received bytes. -/
theorem run_parseMessages_response (host : BBEndianness) (m : Wire.ResponseMessage)
    {length : UInt32} {memory : Nat → UInt8} {index : Nat} (fuel : Nat)
    (responses : List NYSDService) (hsignature : Holds memory 0 Wire.signature)
    (hroom : index + m.encode.length ≤ length.toNat)
    (hholds : Holds memory index m.encode) :
    (parseMessages host length (fuel + 1) index responses).run memory =
      (parseMessages host length fuel (index + m.encode.length)
        (responses ++ m.services)).run memory := by
  have htotal := Wire.length_response m.services
  have hlimit := m.length_lt
  have hcount : (UInt8.ofNat m.services.length).toNat = m.services.length :=
    UInt8.toNat_ofNat_of_lt' m.count_lt
  rw [Wire.ResponseMessage.encode] at hroom hholds ⊢
  rw [Wire.response, Wire.message, holds_append, Wire.length_header, List.length_cons] at hholds
  obtain ⟨hheader, htype, hpayload⟩ := hholds
  have hfits : ¬ LengthTooLarge host length memory index := by
    rw [LengthTooLarge, lengthField_of_holds host (by omega) hheader,
      toNat_sub_ofNat (by omega)]
    omega
  obtain ⟨sections, hbytes, hrecords⟩ := exists_sections m.fits
  have hnumber : sections.length = m.services.length := by rw [← hrecords, List.length_map]
  have hsections := run_parseServices host sections responses (hbytes ▸ hpayload.2)
  rw [hnumber, hbytes, hrecords] at hsections
  rw [run_parseMessages_pass host fuel responses hsignature (by omega), if_neg hfits,
    if_neg (not_not.mpr htype), hpayload.1, hcount, hsections]
  have hnext : index + 9 + 1 + (m.services.flatMap Wire.serviceSection).length =
      index + (Wire.response m.services).length := by omega
  rw [hnext]

/-- The message loop reads a concatenation of well-formed responses to its end. -/
theorem run_parseMessages_responses (host : BBEndianness)
    (messages : List Wire.ResponseMessage) {length : UInt32} {memory : Nat → UInt8}
    {fuel index : Nat} (responses : List NYSDService)
    (hsignature : Holds memory 0 Wire.signature) (hfuel : messages.length ≤ fuel)
    (hroom : index + (messages.flatMap Wire.ResponseMessage.encode).length = length.toNat)
    (hholds : Holds memory index (messages.flatMap Wire.ResponseMessage.encode)) :
    (parseMessages host length fuel index responses).run memory =
      (true, responses ++ messages.flatMap Wire.ResponseMessage.services) := by
  induction messages generalizing fuel index responses with
  | nil =>
      rw [run_parseMessages_of_le host fuel responses memory (by simpa using hroom.ge)]
      simp
  | cons m rest ih =>
      rw [List.flatMap_cons, List.length_append] at hroom
      rw [List.flatMap_cons, holds_append] at hholds
      cases fuel with
      | zero => simp at hfuel
      | succ fuel =>
          rw [run_parseMessages_response host m fuel responses hsignature (by omega) hholds.1,
            ih (responses ++ m.services) (by simpa using hfuel) (by omega) hholds.2]
          simp

/-! ## Datagrams -/

theorem length_receive_le (datagram : Bytes) (before : Nat → UInt8) :
    (receive datagram before).length ≤ receiveSize := by
  simp [receive]

theorem length_receive (datagram : Bytes) (before : Nat → UInt8) :
    (receive datagram before).length = min receiveSize datagram.length := by
  simp [receive]

/-- The buffer holds the part of the datagram that fitted. -/
theorem holds_receive (datagram : Bytes) (before : Nat → UInt8) :
    Holds (receive datagram before).data 0 (datagram.take receiveSize) := by
  rw [holds_iff_getElem]
  intro i hi
  simp only [receive, Nat.zero_add, List.getElem?_eq_getElem hi, Option.getD_some]

/-- What the buffer held before shows only behind the datagram. -/
theorem receive_data_congr {datagram : Bytes} (before other : Nat → UInt8)
    (hsize : datagram.length ≤ receiveSize) :
    ∀ address < datagram.length,
      (receive datagram other).data address = (receive datagram before).data address := by
  intro address haddress
  simp only [receive, List.take_of_length_le hsize, List.getElem?_eq_getElem haddress,
    Option.getD_some]

@[simp] theorem toNat_length_receiveBytes (datagram : Bytes) (heap : Nat → UInt8) :
    (receiveBytes datagram heap).length.toNat = min receiveSize datagram.length := by
  have hle := length_receive_le datagram heap
  have hsmall : receiveSize < UInt32.size := by decide
  rw [receiveBytes, UInt32.toNat_ofNat_of_lt' (by omega), length_receive]

theorem holds_receiveBytes {datagram : Bytes} (heap : Nat → UInt8)
    (hsize : datagram.length ≤ receiveSize) :
    Holds (receiveBytes datagram heap).data 0 datagram := by
  have hholds := holds_receive datagram heap
  rwa [List.take_of_length_le hsize] at hholds

/-- Behind the received bytes the buffer is as it was. -/
theorem data_receiveBytes_of_le {datagram : Bytes} (heap : Nat → UInt8) {address : Nat}
    (haddress : (receiveBytes datagram heap).length.toNat ≤ address) :
    (receiveBytes datagram heap).data address = heap address := by
  have hnone : (datagram.take receiveSize)[address]? = none := by
    apply List.getElem?_eq_none
    rwa [List.length_take, ← toNat_length_receiveBytes datagram heap]
  simp only [receiveBytes, receive, hnone, Option.getD_none]

theorem holds_header_of_take {memory : Nat → UInt8} {type : NYSDMessageType} {payload : Bytes}
    (hholds : Holds memory 0 ((Wire.message type payload).take receiveSize)) :
    Holds memory 0 (Wire.header (payload.length + 1)) := by
  have hfits : (Wire.header (payload.length + 1)).length ≤ receiveSize := by
    rw [Wire.length_header]
    decide
  rw [Wire.message, List.take_append, List.take_of_length_le hfits, holds_append] at hholds
  exact hholds.1

/-- A datagram that carries records is parsed to its end, and appends them. -/
theorem parseBuffer_carries (host : BBEndianness) {datagram : Bytes}
    {services : List NYSDService} (heap : Nat → UInt8) (responses : List NYSDService)
    (hcarries : Wire.Carries datagram services) (hsize : datagram.length ≤ receiveSize) :
    parseBuffer host (receiveBytes datagram heap) responses = (true, responses ++ services) := by
  obtain ⟨messages, hne, rfl, rfl⟩ := hcarries
  have hholds := holds_receiveBytes heap hsize
  have hlength : (receiveBytes (messages.flatMap Wire.ResponseMessage.encode) heap).length.toNat =
      (messages.flatMap Wire.ResponseMessage.encode).length := by
    rw [toNat_length_receiveBytes, Nat.min_eq_right hsize]
  have hmany := Wire.length_le_length_messages messages
  have hpos : 0 < messages.length := List.length_pos_iff.mpr hne
  have hsignature : Holds (receiveBytes (messages.flatMap Wire.ResponseMessage.encode)
      heap).data 0 Wire.signature := by
    cases messages with
    | nil => exact absurd rfl hne
    | cons m rest =>
        have hmessage := ((holds_append _ _ _ _).mp hholds).1
        have hheader := ((holds_append _ _ _ _).mp hmessage).1
        exact ((holds_append _ _ _ _).mp hheader).1
  rw [parseBuffer, hlength, if_neg (by omega)]
  exact run_parseMessages_responses host messages responses hsignature (by omega)
    (by rw [Nat.zero_add, hlength]) hholds

/-- A message that did not fit into the buffer is given up at its length field,
before anything was appended. -/
theorem parseBuffer_truncated (host : BBEndianness) {type : NYSDMessageType} {payload : Bytes}
    (heap : Nat → UInt8) (responses : List NYSDService) (hfield : payload.length + 1 < 2 ^ 16)
    (hlong : receiveSize < (Wire.message type payload).length) :
    parseBuffer host (receiveBytes (Wire.message type payload) heap) responses =
      (false, responses) := by
  have hheader := holds_header_of_take (holds_receive (Wire.message type payload) heap)
  have hlength : (receiveBytes (Wire.message type payload) heap).length.toNat = 2047 + 1 := by
    rw [toNat_length_receiveBytes, Nat.min_eq_left (by omega)]
    rfl
  have hsignature := ((holds_append _ _ _ _).mp hheader).1
  have hlarge : LengthTooLarge host (receiveBytes (Wire.message type payload) heap).length
      (receive (Wire.message type payload) heap).data 0 := by
    rw [Wire.length_message, receiveSize] at hlong
    rw [LengthTooLarge, lengthField_of_holds host hfield hheader, toNat_sub_ofNat (by omega)]
    omega
  rw [parseBuffer, hlength, if_neg (by decide)]
  exact (run_parseMessages_pass host 2047 responses hsignature (by omega)).trans (if_pos hlarge)

theorem parseResponses_singleton (host : BBEndianness) (buffer : ResponseStruct)
    (responses : List NYSDService) :
    parseResponses host [buffer] responses = parseBuffer host buffer responses := by
  rw [parseResponses]
  rcases parseBuffer host buffer responses with ⟨_ | _, _⟩ <;> rfl

end NyanSD
