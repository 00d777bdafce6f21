import NyanSD.Suppression
import NyanSD.ResponseBounds

/-!
# Messages of another type

The parsing loop announces that it skips a message that is no response, and goes on
right behind its type byte: the body of the message is read as if messages started
there. Nothing is lost when the body can be walked over to its end without taking a
record.
-/

namespace NyanSD

open Access ByteBauble

/-- A well-formed message that is no response, with any body. -/
structure Wire.OtherMessage where
  type : UInt8
  body : Bytes
  type_ne : type ≠ NYSDMessageType.response.toByte
  length_lt : body.length + 1 < 2 ^ 16

def Wire.OtherMessage.encode (m : Wire.OtherMessage) : Bytes :=
  Wire.header (m.body.length + 1) ++ m.type :: m.body

theorem Wire.OtherMessage.length_encode (m : Wire.OtherMessage) :
    m.encode.length = 9 + m.body.length := by
  rw [encode, List.length_append, length_header, List.length_cons]
  omega

/-- A well-formed message. -/
inductive Wire.Message
  | response (m : Wire.ResponseMessage)
  | other (m : Wire.OtherMessage)

namespace Wire.Message

def encode : Wire.Message → Bytes
  | .response m => m.encode
  | .other m => m.encode

/-- The records of a message: only a response has any. -/
def services : Wire.Message → List NYSDService
  | .response m => m.services
  | .other _ => []

end Wire.Message

/-- The loop walks over these bytes to their end without taking a record: they are
messages of nine bytes that are no responses, and responses of ten bytes without a
section, and no length field counts beyond the end. -/
inductive Bare : Bytes → Prop
  | done : Bare []
  | otherType (start : Bytes) (length : UInt16) (type : UInt8) (rest : Bytes) :
      start.length = 6 → length.toNat ≤ rest.length + 1 →
      type ≠ NYSDMessageType.response.toByte → Bare rest →
      Bare (start ++ MachineInt.bytes length ++ type :: rest)
  | emptyResponse (start : Bytes) (length : UInt16) (rest : Bytes) :
      start.length = 6 → length.toNat ≤ rest.length + 2 → Bare rest →
      Bare (start ++ MachineInt.bytes length ++ NYSDMessageType.response.toByte :: 0 :: rest)

/-- Whatever the buffer held before, the datagram of these messages, and every datagram of
the first of them, is read as if the messages of another type were not there. -/
def SkippedAsUnits (client : BBEndianness) (messages : List Wire.Message) : Prop :=
  ∀ first, first ≠ [] → first <+: messages →
    ∀ (heap : Nat → UInt8) (responses : List NYSDService),
      parseBuffer client (receiveBytes (first.flatMap Wire.Message.encode) heap) responses =
        (true, responses ++ first.flatMap Wire.Message.services)

section Walk

variable (client : BBEndianness) {length : UInt32} {memory : Nat → UInt8} {index fuel : Nat}

/-- A length field that does not count beyond what was received is not too large. -/
theorem not_lengthTooLarge_of_bytes {start : Bytes} {field : UInt16} (hstart : start.length = 6)
    (hheader : Holds memory index (start ++ MachineInt.bytes field))
    (hlength : index + 8 + field.toNat ≤ length.toNat) :
    ¬ LengthTooLarge client length memory index := by
  rw [lengthTooLarge_iff_lt client hstart (by omega) hheader]
  omega

/-- One pass over nine bytes that are taken for a message of another type. -/
theorem run_parseMessages_otherType (responses : List NYSDService)
    (hsignature : Holds memory 0 Wire.signature) {start : Bytes} {field : UInt16} {type : UInt8}
    (hstart : start.length = 6) (htype : type ≠ NYSDMessageType.response.toByte)
    (hholds : Holds memory index (start ++ MachineInt.bytes field ++ [type]))
    (hroom : index + 9 ≤ length.toNat) (hlength : index + 8 + field.toNat ≤ length.toNat) :
    (parseMessages client length (fuel + 1) index responses).run memory =
      (parseMessages client length fuel (index + 9) responses).run memory := by
  obtain ⟨hmark, -⟩ := hholds.behind (length_start_field field hstart)
  have hheader := ((holds_append _ _ _ _).mp hholds).1
  have hfits := not_lengthTooLarge_of_bytes client hstart hheader hlength
  rw [run_parseMessages_pass client fuel responses hsignature (by omega), if_neg hfits, hmark,
    if_pos htype]

/-- One pass over ten bytes that are taken for a response without a section. -/
theorem run_parseMessages_emptyResponse (responses : List NYSDService)
    (hsignature : Holds memory 0 Wire.signature) {start : Bytes} {field : UInt16}
    (hstart : start.length = 6)
    (hholds : Holds memory index
      (start ++ MachineInt.bytes field ++ [NYSDMessageType.response.toByte, 0]))
    (hroom : index + 10 ≤ length.toNat) (hlength : index + 8 + field.toNat ≤ length.toNat) :
    (parseMessages client length (fuel + 1) index responses).run memory =
      (parseMessages client length fuel (index + 10) responses).run memory := by
  obtain ⟨hmark, hcount, -⟩ := hholds.behind (length_start_field field hstart)
  have hheader := ((holds_append _ _ _ _).mp hholds).1
  have hfits := not_lengthTooLarge_of_bytes client hstart hheader hlength
  rw [run_parseMessages_pass client fuel responses hsignature (by omega), if_neg hfits,
    if_neg (not_not.mpr hmark), hcount]
  rfl

/-- A walk over bare bytes ends right behind them, with passes enough for the rest. -/
theorem Bare.run_parseMessages {body : Bytes} (hbare : Bare body) (responses : List NYSDService)
    (hsignature : Holds memory 0 Wire.signature) (hholds : Holds memory index body)
    (hroom : index + body.length ≤ length.toNat) (hfuel : length.toNat ≤ index + fuel) :
    ∃ more, length.toNat ≤ index + body.length + more ∧
      (parseMessages client length fuel index responses).run memory =
        (parseMessages client length more (index + body.length) responses).run memory := by
  induction hbare generalizing index fuel with
  | done => exact ⟨fuel, hfuel, rfl⟩
  | otherType start field type rest hstart hlength htype _ ih =>
      rw [List.append_cons] at hholds hroom
      obtain ⟨hmessage, hrest⟩ := (holds_append _ _ _ _).mp hholds
      simp only [List.length_append, List.length_cons, List.length_nil, MachineInt.length_bytes,
        MachineInt.size_uint16, hstart] at hrest hroom ⊢
      obtain ⟨fuel, rfl⟩ := Nat.exists_eq_add_of_le' (show 1 ≤ fuel by omega)
      obtain ⟨more, hmore, hrun⟩ := ih hrest (by omega) (by omega : length.toNat ≤ _ + fuel)
      refine ⟨more, by omega, ?_⟩
      rw [run_parseMessages_otherType client responses hsignature hstart htype hmessage (by omega)
        (by omega), hrun]
      congr 2
      omega
  | emptyResponse start field rest hstart hlength _ ih =>
      rw [List.append_cons, List.append_cons] at hholds hroom
      obtain ⟨hmessage, hrest⟩ := (holds_append _ _ _ _).mp hholds
      rw [List.append_assoc] at hmessage
      simp only [List.length_append, List.length_cons, List.length_nil, MachineInt.length_bytes,
        MachineInt.size_uint16, hstart] at hrest hroom ⊢
      obtain ⟨fuel, rfl⟩ := Nat.exists_eq_add_of_le' (show 1 ≤ fuel by omega)
      obtain ⟨more, hmore, hrun⟩ := ih hrest (by omega) (by omega : length.toNat ≤ _ + fuel)
      refine ⟨more, by omega, ?_⟩
      rw [run_parseMessages_emptyResponse client responses hsignature hstart hmessage (by omega)
        (by omega), hrun]
      congr 2
      omega

/-- A header with nothing behind it would be refused. -/
theorem nine_le_of_not_refusedAt {body : Bytes}
    (hbeyond : ∀ address, length.toNat ≤ address →
      memory address = NYSDMessageType.response.toByte)
    (hnot : ¬ RefusedAt client length memory index) (hpos : 0 < body.length)
    (hroom : index + body.length = length.toNat) : 9 ≤ body.length := by
  by_contra hshort
  refine hnot ⟨by omega, .inr ⟨hbeyond _ (by omega), ?_, ?_⟩⟩
  · rw [hbeyond _ (by omega)]
    decide
  · rw [hbeyond _ (by omega)]
    decide

/-- Bytes that are walked over with success and without taking a record are bare, where
the memory behind them would be taken for a response with a bad section. -/
theorem bare_of_run_parseMessages {body : Bytes} (responses : List NYSDService)
    (hsignature : Holds memory 0 Wire.signature) (hholds : Holds memory index body)
    (hroom : index + body.length = length.toNat) (hfuel : length.toNat ≤ index + fuel)
    (hbeyond : ∀ address, length.toNat ≤ address →
      memory address = NYSDMessageType.response.toByte)
    (hrun : (parseMessages client length fuel index responses).run memory = (true, responses)) :
    Bare body := by
  have hsome : NYSDMessageType.response.toByte ≠ 0 := by decide
  induction fuel generalizing index body with
  | zero =>
      rw [List.length_eq_zero_iff.mp (show body.length = 0 by omega)]
      exact .done
  | succ fuel ih =>
      rcases Nat.eq_zero_or_pos body.length with hempty | hpos
      · rw [List.length_eq_zero_iff.mp hempty]
        exact .done
      have hnot : ¬ RefusedAt client length memory index := by
        intro hrefused
        rw [hrefused.run_parseMessages hsignature hfuel] at hrun
        cases hrun
      have hlong := nine_le_of_not_refusedAt client hbeyond hnot hpos hroom
      obtain ⟨hfits, hpass⟩ :=
        pass_of_run_parseMessages hsignature (show index < length.toNat by omega) hnot hrun
      obtain ⟨start, field, behind, hstart, rfl⟩ := exists_header (show 8 ≤ body.length by omega)
      have hheader := ((holds_append _ _ _ _).mp hholds).1
      have hbehind := hholds.behind (length_start_field field hstart)
      have hlength := mt (lengthTooLarge_iff_lt client hstart (by omega) hheader).mpr hfits
      rw [List.length_append, length_start_field field hstart] at hroom hlong
      rcases behind with _ | ⟨type, rest⟩
      · exact absurd hlong (by decide)
      rw [List.length_cons] at hroom
      obtain ⟨htype, hrest⟩ := hbehind
      rw [htype] at hpass
      rcases hpass with ⟨hother, hpass⟩ | ⟨rfl, hcount, hpass⟩
      · exact .otherType start field type rest hstart (by omega) hother
          (ih hrest (by omega) (by omega) hpass)
      rcases rest with _ | ⟨count, rest⟩
      · rw [List.length_nil] at hroom
        rw [hbeyond (index + 9) (by omega)] at hcount
        exact absurd hcount hsome
      rw [List.length_cons] at hroom
      obtain ⟨hzero, hrest⟩ := hrest
      obtain rfl : count = 0 := hzero.symm.trans hcount
      exact .emptyResponse start field rest hstart (by omega)
        (ih hrest (by omega) (by omega) hpass)

end Walk

/-! ## Datagrams of messages -/

section Messages

variable (client : BBEndianness)

/-- Every message of another type among these has a body that can be walked over. -/
def AllBare (messages : List Wire.Message) : Prop :=
  ∀ m, Wire.Message.other m ∈ messages → Bare m.body

theorem holds_signature_of_messages {messages : List Wire.Message} {memory : Nat → UInt8}
    (hne : messages ≠ []) (hholds : Holds memory 0 (messages.flatMap Wire.Message.encode)) :
    Holds memory 0 Wire.signature := by
  cases messages with
  | nil => exact absurd rfl hne
  | cons m rest =>
      have hmessage := ((holds_append _ _ _ _).mp hholds).1
      cases m with
      | response m =>
          have hheader := ((holds_append _ _ _ _).mp hmessage).1
          exact ((holds_append _ _ _ _).mp hheader).1
      | other m =>
          have hheader := ((holds_append _ _ _ _).mp hmessage).1
          exact ((holds_append _ _ _ _).mp hheader).1

theorem length_le_messages {messages : List Wire.Message} (hne : messages ≠ []) :
    9 ≤ (messages.flatMap Wire.Message.encode).length := by
  cases messages with
  | nil => exact absurd rfl hne
  | cons m rest =>
      rw [List.flatMap_cons, List.length_append]
      cases m with
      | response m =>
          have hlength := Wire.length_response m.services
          rw [Wire.Message.encode, Wire.ResponseMessage.encode]
          omega
      | other m =>
          rw [Wire.Message.encode, m.length_encode]
          omega

section Memory

variable {length : UInt32} {memory : Nat → UInt8} {index fuel : Nat}

/-- The header of a message of another type is passed, and its body comes next. -/
theorem run_parseMessages_otherMessage (fuel : Nat) (m : Wire.OtherMessage)
    (responses : List NYSDService) (hsignature : Holds memory 0 Wire.signature)
    (hholds : Holds memory index m.encode)
    (hroom : index + m.encode.length ≤ length.toNat) :
    Holds memory (index + 9) m.body ∧
      (parseMessages client length (fuel + 1) index responses).run memory =
        (parseMessages client length fuel (index + 9) responses).run memory := by
  have hfield : (UInt16.ofNat (m.body.length + 1)).toNat = m.body.length + 1 :=
    UInt16.toNat_ofNat_of_lt' m.length_lt
  rw [Wire.OtherMessage.encode, List.append_cons] at hholds hroom
  obtain ⟨hmessage, hbody⟩ := (holds_append _ _ _ _).mp hholds
  simp only [List.length_append, Wire.length_header, List.length_cons, List.length_nil]
    at hbody hroom
  refine ⟨hbody, ?_⟩
  apply run_parseMessages_otherType client responses hsignature Wire.length_signature m.type_ne
    hmessage
  · omega
  · omega

/-- A message is walked over when its body can be, and its records are taken. -/
theorem run_parseMessages_message (m : Wire.Message) (responses : List NYSDService)
    (hbare : AllBare [m]) (hsignature : Holds memory 0 Wire.signature)
    (hholds : Holds memory index m.encode) (hroom : index + m.encode.length ≤ length.toNat)
    (hfuel : length.toNat ≤ index + fuel) :
    ∃ more, length.toNat ≤ index + m.encode.length + more ∧
      (parseMessages client length fuel index responses).run memory =
        (parseMessages client length more (index + m.encode.length)
          (responses ++ m.services)).run memory := by
  cases m with
  | response m =>
      have hlength := Wire.length_response m.services
      rw [Wire.Message.encode] at hholds hroom ⊢
      rw [Wire.ResponseMessage.encode] at hroom
      obtain ⟨fuel, rfl⟩ := Nat.exists_eq_add_of_le' (show 1 ≤ fuel by omega)
      refine ⟨fuel, ?_, run_parseMessages_response client m fuel responses hsignature hroom hholds⟩
      rw [Wire.ResponseMessage.encode]
      omega
  | other m =>
      have hlength := m.length_encode
      rw [Wire.Message.encode] at hholds hroom ⊢
      obtain ⟨fuel, rfl⟩ := Nat.exists_eq_add_of_le' (show 1 ≤ fuel by omega)
      obtain ⟨hbody, hpass⟩ :=
        run_parseMessages_otherMessage client fuel m responses hsignature hholds hroom
      have hinside : index + 9 + m.body.length ≤ length.toNat := by omega
      have hpasses : length.toNat ≤ index + 9 + fuel := by omega
      obtain ⟨more, hmore, hwalk⟩ := (hbare m List.mem_cons_self).run_parseMessages client
        responses hsignature hbody hinside hpasses
      refine ⟨more, by omega, ?_⟩
      rw [hpass, hwalk, hlength, Wire.Message.services, List.append_nil, Nat.add_assoc]

/-- Messages are walked over one after another. -/
theorem run_parseMessages_messages (messages : List Wire.Message) (responses : List NYSDService)
    (hbare : AllBare messages) (hsignature : Holds memory 0 Wire.signature)
    (hholds : Holds memory index (messages.flatMap Wire.Message.encode))
    (hroom : index + (messages.flatMap Wire.Message.encode).length ≤ length.toNat)
    (hfuel : length.toNat ≤ index + fuel) :
    ∃ more, length.toNat ≤ index + (messages.flatMap Wire.Message.encode).length + more ∧
      (parseMessages client length fuel index responses).run memory =
        (parseMessages client length more
          (index + (messages.flatMap Wire.Message.encode).length)
          (responses ++ messages.flatMap Wire.Message.services)).run memory := by
  -- behind every message there are passes enough for the bytes that are left
  induction messages generalizing index fuel responses with
  | nil => exact ⟨fuel, hfuel, by simp⟩
  | cons m rest ih =>
      rw [List.flatMap_cons, List.length_append] at hroom
      obtain ⟨hmessage, hrest⟩ := (holds_append _ _ _ _).mp hholds
      obtain ⟨more, hmore, hfirst⟩ := run_parseMessages_message client m responses
        (fun other hmem => hbare other (List.mem_cons.mpr (.inl (List.mem_singleton.mp hmem))))
        hsignature hmessage (by omega) hfuel
      obtain ⟨last, hlast, hwalk⟩ := ih (responses ++ m.services)
        (fun other hmem => hbare other (List.mem_cons_of_mem m hmem)) hrest (by omega) hmore
      rw [List.flatMap_cons, List.length_append, List.flatMap_cons]
      refine ⟨last, by omega, ?_⟩
      rw [hfirst, hwalk, Nat.add_assoc, List.append_assoc]

/-- The last message of a datagram that is read to its end is no exception. -/
theorem bare_of_run_parseMessages_last {first : List Wire.Message} {m : Wire.OtherMessage}
    (responses : List NYSDService) (hfirst : AllBare first)
    (hsignature : Holds memory 0 Wire.signature)
    (hholds : Holds memory 0 (first.flatMap Wire.Message.encode ++ m.encode))
    (hlength : (first.flatMap Wire.Message.encode ++ m.encode).length = length.toNat)
    (hbeyond : ∀ address, length.toNat ≤ address →
      memory address = NYSDMessageType.response.toByte)
    (hrun : (parseMessages client length length.toNat 0 responses).run memory =
      (true, responses ++ first.flatMap Wire.Message.services)) :
    Bare m.body := by
  obtain ⟨hmessages, hlast⟩ := (holds_append _ _ _ _).mp hholds
  have htotal := m.length_encode
  rw [List.length_append] at hlength
  have hroom : 0 + (first.flatMap Wire.Message.encode).length ≤ length.toNat := by omega
  obtain ⟨more, hmore, hwalk⟩ := run_parseMessages_messages client first responses hfirst
    hsignature hmessages hroom (Nat.le_add_left _ 0)
  obtain ⟨more, rfl⟩ := Nat.exists_eq_add_of_le' (show 1 ≤ more by omega)
  have hinside : 0 + (first.flatMap Wire.Message.encode).length + m.encode.length ≤
      length.toNat := by omega
  obtain ⟨hbody, hpass⟩ := run_parseMessages_otherMessage client more m
    (responses ++ first.flatMap Wire.Message.services) hsignature hlast hinside
  rw [hwalk, hpass] at hrun
  exact bare_of_run_parseMessages client _ hsignature hbody (by omega) (by omega) hbeyond hrun

end Memory

/-- A datagram of messages with bare bodies is read to its end. -/
theorem parseBuffer_messages {messages : List Wire.Message} (heap : Nat → UInt8)
    (responses : List NYSDService) (hne : messages ≠ []) (hbare : AllBare messages)
    (hsize : (messages.flatMap Wire.Message.encode).length ≤ receiveSize) :
    parseBuffer client (receiveBytes (messages.flatMap Wire.Message.encode) heap) responses =
      (true, responses ++ messages.flatMap Wire.Message.services) := by
  have hholds := holds_receiveBytes heap hsize
  have hlength := toNat_length_receiveBytes (messages.flatMap Wire.Message.encode) heap
  have hlong := length_le_messages hne
  rw [Nat.min_eq_right hsize] at hlength
  obtain ⟨more, -, hwalk⟩ := run_parseMessages_messages client messages responses hbare
    (holds_signature_of_messages hne hholds) hholds (by rw [Nat.zero_add, hlength])
    (Nat.le_add_left _ 0)
  rw [Nat.zero_add] at hwalk
  rw [parseBuffer, if_neg (by omega), hwalk]
  exact run_parseMessages_of_le client more _ _ hlength.le

theorem SkippedAsUnits.of_append {first : List Wire.Message} {last : Wire.Message}
    (hskipped : SkippedAsUnits client (first ++ [last])) : SkippedAsUnits client first :=
  fun some hne hstart => hskipped some hne (hstart.trans (List.prefix_append first [last]))

/-- Behind messages that are walked over, the last one has a bare body as well. -/
theorem bare_of_skippedAsUnits {first : List Wire.Message} {m : Wire.OtherMessage}
    (hsize : ((first ++ [Wire.Message.other m]).flatMap Wire.Message.encode).length ≤ receiveSize)
    (hskipped : SkippedAsUnits client (first ++ [.other m])) (hfirst : AllBare first) :
    Bare m.body := by
  have hne : first ++ [Wire.Message.other m] ≠ [] := by simp
  -- what the buffer held before would be taken for a response with a bad section
  let heap : Nat → UInt8 := fun _ => NYSDMessageType.response.toByte
  have hparsed := hskipped _ hne (List.prefix_refl _) heap []
  have hlong := length_le_messages hne
  have hsignature := holds_signature_of_messages hne (holds_receiveBytes heap hsize)
  have hlength := toNat_length_receiveBytes
    ((first ++ [Wire.Message.other m]).flatMap Wire.Message.encode) heap
  rw [Nat.min_eq_right hsize] at hlength
  rw [List.flatMap_append, List.flatMap_singleton] at hparsed hlong hsignature hlength hsize
  rw [List.flatMap_append, List.flatMap_singleton, Wire.Message.services, List.append_nil,
    List.nil_append, parseBuffer, if_neg (by omega)] at hparsed
  apply bare_of_run_parseMessages_last client [] hfirst hsignature
    (holds_receiveBytes heap hsize) hlength.symm ?_ hparsed
  exact fun address haddress => data_receiveBytes_of_le heap haddress

theorem allBare_of_skippedAsUnits {messages : List Wire.Message}
    (hsize : (messages.flatMap Wire.Message.encode).length ≤ receiveSize)
    (hskipped : SkippedAsUnits client messages) : AllBare messages := by
  induction messages using List.reverseRecOn with
  | nil => exact fun m hmem => absurd hmem List.not_mem_nil
  | append_singleton first last ih =>
      have hfirst : AllBare first := by
        apply ih ?_ (hskipped.of_append client)
        rw [List.flatMap_append, List.length_append] at hsize
        omega
      intro m hmem
      rcases List.mem_append.mp hmem with hmem | hmem
      · exact hfirst m hmem
      · obtain rfl := List.mem_singleton.mp hmem
        exact bare_of_skippedAsUnits client hsize hskipped hfirst

/-- The loop reads every datagram that ends with one of these messages as if the messages
of another type were not there exactly when their bodies are bare. -/
theorem skippedAsUnits_iff (messages : List Wire.Message)
    (hsize : (messages.flatMap Wire.Message.encode).length ≤ receiveSize) :
    SkippedAsUnits client messages ↔ AllBare messages := by
  constructor
  · exact allBare_of_skippedAsUnits client hsize
  · intro hbare first hne hstart heap responses
    obtain ⟨rest, rfl⟩ := hstart
    rw [List.flatMap_append, List.length_append] at hsize
    apply parseBuffer_messages client heap responses hne
    · exact fun m hmem => hbare m (List.mem_append_left rest hmem)
    · omega

end Messages

/-- A record without an address. -/
def scanner : NYSDService where
  port := 6566
  hostname := ascii ['o', 'f', 'f', 'i', 'c', 'e']
  service := ascii ['s', 'a', 'n', 'e']
  protocol := .tcp

theorem fits_scanner : Wire.Fits scanner := ⟨by decide, by decide, by decide⟩

/-- A response with one record. -/
def scannerMessage : Wire.Message :=
  .response ⟨[scanner], List.forall_mem_singleton.mpr fits_scanner, by decide, by decide⟩

/-- A message of another type whose body is nine zeros. -/
def zerosMessage : Wire.Message := .other ⟨7, List.replicate 9 0, by decide, by decide⟩

theorem skippedAsUnits_zeros :
    SkippedAsUnits .be [scannerMessage, zerosMessage, scannerMessage] := by
  apply (skippedAsUnits_iff .be _ (by decide)).mpr
  intro m hmem
  obtain heq | heq | heq : _ ∨ _ ∨ _ := by simpa using hmem
  · cases heq
  · cases heq
    exact .otherType (List.replicate 6 0) 0 0 [] rfl (by decide) (by decide) .done
  · cases heq

/-- A query for everything, as a client broadcasts it. -/
def queryMessage : Wire.Message :=
  .other ⟨NYSDMessageType.broadcast.toByte, 1 :: Wire.querySection ⟨.all, []⟩, by decide,
    by decide⟩

/-- A query in front of a response suppresses its record: the length field of the next
message is read in the middle of the response. -/
theorem query_suppresses_response :
    queryMessage.encode = Wire.broadcast [⟨.all, []⟩] ∧
    ([queryMessage, scannerMessage].flatMap Wire.Message.encode).length ≤ receiveSize ∧
    [queryMessage, scannerMessage].flatMap Wire.Message.services = [scanner] ∧
    parseBuffer .le (receiveBytes
      ([queryMessage, scannerMessage].flatMap Wire.Message.encode) fun _ => 0) [] =
        (false, []) ∧
    ¬ SkippedAsUnits .le [queryMessage, scannerMessage] := by
  have hparsed : parseBuffer .le (receiveBytes
      ([queryMessage, scannerMessage].flatMap Wire.Message.encode) fun _ => 0) [] =
        (false, []) := by
    decide
  refine ⟨by decide, by decide, rfl, hparsed, ?_⟩
  intro hskipped
  have hread := hskipped _ (by simp) (List.prefix_refl _) (fun _ => 0) []
  rw [hparsed] at hread
  exact absurd (congrArg Prod.fst hread) (by decide)

end NyanSD
