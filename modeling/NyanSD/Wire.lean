import NyanSD.Service

/-!
# The message format

What the protocol document calls header, query section and service section,
written down once and independently of the code that composes or reads them.
Lengths are stored in one or two bytes, so a message carries what it was built
from only within the bounds that `Fits`, `ResponseMessage` and `QueryMessage`
collect.
-/

namespace NyanSD.Wire

/-- The six bytes every message starts with. -/
def signature : Bytes := ascii ['N', 'Y', 'A', 'N', 'S', 'D']

/-- The byte every query section starts with. -/
def querySignature : UInt8 := 'Q'.toUInt8

/-- The byte every service section starts with. -/
def serviceSignature : UInt8 := 'S'.toUInt8

/-- Signature and length field, which counts the bytes behind these eight. -/
def header (length : Nat) : Bytes := signature ++ MachineInt.bytes (UInt16.ofNat length)

/-- Header, type byte and payload. -/
def message (type : NYSDMessageType) (payload : Bytes) : Bytes :=
  header (payload.length + 1) ++ (type.toByte :: payload)

/-- A string behind a one-byte length. -/
def shortString (text : Bytes) : Bytes := UInt8.ofNat text.length :: text

/-- A string behind a two-byte length. -/
def longString (text : Bytes) : Bytes := MachineInt.bytes (UInt16.ofNat text.length) ++ text

def serviceSection (sv : NYSDService) : Bytes :=
  serviceSignature :: (MachineInt.bytes sv.ipv4 ++ shortString sv.ipv6 ++
    longString sv.hostname ++ MachineInt.bytes sv.port ++ [sv.protocol.toByte] ++
    longString sv.service)

def querySection (query : NYSDQuery) : Bytes :=
  querySignature :: query.protocol.toByte :: shortString query.filter

/-- A response: how many service sections follow, and the sections. -/
def response (services : List NYSDService) : Bytes :=
  message .response (UInt8.ofNat services.length :: services.flatMap serviceSection)

/-- A broadcast: how many query sections follow, and the sections. -/
def broadcast (queries : List NYSDQuery) : Bytes :=
  message .broadcast (UInt8.ofNat queries.length :: queries.flatMap querySection)

/-! ## Lengths -/

@[simp] theorem length_signature : signature.length = 6 := rfl

@[simp] theorem length_header (length : Nat) : (header length).length = 8 := by
  simp [header]

theorem length_message (type : NYSDMessageType) (payload : Bytes) :
    (message type payload).length = payload.length + 9 := by
  simp [message]
  omega

theorem length_serviceSection (sv : NYSDService) :
    (serviceSection sv).length =
      13 + sv.ipv6.length + sv.hostname.length + sv.service.length := by
  simp [serviceSection, shortString, longString]
  omega

theorem length_querySection (query : NYSDQuery) :
    (querySection query).length = 3 + query.filter.length := by
  simp [querySection, shortString]
  omega

theorem length_response (services : List NYSDService) :
    (response services).length = (services.flatMap serviceSection).length + 10 := by
  simp [response, length_message]

theorem length_broadcast (queries : List NYSDQuery) :
    (broadcast queries).length = (queries.flatMap querySection).length + 10 := by
  simp [broadcast, length_message]

/-- The count of a response stands behind the header and the type byte. -/
theorem getElem?_response_count (services : List NYSDService) :
    (response services)[9]? = some (UInt8.ofNat services.length) := by
  rw [response, message, List.getElem?_append_right (by simp), length_header]
  rfl

/-- The length of the IPv6 string stands behind the signature and the address. -/
theorem getElem?_serviceSection_ipv6 (sv : NYSDService) :
    (serviceSection sv)[5]? = some (UInt8.ofNat sv.ipv6.length) := by
  rw [serviceSection, List.getElem?_cons_succ, List.append_assoc, List.append_assoc,
    List.append_assoc, List.append_assoc, List.getElem?_append_right (by simp)]
  simp [shortString]

section Pieces

variable {α : Type} {emit : α → Bytes}

/-- Where every item takes at least `least` bytes, few bytes come from few items. -/
theorem mul_length_le_length_flatMap {least : Nat} (hleast : ∀ item, least ≤ (emit item).length)
    (items : List α) : least * items.length ≤ (items.flatMap emit).length := by
  induction items with
  | nil => simp
  | cons item rest ih =>
      have hitem := hleast item
      rw [List.flatMap_cons, List.length_append, List.length_cons, Nat.mul_succ]
      omega

theorem length_le_length_flatMap {items : List α} {item : α} (hmem : item ∈ items) :
    (emit item).length ≤ (items.flatMap emit).length := by
  obtain ⟨before, after, rfl⟩ := List.append_of_mem hmem
  simp only [List.flatMap_append, List.flatMap_cons, List.length_append]
  omega

end Pieces

theorem length_le_length_sections (services : List NYSDService) :
    13 * services.length ≤ (services.flatMap serviceSection).length := by
  apply mul_length_le_length_flatMap
  intro sv
  rw [length_serviceSection]
  omega

/-! ## Messages that carry what they were built from -/

/-- The strings of a record are no longer than their length fields can say. -/
structure Fits (sv : NYSDService) : Prop where
  ipv6 : sv.ipv6.length < 2 ^ 8
  hostname : sv.hostname.length < 2 ^ 16
  service : sv.service.length < 2 ^ 16

/-- A well-formed response message. -/
structure ResponseMessage where
  services : List NYSDService
  fits : ∀ sv ∈ services, Fits sv
  count_lt : services.length < 2 ^ 8
  length_lt : (response services).length < 8 + 2 ^ 16

def ResponseMessage.encode (m : ResponseMessage) : Bytes := response m.services

theorem length_le_length_messages (messages : List ResponseMessage) :
    10 * messages.length ≤ (messages.flatMap ResponseMessage.encode).length := by
  apply mul_length_le_length_flatMap
  intro m
  rw [ResponseMessage.encode, length_response]
  omega

/-- A well-formed broadcast message. -/
structure QueryMessage where
  queries : List NYSDQuery
  filter_lt : ∀ query ∈ queries, query.filter.length < 2 ^ 8
  count_pos : 0 < queries.length
  count_lt : queries.length < 2 ^ 8
  length_lt : (broadcast queries).length < 8 + 2 ^ 16

def QueryMessage.encode (m : QueryMessage) : Bytes := broadcast m.queries

/-- The bytes of a datagram are one or more well-formed response messages,
carrying these records altogether. -/
def Carries (datagram : Bytes) (services : List NYSDService) : Prop :=
  ∃ messages : List ResponseMessage, messages ≠ [] ∧
    datagram = messages.flatMap ResponseMessage.encode ∧
    services = messages.flatMap ResponseMessage.services

theorem ResponseMessage.carries (m : ResponseMessage) : Carries m.encode m.services :=
  ⟨[m], by simp, (List.flatMap_singleton encode m).symm, (List.flatMap_singleton services m).symm⟩

theorem Carries.flatMap {α : Type} {items : List α} {bytes : α → Bytes}
    {services : α → List NYSDService} (hne : items ≠ [])
    (hitems : ∀ item ∈ items, Carries (bytes item) (services item)) :
    Carries (items.flatMap bytes) (items.flatMap services) := by
  induction items with
  | nil => exact absurd rfl hne
  | cons item rest ih =>
      obtain ⟨⟨first, hfirst, hbytes, hservices⟩, hothers⟩ := List.forall_mem_cons.mp hitems
      by_cases hrest : rest = []
      · subst rest
        exact ⟨first, hfirst, by simpa using hbytes, by simpa using hservices⟩
      · obtain ⟨others, -, hmoreBytes, hmoreServices⟩ := ih hrest hothers
        refine ⟨first ++ others, by simp [hfirst], ?_, ?_⟩
        · simp [hbytes, hmoreBytes]
        · simp [hservices, hmoreServices]

theorem fits_of_length_section {sv : NYSDService} (hipv6 : sv.ipv6.length < 2 ^ 8)
    (hlength : (serviceSection sv).length < 2 ^ 16) : Fits sv := by
  rw [length_serviceSection] at hlength
  exact ⟨hipv6, by omega, by omega⟩

end NyanSD.Wire
