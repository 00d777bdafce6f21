import NyanSD.QueryRoundTrip
import NyanSD.Registry

/-!
# Stored lengths and counts

Every count and length in a message is narrowed from an unbounded size to one or two
bytes, and what it counts is appended in full. A message is put together here from the
fields it stores, so that each field can be compared with what stands behind it. They
agree exactly up to the bounds that nobody checks.
-/

namespace NyanSD

open Access ByteBauble Wire

/-! ## Responses -/

namespace Wire

structure ResponseFields where
  length : UInt16
  count : UInt8
  sections : List ServiceFields

namespace ResponseFields

def payload (r : ResponseFields) : Bytes := r.count :: r.sections.flatMap ServiceFields.bytes

def bytes (r : ResponseFields) : Bytes :=
  signature ++ MachineInt.bytes r.length ++ NYSDMessageType.response.toByte :: r.payload

/-- Every stored length and count is the one of what stands behind it; the message
length counts the type byte and the payload. -/
structure Exact (r : ResponseFields) : Prop where
  count : r.count.toNat = r.sections.length
  sections : ∀ s ∈ r.sections, s.Exact
  length : r.length.toNat = 1 + r.payload.length

end ResponseFields

/-- The fields of a response with these records. -/
def storedResponse (services : List NYSDService) : ResponseFields where
  length := UInt16.ofNat ((services.flatMap serviceSection).length + 2)
  count := UInt8.ofNat services.length
  sections := services.map storedService

theorem payload_storedResponse (services : List NYSDService) :
    (storedResponse services).payload =
      UInt8.ofNat services.length :: services.flatMap serviceSection := by
  simp only [ResponseFields.payload, storedResponse, List.flatMap_map, bytes_storedService]

theorem bytes_storedResponse (services : List NYSDService) :
    (storedResponse services).bytes = response services := by
  rw [ResponseFields.bytes, payload_storedResponse, response, message, header, List.length_cons]
  rfl

/-- How many bytes a record takes. -/
def sectionLength (sv : NYSDService) : Nat :=
  13 + sv.ipv6.length + sv.hostname.length + sv.service.length

theorem length_sections (services : List NYSDService) :
    (services.flatMap serviceSection).length = (services.map sectionLength).sum := by
  simp only [List.length_flatMap, length_serviceSection]
  rfl

/-- The fields of a response are exact when no size is too large for its field. -/
theorem exact_storedResponse_iff (services : List NYSDService) :
    (storedResponse services).Exact ↔
      services.length < 2 ^ 8 ∧ (∀ sv ∈ services, Fits sv) ∧
        (services.map sectionLength).sum + 2 < 2 ^ 16 := by
  have hpayload := congrArg List.length (payload_storedResponse services)
  rw [List.length_cons] at hpayload
  have hmsglen : (storedResponse services).length.toNat =
      1 + (storedResponse services).payload.length ↔
        (services.map sectionLength).sum + 2 < 2 ^ 16 := by
    rw [hpayload, Nat.add_comm 1, ← length_sections]
    exact toNat_ofNat16_eq_iff
  have hcount : (storedResponse services).count.toNat = (storedResponse services).sections.length ↔
      services.length < 2 ^ 8 := by
    have hnumber : (storedResponse services).sections.length = services.length :=
      List.length_map _
    rw [hnumber]
    exact toNat_ofNat8_eq_iff
  have hsections : (∀ s ∈ (storedResponse services).sections, s.Exact) ↔
      ∀ sv ∈ services, Fits sv := by
    rw [storedResponse, List.forall_mem_map]
    exact forall₂_congr fun sv _ => exact_storedService_iff sv
  rw [← hcount, ← hsections, ← hmsglen]
  constructor
  · intro hexact
    exact ⟨hexact.count, hexact.sections, hexact.length⟩
  · rintro ⟨hcount, hsections, hmsglen⟩
    exact ⟨hcount, hsections, hmsglen⟩

end Wire

theorem ipv4_ne_zero_of_mem_registry {calls : List Registration} {sv : NYSDService}
    (hipv4 : ∀ call ∈ calls, call.service.ipv4 ≠ 0) (hmem : sv ∈ registry calls) :
    sv.ipv4 ≠ 0 := by
  rw [registry_eq, List.mem_map] at hmem
  obtain ⟨call, hcall, rfl⟩ := hmem
  rw [Registration.record_eq]
  exact hipv4 call (List.mem_filter.mp hcall).1

theorem selected_sublist (server : Server) (filter : Bytes) :
    (selected server filter).Sublist server.services := by
  unfold selected
  split
  · exact List.filter_sublist
  · exact List.Sublist.refl _

@[simp] theorem selected_nil (server : Server) : selected server [] = server.services := rfl

/-- Whatever was registered, every response is put together from the stored fields of
the records it selects, and these are exact as long as there are at most 255 records,
no string is longer than its length field can say, and neither is the message. -/
theorem response_fields_iff {server : Server} {sender : SocketAddress} {datagram : Bytes}
    {buffer : Nat → UInt8} {index : Nat} {answers : List Answer} {a : Answer}
    {calls : List Registration} (hregistry : server.services = registry calls)
    (hipv4 : ∀ call ∈ calls, call.service.ipv4 ≠ 0)
    (hhandled : clientHandler server sender datagram buffer = .sections index answers)
    (hanswer : a ∈ answers) :
    a.msg = (storedResponse (selected server a.filter)).bytes ∧
      ((storedResponse (selected server a.filter)).Exact ↔
        (selected server a.filter).length < 2 ^ 8 ∧
          (∀ sv ∈ selected server a.filter, Fits sv) ∧
          ((selected server a.filter).map sectionLength).sum + 2 < 2 ^ 16) := by
  have hmsg : a.msg = response (selected server a.filter) := by
    rw [clientHandler_answers server sender hhandled a hanswer]
    apply respond_of_ipv4_ne_zero
    intro sv hmem
    apply ipv4_ne_zero_of_mem_registry hipv4
    rw [← hregistry]
    exact (selected_sublist server a.filter).subset hmem
  rw [hmsg]
  exact ⟨(bytes_storedResponse _).symm, exact_storedResponse_iff _⟩

/-- Any server answers a query for every service. -/
theorem clientHandler_everything (server : Server) (sender : SocketAddress)
    (buffer : Nat → UInt8) :
    clientHandler server sender (Wire.broadcast [⟨.all, []⟩]) buffer =
      .sections 13 [⟨0, [], respond server sender []⟩] :=
  clientHandler_broadcast server sender
    ⟨[⟨.all, []⟩], by decide, by decide, by decide, by decide⟩ buffer (by decide)

/-- A host that registers a printer. -/
def registration : Registration := ⟨printer, []⟩

theorem response_fields_printer :
    (storedResponse (selected (serverOf .le (registry [registration])) [])).Exact := by
  have hhandled := clientHandler_everything (serverOf .le (registry [registration])) laptop
    fun _ => 0
  have hipv4 : ∀ call ∈ [registration], call.service.ipv4 ≠ 0 :=
    List.forall_mem_singleton.mpr (by decide)
  refine (response_fields_iff rfl hipv4 hhandled List.mem_cons_self).2.mpr
    ⟨by decide, ?_, by decide⟩
  exact List.forall_mem_singleton.mpr fits_printer

theorem registry_replicate (count : Nat) :
    registry (List.replicate count registration) = List.replicate count printer := by
  have haccepted : decide registration.Accepted = true := by decide
  rw [registry_eq, List.filter_replicate, if_pos haccepted, List.map_replicate]
  rfl

/-- Of 256 registered printers the response stores the count zero. -/
theorem count_wraps :
    clientHandler (serverOf .le (registry (List.replicate 256 registration))) laptop
        (Wire.broadcast [⟨.all, []⟩]) (fun _ => 0) = .sections 13
          [⟨0, [], respond (serverOf .le (registry (List.replicate 256 registration))) laptop []⟩] ∧
      (respond (serverOf .le (registry (List.replicate 256 registration))) laptop []).length <
        maxDatagram ∧
      (respond (serverOf .le (registry (List.replicate 256 registration))) laptop [])[9]? =
        some 0 ∧
      ¬ (storedResponse (selected
        (serverOf .le (registry (List.replicate 256 registration))) [])).Exact := by
  have hselected : selected (serverOf .le (registry (List.replicate 256 registration))) [] =
      List.replicate 256 printer := by
    rw [selected_nil, serverOf, registry_replicate]
  have hrespond : respond (serverOf .le (registry (List.replicate 256 registration))) laptop [] =
      response (List.replicate 256 printer) := by
    rw [respond_of_ipv4_ne_zero laptop, hselected]
    rw [hselected]
    intro sv hmem
    rw [List.eq_of_mem_replicate hmem]
    decide
  refine ⟨clientHandler_everything _ laptop _, ?_, ?_, ?_⟩
  · rw [hrespond, length_response, length_sections, List.map_replicate, List.sum_replicate]
    decide
  · rw [hrespond, getElem?_response_count, List.length_replicate]
    rfl
  · intro hexact
    have hcount := hexact.count
    rw [hselected, storedResponse, List.length_map, List.length_replicate] at hcount
    exact absurd hcount (by decide)

/-! ## Queries -/

namespace Wire

structure BroadcastFields where
  length : UInt16
  count : UInt8
  sections : List QueryFields

namespace BroadcastFields

def payload (b : BroadcastFields) : Bytes := b.count :: b.sections.flatMap QueryFields.bytes

def bytes (b : BroadcastFields) : Bytes :=
  signature ++ MachineInt.bytes b.length ++ NYSDMessageType.broadcast.toByte :: b.payload

end BroadcastFields

/-- The fields of a section as the composer writes them: a filter whose length is
narrowed to zero is not appended. -/
def storedQuery (query : NYSDQuery) : QueryFields where
  prot := query.protocol.toByte
  length := UInt8.ofNat query.filter.length
  filter := if 0 < UInt8.ofNat query.filter.length then query.filter else []

/-- The fields of a broadcast with these queries. -/
def storedBroadcast (queries : List NYSDQuery) : BroadcastFields where
  length := UInt16.ofNat ((queries.flatMap fun query => (storedQuery query).bytes).length + 1 + 1)
  count := UInt8.ofNat queries.length
  sections := queries.map storedQuery

end Wire

theorem appendQueries_stored (queries : List NYSDQuery) (body : Bytes) :
    appendQueries queries body = body ++ queries.flatMap fun query => (storedQuery query).bytes := by
  induction queries generalizing body with
  | nil => simp [appendQueries]
  | cons query rest ih =>
      rw [appendQueries, ih, List.flatMap_cons]
      unfold storedQuery QueryFields.bytes
      dsimp only
      split
      · simp
      · simp

/-- Whatever the queries, the composed message is put together from these fields. -/
theorem composeQuery_stored (host : BBEndianness) {queries : List NYSDQuery}
    (hpos : 1 ≤ queries.length) (hcount : queries.length ≤ 255) :
    composeQuery host queries = .ok (storedBroadcast queries).bytes := by
  have hbody := appendQueries_stored queries [UInt8.ofNat queries.length]
  rw [composeQuery, if_neg (by omega), if_neg (by omega)]
  simp [hbody, objectBytes_toGlobal swappable_uint16, BroadcastFields.bytes,
    BroadcastFields.payload, storedBroadcast, List.flatMap_map]

/-- A narrowed length is zero for the empty filter only, if it is not narrowed. -/
theorem storedQuery_of_lt {query : NYSDQuery} (hfilter : query.filter.length < 2 ^ 8) :
    storedQuery query = ⟨query.protocol.toByte, UInt8.ofNat query.filter.length, query.filter⟩ := by
  have hlength := toNat_ofNat8_eq_iff.mpr hfilter
  unfold storedQuery
  split
  · rfl
  next hzero =>
    rw [UInt8.lt_iff_toNat_lt, hlength, Nat.not_lt] at hzero
    rw [List.length_eq_zero_iff.mp (Nat.le_zero.mp hzero)]

/-- A section says what it carries, and does not turn a filter into a wildcard, exactly
when the length of the filter fits into its byte. -/
theorem exact_storedQuery_iff (query : NYSDQuery) :
    ((storedQuery query).Exact ∧ (query.filter ≠ [] → (storedQuery query).length ≠ 0)) ↔
      query.filter.length < 2 ^ 8 := by
  constructor
  · rintro ⟨hexact, hwildcard⟩
    by_cases hempty : query.filter = []
    · rw [hempty]
      decide
    have hnonzero : UInt8.ofNat query.filter.length ≠ 0 := hwildcard hempty
    have hpos : 0 < UInt8.ofNat query.filter.length := UInt8.pos_iff_ne_zero.mpr hnonzero
    rw [QueryFields.Exact, storedQuery] at hexact
    dsimp only at hexact
    rw [if_pos hpos] at hexact
    exact toNat_ofNat8_eq_iff.mp hexact
  · intro hfilter
    have hlength := toNat_ofNat8_eq_iff.mpr hfilter
    rw [storedQuery_of_lt hfilter]
    refine ⟨hlength, ?_⟩
    intro hsome hzero
    have hnone : (UInt8.ofNat query.filter.length).toNat = 0 := congrArg UInt8.toNat hzero
    exact hsome (List.length_eq_zero_iff.mp (hlength.symm.trans hnone))

/-- What is meant by exact fields of a query message, sections first; and that a server
which reads the message looks for section signatures at the starts of the sections, pass
after pass. -/
structure QueryFieldsExact (queries : List NYSDQuery) : Prop where
  sections : ∀ query ∈ queries, (storedQuery query).Exact
  length : (storedBroadcast queries).length.toNat = 1 + (storedBroadcast queries).payload.length
  wildcard : ∀ query ∈ queries, query.filter ≠ [] → (storedQuery query).length ≠ 0
  starts : ∀ (server : Server) (sender : SocketAddress) (memory : Nat → UInt8),
    Holds memory 0 (storedBroadcast queries).bytes → ∀ k ≤ queries.length,
      ((querySections server sender k 10 []).run memory).1 =
        10 + ((queries.take k).flatMap fun query => (storedQuery query).bytes).length

section Fitting

variable {queries : List NYSDQuery} (hfilter : ∀ query ∈ queries, query.filter.length < 2 ^ 8)

include hfilter

theorem flatMap_storedQuery :
    (queries.flatMap fun query => (storedQuery query).bytes) = queries.flatMap querySection := by
  apply List.flatMap_congr
  intro query hmem
  rw [storedQuery_of_lt (hfilter query hmem)]
  rfl

theorem length_field_iff :
    (storedBroadcast queries).length.toNat = 1 + (storedBroadcast queries).payload.length ↔
      (queries.map fun query => 3 + query.filter.length).sum + 2 < 2 ^ 16 := by
  have hsections : (queries.flatMap fun query => (storedQuery query).bytes).length =
      (queries.map fun query => 3 + query.filter.length).sum := by
    rw [flatMap_storedQuery hfilter]
    simp only [List.length_flatMap, length_querySection]
  have hpayload : (storedBroadcast queries).payload.length =
      (queries.flatMap fun query => (storedQuery query).bytes).length + 1 := by
    rw [BroadcastFields.payload, storedBroadcast, List.length_cons, List.flatMap_map]
  rw [hpayload, ← hsections, Nat.add_comm 1]
  exact toNat_ofNat16_eq_iff

/-- The passes of the section loop over a composed message go from section to section. -/
theorem querySections_starts (server : Server) (sender : SocketAddress) {memory : Nat → UInt8}
    (hholds : Holds memory 0 (storedBroadcast queries).bytes) {k : Nat} (hk : k ≤ queries.length) :
    ((querySections server sender k 10 []).run memory).1 =
      10 + ((queries.take k).flatMap fun query => (storedQuery query).bytes).length := by
  have htaken : ∀ query ∈ queries.take k, query.filter.length < 2 ^ 8 :=
    fun query hmem => hfilter query (List.mem_of_mem_take hmem)
  have hsections : Holds memory 10 ((queries.take k).flatMap querySection) := by
    obtain ⟨-, -, -, hsections⟩ := (holds_append _ _ _ _).mp hholds
    rw [storedBroadcast, List.flatMap_map, flatMap_storedQuery hfilter,
      ← List.take_append_drop k queries, List.flatMap_append, holds_append] at hsections
    exact hsections.1
  have hrun := run_querySections server sender [] htaken hsections
  rw [List.length_take, Nat.min_eq_left hk] at hrun
  rw [hrun, flatMap_storedQuery htaken]

end Fitting

/-- The fields of a composed message are exact when every filter fits behind its length
byte and the sections altogether behind the length of the message. -/
theorem query_fields_iff (host : BBEndianness) {queries : List NYSDQuery}
    (hpos : 1 ≤ queries.length) (hcount : queries.length ≤ 255) :
    composeQuery host queries = .ok (storedBroadcast queries).bytes ∧
      (QueryFieldsExact queries ↔ (∀ query ∈ queries, query.filter.length < 2 ^ 8) ∧
        (queries.map fun query => 3 + query.filter.length).sum + 2 < 2 ^ 16) := by
  refine ⟨composeQuery_stored host hpos hcount, ?_⟩
  constructor
  · intro hexact
    have hfilter : ∀ query ∈ queries, query.filter.length < 2 ^ 8 := by
      intro query hmem
      exact (exact_storedQuery_iff query).mp
        ⟨hexact.sections query hmem, hexact.wildcard query hmem⟩
    exact ⟨hfilter, (length_field_iff hfilter).mp hexact.length⟩
  · rintro ⟨hfilter, htotal⟩
    have hstored := fun query hmem => (exact_storedQuery_iff query).mpr (hfilter query hmem)
    refine ⟨fun query hmem => (hstored query hmem).1, (length_field_iff hfilter).mpr htotal,
      fun query hmem => (hstored query hmem).2, ?_⟩
    intro server sender memory hholds k hk
    exact querySections_starts hfilter server sender hholds hk

theorem query_fields_printer :
    QueryFieldsExact [⟨.all, []⟩, ⟨.tcp, printer.service⟩] :=
  (query_fields_iff .le (by decide) (by decide)).2.mpr ⟨by decide, by decide⟩

/-- A filter of 256 bytes. -/
def longFilter : NYSDQuery := ⟨.all, List.replicate 256 0⟩

/-- It is sent as a wildcard. -/
theorem longFilter_sent_as_wildcard :
    composeQuery .le [longFilter] = composeQuery .le [⟨.all, []⟩] ∧ longFilter.filter ≠ [] ∧
      (storedQuery longFilter).length = 0 ∧ ¬ QueryFieldsExact [longFilter] := by
  have hlength : longFilter.filter.length = 256 := List.length_replicate
  have hne : longFilter.filter ≠ [] := by
    intro hempty
    rw [hempty] at hlength
    cases hlength
  have hstored : storedQuery longFilter = storedQuery ⟨.all, []⟩ := by
    rw [storedQuery, hlength]
    rfl
  have hzero : (storedQuery longFilter).length = 0 := by
    rw [hstored]
    rfl
  refine ⟨?_, hne, hzero, ?_⟩
  · rw [composeQuery_stored .le (by decide) (by decide),
      composeQuery_stored .le (by decide) (by decide)]
    simp only [storedBroadcast, List.flatMap_cons, List.flatMap_nil, List.map_cons, List.map_nil,
      hstored, List.length_singleton]
  · intro hexact
    exact hexact.wildcard longFilter List.mem_cons_self hne hzero

end NyanSD
