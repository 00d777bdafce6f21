import NyanSD.Parsing
import NyanSD.Response

/-!
# Responses arrive complete or not at all

The composer of the handler and the parser of `sendQuery` meet at the message
format: whatever the two byte orders, a response is a well-formed message, and a
well-formed message is read back to its end. A response that does not fit into
the receive buffer is given up before its first record.
-/

namespace NyanSD

open Access ByteBauble

/-- The longest payload of a UDP datagram over IPv4. -/
def maxDatagram : Nat := 65507

/-- What a response depends on: who answers whom, and with which filter. -/
structure Reply where
  server : Server
  sender : SocketAddress
  filter : Bytes

namespace Reply

def message (reply : Reply) : Bytes := respond reply.server reply.sender reply.filter

/-- The registered records the reply is about. -/
def selected (reply : Reply) : List NYSDService :=
  NyanSD.selected reply.server reply.filter

/-- The records as the reply gives them, missing addresses filled in. -/
def records (reply : Reply) : List NYSDService :=
  reply.selected.filterMap (filledIn reply.server reply.sender)

/-- Every selected record gets an address, and every IPv6 string its length. -/
structure Answerable (reply : Reply) : Prop where
  filled : ∀ sv ∈ reply.selected, (filledIn reply.server reply.sender sv).isSome
  ipv6 : ∀ sv ∈ reply.records, sv.ipv6.length ≤ 255

/-- The records bring their addresses, and the reply can be sent at all. -/
structure Sendable (reply : Reply) : Prop where
  ipv4 : ∀ sv ∈ reply.selected, sv.ipv4 ≠ 0
  ipv6 : ∀ sv ∈ reply.selected, sv.ipv6.length ≤ 255
  length_le : reply.message.length ≤ maxDatagram

theorem Sendable.records_eq {reply : Reply} (hsendable : reply.Sendable) :
    reply.records = reply.selected :=
  filterMap_filledIn reply.server reply.sender hsendable.ipv4

theorem Sendable.answerable {reply : Reply} (hsendable : reply.Sendable) :
    reply.Answerable where
  filled sv hmem := by
    rw [filledIn_of_ipv4_ne_zero reply.server reply.sender (hsendable.ipv4 sv hmem)]
    rfl
  ipv6 sv hmem := by
    rw [hsendable.records_eq] at hmem
    exact hsendable.ipv6 sv hmem

/-- A reply that fits into the receive buffer is a well-formed message: its
length bounds every length field and the count. -/
theorem Answerable.carries {reply : Reply} (hanswerable : reply.Answerable)
    (hsize : reply.message.length ≤ receiveSize) :
    Wire.Carries reply.message reply.records := by
  have hmessage : reply.message = Wire.response reply.records :=
    respond_of_filled hanswerable.filled
  have htotal := Wire.length_response reply.records
  have hcount := Wire.length_le_length_sections reply.records
  rw [hmessage, receiveSize] at hsize
  -- no string is longer than its section, and no section longer than the buffer
  have hfits : ∀ sv ∈ reply.records, Wire.Fits sv := by
    intro sv hmem
    have hsection : (Wire.serviceSection sv).length ≤
        (reply.records.flatMap Wire.serviceSection).length :=
      Wire.length_le_length_flatMap hmem
    have hipv6 := hanswerable.ipv6 sv hmem
    exact Wire.fits_of_length_section (by omega) (by omega)
  rw [hmessage]
  exact Wire.ResponseMessage.carries ⟨reply.records, hfits, by omega, by omega⟩

end Reply

/-- A datagram of replies, and what its receive buffer held before. -/
structure Delivery where
  replies : List Reply
  heap : Nat → UInt8

namespace Delivery

def datagram (delivery : Delivery) : Bytes := delivery.replies.flatMap Reply.message

def received (delivery : Delivery) : ResponseStruct :=
  receiveBytes delivery.datagram delivery.heap

/-- One or more replies that fit into the receive buffer together. -/
structure Complete (delivery : Delivery) : Prop where
  replies_ne_nil : delivery.replies ≠ []
  sendable : ∀ reply ∈ delivery.replies, reply.Sendable
  length_le : delivery.datagram.length ≤ receiveSize

theorem Complete.carries {delivery : Delivery} (hcomplete : delivery.Complete) :
    Wire.Carries delivery.datagram (delivery.replies.flatMap Reply.selected) := by
  apply Wire.Carries.flatMap hcomplete.replies_ne_nil
  intro reply hmem
  have hsendable := hcomplete.sendable reply hmem
  have hsize : reply.message.length ≤ delivery.datagram.length :=
    Wire.length_le_length_flatMap hmem
  rw [← hsendable.records_eq]
  exact hsendable.answerable.carries (hsize.trans hcomplete.length_le)

end Delivery

theorem parseResponses_deliveries (client : BBEndianness) (deliveries : List Delivery)
    (responses : List NYSDService) (hcomplete : ∀ d ∈ deliveries, d.Complete) :
    parseResponses client (deliveries.map Delivery.received) responses =
      (true, responses ++ deliveries.flatMap fun d => d.replies.flatMap Reply.selected) := by
  induction deliveries generalizing responses with
  | nil => simp [parseResponses]
  | cons d rest ih =>
      obtain ⟨hd, hrest⟩ := List.forall_mem_cons.mp hcomplete
      have hfirst := parseBuffer_carries client d.heap responses hd.carries hd.length_le
      rw [List.map_cons, parseResponses, Delivery.received, hfirst]
      simp only [ih _ hrest, List.flatMap_cons, List.append_assoc]

theorem parseResponses_truncated (client : BBEndianness) (reply : Reply) (heap : Nat → UInt8)
    (responses : List NYSDService) (hlength : reply.message.length ≤ maxDatagram)
    (hlong : receiveSize < reply.message.length) :
    parseResponses client [receiveBytes reply.message heap] responses = (false, responses) := by
  have hmessage := respond_eq reply.server reply.sender reply.filter
  rw [Reply.message, hmessage] at hlength hlong ⊢
  have hfield := Wire.length_message .response
    (UInt8.ofNat ((selected reply.server reply.filter).filterMap
      (filledIn reply.server reply.sender)).length ::
      (selected reply.server reply.filter).flatMap (servicePiece reply.server reply.sender))
  rw [maxDatagram] at hlength
  rw [parseResponses_singleton]
  exact parseBuffer_truncated client heap responses (by omega) hlong

/-- Whole datagrams of replies are parsed without an error into exactly the
registered records, in order; of a reply that was cut off nothing is taken, and
the parser reports the failure. -/
theorem response_round_trip (client : BBEndianness) (responses : List NYSDService) :
    (∀ deliveries : List Delivery, (∀ d ∈ deliveries, d.Complete) →
      parseResponses client (deliveries.map Delivery.received) responses =
        (true, responses ++ deliveries.flatMap fun d => d.replies.flatMap Reply.selected)) ∧
    ∀ (reply : Reply) (heap : Nat → UInt8), reply.Sendable →
      receiveSize < reply.message.length →
      parseResponses client [receiveBytes reply.message heap] responses =
        (false, responses) :=
  ⟨fun deliveries => parseResponses_deliveries client deliveries responses,
    fun reply heap hsendable =>
      parseResponses_truncated client reply heap responses hsendable.length_le⟩

/-- A record that brings its address. -/
def printer : NYSDService where
  ipv4 := 0x0501A8C0
  ipv6 := ascii [':', ':', '1']
  port := 631
  hostname := ascii ['o', 'f', 'f', 'i', 'c', 'e']
  service := ascii ['i', 'p', 'p']
  protocol := .tcp

theorem fits_printer : Wire.Fits printer := ⟨by decide, by decide, by decide⟩

/-- A record whose section alone is larger than a receive buffer. -/
def verbosePrinter : NYSDService := { printer with hostname := List.replicate 2100 0 }

/-- A server on which lookups of local addresses fail. -/
def serverOf (host : BBEndianness) (services : List NYSDService) : Server where
  host := host
  services := services
  interfaces := []
  uninitialised := 0

def laptop : SocketAddress := .ipv4 192 168 1 9 4004

theorem response_round_trip_printer :
    parseResponses .be
        ([⟨[⟨serverOf .le [printer, printer], laptop, []⟩, ⟨serverOf .be [printer], laptop,
          printer.service⟩], fun _ => 0⟩].map Delivery.received) [] =
      (true, [printer, printer, printer]) ∧
    parseResponses .be
        [receiveBytes (Reply.message ⟨serverOf .le [verbosePrinter], laptop, []⟩) fun _ => 0]
        [printer] =
      (false, [printer]) := by
  have hipv4 : ∀ sv ∈ [verbosePrinter], sv.ipv4 ≠ 0 :=
    List.forall_mem_singleton.mpr (by decide)
  have hipv6 : ∀ sv ∈ [verbosePrinter], sv.ipv6.length ≤ 255 :=
    List.forall_mem_singleton.mpr (by decide)
  have hlength : (respond (serverOf .le [verbosePrinter]) laptop []).length = 2129 := by
    have hselected : selected (serverOf .le [verbosePrinter]) [] = [verbosePrinter] := rfl
    rw [respond_of_ipv4_ne_zero laptop (by rwa [hselected]), Wire.length_response, hselected]
    have hsection : (Wire.serviceSection verbosePrinter).length = 13 + 3 + 2100 + 3 := by
      have hhostname : verbosePrinter.hostname.length = 2100 := List.length_replicate
      rw [Wire.length_serviceSection, hhostname]
      rfl
    rw [List.flatMap_cons, List.flatMap_nil, List.append_nil, hsection]
  refine ⟨(response_round_trip .be []).1 _ ?_, (response_round_trip .be [printer]).2 _ _ ?_ ?_⟩
  · intro d hmem
    obtain rfl := List.mem_singleton.mp hmem
    refine ⟨by decide, ?_, by decide⟩
    intro reply hreply
    obtain rfl | rfl : reply = _ ∨ reply = _ := by simpa using hreply
    · exact ⟨by decide, by decide, by decide⟩
    · exact ⟨by decide, by decide, by decide⟩
  · exact ⟨hipv4, hipv6, by rw [Reply.message, hlength, maxDatagram]; omega⟩
  · rw [Reply.message, hlength, receiveSize]
    omega

end NyanSD
