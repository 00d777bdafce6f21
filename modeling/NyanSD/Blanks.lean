import NyanSD.LengthFields
import NyanSD.Omission
import NyanSD.Selection

/-!
# What filling in leaves of a record

A blank hostname is filled in when the record is registered, a blank IPv4 address when
it is answered with. The handler takes the two addresses for one unit and looks at the
IPv4 address alone, so filling that in replaces a supplied IPv6 string as well.
-/

namespace NyanSD

/-- The fields the registrant supplied are those of the record in the response. -/
structure SuppliedKept (supplied filled : NYSDService) : Prop where
  ipv4 : supplied.ipv4 ≠ 0 → filled.ipv4 = supplied.ipv4
  ipv6 : supplied.ipv6 ≠ [] → supplied.ipv6.length ≤ 39 → filled.ipv6 = supplied.ipv6
  hostname : supplied.hostname ≠ [] → filled.hostname = supplied.hostname
  port : filled.port = supplied.port
  service : filled.service = supplied.service
  protocol : filled.protocol = supplied.protocol

/-- The pass over the record at position `i` appended a section with every supplied
field, and this section stands in the message behind the header and what earlier passes
appended. -/
def AppearsAsSupplied (msg : Bytes) (server : Server) (sender : SocketAddress)
    (filter : Bytes) (i : Nat) (supplied : NYSDService) : Prop :=
  ∃ (filled : NYSDService) (header after : Bytes),
    SuppliedKept supplied filled ∧
    bodyBefore server sender filter (i + 1) =
      bodyBefore server sender filter i ++ Wire.serviceSection filled ∧
    header.length = 10 ∧
    msg = header ++ (bodyBefore server sender filter i ++ Wire.serviceSection filled) ++ after

/-- The IPv6 string is there and of legal length, but the IPv4 address next to it is
blank. -/
def SuppliesIPv6Only (supplied : NYSDService) : Prop :=
  supplied.ipv4 = 0 ∧ supplied.ipv6 ≠ [] ∧ supplied.ipv6.length ≤ 39

section

variable {server : Server} {a b c d : UInt8} {port : UInt16}

/-- Registering and answering keep what was supplied, the IPv6 string only with an IPv4
address. -/
theorem suppliedKept_filledIn {call : Registration} {filled : NYSDService}
    (hboth : ¬ SuppliesIPv6Only call.service)
    (hfilled : filledIn server (.ipv4 a b c d port) call.record = some filled) :
    SuppliedKept call.service filled := by
  obtain ⟨hport, hhostname, hservice, hprotocol⟩ := filledIn_fields hfilled
  rw [Registration.record_eq] at hport hhostname hservice hprotocol
  have haddress : call.service.ipv4 ≠ 0 →
      filled.ipv4 = call.service.ipv4 ∧ filled.ipv6 = call.service.ipv6 := by
    intro hipv4
    rw [filledIn_of_ipv4_ne_zero, Registration.record_eq] at hfilled
    · cases hfilled
      exact ⟨rfl, rfl⟩
    · rw [Registration.record_eq]
      exact hipv4
  refine ⟨fun hipv4 => (haddress hipv4).1, ?_, ?_, hport, hservice, hprotocol⟩
  · intro hipv6 hlength
    by_cases hzero : call.service.ipv4 = 0
    · exact absurd ⟨hzero, hipv6, hlength⟩ hboth
    · exact (haddress hzero).2
  · intro hsupplied
    rw [hhostname]
    exact if_neg hsupplied

/-- A section without an IPv6 string is not one of a record with a short one. -/
theorem ipv6_eq_nil_of_section_eq {filled other : NYSDService} (hempty : filled.ipv6 = [])
    (hshort : other.ipv6.length ≤ 39)
    (heq : Wire.serviceSection other = Wire.serviceSection filled) : other.ipv6 = [] := by
  have hlength := Wire.getElem?_serviceSection_ipv6 other
  rw [heq, Wire.getElem?_serviceSection_ipv6, hempty, Option.some.injEq] at hlength
  have hnarrow : (UInt8.ofNat other.ipv6.length).toNat = other.ipv6.length :=
    UInt8.toNat_ofNat_of_lt' (Nat.lt_of_le_of_lt hshort (by decide))
  rw [← hlength] at hnarrow
  exact List.length_eq_zero_iff.mp hnarrow.symm

/-- Every supplied field of a selected record is in the response, unless the record
came with an IPv6 string and no IPv4 address. -/
theorem appearsAsSupplied_respond {filter : Bytes} {i : Nat} (call : Registration)
    (hsv : server.services[i]? = some call.record)
    (hlookup : LookupSucceeds server (.ipv4 a b c d port))
    (hpasses : PassesName filter call.record) :
    AppearsAsSupplied (respond server (.ipv4 a b c d port) filter) server
        (.ipv4 a b c d port) filter i call.service ↔
      ¬ SuppliesIPv6Only call.service := by
  have hfound : (filledIn server (.ipv4 a b c d port) call.record).isSome :=
    (isSome_filledIn_iff server _ call.record).mpr (.inr hlookup)
  obtain ⟨filled, hfilled⟩ := Option.isSome_iff_exists.mp hfound
  constructor
  · rintro ⟨other, header, rest, hkept, hgrown, -, -⟩ ⟨hzero, hipv6, hlength⟩
    have hsection : Wire.serviceSection other = Wire.serviceSection filled := by
      rw [(bodyBefore_succ server _ filter hsv).1 hpasses, servicePiece, hfilled] at hgrown
      exact (List.append_cancel_left hgrown).symm
    have hrecord : call.record.ipv4 = 0 := by
      rw [Registration.record_eq]
      exact hzero
    have hother := hkept.ipv6 hipv6 hlength
    rw [← hother] at hipv6 hlength
    exact hipv6 (ipv6_eq_nil_of_section_eq (filledIn_ipv6 hrecord hfilled) hlength hsection)
  · intro hboth
    obtain ⟨header, rest, hsection⟩ := section_in_response server _ filter hsv hpasses hfilled
    exact ⟨filled, header, rest, suppliedKept_filledIn hboth hfilled, hsection⟩

/-- Whatever else was registered, an answer that selects an accepted record carries it
as it was supplied exactly when that was not an IPv6 string without an IPv4 address. -/
theorem appearsAsSupplied_iff {datagram : Bytes} {buffer : Nat → UInt8} {index : Nat}
    {answers : List Answer} {answer : Answer} (before after : List Registration)
    {call : Registration} (hregistry : server.services = registry (before ++ call :: after))
    (haccepted : call.Accepted) (hlookup : LookupSucceeds server (.ipv4 a b c d port))
    (hhandled : clientHandler server (.ipv4 a b c d port) datagram buffer =
      .sections index answers)
    (hanswer : answer ∈ answers) (hpasses : PassesName answer.filter call.record) :
    AppearsAsSupplied answer.msg server (.ipv4 a b c d port) answer.filter
        (registry before).length call.service ↔
      ¬ SuppliesIPv6Only call.service := by
  have hsv : server.services[(registry before).length]? = some call.record := by
    rw [hregistry]
    exact getElem?_registry before after haccepted
  rw [clientHandler_answers server _ hhandled answer hanswer]
  exact appearsAsSupplied_respond call hsv hlookup hpasses

end

/-- A host on the network of the sender, with these services. -/
def officeServer (services : List NYSDService) : Server :=
  { serverOf .le services with interfaces := [⟨[.ipv4 192 168 1 5]⟩] }

theorem lookupSucceeds_officeServer (services : List NYSDService) :
    LookupSucceeds (officeServer services) laptop := by
  refine ⟨printer.ipv4, [], ?_, Nat.zero_le 39⟩
  have hfound : remoteToLocalIP .le [⟨[.ipv4 192 168 1 5]⟩] laptop 0 [] =
      some (printer.ipv4, []) := by
    decide
  exact hfound

theorem appearsAsSupplied_printer :
    AppearsAsSupplied (respond (officeServer (registry [registration])) laptop [])
      (officeServer (registry [registration])) laptop [] 0 printer := by
  have hhandled := clientHandler_everything (officeServer (registry [registration])) laptop
    fun _ => 0
  have hboth : ¬ SuppliesIPv6Only registration.service := fun honly => absurd honly.1 (by decide)
  exact (appearsAsSupplied_iff [] [] rfl (by decide) (lookupSucceeds_officeServer _) hhandled
    List.mem_cons_self (.inl rfl)).mpr hboth

/-- The IPv6 string a host registered without an IPv4 address is gone. -/
theorem ipv6_dropped :
    registry [⟨addressless, []⟩] = [addressless] ∧ addressless.ipv6 = ascii [':', ':', '1'] ∧
      clientHandler (officeServer [addressless]) laptop (Wire.broadcast [⟨.all, []⟩])
          (fun _ => 0) = .sections 13 [⟨0, [], respond (officeServer [addressless]) laptop []⟩] ∧
      parseResponses .le
          [receiveBytes (respond (officeServer [addressless]) laptop []) fun _ => 0] [] =
        (true, [{ printer with ipv6 := [] }]) ∧
      ¬ AppearsAsSupplied (respond (officeServer [addressless]) laptop [])
        (officeServer [addressless]) laptop [] 0 addressless := by
  have honly : SuppliesIPv6Only addressless := ⟨rfl, by decide, by decide⟩
  refine ⟨by decide, rfl, clientHandler_everything _ laptop _, by decide, ?_⟩
  intro happears
  exact (appearsAsSupplied_respond ⟨addressless, []⟩ rfl
    (lookupSucceeds_officeServer [addressless]) (.inl rfl)).mp happears honly

end NyanSD
