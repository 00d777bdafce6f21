import NyanSD.ResponseRoundTrip

/-!
# Records without an address

When no local address can be found, a record that needs one is to be left out as
if it had never been registered. The handler leaves it out of the count, but the
signature it has already written stays in the body, so the response is the
intended one only if no such record was selected.
-/

namespace NyanSD

/-- The same server with only the records that bring their address. -/
def Server.withoutMissing (server : Server) : Server :=
  { server with services := server.services.filter fun sv => sv.ipv4 ≠ 0 }

section

variable {server : Server} {sender : SocketAddress}

theorem selected_withoutMissing (filter : Bytes) :
    selected server.withoutMissing filter =
      (selected server filter).filter fun sv => sv.ipv4 ≠ 0 := by
  unfold selected Server.withoutMissing
  split
  · simp only [List.filter_filter, Bool.and_comm]
  · rfl

theorem ipv4_ne_zero_of_mem_selected_withoutMissing {filter : Bytes} {sv : NYSDService}
    (hmem : sv ∈ selected server.withoutMissing filter) : sv.ipv4 ≠ 0 := by
  rw [selected_withoutMissing, List.mem_filter] at hmem
  simpa using hmem.2

theorem respond_withoutMissing (filter : Bytes) :
    respond server.withoutMissing sender filter =
      Wire.response (selected server.withoutMissing filter) :=
  respond_of_ipv4_ne_zero sender fun _ hmem => ipv4_ne_zero_of_mem_selected_withoutMissing hmem

/-- Every record that is left out leaves one byte behind. -/
theorem length_flatMap_servicePiece (hlookup : ¬ LookupSucceeds server sender)
    (services : List NYSDService) :
    (services.flatMap (servicePiece server sender)).length =
      ((services.filter fun sv => sv.ipv4 ≠ 0).flatMap Wire.serviceSection).length +
        services.countP fun sv => sv.ipv4 = 0 := by
  induction services with
  | nil => rfl
  | cons sv rest ih =>
      rw [List.flatMap_cons, List.length_append, ih]
      by_cases hzero : sv.ipv4 = 0
      · have hnone : filledIn server sender sv = none := by
          rw [← Option.not_isSome_iff_eq_none, isSome_filledIn_iff]
          simpa [hzero] using hlookup
        simp only [servicePiece, hnone, hzero, List.filter_cons, List.countP_cons,
          List.length_singleton, ne_eq, not_true_eq_false, decide_false, decide_true,
          Bool.false_eq_true, if_true, if_false]
        omega
      · simp only [servicePiece, filledIn_of_ipv4_ne_zero server sender hzero, hzero,
          List.filter_cons, List.countP_cons, List.flatMap_cons, List.length_append, ne_eq,
          not_false_eq_true, decide_false, decide_true, Bool.false_eq_true, if_true, if_false]
        omega

theorem length_respond (hlookup : ¬ LookupSucceeds server sender) (filter : Bytes) :
    (respond server sender filter).length =
      (respond server.withoutMissing sender filter).length +
        (selected server filter).countP fun sv => sv.ipv4 = 0 := by
  rw [respond_withoutMissing, Wire.length_response, respond_eq, Wire.length_message,
    List.length_cons, length_flatMap_servicePiece hlookup, selected_withoutMissing]
  omega

/-- What leaving a record out cleanly means: the response is the one for the
remaining records, a well-formed sequence of their sections, and a client that
receives it whole decodes exactly these. -/
structure OmittedCleanly (server : Server) (sender : SocketAddress) (filter : Bytes) :
    Prop where
  respond_eq : respond server sender filter = respond server.withoutMissing sender filter
  sections : respond server sender filter =
    Wire.response (selected server.withoutMissing filter)
  decoded : ∀ (client : BBEndianness) (heap : Nat → UInt8) (responses : List NYSDService),
    (respond server sender filter).length ≤ receiveSize →
    parseResponses client [receiveBytes (respond server sender filter) heap] responses =
      (true, responses ++ selected server.withoutMissing filter)

/-- When no address can be found, records are left out cleanly exactly if there
are none to leave out. -/
theorem omittedCleanly_iff {filter : Bytes} (hlookup : ¬ LookupSucceeds server sender)
    (hfits : ∀ sv ∈ selected server filter, Wire.Fits sv)
    (hcount : (selected server filter).length ≤ 255) :
    OmittedCleanly server sender filter ↔ ∀ sv ∈ selected server filter, sv.ipv4 ≠ 0 := by
  constructor
  · intro hclean sv hmem hzero
    -- the stray signatures make the response longer than the clean one
    have hlength := length_respond hlookup filter
    rw [hclean.respond_eq, Nat.left_eq_add, List.countP_eq_zero] at hlength
    exact hlength sv hmem (by simpa using hzero)
  · intro hipv4
    have hkept : selected server.withoutMissing filter = selected server filter := by
      rw [selected_withoutMissing, List.filter_eq_self]
      exact fun sv hmem => by simpa using hipv4 sv hmem
    have hresponse := respond_of_ipv4_ne_zero sender hipv4
    refine ⟨by rw [respond_withoutMissing, hkept, hresponse], by rw [hresponse, hkept], ?_⟩
    intro client heap responses hsize
    rw [hresponse] at hsize ⊢
    have htotal := Wire.length_response (selected server filter)
    have hcarries : Wire.Carries (Wire.response (selected server filter))
        (selected server filter) :=
      Wire.ResponseMessage.carries ⟨selected server filter, hfits, Nat.lt_succ_of_le hcount,
        by rw [receiveSize] at hsize; omega⟩
    rw [parseResponses_singleton, hkept]
    exact parseBuffer_carries client heap responses hcarries hsize

end

/-- A record whose address has to be looked up. -/
def addressless : NYSDService := { printer with ipv4 := 0 }

/-- Without interfaces no address can be found. -/
theorem not_lookupSucceeds_serverOf (host : BBEndianness) (services : List NYSDService)
    (sender : SocketAddress) : ¬ LookupSucceeds (serverOf host services) sender := by
  rintro ⟨ipv4, ipv6, hfound, -⟩
  cases hfound

theorem omittedCleanly_printer : OmittedCleanly (serverOf .le [printer]) laptop [] := by
  have hlookup := not_lookupSucceeds_serverOf .le [printer] laptop
  have hfits : ∀ sv ∈ selected (serverOf .le [printer]) [], Wire.Fits sv :=
    List.forall_mem_singleton.mpr fits_printer
  exact (omittedCleanly_iff hlookup hfits (by decide)).mpr (by decide)

/-- The signature left behind by the first record stands before the section of
the second one. -/
theorem stray_signature :
    ¬ LookupSucceeds (serverOf .le [addressless, printer]) laptop ∧
    respond (serverOf .le [addressless, printer]) laptop [] ≠
      respond (serverOf .le [addressless, printer]).withoutMissing laptop [] :=
  ⟨not_lookupSucceeds_serverOf .le [addressless, printer] laptop, by decide⟩

end NyanSD
