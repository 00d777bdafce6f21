import NyanSD.ResponseRoundTrip

/-!
# Addresses between hosts of different byte order

Registering an address stores its octets in the order of the server's memory,
and printing it reads them in the order of the client's, while the wire carries
the integer. Two hosts that disagree therefore see the octets reversed.
-/

namespace NyanSD

open ByteBauble

theorem dottedQuad_inj {a b c d a' b' c' d' : UInt8} :
    dottedQuad a b c d = dottedQuad a' b' c' d' ↔ a = a' ∧ b = b' ∧ c = c' ∧ d = d' := by
  constructor
  · intro heq
    -- equal texts are parsed to equal octets
    have hparsed := congrArg (fun text => parseOctets text 4 0 []) heq
    simpa [parseOctets_dottedQuad] using hparsed
  · rintro ⟨rfl, rfl, rfl, rfl⟩
    rfl

/-- The text a client prints for an address that a server has parsed. -/
theorem ipv4UintToString_ofObjectBytes (server client : BBEndianness) (a b c d : UInt8) :
    ipv4UintToString client (ofObjectBytes server [a, b, c, d]) =
      if server = client then dottedQuad a b c d else dottedQuad d c b a := by
  have hoctets : objectBytes client (ofObjectBytes server [a, b, c, d] : UInt32) =
      if server = client then [a, b, c, d] else [a, b, c, d].reverse :=
    objectBytes_ofObjectBytes server client rfl
  split at hoctets <;> rename_i hhost
  · rw [if_pos hhost, ipv4UintToString_of_octets hoctets]
  · rw [if_neg hhost, ipv4UintToString_of_octets hoctets]

theorem ipv4UintToString_ofObjectBytes_eq_iff (server client : BBEndianness)
    (a b c d : UInt8) :
    ipv4UintToString client (ofObjectBytes server [a, b, c, d]) = dottedQuad a b c d ↔
      server = client ∨ (a = d ∧ b = c) := by
  rw [ipv4UintToString_ofObjectBytes]
  by_cases hhost : server = client
  · simp [hhost]
  · rw [if_neg hhost, dottedQuad_inj]
    constructor
    · rintro ⟨hda, hcb, -, -⟩
      exact .inr ⟨hda.symm, hcb.symm⟩
    · rintro (hsame | ⟨had, hbc⟩)
      · exact absurd hsame hhost
      · exact ⟨had.symm, hbc.symm, hbc, had⟩

/-- Only 0.0.0.0 is stored as the value that asks for a lookup. -/
theorem ofObjectBytes_ne_zero (host : BBEndianness) {a b c d : UInt8}
    (hnonzero : dottedQuad a b c d ≠ dottedQuad 0 0 0 0) :
    (ofObjectBytes host [a, b, c, d] : UInt32) ≠ 0 := by
  intro hzero
  have hoctets : objectBytes host (ofObjectBytes host [a, b, c, d] : UInt32) = [a, b, c, d] := by
    rw [objectBytes_ofObjectBytes host host rfl, if_pos rfl]
  have hzeros : objectBytes host (0 : UInt32) = [0, 0, 0, 0] := by cases host <;> decide
  rw [hzero, hzeros] at hoctets
  simp only [List.cons.injEq] at hoctets
  obtain ⟨rfl, rfl, rfl, rfl, -⟩ := hoctets
  exact hnonzero rfl

/-- The client prints the text that was registered exactly when both hosts have
the same byte order or the octets read the same in both directions. -/
theorem address_round_trip_iff (client : BBEndianness) (reply : Reply) (heap : Nat → UInt8)
    (responses : List NYSDService) {i : Nat} {sv : NYSDService} {a b c d : UInt8}
    (hanswerable : reply.Answerable) (hsize : reply.message.length ≤ receiveSize)
    (hselected : reply.selected[i]? = some sv)
    (hregistered : ipv4StringToUint reply.server.host (dottedQuad a b c d) = .ok sv.ipv4)
    (hnonzero : dottedQuad a b c d ≠ dottedQuad 0 0 0 0) :
    (∃ out decoded,
      parseResponses client [receiveBytes reply.message heap] responses = (true, out) ∧
      out[responses.length + i]? = some decoded ∧
      ipv4UintToString client decoded.ipv4 = dottedQuad a b c d) ↔
    reply.server.host = client ∨ (a = d ∧ b = c) := by
  have hparsed : parseResponses client [receiveBytes reply.message heap] responses =
      (true, responses ++ reply.records) := by
    rw [parseResponses_singleton]
    exact parseBuffer_carries client heap responses (hanswerable.carries hsize) hsize
  have hipv4 : sv.ipv4 = ofObjectBytes reply.server.host [a, b, c, d] := by
    rw [ipv4StringToUint_dottedQuad] at hregistered
    exact (Except.ok.inj hregistered).symm
  have hkept : filledIn reply.server reply.sender sv = some sv :=
    filledIn_of_ipv4_ne_zero _ _ (hipv4 ▸ ofObjectBytes_ne_zero _ hnonzero)
  have hdecoded : (responses ++ reply.records)[responses.length + i]? = some sv := by
    rw [List.getElem?_append_right (Nat.le_add_right _ _), Nat.add_sub_cancel_left,
      Reply.records, getElem?_filterMap_filledIn i hanswerable.filled, hselected]
    exact hkept
  rw [← ipv4UintToString_ofObjectBytes_eq_iff, ← hipv4]
  constructor
  · rintro ⟨out, decoded, hout, hat, hprinted⟩
    obtain rfl : responses ++ reply.records = out :=
      congrArg Prod.snd (hparsed.symm.trans hout)
    obtain rfl : sv = decoded := Option.some.inj (hdecoded.symm.trans hat)
    exact hprinted
  · exact fun hprinted => ⟨_, sv, hparsed, hdecoded, hprinted⟩

theorem address_round_trip_same_order :
    ∃ out decoded,
      parseResponses .le
        [receiveBytes (Reply.message ⟨serverOf .le [printer], laptop, []⟩) fun _ => 0] [] =
          (true, out) ∧
      out[0]? = some decoded ∧
      ipv4UintToString .le decoded.ipv4 = dottedQuad 192 168 1 5 := by
  have hselected : (Reply.selected ⟨serverOf .le [printer], laptop, []⟩)[0]? = some printer :=
    rfl
  have hregistered : ipv4StringToUint .le (dottedQuad 192 168 1 5) = .ok printer.ipv4 := by
    decide
  exact (address_round_trip_iff .le ⟨serverOf .le [printer], laptop, []⟩ (fun _ => 0) []
    ⟨by decide, by decide⟩ (by decide) hselected hregistered (by decide)).mpr (.inl rfl)

/-- From a little-endian server to a big-endian client, 192.168.1.5 becomes
5.1.168.192. -/
theorem address_reversed :
    ipv4StringToUint .le (dottedQuad 192 168 1 5) = .ok printer.ipv4 ∧
    dottedQuad 192 168 1 5 ≠ dottedQuad 0 0 0 0 ∧
    parseResponses .be
        [receiveBytes (Reply.message ⟨serverOf .le [printer], laptop, []⟩) fun _ => 0] [] =
      (true, [printer]) ∧
    ipv4UintToString .be printer.ipv4 = dottedQuad 5 1 168 192 ∧
    ipv4UintToString .be printer.ipv4 ≠ dottedQuad 192 168 1 5 := by
  decide

end NyanSD
