import NyanSD.QueryRoundTrip

/-!
# Which records a query is answered with

A query names a protocol and the beginning of a service name. The handler
compares the whole name instead of its beginning, and reads the protocol without
ever looking at it.
-/

namespace NyanSD

/-! ## The name -/

theorem filterMatches_iff (filter : Bytes) (sv : NYSDService) :
    filterMatches filter sv = true ↔ sv.service = filter := by
  rw [filterMatches, StdString.comparesEqual, List.drop_zero, List.take_length, beq_iff_eq]
  exact eq_comm

/-- The records whose name begins with the filter. -/
def namedWithPrefix (server : Server) (filter : Bytes) : List NYSDService :=
  server.services.filter fun sv => filter.isPrefixOf sv.service

/-- Comparing whole names selects fewer records than comparing beginnings. -/
theorem selected_sublist_namedWithPrefix (server : Server) {filter : Bytes}
    (hne : filter ≠ []) : (selected server filter).Sublist (namedWithPrefix server filter) := by
  have hlength : filter.length ≠ 0 := by simpa using hne
  rw [selected, if_pos hlength, namedWithPrefix]
  apply List.monotone_filter_right
  intro sv hmatch
  rw [filterMatches_iff] at hmatch
  simp [hmatch]

theorem selected_eq_namedWithPrefix_iff {server : Server} {filter : Bytes} (hne : filter ≠ []) :
    selected server filter = namedWithPrefix server filter ↔
      ∀ sv ∈ server.services, filter <+: sv.service → sv.service = filter := by
  have hlength : filter.length ≠ 0 := by simpa using hne
  rw [selected, if_pos hlength, namedWithPrefix]
  constructor
  · intro heq sv hmem hprefix
    have hnamed : sv ∈ server.services.filter fun sv => filter.isPrefixOf sv.service :=
      List.mem_filter.mpr ⟨hmem, List.isPrefixOf_iff_prefix.mpr hprefix⟩
    rw [← heq, List.mem_filter, filterMatches_iff] at hnamed
    exact hnamed.2
  · intro hexact
    apply List.filter_congr
    intro sv hmem
    rw [Bool.eq_iff_iff, filterMatches_iff, List.isPrefixOf_iff_prefix]
    exact ⟨fun heq => heq ▸ List.prefix_rfl, hexact sv hmem⟩

theorem response_inj_length {first second : List NYSDService} (hfirst : first.length ≤ 255)
    (hsecond : second.length ≤ 255) (heq : Wire.response first = Wire.response second) :
    first.length = second.length := by
  have hfirstCount : (UInt8.ofNat first.length).toNat = first.length :=
    UInt8.toNat_ofNat_of_lt' (Nat.lt_succ_of_le hfirst)
  have hsecondCount : (UInt8.ofNat second.length).toNat = second.length :=
    UInt8.toNat_ofNat_of_lt' (Nat.lt_succ_of_le hsecond)
  have hcount := Wire.getElem?_response_count first
  rw [heq, Wire.getElem?_response_count, Option.some.injEq] at hcount
  rw [← hfirstCount, ← hcount, hsecondCount]

/-- A query for all protocols is answered with the records whose name begins with
its filter exactly when no registered name properly extends the filter. -/
theorem name_filter_iff {server : Server} {sender : SocketAddress} {datagram : Bytes}
    {buffer : Nat → UInt8} {index : Nat} {answers : List Answer} {a : Answer}
    (hipv4 : ∀ sv ∈ server.services, sv.ipv4 ≠ 0)
    (hcount : server.services.length ≤ 255)
    (hhandled : clientHandler server sender datagram buffer = .sections index answers)
    (hanswer : a ∈ answers) (hfilter : a.filter ≠ []) :
    a.msg = Wire.response (namedWithPrefix server a.filter) ↔
      ∀ sv ∈ server.services, a.filter <+: sv.service → sv.service = a.filter := by
  have hsublist := selected_sublist_namedWithPrefix server hfilter
  have hnamed : (namedWithPrefix server a.filter).Sublist server.services :=
    List.filter_sublist
  have hresponse : a.msg = Wire.response (selected server a.filter) := by
    rw [clientHandler_answers server sender hhandled a hanswer]
    exact respond_of_ipv4_ne_zero sender fun sv hmem =>
      hipv4 sv ((hsublist.trans hnamed).subset hmem)
  rw [hresponse, ← selected_eq_namedWithPrefix_iff hfilter]
  constructor
  · intro heq
    -- equal messages have equal counts, and a sublist of equal length is the list
    have hfirst := (hsublist.trans hnamed).length_le
    have hsecond := hnamed.length_le
    exact hsublist.eq_of_length (response_inj_length (by omega) (by omega) heq)
  · exact congrArg Wire.response

theorem name_filter_printer :
    respond (serverOf .le [printer]) laptop printer.service =
      Wire.response (namedWithPrefix (serverOf .le [printer]) printer.service) := by
  have hhandled : clientHandler (serverOf .le [printer]) laptop
      (Wire.broadcast [⟨.all, printer.service⟩]) (fun _ => 0) = .sections 16
        [⟨NYSDProtocol.all.toByte, printer.service,
          respond (serverOf .le [printer]) laptop printer.service⟩] := by
    decide
  have hipv4 : ∀ sv ∈ (serverOf .le [printer]).services, sv.ipv4 ≠ 0 := by decide
  exact (name_filter_iff hipv4 (by decide) hhandled List.mem_cons_self (by decide)).mpr
    (by decide)

/-- The filter "ip" does not find the service "ipp". -/
theorem prefix_not_found :
    clientHandler (serverOf .le [printer]) laptop
        (Wire.broadcast [⟨.all, ascii ['i', 'p']⟩]) (fun _ => 0) = .sections 15
        [⟨NYSDProtocol.all.toByte, ascii ['i', 'p'],
          respond (serverOf .le [printer]) laptop (ascii ['i', 'p'])⟩] ∧
    ascii ['i', 'p'] <+: printer.service ∧
    respond (serverOf .le [printer]) laptop (ascii ['i', 'p']) = Wire.response [] ∧
    respond (serverOf .le [printer]) laptop (ascii ['i', 'p']) ≠
      Wire.response (namedWithPrefix (serverOf .le [printer]) (ascii ['i', 'p'])) := by
  decide

/-! ## The protocol -/

/-- The protocol whose services a query does not ask for. -/
def NYSDProtocol.excluded : NYSDProtocol → Option NYSDProtocol
  | .all => none
  | .tcp => some .udp
  | .udp => some .tcp

/-- The name test of the branch that the filter's length decides on. -/
def PassesName (filter : Bytes) (sv : NYSDService) : Prop :=
  filter = [] ∨ filterMatches filter sv = true

/-- The services body when the loop reaches position `i` of the registry. -/
def bodyBefore (server : Server) (sender : SocketAddress) (filter : Bytes) (i : Nat) : Bytes :=
  (servicesBody { server with services := server.services.take i } sender filter).bytes

/-- The response contains the section of the record at position `i`: the pass over
that record appended a section with its fields, and the section stands in the
message behind the ten bytes of the header and what earlier passes appended. -/
def AppearsIn (msg : Bytes) (server : Server) (sender : SocketAddress) (filter : Bytes)
    (i : Nat) (sv : NYSDService) : Prop :=
  ∃ (filled : NYSDService) (header after : Bytes),
    (filled.port = sv.port ∧ filled.hostname = sv.hostname ∧ filled.service = sv.service ∧
      filled.protocol = sv.protocol) ∧
    bodyBefore server sender filter (i + 1) =
      bodyBefore server sender filter i ++ Wire.serviceSection filled ∧
    header.length = 10 ∧
    msg = header ++ (bodyBefore server sender filter i ++ Wire.serviceSection filled) ++ after

section

variable (server : Server) (sender : SocketAddress) (filter : Bytes)

theorem bodyBefore_eq (i : Nat) :
    bodyBefore server sender filter i =
      (selected { server with services := server.services.take i } filter).flatMap
        (servicePiece server sender) := by
  rw [bodyBefore, servicesBody_eq, wildcardBody_eq]
  rfl

/-- A pass appends the piece of its record if the record passes the name test,
and nothing otherwise. -/
theorem bodyBefore_succ {i : Nat} {sv : NYSDService} (hsv : server.services[i]? = some sv) :
    (PassesName filter sv → bodyBefore server sender filter (i + 1) =
      bodyBefore server sender filter i ++ servicePiece server sender sv) ∧
    (¬ PassesName filter sv → bodyBefore server sender filter (i + 1) =
      bodyBefore server sender filter i) := by
  have htake : server.services.take (i + 1) = server.services.take i ++ [sv] := by
    rw [List.take_add_one, hsv]
    rfl
  rw [bodyBefore_eq, bodyBefore_eq, htake]
  by_cases hempty : filter = []
  · refine ⟨?_, fun hfails => absurd (.inl hempty) hfails⟩
    intro _
    simp [selected, hempty]
  · have hlength : filter.length ≠ 0 := by simpa using hempty
    cases hmatch : filterMatches filter sv with
    | false =>
        constructor
        · intro hpasses
          rcases hpasses with hnil | hpasses
          · exact absurd hnil hempty
          · exact absurd hpasses (by simp [hmatch])
        · intro _
          simp [selected, hempty, List.filter_append, hmatch]
    | true =>
        refine ⟨?_, fun hfails => absurd (.inr hmatch) hfails⟩
        intro _
        simp [selected, hempty, List.filter_append, hmatch]

theorem bodyBefore_prefix (i : Nat) :
    bodyBefore server sender filter i <+: (servicesBody server sender filter).bytes := by
  rw [bodyBefore_eq, servicesBody_eq, wildcardBody_eq]
  refine ⟨(selected { server with services := server.services.drop i } filter).flatMap
    (servicePiece server sender), ?_⟩
  rw [← List.flatMap_append]
  unfold selected
  split
  · rw [← List.filter_append, List.take_append_drop]
    rfl
  · rw [List.take_append_drop]
    rfl

theorem respond_eq_header_append :
    ∃ header : Bytes, header.length = 10 ∧
      respond server sender filter = header ++ (servicesBody server sender filter).bytes := by
  refine ⟨_, ?_, rfl⟩
  simp

/-- Where the section of a record that passes the name test stands in the response. -/
theorem section_in_response {i : Nat} {sv filled : NYSDService}
    (hsv : server.services[i]? = some sv)
    (hpasses : PassesName filter sv) (hfilled : filledIn server sender sv = some filled) :
    ∃ header after : Bytes,
      bodyBefore server sender filter (i + 1) =
        bodyBefore server sender filter i ++ Wire.serviceSection filled ∧
      header.length = 10 ∧
      respond server sender filter =
        header ++ (bodyBefore server sender filter i ++ Wire.serviceSection filled) ++ after := by
  have hgrown : bodyBefore server sender filter (i + 1) =
      bodyBefore server sender filter i ++ Wire.serviceSection filled := by
    rw [(bodyBefore_succ server sender filter hsv).1 hpasses, servicePiece, hfilled]
  obtain ⟨header, hheader, hrespond⟩ := respond_eq_header_append server sender filter
  obtain ⟨after, hafter⟩ := bodyBefore_prefix server sender filter (i + 1)
  refine ⟨header, after, hgrown, hheader, ?_⟩
  rw [hrespond, ← hafter, hgrown, ← List.append_assoc]

/-- A record appears exactly when it passes the name test and an address is
known or can be found. -/
theorem appearsIn_iff {i : Nat} {sv : NYSDService} (hsv : server.services[i]? = some sv) :
    AppearsIn (respond server sender filter) server sender filter i sv ↔
      PassesName filter sv ∧ (sv.ipv4 ≠ 0 ∨ LookupSucceeds server sender) := by
  obtain ⟨hpassing, hfailing⟩ := bodyBefore_succ server sender filter hsv
  rw [← isSome_filledIn_iff]
  constructor
  · rintro ⟨filled, header, after, -, hgrown, -, -⟩
    -- a section is longer than what any other pass appends
    have hsection := Wire.length_serviceSection filled
    have hlength := congrArg List.length hgrown
    rw [List.length_append] at hlength
    by_cases hpasses : PassesName filter sv
    · refine ⟨hpasses, ?_⟩
      rw [hpassing hpasses, List.length_append] at hlength
      cases hfilled : filledIn server sender sv with
      | some found => rfl
      | none =>
          simp only [servicePiece, hfilled, List.length_singleton] at hlength
          omega
    · rw [hfailing hpasses] at hlength
      omega
  · rintro ⟨hpasses, hfilled⟩
    obtain ⟨filled, hfound⟩ := Option.isSome_iff_exists.mp hfilled
    obtain ⟨header, after, hsection⟩ :=
      section_in_response server sender filter hsv hpasses hfound
    exact ⟨filled, header, after, filledIn_fields hfound, hsection⟩

end

/-- What the answer to a TCP or UDP query is meant to consist of: no record of the
other protocol, and every record of this one that passes the name test. -/
def RespectsProtocol (server : Server) (sender : SocketAddress) (a : Answer) : Prop :=
  ∀ p q : NYSDProtocol, a.prot = p.toByte → p.excluded = some q →
    ∀ (i : Nat) (sv : NYSDService), server.services[i]? = some sv →
      (sv.protocol = q → ¬ AppearsIn a.msg server sender a.filter i sv) ∧
      (PassesName a.filter sv → sv.protocol = p → AppearsIn a.msg server sender a.filter i sv)

/-- The handler does not look at the protocol, so an answer respects it exactly
when the name test and the addresses happen to leave the right records. -/
theorem protocol_filter_iff {server : Server} {sender : SocketAddress} {datagram : Bytes}
    {buffer : Nat → UInt8} {index : Nat} {answers : List Answer} {a : Answer}
    (hhandled : clientHandler server sender datagram buffer = .sections index answers)
    (hanswer : a ∈ answers) :
    RespectsProtocol server sender a ↔
      ∀ p q : NYSDProtocol, a.prot = p.toByte → p.excluded = some q →
        ∀ sv ∈ server.services, PassesName a.filter sv →
          (sv.protocol = q → ¬ (sv.ipv4 ≠ 0 ∨ LookupSucceeds server sender)) ∧
          (sv.protocol = p → sv.ipv4 ≠ 0 ∨ LookupSucceeds server sender) := by
  rw [RespectsProtocol, clientHandler_answers server sender hhandled a hanswer]
  constructor
  · intro hrespects p q hp hq sv hmem hpasses
    obtain ⟨i, hsv⟩ := List.mem_iff_getElem?.mp hmem
    obtain ⟨hexcludes, hincludes⟩ := hrespects p q hp hq i sv hsv
    rw [appearsIn_iff server sender a.filter hsv] at hexcludes hincludes
    exact ⟨fun hother haddress => hexcludes hother ⟨hpasses, haddress⟩,
      fun hsame => (hincludes hpasses hsame).2⟩
  · intro hregistry p q hp hq i sv hsv
    have hmem := List.mem_iff_getElem?.mpr ⟨i, hsv⟩
    rw [appearsIn_iff server sender a.filter hsv]
    exact ⟨fun hother happears =>
        (hregistry p q hp hq sv hmem happears.1).1 hother happears.2,
      fun hpasses hsame => ⟨hpasses, (hregistry p q hp hq sv hmem hpasses).2 hsame⟩⟩

theorem protocol_filter_printer :
    RespectsProtocol (serverOf .le [printer]) laptop
      ⟨NYSDProtocol.tcp.toByte, [], respond (serverOf .le [printer]) laptop []⟩ := by
  have hhandled : clientHandler (serverOf .le [printer]) laptop (Wire.broadcast [⟨.tcp, []⟩])
      (fun _ => 0) = .sections 13
        [⟨NYSDProtocol.tcp.toByte, [], respond (serverOf .le [printer]) laptop []⟩] := by
    decide
  rw [protocol_filter_iff hhandled List.mem_cons_self]
  intro p q hp hq sv hmem _
  obtain rfl : p = .tcp := NYSDProtocol.toByte_injective hp.symm
  cases hq
  obtain rfl := List.mem_singleton.mp hmem
  exact ⟨nofun, fun _ => .inl (by decide)⟩

/-- A query for UDP services is answered with a TCP service. -/
theorem udp_query_finds_tcp :
    clientHandler (serverOf .le [printer]) laptop (Wire.broadcast [⟨.udp, []⟩]) (fun _ => 0) =
      .sections 13
        [⟨NYSDProtocol.udp.toByte, [], respond (serverOf .le [printer]) laptop []⟩] ∧
    parseResponses .le
        [receiveBytes (respond (serverOf .le [printer]) laptop []) fun _ => 0] [] =
      (true, [printer]) ∧
    printer.protocol = .tcp ∧
    ¬ RespectsProtocol (serverOf .le [printer]) laptop
      ⟨NYSDProtocol.udp.toByte, [], respond (serverOf .le [printer]) laptop []⟩ := by
  refine ⟨by decide, by decide, rfl, ?_⟩
  intro hrespects
  have happears : AppearsIn (respond (serverOf .le [printer]) laptop [])
      (serverOf .le [printer]) laptop [] 0 printer :=
    (appearsIn_iff (serverOf .le [printer]) laptop [] rfl).mpr ⟨.inl rfl, .inl (by decide)⟩
  exact (hrespects .udp .tcp rfl rfl 0 printer rfl).1 rfl happears

end NyanSD
