import NyanSD.ResponseRoundTrip

/-!
# Broadcasts are answered query by query or not at all

What the handler does with a datagram depends on six conditions only, which are
checked in order. A composed broadcast passes them all when it fitted into the
receive buffer, and fails the length check when it did not.
-/

namespace NyanSD

open Access ByteBauble

variable (server : Server) (sender : SocketAddress)

/-! ## The handler -/

/-- The checks of the handler, in order. -/
theorem run_handle (n : Nat) (memory : Nat → UInt8) :
    (handle server sender n).run memory =
      if n < 10 then .incomplete
      else if (span 0 6).run memory ≠ Wire.signature then .wrongSignature
      else if n - 8 ≠ lengthField server.host memory 0 then .wrongLength
      else if memory 8 ≠ NYSDMessageType.broadcast.toByte then .notBroadcast
      else if memory 9 = 0 then .noQueries
      else
        let outcome := (querySections server sender (memory 9).toNat 10 []).run memory
        .sections outcome.1 outcome.2 := by
  simp only [handle, run_ite, run_bind, run_pure]
  rfl

/-- The checks that let a message through to its query sections. -/
structure PassesChecks (host : BBEndianness) (n : Nat) (memory : Nat → UInt8) : Prop where
  long : 10 ≤ n
  signature : (span 0 6).run memory = Wire.signature
  length : n - 8 = lengthField host memory 0
  type : memory 8 = NYSDMessageType.broadcast.toByte
  count : memory 9 ≠ 0

/-- The handler gets to the query sections only through all checks. -/
theorem passesChecks_of_sections {n index : Nat} {memory : Nat → UInt8} {answers : List Answer}
    (hhandled : (handle server sender n).run memory = .sections index answers) :
    PassesChecks server.host n memory ∧
      (querySections server sender (memory 9).toNat 10 []).run memory = (index, answers) := by
  rw [run_handle] at hhandled
  split at hhandled
  · cases hhandled
  rename_i hlong
  split at hhandled
  · cases hhandled
  rename_i hsignature
  split at hhandled
  · cases hhandled
  rename_i hlength
  split at hhandled
  · cases hhandled
  rename_i htype
  split at hhandled
  · cases hhandled
  rename_i hcount
  cases hhandled
  exact ⟨⟨Nat.not_lt.mp hlong, not_not.mp hsignature, not_not.mp hlength, not_not.mp htype,
    hcount⟩, rfl⟩

/-- Every answer is the response to the filter it was read with, whatever the
datagram was. -/
theorem run_querySections_answers (memory : Nat → UInt8) (count index : Nat)
    (answers : List Answer)
    (hanswers : ∀ a ∈ answers, a.msg = respond server sender a.filter) :
    ∀ a ∈ ((querySections server sender count index answers).run memory).2,
      a.msg = respond server sender a.filter := by
  induction count generalizing index answers with
  | zero => exact hanswers
  | succ count ih =>
      rw [querySections, run_bind, run_cell, run_ite]
      split
      · exact ih index answers hanswers
      · rw [run_bind, run_bind, run_bind]
        apply ih
        intro a hmem
        rcases List.mem_append.mp hmem with hold | hnew
        · exact hanswers a hold
        · rw [List.mem_singleton.mp hnew]

theorem clientHandler_answers {datagram : Bytes} {buffer : Nat → UInt8} {index : Nat}
    {answers : List Answer}
    (hhandled : clientHandler server sender datagram buffer = .sections index answers) :
    ∀ a ∈ answers, a.msg = respond server sender a.filter := by
  obtain ⟨-, hrun⟩ := passesChecks_of_sections server sender hhandled
  have hanswers := run_querySections_answers server sender (receive datagram buffer).data
    ((receive datagram buffer).data 9).toNat 10 [] (by simp)
  rwa [hrun] at hanswers

/-! ## Query sections -/

/-- The answer a query section gets. -/
def sectionAnswer (s : Wire.QuerySection) : Answer where
  prot := s.prot
  filter := s.filter
  msg := respond server sender s.filter

/-- One pass over a well-formed query section. -/
theorem run_querySections_section {memory : Nat → UInt8} {index : Nat} (s : Wire.QuerySection)
    (count : Nat) (answers : List Answer) (hholds : Holds memory index s.bytes) :
    (querySections server sender (count + 1) index answers).run memory =
      (querySections server sender count (index + s.bytes.length)
        (answers ++ [sectionAnswer server sender s])).run memory := by
  obtain ⟨hmark, hprot, hlength, htext⟩ := hholds
  have hexact : s.length.toNat = s.filter.length := s.exact
  have hspan : (span (index + 3) s.filter.length).run memory = s.filter := run_span_of_holds htext
  simp only [querySections, run_bind, run_cell, hmark, hprot, hlength, hexact, hspan, ne_eq,
    not_true_eq_false, if_false, s.length_bytes, sectionAnswer]
  rw [Nat.add_assoc index 3]

/-- Whole sections are read one after another, each with its answer, and the passes that
are left go on behind them. -/
theorem run_querySections_append {memory : Nat → UInt8} {index : Nat}
    (sections : List Wire.QuerySection) (count : Nat) (answers : List Answer)
    (hholds : Holds memory index (sections.flatMap fun s => s.bytes)) :
    (querySections server sender (sections.length + count) index answers).run memory =
      (querySections server sender count (index + (sections.flatMap fun s => s.bytes).length)
        (answers ++ sections.map (sectionAnswer server sender))).run memory := by
  induction sections generalizing index answers with
  | nil => simp
  | cons s rest ih =>
      rw [List.flatMap_cons, holds_append] at hholds
      have htail := ih (answers ++ [sectionAnswer server sender s]) hholds.2
      rw [List.length_cons, Nat.add_right_comm,
        run_querySections_section server sender s _ answers hholds.1, htail]
      simp only [List.flatMap_cons, List.length_append, List.append_assoc, List.map_cons,
        List.cons_append, List.nil_append, Nat.add_assoc]

/-- At a byte that starts no section nothing is read or answered, however many passes
are left. -/
theorem run_querySections_of_ne {memory : Nat → UInt8} {index : Nat} (count : Nat)
    (answers : List Answer) (hother : memory index ≠ Wire.querySignature) :
    (querySections server sender count index answers).run memory = (index, answers) := by
  -- the pass leaves the index where it is, so the next one meets the same byte
  induction count with
  | zero => rfl
  | succ count ih => rw [querySections, run_bind, run_cell, run_ite, if_pos hother, ih]

/-! ## Composed broadcasts -/

/-- The answer a query is meant to get. -/
def answerTo (query : NYSDQuery) : Answer where
  prot := query.protocol.toByte
  filter := query.filter
  msg := respond server sender query.filter

theorem appendQueries_eq {queries : List NYSDQuery} (body : Bytes)
    (hfilter : ∀ query ∈ queries, query.filter.length ≤ 255) :
    appendQueries queries body = body ++ queries.flatMap Wire.querySection := by
  induction queries generalizing body with
  | nil => simp [appendQueries]
  | cons query rest ih =>
      obtain ⟨hquery, hrest⟩ := List.forall_mem_cons.mp hfilter
      have hlength : (UInt8.ofNat query.filter.length).toNat = query.filter.length :=
        UInt8.toNat_ofNat_of_lt' (Nat.lt_succ_of_le hquery)
      rw [appendQueries, ih _ hrest]
      by_cases hempty : query.filter = []
      · simp [hempty, Wire.querySection, Wire.shortString]
      · have hpos : 0 < UInt8.ofNat query.filter.length := by
          rw [UInt8.lt_iff_toNat_lt, hlength]
          exact List.length_pos_iff.mpr hempty
        simp [hpos, Wire.querySection, Wire.shortString]

theorem composeQuery_eq (host : BBEndianness) {queries : List NYSDQuery}
    (hpos : 1 ≤ queries.length) (hcount : queries.length ≤ 255)
    (hfilter : ∀ query ∈ queries, query.filter.length ≤ 255) :
    composeQuery host queries = .ok (Wire.broadcast queries) := by
  have hbody := appendQueries_eq [UInt8.ofNat queries.length] hfilter
  rw [composeQuery, if_neg (by omega), if_neg (by omega)]
  simp [hbody, objectBytes_toGlobal swappable_uint16, Wire.broadcast, Wire.message, Wire.header]

/-- Queries whose filters fit lie in a datagram as whole sections. -/
theorem exists_querySections {queries : List NYSDQuery}
    (hfilter : ∀ query ∈ queries, query.filter.length < 2 ^ 8) :
    ∃ sections : List Wire.QuerySection, sections.length = queries.length ∧
      (sections.flatMap fun s => s.bytes) = queries.flatMap Wire.querySection ∧
      sections.map (sectionAnswer server sender) = queries.map (answerTo server sender) := by
  induction queries with
  | nil => exact ⟨[], rfl, rfl, rfl⟩
  | cons query rest ih =>
      obtain ⟨hquery, hrest⟩ := List.forall_mem_cons.mp hfilter
      obtain ⟨sections, hlength, hbytes, hanswers⟩ := ih hrest
      have hexact : (UInt8.ofNat query.filter.length).toNat = query.filter.length :=
        UInt8.toNat_ofNat_of_lt' hquery
      refine ⟨⟨⟨query.protocol.toByte, UInt8.ofNat query.filter.length, query.filter⟩, hexact⟩ ::
        sections, congrArg (· + 1) hlength, ?_, ?_⟩
      · rw [List.flatMap_cons, List.flatMap_cons, hbytes]
        rfl
      · rw [List.map_cons, List.map_cons, hanswers]
        rfl

/-- Sections are read back one by one, each with its answer. -/
theorem run_querySections {memory : Nat → UInt8} {index : Nat} {queries : List NYSDQuery}
    (answers : List Answer) (hfilter : ∀ query ∈ queries, query.filter.length < 2 ^ 8)
    (hholds : Holds memory index (queries.flatMap Wire.querySection)) :
    (querySections server sender queries.length index answers).run memory =
      (index + (queries.flatMap Wire.querySection).length,
        answers ++ queries.map (answerTo server sender)) := by
  obtain ⟨sections, hlength, hbytes, hanswers⟩ := exists_querySections server sender hfilter
  rw [← hlength, ← hbytes, ← hanswers]
  exact run_querySections_append server sender sections 0 answers (by rwa [hbytes])

/-- A well-formed broadcast passes the checks and is answered to its end. -/
theorem run_handle_broadcast (m : Wire.QueryMessage) {memory : Nat → UInt8}
    (hholds : Holds memory 0 m.encode) :
    (handle server sender m.encode.length).run memory =
      .sections m.encode.length (m.queries.map (answerTo server sender)) := by
  have htotal := Wire.length_broadcast m.queries
  have hpos := m.count_pos
  have hlimit := m.length_lt
  have hcount : (UInt8.ofNat m.queries.length).toNat = m.queries.length :=
    UInt8.toNat_ofNat_of_lt' m.count_lt
  rw [Wire.QueryMessage.encode] at hholds ⊢
  have hshort : 10 ≤ (Wire.broadcast m.queries).length := by omega
  rw [Wire.broadcast, Wire.message, holds_append, Wire.length_header, List.length_cons] at hholds
  obtain ⟨hheader, htype, hqueries, hsections⟩ := hholds
  have hsignature := run_signature_of_holds hheader
  have hfield : (Wire.broadcast m.queries).length - 8 = lengthField server.host memory 0 := by
    rw [lengthField_of_holds server.host (by omega) hheader]
    omega
  have hnonzero : memory 9 ≠ 0 := by
    intro hzero
    have hnone : (UInt8.ofNat m.queries.length).toNat = 0 :=
      congrArg UInt8.toNat (hqueries.symm.trans hzero)
    omega
  rw [run_handle, if_neg (by omega), if_neg (not_not.mpr hsignature),
    if_neg (not_not.mpr hfield), if_neg (not_not.mpr htype), if_neg hnonzero, hqueries, hcount,
    run_querySections server sender [] m.filter_lt hsections]
  simp only [List.nil_append, Handled.sections.injEq, and_true]
  omega

/-- A well-formed broadcast that fits into the buffer is answered query by query. -/
theorem clientHandler_broadcast (m : Wire.QueryMessage) (buffer : Nat → UInt8)
    (hsize : m.encode.length ≤ receiveSize) :
    clientHandler server sender m.encode buffer =
      .sections m.encode.length (m.queries.map (answerTo server sender)) := by
  have hholds := holds_receive m.encode buffer
  rw [List.take_of_length_le hsize] at hholds
  rw [clientHandler, length_receive, Nat.min_eq_right hsize]
  exact run_handle_broadcast server sender m hholds

/-- A message that did not fit into the buffer fails the length check. -/
theorem clientHandler_truncated {type : NYSDMessageType} {payload : Bytes}
    (buffer : Nat → UInt8) (hfield : payload.length + 1 < 2 ^ 16)
    (hlong : receiveSize < (Wire.message type payload).length) :
    clientHandler server sender (Wire.message type payload) buffer = .wrongLength := by
  have hheader := holds_header_of_take (holds_receive (Wire.message type payload) buffer)
  have hsignature := run_signature_of_holds hheader
  rw [clientHandler, run_handle, length_receive, Nat.min_eq_left hlong.le]
  rw [Wire.length_message, receiveSize] at hlong
  rw [if_neg (by decide), if_neg (not_not.mpr hsignature),
    lengthField_of_holds server.host hfield hheader, receiveSize, if_pos (by omega)]

/-- Whatever the two byte orders, a composed broadcast that fits into the receive
buffer is read back query by query, up to its last byte, and each query is sent
its response; one that does not fit is not answered at all. -/
theorem query_round_trip (client : BBEndianness) (queries : List NYSDQuery)
    (buffer : Nat → UInt8) (hpos : 1 ≤ queries.length) (hcount : queries.length ≤ 255)
    (hfilter : ∀ query ∈ queries, query.filter.length ≤ 255) :
    ∃ msg, composeQuery client queries = .ok msg ∧
      (msg.length ≤ maxDatagram →
        (msg.length ≤ receiveSize →
          clientHandler server sender msg buffer = .sections msg.length
              (queries.map fun query => ⟨query.protocol.toByte, query.filter,
                respond server sender query.filter⟩) ∧
            (clientHandler server sender msg buffer).sent =
              queries.map fun query => respond server sender query.filter) ∧
        (receiveSize < msg.length →
          (clientHandler server sender msg buffer).sent = [])) := by
  refine ⟨_, composeQuery_eq client hpos hcount hfilter, ?_⟩
  intro hlimit
  constructor
  · intro hsize
    let m : Wire.QueryMessage :=
      ⟨queries, fun query hmem => Nat.lt_succ_of_le (hfilter query hmem), hpos,
        Nat.lt_succ_of_le hcount, by rw [maxDatagram] at hlimit; omega⟩
    have hhandled : clientHandler server sender (Wire.broadcast queries) buffer =
        .sections (Wire.broadcast queries).length (queries.map (answerTo server sender)) :=
      clientHandler_broadcast server sender m buffer hsize
    rw [hhandled]
    simp [Handled.sent, answerTo, Function.comp_def]
  · intro hlong
    rw [Wire.broadcast, clientHandler_truncated server sender buffer _ hlong]
    · rfl
    · have hfield := Wire.length_message .broadcast
        (UInt8.ofNat queries.length :: queries.flatMap Wire.querySection)
      rw [← Wire.broadcast] at hfield
      rw [maxDatagram] at hlimit
      omega

theorem query_round_trip_printer :
    ∃ msg, composeQuery .be [⟨.all, []⟩, ⟨.tcp, printer.service⟩] = .ok msg ∧
      (clientHandler (serverOf .le [printer]) laptop msg fun _ => 0).sent =
        [respond (serverOf .le [printer]) laptop [],
          respond (serverOf .le [printer]) laptop printer.service] := by
  obtain ⟨msg, hmsg, hround⟩ := query_round_trip (serverOf .le [printer]) laptop .be
    [⟨.all, []⟩, ⟨.tcp, printer.service⟩] (fun _ => 0) (by decide) (by decide) (by decide)
  have hlength : msg.length = 19 := by
    cases hmsg
    rfl
  exact ⟨msg, hmsg, ((hround (by rw [hlength]; decide)).1 (by rw [hlength]; decide)).2⟩

end NyanSD
