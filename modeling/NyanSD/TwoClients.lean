import NyanSD.ArduinoBounds

/-!
# The two clients

The Arduino client is a port of the desktop one. It composes the same message for
the same queries, with a pointer in place of an index and a stored length in place
of the length of a string. Of the responses it reads only the first section of each.
-/

namespace NyanSD.Arduino

open Access ByteBauble

/-! ## Composing a query -/

/-- The same query for the desktop client. -/
def Query.desktop (query : Query) : NYSDQuery where
  protocol := query.protocol
  filter := query.filter.bytes

/-- The loop over the queries as it walks: `qptr` points into the array and moves on
behind every turn but the last. Behind the array there is nothing to point to. -/
def walkQueries (queries : List Query) : Nat → Nat → Bytes → Option Bytes
  | 0, _, body => some body
  | turns + 1, qptr, body =>
      match queries[qptr]? with
      | none => none
      | some query =>
          let qlen : UInt8 := query.length.toUInt8
          let body := body ++ [Wire.querySignature] ++ [query.protocol.toByte] ++ [qlen]
          walkQueries queries turns (if turns ≠ 0 then qptr + 1 else qptr)
            (if 0 < qlen then body ++ query.filter.bytes else body)

/-- The walk stays inside the array and appends its elements in order. -/
theorem walkQueries_eq {queries : List Query} (turns qptr : Nat) (body : Bytes)
    (hinside : qptr + turns ≤ queries.length) :
    walkQueries queries turns qptr body =
      some (appendQueries ((queries.drop qptr).take turns) body) := by
  induction turns generalizing qptr body with
  | zero => simp [walkQueries, appendQueries]
  | succ turns ih =>
      have hquery : queries[qptr]? = some queries[qptr] := List.getElem?_eq_getElem (by omega)
      rw [walkQueries, hquery, List.drop_eq_getElem_cons (by omega), List.take_succ_cons,
        appendQueries]
      dsimp only
      by_cases hlast : turns = 0
      · subst hlast
        rfl
      · rw [if_pos hlast, ih _ _ (by omega)]

/-- A query whose length member is the length of its string. -/
def Query.Measured (query : Query) : Prop := query.length.toNat = query.filter.bytes.length

theorem toUInt8_length {query : Query} (hmeasured : query.Measured) :
    query.length.toUInt8 = UInt8.ofNat query.filter.bytes.length := by
  rw [← hmeasured, ← UInt8.toNat_inj, UInt16.toNat_toUInt8, UInt8.toNat_ofNat']

theorem appendQueries_desktop {queries : List Query} (body : Bytes)
    (hmeasured : ∀ query ∈ queries, query.Measured) :
    appendQueries queries body = NyanSD.appendQueries (queries.map Query.desktop) body := by
  induction queries generalizing body with
  | nil => rfl
  | cons query rest ih =>
      obtain ⟨hquery, hrest⟩ := List.forall_mem_cons.mp hmeasured
      rw [appendQueries, toUInt8_length hquery, ih _ hrest]
      rfl

/-- Whatever the byte order of the desktop host, the two clients send the same bytes
for the same one to 255 queries, narrowed lengths included. -/
theorem same_message (host : BBEndianness) {queries : List Query} (hpos : 1 ≤ queries.length)
    (hcount : queries.length ≤ 255) (hmeasured : ∀ query ∈ queries, query.Measured) :
    ∃ body msg, walkQueries queries queries.length 0 [UInt8.ofNat queries.length] = some body ∧
      msg = Wire.signature ++ objectBytes .le (UInt16.ofNat (body.length + 1)) ++
        [NYSDMessageType.broadcast.toByte] ++ body ∧
      (∀ (c : Client) (port : UInt16) (sent : Bool),
        (sendQuery c port queries (UInt8.ofNat queries.length) sent).msg = some msg) ∧
      NyanSD.composeQuery host (queries.map Query.desktop) = .ok msg := by
  have hqnum : (UInt8.ofNat queries.length).toNat = queries.length :=
    UInt8.toNat_ofNat_of_lt' (Nat.lt_succ_of_le hcount)
  have hnonzero : UInt8.ofNat queries.length ≠ 0 := by
    intro hzero
    rw [hzero] at hqnum
    exact absurd hqnum (by simpa using (Nat.pos_iff_ne_zero.mp hpos).symm)
  have hwalk := walkQueries_eq queries.length 0 [UInt8.ofNat queries.length] (Nat.zero_add _).le
  rw [List.drop_zero, List.take_length] at hwalk
  refine ⟨_, _, hwalk, rfl, ?_, ?_⟩
  · intro c port sent
    rw [sendQuery_of_ne_zero c port queries sent hnonzero, composeQuery, hqnum, List.take_length]
  · have hlength : (queries.map Query.desktop).length = queries.length := List.length_map _
    rw [NyanSD.composeQuery, hlength, if_neg (by omega), if_neg (by omega),
      appendQueries_desktop _ hmeasured]
    simp only [getHostEndian_onHost, objectBytes_toGlobal swappable_uint16]
    rfl

/-- A query for printers. -/
def printers : Query := ⟨.tcp, ⟨printer.service, by decide⟩, 3⟩

theorem same_message_anyService :
    ∃ body msg, walkQueries [printers, anyService] 2 0 [2] = some body ∧ body.length = 10 ∧
      (sendQuery {} 4004 [printers, anyService] 2 true).msg = some msg ∧
      NyanSD.composeQuery .be [⟨.tcp, printer.service⟩, ⟨.all, []⟩] = .ok msg := by
  have hmeasured : ∀ query ∈ [printers, anyService], query.Measured := by
    intro query hmem
    rcases List.mem_pair.mp hmem with rfl | rfl
    · rfl
    · rfl
  obtain ⟨body, msg, hwalk, -, hsent, hcomposed⟩ :=
    same_message .be (by decide) (by decide) hmeasured
  refine ⟨body, msg, hwalk, ?_, hsent {} 4004 true, hcomposed⟩
  have hbody : (walkQueries [printers, anyService] 2 0 [2]).map List.length = some 10 := by decide
  rw [show walkQueries [printers, anyService] 2 0 [2] = some body from hwalk] at hbody
  exact Option.some.inj hbody

/-! ## Reading responses -/

/-- The first record of a message is all that is read of it. -/
theorem run_parseNode_message {node : ListNode} {m : Wire.ResponseMessage}
    (hdatagram : node.datagram = m.encode) :
    (parseNode node.length).run node.data = .ok m.services.head? := by
  have hholds := holds_datagram node
  have hlength := length_datagram node
  have htotal := Wire.length_response m.services
  have hlimit := m.length_lt
  rw [hdatagram, Wire.ResponseMessage.encode] at hholds hlength
  rw [Wire.response, Wire.message, holds_append, Wire.length_header, List.length_cons] at hholds
  obtain ⟨hheader, htype, hnumber, hsections⟩ := hholds
  have hfield := lengthField_of_holds .le (by omega) hheader
  rw [lengthField, toHost_le, Nat.zero_add] at hfield
  rw [run_parseNode, if_neg (by omega), if_neg (not_not.mpr (run_signature_of_holds hheader)),
    if_neg (by omega), if_neg (not_not.mpr htype)]
  cases hservices : m.services with
  | nil =>
      rw [hservices] at hnumber
      exact if_pos hnumber
  | cons sv rest =>
      have hsome : node.data 9 ≠ 0 := by
        intro hzero
        have hnone := congrArg UInt8.toNat (hnumber.symm.trans hzero)
        have hcount := m.count_lt
        rw [UInt8.toNat_ofNat_of_lt' hcount, hservices] at hnone
        cases hnone
      rw [hservices, List.flatMap_cons, holds_append] at hsections
      have hfits := m.fits sv (by rw [hservices]; exact List.mem_cons_self)
      have hsection := run_parseService .le (Wire.sectionOf sv hfits)
        (by rw [Wire.sectionOf, Wire.bytes_storedService]; exact hsections.1)
      rw [if_neg hsome, if_neg (not_not.mpr hsections.1.1), parseService_eq, run_map, hsection,
        Wire.sectionOf, record_storedService]
      rfl

/-- Reading a chain of messages takes the first record of each and never faults. -/
theorem readNodes_messages {c : Client} {nodes : List (Address × Bytes)}
    {messages : List Wire.ResponseMessage} (completed : Nat) (services : List NYSDService)
    (hchain : DatagramChain c.heap c.response nodes)
    (hnodes : nodes.map Prod.snd = messages.map Wire.ResponseMessage.encode) :
    ∃ client, readNodes nodes.length c completed services =
      .ok ⟨client, completed + nodes.length, none,
        services ++ messages.flatMap fun m => m.services.take 1⟩ := by
  induction nodes generalizing c messages completed services with
  | nil =>
      obtain rfl := List.map_eq_nil_iff.mp hnodes.symm
      exact ⟨c, by simp [readNodes]⟩
  | cons entry rest ih =>
      obtain ⟨address, content⟩ := entry
      obtain ⟨m, others, rfl, hcontent, hothers⟩ := List.map_eq_cons_iff.mp hnodes.symm
      obtain ⟨node, hresponse, hnode, hdatagram⟩ := hchain.head_node
      rw [hresponse] at hchain
      have htaken := m.services.take_one
      rw [List.length_cons, readNodes_ok rest.length completed services hresponse hnode
        (run_parseNode_message (hdatagram.trans hcontent.symm)), List.flatMap_cons, htaken,
        ← List.append_assoc, Nat.add_comm rest.length, ← Nat.add_assoc]
      rcases chain_behind hnode hchain with rfl | hbehind
      · obtain rfl := List.map_eq_nil_iff.mp hothers
        exact ⟨_, by rw [List.flatMap_nil, List.append_nil]; rfl⟩
      · exact ih (c := { c with heap := Function.update c.heap address none,
                                response := if node.next.isSome then node.next
                                  else some address })
          (completed + 1) _ hbehind hothers.symm

/-- A well-formed response on its way to both clients: where the one puts its node, and
what the memory of either held before. -/
structure Reception where
  message : Wire.ResponseMessage
  address : Address
  block : Nat → UInt8
  buffer : Nat → UInt8

namespace Reception

def call (port : UInt16) (r : Reception) : Call :=
  .receive r.address r.message.encode r.block port

def received (r : Reception) : ResponseStruct := receiveBytes r.message.encode r.buffer

end Reception

/-- What is received from the queried port is queued, one datagram after another. -/
theorem queue_of_receives {port : UInt16} {receptions : List Reception} {s s' : Session}
    {nodes : List (Address × Bytes)} (hqueue : Queue s.client nodes)
    (hport : s.client.port = port)
    (hrun : session.run (fun _ _ => True) s (receptions.map (Reception.call port)) = some s') :
    ∃ more, Queue s'.client (nodes ++ more) ∧
      more.map Prod.snd = receptions.map fun r => r.message.encode := by
  induction receptions generalizing s nodes with
  | nil =>
      obtain rfl := Option.some.inj hrun
      exact ⟨[], by rwa [List.append_nil], rfl⟩
  | cons r rest ih =>
      rw [List.map_cons, Machine.run, if_pos trivial] at hrun
      obtain ⟨next, hnext, hrest⟩ := Option.bind_eq_some_iff.mp hrun
      subst hport
      obtain ⟨-, hstep⟩ := step_of_session hnext
      cases hstep with
      | receiveFault hfresh hfault =>
          obtain ⟨client, hclient, -⟩ :=
            udpReceiveCallback_append r.message.encode r.block hqueue hfresh
          cases hfault.symm.trans hclient
      | receive hfresh hreceived =>
          obtain ⟨client, hclient, hport, happended⟩ :=
            udpReceiveCallback_append r.message.encode r.block hqueue hfresh
          obtain rfl := Except.ok.inj (hreceived.symm.trans hclient)
          obtain ⟨more, hmore, hdatagrams⟩ := ih happended hport hrest
          refine ⟨(r.address, r.message.encode) :: more, ?_, ?_⟩
          · rwa [List.append_assoc] at hmore
          · rw [List.map_cons, List.map_cons, hdatagrams]

/-- After a query from the initial state, what was received from the queried port is
queued. -/
theorem queue_of_receptions {port : UInt16} {queries : List Query} {qnum : UInt8} {sent : Bool}
    {receptions : List Reception} {s : Session}
    (hrun : session.run (fun _ _ => True) {} (.sendQuery port queries qnum sent ::
      receptions.map (Reception.call port)) = some s) :
    ∃ nodes, Queue s.client nodes ∧
      nodes.map Prod.snd = receptions.map fun r => r.message.encode := by
  rw [Machine.run, if_pos trivial] at hrun
  obtain ⟨next, hnext, hrest⟩ := Option.bind_eq_some_iff.mp hrun
  obtain rfl := Option.some.inj hnext
  have hclient : (sendQuery {} port queries qnum sent).client =
      { ({} : Client) with port := port } := by
    by_cases hqnum : qnum = 0
    · rw [hqnum, sendQuery_zero]
    · rw [sendQuery_of_ne_zero {} port queries sent hqnum]
  have hempty : Queue (sendQuery {} port queries qnum sent).client [] := by
    rw [hclient]
    exact ⟨.nil, fun hne => absurd rfl hne, rfl, iff_of_false Bool.false_ne_true (lt_irrefl 0)⟩
  have hport : (sendQuery {} port queries qnum sent).client.port = port := by rw [hclient]
  exact queue_of_receives hempty hport hrest

/-- The desktop client takes the records of the messages in front of the first one that
does not fit into its buffer. -/
theorem parseResponses_receptions (host : BBEndianness) (receptions : List Reception)
    (responses : List NYSDService) :
    (parseResponses host (receptions.map Reception.received) responses).2 =
      responses ++ (receptions.takeWhile fun r =>
        r.message.encode.length ≤ receiveSize).flatMap fun r => r.message.services := by
  induction receptions generalizing responses with
  | nil => simp [parseResponses]
  | cons r rest ih =>
      rw [List.map_cons, parseResponses, List.takeWhile_cons]
      by_cases hsize : r.message.encode.length ≤ receiveSize
      · have hfirst := parseBuffer_carries host r.buffer responses r.message.carries hsize
        rw [Reception.received, hfirst, decide_eq_true hsize, if_pos rfl, List.flatMap_cons,
          ← List.append_assoc]
        exact ih _
      · have hlimit := r.message.length_lt
        have htotal := Wire.length_response r.message.services
        have hfirst : parseBuffer host r.received responses = (false, responses) := by
          apply parseBuffer_truncated host r.buffer responses
          · rw [List.length_cons]
            omega
          · exact Nat.not_le.mp hsize
        rw [hfirst, decide_eq_false hsize]
        simp

/-- The two clients read the same records: the call succeeds, reports how many there
are, and its list is what the desktop client appends for the same datagrams. -/
structure SameServices (host : BBEndianness) (c : Client) (receptions : List Reception) :
    Prop where
  read : ∃ r, getResponses c = .ok r ∧ r.code = 0 ∧
    r.resnum = some (receptions.flatMap fun r => r.message.services).length ∧
    r.services = (parseResponses host (receptions.map Reception.received) []).2

/-- What the call returns for a queue of messages. -/
theorem getResponses_messages {c : Client} {nodes : List (Address × Bytes)}
    {receptions : List Reception} (hne : receptions ≠ []) (hqueue : Queue c nodes)
    (hnodes : nodes.map Prod.snd = receptions.map fun r => r.message.encode) :
    ∃ r, getResponses c = .ok r ∧ r.code = 0 ∧
      r.services = (receptions.flatMap fun r => r.message.services.take 1) ∧
      r.resnum = some r.services.length := by
  have hcount : 0 < c.count := by
    have hlength := congrArg List.length hnodes
    rw [List.length_map, List.length_map] at hlength
    rw [hqueue.count, hlength]
    exact List.length_pos_iff.mpr hne
  have hmessages : nodes.map Prod.snd =
      (receptions.map Reception.message).map Wire.ResponseMessage.encode := by
    rw [hnodes, List.map_map]
    rfl
  obtain ⟨client, hread⟩ := readNodes_messages 0 [] hqueue.chain hmessages
  rw [getResponses, hqueue.received.mpr hcount, hqueue.count, hread, List.flatMap_map]
  exact ⟨_, rfl, rfl, rfl, rfl⟩

section Firsts

variable {α β : Type} (items : List α) (parts : α → List β)

theorem length_firsts_le :
    (items.flatMap fun item => (parts item).take 1).length ≤ (items.flatMap parts).length := by
  induction items with
  | nil => exact le_refl _
  | cons item rest ih =>
      simp only [List.flatMap_cons, List.length_append, List.length_take]
      omega

/-- The first parts are as many as all parts exactly when there is never a second one. -/
theorem length_firsts_eq_iff :
    (items.flatMap fun item => (parts item).take 1).length = (items.flatMap parts).length ↔
      ∀ item ∈ items, (parts item).length ≤ 1 := by
  induction items with
  | nil => simp
  | cons item rest ih =>
      have hrest := length_firsts_le rest parts
      rw [List.forall_mem_cons, ← ih]
      simp only [List.flatMap_cons, List.length_append, List.length_take]
      omega

theorem firsts_eq (hfew : ∀ item ∈ items, (parts item).length ≤ 1) :
    (items.flatMap fun item => (parts item).take 1) = items.flatMap parts := by
  apply List.flatMap_congr
  intro item hmem
  exact List.take_of_length_le (hfew item hmem)

/-- A prefix leaves no part out exactly when it is everything, if what it rejects has
parts. -/
theorem flatMap_takeWhile_eq_iff (accepts : α → Bool)
    (hrejected : ∀ item, accepts item = false → parts item ≠ []) :
    items.flatMap parts = (items.takeWhile accepts).flatMap parts ↔
      ∀ item ∈ items, accepts item = true := by
  induction items with
  | nil => simp
  | cons item rest ih =>
      rw [List.takeWhile_cons, List.forall_mem_cons, ← ih]
      cases haccepts : accepts item with
      | true => simp
      | false => simp [hrejected item haccepts]

end Firsts

/-- A message that does not fit into the buffer of the desktop client carries records. -/
theorem services_ne_nil {m : Wire.ResponseMessage} (hlong : ¬ m.encode.length ≤ receiveSize) :
    m.services ≠ [] := by
  intro hnone
  rw [Wire.ResponseMessage.encode, Wire.length_response, hnone] at hlong
  exact hlong (by decide)

/-- After a query from the initial state the two clients read the same records exactly
when every message has at most one section and fits into the desktop buffer. -/
theorem sameServices_iff (host : BBEndianness) {port : UInt16} {queries : List Query}
    {qnum : UInt8} {sent : Bool} {receptions : List Reception} {s : Session}
    (hne : receptions ≠ [])
    (hrun : session.run (fun _ _ => True) {} (.sendQuery port queries qnum sent ::
      receptions.map (Reception.call port)) = some s) :
    SameServices host s.client receptions ↔
      ∀ r ∈ receptions, r.message.services.length ≤ 1 ∧
        r.message.encode.length ≤ receiveSize := by
  obtain ⟨nodes, hqueue, hnodes⟩ := queue_of_receptions hrun
  obtain ⟨r, hread, hcode, hservices, hresnum⟩ := getResponses_messages hne hqueue hnodes
  have hdesktop := parseResponses_receptions host receptions []
  rw [List.nil_append] at hdesktop
  have hprefix := flatMap_takeWhile_eq_iff receptions (fun r => r.message.services)
    (fun r => decide (r.message.encode.length ≤ receiveSize))
    fun r hlong => services_ne_nil (of_decide_eq_false hlong)
  constructor
  · rintro ⟨found, hfound, -, htotal, hsame⟩
    obtain rfl := Except.ok.inj (hread.symm.trans hfound)
    rw [hresnum, hservices, Option.some.injEq, length_firsts_eq_iff] at htotal
    rw [hservices, firsts_eq _ _ htotal, hdesktop, hprefix] at hsame
    intro r hmem
    exact ⟨htotal r hmem, of_decide_eq_true (hsame r hmem)⟩
  · intro hall
    have hfew := firsts_eq receptions (fun r => r.message.services) fun r hmem => (hall r hmem).1
    have hfits := hprefix.mpr fun r hmem => decide_eq_true (hall r hmem).2
    refine ⟨r, hread, hcode, ?_, ?_⟩
    · rw [hresnum, hservices, hfew]
    · rw [hservices, hfew, hdesktop, hfits]

/-- A response with one section. -/
def onePrinter : Wire.ResponseMessage :=
  ⟨[printer], List.forall_mem_singleton.mpr fits_printer, by decide, by decide⟩

/-- A response with two sections. -/
def twoPrinters : Wire.ResponseMessage where
  services := [printer, printer]
  fits := List.forall_mem_cons.mpr ⟨fits_printer, onePrinter.fits⟩
  count_lt := by decide
  length_lt := by decide

def received (m : Wire.ResponseMessage) (address : Address) : Reception :=
  ⟨m, address, fun _ => 0, fun _ => 0⟩

theorem sameServices_onePrinter :
    ∃ s, session.run (fun _ _ => True) {} (.sendQuery 4004 [anyService] 1 true ::
        [received onePrinter 1, received onePrinter 2].map (Reception.call 4004)) = some s ∧
      SameServices .be s.client [received onePrinter 1, received onePrinter 2] := by
  obtain ⟨s, hrun⟩ := Option.isSome_iff_exists.mp (show (session.run (fun _ _ => True) {}
    (.sendQuery 4004 [anyService] 1 true :: [received onePrinter 1, received onePrinter 2].map
      (Reception.call 4004))).isSome by decide)
  refine ⟨s, hrun, (sameServices_iff .be (by decide) hrun).mpr ?_⟩
  intro r hmem
  obtain rfl | rfl : r = _ ∨ r = _ := by simpa using hmem
  · exact ⟨by decide, by decide⟩
  · exact ⟨by decide, by decide⟩

/-- Of two records in one message the Arduino client returns the first. -/
theorem second_section_dropped :
    (∃ s, session.run (fun _ _ => True) {} (.sendQuery 4004 [anyService] 1 true ::
        [received twoPrinters 1].map (Reception.call 4004)) = some s ∧
      (∃ r, getResponses s.client = .ok r ∧ r.code = 0 ∧ r.resnum = some 1 ∧
        r.services = [printer]) ∧
      ¬ SameServices .le s.client [received twoPrinters 1]) ∧
    parseResponses .le ([received twoPrinters 1].map Reception.received) [] =
      (true, [printer, printer]) := by
  refine ⟨?_, by decide⟩
  have hruns : (session.run (fun _ _ => True) {} (.sendQuery 4004 [anyService] 1 true ::
      [received twoPrinters 1].map (Reception.call 4004))).map (fun s =>
        (getResponses s.client).toOption.map fun r => (r.code, r.resnum, r.services)) =
      some (some (0, some 1, [printer])) := by
    decide
  obtain ⟨s, hrun, hread⟩ := Option.map_eq_some_iff.mp hruns
  refine ⟨s, hrun, ?_⟩
  cases hfound : getResponses s.client with
  | error fault =>
      rw [hfound] at hread
      cases hread
  | ok r =>
      rw [hfound] at hread
      obtain ⟨hcode, hresnum, hservices⟩ : r.code = 0 ∧ r.resnum = some 1 ∧
          r.services = [printer] := by
        simpa [Except.toOption] using hread
      refine ⟨⟨r, rfl, hcode, hresnum, hservices⟩, ?_⟩
      rintro ⟨found, hsame, -, htotal, -⟩
      obtain rfl := Except.ok.inj (hfound.symm.trans hsame)
      rw [hresnum] at htotal
      exact absurd htotal (by decide)

end NyanSD.Arduino
