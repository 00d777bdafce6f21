import NyanSD.Application

/-!
# Runs of the Arduino application

The log accounts for every state: from a query until the responses are looked at, the nodes
that wait are the datagrams that have arrived, and where the timer or the MQTT client can
start something, the last lookup that found a broker is the one that was connected to. Behind
a look that has read everything, the client still points to the node that it has freed last.
-/

namespace NyanSD.Arduino

open LinkedHeap

/-! ## Nodes that wait to be read -/

/-- The node without its link. -/
def ListNode.alone (node : ListNode) : ListNode := { node with next := none }

/-- These nodes have arrived since the last query. The flag may be left from an earlier one. -/
structure Waiting (c : Client) (contents : List ListNode) : Prop where
  chain : ∃ nodes, Chain ListNode.next ListNode.alone c.heap c.response nodes ∧
    nodes.map Prod.snd = contents ∧ (nodes ≠ [] → c.last = nodes.getLast?.map Prod.fst)
  count : c.count = contents.length
  received : 0 < c.count → c.received = true

theorem Waiting.nil {c : Client} (hresponse : c.response = none) (hcount : c.count = 0) :
    Waiting c [] := by
  refine ⟨⟨[], ?_, rfl, nofun⟩, hcount, ?_⟩
  · rw [hresponse]
    exact .nil
  · intro hpos
    rw [hcount] at hpos
    cases hpos

/-- What comes from the queried port waits behind the others. -/
theorem Waiting.receive {c : Client} {contents : List ListNode} (hwaiting : Waiting c contents)
    {address : Address} (datagram : Bytes) (before : Nat → UInt8)
    (hfresh : c.heap address = none) :
    ∃ c', udpReceiveCallback c address datagram before c.port = .ok c' ∧
      Waiting c' (contents ++ [newNode datagram before]) := by
  obtain ⟨⟨nodes, hchain, hcontents, hlast⟩, hcount, -⟩ := hwaiting
  unfold udpReceiveCallback
  rw [if_neg (not_not.mpr rfl)]
  have hcount' : c.count + 1 = (contents ++ [newNode datagram before]).length := by
    rw [List.length_append, hcount]
    rfl
  rcases List.eq_nil_or_concat nodes with rfl | ⟨init, ⟨last, content⟩, hsplit⟩
  · -- nothing waits, whatever `last` points to
    rw [hchain.start_eq]
    refine ⟨_, rfl, ⟨[(address, newNode datagram before)], ?_, ?_, fun _ => rfl⟩, hcount',
      fun _ => rfl⟩
    · exact .cons (Function.update_self ..) .nil
    · rw [← hcontents]
      rfl
  · rw [List.concat_eq_append] at hsplit
    subst hsplit
    have hmem : last ∈ (init ++ [(last, content)]).map Prod.fst := by simp
    obtain ⟨lastNode, hlive⟩ := hchain.live hmem
    have hpointer : c.last = some last := by simpa using hlast (by simp)
    have hne : last ≠ address := by
      rintro rfl
      rw [hfresh] at hlive
      cases hlive
    have hderef : deref (Function.update c.heap address (some (newNode datagram before)))
        c.last = .ok (last, lastNode) := by
      simp [hpointer, deref, Function.update_of_ne hne, hlive]
    obtain ⟨head, hresponse⟩ : ∃ head, c.response = some head := by
      rw [← Option.ne_none_iff_exists', ne_eq, hchain.start_eq_none_iff]
      exact List.append_ne_nil_of_right_ne_nil _ (List.cons_ne_nil _ _)
    have happended : Chain ListNode.next ListNode.alone
        (Function.update (Function.update c.heap address (some (newNode datagram before))) last
          (some { lastNode with next := some address })) c.response
        (init ++ [(last, content)] ++ [(address, (newNode datagram before).alone)]) :=
      hchain.append_node hfresh hlive rfl rfl rfl
    rw [hresponse] at happended ⊢
    dsimp only
    rw [hderef]
    refine ⟨_, rfl, ⟨_, happended, ?_, fun _ => by simp⟩, hcount', fun _ => rfl⟩
    rw [List.map_append, hcontents]
    rfl

/-- The codes of a refused node are no success. -/
theorem code_ne_zero {length : Nat} {memory : Nat → UInt8} {code : Nat}
    (hparsed : (parseNode length).run memory = .error code) : code ≠ 0 := by
  rw [run_parseNode] at hparsed
  rintro rfl
  repeat' split at hparsed
  all_goals cases hparsed

/-- A refused node ends the loop with its code, and what waits is left alone. -/
theorem readNodes_error {c : Client} {nodes : List (Address × ListNode)} {address : Address}
    {node : ListNode} {code : Nat} (remaining completed : Nat) (services : List NYSDService)
    (hchain : Chain ListNode.next ListNode.alone c.heap c.response nodes)
    (hresponse : c.response = some address) (hnode : c.heap address = some node)
    (hparsed : (parseNode node.length).run node.data = .error code) :
    readNodes (remaining + 1) c completed services = .ok ⟨c, completed, some code, services⟩ ∧
      ∀ last ∈ nodes.getLast?.map Prod.fst, c.heap last ≠ none := by
  constructor
  · have hderef : deref c.heap c.response = .ok (address, node) := by
      simp [hresponse, deref, hnode]
    rw [readNodes, hderef]
    simp only [bind, Except.bind, hparsed]
  · intro last hlast
    obtain ⟨entry, hentry, rfl⟩ := Option.mem_map.mp hlast
    obtain ⟨lastNode, hlive⟩ := hchain.live (List.mem_map_of_mem (List.mem_of_getLast? hentry))
    rw [hlive]
    exact Option.some_ne_none lastNode

/-- Reading what waits never faults. It finds what the nodes hold, and if one of them is refused
the last of them stays alive. -/
theorem readNodes_answers {c : Client} {nodes : List (Address × ListNode)} (completed : Nat)
    (services : List NYSDService)
    (hchain : Chain ListNode.next ListNode.alone c.heap c.response nodes) :
    ∃ r, readNodes nodes.length c completed services = .ok r ∧ r.client.last = c.last ∧
      match readAll (nodes.map Prod.snd) with
      | .error code => r.code = some code ∧ code ≠ 0 ∧
          ∀ address ∈ nodes.getLast?.map Prod.fst, r.client.heap address ≠ none
      | .ok found => r.code = none ∧ r.services = services ++ found := by
  induction nodes generalizing c completed services with
  | nil => exact ⟨_, rfl, rfl, rfl, (List.append_nil _).symm⟩
  | cons entry rest ih =>
      obtain ⟨address, content⟩ := entry
      obtain ⟨node, hresponse, hnode, rfl⟩ := hchain.head_node
      rw [List.map_cons, readAll]
      cases hparsed : (parseNode node.length).run node.data with
      | error code =>
          obtain ⟨hread, hlive⟩ :=
            readNodes_error rest.length completed services hchain hresponse hnode hparsed
          rw [show (parseNode node.alone.length).run node.alone.data = .error code from hparsed]
          exact ⟨_, hread, rfl, rfl, code_ne_zero hparsed, hlive⟩
      | ok found =>
          rw [show (parseNode node.alone.length).run node.alone.data = .ok found from hparsed,
            List.length_cons, readNodes_ok rest.length completed services hresponse hnode hparsed]
          have hfreed := Chain.free_head hnode (hresponse ▸ hchain)
          cases hnext : node.next with
          | none =>
              -- the head stays on the node that has just been freed
              obtain rfl := hfreed.start_eq_none_iff.mp hnext
              exact ⟨_, rfl, rfl, rfl, congrArg (services ++ ·) (List.append_nil _).symm⟩
          | some following =>
              rw [hnext] at hfreed
              obtain ⟨r, hread, hlast, hanswers⟩ := @ih
                { c with heap := Function.update c.heap address none,
                         response := some following }
                (completed + 1) (services ++ found.toList) hfreed
              refine ⟨r, hread, hlast, ?_⟩
              have hrest : rest ≠ [] := by
                rintro rfl
                cases hfreed
              rw [List.getLast?_cons_of_ne_nil hrest]
              cases hall : readAll (rest.map Prod.snd) with
              | error code =>
                  rw [hall] at hanswers
                  exact hanswers
              | ok more =>
                  rw [hall] at hanswers
                  refine ⟨hanswers.1, ?_⟩
                  rw [hanswers.2, List.append_assoc]

/-- The next node would be linked behind one that has been freed. -/
def Client.Stale (c : Client) : Prop :=
  c.response ≠ none ∧ ∃ address, c.last = some address ∧ c.heap address = none

/-- All that waits has been read. -/
def Checked.exhausts : Checked → Bool
  | .noServer => true
  | .connects _ => true
  | _ => false

/-- What waits is looked at, and only the last node of what has all been read is gone. -/
theorem checkResponses_answers {c : Client} {contents : List ListNode}
    (hwaiting : Waiting c contents) :
    ∃ c', checkResponses c = .ok (c', .answers contents) ∧
      (c'.response ≠ none → c'.last ≠ none) ∧
      (c'.Stale → (Checked.answers contents).exhausts = true) := by
  obtain ⟨⟨nodes, hchain, rfl, hlast⟩, hcount, hreceived⟩ := hwaiting
  rw [List.length_map] at hcount
  unfold checkResponses
  cases nodes with
  | nil =>
      have hresponse : c.response = none := hchain.start_eq
      rw [if_pos (show c.count = 0 from hcount)]
      exact ⟨c, rfl, fun hne => absurd hresponse hne, fun hstale => absurd hresponse hstale.1⟩
  | cons entry rest =>
      have hpos : 0 < c.count := hcount ▸ Nat.succ_pos rest.length
      have hlinked : c.last = (entry :: rest).getLast?.map Prod.fst := hlast (List.cons_ne_nil _ _)
      have hsome : c.last ≠ none := by
        rw [hlinked, List.getLast?_cons]
        exact Option.some_ne_none _
      obtain ⟨r, hread, hkept, hanswers⟩ := readNodes_answers 0 [] hchain
      rw [if_neg hpos.ne', getResponses, hreceived hpos, hcount, hread]
      rw [List.map_cons] at hanswers ⊢
      unfold Checked.answers
      dsimp only
      cases hall : readAll (entry.2 :: rest.map Prod.snd) with
      | error code =>
          rw [hall] at hanswers
          obtain ⟨hcode, hne, hlive⟩ := hanswers
          refine ⟨r.client, ?_, fun _ => hkept ▸ hsome, ?_⟩
          · simp [bind, Except.bind, hcode, hne, pure, Except.pure]
          · -- the loop ended in front of the last node
            rintro ⟨-, address, haddress, hfreed⟩
            rw [hkept, hlinked] at haddress
            exact absurd hfreed (hlive address haddress)
      | ok found =>
          rw [hall] at hanswers
          obtain ⟨hcode, hservices⟩ := hanswers
          rw [List.nil_append] at hservices
          refine ⟨r.client, ?_, fun _ => hkept ▸ hsome, fun _ => ?_⟩
          · cases found with
            | nil => simp [bind, Except.bind, hcode, hservices, pure, Except.pure, Checked.of]
            | cons sv others =>
                simp [bind, Except.bind, hcode, hservices, pure, Except.pure, Checked.of]
          · cases found with
            | nil => rfl
            | cons sv others => rfl

/-! ## Datagrams that come too late -/

/-- A datagram from the queried port does harm exactly where the next node would be linked behind
one that has been freed, unless it takes the place of that one. -/
theorem udpReceiveCallback_error_iff {c : Client} {address : Address} (datagram : Bytes)
    (before : Nat → UInt8) (hlinked : c.response ≠ none → c.last ≠ none) :
    (∃ fault, udpReceiveCallback c address datagram before c.port = .error fault) ↔
      c.Stale ∧ c.last ≠ some address := by
  rw [udpReceiveCallback, if_neg (not_not.mpr rfl)]
  cases hresponse : c.response with
  | none =>
      refine iff_of_false ?_ ?_
      · rintro ⟨fault, hfault⟩
        cases hfault
      · rintro ⟨hstale, -⟩
        exact hstale.1 hresponse
  | some head =>
      obtain ⟨last, hlast⟩ := Option.ne_none_iff_exists'.mp
        (hlinked (by rw [hresponse]; exact Option.some_ne_none head))
      have hstale : c.Stale ↔ c.heap last = none := by
        simp [Client.Stale, hresponse, hlast]
      rw [hstale, hlast]
      dsimp only
      by_cases hplace : last = address
      · subst hplace
        simp [deref, bind, Except.bind]
      · rw [deref, Function.update_of_ne hplace]
        cases hlive : c.heap last with
        | none => simp [bind, Except.bind, hplace]
        | some node => simp [bind, Except.bind]

/-- Otherwise its node is the last one. -/
theorem last_of_udpReceiveCallback {c c' : Client} {address : Address} {datagram : Bytes}
    {before : Nat → UInt8}
    (hreceived : udpReceiveCallback c address datagram before c.port = .ok c') :
    c'.last = some address ∧ c'.heap address ≠ none := by
  rw [udpReceiveCallback, if_neg (not_not.mpr rfl)] at hreceived
  dsimp only at hreceived
  split at hreceived
  · cases hreceived
    refine ⟨rfl, ?_⟩
    dsimp only
    rw [Function.update_self]
    exact Option.some_ne_none _
  · cases hderef : deref (Function.update c.heap address (some (newNode datagram before)))
        c.last with
    | error fault =>
        rw [hderef] at hreceived
        cases hreceived
    | ok linked =>
        rw [hderef] at hreceived
        cases hreceived
        refine ⟨rfl, ?_⟩
        by_cases hplace : address = linked.1
        · rw [hplace]
          simp
        · simp [Function.update_of_ne hplace]

/-- The responses have all been read since the last query. -/
def exhausted : List Action → Bool
  | [] => false
  | .asked _ :: _ => false
  | .checked outcome :: _ => outcome.exhausts
  | _ :: log => exhausted log

/-! ## Runs of the application -/

/-- The MQTT client was told to connect where the last successful lookup has found a server. -/
def Connected (s : Application) : Prop :=
  foundUrl s.log = some s.mqttUrl ∧ connectedUrl s.log = some s.mqttUrl ∧ s.mqttServer = s.mqttUrl

/-- The state is what the log says. -/
structure Told (s : Application) : Prop where
  explained : Explained s.log
  due : s.procTimer = some .checkResponses → unread s.log = true
  waiting : unread s.log = true → Waiting s.client (heard s.log)
  url : s.started = true ∨ s.procTimer = some .startMqttClient ∨
    s.procTimer = some .publishMessage → Connected s
  linked : s.client.response ≠ none → s.client.last ≠ none
  stale : s.client.Stale → exhausted s.log = true

namespace Told

variable {s : Application}

theorem startMqttClient (hs : Told s) (hfound : foundUrl s.log = some s.mqttUrl) :
    Told s.startMqttClient where
  explained := .connected hs.explained hfound
  due := nofun
  waiting := hs.waiting
  url _ := ⟨hfound, rfl, rfl⟩
  linked := hs.linked
  stale := hs.stale

/-- What is published goes where the MQTT client is connected, which stays as it is. -/
theorem publish (hs : Told s) (hconnected : Connected s) :
    Told { s with log := .published s.mqttServer :: s.log } where
  explained := by
    obtain ⟨hfound, hlast, hserver⟩ := hconnected
    rw [hserver]
    exact .published hs.explained hlast hfound
  due := hs.due
  waiting := hs.waiting
  url _ := hconnected
  linked := hs.linked
  stale := hs.stale

theorem publishMessage (hs : Told s) (connected : Bool) (hconnected : Connected s) :
    Told (s.publishMessage connected) ∧ Connected (s.publishMessage connected) := by
  cases connected with
  | true => exact ⟨hs.publish hconnected, hconnected⟩
  | false =>
      have hafter : Connected s.startMqttClient := ⟨hconnected.1, rfl, rfl⟩
      exact ⟨(hs.startMqttClient hconnected.1).publish hafter, hafter⟩

theorem connectedHandler (hs : Told s) (connected : Bool) (hconnected : Connected s) :
    Told (s.connectedHandler connected) := by
  obtain ⟨hpublished, hafter⟩ := hs.publishMessage connected hconnected
  exact { hpublished with due := nofun, url := fun _ => hafter }

theorem checkMQTTDisconnect (hs : Told s) (hconnected : Connected s) :
    Told s.checkMQTTDisconnect :=
  { hs with due := nofun, url := fun _ => hconnected }

/-- A query makes all that came before it forgotten. -/
theorem onConnected (hs : Told s) (sent : Bool) : Told (s.onConnected sent) := by
  have hmsg := msg_onConnected s.client sent
  have hclient : (Arduino.onConnected s.client sent).1.client =
      { s.client with port := serverPort, response := none, count := 0 } := by
    rw [Arduino.onConnected, sendQuery_of_ne_zero s.client serverPort [mqttQuery] sent (by decide)]
  constructor
  · rw [Application.onConnected, hmsg]
    exact .asked hs.explained
  · exact fun _ => rfl
  · intro _
    rw [Application.onConnected, hclient]
    exact .nil rfl rfl
  · intro hrunning
    apply hs.url
    rcases hrunning with hstarted | htimer
    · exact .inl hstarted
    · right
      simp only [Application.onConnected] at htimer
      split at htimer
      · simp at htimer
      · -- the query could not be sent
        exact htimer
  · rw [Application.onConnected, hclient]
    exact fun hne => absurd rfl hne
  · rw [Application.onConnected, hclient]
    exact fun hstale => absurd rfl hstale.1

theorem checkResponses (hs : Told s) (hdue : s.procTimer = some .checkResponses) :
    Told s.checkResponses ∧ s.checkResponses.fault = s.fault := by
  have hunread := hs.due hdue
  obtain ⟨c, hchecked, hlinked, hstale⟩ := checkResponses_answers (hs.waiting hunread)
  have hexplained : Explained (.checked (.answers (Arduino.heard s.log)) :: s.log) :=
    .checked hs.explained hunread
  rw [Application.checkResponses, hchecked]
  dsimp only
  cases houtcome : Checked.answers (Arduino.heard s.log) with
  | connects url =>
      rw [houtcome] at hexplained hstale
      refine ⟨?_, rfl⟩
      exact ⟨.connected hexplained rfl, nofun, nofun, fun _ => ⟨rfl, rfl, rfl⟩, hlinked, hstale⟩
  | _ =>
      rw [houtcome] at hexplained hstale
      refine ⟨?_, rfl⟩
      refine ⟨hexplained, nofun, nofun, ?_, hlinked, hstale⟩
      rintro (hstarted | htimer | htimer)
      · exact hs.url (.inl hstarted)
      · cases htimer
      · cases htimer

/-- The fault of a datagram, and nothing else, is due to one that comes too late. -/
theorem udpReceiveCallback (hs : Told s) {address : Address} (datagram : Bytes)
    (before : Nat → UInt8) (remotePort : UInt16) (hfresh : s.client.heap address = none) :
    Told (s.udpReceiveCallback address datagram before remotePort) := by
  by_cases hport : remotePort = s.client.port
  · subst hport
    cases hreceived : Arduino.udpReceiveCallback s.client address datagram before s.client.port with
    | error fault =>
        rw [Application.udpReceiveCallback, hreceived]
        exact ⟨hs.explained, hs.due, hs.waiting, hs.url, hs.linked, hs.stale⟩
    | ok client =>
        obtain ⟨hlast, hlive⟩ := last_of_udpReceiveCallback hreceived
        rw [Application.udpReceiveCallback, hreceived]
        dsimp only
        rw [if_pos rfl]
        refine ⟨.heard _ hs.explained, hs.due, ?_, hs.url, ?_, ?_⟩
        · intro hunread
          obtain ⟨_, hclient, hwaiting⟩ := (hs.waiting hunread).receive datagram before hfresh
          obtain rfl := Except.ok.inj (hreceived.symm.trans hclient)
          exact hwaiting
        · intro _
          rw [hlast]
          exact Option.some_ne_none address
        · rintro ⟨-, last, hlast', hfreed⟩
          obtain rfl := Option.some.inj (hlast.symm.trans hlast')
          exact absurd hfreed hlive
  · rw [Application.udpReceiveCallback, udpReceiveCallback_other hport]
    dsimp only
    rw [if_neg hport]
    exact hs

end Told

/-- What a happening can do to the application, and when. -/
inductive Application.Step (s : Application) : Happening → Application → Prop
  | onStationGotIP (sent : Bool) : Step s (.onStationGotIP sent) (s.onConnected sent)
  | receive {address : Address} (datagram : Bytes) (before : Nat → UInt8) (remotePort : UInt16)
      (hfresh : s.client.heap address = none) :
      Step s (.receive address datagram before remotePort)
        (s.udpReceiveCallback address datagram before remotePort)
  | timer (connected : Bool) {task : Task} (htask : s.procTimer = some task) :
      Step s (.timer connected) (s.call connected task)
  | mqttConnected (connected : Bool) (hstarted : s.started = true) :
      Step s (.mqttConnected connected) (s.connectedHandler connected)
  | mqttComplete (hstarted : s.started = true) : Step s .mqttComplete s.checkMQTTDisconnect

theorem step_of_application {s s' : Application} {e : Happening}
    (hnext : application.step s e = some s') : s.fault = none ∧ s.Step e s' := by
  unfold application at hnext
  simp only at hnext
  split at hnext
  · cases hnext
  rename_i hrunning
  refine ⟨by simpa using hrunning, ?_⟩
  cases e with
  | onStationGotIP sent =>
      cases hnext
      exact .onStationGotIP sent
  | receive address datagram before remotePort =>
      simp only at hnext
      split at hnext
      · cases hnext
      rename_i hunused
      cases hnext
      exact .receive datagram before remotePort (by simpa using hunused)
  | timer connected =>
      obtain ⟨task, htask, rfl⟩ := Option.map_eq_some_iff.mp hnext
      exact .timer connected htask
  | mqttConnected connected =>
      simp only at hnext
      split at hnext
      next hstarted =>
        cases hnext
        exact .mqttConnected connected hstarted
      next => cases hnext
  | mqttComplete =>
      simp only at hnext
      split at hnext
      next hstarted =>
        cases hnext
        exact .mqttComplete hstarted
      next => cases hnext

theorem Told.step {s s' : Application} {e : Happening} (hs : Told s) (hstep : s.Step e s') :
    Told s' := by
  cases hstep with
  | onStationGotIP sent => exact hs.onConnected sent
  | receive datagram before remotePort hfresh =>
      exact hs.udpReceiveCallback datagram before remotePort hfresh
  | @timer connected task htask =>
      cases task with
      | checkResponses => exact (hs.checkResponses htask).1
      | startMqttClient => exact hs.startMqttClient (hs.url (.inr (.inl htask))).1
      | publishMessage => exact (hs.publishMessage connected (hs.url (.inr (.inr htask)))).1
  | mqttConnected connected hstarted => exact hs.connectedHandler connected (hs.url (.inl hstarted))
  | mqttComplete hstarted => exact hs.checkMQTTDisconnect (hs.url (.inl hstarted))

theorem told_of_reachable {s : Application}
    (hreach : application.Reachable (fun _ _ => True) s) : Told s := by
  apply hreach.invariant
  · refine ⟨.nil, nofun, nofun, ?_, fun hne => absurd rfl hne,
      fun hstale => absurd rfl hstale.1⟩
    rintro (hstarted | htimer | htimer)
    · cases hstarted
    · cases htimer
    · cases htimer
  · intro s e s' hs _ hnext
    exact hs.step (step_of_application hnext).2

/-- In whatever order addresses are given to the station, datagrams arrive, the timer fires and
the connection to the broker comes and goes: the responses are looked at only behind a query and
once for it at the most, it comes to what the datagrams say that have arrived since, the
application connects where the last lookup that found a server has sent it, and it publishes
where it has connected last, which is still there. -/
theorem application_explained {s : Application}
    (hreach : application.Reachable (fun _ _ => True) s) : Explained s.log :=
  (told_of_reachable hreach).explained

/-- The station gets an address, the broker of the office answers, and is connected to. -/
def brokerFound : List Happening :=
  [.onStationGotIP true, .receive 1 (respond brokerServer laptop mqtt) (fun _ => 0) serverPort,
    .timer true, .mqttConnected true]

theorem application_explained_brokerFound :
    ∃ s, application.run (fun _ _ => True) {} brokerFound = some s ∧ Explained s.log ∧
      s.log.head? = some (.published (ascii ['m', 'q', 't', 't', ':', '/', '/'] ++
        dottedQuad 192 168 1 7 ++ [colon] ++ ascii ['1', '8', '8', '3'])) := by
  have hruns : (application.run (fun _ _ => True) {} brokerFound).map (fun s => s.log.head?) =
      some (some (.published (ascii ['m', 'q', 't', 't', ':', '/', '/'] ++
        dottedQuad 192 168 1 7 ++ [colon] ++ ascii ['1', '8', '8', '3']))) := rfl
  obtain ⟨s, hrun, hlast⟩ := Option.map_eq_some_iff.mp hruns
  exact ⟨s, hrun, application_explained (Machine.reachable_of_run brokerFound hrun), hlast⟩

/-- A datagram is fatal where it comes from the queried port and the client is stale. -/
theorem Told.udpReceiveCallback_faults_iff {s : Application} (hs : Told s)
    (hrunning : s.fault = none) (address : Address) (datagram : Bytes) (before : Nat → UInt8)
    (remotePort : UInt16) :
    (s.udpReceiveCallback address datagram before remotePort).fault ≠ none ↔
      remotePort = s.client.port ∧ s.client.Stale ∧ s.client.last ≠ some address := by
  by_cases hport : remotePort = s.client.port
  · subst hport
    have hiff := @udpReceiveCallback_error_iff s.client address datagram before hs.linked
    rw [Application.udpReceiveCallback, ← hiff]
    cases Arduino.udpReceiveCallback s.client address datagram before s.client.port with
    | error fault => simp
    | ok client => simp [hrunning]
  · rw [Application.udpReceiveCallback, udpReceiveCallback_other hport]
    simp [hrunning, hport]

/-- Nothing else is. -/
theorem Told.fault_of_step {s s' : Application} {e : Happening} (hs : Told s) (hstep : s.Step e s')
    (hother : ∀ address datagram before remotePort,
      e ≠ .receive address datagram before remotePort) : s'.fault = s.fault := by
  cases hstep with
  | onStationGotIP sent => rfl
  | receive datagram before remotePort => exact absurd rfl (hother _ datagram before remotePort)
  | @timer connected task htask =>
      cases task with
      | checkResponses => exact (hs.checkResponses htask).2
      | startMqttClient => rfl
      | publishMessage =>
          cases connected with
          | true => rfl
          | false => rfl
  | mqttConnected connected =>
      cases connected with
      | true => rfl
      | false => rfl
  | mqttComplete => rfl

/-- The program follows a pointer to no node, or to one that has been freed, only on a datagram
that comes when the responses to the last query have all been read. -/
theorem faults_iff_stale {s s' : Application} {e : Happening}
    (hreach : application.Reachable (fun _ _ => True) s) (hnext : application.step s e = some s') :
    (s'.fault ≠ none ↔ ∃ address datagram before,
      e = .receive address datagram before s.client.port ∧ s.client.Stale ∧
        s.client.last ≠ some address) ∧
    (s.client.Stale → exhausted s.log = true) := by
  have hs := told_of_reachable hreach
  obtain ⟨hrunning, hstep⟩ := step_of_application hnext
  refine ⟨?_, hs.stale⟩
  cases e with
  | receive address datagram before remotePort =>
      cases hstep with
      | receive =>
          rw [hs.udpReceiveCallback_faults_iff hrunning]
          constructor
          · rintro ⟨rfl, hlate⟩
            exact ⟨address, datagram, before, rfl, hlate⟩
          · rintro ⟨_, _, _, heq, hlate⟩
            cases heq
            exact ⟨rfl, hlate⟩
  | _ =>
      rw [hs.fault_of_step hstep nofun, hrunning]
      simp

/-- A second answer, behind the first one that has been read. -/
theorem faults_iff_stale_secondAnswer :
    ∃ s s', application.run (fun _ _ => True) {} brokerFound = some s ∧
      application.step s (.receive 2 (respond brokerServer laptop mqtt) (fun _ => 0) serverPort) =
        some s' ∧ s'.fault ≠ none ∧ exhausted s.log = true := by
  have hruns : ((application.run (fun _ _ => True) {} brokerFound).bind fun s =>
      application.step s (.receive 2 (respond brokerServer laptop mqtt) (fun _ => 0)
        serverPort)).map Application.fault = some (some .freedNode) := by decide
  obtain ⟨s', hboth, hfault⟩ := Option.map_eq_some_iff.mp hruns
  obtain ⟨s, hrun, hnext⟩ := Option.bind_eq_some_iff.mp hboth
  have hne : s'.fault ≠ none := hfault ▸ Option.some_ne_none _
  have hfaults := faults_iff_stale (Machine.reachable_of_run brokerFound hrun) hnext
  obtain ⟨address, datagram, before, -, hstale, -⟩ := hfaults.1.mp hne
  exact ⟨s, s', hrun, hnext, hne, hfaults.2 hstale⟩

/-! ## What a failed lookup leaves -/

/-- With no timer and no MQTT client, all that happens is that datagrams arrive. -/
theorem idle_step {s s' : Application} {e : Happening} (htimer : s.procTimer = none)
    (hstarted : s.started = false) (hoffline : ∀ sent, e ≠ .onStationGotIP sent)
    (hstep : s.Step e s') :
    s'.procTimer = none ∧ s'.started = false ∧
      ∃ nodes : List ListNode, s'.log = nodes.map Action.heard ++ s.log := by
  cases hstep with
  | onStationGotIP sent => exact absurd rfl (hoffline sent)
  | receive datagram before remotePort hfresh =>
      rw [Application.udpReceiveCallback]
      split
      · exact ⟨htimer, hstarted, [], rfl⟩
      · refine ⟨htimer, hstarted, ?_⟩
        dsimp only
        split
        · exact ⟨[newNode datagram before], rfl⟩
        · exact ⟨[], rfl⟩
  | timer connected htask =>
      rw [htimer] at htask
      cases htask
  | mqttConnected connected hrunning =>
      rw [hstarted] at hrunning
      cases hrunning
  | mqttComplete hrunning =>
      rw [hstarted] at hrunning
      cases hrunning

/-- A lookup that finds no server is not repeated: until the station gets an address again, the
application neither asks nor connects. -/
theorem gives_up {s s' : Application} (hreach : application.Reachable (fun _ _ => True) s)
    (htimer : s.procTimer = none) (hnone : foundUrl s.log = none) {events : List Happening}
    (hoffline : ∀ e ∈ events, ∀ sent, e ≠ .onStationGotIP sent)
    (hrun : application.run (fun _ _ => True) s events = some s') :
    ∃ nodes : List ListNode, s'.log = nodes.map Action.heard ++ s.log := by
  have hstarted : s.started = false := by
    rw [← Bool.not_eq_true]
    intro hstarted
    cases hnone.symm.trans ((told_of_reachable hreach).url (.inl hstarted)).1
  clear hreach hnone
  induction events generalizing s with
  | nil =>
      obtain rfl := Option.some.inj hrun
      exact ⟨[], rfl⟩
  | cons e events ih =>
      obtain ⟨-, next, hnext, hrest⟩ := Machine.exists_of_run_cons hrun
      obtain ⟨htimer', hstarted', nodes, hlog⟩ :=
        idle_step htimer hstarted (hoffline e List.mem_cons_self) (step_of_application hnext).2
      obtain ⟨later, hlater⟩ := ih htimer'
        (fun e hmem => hoffline e (List.mem_cons_of_mem _ hmem)) hrest hstarted'
      refine ⟨later ++ nodes, ?_⟩
      rw [hlater, hlog, List.map_append, List.append_assoc]

/-- Nobody answers, and an answer comes when it is not waited for any more. -/
theorem gives_up_noAnswer :
    ∃ s s', application.run (fun _ _ => True) {} [.onStationGotIP true, .timer true] = some s ∧
      application.run (fun _ _ => True) s [.receive 1 [] (fun _ => 0) serverPort] = some s' ∧
      ∃ nodes : List ListNode, s'.log = nodes.map Action.heard ++ s.log := by
  have hruns : (application.run (fun _ _ => True) {} [.onStationGotIP true, .timer true]).map
      (fun s => (s.procTimer, foundUrl s.log, (application.run (fun _ _ => True) s
        [.receive 1 [] (fun _ => 0) serverPort]).isSome)) = some (none, none, true) := by decide
  obtain ⟨s, hrun, hs⟩ := Option.map_eq_some_iff.mp hruns
  obtain ⟨htimer, hrest⟩ := Prod.mk.inj hs
  obtain ⟨hnone, hlater⟩ := Prod.mk.inj hrest
  obtain ⟨s', hrun'⟩ := Option.isSome_iff_exists.mp hlater
  refine ⟨s, s', hrun, hrun', ?_⟩
  exact gives_up (Machine.reachable_of_run _ hrun) htimer hnone (by simp) hrun'

end NyanSD.Arduino
