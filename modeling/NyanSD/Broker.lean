import NyanSD.AddressRoundTrip
import NyanSD.ServiceFiles
import NyanSD.TwoClients

/-!
# Finding a broker

The Arduino application asks for MQTT servers when it is online, and half a second later it
connects to the first one of which it has heard. What it queued before it asked is lost, and
what its flag says is stale, but it looks at the count first, so neither is in the way.
-/

namespace NyanSD.Arduino

open StdString

/-- `ipv4_uintToString` of the Arduino client. -/
def ipv4UintToString (ipv4 : UInt32) : Bytes :=
  match objectBytes .le ipv4 with
  | [o0, o1, o2, o3] => dottedQuad o0 o1 o2 o3
  | _ => []

/-- It prints what the desktop client prints on such a host. -/
theorem ipv4UintToString_eq (ipv4 : UInt32) :
    ipv4UintToString ipv4 = NyanSD.ipv4UintToString .le ipv4 := by
  obtain ⟨o0, o1, o2, o3, hoctets⟩ : ∃ o0 o1 o2 o3, objectBytes .le ipv4 = [o0, o1, o2, o3] := by
    have hlength := length_objectBytes .le ipv4
    generalize objectBytes .le ipv4 = octets at hlength
    match octets, hlength with
    | [o0, o1, o2, o3], _ => exact ⟨o0, o1, o2, o3, rfl⟩
  rw [ipv4UintToString_of_octets hoctets, ipv4UintToString, hoctets]

/-! ## The application -/

def mqtt : Bytes := ascii ['m', 'q', 't', 't']

def mqttQuery : Query := ⟨.all, ⟨mqtt, by decide⟩, 4⟩

def mqttUrl (sv : NYSDService) : Bytes :=
  ascii ['m', 'q', 't', 't', ':', '/', '/'] ++ ipv4UintToString sv.ipv4 ++ [colon] ++
    decimal sv.port.toNat

/-- The port of the servers. -/
def serverPort : UInt16 := 11310

/-- `onConnected`, and whether it sets the timer for `checkResponses`. -/
def onConnected (c : Client) (sent : Bool) : QuerySent × Bool :=
  let r := sendQuery c serverPort [mqttQuery] 1 sent
  (r, r.code = 0)

/-- Where `checkResponses` ends. -/
inductive Checked
  | noResponse
  | failed (code : Nat)
  | noServer
  | nullPointer
  | connects (url : Bytes)
deriving DecidableEq, Repr

/-- `resnum` and `responses` are zero where `getResponses` does not set them. -/
def checkResponses (c : Client) : Except Fault (Client × Checked) :=
  if c.count = 0 then .ok (c, .noResponse)
  else do
    let r ← getResponses c
    if r.code ≠ 0 then return (r.client, .failed r.code)
    else if r.resnum.getD 0 = 0 then return (r.client, .noServer)
    else
      match r.services with
      | [] => return (r.client, .nullPointer)
      | sv :: _ => return (r.client, .connects (mqttUrl sv))

/-- What it comes to when these are the services found in the responses. -/
def Checked.of (services : List NYSDService) : Checked :=
  match services with
  | [] => .noServer
  | sv :: _ => .connects (mqttUrl sv)

/-! ## A round of the application -/

/-- The first datagram behind a query starts a queue, whatever the client held before. -/
theorem queue_first {c : Client} (address : Address) (datagram : Bytes) (before : Nat → UInt8)
    (hresponse : c.response = none) (hcount : c.count = 0) :
    ∃ c', udpReceiveCallback c address datagram before c.port = .ok c' ∧ c'.port = c.port ∧
      Queue c' [(address, datagram)] := by
  have hchain : DatagramChain (Function.update c.heap address (some (newNode datagram before)))
      (some address) [(address, (newNode datagram before).datagram)] :=
    .cons (Function.update_self ..) .nil
  rw [datagram_newNode] at hchain
  rw [udpReceiveCallback, if_neg (not_not.mpr rfl), hresponse]
  exact ⟨_, rfl, rfl, hchain, fun _ => rfl, congrArg (· + 1) hcount, by simp⟩

/-- After a query, what arrives from the servers is queued, whatever the client held before. -/
theorem queue_of_round {s s' : Session} {r : Reception} {rest : List Reception}
    (hrun : session.run (fun _ _ => True) s (.sendQuery serverPort [mqttQuery] 1 true ::
      (r :: rest).map (Reception.call serverPort)) = some s') :
    ∃ nodes, Queue s'.client nodes ∧
      nodes.map Prod.snd = (r :: rest).map fun r => r.message.encode := by
  obtain ⟨-, asked, hasked, hreceived⟩ := Machine.exists_of_run_cons hrun
  have hclient : asked.client =
      { s.client with port := serverPort, response := none, count := 0 } := by
    obtain ⟨-, hstep⟩ := step_of_session hasked
    cases hstep with
    | sendQuery => rw [sendQuery_of_ne_zero s.client serverPort [mqttQuery] true (by decide)]
  obtain ⟨-, next, hnext, hrest⟩ := Machine.exists_of_run_cons hreceived
  have hport : asked.client.port = serverPort := by rw [hclient]
  obtain ⟨c', hfirst, hsame, hqueue⟩ := queue_first r.address r.message.encode r.block
    (show asked.client.response = none by rw [hclient]) (by rw [hclient])
  rw [hport] at hfirst hsame
  obtain ⟨-, hstep⟩ := step_of_session hnext
  cases hstep with
  | receiveFault _ hfault => cases hfault.symm.trans hfirst
  | receive _ hreceived =>
      obtain rfl := Except.ok.inj (hreceived.symm.trans hfirst)
      obtain ⟨more, hmore, hdatagrams⟩ := queue_of_receives hqueue hsame hrest
      exact ⟨_, hmore, by rw [List.map_append, hdatagrams]; rfl⟩

/-- In whatever state the application asks, it connects to the first service in the responses
that arrive, and finds no server if there is none in them. -/
theorem checkResponses_messages {s s' : Session} {receptions : List Reception}
    (hrun : session.run (fun _ _ => True) s (.sendQuery serverPort [mqttQuery] 1 true ::
      receptions.map (Reception.call serverPort)) = some s') :
    ∃ c, checkResponses s'.client = .ok (c,
      if receptions = [] then .noResponse
      else .of (receptions.flatMap fun r => r.message.services.take 1)) := by
  cases receptions with
  | nil =>
      obtain ⟨-, asked, hasked, hrest⟩ := Machine.exists_of_run_cons hrun
      obtain rfl := Option.some.inj hrest
      obtain ⟨-, hstep⟩ := step_of_session hasked
      cases hstep with
      | sendQuery =>
          rw [sendQuery_of_ne_zero s.client serverPort [mqttQuery] true (by decide)]
          exact ⟨_, rfl⟩
  | cons r rest =>
      obtain ⟨nodes, hqueue, hnodes⟩ := queue_of_round hrun
      have hcount : s'.client.count ≠ 0 := by
        have hlength := congrArg List.length hnodes
        rw [List.length_map, List.length_map] at hlength
        rw [hqueue.count, hlength]
        exact Nat.succ_ne_zero _
      obtain ⟨read, hread, hcode, hservices, hresnum⟩ :=
        getResponses_messages (List.cons_ne_nil r rest) hqueue hnodes
      refine ⟨read.client, ?_⟩
      rw [checkResponses, if_neg hcount, hread, if_neg (List.cons_ne_nil r rest), ← hservices]
      dsimp only [bind, Except.bind, pure, Except.pure]
      rw [if_neg (not_not.mpr hcode), hresnum, Option.getD_some]
      cases read.services with
      | nil => rfl
      | cons sv others => rfl

/-! ## From the service files -/

/-- A reply that fits is a message, however it is received. -/
theorem exists_responseMessage {reply : Reply} (hanswerable : reply.Answerable)
    (hfits : reply.Fits) :
    ∃ m : Wire.ResponseMessage, m.encode = reply.message ∧ m.services = reply.records := by
  have hmessage : reply.message = Wire.response reply.records :=
    respond_of_filled hanswerable.filled
  have htotal := Wire.length_response reply.records
  have hcount := Wire.length_le_length_sections reply.records
  rw [Reply.Fits, hmessage, receiveSize] at hfits
  have hfields : ∀ sv ∈ reply.records, Wire.Fits sv := by
    intro sv hmem
    have hsection : (Wire.serviceSection sv).length ≤
        (reply.records.flatMap Wire.serviceSection).length :=
      Wire.length_le_length_flatMap hmem
    have hipv6 := hanswerable.ipv6 sv hmem
    exact Wire.fits_of_length_section (by omega) (by omega)
  exact ⟨⟨reply.records, hfields, by omega, by omega⟩, hmessage.symm, rfl⟩

/-- The application asks with one query, for everything that is named like it. -/
theorem msg_onConnected (c : Client) (sent : Bool) :
    (onConnected c sent).1.msg = some (Wire.broadcast [⟨.all, mqtt⟩]) := by
  have hmessage : composeQuery [mqttQuery] 1 = Wire.broadcast [⟨.all, mqtt⟩] := by decide
  rw [onConnected, sendQuery_of_ne_zero c serverPort [mqttQuery] sent (by decide), hmessage]

open Daemon in
/-- The application connects to the address and the port of the first MQTT server that is
described in the service files of a daemon, if the answer arrives whole and the daemon has an
address for every service that is described without one. A big-endian daemon gives the octets
of the address in reverse. -/
theorem connects_to_described {files : List (List Description)}
    (hfiles : ∀ file ∈ files, SoundFile file) {host : BBEndianness} {hostName : Bytes}
    {server : Server} {sender : SocketAddress}
    (hservices : server.services = (addServices host hostName (files.map fileOf)).services)
    (haddresses : ∀ d ∈ files.flatten, (d.service host).ipv4 ≠ 0 ∨ LookupSucceeds server sender)
    (hfits : (respond server sender mqtt).length ≤ receiveSize) {d : Description}
    (hfirst : ((files.flatMap inOrder).filter fun d => d.name = mqtt).head? = some d)
    {x y z w : UInt8} (hipv4 : d.ipv4 = some (x, y, z, w))
    (hnonzero : ofObjectBytes host [x, y, z, w] ≠ (0 : UInt32)) {s s' : Session}
    {address : Address} {block buffer : Nat → UInt8}
    (hrun : session.run (fun _ _ => True) s [.sendQuery serverPort [mqttQuery] 1 true,
      .receive address (respond server sender mqtt) block serverPort] = some s') :
    ∃ msg c, (onConnected s.client true).1.msg = some msg ∧
      (clientHandler server sender msg buffer).sent = [respond server sender mqtt] ∧
      checkResponses s'.client = .ok (c, .connects (ascii ['m', 'q', 't', 't', ':', '/', '/'] ++
        (if host = .le then dottedQuad x y z w else dottedQuad w z y x) ++ [colon] ++
          decimal d.port.toNat)) := by
  have hrecords := hservices.trans (addServices_files hfiles host hostName).2
  have hanswerable : Reply.Answerable ⟨server, sender, mqtt⟩ :=
    Reply.answerable (known_of_files hfiles hservices haddresses)
  -- the query is heard, and answered once
  let message : Wire.QueryMessage := ⟨[⟨.all, mqtt⟩], by decide, by decide, by decide, by decide⟩
  have hsent := sent_broadcast server sender message buffer (by decide)
  -- the first section of the answer is the first description of that name
  obtain ⟨m, hencode, hm⟩ := exists_responseMessage hanswerable hfits
  have hnamed : (fun d : Description => decide (mqtt = [] ∨ d.name = mqtt)) =
      fun d => decide (d.name = mqtt) := by
    funext d
    have hne : mqtt ≠ [] := by decide
    simp [hne]
  obtain ⟨rest, hsplit⟩ := List.head?_eq_some_iff.mp hfirst
  have hipv4eq : (d.record host hostName).ipv4 = ofObjectBytes host [x, y, z, w] := by
    rw [Description.record, Registration.record_eq]
    simp [Description.service, hipv4]
  have htaken : m.services.take 1 = [d.record host hostName] := by
    rw [hm, Reply.records, Reply.selected, selected_records server host hostName mqtt hrecords,
      hnamed, hsplit, List.map_cons,
      List.filterMap_cons_some (filledIn_of_ipv4_ne_zero server sender (hipv4eq ▸ hnonzero))]
    rfl
  obtain ⟨c, hchecked⟩ := @checkResponses_messages s s' [⟨m, address, block, fun _ => 0⟩] (by
    rw [List.map_singleton, Reception.call, hencode]
    exact hrun)
  refine ⟨message.encode, c, msg_onConnected s.client true, hsent, ?_⟩
  rw [hchecked, if_neg (List.cons_ne_nil _ _), List.flatMap_singleton, htaken, Checked.of, mqttUrl,
    ipv4UintToString_eq, hipv4eq, ipv4UintToString_ofObjectBytes, Description.record,
    Registration.record_eq]
  rfl

/-- The MQTT server of an office, and the daemon that describes it. -/
def brokerFile : List Daemon.Description :=
  [⟨ascii ['B'], mqtt, 1883, .tcp, [], some (192, 168, 1, 7), []⟩]

def brokerServer : Server :=
  serverOf .le [{ ipv4 := 0x0701A8C0, port := 1883, hostname := ascii ['p', 'c'], service := mqtt,
                  protocol := .tcp }]

theorem connects_to_described_brokerFile :
    ∃ s' c, session.run (fun _ _ => True) {} [.sendQuery serverPort [mqttQuery] 1 true,
        .receive 1 (respond brokerServer laptop mqtt) (fun _ => 0) serverPort] = some s' ∧
      checkResponses s'.client = .ok (c, .connects
        (ascii ['m', 'q', 't', 't', ':', '/', '/'] ++ dottedQuad 192 168 1 7 ++ [colon] ++
          ascii ['1', '8', '8', '3'])) := by
  have hsound : Daemon.SoundFile brokerFile := by
    constructor
    · intro d hmem
      rw [List.mem_singleton.mp hmem]
      exact ⟨by decide, by decide, by decide⟩
    · exact List.pairwise_singleton _ _
  have hfiles := List.forall_mem_singleton.mpr hsound
  have horder : [brokerFile].flatMap Daemon.inOrder = brokerFile :=
    (List.flatMap_singleton ..).trans (List.mergeSort_of_pairwise (List.pairwise_singleton _ _))
  have hservices : brokerServer.services =
      (Daemon.addServices .le (ascii ['p', 'c']) ([brokerFile].map Daemon.fileOf)).services := by
    rw [(Daemon.addServices_files hfiles .le _).2, horder]
    decide
  obtain ⟨s', hrun⟩ := Option.isSome_iff_exists.mp (show (session.run (fun _ _ => True) {}
    [.sendQuery serverPort [mqttQuery] 1 true,
      .receive 1 (respond brokerServer laptop mqtt) (fun _ => 0) serverPort]).isSome by decide)
  obtain ⟨-, c, -, -, hchecked⟩ := @connects_to_described [brokerFile] hfiles .le (ascii ['p', 'c'])
    brokerServer laptop hservices
    (by
      intro d hmem
      rw [List.flatten_singleton] at hmem
      rw [List.mem_singleton.mp hmem]
      exact .inl (by decide)) (by decide) _
    (by rw [horder]; rfl) 192 168 1 7 rfl (by decide) {} s' 1 (fun _ => 0) (fun _ => 0) hrun
  have hport : decimal (1883 : UInt16).toNat = ascii ['1', '8', '8', '3'] := by decide
  exact ⟨s', c, hrun, hport ▸ hchecked⟩

end NyanSD.Arduino
