import NyanSD.Broker

/-!
# The Arduino application

One timer drives the application. It is set when the station gets an address, and whenever the
connection to the broker comes up or goes down, and whoever sets it last decides what happens
next; datagrams arrive in between. The library calls one handler at a time, and those of the
MQTT client only once they have been set.
-/

namespace NyanSD.Arduino

open LinkedHeap

/-! ## The handlers -/

/-- What the timer is set to call. -/
inductive Task
  | checkResponses
  | startMqttClient
  | publishMessage
deriving DecidableEq, Repr

/-- What the application does, and what it keeps of what it receives. -/
inductive Action
  | asked (msg : Option Bytes)
  | heard (node : ListNode)
  | checked (outcome : Checked)
  | connected (url : Bytes)
  | published (url : Bytes)

structure Application where
  client : Client := {}
  procTimer : Option Task := none
  mqttUrl : Bytes := []
  /-- Where the MQTT client has been told to connect last, and so where it publishes. -/
  mqttServer : Bytes := []
  /-- The handlers of the MQTT client have been set. -/
  started : Bool := false
  fault : Option Fault := none
  /-- The last action first. Nothing reads it. -/
  log : List Action := []

namespace Application

variable (s : Application)

def startMqttClient : Application :=
  { s with procTimer := none, mqttServer := s.mqttUrl, started := true
           log := .connected s.mqttUrl :: s.log }

/-- `connected` is what the MQTT client says about its connection. -/
def publishMessage (connected : Bool) : Application :=
  -- reconnecting stops the timer that called this
  let s := if connected then s else s.startMqttClient
  { s with log := .published s.mqttServer :: s.log }

/-- What `startMqttClient` has the MQTT client call when it is connected. -/
def connectedHandler (connected : Bool) : Application :=
  { s.publishMessage connected with procTimer := some .publishMessage }

def checkMQTTDisconnect : Application := { s with procTimer := some .startMqttClient }

/-- A query that could not be sent leaves the timer as it was. -/
def onConnected (sent : Bool) : Application :=
  let r := Arduino.onConnected s.client sent
  { s with client := r.1.client
           procTimer := if r.2 then some .checkResponses else s.procTimer
           log := .asked r.1.msg :: s.log }

def checkResponses : Application :=
  match Arduino.checkResponses s.client with
  | .error fault => { s with fault := some fault }
  | .ok (client, outcome) =>
      let s := { s with client := client, procTimer := none, log := .checked outcome :: s.log }
      match outcome with
      | .connects url => startMqttClient { s with mqttUrl := url }
      | _ => s

def udpReceiveCallback (address : Address) (datagram : Bytes) (before : Nat → UInt8)
    (remotePort : UInt16) : Application :=
  match Arduino.udpReceiveCallback s.client address datagram before remotePort with
  | .error fault => { s with fault := some fault }
  | .ok client =>
      { s with client := client
               log := if remotePort = s.client.port then .heard (newNode datagram before) :: s.log
                 else s.log }

/-- The timer goes on until it is stopped. -/
def call (connected : Bool) : Task → Application
  | .checkResponses => s.checkResponses
  | .startMqttClient => s.startMqttClient
  | .publishMessage => s.publishMessage connected

end Application

inductive Happening
  | onStationGotIP (sent : Bool)
  | receive (address : Address) (datagram : Bytes) (before : Nat → UInt8) (remotePort : UInt16)
  | timer (connected : Bool)
  | mqttConnected (connected : Bool)
  | mqttComplete

/-- Memory is only handed out where no node lives, and nothing is called after a fault. -/
def application : Machine Application Happening where
  initial := {}
  step s e :=
    if s.fault.isSome then none
    else
      match e with
      | .onStationGotIP sent => some (s.onConnected sent)
      | .receive address datagram before remotePort =>
          if (s.client.heap address).isSome then none
          else some (s.udpReceiveCallback address datagram before remotePort)
      | .timer connected => s.procTimer.map (s.call connected)
      | .mqttConnected connected => if s.started then some (s.connectedHandler connected) else none
      | .mqttComplete => if s.started then some s.checkMQTTDisconnect else none

/-! ## What it should do -/

/-- What the nodes hold, in their order, up to the first that is refused. -/
def readAll : List ListNode → Except Nat (List NYSDService)
  | [] => .ok []
  | node :: rest =>
      match (parseNode node.length).run node.data with
      | .error code => .error code
      | .ok found => (readAll rest).map (found.toList ++ ·)

/-- What it comes to when these nodes have arrived. -/
def Checked.answers (nodes : List ListNode) : Checked :=
  match nodes with
  | [] => .noResponse
  | _ :: _ =>
      match readAll nodes with
      | .error code => .failed code
      | .ok services => .of services

/-- What has arrived since the last query. -/
def heard : List Action → List ListNode
  | [] => []
  | .asked _ :: _ => []
  | .heard node :: log => heard log ++ [node]
  | _ :: log => heard log

/-- There has been a query, and the responses have not been looked at since the last one. -/
def unread : List Action → Bool
  | [] => false
  | .asked _ :: _ => true
  | .checked _ :: _ => false
  | _ :: log => unread log

/-- The URL that the last successful lookup has found. -/
def foundUrl : List Action → Option Bytes
  | [] => none
  | .checked (.connects url) :: _ => some url
  | _ :: log => foundUrl log

/-- The URL that was connected to last. -/
def connectedUrl : List Action → Option Bytes
  | [] => none
  | .connected url :: _ => some url
  | _ :: log => connectedUrl log

/-- Every action in the log has its reason in what is in front of it. -/
inductive Explained : List Action → Prop
  | nil : Explained []
  | asked {log : List Action} : Explained log →
      Explained (.asked (some (Wire.broadcast [⟨.all, mqtt⟩])) :: log)
  | heard {log : List Action} (node : ListNode) : Explained log → Explained (.heard node :: log)
  | checked {log : List Action} : Explained log → unread log = true →
      Explained (.checked (.answers (heard log)) :: log)
  | connected {log : List Action} {url : Bytes} : Explained log → foundUrl log = some url →
      Explained (.connected url :: log)
  | published {log : List Action} {url : Bytes} : Explained log → connectedUrl log = some url →
      foundUrl log = some url → Explained (.published url :: log)

end NyanSD.Arduino
