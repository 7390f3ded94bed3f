-- SUMMARY: The goroutines of the broker as instruction lists: the instruction set and the handlers of `session.go`, `proto.go`, `subs.go` and `peers.go`.
import Mhub.Base.Slice
import Mhub.Proto

/-!
# Broker code

Every goroutine is a list of instructions, the rest of its code. An instruction is
one atomic step: one access to shared data, one critical section, or one channel
operation. A handler is the instruction list the source text amounts to; where the
source branches on what an instruction finds, executing that instruction puts the
instructions of the branch in front of the rest.

A loop is an instruction that puts its body and itself back. A `return` replaces
the rest of the code by the deferred function.
-/

/-- The goroutines of a broker. -/
inductive Tid where
  | inbound (c : ConnId)
  | outbound (c : ConnId)
  | heartbeat (c : ConnId) (k : Nat)
  | worker (i : Nat)
  | replay (p : Nat)
  deriving DecidableEq, Repr

/-- A message to be sent, with the number of the receipt its sender waits for. -/
structure Job where
  m : Message
  r : Option Nat
  deriving DecidableEq, Repr

inductive Instr where
  -- called from several goroutines
  | aborted
  | submit (c : ConnId) (m : Message)
  | send (c : ConnId) (j : Job)
  | trySend (c : ConnId) (j : Job)
  | submitSync (c : ConnId) (m : Message)
  | wait (r : Nat)
  | del (c : ConnId)
  -- `inboundLoop` and its handlers
  | inboundLoop (c : ConnId)
  | connectValidate (c : ConnId) (m : Connect)
  | connectLimit (c : ConnId) (m : Connect) (rc : ReturnCode)
  | addOrTakeOver (c : ConnId)
  | add (c : ConnId)
  | startHeartbeat (c : ConnId)
  | getClientStore (c : ConnId) (clientId : GoString)
  | storeReset (c : ConnId)
  | storeAll (c : ConnId)
  | redeliver (c : ConnId) (key : GoString)
  | checkIn (username : GoString)
  | connectReturn (c : ConnId) (rc : ReturnCode)
  | pour (c : ConnId)
  | closeStop (c : ConnId)
  | authorized (c : ConnId)
  | persistInbound (c : ConnId) (m : Publish)
  | post (m : Publish)
  | replicate (m : Publish)
  | countSub (c : ConnId)
  | subsAdd (c : ConnId) (topic : GoString)
  | sendRetain (c : ConnId) (topic : GoString)
  | unlock
  | uncountSub (c : ConnId)
  | unsub (c : ConnId) (topic : GoString)
  | inboundReturn (c : ConnId)
  -- the deferred function of `inboundLoop`
  | clientDisconnect (c : ConnId)
  | storeClose (c : ConnId)
  | setDead (c : ConnId)
  | closeJobs (c : ConnId)
  | onTerminate (c : ConnId)
  -- `outboundLoop`
  | outboundLoop (c : ConnId)
  | persistOutbound (c : ConnId) (m : Message)
  | encode (c : ConnId) (j : Job)
  | closeReceipt (r : Nat)
  | sent (c : ConnId) (m : Message)
  | outboundReturn (c : ConnId)
  -- the deferred function of `outboundLoop`
  | closeHeartbeat (c : ConnId)
  | closeConn (c : ConnId)
  | unsubAll (c : ConnId)
  -- `heartbeat`
  | heartbeatLoop (c : ConnId)
  -- `subscriptions.run`
  | workerLoop
  | handlePost (m : Publish)
  | deleteRetain (topic : GoString)
  | fanOut (m : Publish)
  | deliver (m : Publish) (sl : Slice) (k : Nat)
  | storeRetain (m : Publish)
  -- `peers.replay`
  | replayLoop
  deriving DecidableEq, Repr

/-! ## `doConnect` -/

/-- `incomingConn.authenticate`. -/
def authenticate (_username _passwd : GoString) : Bool := true

/-- The checks of `doConnect` that only read the message. Each one that fails
overwrites the return code. -/
def validate (cf : BrokerConfig) (m : Connect) : ReturnCode :=
  let rc := ReturnCode.accepted
  -- validate protocol name and version
  let rc :=
    if m.protocolName ≠ protocolName ∨ m.protocolVersion ≠ protocolVersion then
      .unacceptableProtocolVersion
    else rc
  -- validate client id length
  let rc :=
    if m.clientId.length < 1 ∨ m.clientId.length > maxClientIdLength then .identifierRejected
    else rc
  -- authentication
  if !cf.allowAnonymousConnect &&
      (!m.usernameFlag || m.username.isEmpty || !m.passwordFlag || m.password.isEmpty) then
    .notAuthorized
  else if m.usernameFlag && !authenticate m.username m.password then .badUsernameOrPassword
  else rc

/-- The last check of `doConnect`, against the number of current connections. -/
def checkLimit (cf : BrokerConfig) (clients : Int) (rc : ReturnCode) : ReturnCode :=
  if cf.maxConnections > 0 ∧ clients > cf.maxConnections then .serverUnavailable else rc

/-- `doConnect` after its checks. None of it depends on the return code but the
acknowledgement. -/
def connectBody (cf : BrokerConfig) (c : ConnId) (m : Connect) (rc : ReturnCode) : List Instr :=
  -- disconnect existing connections
  [.addOrTakeOver c, .add c] ++
  (if m.keepAliveTimer > 0 then [.startHeartbeat c] else []) ++
  [.getClientStore c m.clientId] ++
  (if !m.cleanSession then [.storeAll c] else [.storeReset c]) ++
  (if cf.enablePresence && !m.username.isEmpty then [.checkIn m.username] else []) ++
  [.submit c (.connAck rc), .connectReturn c rc]

def doConnect (c : ConnId) (m : Connect) : List Instr := [.connectValidate c m]

/-! ## The other handlers -/

/-- `incomingConn.stop`. -/
def stop (c : ConnId) : List Instr := [.aborted, .closeStop c]

def doPublish (c : ConnId) (m : Publish) : List Instr :=
  [.pour c, .authorized c, .persistInbound c m, .post m, .replicate m] ++
  (if m.qosLevel = .atLeastOnce then [.submit c (.pubAck ⟨.atMostOnce, m.messageId⟩)] else [])

def doPublishAck (_c : ConnId) (_m : PubAck) : List Instr := []

def doSubscribe (c : ConnId) (m : Subscribe) : List Instr :=
  [.authorized c] ++
  m.topics.flatMap (fun tq => [.countSub c, .subsAdd c tq.1]) ++
  [.submit c (.subAck m.messageId (m.topics.map fun _ => .atMostOnce))] ++
  -- process retained messages
  m.topics.map (fun tq => .sendRetain c tq.1)

def doUnsubscribe (c : ConnId) (m : Unsubscribe) : List Instr :=
  m.topics.flatMap (fun t => [.uncountSub c, .unsub c t]) ++
  [.submit c (.unsubAck m.messageId)]

/-- The `switch` of `inboundLoop`. -/
def handle (c : ConnId) : Packet → List Instr
  | .connect m => doConnect c m
  | .publish _ m => doPublish c m
  | .subscribe m => doSubscribe c m
  | .unsubscribe m => doUnsubscribe c m
  | .pubAck m => doPublishAck c m
  | .pingReq => [.submit c .pingResp]
  | .disconnect => [.inboundReturn c]
  | .other => [.inboundReturn c]

/-- The deferred function of `inboundLoop`. -/
def inboundDefer (c : ConnId) : List Instr :=
  [.clientDisconnect c, .storeClose c, .setDead c, .closeJobs c, .onTerminate c]

/-! ## `outboundLoop` -/

/-- What `outboundLoop` does with a job. -/
def handleJob (c : ConnId) (j : Job) : List Instr := [.persistOutbound c j.m, .encode c j]

/-- What `outboundLoop` does once a message was encoded: notify the sender that this
message is sent, also when it could not be. -/
def encoded (c : ConnId) (j : Job) (ok : Bool) : List Instr :=
  (match j.r with
    | some r => [.closeReceipt r]
    | none => []) ++
  [if ok then .sent c j.m else .outboundReturn c]

/-- The deferred function of `outboundLoop`. -/
def outboundDefer (c : ConnId) : List Instr :=
  [.closeHeartbeat c, .closeConn c, .del c, .unsubAll c]

/-! ## `subscriptions.run` -/

/-- The body of the loop over the subscribers. -/
def submitEntry (m : Publish) : Option ConnId → List Instr
  | some c => [.submit c (.publish m)]
  | none => []

/-- What a worker does with a post that deletes no retained message. -/
def handleLive (m : Publish) (isRetain : Bool) : List Instr :=
  .fanOut m :: if isRetain then [.storeRetain m] else []
