-- SUMMARY: Strings, MQTT messages, return codes and the broker configuration, as far as the broker reads them.
import Mathlib.Data.List.Basic

/-!
# Messages and configuration

The message types come from a codec package that is not part of the repository;
the fields kept here are those the broker reads or writes.

A `Publish` is handed around by reference: the publisher's handler, the
subscription workers, the queues and the stores hold the same object. The only
field that is written after decoding is the `Retain` bit of the header, which a
worker clears in place. So a `Publish` value is the reference `obj` together with
the fields that never change, and the `Retain` bits live in the broker state.
-/

/-- A Go string: any sequence of bytes. -/
abbrev GoString := List UInt8

/-- An `incomingConn` is referred to by its number in the order of `Accept`. -/
abbrev ConnId := Nat

/-- A string literal of the source. -/
def str (s : String) : GoString := s.toUTF8.toList

inductive QosLevel where
  | atMostOnce
  | atLeastOnce
  | exactlyOnce
  deriving DecidableEq, Repr

inductive ReturnCode where
  | accepted
  | unacceptableProtocolVersion
  | identifierRejected
  | serverUnavailable
  | badUsernameOrPassword
  | notAuthorized
  deriving DecidableEq, Repr

structure Connect where
  protocolName : GoString
  protocolVersion : UInt8
  clientId : GoString
  cleanSession : Bool
  keepAliveTimer : UInt16
  usernameFlag : Bool
  passwordFlag : Bool
  username : GoString
  password : GoString
  deriving DecidableEq, Repr

/-- The CONNECT of a client that gives its name and asks for nothing else. -/
def Connect.named (clientId : GoString) : Connect where
  protocolName := str "MQIsdp"
  protocolVersion := 3
  clientId
  cleanSession := true
  keepAliveTimer := 0
  usernameFlag := false
  passwordFlag := false
  username := []
  password := []

structure Publish where
  obj : Nat
  qosLevel : QosLevel
  topicName : GoString
  messageId : UInt16
  payload : List UInt8
  deriving DecidableEq, Repr

structure PubAck where
  qosLevel : QosLevel
  messageId : UInt16
  deriving DecidableEq, Repr

structure Subscribe where
  messageId : UInt16
  topics : List (GoString × QosLevel)
  deriving DecidableEq, Repr

structure Unsubscribe where
  messageId : UInt16
  topics : List GoString
  deriving DecidableEq, Repr

/-- What `DecodeOneMessage` returns. A `Publish` is a new object, whose `Retain`
bit is given next to it. The types the broker's `switch` does not name are `other`. -/
inductive Packet where
  | connect (m : Connect)
  | publish (retain : Bool) (m : Publish)
  | pubAck (m : PubAck)
  | subscribe (m : Subscribe)
  | unsubscribe (m : Unsubscribe)
  | pingReq
  | disconnect
  | other
  deriving DecidableEq, Repr

/-- The `Retain` bit of a decoded message. -/
def Packet.retain : Packet → Bool
  | .publish retain _ => retain
  | _ => false

/-- The message as an object of its own. -/
def Packet.at (obj : Nat) : Packet → Packet
  | .publish retain m => .publish retain { m with obj }
  | p => p

theorem Packet.at_eq_connect {p : Packet} {obj : Nat} {m : Connect} :
    p.at obj = .connect m ↔ p = .connect m := by
  cases p <;> simp [Packet.at]

/-- The messages the broker queues for a client or keeps in a store. -/
inductive Message where
  | connAck (returnCode : ReturnCode)
  | publish (m : Publish)
  | pubAck (m : PubAck)
  | subAck (messageId : UInt16) (topicsQos : List QosLevel)
  | unsubAck (messageId : UInt16)
  | pingResp
  | disconnect
  deriving DecidableEq, Repr

def Message.isPublish : Message → Bool
  | .publish _ => true
  | _ => false

/-! ## Constants -/

def protocolName : GoString := str "MQIsdp"
def protocolVersion : UInt8 := 3
def maxClientIdLength : Nat := 23

/-- The byte of `SLASH`. -/
def slash : UInt8 := 0x2F

/-! ## Configuration -/

def bufferOverflowBlock : GoString := str "block"

/-- The part of `BrokerConfig` that decides what the broker does. Lengths given to
`make(chan ...)` cannot be negative. The defaults are those of `loadConfig`. -/
structure BrokerConfig where
  enablePresence : Bool := false
  maxConnections : Int := 50000
  buffOverflowStrategy : GoString := bufferOverflowBlock
  allowAnonymousConnect : Bool := false
  clientOutboundQueueLen : Nat := 100
  subscriptionsWorkers : Nat := 10
  subscriptionsQueueLen : Nat := 500
  clientMaxSubscriptions : Int := 20
  deriving DecidableEq, Repr

