-- SUMMARY: The state of a running broker: connections, registry, stores, index, workers' channel, statistics, and the log of what happened.
import Mathlib.Logic.Function.Basic
import Mhub.Routing
import Mhub.Store
import Mhub.Broker.Code

/-!
# Broker state

One record holds everything the goroutines share, and what is left of each
goroutine's code. Maps that the code only looks up are functions.

`trace` records what happened, in order. No instruction reads it; the results
about whole runs are stated on it.
-/

/-- An `incomingConn`. A channel field is its buffer and whether it is closed. The
times a connection keeps are only read by the keep-alive deadline, whose outcome is
a choice of the step. -/
structure Conn where
  flag : Option Connect := none
  alive : Bool := true
  jobs : List Job := []
  jobsClosed : Bool := false
  stopClosed : Bool := false
  heartbeatClosed : Bool := false
  connClosed : Bool := false
  /-- The client id whose store `getClientStore` returned. -/
  store : Option GoString := none
  subN : Int := 0
  /-- The number of heartbeat goroutines started. -/
  heartbeats : Nat := 0

structure Stats where
  clients : Int := 0
  sessions : Int := 0
  aborts : Int := 0

/-- What stops the process. -/
inductive Panic where
  | nilDeref (c : ConnId)
  | sendOnClosed (c : ConnId)
  | closeOfClosedStop (c : ConnId)
  | closeOfClosedJobs (c : ConnId)
  | closeOfClosedHeartbeat (c : ConnId)
  | indexOutOfRange (c : ConnId)
  deriving DecidableEq, Repr

inductive Event where
  /-- `clientConnect` has run for a new connection. -/
  | accepted (c : ConnId)
  | received (c : ConnId) (p : Packet)
  | connectReturned (c : ConnId) (rc : ReturnCode)
  /-- `clientDisconnect` has run. -/
  | disconnected (c : ConnId)
  /-- `c.submit(m)` was called. -/
  | submitted (t : Tid) (c : ConnId) (m : Message)
  /-- A message was put into the jobs queue. -/
  | queued (t : Tid) (c : ConnId) (m : Message)
  | encoded (c : ConnId) (m : Message) (retain : Bool) (ok : Bool)
  | posted (m : Publish)
  | replicated (m : Publish)
  /-- A worker begins to handle a post that arrived with this `Retain` bit. -/
  | taken (i : Tid) (m : Publish) (isRetain : Bool)
  /-- The subscribers list a worker computed. -/
  | fannedOut (i : Tid) (m : Publish) (list : List (Option ConnId))
  /-- The entry the worker's loop read at an index. -/
  | slot (i : Tid) (m : Publish) (k : Nat) (entry : Option ConnId)
  /-- The worker's loop over the subscribers list is over. -/
  | delivered (i : Tid) (m : Publish)
  | index (k : Call)
  deriving DecidableEq, Repr

structure State where
  conns : ConnId → Conn := fun _ => {}
  nconns : Nat := 0
  npeers : Nat := 0
  code : Tid → List Instr
  clients : GoString → Option ConnId := fun _ => none
  clientStores : GoString → Option MemoryStore := fun _ => none
  /-- The users with a presence record. -/
  presence : GoString → Bool := fun _ => false
  subs : Subscriptions := Subscriptions.empty
  /-- The holder of `subs.mu`, when it is held over a blocking call. -/
  subsMu : Option Tid := none
  posts : List Publish := []
  stats : Stats := {}
  /-- The `Retain` bits of the `Publish` objects. -/
  retainBit : Nat → Bool := fun _ => false
  nextObj : Nat := 0
  nextReceipt : Nat := 0
  /-- The receipts that are closed. -/
  receipts : Nat → Bool := fun _ => false
  panicked : Option Panic := none
  trace : List Event := []

namespace State

def setCode (s : State) (t : Tid) (is : List Instr) : State :=
  { s with code := Function.update s.code t is }

def modConn (s : State) (c : ConnId) (f : Conn → Conn) : State :=
  { s with conns := Function.update s.conns c (f (s.conns c)) }

def log (s : State) (e : Event) : State := { s with trace := s.trace ++ [e] }

def panicWith (s : State) (p : Panic) : State := { s with panicked := some p }

/-- Change the contents of a client's store. -/
def modStore (s : State) (id : GoString) (f : MemoryStore → MemoryStore) : State :=
  { s with clientStores := Function.update s.clientStores id ((s.clientStores id).map f) }

/-- A decoded message is a new object. -/
def alloc (s : State) (p : Packet) : State :=
  { s with
    retainBit := Function.update s.retainBit s.nextObj p.retain
    nextObj := s.nextObj + 1 }

/-- Put a job into the queue of a connection: into the buffer, or into the hands of
`outboundLoop` if the channel has no buffer. `none` when the sender has to wait. -/
def enqueue (s : State) (cf : BrokerConfig) (t : Tid) (c : ConnId) (j : Job) : Option State :=
  if (s.conns c).jobs.length < cf.clientOutboundQueueLen then
    some ((s.modConn c fun k => { k with jobs := k.jobs ++ [j] }).log (.queued t c j.m))
  else if cf.clientOutboundQueueLen = 0 then
    match s.code (.outbound c) with
    | i :: rest =>
      if i = .outboundLoop c then
        some ((s.setCode (.outbound c) (handleJob c j ++ [.outboundLoop c] ++ rest)).log
          (.queued t c j.m))
      else none
    | [] => none
  else none

theorem enqueue_eq_some {s s' : State} {cf : BrokerConfig} {t : Tid} {c : ConnId} {j : Job}
    (h : s.enqueue cf t c j = some s') :
    (s.conns c).jobs.length < cf.clientOutboundQueueLen ∧
      s' = (s.modConn c fun k => { k with jobs := k.jobs ++ [j] }).log (.queued t c j.m) ∨
    cf.clientOutboundQueueLen = 0 ∧ ∃ rest, s.code (.outbound c) = Instr.outboundLoop c :: rest ∧
      s' = (s.setCode (.outbound c) (handleJob c j ++ [Instr.outboundLoop c] ++ rest)).log
        (.queued t c j.m) := by
  simp only [enqueue] at h
  repeat' split at h
  all_goals cases h
  · exact .inl ⟨‹_›, rfl⟩
  · rename_i hlen _ _ rest hcode hi
    subst hi
    exact .inr ⟨hlen, rest, hcode, rfl⟩

/-- Queueing a job touches the receiver and the log. -/
theorem enqueue_frame {s s' : State} {cf : BrokerConfig} {t : Tid} {c : ConnId} {j : Job}
    (h : s.enqueue cf t c j = some s') :
    ∃ conns code, s' = { s with conns, code, trace := s.trace ++ [.queued t c j.m] } := by
  obtain ⟨-, rfl⟩ | ⟨-, rest, -, rfl⟩ := enqueue_eq_some h
  · exact ⟨_, s.code, rfl⟩
  · exact ⟨s.conns, _, rfl⟩

end State
