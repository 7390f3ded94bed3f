-- SUMMARY: The small-step semantics of the broker: what each instruction does, and the runs of the whole system.
import Mhub.Base.Transition
import Mhub.Broker.State

/-!
# Broker semantics

`exec` is the meaning of one instruction. It is partial: `none` says that the
goroutine has to wait, on a full or empty channel, on a receipt, or on `subs.mu`.
What the code leaves open is part of the label of a step: the message that is
decoded, whether it could be, the answer of the rate limiter, whether a message
could be written, which ready case a `select` takes, whether a tick of the
keep-alive ticker finds the client over idle, and the order in which Go ranges over
a map.

A panic ends the process: no step follows it.
-/

/-- The parameters of a broker: its configuration, and how `append` grows arrays. -/
structure Env where
  cf : BrokerConfig
  grow : Nat → Nat

inductive Choice where
  | go
  | recv (p : Packet)
  | recvErr
  | pour (ok : Bool)
  | encode (ok : Bool)
  /-- The `select` takes the case of the job or post channel. -/
  | job
  /-- The `select` takes the case of the stop channel. -/
  | stopped
  | tick (overIdle : Bool)
  | order (keys : List GoString)
  /-- The worker that receives a post from an unbuffered channel. -/
  | handTo (i : Nat)
  deriving DecidableEq, Repr

inductive BrokerAction where
  | accept
  | acceptPeer
  | run (t : Tid) (ch : Choice)
  deriving DecidableEq, Repr

/-- How a goroutine goes on after an instruction: with some instructions put before
the rest of its code, or with other code. -/
inductive Next where
  | push (is : List Instr)
  | jump (is : List Instr)
  deriving DecidableEq, Repr

def Next.apply : Next → List Instr → List Instr
  | .push is, rest => is ++ rest
  | .jump is, _ => is

namespace State

variable (s : State)

/-! ## Operations of `incomingConn` and `subscriptions` -/

/-- Register the connection if its client id is free. -/
def add (c : ConnId) (f : Connect) : State :=
  { s with
    clients :=
      match s.clients f.clientId with
      | some _ => s.clients
      | none => Function.update s.clients f.clientId (some c) }

/-- Delete a connection: whoever is registered under its client id. -/
def del (c : ConnId) : State :=
  { s with
    clients :=
      match (s.conns c).flag with
      | none => s.clients
      | some f => Function.update s.clients f.clientId none }

def getClientStore (c : ConnId) (clientId : GoString) : State :=
  let store := (s.clientStores clientId).getD MemoryStore.newMemoryStore
  { s with clientStores := Function.update s.clientStores clientId (some store) }.modConn c
    fun k => { k with store := some clientId }

/-- Call the store of a connection. -/
def callStore (c : ConnId) : Option StoreCall → State
  | none => s
  | some call =>
    match (s.conns c).store with
    | none => s.panicWith (.nilDeref c)
    | some id => s.modStore id (·.call call)

/-- A change of the index under `subs.mu`. -/
def callIndex (env : Env) (k : Call) : State :=
  { s with subs := s.subs.call env.grow k }.log (.index k)

/-- `subscriptions.submit`. `none` when the channel is full. -/
def post (cf : BrokerConfig) (m : Publish) (ch : Choice) : Option State :=
  if s.posts.length < cf.subscriptionsQueueLen then
    some ({ s with posts := s.posts ++ [m] }.log (.posted m))
  else
    match cf.subscriptionsQueueLen, ch with
    | 0, .handTo i =>
      match s.code (.worker i) with
      | .workerLoop :: rest =>
        some ((s.setCode (.worker i) ([.handlePost m, .workerLoop] ++ rest)).log (.posted m))
      | _ => none
    | _, _ => none

theorem post_eq_some {s s' : State} {cf : BrokerConfig} {m : Publish} {ch : Choice}
    (h : s.post cf m ch = some s') :
    s' = { s with posts := s.posts ++ [m] }.log (.posted m) ∨
    ∃ i rest, s.code (.worker i) = Instr.workerLoop :: rest ∧
      s' = (s.setCode (.worker i) ([Instr.handlePost m, .workerLoop] ++ rest)).log (.posted m) := by
  simp only [post] at h
  repeat' split at h
  all_goals cases h
  · exact .inl rfl
  · rename_i i _ _ rest hcode
    exact .inr ⟨i, rest, hcode, rfl⟩

/-- Posting touches the channel or a worker, and the log. -/
theorem post_frame {s s' : State} {cf : BrokerConfig} {m : Publish} {ch : Choice}
    (h : s.post cf m ch = some s') :
    ∃ posts code, (posts = s.posts ∨ posts = s.posts ++ [m]) ∧
      s' = { s with posts, code, trace := s.trace ++ [.posted m] } := by
  obtain rfl | ⟨i, rest, -, rfl⟩ := post_eq_some h
  · exact ⟨_, s.code, .inr rfl, rfl⟩
  · exact ⟨s.posts, _, .inl rfl, rfl⟩

/-- The copy of a retained message that `sendRetain` queues. -/
def copyRetained (r : Retained) : State × Publish :=
  ({ s with
      retainBit := Function.update s.retainBit s.nextObj r.retain
      nextObj := s.nextObj + 1 },
    { r.m with obj := s.nextObj })

end State

/-- What a stored message makes `doConnect` queue again. -/
def redelivery (c : ConnId) : Option Message → List Instr
  | some (.publish m) => if m.qosLevel = .atLeastOnce then [.submit c (.publish m)] else []
  | some (.pubAck m) => if m.qosLevel = .atLeastOnce then [.submit c (.pubAck m)] else []
  | _ => []

/-! ## Instructions -/

/-- Execute one instruction of goroutine `t`. -/
def exec (env : Env) (s : State) (t : Tid) (ch : Choice) : Instr → Option (State × Next)
  | .aborted => some ({ s with stats.aborts := s.stats.aborts + 1 }, .push [])
  | .submit c m =>
    let s := s.log (.submitted t c m)
    if !(s.conns c).alive then some (s, .push [])
    else if env.cf.buffOverflowStrategy = bufferOverflowBlock then
      some (s, .push [.send c ⟨m, none⟩])
    else some (s, .push [.trySend c ⟨m, none⟩])
  | .send c j =>
    if (s.conns c).jobsClosed then some (s.panicWith (.sendOnClosed c), .push [])
    else
      match s.enqueue env.cf t c j with
      | some s' => some (s', .push [])
      | none => none
  | .trySend c j =>
    if (s.conns c).jobsClosed then some (s.panicWith (.sendOnClosed c), .push [])
    else
      match s.enqueue env.cf t c j with
      | some s' => some (s', .push [])
      | none => some (s, .push [])
  | .submitSync c m =>
    let r := s.nextReceipt
    some ({ s with nextReceipt := r + 1 }, .push [.send c ⟨m, some r⟩, .wait r])
  | .wait r => if s.receipts r then some (s, .push []) else none
  | .del c => some (s.del c, .push [])
  -- `inboundLoop` and its handlers
  | .inboundLoop c =>
    match ch with
    | .recv p =>
      if (s.conns c).connClosed then none
      else
        let p := p.at s.nextObj
        some ((s.alloc p).log (.received c p), .push (handle c p ++ [.inboundLoop c]))
    | .recvErr => some (s, .push [.aborted, .inboundReturn c, .inboundLoop c])
    | _ => none
  | .connectValidate c m =>
    some (s.modConn c fun k => { k with flag := some m },
      .push [.connectLimit c m (validate env.cf m)])
  | .connectLimit c m rc =>
    some (s, .push (connectBody env.cf c m (checkLimit env.cf s.stats.clients rc)))
  | .addOrTakeOver c =>
    match (s.conns c).flag with
    | none => some (s.panicWith (.nilDeref c), .push [])
    | some f =>
      match s.clients f.clientId with
      -- force disconnect existing client
      | some existing => some (s, .push [.submitSync existing .disconnect, .del existing])
      | none => some (s.add c f, .push [])
  | .add c =>
    match (s.conns c).flag with
    | none => some (s.panicWith (.nilDeref c), .push [])
    | some f => some (s.add c f, .push [])
  | .startHeartbeat c =>
    some ((s.modConn c fun k => { k with heartbeats := k.heartbeats + 1 }).setCode
      (.heartbeat c (s.conns c).heartbeats) [.heartbeatLoop c], .push [])
  | .getClientStore c clientId => some (s.getClientStore c clientId, .push [])
  | .storeReset c =>
    match (s.conns c).store with
    | none => some (s.panicWith (.nilDeref c), .push [])
    | some id => some (s.modStore id (·.reset), .push [])
  | .storeAll c =>
    match (s.conns c).store, ch with
    | none, _ => some (s.panicWith (.nilDeref c), .push [])
    | some id, .order keys =>
      match s.clientStores id with
      | none => none
      | some store => if store.IsAll keys then some (s, .push (keys.map (.redeliver c))) else none
    | _, _ => none
  | .redeliver c key =>
    match (s.conns c).store, key with
    | none, _ => some (s.panicWith (.nilDeref c), .push [])
    | _, [] => some (s.panicWith (.indexOutOfRange c), .push [])
    | some id, key =>
      some (s, .push (redelivery c ((s.clientStores id).bind (·.get key))))
  | .checkIn username =>
    some ({ s with presence := Function.update s.presence username true }, .push [])
  | .connectReturn c rc =>
    some (s.log (.connectReturned c rc),
      -- close connection if it was a bad connect
      if rc = .accepted then .push [] else .jump (inboundDefer c))
  | .pour c =>
    match ch with
    | .pour ok => some (s, .push (if ok then [] else stop c))
    | _ => none
  | .closeStop c =>
    if (s.conns c).stopClosed then some (s.panicWith (.closeOfClosedStop c), .push [])
    else some (s.modConn c fun k => { k with stopClosed := true }, .push [])
  | .authorized c =>
    match (s.conns c).flag with
    | none => some (s.panicWith (.nilDeref c), .push [])
    | some _ => some (s, .push [])
  | .persistInbound c m => some (s.callStore c (persistInbound (.publish m)), .push [])
  | .post m =>
    match s.post env.cf m ch with
    | some s' => some (s', .push [])
    | none => none
  | .replicate m => some (s.log (.replicated m), .push [])
  | .countSub c =>
    some (s.modConn c fun k => { k with subN := k.subN + 1 },
      .push (if (s.conns c).subN + 1 > env.cf.clientMaxSubscriptions then stop c else []))
  | .subsAdd c topic =>
    if s.subsMu.isSome then none else some (s.callIndex env (.add topic c), .push [])
  | .sendRetain c topic =>
    if s.subsMu.isSome then none
    else
      let s := { s with subsMu := some t }
      match if isWildcard topic then none else s.subs.retain topic with
      | none => some (s, .push [.unlock])
      | some r =>
        let r := s.copyRetained r
        some (r.1, .push [.submit c (.publish r.2), .unlock])
  | .unlock => some ({ s with subsMu := none }, .push [])
  | .uncountSub c => some (s.modConn c fun k => { k with subN := k.subN - 1 }, .push [])
  | .unsub c topic =>
    if s.subsMu.isSome then none else some (s.callIndex env (.unsub topic c), .push [])
  | .inboundReturn c => some (s, .jump (inboundDefer c))
  | .clientDisconnect c =>
    some ({ s with stats.clients := s.stats.clients - 1 }.log (.disconnected c), .push [])
  | .storeClose c =>
    match (s.conns c).store with
    | none => some (s, .push [])
    | some id => some (s.modStore id (·.close), .push [])
  | .setDead c => some (s.modConn c fun k => { k with alive := false }, .push [])
  | .closeJobs c =>
    if (s.conns c).jobsClosed then some (s.panicWith (.closeOfClosedJobs c), .push [])
    else some (s.modConn c fun k => { k with jobsClosed := true }, .push [])
  | .onTerminate c =>
    if !env.cf.enablePresence then some (s, .push [])
    else
      match (s.conns c).flag with
      | none => some (s.panicWith (.nilDeref c), .push [])
      | some f =>
        if f.username.isEmpty then some (s, .push [])
        else some ({ s with presence := Function.update s.presence f.username false }, .push [])
  -- `outboundLoop`
  | .outboundLoop c =>
    match ch with
    | .job =>
      match (s.conns c).jobs with
      | j :: js =>
        some (s.modConn c fun k => { k with jobs := js },
          .push (handleJob c j ++ [.outboundLoop c]))
      -- jobs chan was closed by inboundLoop
      | [] => if (s.conns c).jobsClosed then some (s, .jump (outboundDefer c)) else none
    | .stopped => if (s.conns c).stopClosed then some (s, .jump (outboundDefer c)) else none
    | _ => none
  | .persistOutbound c m => some (s.callStore c (persistOutbound m), .push [])
  | .encode c j =>
    match ch with
    | .encode ok =>
      let retain := match j.m with
        | .publish m => s.retainBit m.obj
        | _ => false
      some (s.log (.encoded c j.m retain ok), .push (encoded c j ok))
    | _ => none
  | .closeReceipt r => some ({ s with receipts := Function.update s.receipts r true }, .push [])
  | .sent c m => some (s, if m = .disconnect then .jump (outboundDefer c) else .push [])
  | .outboundReturn c => some (s, .jump (outboundDefer c))
  | .closeHeartbeat c =>
    if (s.conns c).heartbeatClosed then some (s.panicWith (.closeOfClosedHeartbeat c), .push [])
    else some (s.modConn c fun k => { k with heartbeatClosed := true }, .push [])
  | .closeConn c => some (s.modConn c fun k => { k with connClosed := true }, .push [])
  | .unsubAll c =>
    if s.subsMu.isSome then none else some (s.callIndex env (.unsubAll c), .push [])
  -- `heartbeat`
  | .heartbeatLoop c =>
    match ch with
    | .tick overIdle =>
      if overIdle && (s.conns c).alive then some (s, .jump [.submitSync c .disconnect, .aborted])
      else some (s, .push [.heartbeatLoop c])
    | .stopped => if (s.conns c).heartbeatClosed then some (s, .jump []) else none
    | _ => none
  -- `subscriptions.run`
  | .workerLoop =>
    match s.posts with
    | m :: ms => some ({ s with posts := ms }, .push [.handlePost m, .workerLoop])
    | [] => none
  | .handlePost m =>
    let isRetain := s.retainBit m.obj
    let s := { s with retainBit := Function.update s.retainBit m.obj false }
    some (s.log (.taken t m isRetain),
      -- once the delete is done, return instead of continuing
      if isRetain && m.payload.isEmpty then .jump [.deleteRetain m.topicName]
      else .push (handleLive m isRetain))
  | .deleteRetain topic =>
    if s.subsMu.isSome then none
    else some ({ s with subs.retain := Function.update s.subs.retain topic none }, .push [])
  | .fanOut m =>
    if s.subsMu.isSome then none
    else
      let r := s.subs.subscribers env.grow m.topicName
      some ({ s with subs := r.1 }.log (.fannedOut t m (r.1.heap.contents r.2)),
        .push [.deliver m r.2 0])
  | .deliver m sl k =>
    if k < sl.len then
      let entry := (s.subs.heap.contents sl)[k]?.join
      some (s.log (.slot t m k entry), .push (submitEntry m entry ++ [.deliver m sl (k + 1)]))
    else some (s.log (.delivered t m), .push [])
  | .storeRetain m =>
    if s.subsMu.isSome then none
    else
      some ({ s with subs.retain := Function.update s.subs.retain m.topicName (some ⟨m, true⟩) },
        .push [])
  -- `peers.replay`
  | .replayLoop =>
    match ch with
    | .recv p =>
      let s' := s.alloc p
      match p.at s.nextObj with
      | .publish _ m => some (s', .push [.post m, .replayLoop])
      | _ => some (s', .push [.replayLoop])
    | .recvErr => some (s, .jump [])
    | _ => none

/-! ## The system -/

/-- `Server.Start`: a client connection is accepted and its two loops are started. -/
def State.accept (s : State) : State :=
  let c := s.nconns
  (({ s with
      nconns := c + 1
      stats.clients := s.stats.clients + 1
      stats.sessions := s.stats.sessions + 1 }.setCode (.inbound c) [.inboundLoop c]).setCode
    (.outbound c) [.outboundLoop c]).log (.accepted c)

/-- `peers.start`: a connection of a peer is accepted. -/
def State.acceptPeer (s : State) : State :=
  { s with npeers := s.npeers + 1 }.setCode (.replay s.npeers) [.replayLoop]

/-- One step of the system. -/
def step (env : Env) (s : State) (a : BrokerAction) : Option State :=
  if s.panicked.isSome then none
  else
    match a with
    | .accept => some s.accept
    | .acceptPeer => some s.acceptPeer
    | .run t ch =>
      match s.code t with
      | [] => none
      | i :: rest => (exec env s t ch i).map fun r => r.1.setCode t (r.2.apply rest)

/-- `NewServer`: no connections, and the workers of `newSubscriptions`. -/
def init (env : Env) : State where
  code
    | .worker i => if i < env.cf.subscriptionsWorkers then [.workerLoop] else []
    | _ => []

/-! ## Runs of one goroutine -/

/-- The client of `c` sends a message, and its handler makes `n` steps. -/
def sends (c : ConnId) (p : Packet) (n : Nat) : List BrokerAction :=
  .run (.inbound c) (.recv p) :: List.replicate n (.run (.inbound c) (.pour true))

/-- The `outboundLoop` of `c` sends the next message. -/
def sendsNext (c : ConnId) : List BrokerAction :=
  [.job, .go, .encode true, .go].map (.run (.outbound c))

/-! ## Brokers to run -/

/-- A broker with the default configuration that lets anonymous clients in. -/
def openEnv : Env where
  cf := { allowAnonymousConnect := true }
  grow := (· + 1)

/-- Its arrays double when they are full. -/
def doublesEnv : Env where
  cf := { allowAnonymousConnect := true }
  grow n := 2 * n

/-- A broker that keeps presence records. -/
def presenceEnv : Env where
  cf := { enablePresence := true, allowAnonymousConnect := true }
  grow := (· + 1)

/-- A broker that grants each connection one subscription. -/
def oneSubEnv : Env where
  cf := { clientMaxSubscriptions := 1, allowAnonymousConnect := true }
  grow := (· + 1)
