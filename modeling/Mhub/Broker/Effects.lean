-- SUMMARY: What one instruction can change, component by component: connections, registry, statistics, log and panics.
import Mhub.Broker.Flow

/-!
# Effects

For each component of the state, the instructions that can change it and how. A
result about whole runs cites the lemmas of the components it speaks of and does
not look into `exec` again, except at the instructions it is about.
-/

variable {env : Env} {s s' : State} {t : Tid} {ch : Choice} {i : Instr} {rest : List Instr}
  {nx : Next}

/-! ## Connections -/

/-- What an instruction can do to the record of connection `c`. -/
structure ConnEffect (i : Instr) (c : ConnId) (k k' : Conn) : Prop where
  flag : k'.flag = k.flag ∨ ∃ m, i = .connectValidate c m ∧ k'.flag = some m
  store : k'.store = k.store ∨ ∃ id, i = .getClientStore c id ∧ k'.store = some id
  alive : k'.alive = k.alive ∨ i = .setDead c ∧ k'.alive = false
  jobs : k'.jobs = k.jobs ∨ (∃ j, (i = .send c j ∨ i = .trySend c j) ∧ k'.jobs = k.jobs ++ [j]) ∨
    i = .outboundLoop c ∧ ∃ j, k.jobs = j :: k'.jobs
  jobsClosed : k'.jobsClosed = k.jobsClosed ∨ i = .closeJobs c ∧ k'.jobsClosed = true
  stopClosed : k'.stopClosed = k.stopClosed ∨ i = .closeStop c ∧ k'.stopClosed = true
  heartbeats : k'.heartbeats = k.heartbeats ∨
    i = .startHeartbeat c ∧ k'.heartbeats = k.heartbeats + 1

theorem ConnEffect.refl {c : ConnId} {k : Conn} : ConnEffect i c k k :=
  ⟨.inl rfl, .inl rfl, .inl rfl, .inl rfl, .inl rfl, .inl rfl, .inl rfl⟩

theorem ConnEffect.update {c : ConnId} {k : Conn} (hs : s'.conns = Function.update s.conns c k)
    (h : ConnEffect i c (s.conns c) k) (c' : ConnId) :
    ConnEffect i c' (s.conns c') (s'.conns c') := by
  rw [hs]
  by_cases hc : c' = c
  · subst hc
    simpa using h
  · simpa [hc] using ConnEffect.refl

theorem ConnEffect.enqueue {c : ConnId} {j : Job} (h : s.enqueue env.cf t c j = some s')
    (hi : i = .send c j ∨ i = .trySend c j) (c' : ConnId) :
    ConnEffect i c' (s.conns c') (s'.conns c') := by
  obtain ⟨-, rfl⟩ | ⟨-, rest, hcode, rfl⟩ := State.enqueue_eq_some h
  · refine .update rfl ?_ c'
    exact ⟨.inl rfl, .inl rfl, .inl rfl, .inr (.inl ⟨j, hi, rfl⟩), .inl rfl, .inl rfl, .inl rfl⟩
  · exact .refl

theorem Executes.conn (h : Executes env s t ch i rest nx s') (c : ConnId) :
    ConnEffect i c (s.conns c) (s'.conns c) := by
  obtain ⟨-, s₁, h, rfl⟩ := h
  change ConnEffect i c (s.conns c) (s₁.conns c)
  cases i <;> simp only [exec, State.callStore] at h
  case post =>
    split at h <;> cases h
    obtain ⟨posts, code, hposts, rfl⟩ := State.post_frame ‹_›
    exact .refl
  case outboundLoop o =>
    repeat' split at h
    all_goals cases h
    case h_1.refl j js hjobs =>
      refine .update rfl ?_ c
      exact ⟨.inl rfl, .inl rfl, .inl rfl, .inr (.inr ⟨rfl, j, hjobs⟩), .inl rfl, .inl rfl, .inl rfl⟩
    all_goals exact .refl
  all_goals repeat' split at h
  all_goals cases h
  all_goals first
    | exact .refl
    | exact .enqueue ‹_› (by simp) c
    | exact .update rfl (by constructor <;> simp) c

/-! ## The other components -/

/-- Which instruction of which goroutine logs an event. -/
def Event.LoggedBy (s : State) (t : Tid) (i : Instr) : Event → Prop
  | .accepted _ => False
  | .received c _ => i = .inboundLoop c
  | .connectReturned c rc => i = .connectReturn c rc
  | .disconnected c => i = .clientDisconnect c
  | .submitted t' c m => t' = t ∧ i = .submit c m
  | .queued t' c m => t' = t ∧ ∃ j, (i = .send c j ∨ i = .trySend c j) ∧ j.m = m
  | .encoded c m _ _ => ∃ j, i = .encode c j ∧ j.m = m
  | .posted m => i = .post m
  | .replicated m => i = .replicate m
  | .taken t' m isRetain => t' = t ∧ i = .handlePost m ∧ isRetain = s.retainBit m.obj
  | .fannedOut t' m _ => t' = t ∧ i = .fanOut m
  | .slot t' m k _ => t' = t ∧ ∃ sl, i = .deliver m sl k
  | .delivered t' m => t' = t ∧ ∃ sl k, i = .deliver m sl k
  | .index (.add topic c) => i = .subsAdd c topic
  | .index (.unsub topic c) => i = .unsub c topic
  | .index (.unsubAll c) => i = .unsubAll c

/-- The instructions that read a field of the `flag` of a connection. -/
def readsFlag (cf : BrokerConfig) (c : ConnId) : Instr → Bool
  | .addOrTakeOver c' | .add c' | .authorized c' => c' = c
  | .onTerminate c' => c' = c && cf.enablePresence
  | _ => false

/-- The instructions that call a method of the store of a connection. -/
def callsStore (c : ConnId) : Instr → Bool
  | .storeReset c' | .storeAll c' | .redeliver c' _ => c' = c
  | .persistInbound c' m => c' = c && (persistInbound (.publish m)).isSome
  | .persistOutbound c' m => c' = c && (persistOutbound m).isSome
  | _ => false

/-- Why an instruction panics. -/
def Panic.RaisedBy (cf : BrokerConfig) (s : State) (i : Instr) : Panic → Prop
  | .nilDeref c =>
    readsFlag cf c i = true ∧ (s.conns c).flag = none ∨
    callsStore c i = true ∧ (s.conns c).store = none
  | .sendOnClosed c =>
    (∃ j, i = .send c j ∨ i = .trySend c j) ∧ (s.conns c).jobsClosed = true
  | .closeOfClosedStop c => i = .closeStop c ∧ (s.conns c).stopClosed = true
  | .closeOfClosedJobs c => i = .closeJobs c ∧ (s.conns c).jobsClosed = true
  | .closeOfClosedHeartbeat c => i = .closeHeartbeat c ∧ (s.conns c).heartbeatClosed = true
  | .indexOutOfRange c => i = .redeliver c []

/-- The instructions that change the subscriptions in the index. -/
def Instr.callsIndex : Instr → Bool
  | .subsAdd .. | .unsub .. | .unsubAll _ => true
  | _ => false

/-- How an instruction changes the store of a client. -/
inductive StoreOp (s : State) : Instr → GoString → (MemoryStore → MemoryStore) → Prop where
  | reset {c id} : (s.conns c).store = some id → StoreOp s (.storeReset c) id (·.reset)
  | inbound {c id m call} : (s.conns c).store = some id →
    persistInbound (.publish m) = some call → StoreOp s (.persistInbound c m) id (·.call call)
  | outbound {c id m call} : (s.conns c).store = some id → persistOutbound m = some call →
    StoreOp s (.persistOutbound c m) id (·.call call)
  | close {c id} : (s.conns c).store = some id → StoreOp s (.storeClose c) id (·.close)

/-- The instructions that make a new `Publish` object, with the `Retain` bit it gets. -/
def Instr.Allocates (s : State) (i : Instr) (retain : Bool) : Prop :=
  (∃ c p, i = .inboundLoop c ∧ retain = Packet.retain p) ∨
  (∃ p, i = .replayLoop ∧ retain = Packet.retain p) ∨
  ∃ c topic r, i = .sendRetain c topic ∧ s.subs.retain topic = some r ∧ retain = r.retain

/-- What an instruction can do to the state outside the connections. -/
structure Effect (env : Env) (s : State) (t : Tid) (i : Instr) (s' : State) : Prop where
  trace : s'.trace = s.trace ∨ ∃ e, s'.trace = s.trace ++ [e] ∧ e.LoggedBy s t i
  panicked : s'.panicked = s.panicked ∨ ∃ p, s'.panicked = some p ∧ p.RaisedBy env.cf s i
  /-- The registry changes by adding a connection under its own free client id, and by
  deleting the entry under the client id of a connection. -/
  clients : s'.clients = s.clients ∨
    (∃ c f, (i = .addOrTakeOver c ∨ i = .add c) ∧ (s.conns c).flag = some f ∧
      s.clients f.clientId = none ∧
      s'.clients = Function.update s.clients f.clientId (some c)) ∨
    ∃ c f, i = .del c ∧ (s.conns c).flag = some f ∧
      s'.clients = Function.update s.clients f.clientId none
  accepted : s'.nconns = s.nconns ∧ s'.npeers = s.npeers
  stats_clients : (∀ c, i ≠ .clientDisconnect c) ∧ s'.stats.clients = s.stats.clients ∨
    ∃ c, i = .clientDisconnect c ∧ s'.stats.clients = s.stats.clients - 1
  /-- The index changes by a logged call, by the append of a fan-out, and in the
  retained messages. -/
  subs : (∃ k, (Event.index k).LoggedBy s t i ∧ s'.subs = s.subs.call env.grow k ∧
      s'.trace = s.trace ++ [.index k]) ∨
    i.callsIndex = false ∧
      (s'.subs = s.subs ∨
        (∃ m, i = .fanOut m ∧ s'.subs = (s.subs.subscribers env.grow m.topicName).1) ∨
        ∃ retain, s'.subs = { s.subs with retain })
  retain : s'.subs.retain = s.subs.retain ∨
    (∃ topic, i = .deleteRetain topic ∧
      s'.subs.retain = Function.update s.subs.retain topic none) ∨
    ∃ m, i = .storeRetain m ∧
      s'.subs.retain = Function.update s.subs.retain m.topicName (some ⟨m, true⟩)
  posts : s'.posts = s.posts ∨ (∃ m, i = .post m ∧ s'.posts = s.posts ++ [m]) ∨
    i = .workerLoop ∧ ∃ m, s.posts = m :: s'.posts
  nextReceipt : s'.nextReceipt = s.nextReceipt ∨
    (∃ c m, i = .submitSync c m) ∧ s'.nextReceipt = s.nextReceipt + 1
  receipts : s'.receipts = s.receipts ∨
    ∃ r, i = .closeReceipt r ∧ s'.receipts = Function.update s.receipts r true
  stores : s'.clientStores = s.clientStores ∨
    (∃ c id, i = .getClientStore c id ∧ s'.clientStores =
      Function.update s.clientStores id
        (some ((s.clientStores id).getD MemoryStore.newMemoryStore))) ∨
    ∃ id f, StoreOp s i id f ∧
      s'.clientStores = Function.update s.clientStores id ((s.clientStores id).map f)
  /-- The `Retain` bits change where a worker clears one, and by new objects. -/
  objects : s'.retainBit = s.retainBit ∧ s'.nextObj = s.nextObj ∨
    (∃ m, i = .handlePost m ∧ s'.retainBit = Function.update s.retainBit m.obj false ∧
      s'.nextObj = s.nextObj) ∨
    ∃ retain, i.Allocates s retain ∧
      s'.retainBit = Function.update s.retainBit s.nextObj retain ∧ s'.nextObj = s.nextObj + 1

theorem eq_of_ite_none {α : Type} {p : Prop} [Decidable p] {x : Option α} {a : α}
    (h : (if p then none else x) = some a) : x = some a := by
  split at h
  · cases h
  · exact h

section

variable {conns : ConnId → Conn} {code : Tid → List Instr} {presence : GoString → Bool}
  {subsMu : Option Tid} {trace : List Event} {panicked : Option Panic}

/-- An instruction that does no more than to change connections, code, presence records
and the lock, to log an event and to panic. -/
theorem Effect.frame (hindex : i.callsIndex = false) (hopen : ∀ c, i ≠ .clientDisconnect c)
    (htrace : trace = s.trace ∨ ∃ e, trace = s.trace ++ [e] ∧ e.LoggedBy s t i)
    (hpanicked : panicked = s.panicked ∨ ∃ p, panicked = some p ∧ p.RaisedBy env.cf s i) :
    Effect env s t i { s with conns, code, presence, subsMu, trace, panicked } where
  trace := htrace
  panicked := hpanicked
  clients := .inl rfl
  accepted := ⟨rfl, rfl⟩
  stats_clients := .inl ⟨hopen, rfl⟩
  subs := .inr ⟨hindex, .inl rfl⟩
  retain := .inl rfl
  posts := .inl rfl
  nextReceipt := .inl rfl
  receipts := .inl rfl
  stores := .inl rfl
  objects := .inl ⟨rfl, rfl⟩

end

theorem Executes.effects (h : Executes env s t ch i rest nx s') : Effect env s t i s' := by
  obtain ⟨-, s₁, h, rfl⟩ := h
  cases i <;> simp only [exec, State.callStore, State.callIndex, State.add, State.del] at h
  all_goals repeat' split at h
  all_goals cases h
  all_goals try obtain ⟨conns, code, rfl⟩ := State.enqueue_frame ‹_›
  all_goals try obtain ⟨posts, code, hposts, rfl⟩ := State.post_frame ‹_›
  -- most instructions change no more than the connections and the log
  all_goals dsimp only [State.setCode, State.log, State.alloc, State.modConn, State.modStore]
  all_goals first
    | refine .frame rfl ?_ (.inl rfl) (.inl rfl)
      simp only [ne_eq, reduceCtorEq, not_false_eq_true, implies_true]
    | refine .frame rfl ?_ (.inr ⟨_, rfl, ?_⟩) (.inl rfl) <;> simp [Event.LoggedBy]
    | refine .frame rfl ?_ (.inl rfl) (.inr ⟨_, rfl, ?_⟩) <;>
        simp_all [Panic.RaisedBy, readsFlag, callsStore]
    | skip
  all_goals
    constructor
    case trace =>
      first
        | exact .inl rfl
        | refine .inr ⟨_, rfl, ?_⟩
          simp [Event.LoggedBy]
    case panicked => exact .inl rfl
    case clients =>
      first
        | exact .inl rfl
        | exact .inr (.inl ⟨_, _, by simp, ‹_›, ‹_›, rfl⟩)
        | exact .inr (.inr ⟨_, _, rfl, ‹_›, rfl⟩)
    case accepted => exact ⟨rfl, rfl⟩
    case stats_clients =>
      first
        | exact .inr ⟨_, rfl, rfl⟩
        | exact .inl ⟨fun _ h => (by cases h), rfl⟩
    case subs =>
      first
        | exact .inr ⟨rfl, .inl rfl⟩
        | exact .inr ⟨rfl, .inr (.inl ⟨_, rfl, rfl⟩)⟩
        | exact .inr ⟨rfl, .inr (.inr ⟨_, rfl⟩)⟩
        | refine .inl ⟨_, ?_, rfl, rfl⟩
          simp [Event.LoggedBy]
    case retain =>
      first
        | exact .inl rfl
        | exact .inl (Subscriptions.call_retain _ _ _)
        | exact .inr (.inl ⟨_, rfl, rfl⟩)
        | exact .inr (.inr ⟨_, rfl, rfl⟩)
    case posts =>
      first
        | exact .inl rfl
        | exact hposts.imp_right fun h => .inl ⟨_, rfl, h⟩
        | exact .inr (.inr ⟨rfl, _, ‹_›⟩)
    case nextReceipt =>
      first
        | exact .inl rfl
        | exact .inr ⟨⟨_, _, rfl⟩, rfl⟩
    case receipts =>
      first
        | exact .inl rfl
        | exact .inr ⟨_, rfl, rfl⟩
    case stores =>
      first
        | exact .inl rfl
        | exact .inr (.inl ⟨_, _, rfl, rfl⟩)
        | exact .inr (.inr ⟨_, _, by constructor <;> assumption, rfl⟩)
    case objects =>
      first
        | exact .inl ⟨rfl, rfl⟩
        | exact .inr (.inl ⟨_, rfl, rfl, rfl⟩)
        | exact .inr (.inr ⟨_, .inl ⟨_, _, rfl, rfl⟩, rfl, rfl⟩)
        | exact .inr (.inr ⟨_, .inr (.inl ⟨_, rfl, rfl⟩), rfl, rfl⟩)
        | exact .inr (.inr ⟨_, .inr (.inr ⟨_, _, _, rfl, eq_of_ite_none ‹_›, rfl⟩), rfl, rfl⟩)

section

variable (h : Executes env s t ch i rest nx s')

include h

theorem Executes.trace : s'.trace = s.trace ∨ ∃ e, s'.trace = s.trace ++ [e] ∧ e.LoggedBy s t i :=
  h.effects.trace

theorem Executes.panicked :
    s'.panicked = s.panicked ∨ ∃ p, s'.panicked = some p ∧ p.RaisedBy env.cf s i :=
  h.effects.panicked

theorem Executes.mem_trace {e : Event} (he : e ∈ s'.trace) : e ∈ s.trace ∨ e.LoggedBy s t i := by
  obtain htr | ⟨e', htr, hlog⟩ := h.trace <;> rw [htr] at he
  · exact .inl he
  · obtain he | he := List.mem_append.1 he
    · exact .inl he
    · obtain rfl := List.mem_singleton.1 he
      exact .inr hlog

theorem Executes.trace_mono {e : Event} (he : e ∈ s.trace) : e ∈ s'.trace := by
  obtain htr | ⟨e', htr, -⟩ := h.trace <;> rw [htr]
  · exact he
  · exact List.mem_append_left _ he

/-- What the log says of a matter stays when the instruction logs nothing about it. -/
theorem Executes.filterMap_trace {β : Type} {f : Event → Option β}
    (hf : ∀ e : Event, e.LoggedBy s t i → f e = none) :
    s'.trace.filterMap f = s.trace.filterMap f := by
  obtain htr | ⟨e, htr, hlog⟩ := h.trace
  · rw [htr]
  · simp [htr, hf e hlog]

theorem Executes.nconns : s'.nconns = s.nconns := h.effects.accepted.1

end

/-- `inboundLoop` reads a message, or fails to. -/
theorem Executes.inboundLoop {c : ConnId} (h : Executes env s t ch (.inboundLoop c) rest nx s') :
    (∃ p, ch = .recv p ∧ nx = .push (handle c (p.at s.nextObj) ++ [Instr.inboundLoop c]) ∧
      s'.trace = s.trace ++ [Event.received c (p.at s.nextObj)]) ∨
    ch = .recvErr ∧ nx = .push [.aborted, .inboundReturn c, .inboundLoop c] := by
  obtain ⟨-, s₁, h, rfl⟩ := h
  simp only [exec] at h
  repeat' split at h
  all_goals cases h
  · exact .inl ⟨_, rfl, rfl, rfl⟩
  · exact .inr ⟨rfl, rfl⟩

/-- `sendRetain` takes the mutex, and submits a copy of what it finds. -/
theorem Executes.sendRetain {c : ConnId} {topic : GoString}
    (hx : Executes env s t ch (.sendRetain c topic) rest nx s') :
    s'.trace = s.trace ∧
    ((isWildcard topic = true ∨ s.subs.retain topic = none) ∧ nx = .push [.unlock] ∨
      ∃ r, isWildcard topic = false ∧ s.subs.retain topic = some r ∧
        nx = .push [.submit c (.publish { r.m with obj := s.nextObj }), .unlock] ∧
        s'.retainBit s.nextObj = r.retain ∧ s'.nextObj = s.nextObj + 1) := by
  obtain ⟨-, s₁, hexec, rfl⟩ := hx
  simp only [exec] at hexec
  repeat' split at hexec
  all_goals cases hexec
  · next hnone =>
    refine ⟨rfl, .inl ⟨?_, rfl⟩⟩
    split at hnone
    · exact .inl ‹_›
    · exact .inr hnone
  · next r hsome =>
    split at hsome
    · cases hsome
    next hwild =>
    exact ⟨rfl, .inr ⟨r, by simpa using hwild, hsome, rfl,
      by simp [State.copyRetained, State.setCode], rfl⟩⟩

theorem mem_trace_step {a : BrokerAction} {e : Event} (hstep : step env s a = some s')
    (he : e ∈ s'.trace) : e ∈ s.trace ∨ (∃ c, e = .accepted c) ∨
      ∃ t ch i rest nx, a = .run t ch ∧ Executes env s t ch i rest nx s' ∧ e.LoggedBy s t i := by
  obtain ⟨-, ⟨-, rfl⟩ | ⟨-, rfl⟩ | ⟨t, ch, i, rest, nx, rfl, hx⟩⟩ := step_cases hstep
  · obtain he | he := List.mem_append.1 he
    · exact .inl he
    · exact .inr (.inl ⟨_, List.mem_singleton.1 he⟩)
  · exact .inl he
  · obtain he | hlog := hx.mem_trace he
    · exact .inl he
    · exact .inr (.inr ⟨t, ch, i, rest, nx, rfl, hx, hlog⟩)

theorem mem_trace_mono {a : BrokerAction} {e : Event} (hstep : step env s a = some s')
    (he : e ∈ s.trace) : e ∈ s'.trace := by
  obtain ⟨-, ⟨-, rfl⟩ | ⟨-, rfl⟩ | ⟨t, ch, i, rest, nx, -, hx⟩⟩ := step_cases hstep
  · exact List.mem_append_left _ he
  · exact he
  · exact hx.trace_mono he

/-- The rule for what an event of the log tells: it is so when the event is logged,
and stays so. -/
theorem Reachable.of_logged {e : Event} {P : State → Prop} (hr : Reachable env s)
    (he : e ∈ s.trace) (hacc : ∀ c, e ≠ .accepted c)
    (hlog : ∀ {s t ch i rest nx s'}, Reachable env s → Executes env s t ch i rest nx s' →
      e.LoggedBy s t i → P s')
    (hkeep : ∀ {s a s'}, Reachable env s → e ∈ s.trace → P s → step env s a = some s' → P s') :
    P s := by
  refine hr.invariant (I := fun s => e ∈ s.trace → P s) ?_ (by simp [init]) he
  intro s a s' hr hI hstep he
  obtain hold | ⟨c, hc⟩ | ⟨t, ch, i, rest, nx, -, hx, hby⟩ := mem_trace_step hstep he
  · exact hkeep hr hold (hI hold) hstep
  · exact absurd hc (hacc c)
  · exact hlog hr hx hby

/-! ## The index and its history -/

def Event.call : Event → Option Call
  | .index k => some k
  | _ => none

theorem mem_calls {k : Call} {tr : List Event} : k ∈ tr.filterMap Event.call ↔ .index k ∈ tr := by
  simp only [List.mem_filterMap]
  constructor
  · rintro ⟨e, he, hk⟩
    cases e <;> cases hk
    exact he
  · exact fun h => ⟨_, h, rfl⟩

/-- The calls that changed the index so far. -/
def State.calls (s : State) : List Call := s.trace.filterMap Event.call

@[simp] theorem State.calls_accept (s : State) : s.accept.calls = s.calls := by
  simp [State.calls, State.accept, State.log, State.setCode, Event.call]

theorem Executes.calls (h : Executes env s t ch i rest nx s') (hi : i.callsIndex = false) :
    s'.calls = s.calls := by
  refine h.filterMap_trace fun e hlog => ?_
  cases e with
  | index k => cases k <;> obtain rfl : i = _ := hlog <;> cases hi
  | _ => rfl

/-- A step makes one call at most. -/
theorem Executes.calls_cases (h : Executes env s t ch i rest nx s') :
    s'.calls = s.calls ∨
      ∃ k, (Event.index k).LoggedBy s t i ∧ s'.calls = s.calls ++ [k] := by
  obtain htr | ⟨e, htr, hlog⟩ := h.trace
  · exact .inl (by rw [State.calls, State.calls, htr])
  · cases e with
    | index k => exact .inr ⟨k, hlog, by simp [State.calls, htr, Event.call]⟩
    | _ => exact .inl (by simp [State.calls, htr, Event.call])

/-- A connection gets into the index by its own `subsAdd`. -/
theorem Executes.mentions (h : Executes env s t ch i rest nx s') {c : ConnId}
    (hm : s'.subs.Mentions c) : s.subs.Mentions c ∨ ∃ topic, i = .subsAdd c topic := by
  obtain ⟨k, hlog, heq, -⟩ | ⟨-, heq | ⟨m, -, heq⟩ | ⟨retain, heq⟩⟩ := h.effects.subs <;>
    rw [heq] at hm
  · obtain hm | ⟨f, rfl⟩ := hm.of_call
    · exact .inl hm
    · exact .inr ⟨f, hlog⟩
  · exact .inl hm
  · exact .inl hm.of_subscribers
  · exact .inl hm

/-- The index agrees with the calls on it, whatever the workers do in between. -/
theorem Reachable.refines (hr : Reachable env s) : Refines s.subs s.calls := by
  refine hr.invariant (I := fun s => Refines s.subs s.calls) ?_ refines_empty
  intro s a s' _ hI hstep
  obtain ⟨-, ⟨-, rfl⟩ | ⟨-, rfl⟩ | ⟨t, ch, i, rest, nx, -, hx⟩⟩ := step_cases hstep
  · rw [State.calls_accept]
    exact hI
  · exact hI
  · obtain ⟨k, -, heq, htr⟩ | ⟨hi, heq | ⟨m, -, heq⟩ | ⟨retain, heq⟩⟩ := hx.effects.subs <;>
      rw [heq]
    · have hcalls : s'.calls = s.calls ++ [k] := by simp [State.calls, htr, Event.call]
      rw [hcalls]
      exact hI.call k
    · exact hx.calls hi ▸ hI
    · exact hx.calls hi ▸ hI.subscribers m.topicName
    · exact hx.calls hi ▸ hI.setRetain retain

/-! ## The goroutines that were started -/

def Tid.Started (env : Env) (s : State) : Tid → Prop
  | .inbound c | .outbound c => c < s.nconns
  | .heartbeat c k => c < s.nconns ∧ k < (s.conns c).heartbeats
  | .worker w => w < env.cf.subscriptionsWorkers
  | .replay p => p < s.npeers

/-- All goroutines that were started. -/
def State.tids (env : Env) (s : State) : List Tid :=
  (List.range s.nconns).flatMap (fun c =>
    .inbound c :: .outbound c :: (List.range (s.conns c).heartbeats).map (.heartbeat c)) ++
  (List.range env.cf.subscriptionsWorkers).map .worker ++ (List.range s.npeers).map .replay

theorem State.mem_tids : t ∈ s.tids env ↔ t.Started env s := by
  cases t <;> simp [State.tids, Tid.Started]

theorem Tid.Started.mono (h : t.Started env s) (hn : s.nconns ≤ s'.nconns)
    (hp : s.npeers ≤ s'.npeers) (hb : ∀ c, (s.conns c).heartbeats ≤ (s'.conns c).heartbeats) :
    t.Started env s' := by
  cases t with
  | inbound c | outbound c => exact Nat.lt_of_lt_of_le h hn
  | heartbeat c k => exact ⟨Nat.lt_of_lt_of_le h.1 hn, Nat.lt_of_lt_of_le h.2 (hb c)⟩
  | worker w => exact h
  | replay p => exact Nat.lt_of_lt_of_le h hp

theorem Executes.started (hx : Executes env s t ch i rest nx s') {t' : Tid}
    (h : t'.Started env s) : t'.Started env s' := by
  refine h.mono hx.effects.accepted.1.ge hx.effects.accepted.2.ge fun c => ?_
  obtain h | ⟨-, h⟩ := (hx.conn c).heartbeats <;> omega

/-- Only goroutines that were started have code. -/
theorem Reachable.started (hr : Reachable env s) (ht : s.code t ≠ []) : t.Started env s := by
  refine hr.invariant (I := fun s => ∀ t, s.code t ≠ [] → t.Started env s) ?_ ?_ t ht
  · intro s a s' hr hI hstep t' ht'
    obtain ⟨-, ⟨-, rfl⟩ | ⟨-, rfl⟩ | ⟨t, ch, i, rest, nx, -, hx⟩⟩ := step_cases hstep
    · by_cases hnew : t' = .inbound s.nconns ∨ t' = .outbound s.nconns
      · obtain rfl | rfl := hnew <;> exact Nat.lt_succ_self _
      · have hcode : s.accept.code t' = s.code t' := by
          simp_all [State.accept, State.log, State.setCode]
        exact (hI t' (hcode ▸ ht')).mono (Nat.le_succ _) (Nat.le_refl _) fun _ => Nat.le_refl _
    · by_cases hnew : t' = .replay s.npeers
      · subst hnew
        exact Nat.lt_succ_self _
      · have hcode : s.acceptPeer.code t' = s.code t' := by
          simp [State.acceptPeer, State.setCode, hnew]
        exact (hI t' (hcode ▸ ht')).mono (Nat.le_refl _) (Nat.le_succ _) fun _ => Nat.le_refl _
    · have hself : t.Started env s := hI t (by simp [hx.code])
      by_cases heq : t' = t
      · exact hx.started (heq ▸ hself)
      · have htouch := hx.touch heq
        generalize hl : s.code t' = l, hl' : s'.code t' = l' at htouch
        cases htouch with
        | same => exact hx.started (hI t' (hl ▸ hl' ▸ ht'))
        | job _ | post _ => exact hx.started (hI _ (by simp [hl]))
        | @heartbeat c _ hi =>
          subst hi
          obtain rfl := hx.home hr rfl
          obtain ⟨-, s₁, hexec, rfl⟩ := hx
          cases hexec
          exact ⟨hself, by simp [State.setCode, State.modConn]⟩
  · intro t ht
    cases t with
    | worker w => exact of_not_not fun hw => ht (by simp_all [init, Tid.Started])
    | _ => exact absurd rfl ht

/-- A new connection changes no code that is there. -/
theorem Reachable.accept_code (hr : Reachable env s) (ht : s.code t ≠ []) :
    s.accept.code t = s.code t := by
  have hstarted := hr.started ht
  cases t with
  | inbound c | outbound c =>
    have hne := Nat.ne_of_lt hstarted
    simp [State.accept, State.log, State.setCode, hne]
  | _ => simp [State.accept, State.log, State.setCode]

theorem Reachable.acceptPeer_code (hr : Reachable env s) (ht : s.code t ≠ []) :
    s.acceptPeer.code t = s.code t := by
  have hstarted := hr.started ht
  cases t with
  | replay p =>
    have hne := Nat.ne_of_lt hstarted
    simp [State.acceptPeer, State.setCode, hne]
  | _ => simp [State.acceptPeer, State.setCode]

/-- A goroutine that is not at its loop goes on by itself. -/
theorem step_busy {a : BrokerAction} {j : Instr} (hr : Reachable env s)
    (hstep : step env s a = some s') (hcode : s.code t = j :: rest) (hj : j ≠ t.loop) :
    s'.code t = s.code t ∨ ∃ ch nx, a = .run t ch ∧ Executes env s t ch j rest nx s' := by
  have hne : s.code t ≠ [] := by simp [hcode]
  obtain ⟨-, ⟨-, rfl⟩ | ⟨-, rfl⟩ | ⟨t', ch, i, rest', nx, rfl, hx⟩⟩ := step_cases hstep
  · exact .inl (hr.accept_code hne)
  · exact .inl (hr.acceptPeer_code hne)
  · by_cases ht : t = t'
    · subst ht
      obtain ⟨rfl, rfl⟩ := List.cons.inj (hx.code.symm.trans hcode)
      exact .inr ⟨ch, nx, rfl, hx⟩
    · have hstarted := hr.started hne
      have htouch := hx.touch ht
      generalize s.code t = l, s'.code t = l' at htouch hcode
      cases htouch with
      | same => exact .inl rfl
      | job _ | post _ => exact absurd (List.cons.inj hcode).1.symm hj
      | heartbeat _ => exact absurd hstarted.2 (Nat.lt_irrefl _)
