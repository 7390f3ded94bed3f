-- SUMMARY: What a connection is sent first: the ways to its jobs queue before the CONNACK, and under which schedules none of them is taken.
import Mhub.Broker.Answers
import Mhub.Broker.Session

/-!
# CONNACK first

`doConnect` submits the CONNACK near its end. Before that, other messages can get into
the queue of the connection. Handlers answer without looking whether a CONNECT came.
The redelivery of a persistent session comes earlier in `doConnect`. And from the
moment the connection has registered, a takeover can find it, and with a keep-alive
its heartbeat can find it idle.

`ConnAckSafe` excludes these four. There is no fifth: a worker reaches a connection
only through a subscription, and for that a SUBSCRIBE has to be handled.
-/

variable {env : Env} {s s' : State} {t : Tid} {ch : Choice} {i j : Instr} {rest : List Instr}
  {nx : Next} {c : ConnId}

/-! ## What is queued -/

def Message.isConnAck : Message → Bool
  | .connAck _ => true
  | _ => false

def Event.queuedFor (c : ConnId) : Event → Option Message
  | .queued _ c' m => if c' = c then some m else none
  | _ => none

/-- What was put into the jobs queue of `c`, by whomever. -/
def State.queuedFor (s : State) (c : ConnId) : List Message := s.trace.filterMap (·.queuedFor c)

/-- The instruction, or what comes of it, queues something other than a CONNACK for `c`.
A subscriber can be sent any message. -/
def Instr.reaches (c : ConnId) : Instr → Bool
  | .submit c' m | .submitSync c' m => c' = c && !m.isConnAck
  | .send c' j | .trySend c' j => c' = c && !j.m.isConnAck
  | .subsAdd c' _ | .sendRetain c' _ => c' = c
  | _ => false

/-- Nothing leads to the queue of `c` but a CONNACK. -/
structure State.Unreached (s : State) (c : ConnId) : Prop where
  code : ∀ t, ∀ i ∈ s.code t, i.reaches c = false
  index : ¬ s.subs.Mentions c

/-- The message that `doConnect` is about to look at is none to queue again. -/
def State.keepsBack (s : State) (c : ConnId) (key : GoString) : Bool :=
  match (s.conns c).store with
  | none => true
  | some id => redelivery c ((s.clientStores id).bind (·.get key)) = []

/-- The connection that `doConnect` of `c` finds under its client id. -/
def State.existing (s : State) (c : ConnId) : Option ConnId :=
  (s.conns c).flag.bind fun f => s.clients f.clientId

/-- As long as nothing was queued for `c`, the step reads nothing from its client that
is answered, queues nothing again, does not find `c` to take it over, and does not
find it idle. -/
def ConnAckSafe (c : ConnId) (s : State) : BrokerAction → Bool
  | .run t ch =>
    s.queuedFor c ≠ [] ||
      match s.code t, ch with
      | .inboundLoop c' :: _, .recv p => c' ≠ c || answer p = []
      | .redeliver c' key :: _, _ => c' ≠ c || s.keepsBack c key
      | .addOrTakeOver c' :: _, _ => s.existing c' ≠ some c
      | .heartbeatLoop c' :: _, .tick overIdle => c' ≠ c || !overIdle
      | _, _ => true
  | _ => true

/-! ## Where a message for the connection comes from -/

theorem brings_reaches (hj : j.reaches c = true) (h : i.brings j = true) :
    i.reaches c = true ∨ i = .inboundLoop c ∨ (∃ m rc, i = .connectLimit c m rc) ∨
      (∃ key, i = .redeliver c key) ∨ (∃ c', i = .addOrTakeOver c') ∨ i = .heartbeatLoop c ∨
      ∃ m m' sl k, i = .deliver m sl k ∧ j = .submit c m' := by
  cases Instr.brings_cases h with
  | send | trySend | sendSync => exact .inl hj
  | retained =>
    simp only [Instr.reaches, Bool.and_eq_true] at hj
    exact .inl hj.1
  | subsAdd | sendRetain | answer | connAck | resend | takeOver | overIdle | delivery =>
    simp only [Instr.reaches, Bool.and_eq_true, decide_eq_true_eq] at hj
    simp [hj]
  | _ => cases hj

theorem answer_at {p : Packet} {obj : Nat} : answer (p.at obj) = answer p := by
  cases p <;> rfl

/-- Handling a message without an answer queues nothing. -/
theorem handle_reaches {p : Packet} (hp : answer p = []) (hj : j ∈ handle c p) :
    j.reaches c = false := by
  cases handles_of_mem hj with
  | pubAck hqos => simp [answer, hqos] at hp
  | subsAdd | sendRetain | subAck | unsubAck | pingResp => cases hp
  | _ => rfl

/-- All that `doConnect` submits itself is the CONNACK. -/
theorem connectBody_reaches {cf : BrokerConfig} {m : Connect} {rc : ReturnCode}
    (hj : j ∈ connectBody cf c m rc) : j.reaches c = false := by
  simp only [connectBody, List.mem_append, List.mem_cons, List.not_mem_nil, or_false] at hj
  obtain ((((((rfl | rfl) | hj) | rfl) | hj) | hj) | rfl | rfl) := hj
  · rfl
  · rfl
  · split at hj
    · obtain rfl := List.mem_singleton.1 hj
      rfl
    · cases hj
  · rfl
  · split at hj <;> obtain rfl := List.mem_singleton.1 hj <;> rfl
  · split at hj
    · obtain rfl := List.mem_singleton.1 hj
      rfl
    · cases hj
  · simp [Instr.reaches, Message.isConnAck]
  · rfl

theorem Executes.redeliver_keepsBack {key : GoString}
    (hx : Executes env s t ch (.redeliver c key) rest nx s') (h : s.keepsBack c key = true) :
    nx.instrs = [] := by
  obtain ⟨-, s₁, hexec, -⟩ := hx
  simp only [exec] at hexec
  split at hexec <;> cases hexec
  · rfl
  · rfl
  · simpa [State.keepsBack, ‹(s.conns c).store = some _›, Next.instrs] using h

/-- A takeover reaches the connection it finds. -/
theorem Executes.takeOver_reaches {c' : ConnId}
    (hx : Executes env s t ch (.addOrTakeOver c') rest nx s') (h : s.existing c' ≠ some c)
    (hj : j ∈ nx.instrs) : j.reaches c = false := by
  obtain ⟨-, s₁, hexec, -⟩ := hx
  simp only [exec] at hexec
  repeat' split at hexec
  all_goals cases hexec
  · cases hj
  · next hflag _ e hfound =>
    have hne : e ≠ c := by simpa [State.existing, hflag, hfound] using h
    simp only [Next.instrs, List.mem_cons, List.not_mem_nil, or_false] at hj
    obtain rfl | rfl := hj
    · simp [Instr.reaches, hne]
    · rfl
  · cases hj

/-- The heartbeat reaches its connection when it finds it idle. -/
theorem Executes.tick_reaches (hx : Executes env s t ch (.heartbeatLoop c) rest nx s')
    (h : ch ≠ .tick true) (hj : j ∈ nx.instrs) : j.reaches c = false := by
  obtain ⟨-, s₁, hexec, -⟩ := hx
  simp only [exec] at hexec
  repeat' split at hexec
  all_goals cases hexec
  · simp_all
  · obtain rfl := List.mem_singleton.1 hj
    rfl
  · cases hj

/-- A step that is safe for `c` brings nothing that reaches it. -/
theorem State.Unreached.follows (h : s.Unreached c) (hnone : s.queuedFor c = [])
    (hsafe : ConnAckSafe c s (.run t ch) = true) (hx : Executes env s t ch i rest nx s')
    (hj : j ∈ nx.instrs) : j.reaches c = false := by
  by_contra hreach
  have hreach : j.reaches c = true := by simpa using hreach
  have hcode := hx.code
  simp only [ConnAckSafe, hcode, hnone, ne_eq, not_true_eq_false, decide_false,
    Bool.false_or] at hsafe
  obtain hi | rfl | ⟨m, rc, rfl⟩ | ⟨key, rfl⟩ | ⟨c', rfl⟩ | rfl | ⟨m, m', sl, k, rfl, rfl⟩ :=
    brings_reaches hreach (hx.follows.brings hj)
  · rw [h.code t i hx.mem_self] at hi
    cases hi
  · obtain ⟨p, rfl, rfl, -⟩ | ⟨rfl, rfl⟩ := hx.inboundLoop
    · have hp : answer p = [] := by simpa using hsafe
      obtain hj | hj := List.mem_append.1 hj
      · rw [handle_reaches (answer_at.trans hp) hj] at hreach
        cases hreach
      · obtain rfl := List.mem_singleton.1 hj
        cases hreach
    · simp only [Next.instrs, List.mem_cons, List.not_mem_nil, or_false] at hj
      obtain rfl | rfl | rfl := hj <;> cases hreach
  · cases hx.follows with
    | falls hf => cases hf
    | limited n =>
      rw [connectBody_reaches hj] at hreach
      cases hreach
  · have hkeep : s.keepsBack c key = true := by simpa using hsafe
    rw [hx.redeliver_keepsBack hkeep] at hj
    cases hj
  · have hother : s.existing c' ≠ some c := by simpa using hsafe
    rw [hx.takeOver_reaches hother hj] at hreach
    cases hreach
  · have hidle : ch ≠ .tick true := by
      rintro rfl
      simp at hsafe
    rw [hx.tick_reaches hidle hj] at hreach
    cases hreach
  · exact h.index (hx.deliver_mentions hj)

theorem State.Unreached.executes (h : s.Unreached c) (hnone : s.queuedFor c = [])
    (hsafe : ConnAckSafe c s (.run t ch) = true) (hx : Executes env s t ch i rest nx s') :
    s'.Unreached c where
  code t' j hj := by
    obtain hold | ⟨rfl, hnew⟩ | hgets := hx.mem_code hj
    · exact h.code t' j hold
    · exact h.follows hnone hsafe hx hnew
    · cases t' <;> cases j <;> first | rfl | cases hgets
  index hm := by
    obtain hm | ⟨topic, rfl⟩ := hx.mentions hm
    · exact h.index hm
    · simpa [Instr.reaches] using h.code t _ hx.mem_self

theorem loop_reaches : t.loop.reaches c = false := by
  cases t <;> rfl

theorem State.Unreached.accept (h : s.Unreached c) : s.accept.Unreached c where
  code t i hi := by
    obtain hi | rfl := State.mem_code_accept hi
    · exact h.code t i hi
    · exact loop_reaches
  index := h.index

theorem State.Unreached.acceptPeer (h : s.Unreached c) : s.acceptPeer.Unreached c where
  code t i hi := by
    obtain hi | rfl := State.mem_code_acceptPeer hi
    · exact h.code t i hi
    · exact loop_reaches
  index := h.index

theorem unreached_init : (init env).Unreached c where
  code t i hi := by
    cases t with
    | worker w =>
      simp only [init] at hi
      split at hi
      · obtain rfl := List.mem_singleton.1 hi
        rfl
      · cases hi
    | _ => cases hi
  index := Subscriptions.not_mentions_empty c

/-! ## The first message -/

/-- Nothing is queued for `c` yet and nothing but a CONNACK is going to be, or the
first message was one. -/
def State.Opens (s : State) (c : ConnId) : Prop :=
  s.queuedFor c = [] ∧ s.Unreached c ∨ ∃ rc ms, s.queuedFor c = .connAck rc :: ms

theorem State.queuedFor_accept : s.accept.queuedFor c = s.queuedFor c := by
  simp [State.queuedFor, State.accept, State.log, State.setCode, Event.queuedFor]

/-- What a step queues is sent by its instruction. -/
theorem Executes.queuedFor (hx : Executes env s t ch i rest nx s') :
    s'.queuedFor c = s.queuedFor c ∨
    ∃ j, (i = .send c j ∨ i = .trySend c j) ∧ s'.queuedFor c = s.queuedFor c ++ [j.m] := by
  obtain htr | ⟨e, htr, hlog⟩ := hx.trace
  · exact .inl (by simp [State.queuedFor, htr])
  · have happ : s'.queuedFor c = s.queuedFor c ++ (e.queuedFor c).toList := by
      cases h : e.queuedFor c <;> simp [State.queuedFor, htr, h]
    rw [happ]
    cases e with
    | queued t' c' m =>
      obtain ⟨-, j, hj, rfl⟩ := hlog
      by_cases hc : c' = c
      · subst hc
        exact .inr ⟨j, hj, by simp [Event.queuedFor]⟩
      · exact .inl (by simp [Event.queuedFor, hc])
    | _ => exact .inl (by simp [Event.queuedFor])

theorem State.Opens.executes (h : s.Opens c) (hsafe : ConnAckSafe c s (.run t ch) = true)
    (hx : Executes env s t ch i rest nx s') : s'.Opens c := by
  obtain ⟨hnone, hun⟩ | ⟨rc, ms, hms⟩ := h
  · obtain hq | ⟨j, hi, hq⟩ := hx.queuedFor (c := c)
    · exact .inl ⟨hq.trans hnone, hun.executes hnone hsafe hx⟩
    · -- the sender is known to send a CONNACK
      have hack : j.m.isConnAck = true := by
        have hreach := hun.code t i hx.mem_self
        obtain rfl | rfl := hi <;> simpa [Instr.reaches] using hreach
      rw [hnone] at hq
      cases hm : j.m with
      | connAck rc => exact .inr ⟨rc, [], by rw [hq, hm]; rfl⟩
      | _ => simp [hm, Message.isConnAck] at hack
  · obtain hq | ⟨j, -, hq⟩ := hx.queuedFor (c := c)
    · exact .inr ⟨rc, ms, hq.trans hms⟩
    · exact .inr ⟨rc, ms ++ [j.m], by rw [hq, hms]; rfl⟩

/-- The first message that is put into the jobs queue of a connection is a CONNACK, in a
run whose steps, as long as nothing was queued for it, take none of the other ways to
its queue. -/
theorem connAck_first {acts : List BrokerAction} {m : Message}
    (hrun : Transition.run (step env) (init env) acts = some s)
    (hsafe : Transition.Guarded (step env) (ConnAckSafe c · ·) (init env) acts)
    (hm : (s.queuedFor c).head? = some m) : ∃ rc, m = .connAck rc := by
  have hopens : s.Opens c := by
    refine Transition.run_invariant (I := fun s => s.Opens c) ?_
      (.inl ⟨rfl, unreached_init⟩) hrun hsafe
    intro s a s' hr hI hG hstep
    obtain ⟨-, ⟨-, rfl⟩ | ⟨-, rfl⟩ | ⟨t, ch, i, rest, nx, rfl, hx⟩⟩ := step_cases hstep
    · rw [State.Opens, State.queuedFor_accept]
      exact hI.imp_left fun ⟨hnone, hun⟩ => ⟨hnone, hun.accept⟩
    · exact hI.imp_left fun ⟨hnone, hun⟩ => ⟨hnone, hun.acceptPeer⟩
    · exact hI.executes hG hx
  obtain ⟨hnone, -⟩ | ⟨rc, ms, hms⟩ := hopens
  · rw [hnone] at hm
    cases hm
  · rw [hms] at hm
    exact ⟨rc, (Option.some.inj hm).symm⟩

/-- A client connects with a keep-alive, and then pings. -/
def greets : List BrokerAction :=
  .accept :: sends 0 (.connect { Connect.named (str "a") with keepAliveTimer := 60 }) 10 ++
    sends 0 .pingReq 2

theorem connAck_first_greets :
    ∃ s m, Transition.run (step openEnv) (init openEnv) greets = some s ∧
      (s.queuedFor 0).length = 2 ∧ (s.queuedFor 0).head? = some m ∧ ∃ rc, m = .connAck rc := by
  have heval : (Transition.run (step openEnv) (init openEnv) greets).map
      (fun s => (s.queuedFor 0).length) = some 2 := by decide +kernel
  obtain ⟨s, hrun, hlen⟩ := Option.map_eq_some_iff.1 heval
  obtain ⟨m, hm⟩ : ∃ m, (s.queuedFor 0).head? = some m := by
    cases hq : s.queuedFor 0 with
    | nil => simp [hq] at hlen
    | cons m ms => exact ⟨m, rfl⟩
  exact ⟨s, m, hrun, hlen, hm, connAck_first hrun (by decide +kernel) hm⟩

/-- A PINGREQ is answered before there was a CONNECT. -/
theorem pingResp_first :
    (Transition.run (step openEnv) (init openEnv) (.accept :: sends 0 .pingReq 2)).map
      (·.queuedFor 0) = some [.pingResp] := by
  decide +kernel
