-- SUMMARY: The control flow of the goroutines: which instructions can follow which, and the shape of the code of every goroutine.
import Mhub.Base.Outline
import Mhub.Broker.Step

/-!
# Control flow

`Follows` says which code can take the place of an instruction, whatever the state.
`CodeStep` lifts it to what one step of the system can do to the code of any
goroutine, the running one or another. Facts about the code of the goroutines alone
are proved from `step_code`; the one all others use is `Reachable.shaped`, the shape
of the code of every goroutine.
-/

/-! ## What can follow an instruction -/

/-- Instructions after which the rest of the code can come next. -/
def Instr.falls : Instr → Bool
  | .submitSync .. | .inboundLoop _ | .connectValidate .. | .connectLimit .. | .sendRetain ..
  | .inboundReturn _ | .outboundLoop _ | .encode .. | .outboundReturn _ | .heartbeatLoop _
  | .workerLoop | .handlePost _ | .fanOut _ | .replayLoop => false
  | _ => true

inductive Follows (env : Env) : Instr → Next → Prop where
  | falls {i : Instr} : i.falls = true → Follows env i (.push [])
  | submit {c m} : Follows env (.submit c m) (.push [.send c ⟨m, none⟩])
  | trySubmit {c m} : Follows env (.submit c m) (.push [.trySend c ⟨m, none⟩])
  | submitSync {c m} (r : Nat) : Follows env (.submitSync c m) (.push [.send c ⟨m, some r⟩, .wait r])
  | recv {c} (p : Packet) : Follows env (.inboundLoop c) (.push (handle c p ++ [.inboundLoop c]))
  | recvErr {c} :
    Follows env (.inboundLoop c) (.push [.aborted, .inboundReturn c, .inboundLoop c])
  | validated {c m} :
    Follows env (.connectValidate c m) (.push [.connectLimit c m (validate env.cf m)])
  | limited {c m rc} (clients : Int) :
    Follows env (.connectLimit c m rc)
      (.push (connectBody env.cf c m (checkLimit env.cf clients rc)))
  | takeOver {c} (e : ConnId) :
    Follows env (.addOrTakeOver c) (.push [.submitSync e .disconnect, .del e])
  | storeAll {c} (keys : List GoString) : Follows env (.storeAll c) (.push (keys.map (.redeliver c)))
  | redeliver {c key} (m : Option Message) : Follows env (.redeliver c key) (.push (redelivery c m))
  | rejected {c} {rc : ReturnCode} : rc ≠ .accepted →
    Follows env (.connectReturn c rc) (.jump (inboundDefer c))
  | overRate {c} : Follows env (.pour c) (.push (stop c))
  | overSubs {c} : Follows env (.countSub c) (.push (stop c))
  | noRetain {c topic} : Follows env (.sendRetain c topic) (.push [.unlock])
  | sendRetain {c topic} (m : Publish) :
    Follows env (.sendRetain c topic) (.push [.submit c (.publish m), .unlock])
  | inboundReturn {c} : Follows env (.inboundReturn c) (.jump (inboundDefer c))
  | job {c} (j : Job) : Follows env (.outboundLoop c) (.push (handleJob c j ++ [.outboundLoop c]))
  | stopped {c} : Follows env (.outboundLoop c) (.jump (outboundDefer c))
  | encoded {c j} (ok : Bool) : Follows env (.encode c j) (.push (encoded c j ok))
  | disconnected {c m} : Follows env (.sent c m) (.jump (outboundDefer c))
  | outboundReturn {c} : Follows env (.outboundReturn c) (.jump (outboundDefer c))
  | overIdle {c} : Follows env (.heartbeatLoop c) (.jump [.submitSync c .disconnect, .aborted])
  | tick {c} : Follows env (.heartbeatLoop c) (.push [.heartbeatLoop c])
  | heartbeatStop {c} : Follows env (.heartbeatLoop c) (.jump [])
  | post (m : Publish) : Follows env .workerLoop (.push [.handlePost m, .workerLoop])
  | deleteRetain {m : Publish} : Follows env (.handlePost m) (.jump [.deleteRetain m.topicName])
  | handleLive {m} (isRetain : Bool) : Follows env (.handlePost m) (.push (handleLive m isRetain))
  | fanOut {m} (sl : Slice) : Follows env (.fanOut m) (.push [.deliver m sl 0])
  | deliver {m sl k} (entry : Option ConnId) :
    Follows env (.deliver m sl k) (.push (submitEntry m entry ++ [.deliver m sl (k + 1)]))
  | replay (m : Publish) : Follows env .replayLoop (.push [.post m, .replayLoop])
  | ignore : Follows env .replayLoop (.push [.replayLoop])
  | replayErr : Follows env .replayLoop (.jump [])

variable {env : Env} {s s' : State} {t : Tid} {ch : Choice} {i : Instr} {nx : Next}

theorem exec_follows (h : exec env s t ch i = some (s', nx)) : Follows env i nx := by
  cases i <;> simp only [exec] at h
  all_goals repeat' split at h
  all_goals cases h
  all_goals first
    | exact .falls rfl
    | constructor <;> assumption

/-! ## Steps -/

/-- Goroutine `t` executes the instruction `i`, with `rest` behind it, and goes on
with `nx`. -/
structure Executes (env : Env) (s : State) (t : Tid) (ch : Choice) (i : Instr)
    (rest : List Instr) (nx : Next) (s' : State) : Prop where
  code : s.code t = i :: rest
  effect : ∃ s₁, exec env s t ch i = some (s₁, nx) ∧ s' = s₁.setCode t (nx.apply rest)

/-- What a step can be. -/
theorem step_cases {a : BrokerAction} (h : step env s a = some s') :
    s.panicked = none ∧
    (a = .accept ∧ s' = s.accept ∨ a = .acceptPeer ∧ s' = s.acceptPeer ∨
      ∃ t ch i rest nx, a = .run t ch ∧ Executes env s t ch i rest nx s') := by
  simp only [step] at h
  split at h
  · cases h
  next hp =>
  refine ⟨by simpa using hp, ?_⟩
  cases a with
  | accept => exact .inl ⟨rfl, by simpa using h.symm⟩
  | acceptPeer => exact .inr (.inl ⟨rfl, by simpa using h.symm⟩)
  | run t ch =>
    simp only at h
    split at h
    · cases h
    next i rest hcode =>
    obtain ⟨⟨s₁, nx⟩, hexec, rfl⟩ := Option.map_eq_some_iff.1 h
    exact .inr (.inr ⟨t, ch, i, rest, nx, rfl, hcode, s₁, hexec, rfl⟩)

/-! ## What a step does to the code of a goroutine -/

/-- What executing `i` does to the code of another goroutine: a message is handed
over through an unbuffered channel, or the goroutine is started. -/
inductive Touch (s : State) (i : Instr) : Tid → List Instr → List Instr → Prop where
  | same {t l} : Touch s i t l l
  | job {c j rest} : i = .send c j ∨ i = .trySend c j →
    Touch s i (.outbound c) (.outboundLoop c :: rest) (handleJob c j ++ [.outboundLoop c] ++ rest)
  | post {w m rest} : i = .post m →
    Touch s i (.worker w) (.workerLoop :: rest) ([.handlePost m, .workerLoop] ++ rest)
  | heartbeat {c l} : i = .startHeartbeat c →
    Touch s i (.heartbeat c (s.conns c).heartbeats) l [.heartbeatLoop c]

theorem Touch.update {t' : Tid} {l : List Instr} (hs : s'.code = Function.update s.code t' l)
    (h : Touch s i t' (s.code t') l) : Touch s i t (s.code t) (s'.code t) := by
  rw [hs]
  by_cases ht : t = t'
  · subst ht
    simpa using h
  · simpa [ht] using Touch.same

theorem Touch.enqueue {t₁ : Tid} {c : ConnId} {j : Job}
    (h : s.enqueue env.cf t₁ c j = some s') (hi : i = .send c j ∨ i = .trySend c j) :
    Touch s i t (s.code t) (s'.code t) := by
  obtain ⟨-, rfl⟩ | ⟨-, rest, hcode, rfl⟩ := State.enqueue_eq_some h
  · exact .same
  · refine .update rfl ?_
    rw [hcode]
    exact .job hi

theorem Touch.ofPost {m : Publish} (h : s.post env.cf m ch = some s') :
    Touch s (.post m) t (s.code t) (s'.code t) := by
  obtain rfl | ⟨w, rest, hcode, rfl⟩ := State.post_eq_some h
  · exact .same
  · refine .update rfl ?_
    rw [hcode]
    exact .post rfl

theorem exec_touch (h : exec env s t ch i = some (s', nx)) (t' : Tid) :
    Touch s i t' (s.code t') (s'.code t') := by
  cases i <;> simp only [exec, State.callStore] at h
  all_goals repeat' split at h
  all_goals cases h
  all_goals first
    | exact .same
    | exact .enqueue ‹_› (by simp)
    | exact .ofPost ‹_›
    | exact .update rfl (.heartbeat rfl)

section

variable {rest : List Instr} (h : Executes env s t ch i rest nx s')

include h

theorem Executes.mem_self : i ∈ s.code t := h.code ▸ List.mem_cons_self ..

theorem Executes.follows : Follows env i nx := by
  obtain ⟨-, s₁, h, -⟩ := h
  exact exec_follows h

@[simp] theorem Executes.code_self : s'.code t = nx.apply rest := by
  obtain ⟨-, s₁, -, rfl⟩ := h
  simp [State.setCode]

theorem Executes.touch {t' : Tid} (ht : t' ≠ t) : Touch s i t' (s.code t') (s'.code t') := by
  obtain ⟨-, s₁, h, rfl⟩ := h
  simpa [State.setCode, ht] using exec_touch h t'

/-- No goroutine changes the code of another one's `inboundLoop`. -/
theorem Executes.code_inbound {c : ConnId} (ht : .inbound c ≠ t) :
    s'.code (.inbound c) = s.code (.inbound c) := by
  have htouch := h.touch ht
  generalize s.code (.inbound c) = l, s'.code (.inbound c) = l' at htouch
  cases htouch
  rfl

end

/-- The function a goroutine runs. -/
def Tid.loop : Tid → Instr
  | .inbound c => .inboundLoop c
  | .outbound c => .outboundLoop c
  | .heartbeat c _ => .heartbeatLoop c
  | .worker _ => .workerLoop
  | .replay _ => .replayLoop

/-- What a step does to the code of a goroutine, whoever takes it. -/
inductive CodeStep (env : Env) (t : Tid) : List Instr → List Instr → Prop where
  | same {l} : CodeStep env t l l
  | flow {i rest nx} : Follows env i nx → CodeStep env t (i :: rest) (nx.apply rest)
  | start {l} : CodeStep env t l [t.loop]

theorem Touch.codeStep {l l' : List Instr} (h : Touch s i t l l') : CodeStep env t l l' := by
  cases h with
  | same => exact .same
  | @job c j => exact .flow (.job j)
  | @post w m => exact .flow (.post m)
  | heartbeat _ => exact .start

theorem State.code_accept (s : State) (t : Tid) :
    s.accept.code t = s.code t ∨ s.accept.code t = [t.loop] := by
  by_cases hnew : t = .inbound s.nconns ∨ t = .outbound s.nconns
  · refine .inr ?_
    obtain rfl | rfl := hnew <;> simp [State.accept, State.log, State.setCode, Tid.loop]
  · refine .inl ?_
    simp_all [State.accept, State.log, State.setCode]

theorem State.code_acceptPeer (s : State) (t : Tid) :
    s.acceptPeer.code t = s.code t ∨ s.acceptPeer.code t = [t.loop] := by
  by_cases hnew : t = .replay s.npeers
  · subst hnew
    exact .inr (by simp [State.acceptPeer, State.setCode, Tid.loop])
  · exact .inl (by simp [State.acceptPeer, State.setCode, hnew])

theorem step_code {a : BrokerAction} (h : step env s a = some s') (t : Tid) :
    CodeStep env t (s.code t) (s'.code t) := by
  obtain ⟨-, ⟨-, rfl⟩ | ⟨-, rfl⟩ | ⟨t₁, ch, i, rest, nx, -, hx⟩⟩ := step_cases h
  · obtain hcode | hcode := s.code_accept t <;> rw [hcode]
    · exact .same
    · exact .start
  · obtain hcode | hcode := s.code_acceptPeer t <;> rw [hcode]
    · exact .same
    · exact .start
  · by_cases ht : t = t₁
    · subst ht
      rw [hx.code, hx.code_self]
      exact .flow hx.follows
    · exact (hx.touch ht).codeStep

/-! ## The shape of the code -/

/-- The instructions of the handlers of `inboundLoop`. -/
def Instr.inHandler (c : ConnId) : Instr → Bool
  | .aborted | .wait _ | .del _ | .checkIn _ | .post _ | .replicate _ | .unlock => true
  | .submitSync _ m => m = .disconnect
  | .send c' j => c' = c ∨ j.m = .disconnect
  | .submit c' _ | .trySend c' _ | .connectValidate c' _ | .connectLimit c' _ _
  | .addOrTakeOver c' | .add c' | .startHeartbeat c' | .getClientStore c' _ | .storeReset c'
  | .storeAll c' | .redeliver c' _ | .connectReturn c' _ | .pour c' | .closeStop c'
  | .authorized c' | .persistInbound c' _ | .countSub c' | .subsAdd c' _ | .sendRetain c' _
  | .uncountSub c' | .unsub c' _ | .inboundReturn c' => c' = c
  | _ => false

/-- The instructions with which `outboundLoop` handles a job. -/
def Instr.inSender (c : ConnId) : Instr → Bool
  | .closeReceipt _ => true
  | .persistOutbound c' _ | .encode c' _ | .sent c' _ | .outboundReturn c' => c' = c
  | _ => false

/-- The instructions with which a worker handles a post. -/
def Instr.inWorker : Instr → Bool
  | .handlePost _ | .fanOut _ | .deliver _ _ _ | .storeRetain _ => true
  | .submit _ m => m.isPublish
  | .send _ j | .trySend _ j => j.m.isPublish && j.r.isNone
  | _ => false

/-- The instructions of one iteration of a goroutine's loop. -/
def Tid.inBody : Tid → Instr → Bool
  | .inbound c, i => i.inHandler c
  | .outbound c, i => i.inSender c
  | .worker _, i => i.inWorker
  | .replay _, .post _ => true
  | _, _ => false

/-- The code of a goroutine that has left its loop. -/
def Tid.Exits : Tid → List Instr → Prop
  | .inbound c, l => l <:+ inboundDefer c
  | .outbound c, l => l <:+ outboundDefer c
  | .heartbeat c _, l => ∀ i ∈ l, i = .submitSync c .disconnect ∨
      (∃ r, i = .send c ⟨.disconnect, some r⟩ ∨ i = .wait r) ∨ i = .aborted
  | .worker _, l => ∃ topic, l <:+ [.deleteRetain topic]
  | .replay _, l => l = []

/-- A goroutine is in its loop, with the rest of an iteration before it, or has
left it. -/
def Tid.Shaped (t : Tid) (l : List Instr) : Prop :=
  (∃ body, l = body ++ [t.loop] ∧ body.all t.inBody = true) ∨ t.Exits l

theorem handle_inHandler {c : ConnId} {p : Packet} : (handle c p).all (·.inHandler c) = true := by
  cases p <;> simp [handle, doConnect, doPublish, doSubscribe, doUnsubscribe, doPublishAck,
    Instr.inHandler, List.all_flatMap, Function.comp_def]

theorem connectBody_inHandler {cf : BrokerConfig} {c : ConnId} {m : Connect} {rc : ReturnCode} :
    (connectBody cf c m rc).all (·.inHandler c) = true := by
  simp only [connectBody]
  split <;> split <;> split <;> simp [Instr.inHandler]

theorem redelivery_inHandler {c : ConnId} {m : Option Message} :
    (redelivery c m).all (·.inHandler c) = true := by
  simp only [redelivery]
  repeat' split
  all_goals simp [Instr.inHandler]

/-- What follows an instruction stays in the body, or leaves the loop. -/
def Next.Stays (body : Instr → Bool) (exits : List Instr → Prop) : Next → Prop
  | .push is => is.all body = true
  | .jump l => exits l

theorem handler_follows {c : ConnId} (hi : i.inHandler c = true) (h : Follows env i nx) :
    nx.Stays (·.inHandler c) (· <:+ inboundDefer c) := by
  cases h with
  | falls _ => rfl
  | redeliver m =>
    simp only [Instr.inHandler, decide_eq_true_eq] at hi
    subst hi
    exact redelivery_inHandler
  | limited n =>
    simp only [Instr.inHandler, decide_eq_true_eq] at hi
    subst hi
    exact connectBody_inHandler
  | _ => simp_all [Instr.inHandler, Next.Stays, stop]

theorem sender_follows {c : ConnId} (hi : i.inSender c = true) (h : Follows env i nx) :
    nx.Stays (·.inSender c) (· <:+ outboundDefer c) := by
  cases h with
  | falls _ => rfl
  | @encoded _ j ok =>
    simp only [Instr.inSender, decide_eq_true_eq] at hi
    cases ok <;> cases hr : j.r <;> simp [encoded, Next.Stays, Instr.inSender, hi, hr]
  | _ => simp_all [Instr.inSender, Next.Stays]

theorem worker_follows (hi : i.inWorker = true) (h : Follows env i nx) :
    nx.Stays (·.inWorker) (∃ topic, · <:+ [.deleteRetain topic]) := by
  cases h with
  | falls _ => rfl
  | handleLive isRetain => cases isRetain <;> rfl
  | deliver entry => cases entry <;> rfl
  | @deleteRetain m => exact ⟨m.topicName, List.suffix_refl _⟩
  | _ => simp_all [Instr.inWorker, Next.Stays]

theorem body_follows (hi : t.inBody i = true) (h : Follows env i nx) :
    nx.Stays t.inBody t.Exits := by
  cases t with
  | inbound c => exact handler_follows hi h
  | outbound c => exact sender_follows hi h
  | heartbeat c k => cases hi
  | worker w => exact worker_follows hi h
  | replay p =>
    cases h with
    | falls _ => rfl
    | _ => cases hi

/-- What follows a loop: an iteration and the loop, or the exit. -/
theorem loop_follows (h : Follows env t.loop nx) :
    (∃ body, nx = .push (body ++ [t.loop]) ∧ body.all t.inBody = true) ∨
    ∃ l, nx = .jump l ∧ t.Exits l := by
  cases t with
  | inbound c =>
    cases h with
    | falls hf => cases hf
    | recv p => exact .inl ⟨handle c p, rfl, handle_inHandler⟩
    | recvErr =>
      exact .inl ⟨[.aborted, .inboundReturn c], rfl, by simp [Tid.inBody, Instr.inHandler]⟩
  | outbound c =>
    cases h with
    | falls hf => cases hf
    | job j =>
      exact .inl ⟨handleJob c j, rfl, by simp [handleJob, Tid.inBody, Instr.inSender]⟩
    | stopped => exact .inr ⟨_, rfl, List.suffix_refl _⟩
  | heartbeat c k =>
    cases h with
    | falls hf => cases hf
    | overIdle => exact .inr ⟨_, rfl, by simp [Tid.Exits]⟩
    | tick => exact .inl ⟨[], rfl, rfl⟩
    | heartbeatStop => exact .inr ⟨_, rfl, by simp [Tid.Exits]⟩
  | worker w =>
    cases h with
    | falls hf => cases hf
    | post m => exact .inl ⟨[.handlePost m], rfl, rfl⟩
  | replay p =>
    cases h with
    | falls hf => cases hf
    | replay m => exact .inl ⟨[.post m], rfl, rfl⟩
    | ignore => exact .inl ⟨[], rfl, rfl⟩
    | replayErr => exact .inr ⟨_, rfl, rfl⟩

/-- The deferred functions run straight through. -/
theorem follows_of_mem_inboundDefer {c : ConnId} (hi : i ∈ inboundDefer c)
    (h : Follows env i nx) : nx = .push [] := by
  simp only [inboundDefer, List.mem_cons, List.not_mem_nil, or_false] at hi
  obtain rfl | rfl | rfl | rfl | rfl := hi <;> cases h <;> rfl

theorem follows_of_mem_outboundDefer {c : ConnId} (hi : i ∈ outboundDefer c)
    (h : Follows env i nx) : nx = .push [] := by
  simp only [outboundDefer, List.mem_cons, List.not_mem_nil, or_false] at hi
  obtain rfl | rfl | rfl | rfl := hi <;> cases h <;> rfl

theorem Tid.Exits.follows {rest : List Instr} (hx : t.Exits (i :: rest)) (h : Follows env i nx) :
    t.Exits (nx.apply rest) := by
  cases t with
  | inbound c =>
    obtain rfl := follows_of_mem_inboundDefer (hx.subset (List.mem_cons_self ..)) h
    exact (List.suffix_cons i rest).trans hx
  | outbound c =>
    obtain rfl := follows_of_mem_outboundDefer (hx.subset (List.mem_cons_self ..)) h
    exact (List.suffix_cons i rest).trans hx
  | heartbeat c k =>
    obtain ⟨hi, hrest⟩ := List.forall_mem_cons.1 hx
    obtain rfl | ⟨r, rfl | rfl⟩ | rfl := hi <;> cases h
    case submitSync r => simpa [Next.apply, Tid.Exits] using hrest
    all_goals exact hrest
  | worker w =>
    obtain ⟨topic, hx⟩ := hx
    have hi : i ∈ [Instr.deleteRetain topic] := hx.subset (List.mem_cons_self ..)
    have hrest : rest <:+ [Instr.deleteRetain topic] := (List.suffix_cons i rest).trans hx
    obtain rfl := List.mem_singleton.1 hi
    cases h
    exact ⟨topic, hrest⟩
  | replay p => cases hx

/-- An instruction of the deferred function is only met while it runs. -/
theorem Tid.Shaped.deferred {c : ConnId} {rest : List Instr}
    (h : (Tid.inbound c).Shaped (i :: rest)) (hi : i ∈ inboundDefer c) :
    i :: rest <:+ inboundDefer c := by
  obtain ⟨body, hl, hbody⟩ | hx := h
  · simp only [inboundDefer, List.mem_cons, List.not_mem_nil, or_false] at hi
    cases body with
    | nil =>
      obtain ⟨rfl, -⟩ := List.cons.inj hl
      simp [Tid.loop] at hi
    | cons j body =>
      obtain ⟨rfl, -⟩ := List.cons.inj hl
      obtain rfl | rfl | rfl | rfl | rfl := hi <;> simp [Tid.inBody, Instr.inHandler] at hbody
  · exact hx

/-- What `inboundLoop` can be about to do. -/
theorem Tid.Shaped.inbound {c : ConnId} {rest : List Instr}
    (h : (Tid.inbound c).Shaped (i :: rest)) :
    i = .inboundLoop c ∨ i.inHandler c = true ∨ i ∈ inboundDefer c := by
  obtain ⟨body, hl, hbody⟩ | hx := h
  · cases body with
    | nil => exact .inl (List.cons.inj hl).1
    | cons j body =>
      obtain ⟨rfl, -⟩ := List.cons.inj hl
      simp only [List.all_cons, Bool.and_eq_true] at hbody
      exact .inr (.inl hbody.1)
  · exact .inr (.inr (hx.subset (List.mem_cons_self ..)))

/-- Nothing follows a loop. -/
theorem Tid.Shaped.rest_of_loop {rest : List Instr} (h : t.Shaped (t.loop :: rest)) :
    rest = [] := by
  obtain ⟨body, hl, hbody⟩ | hx := h
  · cases body with
    | nil => exact (List.cons.inj hl).2
    | cons j body =>
      obtain ⟨rfl, -⟩ := List.cons.inj hl
      cases t <;> simp [Tid.inBody, Tid.loop, Instr.inHandler, Instr.inSender, Instr.inWorker]
        at hbody
  · cases t with
    | inbound c => simpa [inboundDefer, Tid.loop] using hx.subset (List.mem_cons_self ..)
    | outbound c => simpa [outboundDefer, Tid.loop] using hx.subset (List.mem_cons_self ..)
    | heartbeat c k => simpa [Tid.loop] using hx _ (List.mem_cons_self ..)
    | worker w =>
      obtain ⟨topic, hx⟩ := hx
      simpa [Tid.loop] using hx.subset (List.mem_cons_self ..)
    | replay p => cases hx

theorem Tid.Shaped.codeStep {l l' : List Instr} (hl : t.Shaped l) (h : CodeStep env t l l') :
    t.Shaped l' := by
  cases h with
  | same => exact hl
  | start => exact .inl ⟨[], rfl, rfl⟩
  | @flow i rest nx hf =>
    obtain ⟨body, hl, hbody⟩ | hx := hl
    · cases body with
      | nil =>
        -- the loop itself
        obtain ⟨rfl, rfl⟩ := List.cons.inj hl
        obtain ⟨body, rfl, hbody⟩ | ⟨l, rfl, hx⟩ := loop_follows hf
        · exact .inl ⟨body, by simp [Next.apply], hbody⟩
        · exact .inr hx
      | cons j body =>
        obtain ⟨rfl, rfl⟩ := List.cons.inj hl
        simp only [List.all_cons, Bool.and_eq_true] at hbody
        have hstay := body_follows hbody.1 hf
        cases nx with
        | push is =>
          refine .inl ⟨is ++ body, by simp [Next.apply], ?_⟩
          rw [List.all_append, hstay, hbody.2]
          rfl
        | jump l => exact .inr hstay
    · exact .inr (hx.follows hf)

theorem shaped_init (t : Tid) : t.Shaped ((init env).code t) := by
  cases t with
  | worker w =>
    by_cases hw : w < env.cf.subscriptionsWorkers
    · exact .inl ⟨[], by simp [init, hw, Tid.loop], rfl⟩
    · exact .inr ⟨[], by simp [init, hw]⟩
  | _ => exact .inr (by simp [init, Tid.Exits])

/-- The states a broker can get into. -/
abbrev Reachable (env : Env) (s : State) : Prop := Transition.Reachable (step env) (init env) s

/-- Every goroutine is in its loop or has left it, in every reachable state. -/
theorem Reachable.shaped (h : Reachable env s) (t : Tid) : t.Shaped (s.code t) := by
  refine h.invariant (I := fun s => ∀ t, t.Shaped (s.code t)) ?_ shaped_init t
  intro s a s' _ hs hstep t
  exact (hs t).codeStep (step_code hstep t)

/-! ## Where an instruction can be -/

/-- The only goroutine that can hold an instruction. -/
def Instr.home : Instr → Option Tid
  | .inboundLoop c | .connectValidate c _ | .connectLimit c _ _ | .addOrTakeOver c | .add c
  | .startHeartbeat c | .getClientStore c _ | .storeReset c | .storeAll c | .redeliver c _
  | .connectReturn c _ | .pour c | .closeStop c | .authorized c | .persistInbound c _
  | .countSub c | .subsAdd c _ | .sendRetain c _ | .uncountSub c | .unsub c _
  | .inboundReturn c | .clientDisconnect c | .storeClose c | .setDead c | .closeJobs c
  | .onTerminate c => some (.inbound c)
  | .outboundLoop c | .persistOutbound c _ | .encode c _ | .sent c _ | .outboundReturn c
  | .closeHeartbeat c | .closeConn c | .unsubAll c => some (.outbound c)
  | _ => none

theorem inHandler_home {c : ConnId} (hi : i.inHandler c = true) (hh : i.home = some t) :
    .inbound c = t := by
  cases i <;> simp only [Instr.home, Option.some.injEq, reduceCtorEq] at hh <;> subst hh
  all_goals simp only [Instr.inHandler, decide_eq_true_eq, Bool.false_eq_true] at hi
  all_goals exact congrArg Tid.inbound hi.symm

theorem inSender_home {c : ConnId} (hi : i.inSender c = true) (hh : i.home = some t) :
    .outbound c = t := by
  cases i <;> simp only [Instr.home, Option.some.injEq, reduceCtorEq] at hh <;> subst hh
  all_goals simp only [Instr.inSender, decide_eq_true_eq, Bool.false_eq_true] at hi
  all_goals exact congrArg Tid.outbound hi.symm

theorem inWorker_home (hi : i.inWorker = true) : i.home = none := by
  cases i <;> first | rfl | cases hi

theorem Tid.inBody.home {t' : Tid} (hi : t.inBody i = true) (hh : i.home = some t') : t = t' := by
  cases t with
  | inbound c => exact inHandler_home hi hh
  | outbound c => exact inSender_home hi hh
  | heartbeat c k => cases hi
  | worker w => simp [inWorker_home hi] at hh
  | replay p => cases i <;> first | cases hh; done | cases hi

theorem Tid.Shaped.home {t' : Tid} {l : List Instr} (hl : t.Shaped l) (hi : i ∈ l)
    (hh : i.home = some t') : t = t' := by
  obtain ⟨body, rfl, hbody⟩ | hx := hl
  · obtain hi | hi := List.mem_append.1 hi
    · exact Tid.inBody.home (List.all_eq_true.1 hbody i hi) hh
    · obtain rfl := List.mem_singleton.1 hi
      cases t <;> simp_all [Instr.home, Tid.loop]
  · cases t with
    | inbound c =>
      have hmem : i ∈ inboundDefer c := hx.subset hi
      simp only [inboundDefer, List.mem_cons, List.not_mem_nil, or_false] at hmem
      obtain rfl | rfl | rfl | rfl | rfl := hmem <;> simpa [Instr.home] using hh
    | outbound c =>
      have hmem : i ∈ outboundDefer c := hx.subset hi
      simp only [outboundDefer, List.mem_cons, List.not_mem_nil, or_false] at hmem
      obtain rfl | rfl | rfl | rfl := hmem <;> simp [Instr.home] at hh ⊢ <;> exact hh
    | heartbeat c k =>
      obtain rfl | ⟨r, rfl | rfl⟩ | rfl := hx i hi <;> cases hh
    | worker w =>
      obtain ⟨topic, hx⟩ := hx
      obtain rfl := List.mem_singleton.1 (hx.subset hi)
      cases hh
    | replay p => simp_all [Tid.Exits]

theorem Executes.home {rest : List Instr} (h : Executes env s t ch i rest nx s')
    (hr : Reachable env s) {t' : Tid}
    (hh : i.home = some t') : t = t' :=
  (hr.shaped t).home (by rw [h.code]; exact List.mem_cons_self ..) hh

/-! ## Where an instruction comes from -/

/-- The instructions `inboundLoop` puts in front of itself. -/
def Instr.inEntry (c : ConnId) : Instr → Bool
  | .aborted | .post _ | .replicate _ => true
  | .inboundLoop c' | .inboundReturn c' | .connectValidate c' _ | .pour c' | .authorized c'
  | .persistInbound c' _ | .countSub c' | .subsAdd c' _ | .sendRetain c' _ | .uncountSub c'
  | .unsub c' _ | .submit c' _ => c' = c
  | _ => false

/-- The instructions of `connectBody`. -/
def Instr.inConnect (c : ConnId) : Instr → Bool
  | .checkIn _ => true
  | .addOrTakeOver c' | .add c' | .startHeartbeat c' | .getClientStore c' _ | .storeAll c'
  | .storeReset c' | .submit c' _ | .connectReturn c' _ => c' = c
  | _ => false

/-- Executing `i` can put `j` into the code of its goroutine. -/
def Instr.brings : Instr → Instr → Bool
  | .submit c m, .send c' j | .submit c m, .trySend c' j => c' = c ∧ j = ⟨m, none⟩
  | .submitSync c m, .send c' j => c' = c ∧ j.m = m
  | .submitSync _ _, .wait _ => true
  | .inboundLoop c, j => j.inEntry c
  | .connectValidate c m, .connectLimit c' m' _ => c' = c ∧ m' = m
  | .connectLimit c _ _, j => j.inConnect c
  | .addOrTakeOver _, .submitSync _ m => m = .disconnect
  | .addOrTakeOver _, .del _ => true
  | .storeAll c, .redeliver c' _ => c' = c
  | .redeliver c _, .submit c' _ => c' = c
  | .connectReturn c _, j | .inboundReturn c, j => j ∈ inboundDefer c
  | .pour c, j | .countSub c, j => j ∈ stop c
  | .sendRetain c _, .submit c' m => c' = c ∧ m.isPublish
  | .sendRetain _ _, .unlock => true
  | .outboundLoop c, .persistOutbound c' _ | .outboundLoop c, .encode c' _ => c' = c
  | .outboundLoop c, j => j = .outboundLoop c ∨ j ∈ outboundDefer c
  | .encode _ _, .closeReceipt _ => true
  | .encode c j, i => i = .sent c j.m ∨ i = .outboundReturn c
  | .sent c _, j | .outboundReturn c, j => j ∈ outboundDefer c
  | .heartbeatLoop c, j => j = .heartbeatLoop c ∨ j = .submitSync c .disconnect ∨ j = .aborted
  | .workerLoop, .handlePost _ | .workerLoop, .workerLoop => true
  | .handlePost m, j => j = .deleteRetain m.topicName ∨ j = .fanOut m ∨ j = .storeRetain m
  | .fanOut m, .deliver m' _ k => m' = m ∧ k = 0
  | .deliver m _ _, .submit _ m' => m' = .publish m
  | .deliver m sl k, j => j = .deliver m sl (k + 1)
  | .replayLoop, .post _ | .replayLoop, .replayLoop => true
  | _, _ => false

def Instr.Stops (c : ConnId) (i : Instr) : Prop := i = .pour c ∨ i = .countSub c

/-- The instructions that can lead to the deferred function of `inboundLoop`. -/
def Instr.EndsInbound (c : ConnId) (i : Instr) : Prop :=
  i = .inboundReturn c ∨ ∃ rc, i = .connectReturn c rc

/-- The instructions that can lead to the deferred function of `outboundLoop`. -/
def Instr.EndsOutbound (c : ConnId) (i : Instr) : Prop :=
  i = .outboundLoop c ∨ (∃ m, i = .sent c m) ∨ i = .outboundReturn c

/-- The pairs of `brings`, one by one: what `i` can put into its code, and what can have
put `j` there, is a case analysis. -/
inductive Instr.Brings : Instr → Instr → Prop where
  | send {c m} : Brings (.submit c m) (.send c ⟨m, none⟩)
  | trySend {c m} : Brings (.submit c m) (.trySend c ⟨m, none⟩)
  | sendSync {c m r} : Brings (.submitSync c m) (.send c ⟨m, r⟩)
  | wait {c m r} : Brings (.submitSync c m) (.wait r)
  -- the handlers of `inboundLoop`
  | recvErr {c} : Brings (.inboundLoop c) .aborted
  | inboundReturn {c} : Brings (.inboundLoop c) (.inboundReturn c)
  | inboundLoop {c} : Brings (.inboundLoop c) (.inboundLoop c)
  | connectValidate {c m} : Brings (.inboundLoop c) (.connectValidate c m)
  | pour {c} : Brings (.inboundLoop c) (.pour c)
  | authorized {c} : Brings (.inboundLoop c) (.authorized c)
  | persistInbound {c m} : Brings (.inboundLoop c) (.persistInbound c m)
  | post {c m} : Brings (.inboundLoop c) (.post m)
  | replicate {c m} : Brings (.inboundLoop c) (.replicate m)
  | countSub {c} : Brings (.inboundLoop c) (.countSub c)
  | subsAdd {c topic} : Brings (.inboundLoop c) (.subsAdd c topic)
  | sendRetain {c topic} : Brings (.inboundLoop c) (.sendRetain c topic)
  | uncountSub {c} : Brings (.inboundLoop c) (.uncountSub c)
  | unsub {c topic} : Brings (.inboundLoop c) (.unsub c topic)
  | answer {c m} : Brings (.inboundLoop c) (.submit c m)
  | retained {c topic m} : Brings (.sendRetain c topic) (.submit c (.publish m))
  | unlock {c topic} : Brings (.sendRetain c topic) .unlock
  -- `doConnect`
  | connectLimit {c m rc} : Brings (.connectValidate c m) (.connectLimit c m rc)
  | addOrTakeOver {c m rc} : Brings (.connectLimit c m rc) (.addOrTakeOver c)
  | add {c m rc} : Brings (.connectLimit c m rc) (.add c)
  | startHeartbeat {c m rc} : Brings (.connectLimit c m rc) (.startHeartbeat c)
  | getClientStore {c m rc id} : Brings (.connectLimit c m rc) (.getClientStore c id)
  | storeAll {c m rc} : Brings (.connectLimit c m rc) (.storeAll c)
  | storeReset {c m rc} : Brings (.connectLimit c m rc) (.storeReset c)
  | checkIn {c m rc u} : Brings (.connectLimit c m rc) (.checkIn u)
  | connAck {c m rc ack} : Brings (.connectLimit c m rc) (.submit c ack)
  | connectReturn {c m rc rc'} : Brings (.connectLimit c m rc) (.connectReturn c rc')
  | takeOver {c e} : Brings (.addOrTakeOver c) (.submitSync e .disconnect)
  | del {c e} : Brings (.addOrTakeOver c) (.del e)
  | redeliver {c key} : Brings (.storeAll c) (.redeliver c key)
  | resend {c key m} : Brings (.redeliver c key) (.submit c m)
  -- `outboundLoop`
  | persistOutbound {c m} : Brings (.outboundLoop c) (.persistOutbound c m)
  | encode {c j} : Brings (.outboundLoop c) (.encode c j)
  | outboundLoop {c} : Brings (.outboundLoop c) (.outboundLoop c)
  | closeReceipt {c j r} : Brings (.encode c j) (.closeReceipt r)
  | sent {c j} : Brings (.encode c j) (.sent c j.m)
  | outboundReturn {c j} : Brings (.encode c j) (.outboundReturn c)
  -- `heartbeat`
  | tick {c} : Brings (.heartbeatLoop c) (.heartbeatLoop c)
  | overIdle {c} : Brings (.heartbeatLoop c) (.submitSync c .disconnect)
  | idle {c} : Brings (.heartbeatLoop c) .aborted
  -- the workers and `replay`
  | handlePost {m} : Brings .workerLoop (.handlePost m)
  | workerLoop : Brings .workerLoop .workerLoop
  | deleteRetain {m : Publish} : Brings (.handlePost m) (.deleteRetain m.topicName)
  | fanOut {m} : Brings (.handlePost m) (.fanOut m)
  | storeRetain {m} : Brings (.handlePost m) (.storeRetain m)
  | deliver {m sl} : Brings (.fanOut m) (.deliver m sl 0)
  | deliverNext {m sl k} : Brings (.deliver m sl k) (.deliver m sl (k + 1))
  | delivery {m sl k c} : Brings (.deliver m sl k) (.submit c (.publish m))
  | replayed {m} : Brings .replayLoop (.post m)
  | replayLoop : Brings .replayLoop .replayLoop
  -- the end of a connection
  | stopAborted {c i} : i.Stops c → Brings i .aborted
  | closeStop {c i} : i.Stops c → Brings i (.closeStop c)
  | clientDisconnect {c i} : i.EndsInbound c → Brings i (.clientDisconnect c)
  | storeClose {c i} : i.EndsInbound c → Brings i (.storeClose c)
  | setDead {c i} : i.EndsInbound c → Brings i (.setDead c)
  | closeJobs {c i} : i.EndsInbound c → Brings i (.closeJobs c)
  | onTerminate {c i} : i.EndsInbound c → Brings i (.onTerminate c)
  | closeHeartbeat {c i} : i.EndsOutbound c → Brings i (.closeHeartbeat c)
  | closeConn {c i} : i.EndsOutbound c → Brings i (.closeConn c)
  | delOwn {c i} : i.EndsOutbound c → Brings i (.del c)
  | unsubAll {c i} : i.EndsOutbound c → Brings i (.unsubAll c)

theorem Instr.brings_of_inEntry {j : Instr} {c : ConnId} (h : j.inEntry c = true) :
    Instr.Brings (.inboundLoop c) j := by
  cases j <;> first
    | exact absurd h Bool.false_ne_true
    | obtain rfl := of_decide_eq_true h
      constructor
    | constructor

theorem Instr.brings_of_inConnect {j : Instr} {c : ConnId} {m : Connect} {rc : ReturnCode}
    (h : j.inConnect c = true) : Instr.Brings (.connectLimit c m rc) j := by
  cases j <;> first
    | exact absurd h Bool.false_ne_true
    | obtain rfl := of_decide_eq_true h
      constructor
    | constructor

theorem Instr.Stops.brings {j : Instr} {c : ConnId} (hi : i.Stops c) (h : j ∈ stop c) :
    i.Brings j := by
  simp only [stop, List.mem_cons, List.not_mem_nil, or_false] at h
  obtain rfl | rfl := h
  · exact .stopAborted hi
  · exact .closeStop hi

theorem Instr.EndsInbound.brings {j : Instr} {c : ConnId} (hi : i.EndsInbound c)
    (h : j ∈ inboundDefer c) : i.Brings j := by
  simp only [inboundDefer, List.mem_cons, List.not_mem_nil, or_false] at h
  obtain rfl | rfl | rfl | rfl | rfl := h
  exacts [.clientDisconnect hi, .storeClose hi, .setDead hi, .closeJobs hi, .onTerminate hi]

theorem Instr.EndsOutbound.brings {j : Instr} {c : ConnId} (hi : i.EndsOutbound c)
    (h : j ∈ outboundDefer c) : i.Brings j := by
  simp only [outboundDefer, List.mem_cons, List.not_mem_nil, or_false] at h
  obtain rfl | rfl | rfl | rfl := h
  exacts [.closeHeartbeat hi, .closeConn hi, .delOwn hi, .unsubAll hi]

theorem Instr.brings_cases {j : Instr} (h : i.brings j = true) : i.Brings j := by
  cases i with
  | inboundLoop c => exact Instr.brings_of_inEntry h
  | connectLimit c m rc => exact Instr.brings_of_inConnect h
  | pour c => exact Instr.Stops.brings (.inl rfl) (of_decide_eq_true h)
  | countSub c => exact Instr.Stops.brings (.inr rfl) (of_decide_eq_true h)
  | connectReturn c rc => exact Instr.EndsInbound.brings (.inr ⟨rc, rfl⟩) (of_decide_eq_true h)
  | inboundReturn c => exact Instr.EndsInbound.brings (.inl rfl) (of_decide_eq_true h)
  | sent c m => exact Instr.EndsOutbound.brings (.inr (.inl ⟨m, rfl⟩)) (of_decide_eq_true h)
  | outboundReturn c => exact Instr.EndsOutbound.brings (.inr (.inr rfl)) (of_decide_eq_true h)
  | outboundLoop c =>
    by_cases hdefer : j ∈ outboundDefer c
    · exact Instr.EndsOutbound.brings (.inl rfl) hdefer
    · cases j <;> simp only [Instr.brings, hdefer, or_false, reduceCtorEq, decide_false,
        Bool.false_eq_true, decide_eq_true_eq] at h
      all_goals
        cases h
        constructor
  | encode c j' =>
    cases j <;> simp only [Instr.brings, reduceCtorEq, or_self, or_false, false_or, decide_false,
      Bool.false_eq_true, decide_eq_true_eq] at h
    all_goals
      cases h
      constructor
  | heartbeatLoop c | handlePost m =>
    obtain rfl | rfl | rfl := of_decide_eq_true h <;> constructor
  | sendRetain c topic =>
    cases j with
    | submit c' m =>
      obtain ⟨rfl, hpub⟩ := of_decide_eq_true h
      cases m with
      | publish m => exact .retained
      | _ => cases hpub
    | unlock => exact .unlock
    | _ => cases h
  | _ =>
    first
      | exact absurd h Bool.false_ne_true
      | cases j
    all_goals first
      | exact absurd h Bool.false_ne_true
      | obtain ⟨rfl, rfl⟩ := of_decide_eq_true h
        constructor
      | constructor

def Next.instrs : Next → List Instr
  | .push is => is
  | .jump is => is

theorem Next.mem_apply {rest : List Instr} (h : i ∈ nx.apply rest) : i ∈ nx.instrs ∨ i ∈ rest := by
  cases nx with
  | push is => exact List.mem_append.1 h
  | jump is => exact .inl h

theorem handle_inEntry {c : ConnId} {p : Packet} : (handle c p).all (·.inEntry c) = true := by
  cases p <;> simp [handle, doConnect, doPublish, doSubscribe, doUnsubscribe, doPublishAck,
    Instr.inEntry, List.all_flatMap, Function.comp_def]

/-- What the handler of a message does. -/
inductive Handles (c : ConnId) : Packet → Instr → Prop where
  | connectValidate {m} : Handles c (.connect m) (.connectValidate c m)
  | pour {retain m} : Handles c (.publish retain m) (.pour c)
  | authorized {retain m} : Handles c (.publish retain m) (.authorized c)
  | persistInbound {retain m} : Handles c (.publish retain m) (.persistInbound c m)
  | post {retain m} : Handles c (.publish retain m) (.post m)
  | replicate {retain m} : Handles c (.publish retain m) (.replicate m)
  | pubAck {retain m} : m.qosLevel = .atLeastOnce →
    Handles c (.publish retain m) (.submit c (.pubAck ⟨.atMostOnce, m.messageId⟩))
  | subscribe {m} : Handles c (.subscribe m) (.authorized c)
  | countSub {m} : Handles c (.subscribe m) (.countSub c)
  | subsAdd {m tq} : tq ∈ m.topics → Handles c (.subscribe m) (.subsAdd c tq.1)
  | subAck {m} : Handles c (.subscribe m)
      (.submit c (.subAck m.messageId (m.topics.map fun _ => .atMostOnce)))
  | sendRetain {m tq} : tq ∈ m.topics → Handles c (.subscribe m) (.sendRetain c tq.1)
  | uncountSub {m} : Handles c (.unsubscribe m) (.uncountSub c)
  | unsub {m f} : f ∈ m.topics → Handles c (.unsubscribe m) (.unsub c f)
  | unsubAck {m} : Handles c (.unsubscribe m) (.submit c (.unsubAck m.messageId))
  | pingResp : Handles c .pingReq (.submit c .pingResp)
  | disconnect : Handles c .disconnect (.inboundReturn c)
  | other : Handles c .other (.inboundReturn c)

theorem handles_of_mem {c : ConnId} {p : Packet} (h : i ∈ handle c p) : Handles c p i := by
  cases p with
  | publish retain m =>
    simp only [handle, doPublish, List.mem_append, List.mem_cons, List.not_mem_nil, or_false] at h
    obtain (rfl | rfl | rfl | rfl | rfl) | h := h
    iterate 5 constructor
    split at h
    · next hq =>
      obtain rfl := List.mem_singleton.1 h
      exact .pubAck hq
    · cases h
  | subscribe m =>
    simp only [handle, doSubscribe, List.mem_append, List.mem_flatMap, List.mem_map,
      List.mem_cons, List.not_mem_nil, or_false] at h
    obtain ((rfl | ⟨tq, htq, rfl | rfl⟩) | rfl) | ⟨tq, htq, rfl⟩ := h
    exacts [.subscribe, .countSub, .subsAdd htq, .subAck, .sendRetain htq]
  | unsubscribe m =>
    simp only [handle, doUnsubscribe, List.mem_append, List.mem_flatMap, List.mem_cons,
      List.not_mem_nil, or_false] at h
    obtain ⟨f, hf, rfl | rfl⟩ | rfl := h
    exacts [.uncountSub, .unsub hf, .unsubAck]
  | pubAck m => cases h
  | _ =>
    obtain rfl := List.mem_singleton.1 h
    constructor

/-- What a handler posts or replicates is the message it handles. -/
theorem eq_publish_of_mem_handle {c : ConnId} {p : Packet} {m : Publish}
    (h : .post m ∈ handle c p ∨ .replicate m ∈ handle c p) : ∃ retain, p = .publish retain m := by
  obtain h | h := h
  · cases handles_of_mem h
    exact ⟨_, rfl⟩
  · cases handles_of_mem h
    exact ⟨_, rfl⟩

theorem connectBody_inConnect {cf : BrokerConfig} {c : ConnId} {m : Connect} {rc : ReturnCode} :
    (connectBody cf c m rc).all (·.inConnect c) = true := by
  simp only [connectBody]
  split <;> split <;> split <;> simp [Instr.inConnect]

theorem follows_all_brings (h : Follows env i nx) : nx.instrs.all i.brings = true := by
  cases h with
  | falls _ => rfl
  | recv p =>
    simp only [Next.instrs, List.all_append, Bool.and_eq_true]
    exact ⟨handle_inEntry, by simp [Instr.brings, Instr.inEntry]⟩
  | limited n => exact connectBody_inConnect
  | redeliver m =>
    simp only [redelivery]
    repeat' split
    all_goals simp [Next.instrs, Instr.brings]
  | @encoded c j ok => cases ok <;> cases hr : j.r <;> simp [encoded, Next.instrs, Instr.brings, hr]
  | handleLive isRetain => cases isRetain <;> simp [handleLive, Next.instrs, Instr.brings]
  | deliver entry => cases entry <;> simp [submitEntry, Next.instrs, Instr.brings]
  | _ => simp [Next.instrs, Instr.brings, Instr.inEntry, stop, inboundDefer, outboundDefer,
      handleJob, Message.isPublish]

theorem Follows.brings {j : Instr} (h : Follows env i nx) (hj : j ∈ nx.instrs) :
    i.brings j = true :=
  List.all_eq_true.1 (follows_all_brings h) j hj

/-- The instructions a goroutine gets from another one that hands it a message or
starts it. -/
def Tid.gets : Tid → Instr → Bool
  | .outbound c, .persistOutbound c' _ | .outbound c, .encode c' _ => c' = c
  | .worker _, .handlePost _ => true
  | .heartbeat c _, .heartbeatLoop c' => c' = c
  | _, _ => false

/-- Where the instructions of a goroutine come from. -/
theorem Executes.mem_code {rest : List Instr} (hx : Executes env s t ch i rest nx s') {t' : Tid}
    {j : Instr} (hj : j ∈ s'.code t') :
    j ∈ s.code t' ∨ t' = t ∧ j ∈ nx.instrs ∨ t'.gets j = true := by
  by_cases ht : t' = t
  · subst ht
    rw [hx.code_self] at hj
    obtain hj | hj := Next.mem_apply hj
    · exact .inr (.inl ⟨rfl, hj⟩)
    · rw [hx.code]
      exact .inl (List.mem_cons_of_mem _ hj)
  · have htouch := hx.touch ht
    generalize s.code t' = l, s'.code t' = l' at htouch hj
    cases htouch with
    | same => exact .inl hj
    | job _ =>
      simp only [handleJob, List.cons_append, List.nil_append, List.mem_cons] at hj
      obtain rfl | rfl | rfl | hj := hj
      · exact .inr (.inr (by simp [Tid.gets]))
      · exact .inr (.inr (by simp [Tid.gets]))
      · exact .inl (List.mem_cons_self ..)
      · exact .inl (List.mem_cons_of_mem _ hj)
    | post _ =>
      simp only [List.cons_append, List.nil_append, List.mem_cons] at hj
      obtain rfl | rfl | hj := hj
      · exact .inr (.inr rfl)
      · exact .inl (List.mem_cons_self ..)
      · exact .inl (List.mem_cons_of_mem _ hj)
    | heartbeat _ =>
      obtain rfl := List.mem_singleton.1 hj
      exact .inr (.inr (by simp [Tid.gets]))

theorem State.mem_code_accept (h : i ∈ s.accept.code t) : i ∈ s.code t ∨ i = t.loop := by
  obtain hcode | hcode := s.code_accept t <;> rw [hcode] at h
  · exact .inl h
  · exact .inr (List.mem_singleton.1 h)

theorem State.mem_code_acceptPeer (h : i ∈ s.acceptPeer.code t) : i ∈ s.code t ∨ i = t.loop := by
  obtain hcode | hcode := s.code_acceptPeer t <;> rw [hcode] at h
  · exact .inl h
  · exact .inr (List.mem_singleton.1 h)

/-! ## Outlines -/

/-- The outline rule for `inboundLoop`. Other goroutines may add to what is known;
the one itself has to establish what the instruction promises, and to be in order
with what comes instead. -/
theorem Executes.outline {α : Type} [Preorder α] {o : Outline Instr α} {a b : α} {c : ConnId}
    {rest : List Instr} (hx : Executes env s t ch i rest nx s')
    (hok : o.Ok a (s.code (.inbound c))) (hmono : a ≤ b)
    (hself : t = .inbound c → o.Ok b nx.instrs ∧ o.post i a ≤ o.after b nx.instrs) :
    o.Ok b (s'.code (.inbound c)) := by
  by_cases ht : .inbound c = t
  · subst ht
    obtain ⟨hnew, hpost⟩ := hself rfl
    rw [hx.code] at hok
    rw [hx.code_self]
    cases nx with
    | push is => exact hok.replace hnew hpost
    | jump is => exact hnew
  · rw [hx.code_inbound ht]
    exact hok.mono hmono

theorem State.accept_outline {α : Type} [Preorder α] {o : Outline Instr α} {a : α} {c : ConnId}
    (hok : o.Ok a (s.code (.inbound c))) (hloop : c = s.nconns → o.pre (.inboundLoop c) a) :
    o.Ok a (s.accept.code (.inbound c)) := by
  by_cases hc : c = s.nconns
  · simpa [State.accept, State.log, State.setCode, hc, Outline.Ok] using hc ▸ hloop hc
  · simpa [State.accept, State.log, State.setCode, hc] using hok
