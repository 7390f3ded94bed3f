-- SUMMARY: What the handlers of a connection send it besides replies: retained messages of topics it has subscribed to, and what is kept for its client id.
import Mhub.Broker.Access
import Mhub.Broker.Content
import Mhub.Broker.Retain
import Mhub.Broker.Wire

/-!
# What a connection sends itself

A PUBLISH gets into the jobs queue of a connection from a worker or from the handlers of
the connection itself; nobody else queues one. The handlers do it in two places.
`sendRetain` queues a copy of a retained message for a topic of a SUBSCRIBE. `doConnect`
queues again what is in the session store of the client id that the CONNECT names.

A store is shared by all connections that name its client id. What it holds was received
from one of them, or was queued for one of them. The latter is again of one of these
kinds, so in the end everything that is queued for a connection was meant for a client
of its name.
-/

variable {env : Env} {s s' : State} {t : Tid} {ch : Choice} {i j : Instr} {rest : List Instr}
  {nx : Next} {c d : ConnId} {m : Publish} {id : GoString} {tr : List Event}

/-! ## Names and sessions -/

/-- A CONNECT on `c` has named the client id. -/
def Named (tr : List Event) (c : ConnId) (id : GoString) : Prop :=
  ∃ k, .received c (.connect k) ∈ tr ∧ k.clientId = id

/-- The message was received from a client of this name, or was queued for one. -/
def InSession (tr : List Event) (id : GoString) (m : Publish) : Prop :=
  ∃ d, Named tr d id ∧
    ((∃ retain, .received d (.publish retain m) ∈ tr) ∨ ∃ t, .queued t d (.publish m) ∈ tr)

/-- A SUBSCRIBE on `c` has named the topic. -/
def Asked (tr : List Event) (c : ConnId) (topic : GoString) : Prop :=
  ∃ sub, .received c (.subscribe sub) ∈ tr ∧ ∃ tq ∈ sub.topics, tq.1 = topic

/-- The message is a copy of a retained PUBLISH with a payload that a worker has taken. -/
def RetainedCopy (tr : List Event) (m : Publish) : Prop :=
  ∃ m₀, Retainable tr m₀ ∧ m₀.body = m.body

/-- What the handlers of `c` may queue for it: a copy of a retained message on a topic
that was asked for, or a message of a session that `c` has named. -/
def OwnPublish (tr : List Event) (c : ConnId) (m : Publish) : Prop :=
  (Asked tr c m.topicName ∧ RetainedCopy tr m) ∨ ∃ id, Named tr c id ∧ InSession tr id m

section

variable {tr' : List Event} (hsub : tr ⊆ tr')

include hsub

theorem Named.mono (h : Named tr c id) : Named tr' c id := by
  obtain ⟨k, hk, hid⟩ := h
  exact ⟨k, hsub hk, hid⟩

theorem InSession.mono (h : InSession tr id m) : InSession tr' id m := by
  obtain ⟨d, hname, ⟨retain, hm⟩ | ⟨t, hm⟩⟩ := h
  · exact ⟨d, hname.mono hsub, .inl ⟨retain, hsub hm⟩⟩
  · exact ⟨d, hname.mono hsub, .inr ⟨t, hsub hm⟩⟩

theorem Asked.mono {topic : GoString} (h : Asked tr c topic) : Asked tr' c topic := by
  obtain ⟨sub, hm, htop⟩ := h
  exact ⟨sub, hsub hm, htop⟩

theorem RetainedCopy.mono (h : RetainedCopy tr m) : RetainedCopy tr' m := by
  obtain ⟨m₀, ⟨hpayload, w, hw⟩, hbody⟩ := h
  exact ⟨m₀, ⟨hpayload, w, hsub hw⟩, hbody⟩

theorem OwnPublish.mono (h : OwnPublish tr c m) : OwnPublish tr' c m := by
  obtain ⟨hask, hcopy⟩ | ⟨id, hname, hm⟩ := h
  · exact .inl ⟨hask.mono hsub, hcopy.mono hsub⟩
  · exact .inr ⟨id, hname.mono hsub, hm.mono hsub⟩

end

theorem trace_subset_step {a : BrokerAction} (hstep : step env s a = some s') :
    s.trace ⊆ s'.trace :=
  fun _ he => mem_trace_mono hstep he

/-! ## What the instructions of a handler know -/

/-- What an instruction of a handler knows of the message that is handled. -/
def Requested (tr : List Event) : Instr → Prop
  | .sendRetain c topic => Asked tr c topic
  | .persistInbound c m => ∃ retain, .received c (.publish retain m) ∈ tr
  | .getClientStore c id => Named tr c id
  | _ => True

theorem Requested.mono {tr' : List Event} (hsub : tr ⊆ tr') (h : Requested tr i) :
    Requested tr' i := by
  cases i with
  | sendRetain c topic => exact Asked.mono hsub h
  | persistInbound c m =>
    obtain ⟨retain, hm⟩ := h
    exact ⟨retain, hsub hm⟩
  | getClientStore c id => exact Named.mono hsub h
  | _ => trivial

theorem requested_handle {p : Packet} (hp : .received c p ∈ tr) (hj : j ∈ handle c p) :
    Requested tr j := by
  cases handles_of_mem hj with
  | persistInbound => exact ⟨_, hp⟩
  | sendRetain htq => exact ⟨_, hp, _, htq, rfl⟩
  | _ => trivial

theorem eq_of_getClientStore_mem {cf : BrokerConfig} {k : Connect} {rc : ReturnCode}
    (h : .getClientStore c id ∈ connectBody cf d k rc) : c = d ∧ id = k.clientId := by
  unfold connectBody at h
  repeat' split at h
  all_goals simpa using h

theorem Reachable.requested (hr : Reachable env s) (hi : i ∈ s.code t) : Requested s.trace i := by
  refine hr.forall_code (Q := fun s _ i => Requested s.trace i) ?_ ?_ ?_ ?_ t i hi
  · intro s t
    cases t <;> trivial
  · intro s a s' t i _ hstep h
    exact h.mono (trace_subset_step hstep)
  · intro s t ch i rest nx s' j hr hx _ _ hj
    have hb := Instr.brings_cases (hx.follows.brings hj)
    have hloop : ∀ {c}, i = .inboundLoop c → Requested s'.trace j := by
      rintro c rfl
      obtain ⟨p, -, rfl, htr⟩ | ⟨-, rfl⟩ := hx.inboundLoop
      · obtain hj | hj := List.mem_append.1 hj
        · exact requested_handle (by simp [htr]) hj
        · rw [List.mem_singleton.1 hj]
          trivial
      · simp only [Next.instrs, List.mem_cons, List.not_mem_nil, or_false] at hj
        obtain rfl | rfl | rfl := hj <;> trivial
    cases hb with
    | sendRetain | persistInbound => exact hloop rfl
    | @getClientStore c k rc id =>
      obtain rfl := hx.home hr rfl
      have hk : .received c (.connect k) ∈ s.trace :=
        State.received_of_request (hr.announced hx.mem_self).1
      have hf := hx.follows
      cases hf with
      | falls h => cases h
      | limited clients =>
        obtain ⟨-, rfl⟩ := eq_of_getClientStore_mem hj
        exact ⟨k, hx.trace_mono hk, rfl⟩
    | _ => trivial
  · intro s t ch i rest nx s' j t' _ _ hj _
    cases hj <;> trivial

/-! ## The stores -/

/-- The store of a connection is that of a client id it has named. -/
theorem Reachable.named (hr : Reachable env s) (h : (s.conns c).store = some id) :
    Named s.trace c id := by
  refine hr.invariant (I := fun s => ∀ id, (s.conns c).store = some id → Named s.trace c id) ?_
    (fun id h => by cases h) id h
  intro s a s' hr hI hstep id h
  have hsub := trace_subset_step hstep
  obtain ⟨-, ⟨-, rfl⟩ | ⟨-, rfl⟩ | ⟨t, ch, i, rest, nx, -, hx⟩⟩ := step_cases hstep
  · exact (hI id h).mono hsub
  · exact (hI id h).mono hsub
  · obtain heq | ⟨id', rfl, heq⟩ := (hx.conn c).store
    · exact (hI id (heq ▸ h)).mono hsub
    · obtain rfl := Option.some.inj (heq.symm.trans h)
      exact Named.mono hsub (Reachable.requested hr hx.mem_self)

/-- What `outboundLoop` is at work on was queued. -/
theorem Executes.persistOutbound_queued {msg : Message} (hr : Reachable env s)
    (hx : Executes env s t ch (.persistOutbound c msg) rest nx s') :
    ∃ t, .queued t c msg ∈ s.trace := by
  have hcode : s.code (.outbound c) = .persistOutbound c msg :: rest :=
    hx.home hr rfl ▸ hx.code
  have hmem : msg ∈ s.queuedFor c := by
    rw [(hr.wired c).order, hcode]
    simp
  obtain ⟨e, he, hq⟩ := List.mem_filterMap.1 hmem
  cases e with
  | queued t' c' msg' =>
    simp only [Event.queuedFor, Option.ite_none_right_eq_some, Option.some.injEq] at hq
    obtain ⟨rfl, rfl⟩ := hq
    exact ⟨t', he⟩
  | _ => cases hq

/-- A store holds what was received from a client of its name or queued for one. -/
theorem Reachable.inSession {key : GoString} (hr : Reachable env s)
    (h : s.contents id key = some (.publish m)) : InSession s.trace id m := by
  refine hr.invariant (I := fun s => ∀ id key m, s.contents id key = some (.publish m) →
    InSession s.trace id m) ?_ (fun id key m h => by cases h) id key m h
  intro s a s' hr hI hstep id key m h
  have hsub := trace_subset_step hstep
  obtain ⟨-, ⟨-, rfl⟩ | ⟨-, rfl⟩ | ⟨t, ch, i, rest, nx, -, hx⟩⟩ := step_cases hstep
  · exact (hI id key m h).mono hsub
  · exact (hI id key m h).mono hsub
  · obtain h | ⟨d, hstore, hi⟩ := hx.stored_cases hr h
    · exact (hI id key m h).mono hsub
    · refine ⟨d, (Reachable.named hr hstore).mono hsub, ?_⟩
      obtain rfl | rfl := hi
      · obtain ⟨retain, hm⟩ := Reachable.requested hr hx.mem_self
        exact .inl ⟨retain, hsub hm⟩
      · obtain ⟨t', hq⟩ := hx.persistOutbound_queued hr
        exact .inr ⟨t', hsub hq⟩

/-! ## What the handlers queue -/

/-- What an `inboundLoop` has to send its own connection is for it. -/
def OwnSend (tr : List Event) (t : Tid) : Instr → Prop
  | .submit c (.publish m) | .submitSync c (.publish m) | .send c ⟨.publish m, _⟩
  | .trySend c ⟨.publish m, _⟩ => ∀ d, t = .inbound d → OwnPublish tr c m
  | _ => True

theorem OwnSend.mono {tr' : List Event} (hsub : tr ⊆ tr') (h : OwnSend tr t i) :
    OwnSend tr' t i := by
  have hmono : ∀ {m c}, (∀ d, t = .inbound d → OwnPublish tr c m) →
      ∀ d, t = .inbound d → OwnPublish tr' c m :=
    fun h d ht => (h d ht).mono hsub
  cases i with
  | submit c msg | submitSync c msg =>
    cases msg with
    | publish m => exact hmono h
    | _ => trivial
  | send c j | trySend c j =>
    obtain ⟨msg, r⟩ := j
    cases msg with
    | publish m => exact hmono h
    | _ => trivial
  | _ => trivial

/-- What a handler of a message queues itself is a reply. -/
theorem Executes.inboundLoop_submit (hx : Executes env s t ch (.inboundLoop c) rest nx s') :
    .submit c (.publish m) ∉ nx.instrs := by
  intro hj
  obtain ⟨p, -, rfl, -⟩ | ⟨-, rfl⟩ := hx.inboundLoop
  · have hmem := (List.mem_append.1 hj).resolve_right (by simp)
    generalize p.at s.nextObj = p at hmem
    cases handles_of_mem hmem
  · simp [Next.instrs] at hj

theorem Executes.ownSend_next (hr : Reachable env s) (hx : Executes env s t ch i rest nx s')
    (h : OwnSend s'.trace t i) (hj : j ∈ nx.instrs) : OwnSend s'.trace t j := by
  have hb := Instr.brings_cases (hx.follows.brings hj)
  cases hb with
  | @send c msg => cases msg <;> exact h
  | @trySend c msg => cases msg <;> exact h
  | @sendSync c msg r => cases msg <;> exact h
  | @answer c msg =>
    cases msg with
    | publish m => exact absurd hj hx.inboundLoop_submit
    | _ => trivial
  | @connAck c k rc msg =>
    cases msg with
    | publish m =>
      have hf := hx.follows
      cases hf with
      | falls h => cases h
      | limited clients => cases publish?_connectBody hj
    | _ => trivial
  | @resend c key msg =>
    obtain ⟨id, m, hstore, hget, heq⟩ := hx.mem_redeliver hr hj
    cases heq
    have hown : OwnPublish s.trace c m := .inr ⟨id, hr.named hstore, hr.inSession hget⟩
    exact fun _ _ => hown.mono fun _ he => hx.trace_mono he
  | @retained c topic m =>
    have hask : Asked s.trace c topic := hr.requested hx.mem_self
    obtain ⟨htr, ⟨-, rfl⟩ | ⟨r, -, hget, rfl, -⟩⟩ := hx.sendRetain
    · simp [Next.instrs] at hj
    · obtain ⟨-, rfl, hretain⟩ := hr.retained hget
      have hm : m = { r.m with obj := s.nextObj } := by simpa [Next.instrs] using hj
      rw [hm, htr]
      exact fun _ _ => .inl ⟨hask, r.m, hretain, rfl⟩
  | delivery =>
    obtain ⟨w, -, rfl⟩ := hr.worker_of_mem hx.mem_self rfl
    intro d h
    cases h
  | _ => trivial

theorem Reachable.ownSend (hr : Reachable env s) (hi : i ∈ s.code t) : OwnSend s.trace t i := by
  refine hr.forall_code (Q := fun s t i => OwnSend s.trace t i) ?_ ?_ ?_ ?_ t i hi
  · intro s t
    cases t <;> trivial
  · intro s a s' t i _ hstep h
    exact h.mono (trace_subset_step hstep)
  · intro s t ch i rest nx s' j hr hx _ hi hj
    exact hx.ownSend_next hr hi hj
  · intro s t ch i rest nx s' j t' _ _ hj _
    cases hj <;> trivial

/-- What a goroutine can be about to do. -/
theorem Tid.Shaped.head (h : t.Shaped (i :: rest)) :
    i = t.loop ∨ t.inBody i = true ∨ t.Exits (i :: rest) := by
  obtain ⟨body, hl, hbody⟩ | hexit := h
  · cases body with
    | nil => exact .inl (List.cons.inj hl).1
    | cons i' body =>
      obtain ⟨rfl, -⟩ := List.cons.inj hl
      exact .inr (.inl (List.all_eq_true.1 hbody i (List.mem_cons_self ..)))
  · exact .inr (.inr hexit)

/-- Only workers and the handlers of a connection send it a PUBLISH. -/
theorem Executes.sends_publish {jb : Job} (hr : Reachable env s)
    (hx : Executes env s t ch i rest nx s') (hi : i = .send c jb ∨ i = .trySend c jb)
    (hm : jb.m = .publish m) : (∃ w, t = .worker w) ∨ t = .inbound c := by
  have hshape := hr.shaped t
  rw [hx.code] at hshape
  have hloop : i ≠ t.loop := by
    rintro rfl
    cases t <;> simp [Tid.loop] at hi
  obtain hin | hexit := hshape.head.resolve_left hloop
  · cases t with
    | worker w => exact .inl ⟨w, rfl⟩
    | inbound d =>
      obtain rfl | rfl := hi <;> simp [Tid.inBody, Instr.inHandler, hm] at hin <;>
        exact .inr (by rw [hin])
    | outbound d => obtain rfl | rfl := hi <;> cases hin
    | heartbeat d k => cases hin
    | replay p => obtain rfl | rfl := hi <;> cases hin
  · cases t with
    | worker w => exact .inl ⟨w, rfl⟩
    | inbound d =>
      have hmem := hexit.subset (List.mem_cons_self ..)
      obtain rfl | rfl := hi <;> simp [inboundDefer] at hmem
    | outbound d =>
      have hmem := hexit.subset (List.mem_cons_self ..)
      obtain rfl | rfl := hi <;> simp [outboundDefer] at hmem
    | heartbeat d k =>
      obtain hi' | ⟨r, hi' | hi'⟩ | hi' := hexit i (List.mem_cons_self ..)
      all_goals subst hi'
      · simp at hi
      · obtain ⟨-, rfl⟩ : d = c ∧ _ = jb := by simpa using hi
        cases hm
      · simp at hi
      · simp at hi
    | replay p => cases hexit

/-- A client publishes a retained message, and subscribes to its topic. -/
def retainedRun : List BrokerAction :=
  .accept :: sends 0 (.connect (.named (str "a"))) 9 ++
    sends 0 (.publish true ⟨0, .atMostOnce, str "t", 1, [1]⟩) 5 ++
    List.replicate 5 (.run (.worker 0) .go) ++
    sends 0 (.subscribe ⟨2, [(str "t", .atMostOnce)]⟩) 9
