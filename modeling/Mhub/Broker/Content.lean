-- SUMMARY: The broker does not make up messages and does not change them: every PUBLISH anywhere in it was decoded as it is.
import Mhub.Broker.History

/-!
# Content

A PUBLISH passes through many hands: the posts channel, the workers, the jobs queues, the
session stores, the table of retained messages, and the links to the peers. On the way it
is handed around by reference, apart from the copy that `sendRetain` makes.
`State.Carries` lists all the places where one can be. A step that leaves a PUBLISH in
one of them has found it in another one, or has decoded it (`Executes.carries`).

So topic, payload, QoS level and message id of whatever the broker sends are those of a
message that came in. The `Retain` bit is not part of this: it belongs to the object, and
the workers clear it.
-/

variable {env : Env} {s s' : State} {t : Tid} {ch : Choice} {i j : Instr} {rest : List Instr}
  {nx : Next} {c : ConnId} {m : Publish}

/-! ## Where a PUBLISH can be -/

/-- What is in a PUBLISH, apart from which object it is. -/
def Publish.body (m : Publish) : Publish := { m with obj := 0 }

def Message.publish? : Message → Option Publish
  | .publish m => some m
  | _ => none

/-- The PUBLISH that an instruction is about. -/
def Instr.publish? : Instr → Option Publish
  | .submit _ m | .submitSync _ m | .persistOutbound _ m | .sent _ m => m.publish?
  | .send _ j | .trySend _ j | .encode _ j => j.m.publish?
  | .persistInbound _ m | .post m | .replicate m | .handlePost m | .fanOut m | .deliver m _ _
  | .storeRetain m => some m
  | _ => none

/-- The PUBLISH that an event says was sent, to a client or to the peers. -/
def Event.publish? : Event → Option Publish
  | .encoded _ m _ _ => m.publish?
  | .replicated m => some m
  | _ => none

/-- The broker has the PUBLISH somewhere, or has sent it. -/
inductive State.Carries (s : State) (m : Publish) : Prop where
  | code (t : Tid) (i : Instr) : i ∈ s.code t → i.publish? = some m → Carries s m
  | post : m ∈ s.posts → Carries s m
  | job (c : ConnId) (j : Job) : j ∈ (s.conns c).jobs → j.m = .publish m → Carries s m
  | stored (id key : GoString) : s.contents id key = some (.publish m) → Carries s m
  | retained (topic : GoString) (r : Retained) : s.subs.retain topic = some r → r.m = m →
    Carries s m
  | sent (e : Event) : e ∈ s.trace → e.publish? = some m → Carries s m

/-- The PUBLISH that a step decodes, from a client or from a peer. -/
def decodes (s : State) : BrokerAction → Option Publish
  | .run t (.recv (.publish _ m)) =>
    match s.code t with
    | .inboundLoop _ :: _ | .replayLoop :: _ => some m.body
    | _ => none
  | _ => none

/-- What the broker has decoded in a run. -/
def decoded (env : Env) (acts : List BrokerAction) : List Publish :=
  Transition.observed (step env) (fun s a _ => decodes s a) (init env) acts

/-! ## Steps -/

theorem Message.eq_of_publish? {msg : Message} (h : msg.publish? = some m) : msg = .publish m := by
  cases msg <;> cases h
  rfl

theorem Packet.body_at {p : Packet} {retain : Bool} {obj : Nat} (h : p.at obj = .publish retain m) :
    ∃ m', p = .publish retain m' ∧ m'.body = m.body := by
  cases p <;> cases h
  exact ⟨_, rfl, rfl⟩

/-- What a handler is about is the message it handles. -/
theorem publish?_handle {p : Packet} (hj : j ∈ handle c p) (hm : j.publish? = some m) :
    ∃ retain, p = .publish retain m := by
  cases handles_of_mem hj with
  | persistInbound | post | replicate =>
    cases hm
    exact ⟨_, rfl⟩
  | _ => cases hm

/-- The instructions that get a PUBLISH from outside the code. -/
def Instr.fetches : Instr → Bool
  | .inboundLoop _ | .redeliver .. | .sendRetain .. | .outboundLoop _ | .workerLoop
  | .replayLoop => true
  | _ => false

/-- The code that takes the place of any other instruction is about the same PUBLISH. -/
theorem Instr.Brings.publish? (h : i.Brings j) (hm : j.publish? = some m)
    (hi : i.fetches = false) : i.publish? = some m ∨ ∃ c m rc, i = .connectLimit c m rc := by
  cases h <;> first | exact .inl hm | exact .inr ⟨_, _, _, rfl⟩ | cases hm; done | cases hi

theorem publish?_connectBody {cf : BrokerConfig} {m : Connect} {rc : ReturnCode}
    (hj : j ∈ connectBody cf c m rc) : j.publish? = none := by
  have hone : ∀ {p : Prop} [Decidable p] {i : Instr}, j ∈ (if p then [i] else []) → j = i := by
    intro p _ i h
    split at h
    · exact List.mem_singleton.1 h
    · cases h
  simp only [connectBody, List.mem_append, List.mem_cons, List.not_mem_nil, or_false] at hj
  obtain (((((rfl | rfl) | hj) | rfl) | hj) | hj) | rfl | rfl := hj <;> try rfl
  · rw [hone hj]
    rfl
  · split at hj <;> rw [List.mem_singleton.1 hj] <;> rfl
  · rw [hone hj]
    rfl

/-- The PUBLISH was there before, or it is decoded in this step. -/
def CameFrom (s : State) (t : Tid) (ch : Choice) (m : Publish) : Prop :=
  (∃ m', s.Carries m' ∧ m'.body = m.body) ∨ decodes s (.run t ch) = some m.body

theorem CameFrom.of_carries (h : s.Carries m) : CameFrom s t ch m := .inl ⟨m, h, rfl⟩

theorem Executes.outboundLoop_publish (hx : Executes env s t ch (.outboundLoop c) rest nx s')
    (hj : j ∈ nx.instrs) (hm : j.publish? = some m) :
    ∃ jb ∈ (s.conns c).jobs, jb.m = .publish m := by
  obtain ⟨-, s₁, hexec, -⟩ := hx
  have hdefer : ∀ j ∈ outboundDefer c, j.publish? = none := by
    simp [outboundDefer, Instr.publish?]
  simp only [exec] at hexec
  repeat' split at hexec
  all_goals cases hexec
  · next jb js hjobs =>
    refine ⟨jb, by simp [hjobs], ?_⟩
    simp only [Next.instrs, handleJob, List.cons_append, List.nil_append, List.mem_cons,
      List.not_mem_nil, or_false] at hj
    obtain rfl | rfl | rfl := hj
    · exact Message.eq_of_publish? hm
    · exact Message.eq_of_publish? hm
    · cases hm
  · simp [hdefer j hj] at hm
  · simp [hdefer j hj] at hm

theorem Executes.replayLoop_publish (hx : Executes env s t ch .replayLoop rest nx s')
    (hj : j ∈ nx.instrs) (hm : j.publish? = some m) : decodes s (.run t ch) = some m.body := by
  have hcode := hx.code
  obtain ⟨-, s₁, hexec, -⟩ := hx
  simp only [exec] at hexec
  repeat' split at hexec
  all_goals cases hexec
  · next p _ retain m' hp =>
    simp only [Next.instrs, List.mem_cons, List.not_mem_nil, or_false] at hj
    obtain rfl | rfl := hj <;> cases hm
    obtain ⟨m'', rfl, hbody⟩ := Packet.body_at hp
    simp [decodes, hcode, hbody]
  · rw [List.mem_singleton.1 hj] at hm
    cases hm
  · cases hj

/-- What comes in the place of an instruction is about something that was there. -/
theorem Executes.publish_next (hr : Reachable env s) (hx : Executes env s t ch i rest nx s')
    (hj : j ∈ nx.instrs) (hm : j.publish? = some m) : CameFrom s t ch m := by
  have hb := Instr.brings_cases (hx.follows.brings hj)
  cases hi : i.fetches with
  | false =>
    obtain him | ⟨c, m', rc, rfl⟩ := hb.publish? hm hi
    · exact .of_carries (.code t i hx.mem_self him)
    · have hf := hx.follows
      cases hf with
      | falls h => cases h
      | limited clients => simp [publish?_connectBody hj] at hm
  | true =>
    cases i with
    | inboundLoop c =>
      obtain ⟨p, rfl, rfl, -⟩ | ⟨-, rfl⟩ := hx.inboundLoop
      · obtain hj | hj := List.mem_append.1 hj
        · obtain ⟨retain, hp⟩ := publish?_handle hj hm
          obtain ⟨m', rfl, hbody⟩ := Packet.body_at hp
          exact .inr (by simp [decodes, hx.code, hbody])
        · rw [List.mem_singleton.1 hj] at hm
          cases hm
      · simp only [Next.instrs, List.mem_cons, List.not_mem_nil, or_false] at hj
        obtain rfl | rfl | rfl := hj <;> cases hm
    | redeliver c key =>
      obtain ⟨id, m', -, hget, rfl⟩ := hx.mem_redeliver hr hj
      cases hm
      exact .of_carries (.stored id key hget)
    | sendRetain c topic =>
      obtain ⟨-, ⟨-, rfl⟩ | ⟨r, -, hr, rfl, -⟩⟩ := hx.sendRetain
      · rw [List.mem_singleton.1 hj] at hm
        cases hm
      · simp only [Next.instrs, List.mem_cons, List.not_mem_nil, or_false] at hj
        obtain rfl | rfl := hj <;> cases hm
        -- the copy is another object
        exact .inl ⟨r.m, .retained topic r hr rfl, rfl⟩
    | outboundLoop c =>
      obtain ⟨jb, hjb, hm⟩ := hx.outboundLoop_publish hj hm
      exact .of_carries (.job c jb hjb hm)
    | workerLoop =>
      obtain ⟨m', hposts, rfl⟩ := hx.workerLoop_cases
      simp only [Next.instrs, List.mem_cons, List.not_mem_nil, or_false] at hj
      obtain rfl | rfl := hj <;> cases hm
      exact .of_carries (.post (by simp [hposts]))
    | replayLoop => exact .inr (hx.replayLoop_publish hj hm)
    | _ => cases hi

/-- What an instruction hands to another goroutine is about the same PUBLISH. -/
theorem Instr.Hands.publish? (h : i.Hands j) (hm : j.publish? = some m) : i.publish? = some m := by
  cases h <;> exact hm

theorem Event.LoggedBy.publish? {e : Event} (h : e.LoggedBy s t i) (hm : e.publish? = some m) :
    i.publish? = some m := by
  cases e with
  | encoded c msg retain ok =>
    obtain ⟨j, rfl, rfl⟩ := h
    exact hm
  | replicated m' =>
    obtain rfl : i = .replicate m' := h
    exact hm
  | _ => cases hm

/-- A PUBLISH that is somewhere after a step was somewhere before, or is decoded in the
step. -/
theorem Executes.carries (hr : Reachable env s) (hx : Executes env s t ch i rest nx s')
    (h : s'.Carries m) : CameFrom s t ch m := by
  cases h with
  | code t' j hj hm =>
    obtain hj | ⟨-, hj⟩ | ⟨-, hj⟩ := hx.mem_code_cases hj
    · exact .of_carries (.code t' j hj hm)
    · exact hx.publish_next hr hj hm
    · exact .of_carries (.code t i hx.mem_self (hj.publish? hm))
  | post h =>
    obtain heq | ⟨m', rfl, heq⟩ | ⟨-, m', heq⟩ := hx.effects.posts
    · exact .of_carries (.post (heq ▸ h))
    · rw [heq] at h
      obtain h | h := List.mem_append.1 h
      · exact .of_carries (.post h)
      · exact .of_carries (.code t _ hx.mem_self (by rw [List.mem_singleton.1 h]; rfl))
    · exact .of_carries (.post (heq ▸ List.mem_cons_of_mem _ h))
  | job c j hj hm =>
    obtain heq | ⟨j', hi, heq⟩ | ⟨-, j', heq⟩ := (hx.conn c).jobs
    · exact .of_carries (.job c j (heq ▸ hj) hm)
    · rw [heq] at hj
      obtain hj | hj := List.mem_append.1 hj
      · exact .of_carries (.job c j hj hm)
      · obtain rfl := List.mem_singleton.1 hj
        refine .of_carries (.code t i hx.mem_self ?_)
        obtain rfl | rfl := hi <;> simp [Instr.publish?, hm, Message.publish?]
    · exact .of_carries (.job c j (heq ▸ List.mem_cons_of_mem _ hj) hm)
  | stored id key h =>
    obtain h | ⟨d, -, hi⟩ := hx.stored_cases hr h
    · exact .of_carries (.stored id key h)
    · refine .of_carries (.code t i hx.mem_self ?_)
      obtain rfl | rfl := hi <;> rfl
  | retained topic r h hm =>
    obtain heq | ⟨topic', -, heq⟩ | ⟨m', rfl, heq⟩ := hx.effects.retain
    · exact .of_carries (.retained topic r (heq ▸ h) hm)
    · rw [heq] at h
      by_cases htop : topic = topic'
      · simp [htop] at h
      · rw [Function.update_of_ne htop] at h
        exact .of_carries (.retained topic r h hm)
    · rw [heq] at h
      by_cases htop : topic = m'.topicName
      · obtain rfl : ⟨m', true⟩ = r := by simpa [htop] using h
        exact .of_carries (.code t _ hx.mem_self (by rw [← hm]; rfl))
      · rw [Function.update_of_ne htop] at h
        exact .of_carries (.retained topic r h hm)
  | sent e he hm =>
    obtain he | hlog := hx.mem_trace he
    · exact .of_carries (.sent e he hm)
    · exact .of_carries (.code t i hx.mem_self (hlog.publish? hm))

/-! ## Runs -/

theorem State.Carries.accept (h : s.accept.Carries m) : s.Carries m := by
  cases h with
  | code t i hi hm =>
    obtain hi | rfl := State.mem_code_accept hi
    · exact .code t i hi hm
    · cases t <;> cases hm
  | post h => exact .post h
  | job c j hj hm => exact .job c j hj hm
  | stored id key h => exact .stored id key h
  | retained topic r h hm => exact .retained topic r h hm
  | sent e he hm =>
    obtain he | he := List.mem_append.1 he
    · exact .sent e he hm
    · rw [List.mem_singleton.1 he] at hm
      cases hm

theorem State.Carries.acceptPeer (h : s.acceptPeer.Carries m) : s.Carries m := by
  cases h with
  | code t i hi hm =>
    obtain hi | rfl := State.mem_code_acceptPeer hi
    · exact .code t i hi hm
    · cases t <;> cases hm
  | post h => exact .post h
  | job c j hj hm => exact .job c j hj hm
  | stored id key h => exact .stored id key h
  | retained topic r h hm => exact .retained topic r h hm
  | sent e he hm => exact .sent e he hm

theorem not_carries_init : ¬ (init env).Carries m := by
  intro h
  cases h with
  | code t i hi hm =>
    cases t with
    | worker w =>
      simp only [init] at hi
      split at hi
      · rw [List.mem_singleton.1 hi] at hm
        cases hm
      · cases hi
    | _ => cases hi
  | post h => cases h
  | job c j hj hm => cases hj
  | stored id key h => cases h
  | retained topic r h hm => cases h
  | sent e he hm => cases he

/-- Whatever PUBLISH is in the broker was decoded as it is. -/
theorem decoded_of_carries {acts : List BrokerAction}
    (hrun : Transition.run (step env) (init env) acts = some s) (h : s.Carries m) :
    m.body ∈ decoded env acts := by
  refine Transition.run_history (G := fun _ _ => True)
    (I := fun h s => ∀ m, s.Carries m → m.body ∈ h) ?_ ?_ hrun
    (Transition.Guarded.of_forall (fun _ _ => trivial) _ _) m h
  · intro h s a s' hr hI _ hstep m hm
    obtain ⟨-, ⟨-, rfl⟩ | ⟨-, rfl⟩ | ⟨t, ch, i, rest, nx, rfl, hx⟩⟩ := step_cases hstep
    · exact List.mem_append_left _ (hI m hm.accept)
    · exact List.mem_append_left _ (hI m hm.acceptPeer)
    · obtain ⟨m', hold, hbody⟩ | hnew := hx.carries hr hm
      · exact List.mem_append_left _ (hbody ▸ hI m' hold)
      · exact List.mem_append_right _ (by simp [hnew])
  · exact fun m hm => absurd hm not_carries_init

/-- A PUBLISH that was encoded for a client, handed to the peers or kept as the retained
message of a topic has the topic, the payload, the QoS level and the message id of one
that was decoded in the run. -/
theorem content_kept {acts : List BrokerAction}
    (hrun : Transition.run (step env) (init env) acts = some s) :
    (∀ c m retain ok, .encoded c (.publish m) retain ok ∈ s.trace → m.body ∈ decoded env acts) ∧
    (∀ m, .replicated m ∈ s.trace → m.body ∈ decoded env acts) ∧
    ∀ topic r, s.subs.retain topic = some r → r.m.body ∈ decoded env acts := by
  refine ⟨?_, ?_, ?_⟩
  · intro c m retain ok h
    exact decoded_of_carries hrun (.sent _ h rfl)
  · intro m h
    exact decoded_of_carries hrun (.sent _ h rfl)
  · intro topic r h
    exact decoded_of_carries hrun (.retained topic r h rfl)

/-- A client subscribes, and a peer sends a PUBLISH that gets to it. -/
def contentRun : List BrokerAction :=
  .accept :: sends 0 (.connect (.named (str "a"))) 9 ++
    sends 0 (.subscribe ⟨1, [(str "t", .atMostOnce)]⟩) 7 ++
    [.acceptPeer, .run (.replay 0) (.recv (.publish false ⟨0, .atMostOnce, str "t", 5, [1]⟩)),
      .run (.replay 0) .go] ++
    List.replicate 7 (.run (.worker 0) .go) ++ sendsNext 0 ++ sendsNext 0 ++ sendsNext 0

theorem content_kept_contentRun :
    ∃ s m, Transition.run (step openEnv) (init openEnv) contentRun = some s ∧
      .encoded 0 (.publish m) false true ∈ s.trace ∧ m.body ∈ decoded openEnv contentRun := by
  have heval : (Transition.run (step openEnv) (init openEnv) contentRun).map (fun s =>
      decide (.encoded 0 (.publish ⟨2, .atMostOnce, str "t", 5, [1]⟩) false true ∈ s.trace)) =
      some true := by decide +kernel
  obtain ⟨s, hrun, hs⟩ := Option.map_eq_some_iff.1 heval
  have hmem := of_decide_eq_true hs
  exact ⟨s, _, hrun, hmem, (content_kept hrun).1 _ _ _ _ hmem⟩
