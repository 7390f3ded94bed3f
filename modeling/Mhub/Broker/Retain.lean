-- SUMMARY: Retained messages: the `Retain` bit of what subscribers are sent, where retained copies come from, and which message a topic retains.
import Mhub.Broker.Objects

/-!
# Retained messages

A worker clears the `Retain` bit of a post in place before it hands the post to
anyone, and keeps a copy with the bit set. `sendRetain` hands out a copy of that copy.
So everything a worker queues is sent with the bit cleared, and everything
`sendRetain` queues with the bit set, whenever it is encoded.

A worker updates the retained message of a topic some time after it has taken the
post. Workers that do so in channel order leave the last retained post on the topic.
-/

variable {env : Env} {s s' : State} {t : Tid} {ch : Choice} {i j : Instr} {rest : List Instr}
  {nx : Next} {w : Nat} {m : Publish} {a : BrokerAction}

/-! ## What a worker is at -/

theorem delivers_unique {m' : Publish} (h : i.delivers m = true) (h' : i.delivers m' = true) :
    m = m' := by
  cases i <;> simp_all [Instr.delivers]

/-- What an instruction in the code of a worker tells about the log. -/
def State.Explains (s : State) (w : Nat) : Instr → Prop
  | .storeRetain m => .taken (.worker w) m true ∈ s.trace ∧ m.payload ≠ []
  | .deleteRetain topic =>
    ∃ m, .taken (.worker w) m true ∈ s.trace ∧ m.payload = [] ∧ m.topicName = topic
  | i => ∀ m, i.delivers m = true → ∃ isRetain, .taken (.worker w) m isRetain ∈ s.trace

theorem State.Explains.mono (h : s.Explains w i) (htr : ∀ e ∈ s.trace, e ∈ s'.trace) :
    s'.Explains w i := by
  unfold State.Explains at h ⊢
  split at h
  · exact ⟨htr _ h.1, h.2⟩
  · obtain ⟨m, hm, hrest⟩ := h
    exact ⟨m, htr _ hm, hrest⟩
  · intro m hm
    obtain ⟨isRetain, ht⟩ := h m hm
    exact ⟨isRetain, htr _ ht⟩

theorem State.explains_of_delivers {isRetain : Bool} (hi : i.delivers m = true)
    (h : .taken (.worker w) m isRetain ∈ s.trace) : s.Explains w i := by
  unfold State.Explains
  split
  · cases hi
  · cases hi
  · intro m' hm'
    obtain rfl := delivers_unique hi hm'
    exact ⟨isRetain, h⟩

/-- A worker that has just taken a post, or waits for one, knows nothing yet. -/
theorem State.explains_of_idle (hi : i = .workerLoop ∨ ∃ m, i = .handlePost m) :
    s.Explains w i := by
  obtain rfl | ⟨m, rfl⟩ := hi
  all_goals
    intro m' hm'
    cases hm'

theorem State.Explains.taken (h : s.Explains w i) (hi : i.delivers m = true) :
    ∃ isRetain, .taken (.worker w) m isRetain ∈ s.trace := by
  unfold State.Explains at h
  split at h
  · cases hi
  · cases hi
  · exact h m hi

/-- What a worker puts into its code is explained. -/
theorem Executes.explains (hr : Reachable env s) (hx : Executes env s (.worker w) ch i rest nx s')
    (hi : s.Explains w i) (hj : j ∈ nx.instrs) : s'.Explains w j := by
  have hworker := hr.worker w
  have hcode := hx.code
  generalize s.code (.worker w) = l at hworker hcode
  cases hworker with
  | idle =>
    obtain ⟨rfl, -⟩ := List.cons.inj hcode
    obtain ⟨m, -, rfl⟩ := hx.workerLoop_cases
    simp only [Next.instrs, List.mem_cons, List.not_mem_nil, or_false] at hj
    exact State.explains_of_idle (hj.symm.imp_right fun h => ⟨m, h⟩)
  | post m =>
    obtain ⟨rfl, -⟩ := List.cons.inj hcode
    obtain ⟨htr, hnx⟩ := hx.handlePost
    have htaken : .taken (.worker w) m (s.retainBit m.obj) ∈ s'.trace := by simp [htr]
    obtain ⟨hretain, hempty, rfl⟩ | ⟨hlive, rfl⟩ := hnx
    · obtain rfl := List.mem_singleton.1 hj
      exact ⟨m, hretain ▸ htaken, hempty, rfl⟩
    · obtain rfl | hj := List.mem_cons.1 hj
      · exact State.explains_of_delivers (m := m) (by simp [Instr.delivers]) htaken
      · cases hretain : s.retainBit m.obj with
        | false => simp [hretain] at hj
        | true =>
          obtain rfl : j = .storeRetain m := by simpa [hretain] using hj
          exact ⟨hretain ▸ htaken, fun hempty => hlive ⟨hretain, hempty⟩⟩
  | @live m isRetain is his =>
    cases is with
    | nil =>
      cases isRetain with
      | false =>
        obtain ⟨rfl, -⟩ := List.cons.inj hcode
        obtain ⟨m, -, rfl⟩ := hx.workerLoop_cases
        simp only [Next.instrs, List.mem_cons, List.not_mem_nil, or_false] at hj
        exact State.explains_of_idle (hj.symm.imp_right fun h => ⟨m, h⟩)
      | true =>
        obtain ⟨rfl, -⟩ := List.cons.inj hcode
        have hf := hx.follows
        cases hf
        cases hj
    | cons k is =>
      obtain ⟨rfl, -⟩ := List.cons.inj hcode
      simp only [List.all_cons, Bool.and_eq_true] at his
      obtain ⟨is', rfl, his'⟩ := delivers_follows his.1 hx.follows
      obtain ⟨isRetain, ht⟩ := hi.taken his.1
      exact State.explains_of_delivers (List.all_eq_true.1 his' j hj) (hx.trace_mono ht)
  | leaves topic =>
    obtain ⟨rfl, -⟩ := List.cons.inj hcode
    have hf := hx.follows
    cases hf
    cases hj
  | gone => cases hcode

theorem Reachable.explains (hr : Reachable env s) (h : i ∈ s.code (.worker w)) :
    s.Explains w i := by
  refine hr.invariant (I := fun s => ∀ i ∈ s.code (.worker w), s.Explains w i) ?_ ?_ i h
  · intro s a s' hr hI hstep j hj
    obtain ⟨-, ⟨-, rfl⟩ | ⟨-, rfl⟩ | ⟨t, ch, i, rest, nx, -, hx⟩⟩ := step_cases hstep
    · exact (hI j hj).mono fun e he => List.mem_append_left _ he
    · exact (hI j hj).mono fun e he => he
    · have hmono : ∀ {j}, s.Explains w j → s'.Explains w j := fun h => h.mono fun e => hx.trace_mono
      by_cases ht : .worker w = t
      · subst ht
        rw [hx.code_self] at hj
        obtain hnew | hold := Next.mem_apply hj
        · exact hx.explains hr (hI i hx.mem_self) hnew
        · exact hmono (hI j (hx.code ▸ List.mem_cons_of_mem _ hold))
      · have htouch := hx.touch ht
        generalize s.code (.worker w) = l, s'.code (.worker w) = l' at htouch hj hI
        cases htouch with
        | same => exact hmono (hI j hj)
        | post _ =>
          obtain rfl | hj := List.mem_cons.1 hj
          · exact State.explains_of_idle (.inr ⟨_, rfl⟩)
          · exact hmono (hI j hj)
  · intro i hi
    simp only [init] at hi
    split at hi
    · obtain rfl := List.mem_singleton.1 hi
      exact State.explains_of_idle (.inl rfl)
    · cases hi

/-- The instructions that update the retained message of a topic. -/
def Instr.retains : Instr → Bool
  | .storeRetain _ | .deleteRetain _ => true
  | _ => false

theorem brings_retains (h : i.brings j = true) (hj : j.retains = true) :
    ∃ m, i = .handlePost m := by
  cases Instr.brings_cases h with
  | deleteRetain | storeRetain => exact ⟨_, rfl⟩
  | _ => cases hj

theorem Reachable.worker_of_retains (hr : Reachable env s) (h : j ∈ s.code t)
    (hj : j.retains = true) : ∃ w, t = .worker w := by
  refine hr.invariant (I := fun s => j ∈ s.code t → ∃ w, t = .worker w) ?_ ?_ h
  · intro s a s' hr hI hstep h
    have hloop : j ≠ t.loop := by
      rintro rfl
      cases t <;> cases hj
    obtain ⟨-, ⟨-, rfl⟩ | ⟨-, rfl⟩ | ⟨t', ch, i, rest, nx, -, hx⟩⟩ := step_cases hstep
    · exact hI ((State.mem_code_accept h).resolve_right hloop)
    · exact hI ((State.mem_code_acceptPeer h).resolve_right hloop)
    · obtain hold | ⟨rfl, hnew⟩ | hgets := hx.mem_code h
      · exact hI hold
      · obtain ⟨m, rfl⟩ := brings_retains (hx.follows.brings hnew) hj
        obtain ⟨w, -, rfl⟩ := Reachable.worker_of_mem hr hx.mem_self rfl
        exact ⟨w, rfl⟩
      · cases t <;> cases j <;> first | cases hj; done | cases hgets
  · intro h
    cases t with
    | worker w => exact ⟨w, rfl⟩
    | _ => cases h

/-! ## The bits of what is sent -/

variable {c c' : ConnId} {retain ok : Bool}

/-- A message is encoded with the bit its object has then. -/
theorem Executes.encode_bit (hx : Executes env s t ch i rest nx s')
    (h : s'.trace = s.trace ++ [Event.encoded c (.publish m) retain ok]) :
    retain = s.retainBit m.obj := by
  have hlog : (Event.encoded c (.publish m) retain ok).LoggedBy s t i := by
    obtain htr | ⟨e, htr, hlog⟩ := hx.trace
    · simp [htr] at h
    · obtain rfl : e = _ := by simpa using htr.symm.trans h
      exact hlog
  obtain ⟨j, rfl, hj⟩ := hlog
  obtain ⟨-, s₁, hexec, rfl⟩ := hx
  simp only [exec] at hexec
  split at hexec <;> cases hexec
  simp only [State.log, State.setCode, hj, List.append_cancel_left_eq, List.cons.injEq,
    Event.encoded.injEq, and_true] at h
  exact h.2.2.1.symm

/-- What a worker queues, it has begun to handle. -/
theorem Reachable.taken_of_queued (hr : Reachable env s)
    (h : .queued (.worker w) c (.publish m) ∈ s.trace) :
    ∃ isRetain, .taken (.worker w) m isRetain ∈ s.trace := by
  refine hr.of_logged (P := fun s => ∃ isRetain, .taken (.worker w) m isRetain ∈ s.trace) h
    (by simp) ?_ ?_
  · intro s t ch i rest nx s' hr hx hlog
    obtain ⟨rfl, j, hi, hj⟩ := hlog
    have hshape := hr.shaped (.worker w)
    rw [hx.code] at hshape
    have hdelivers : i.delivers m = true := by
      obtain ⟨m', r⟩ := j
      obtain rfl : m' = .publish m := hj
      have hin := hshape.worker
      obtain rfl | rfl := hi <;> simpa [Instr.inWorker, Message.isPublish, Instr.delivers] using hin
    obtain ⟨isRetain, ht⟩ := (hr.explains hx.mem_self).taken hdelivers
    exact ⟨isRetain, hx.trace_mono ht⟩
  · rintro s a s' hr _ ⟨isRetain, h⟩ hstep
    exact ⟨isRetain, mem_trace_mono hstep h⟩

/-- What a worker has queued is encoded with the bit cleared. -/
theorem Reachable.encoded_of_queued {pre post : List Event} (hr : Reachable env s)
    (h : s.trace = pre ++ .queued (.worker w) c (.publish m) :: post)
    (he : .encoded c' (.publish m) retain ok ∈ post) : retain = false := by
  refine hr.invariant (I := fun s => ∀ post,
    s.trace = pre ++ .queued (.worker w) c (.publish m) :: post →
      .encoded c' (.publish m) retain ok ∈ post → retain = false) ?_ (by simp [init]) post h he
  intro s a s' hr hI hstep post h he
  obtain ⟨-, ⟨-, rfl⟩ | ⟨-, rfl⟩ | ⟨t, ch, i, rest, nx, -, hx⟩⟩ := step_cases hstep
  · obtain ⟨rfl, -⟩ | ⟨post₀, rfl, hold⟩ := concat_eq_append_cons_cases h
    · cases he
    · exact hI post₀ hold (by simpa using he)
  · exact hI post h he
  · obtain htr | ⟨e, htr, -⟩ := hx.trace
    · exact hI post (htr ▸ h) he
    · obtain ⟨rfl, -⟩ | ⟨post₀, rfl, hold⟩ := concat_eq_append_cons_cases (htr ▸ h)
      · cases he
      · obtain he | he := List.mem_append.1 he
        · exact hI post₀ hold he
        · obtain rfl := List.mem_singleton.1 he
          obtain ⟨isRetain, ht⟩ := Reachable.taken_of_queued hr (w := w) (c := c) (m := m)
            (by simp [hold])
          exact (hx.encode_bit htr).trans (Reachable.retainBit_of_taken hr ht)

/-! ## Where retained messages come from -/

/-- The message arrived as a retained PUBLISH with a payload, and a worker has begun
to handle it. -/
def Retainable (tr : List Event) (m : Publish) : Prop :=
  m.payload ≠ [] ∧ ∃ w, .taken (.worker w) m true ∈ tr

/-- What is retained for a topic. -/
theorem Reachable.retained {topic : GoString} {r : Retained} (hr : Reachable env s)
    (h : s.subs.retain topic = some r) :
    r.retain = true ∧ r.m.topicName = topic ∧ Retainable s.trace r.m := by
  refine hr.invariant (I := fun s => ∀ topic r, s.subs.retain topic = some r →
    r.retain = true ∧ r.m.topicName = topic ∧ Retainable s.trace r.m) ?_ nofun topic r h
  intro s a s' hr hI hstep topic r h
  have hold : s.subs.retain topic = some r →
      r.retain = true ∧ r.m.topicName = topic ∧ Retainable s'.trace r.m := by
    intro h
    obtain ⟨hretain, htopic, hpayload, w, hw⟩ := hI topic r h
    exact ⟨hretain, htopic, hpayload, w, mem_trace_mono hstep hw⟩
  obtain ⟨-, ⟨-, rfl⟩ | ⟨-, rfl⟩ | ⟨t, ch, i, rest, nx, -, hx⟩⟩ := step_cases hstep
  · exact hold h
  · exact hold h
  · obtain heq | ⟨topic', rfl, heq⟩ | ⟨m, rfl, heq⟩ := hx.effects.retain <;> rw [heq] at h
    · exact hold h
    · by_cases ht : topic = topic'
      · simp [ht] at h
      · exact hold (by simpa [ht] using h)
    · by_cases ht : topic = m.topicName
      · subst ht
        obtain rfl : ⟨m, true⟩ = r := by simpa using h
        obtain ⟨w, rfl⟩ := Reachable.worker_of_retains hr hx.mem_self rfl
        obtain ⟨hw, hpayload⟩ := Reachable.explains hr hx.mem_self
        exact ⟨rfl, rfl, hpayload, w, hx.trace_mono hw⟩
      · exact hold (by simpa [ht] using h)

/-! ## What `sendRetain` hands out -/

variable {topic : GoString}

/-- A call of `sendRetain` that finds a message: the copy it submits, and the log
before. -/
structure RetainSent where
  c : ConnId
  topic : GoString
  m : Publish
  before : List Event
  deriving DecidableEq, Repr

def observeRetain (s : State) (a : BrokerAction) (s' : State) : Option RetainSent :=
  match a with
  | .run t _ =>
    match s.code t, s'.code t with
    | .sendRetain c topic :: _, .submit _ (.publish m) :: _ => some ⟨c, topic, m, s.trace⟩
    | _, _ => none
  | _ => none

theorem Executes.sendsRetain {e : RetainSent} (hx : Executes env s t ch i rest nx s')
    (h : observeRetain s (.run t ch) s' = some e) :
    i = .sendRetain e.c e.topic ∧ e.before = s.trace ∧ e.m.obj = s.nextObj ∧
      s'.trace = s.trace ∧ s'.nextObj = s.nextObj + 1 ∧ ∃ r, s.subs.retain e.topic = some r ∧
        e.m = { r.m with obj := e.m.obj } ∧ s'.retainBit e.m.obj = r.retain := by
  simp only [observeRetain, hx.code, hx.code_self] at h
  split at h <;> cases h
  next hcode hnew =>
  obtain ⟨rfl, rfl⟩ := List.cons.inj hcode
  obtain ⟨htr, ⟨-, rfl⟩ | ⟨r, -, hr, rfl, hbit, hnext⟩⟩ := hx.sendRetain
  · simp [Next.apply] at hnew
  · simp only [Next.apply, List.cons_append, List.cons.injEq, Instr.submit.injEq,
      Message.publish.injEq] at hnew
    obtain ⟨⟨-, rfl⟩, -⟩ := hnew
    exact ⟨rfl, rfl, rfl, htr, hnext, r, hr, rfl, hbit⟩

/-- The copy is an object of its own that stays out of the channel. Its bit is set
whenever it is encoded. -/
structure RetainSent.Kept (e : RetainSent) (s : State) : Prop where
  lt : e.m.obj < s.nextObj
  bit : s.retainBit e.m.obj = true
  own : ¬ s.Addressed e.m.obj
  encoded : ∃ post, s.trace = e.before ++ post ∧
    ∀ c retain ok, .encoded c (.publish e.m) retain ok ∈ post → retain = true

theorem RetainSent.Kept.step {e : RetainSent} (h : e.Kept s) (hr : Reachable env s)
    (hstep : step env s a = some s') : e.Kept s' := by
  have hown : ¬ s'.Addressed e.m.obj := by
    intro haddr
    obtain haddr | ⟨ho, -⟩ := addressed_step hstep haddr
    · exact h.own haddr
    · have := h.lt
      omega
  have hlt := Nat.lt_of_lt_of_le h.lt (step_nextObj_le hstep)
  obtain ⟨post, hpost, henc⟩ := h.encoded
  obtain ⟨-, ⟨-, rfl⟩ | ⟨-, rfl⟩ | ⟨t, ch, i, rest, nx, -, hx⟩⟩ := step_cases hstep
  · refine ⟨hlt, h.bit, hown, post ++ [Event.accepted s.nconns], ?_, ?_⟩
    · rw [← List.append_assoc, ← hpost]
      rfl
    · intro c retain ok he
      exact henc c retain ok (by simpa using he)
  · exact ⟨hlt, h.bit, hown, post, hpost, henc⟩
  · have hbit : s'.retainBit e.m.obj = true := by
      obtain heq | ⟨-, m, rfl, hm⟩ := hx.retainBit h.lt
      · exact heq.trans h.bit
      · -- a worker handles only what was posted
        obtain ⟨w, -, rfl⟩ := hr.worker_of_mem hx.mem_self rfl
        exact (h.own (.inr ⟨m, hr.posted_of_handlePost hx.mem_self, hm⟩)).elim
    obtain htr | ⟨ev, htr, -⟩ := hx.trace
    · exact ⟨hlt, hbit, hown, post, htr.trans hpost, henc⟩
    · refine ⟨hlt, hbit, hown, post ++ [ev], by rw [htr, hpost, List.append_assoc], ?_⟩
      intro c retain ok he
      obtain he | he := List.mem_append.1 he
      · exact henc c retain ok he
      · obtain rfl := List.mem_singleton.1 he
        exact (hx.encode_bit htr).trans h.bit

/-- The copy agrees with a message that was handled before. -/
def RetainSent.Origin (e : RetainSent) : Prop :=
  e.m.topicName = e.topic ∧ ∃ m₀, Retainable e.before m₀ ∧ m₀.topicName = e.topic ∧
    e.m = { m₀ with obj := e.m.obj }

theorem Executes.retainSent {e : RetainSent} (hr : Reachable env s)
    (hx : Executes env s t ch i rest nx s') (h : observeRetain s (.run t ch) s' = some e) :
    e.Kept s' ∧ e.Origin := by
  obtain ⟨rfl, hbefore, hobj, htr, hnext, r, hr', hm, hbit⟩ := hx.sendsRetain h
  obtain ⟨hretain, htopic, horigin⟩ := hr.retained hr'
  refine ⟨⟨by omega, hbit.trans hretain, ?_, [], by simp [htr, hbefore], nofun⟩, ?_, r.m, ?_, ?_, hm⟩
  · -- the number is new, and `sendRetain` posts nothing
    have hnew : ¬ s.Addressed e.m.obj := fun haddr => by
      have := hr.addressed_lt haddr
      omega
    rintro (⟨t', m, hpost, ho⟩ | ⟨m, hposted, ho⟩)
    · obtain hold | ⟨-, hnx⟩ | hgets := hx.mem_code hpost
      · exact hnew (.inl ⟨t', m, hold, ho⟩)
      · obtain ⟨c, hi⟩ | hi := brings_post (hx.follows.brings hnx) <;> cases hi
      · cases t' <;> cases hgets
    · exact hnew (.inr ⟨m, htr ▸ hposted, ho⟩)
  · rw [hm]
    exact htopic
  · rw [hbefore]
    exact horigin
  · exact htopic

/-! ## The flags of what subscribers get -/

/-- Whatever a worker queues is encoded with `Retain` cleared. Whatever `sendRetain`
queues is encoded with `Retain` set, and is a copy of an earlier retained message on
its topic. The retained messages have `Retain` set and are under their topic. -/
theorem retain_flags {acts : List BrokerAction}
    (hrun : Transition.run (step env) (init env) acts = some s) :
    (∀ pre w c m post, s.trace = pre ++ .queued (.worker w) c (.publish m) :: post →
      ∀ c' retain ok, .encoded c' (.publish m) retain ok ∈ post → retain = false) ∧
    (∀ e ∈ Transition.observed (step env) observeRetain (init env) acts,
      (∀ c' retain ok, .encoded c' (.publish e.m) retain ok ∈ s.trace.drop e.before.length →
        retain = true) ∧
      e.m.topicName = e.topic ∧ ∃ m₀, Retainable e.before m₀ ∧ m₀.topicName = e.topic ∧
        e.m = { m₀ with obj := e.m.obj }) ∧
    ∀ topic r, s.subs.retain topic = some r → r.retain = true ∧ r.m.topicName = topic := by
  have hr : Reachable env s := ⟨acts, hrun⟩
  refine ⟨fun pre w c m post h c' retain ok => hr.encoded_of_queued h, ?_, fun topic r h =>
    ⟨(hr.retained h).1, (hr.retained h).2.1⟩⟩
  have hhist : ∀ e ∈ Transition.observed (step env) observeRetain (init env) acts,
      e.Kept s ∧ e.Origin := by
    refine Transition.run_history (G := fun _ _ => True)
      (I := fun (h : List RetainSent) s => ∀ e ∈ h, e.Kept s ∧ e.Origin) ?_ nofun hrun
      (Transition.Guarded.of_forall (fun _ _ => trivial) _ _)
    intro h s a s' hr hI _ hstep e he
    obtain he | he := List.mem_append.1 he
    · exact ⟨(hI e he).1.step hr hstep, (hI e he).2⟩
    · rw [Option.mem_toList] at he
      obtain ⟨-, ⟨rfl, -⟩ | ⟨rfl, -⟩ | ⟨t, ch, i, rest, nx, rfl, hx⟩⟩ := step_cases hstep
      · cases he
      · cases he
      · exact hx.retainSent hr he
  intro e he
  obtain ⟨hkept, horigin⟩ := hhist e he
  refine ⟨fun c' retain ok henc => ?_, horigin⟩
  obtain ⟨post, hpost, hall⟩ := hkept.encoded
  rw [hpost, List.drop_left] at henc
  exact hall c' retain ok henc

/-- Client `c` connects and subscribes to `t`. Its handler makes `n` steps. -/
def joinRun (c : ConnId) (clientId : GoString) (n : Nat) : List BrokerAction :=
  .accept :: sends c (.connect (.named clientId)) 9 ++
    sends c (.subscribe ⟨1, [(str "t", .atMostOnce)]⟩) n

/-- The message `x` on `t`. -/
def onT (obj : Nat) : Publish := ⟨obj, .atMostOnce, str "t", 1, str "x"⟩

/-- Client `0` subscribes and sends a retained PUBLISH, client `1` subscribes, and both
are sent what is queued for them. -/
def retainRun : List BrokerAction :=
  joinRun 0 (str "a") 7 ++ sends 0 (.publish true (onT 0)) 5 ++
    List.replicate 8 (.run (.worker 0) .go) ++ joinRun 1 (str "b") 9 ++
    [0, 0, 0, 1, 1, 1].flatMap sendsNext

theorem retain_flags_retainRun :
    ∃ s, Transition.run (step workerEnv) (init workerEnv) retainRun = some s ∧
      .encoded 0 (.publish (onT 2)) false true ∈ s.trace ∧
      .encoded 1 (.publish (onT 5)) true true ∈ s.trace ∧
      s.subs.retain (str "t") = some ⟨onT 2, true⟩ ∧
      ∀ topic r, s.subs.retain topic = some r → r.retain = true ∧ r.m.topicName = topic := by
  have heval : (Transition.run (step workerEnv) (init workerEnv) retainRun).map (fun s => decide (
      .encoded 0 (.publish (onT 2)) false true ∈ s.trace ∧
      .encoded 1 (.publish (onT 5)) true true ∈ s.trace ∧
      s.subs.retain (str "t") = some ⟨onT 2, true⟩)) = some true := by decide +kernel
  obtain ⟨s, hrun, hdec⟩ := Option.map_eq_some_iff.1 heval
  obtain ⟨h₀, h₁, hretain⟩ := of_decide_eq_true hdec
  exact ⟨s, hrun, h₀, h₁, hretain, (retain_flags hrun).2.2⟩
