-- SUMMARY: Replies are counted: no request gets more than one, and while every request has its reply, the last reply is that to the last request.
import Mhub.Broker.Acks
import Mhub.Broker.ConnAck

/-!
# One reply for each request

The calls of a client wait for some of the replies: that to a CONNECT, to a SUBSCRIBE
and to a PUBLISH with QoS 1. The broker queues at most one for each of these requests,
with either strategy. The code of the handler bounds what is to come: an instruction
that owes a reply is replaced by one that does, until the reply is queued or dropped.

So as soon as there are as many of these replies as requests, the last reply is to the
last request, and the handler of that request has done its work.
-/

variable {env : Env} {s s' : State} {t : Tid} {ch : Choice} {i j : Instr} {rest : List Instr}
  {nx : Next} {c : ConnId}

/-! ## Requests whose reply is waited for -/

def Message.isAwaited : Message → Bool
  | .connAck _ | .pubAck _ | .subAck .. => true
  | _ => false

def Packet.awaits : Packet → Bool
  | .connect _ | .subscribe _ => true
  | .publish _ m => m.qosLevel = .atLeastOnce
  | _ => false

theorem Message.isReply_of_isAwaited {m : Message} (h : m.isAwaited = true) : m.isReply = true := by
  cases m <;> first | rfl | cases h

theorem Fulfilled.awaits {done : Set Event} {p : Packet} {m : Message} (hf : Fulfilled c done p m)
    (hm : m.isAwaited = true) : p.awaits = true := by
  cases m with
  | connAck rc => cases p <;> first | rfl | exact hf.elim
  | pubAck ack => cases p <;> first | exact hf.elim | exact decide_eq_true hf.1
  | subAck id qos => cases p <;> first | rfl | exact hf.elim
  | _ => cases hm

/-- What was queued for `c` of these replies. -/
def State.awaitedFor (s : State) (c : ConnId) : List Message :=
  (s.queuedFor c).filter Message.isAwaited

/-- What was received from `c` of these requests. -/
def State.awaitingOf (s : State) (c : ConnId) : List Packet :=
  (s.requests c).filter Packet.awaits

/-! ## What a handler owes -/

/-- The instruction brings about one of these replies. -/
def Instr.owed (i : Instr) : Bool := i.begins || i.owes.any Message.isAwaited

theorem countP_owed {is : List Instr} (hbegins : ∀ j ∈ is, j.begins = false) :
    is.countP Instr.owed = (is.filterMap Instr.owes).countP Message.isAwaited := by
  rw [List.countP_filterMap]
  refine List.countP_congr fun j hj => ?_
  cases h : j.owes <;> simp [Instr.owed, hbegins j hj, h]

theorem countP_owed_handle {p : Packet} : (handle c p).countP Instr.owed = p.awaits.toNat := by
  cases hp : p.isConnect with
  | true => cases p <;> first | rfl | cases hp
  | false =>
    obtain ⟨howes, -, hbegins⟩ := owes_handle (c := c) hp
    rw [countP_owed hbegins, howes]
    cases p with
    | publish retain m =>
      simp only [answer, Packet.awaits]
      split <;> simp [*, Message.isAwaited]
    | connect m => cases hp
    | _ => rfl

/-- An instruction that owes a reply is replaced by one that does. -/
theorem Executes.owed_next (hr : Reachable env s)
    (hx : Executes env s (.inbound c) ch i rest nx s')
    (hi : i.inHandler c = true ∨ i ∈ inboundDefer c) :
    nx.instrs.countP Instr.owed ≤ [i].countP Instr.owed := by
  obtain hi | hi := hi
  · by_cases hs : i.silent = true
    · obtain ⟨is, rfl, howes, -, hbegins⟩ := silent_follows hi hs hx.follows
      simp [Next.instrs, countP_owed hbegins, howes]
    · have hf := hx.follows
      cases hf with
      | falls _ => exact Nat.zero_le _
      | submit | trySubmit => exact Nat.le_refl _
      | validated => exact Nat.le_refl 1
      | @limited c' m rc clients =>
        obtain ⟨howes, -, hbegins⟩ := owes_connectBody env.cf c' m (checkLimit env.cf clients rc)
        rw [Next.instrs, countP_owed hbegins, howes]
        exact Nat.le_refl 1
      | @redeliver c' key m =>
        have hnone : ∀ j ∈ (Next.push (redelivery c' m)).instrs, ¬ j.owed = true := by
          intro j hj
          obtain ⟨id, m, -, -, rfl⟩ := hx.mem_redeliver hr hj
          intro h
          cases h
        rw [List.countP_eq_zero.2 hnone]
        exact Nat.zero_le _
      | rejected _ | inboundReturn => exact Nat.zero_le _
      | _ => first | exact absurd rfl hs | cases hi
  · simp [follows_of_mem_inboundDefer hi hx.follows, Next.instrs]

/-- Once it is queued, a reply is not owed any more. -/
theorem Executes.owed_queued (hr : Reachable env s)
    (hx : Executes env s (.inbound c) ch i rest nx s')
    (hi : i.inHandler c = true ∨ i ∈ inboundDefer c) :
    (s'.awaitedFor c).length + nx.instrs.countP Instr.owed ≤
      (s.awaitedFor c).length + [i].countP Instr.owed := by
  obtain hq | ⟨j, hsend, hq⟩ := hx.queuedFor (c := c)
  · rw [State.awaitedFor, hq]
    exact Nat.add_le_add_left (hx.owed_next hr hi) _
  · have hnone : nx.instrs = [] := by
      have hf := hx.follows
      obtain rfl | rfl := hsend <;> cases hf <;> rfl
    have howed : [j.m].countP Message.isAwaited ≤ [i].countP Instr.owed := by
      cases hm : j.m.isAwaited with
      | false => simp [hm]
      | true =>
        have hreply := Message.isReply_of_isAwaited hm
        obtain rfl | rfl := hsend <;> simp [Instr.owed, Instr.owes, hreply, hm]
    rw [State.awaitedFor, hq, hnone, List.filter_append, List.length_append,
      ← List.countP_eq_length_filter (l := [j.m])]
    exact Nat.add_le_add_left howed _

/-- Nobody else queues one of these replies. -/
theorem Executes.awaitedFor_other (hr : Reachable env s) (hx : Executes env s t ch i rest nx s')
    (ht : t ≠ .inbound c) : s'.awaitedFor c = s.awaitedFor c := by
  obtain hq | ⟨j, hsend, hq⟩ := hx.queuedFor (c := c)
  · rw [State.awaitedFor, hq, State.awaitedFor]
  · have hmem : .send c j ∈ s.code t ∨ .trySend c j ∈ s.code t := by
      obtain rfl | rfl := hsend
      · exact .inl hx.mem_self
      · exact .inr hx.mem_self
    have hm : j.m.isAwaited = false := by
      obtain hdis | hpub := hr.queues hmem ht
      · rw [hdis]
        rfl
      · cases h : j.m <;> first | rfl | simp [h, Message.isPublish] at hpub
    simp [State.awaitedFor, hq, hm]

/-! ## Counting -/

theorem Executes.requests_inboundLoop (hx : Executes env s t ch (.inboundLoop c) rest nx s') :
    (∃ p, ch = .recv p ∧ nx = .push (handle c (p.at s.nextObj) ++ [Instr.inboundLoop c]) ∧
      s'.requests c = s.requests c ++ [p.at s.nextObj]) ∨
    ch = .recvErr ∧ nx = .push [.aborted, .inboundReturn c, .inboundLoop c] ∧
      s'.requests c = s.requests c := by
  obtain ⟨p, hch, hnx, htr⟩ | ⟨rfl, hnx⟩ := hx.inboundLoop
  · exact .inl ⟨p, hch, hnx, by simp [State.requests, htr]⟩
  · obtain ⟨-, s₁, hexec, rfl⟩ := hx
    simp only [exec] at hexec
    cases hexec
    exact .inr ⟨rfl, hnx, rfl⟩

theorem State.awaitedFor_accept : s.accept.awaitedFor c = s.awaitedFor c := by
  rw [State.awaitedFor, State.queuedFor_accept, State.awaitedFor]

theorem State.requests_accept : s.accept.requests c = s.requests c := by
  simp [State.requests, State.accept, State.log, State.setCode]

theorem Executes.requests_other (hr : Reachable env s) (hx : Executes env s t ch i rest nx s')
    (ht : t ≠ .inbound c) : s'.requests c = s.requests c :=
  hx.requests fun hi => ht (hx.home hr (hi ▸ rfl))

theorem Executes.awaitedFor_inboundLoop (hx : Executes env s t ch (.inboundLoop c) rest nx s') :
    s'.awaitedFor c = s.awaitedFor c := by
  obtain hq | ⟨j, h | h, -⟩ := hx.queuedFor (c := c)
  · rw [State.awaitedFor, hq, State.awaitedFor]
  · cases h
  · cases h

/-- `inboundLoop` reads a request and owes the reply, or fails to read. -/
theorem Executes.owed_request (hx : Executes env s (.inbound c) ch (.inboundLoop c) [] nx s')
    (h : (s.awaitedFor c).length ≤ (s.awaitingOf c).length) :
    (s'.awaitedFor c).length + (nx.apply []).countP Instr.owed ≤ (s'.awaitingOf c).length := by
  rw [hx.awaitedFor_inboundLoop]
  obtain ⟨p, -, rfl, hreq⟩ | ⟨-, rfl, hreq⟩ := hx.requests_inboundLoop
  · have hlen : ([p.at s.nextObj].filter Packet.awaits).length = (p.at s.nextObj).awaits.toNat := by
      cases hp : (p.at s.nextObj).awaits <;> simp [hp]
    rw [State.awaitingOf, hreq, List.filter_append, List.length_append, hlen, Next.apply,
      List.append_nil, List.countP_append, countP_owed_handle]
    exact Nat.add_le_add_right h _
  · rw [State.awaitingOf, hreq]
    exact h

/-- The handler queues what it owes, or drops it. -/
theorem Executes.owed_handler (hr : Reachable env s)
    (hx : Executes env s (.inbound c) ch i rest nx s')
    (hi : i.inHandler c = true ∨ i ∈ inboundDefer c) :
    (s'.awaitedFor c).length + (nx.apply rest).countP Instr.owed ≤
      (s.awaitedFor c).length + (i :: rest).countP Instr.owed := by
  have hone := hx.owed_queued hr hi
  have happly : (nx.apply rest).countP Instr.owed ≤
      nx.instrs.countP Instr.owed + rest.countP Instr.owed := by
    cases nx with
    | push is => exact Nat.le_of_eq List.countP_append
    | jump is => exact Nat.le_add_right ..
  have hcons : (i :: rest).countP Instr.owed = [i].countP Instr.owed + rest.countP Instr.owed := by
    rw [← List.countP_append, List.singleton_append]
  omega

/-- What was queued of these replies, and what the handler still owes, are no more than the
requests. -/
theorem Reachable.owed_le (hr : Reachable env s) (c : ConnId) :
    (s.awaitedFor c).length + (s.code (.inbound c)).countP Instr.owed ≤
      (s.awaitingOf c).length := by
  refine hr.invariant (I := fun s => (s.awaitedFor c).length +
    (s.code (.inbound c)).countP Instr.owed ≤ (s.awaitingOf c).length) ?_ (Nat.le_refl 0)
  intro s a s' hr hI hstep
  obtain ⟨-, ⟨-, rfl⟩ | ⟨-, rfl⟩ | ⟨t, ch, i, rest, nx, -, hx⟩⟩ := step_cases hstep
  · rw [State.awaitedFor_accept, State.awaitingOf, State.requests_accept]
    obtain hcode | hcode := s.code_accept (.inbound c)
    · rwa [hcode]
    · rw [hcode]
      exact Nat.le_trans (Nat.le_add_right ..) hI
  · exact hI
  · by_cases ht : t = .inbound c
    · subst ht
      have hshape := Reachable.shaped hr (.inbound c)
      rw [hx.code] at hI hshape
      rw [hx.code_self]
      obtain rfl | hi := hshape.inbound
      · obtain rfl : rest = [] := hshape.rest_of_loop
        exact hx.owed_request hI
      · have hne : i ≠ .inboundLoop c := by
          rintro rfl
          simp [Instr.inHandler, inboundDefer] at hi
        rw [State.awaitingOf, hx.requests hne]
        exact Nat.le_trans (hx.owed_handler hr hi) hI
    · rw [hx.awaitedFor_other hr ht, State.awaitingOf, hx.requests_other hr ht,
        hx.code_inbound (Ne.symm ht)]
      exact hI

/-! ## The last reply -/

theorem State.since_subset : s.since c ⊆ {e | e ∈ s.trace} :=
  fun _ he => sinceLast_snd_subset he

theorem State.request_eq : s.request c = (s.requests c).getLast? :=
  sinceLast_fst

/-- If there are as many of these replies as requests, the last reply is to the last
request, and the handler of that has done its work. -/
def State.Replied (s : State) (c : ConnId) : Prop :=
  (s.awaitedFor c).length = (s.awaitingOf c).length →
    ∀ m ∈ (s.awaitedFor c).getLast?, ∃ p ∈ (s.awaitingOf c).getLast?,
      Fulfilled c {e | e ∈ s.trace} p m

theorem State.Replied.mono (h : s.Replied c) (hsub : s.trace ⊆ s'.trace)
    (hq : s'.awaitedFor c = s.awaitedFor c) (hreq : s'.awaitingOf c = s.awaitingOf c) :
    s'.Replied c := by
  intro hlen m hm
  rw [hq, hreq] at hlen
  rw [hq] at hm
  obtain ⟨p, hp, hf⟩ := h hlen m hm
  exact ⟨p, hreq ▸ hp, hf.mono fun _ he => hsub he⟩

/-- A request is read: the replies are fewer now. -/
theorem State.Replied.request (h : s.Replied c) (hr : Reachable env s)
    (hx : Executes env s (.inbound c) ch (.inboundLoop c) rest nx s') : s'.Replied c := by
  have hq : s'.awaitedFor c = s.awaitedFor c := hx.awaitedFor_inboundLoop
  have hsub : s.trace ⊆ s'.trace := fun _ he => hx.trace_mono he
  obtain ⟨p, -, -, hreq⟩ | ⟨-, -, hreq⟩ := hx.requests_inboundLoop
  · cases hp : (p.at s.nextObj).awaits with
    | false => exact h.mono hsub hq (by simp [State.awaitingOf, hreq, hp])
    | true =>
      intro hlen
      have hle := hr.owed_le c
      simp only [hq, State.awaitingOf, hreq, List.filter_append, List.filter_cons, hp, if_true,
        List.length_append, List.filter_nil, List.length_singleton] at hlen
      rw [State.awaitingOf] at hle
      omega
  · exact h.mono hsub hq (by rw [State.awaitingOf, hreq, State.awaitingOf])

/-- A reply is queued: it is to the last request. -/
theorem State.Replied.queued {jb : Job} (hr : Reachable env s)
    (hx : Executes env s t ch i rest nx s') (hi : i = .send c jb ∨ i = .trySend c jb)
    (hq : s'.queuedFor c = s.queuedFor c ++ [jb.m]) (hm : jb.m.isAwaited = true) :
    s'.Replied c := by
  obtain ⟨-, p, hp, hf⟩ := hx.reply_due hr hi (Message.isReply_of_isAwaited hm)
  have hreq : s'.requests c = s.requests c := by
    refine hx.requests ?_
    rintro rfl
    obtain h | h := hi <;> cases h
  rw [State.request_eq, List.getLast?_eq_some_iff] at hp
  obtain ⟨ps, hp⟩ := hp
  rintro - m hlast
  obtain rfl : jb.m = m := by simpa [State.awaitedFor, hq, hm] using hlast
  refine ⟨p, by simp [State.awaitingOf, hreq, hp, hf.awaits hm], hf.mono fun e he => ?_⟩
  exact hx.trace_mono (s.since_subset he)

theorem Reachable.replied (hr : Reachable env s) (c : ConnId) : s.Replied c := by
  refine hr.invariant (I := fun s => s.Replied c) ?_ ?_
  case refine_2 =>
    rintro - m hm
    cases hm
  intro s a s' hr hI hstep
  have hsub : s.trace ⊆ s'.trace := fun e he => mem_trace_mono hstep he
  obtain ⟨-, ⟨-, rfl⟩ | ⟨-, rfl⟩ | ⟨t, ch, i, rest, nx, -, hx⟩⟩ := step_cases hstep
  · refine hI.mono hsub State.awaitedFor_accept ?_
    rw [State.awaitingOf, State.requests_accept, State.awaitingOf]
  · exact hI
  · by_cases hi : i = .inboundLoop c
    · subst hi
      obtain rfl := hx.home hr rfl
      exact hI.request hr hx
    · have hreq : s'.awaitingOf c = s.awaitingOf c := by
        rw [State.awaitingOf, hx.requests hi, State.awaitingOf]
      obtain hq | ⟨jb, hsend, hq⟩ := hx.queuedFor (c := c)
      · exact hI.mono hsub (by rw [State.awaitedFor, hq, State.awaitedFor]) hreq
      · cases hm : jb.m.isAwaited with
        | true => exact State.Replied.queued hr hx hsend hq hm
        | false => exact hI.mono hsub (by simp [State.awaitedFor, hq, hm]) hreq
