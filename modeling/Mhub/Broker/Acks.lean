-- SUMMARY: What a reply tells the client: that the handler of its request has done its work before, and what the index then holds of the topics.
import Mathlib.Data.Set.Basic
import Mathlib.Order.CompletePartialOrder
import Mhub.Broker.History

/-!
# Acknowledgements

A handler queues its reply at its end. So a client that gets a reply can rely on what the
request asked for: a PUBLISH that is acknowledged is with the workers and the peers, and
the index was called with every topic of a SUBSCRIBE or an UNSUBSCRIBE. What the calls
come to is another matter. A SUBACK also answers for filters that `add` does not accept,
and an UNSUBACK for filters with wildcards, which `unsub` leaves in the index (`Indexed`).
And the reply is to the last request that was received, with nothing received after it.

Replies come from no other place. What others queue for a connection, and what
`doConnect` queues again from the store, are PUBLISH and DISCONNECT messages.
-/

variable {env : Env} {s s' : State} {t : Tid} {ch : Choice} {i j : Instr} {rest : List Instr}
  {nx : Next} {c : ConnId}

/-! ## The request that is handled -/

def Event.request (c : ConnId) : Event → Option Packet
  | .received c' p => if c' = c then some p else none
  | _ => none

/-- The last message received on `c`. -/
def State.request (s : State) (c : ConnId) : Option Packet :=
  (sinceLast (·.request c) s.trace).1

/-- What has happened since it was received. -/
def State.since (s : State) (c : ConnId) : Set Event :=
  {e | e ∈ (sinceLast (·.request c) s.trace).2}

theorem State.eq_append_of_request {p : Packet} (h : s.request c = some p) :
    ∃ pre, s.trace = pre ++ .received c p :: (sinceLast (·.request c) s.trace).2 ∧
      ∀ q, .received c q ∉ (sinceLast (·.request c) s.trace).2 := by
  obtain ⟨pre, e, htr, he, hnone⟩ := eq_append_of_sinceLast h
  obtain rfl : e = .received c p := by
    cases e with
    | received d p' =>
      by_cases hd : d = c
      · simpa [Event.request, hd] using he
      · simp [Event.request, hd] at he
    | _ => cases he
  exact ⟨pre, htr, fun q hq => by simpa [Event.request] using hnone _ hq⟩

theorem State.received_of_request {p : Packet} (h : s.request c = some p) :
    .received c p ∈ s.trace := by
  obtain ⟨pre, htr, -⟩ := State.eq_append_of_request h
  rw [htr]
  exact List.mem_append_right _ (List.mem_cons_self ..)

/-- An event that is not the next request. -/
theorem State.since_append {e : Event} (htr : s'.trace = s.trace ++ [e])
    (he : e.request c = none) :
    s'.request c = s.request c ∧ s.since c ⊆ s'.since c ∧ e ∈ s'.since c := by
  have hlast : sinceLast (·.request c) (s.trace ++ [e]) = (s.request c, _) :=
    sinceLast_concat_of_none he
  refine ⟨?_, ?_, ?_⟩
  · simp [State.request, htr, hlast]
  · intro x hx
    simp only [State.since, htr, hlast]
    exact List.mem_append_left _ hx
  · simp [State.since, htr, hlast]

theorem State.since_congr (htr : s'.trace = s.trace) :
    s'.request c = s.request c ∧ s'.since c = s.since c := by
  simp [State.request, State.since, htr]

theorem Event.LoggedBy.request {e : Event} (h : e.LoggedBy s t i) (hi : i ≠ .inboundLoop c) :
    e.request c = none := by
  cases e with
  | received d p =>
    have hne : d ≠ c := fun hd => hi (hd ▸ h)
    simp [Event.request, hne]
  | _ => rfl

/-- `inboundLoop` reads the next request, or fails to. -/
theorem Executes.reads_request (hr : Reachable env s)
    (hx : Executes env s t ch (.inboundLoop c) rest nx s') :
    (∃ p, s'.code (.inbound c) = handle c p ++ [.inboundLoop c] ∧ s'.request c = some p ∧
      s'.since c = ∅) ∨
    s'.code (.inbound c) = [.aborted, .inboundReturn c, .inboundLoop c] := by
  obtain rfl := hx.home hr rfl
  obtain rfl : rest = [] := (hx.code ▸ hr.shaped (.inbound c)).rest_of_loop
  rw [hx.code_self]
  obtain ⟨p, -, rfl, htr⟩ | ⟨-, rfl⟩ := hx.inboundLoop
  · have hlast : sinceLast (·.request c) s'.trace = (some (p.at s.nextObj), []) := by
      rw [htr]
      exact sinceLast_concat_of_some (by simp [Event.request])
    exact .inl ⟨p.at s.nextObj, by simp [Next.apply], by simp [State.request, hlast],
      by simp [State.since, hlast]⟩
  · exact .inr rfl

/-- A step that is not the next request leaves the request. -/
theorem Executes.request (hx : Executes env s t ch i rest nx s') (hi : i ≠ .inboundLoop c) :
    s'.request c = s.request c := by
  obtain htr | ⟨e, htr, hlog⟩ := hx.trace
  · exact (State.since_congr htr).1
  · exact (State.since_append htr (hlog.request hi)).1

/-- The rule for what the code of a handler tells of the request that is handled. -/
theorem Reachable.forall_handler {Q : Option Packet → Instr → Prop}
    (hloop : ∀ o, ∀ j ∈ [.aborted, .inboundReturn c, .inboundLoop c], Q o j)
    (hhandle : ∀ {p j}, j ∈ handle c p → Q (some p) j)
    (hnext : ∀ {s ch i rest nx s' j}, Reachable env s →
      Executes env s (.inbound c) ch i rest nx s' → i ≠ .inboundLoop c → Q (s.request c) i →
      j ∈ nx.instrs → Q (s.request c) j)
    (hr : Reachable env s) : ∀ i ∈ s.code (.inbound c), Q (s.request c) i := by
  refine hr.invariant (I := fun s => ∀ i ∈ s.code (.inbound c), Q (s.request c) i) ?_
    (by simp [init])
  intro s a s' hr hI hstep j hj
  obtain ⟨-, ⟨-, rfl⟩ | ⟨-, rfl⟩ | ⟨t, ch, i, rest, nx, -, hx⟩⟩ := step_cases hstep
  · have htr : s.accept.trace = s.trace ++ [.accepted s.nconns] := rfl
    rw [(State.since_append htr rfl).1]
    obtain hj | rfl := State.mem_code_accept hj
    · exact hI j hj
    · exact hloop _ _ (by simp [Tid.loop])
  · exact hI j hj
  · by_cases hi : i = .inboundLoop c
    · subst hi
      obtain ⟨p, hcode, hreq, -⟩ | hcode := hx.reads_request hr
      · rw [hreq]
        rw [hcode, List.mem_append, List.mem_singleton] at hj
        obtain hj | rfl := hj
        · exact hhandle hj
        · exact hloop _ _ (by simp)
      · exact hloop _ _ (hcode ▸ hj)
    · rw [hx.request hi]
      by_cases ht : t = .inbound c
      · subst ht
        rw [hx.code_self] at hj
        obtain hnew | hold := Next.mem_apply hj
        · exact hnext hr hx hi (hI i hx.mem_self) hnew
        · exact hI j (hx.code ▸ List.mem_cons_of_mem _ hold)
      · rw [hx.code_inbound (Ne.symm ht)] at hj
        exact hI j hj

/-! ## What a reply stands for -/

/-- The message replies to the request, and the handler has done its work: a PUBLISH was
posted and replicated, and the index was called with every topic. -/
def Fulfilled (c : ConnId) (done : Set Event) : Packet → Message → Prop
  | .connect _, .connAck _ => True
  | .publish _ m, .pubAck ack => m.qosLevel = .atLeastOnce ∧ ack = ⟨.atMostOnce, m.messageId⟩ ∧
    .posted m ∈ done ∧ .replicated m ∈ done
  | .subscribe m, .subAck id topicsQos => id = m.messageId ∧
    topicsQos = m.topics.map (fun _ => .atMostOnce) ∧ ∀ tq ∈ m.topics, .index (.add tq.1 c) ∈ done
  | .unsubscribe m, .unsubAck id => id = m.messageId ∧ ∀ f ∈ m.topics, .index (.unsub f c) ∈ done
  | .pingReq, .pingResp => True
  | _, _ => False

theorem Fulfilled.mono {done done' : Set Event} {p : Packet} {m : Message} (h : done ⊆ done')
    (hf : Fulfilled c done p m) : Fulfilled c done' p m := by
  cases p <;> cases m <;> try exact hf
  case publish.pubAck => exact ⟨hf.1, hf.2.1, h hf.2.2.1, h hf.2.2.2⟩
  case subscribe.subAck => exact ⟨hf.1, hf.2.1, fun tq htq => h (hf.2.2 tq htq)⟩
  case unsubscribe.unsubAck => exact ⟨hf.1, fun f hmem => h (hf.2 f hmem)⟩

/-- What an instruction of a handler logs whenever it is executed. -/
def Instr.records : Instr → Set Event
  | .post m => {.posted m}
  | .replicate m => {.replicated m}
  | .subsAdd c topic => {.index (.add topic c)}
  | .unsub c topic => {.index (.unsub topic c)}
  | _ => ∅

/-- A reply is submitted only when it is due, and `doConnect` only runs for a CONNECT. -/
structure ReplyDue (c : ConnId) (o : Option Packet) (done : Set Event) (i : Instr) : Prop where
  reply : ∀ m, i.owes = some m → ∃ p, o = some p ∧ Fulfilled c done p m
  connect : i.begins = true → ∃ m, o = some (.connect m)

/-- What is known is the request, and what was done since. -/
def replyOutline (c : ConnId) (o : Option Packet) : Outline Instr (Set Event) where
  pre i done := ReplyDue c o done i
  post i done := done ∪ i.records
  pre_mono h hpre := by
    refine ⟨fun m hm => ?_, hpre.connect⟩
    obtain ⟨p, hp, hf⟩ := hpre.reply m hm
    exact ⟨p, hp, hf.mono h⟩
  post_mono h := Set.union_subset_union_left _ h
  le_post := .inl

section

variable {o : Option Packet} {done : Set Event}

theorem due_of_reply (hbegins : i.begins = false)
    (h : ∀ m, i.owes = some m → ∃ p, o = some p ∧ Fulfilled c done p m) : ReplyDue c o done i :=
  ⟨h, fun hb => by simp [hbegins] at hb⟩

theorem due_of_connect (howes : i.owes = none) (h : ∃ m, o = some (.connect m)) :
    ReplyDue c o done i :=
  ⟨fun m hm => by simp [howes] at hm, fun _ => h⟩

theorem due_of_quiet (howes : i.owes = none) (hbegins : i.begins = false) : ReplyDue c o done i :=
  due_of_reply hbegins fun m hm => by simp [howes] at hm

end

/-! ## Steps -/

theorem Executes.records {e : Event} (hx : Executes env s t ch i rest nx s') (he : e ∈ i.records) :
    s'.trace = s.trace ++ [e] := by
  cases i with
  | post m =>
    obtain rfl : e = .posted m := he
    exact hx.post_logged
  | replicate m =>
    obtain rfl : e = .replicated m := he
    obtain ⟨-, s₁, hexec, rfl⟩ := hx
    cases hexec
    rfl
  | subsAdd c topic =>
    obtain rfl : e = .index (.add topic c) := he
    obtain ⟨-, s₁, hexec, rfl⟩ := hx
    cases eq_of_ite_none hexec
    rfl
  | unsub c topic =>
    obtain rfl : e = .index (.unsub topic c) := he
    obtain ⟨-, s₁, hexec, rfl⟩ := hx
    cases eq_of_ite_none hexec
    rfl
  | _ => exact he.elim

theorem due_of_filterMap {o : Option Packet} {done : Set Event} (is : List Instr)
    (howes : is.filterMap Instr.owes = []) (hbegins : ∀ j ∈ is, j.begins = false) (hj : j ∈ is) :
    ReplyDue c o done j :=
  due_of_quiet (List.filterMap_eq_nil_iff.1 howes j hj) (hbegins j hj)

theorem due_of_mem_inboundDefer {o : Option Packet} {done : Set Event}
    (hj : j ∈ inboundDefer c) : ReplyDue c o done j :=
  due_of_filterMap (inboundDefer c) rfl (by simp [inboundDefer, Instr.begins]) hj

/-- What takes the place of an instruction, apart from the next request, is in order. -/
theorem ReplyDue.follows {o : Option Packet} {done : Set Event} (hr : Reachable env s)
    (hx : Executes env s (.inbound c) ch i rest nx s')
    (hi : i.inHandler c = true ∨ i ∈ inboundDefer c)
    (hdue : ReplyDue c o done i) (hj : j ∈ nx.instrs) : ReplyDue c o done j := by
  obtain hi | hi := hi
  · by_cases hs : i.silent = true
    · obtain ⟨is, rfl, howes, -, hbegins⟩ := silent_follows hi hs hx.follows
      exact due_of_filterMap is howes hbegins hj
    · have hf := hx.follows
      cases hf with
      | falls _ => simp [Next.instrs] at hj
      | submit | trySubmit =>
        obtain rfl := List.mem_singleton.1 hj
        exact due_of_reply rfl hdue.reply
      | validated =>
        obtain rfl := List.mem_singleton.1 hj
        exact due_of_connect rfl (hdue.connect rfl)
      | @limited c' m rc clients =>
        obtain ⟨m', ho⟩ := hdue.connect rfl
        obtain ⟨howes, -, hbegins⟩ := owes_connectBody env.cf c' m (checkLimit env.cf clients rc)
        refine ⟨fun ack hack => ⟨_, ho, ?_⟩, fun h => by simp [hbegins j hj] at h⟩
        have hmem := List.mem_filterMap.2 ⟨j, hj, hack⟩
        rw [Next.instrs, howes, List.mem_singleton] at hmem
        rw [hmem]
        trivial
      | redeliver m =>
        obtain ⟨id, m, -, -, rfl⟩ := hx.mem_redeliver hr hj
        exact due_of_quiet rfl rfl
      | rejected _ | inboundReturn =>
        obtain rfl := of_decide_eq_true hi
        exact due_of_mem_inboundDefer hj
      | _ => first | exact absurd rfl hs | cases hi
  · simp [follows_of_mem_inboundDefer hi hx.follows, Next.instrs] at hj

theorem mem_after_of_records {o : Option Packet} {done : Set Event} {is : List Instr} {e : Event}
    (hi : i ∈ is) (he : e ∈ i.records) : e ∈ (replyOutline c o).after done is := by
  induction is generalizing done with
  | nil => cases hi
  | cons i' is ih =>
    obtain rfl | hi := List.mem_cons.1 hi
    · exact (replyOutline c o).le_after (a := done ∪ i.records) (Or.inr he)
    · exact ih hi

theorem replyOutline_handle {p : Packet} :
    (replyOutline c (some p)).Ok ∅ (handle c p ++ [Instr.inboundLoop c]) := by
  have hloop : ∀ done, (replyOutline c (some p)).Ok done [Instr.inboundLoop c] :=
    fun done => ⟨due_of_quiet rfl rfl, trivial⟩
  refine Outline.ok_append.2 ⟨?_, hloop _⟩
  cases p with
  | connect m => exact ⟨due_of_connect rfl ⟨m, rfl⟩, trivial⟩
  | publish retain m =>
    refine Outline.ok_append.2 ⟨Outline.ok_of_forall fun i hi done => ?_, ?_⟩
    · simp only [List.mem_cons, List.not_mem_nil, or_false] at hi
      obtain rfl | rfl | rfl | rfl | rfl := hi <;> exact due_of_quiet rfl rfl
    · split
      · next hq =>
        refine ⟨due_of_reply rfl fun ack hack => ⟨_, rfl, ?_⟩, trivial⟩
        obtain rfl := Option.some.inj hack
        exact ⟨hq, rfl, mem_after_of_records (i := .post m) (by simp) rfl,
          mem_after_of_records (i := .replicate m) (by simp) rfl⟩
      · trivial
  | subscribe m =>
    refine Outline.ok_append.2 ⟨Outline.ok_append.2 ⟨?_, ?_⟩, ?_⟩
    · refine Outline.ok_of_forall fun i hi done => ?_
      simp only [List.mem_append, List.mem_flatMap, List.mem_cons, List.not_mem_nil,
        or_false] at hi
      obtain rfl | ⟨tq, -, rfl | rfl⟩ := hi <;> exact due_of_quiet rfl rfl
    · refine ⟨due_of_reply rfl fun ack hack => ⟨_, rfl, ?_⟩, trivial⟩
      obtain rfl := Option.some.inj hack
      refine ⟨rfl, rfl, fun tq htq => mem_after_of_records (i := .subsAdd c tq.1) ?_ rfl⟩
      exact List.mem_append_right _ (List.mem_flatMap.2 ⟨tq, htq, by simp⟩)
    · refine Outline.ok_of_forall fun i hi done => ?_
      obtain ⟨tq, -, rfl⟩ := List.mem_map.1 hi
      exact due_of_quiet rfl rfl
  | unsubscribe m =>
    refine Outline.ok_append.2 ⟨Outline.ok_of_forall fun i hi done => ?_, ?_⟩
    · simp only [List.mem_flatMap, List.mem_cons, List.not_mem_nil, or_false] at hi
      obtain ⟨f, -, rfl | rfl⟩ := hi <;> exact due_of_quiet rfl rfl
    · refine ⟨due_of_reply rfl fun ack hack => ⟨_, rfl, ?_⟩, trivial⟩
      obtain rfl := Option.some.inj hack
      refine ⟨rfl, fun f hf => mem_after_of_records (i := .unsub c f) ?_ rfl⟩
      exact List.mem_flatMap.2 ⟨f, hf, by simp⟩
  | pubAck m => trivial
  | pingReq =>
    refine ⟨due_of_reply rfl fun ack hack => ⟨_, rfl, ?_⟩, trivial⟩
    obtain rfl := Option.some.inj hack
    trivial
  | disconnect | other => exact ⟨due_of_quiet rfl rfl, trivial⟩

/-- What a step that is not the next request does to what is known. -/
theorem Executes.since (hx : Executes env s t ch i rest nx s') (hi : i ≠ .inboundLoop c) :
    s'.request c = s.request c ∧ s.since c ∪ i.records ⊆ s'.since c := by
  obtain htr | ⟨e, htr, hlog⟩ := hx.trace
  · obtain ⟨hreq, hsince⟩ := State.since_congr (c := c) htr
    refine ⟨hreq, ?_⟩
    rintro e (he | he)
    · rwa [hsince]
    · simp [hx.records he] at htr
  · obtain ⟨hreq, hsub, hmem⟩ := State.since_append htr (hlog.request hi)
    refine ⟨hreq, ?_⟩
    rintro e' (he' | he')
    · exact hsub he'
    · have heq := (hx.records he').symm.trans htr
      obtain rfl := List.singleton_inj.1 (List.append_cancel_left heq)
      exact hmem

theorem Executes.next_request (hr : Reachable env s)
    (hx : Executes env s t ch (.inboundLoop c) rest nx s') :
    (replyOutline c (s'.request c)).Ok (s'.since c) (s'.code (.inbound c)) := by
  obtain ⟨p, hcode, hreq, hsince⟩ | hcode := hx.reads_request hr
  · rw [hcode, hreq, hsince]
    exact replyOutline_handle
  · rw [hcode]
    refine Outline.ok_of_forall fun i hi done => ?_
    simp only [List.mem_cons, List.not_mem_nil, or_false] at hi
    obtain rfl | rfl | rfl := hi <;> exact due_of_quiet rfl rfl

/-! ## Runs -/

theorem replyOutline_of_reachable (hr : Reachable env s) (c : ConnId) :
    (replyOutline c (s.request c)).Ok (s.since c) (s.code (.inbound c)) := by
  refine hr.invariant
    (I := fun s => (replyOutline c (s.request c)).Ok (s.since c) (s.code (.inbound c))) ?_ ?_
  case refine_2 => exact trivial
  intro s a s' hr hI hstep
  obtain ⟨-, ⟨-, rfl⟩ | ⟨-, rfl⟩ | ⟨t, ch, i, rest, nx, -, hx⟩⟩ := step_cases hstep
  · have htr : s.accept.trace = s.trace ++ [.accepted s.nconns] := rfl
    obtain ⟨hreq, hsub, -⟩ := State.since_append (c := c) htr rfl
    rw [hreq]
    exact State.accept_outline (hI.mono hsub) fun _ => due_of_quiet rfl rfl
  · exact hI
  · by_cases hi : i = .inboundLoop c
    · subst hi
      exact hx.next_request hr
    · obtain ⟨hreq, hsub⟩ := hx.since hi
      rw [hreq]
      refine hx.outline hI (Set.subset_union_left.trans hsub) ?_
      rintro rfl
      have hshape := Reachable.shaped hr (.inbound c)
      rw [hx.code] at hI hshape
      have hin := hshape.inbound.resolve_left hi
      refine ⟨Outline.ok_of_pre fun j hj => ?_, hsub.trans (Outline.le_after _)⟩
      have hdue := Outline.pre_mono _ (Set.subset_union_left.trans hsub) hI.1
      exact ReplyDue.follows hr hx hin hdue hj

/-- A reply is queued by the handler of the last request, when it is due. -/
theorem Executes.reply_due {jb : Job} (hr : Reachable env s) (hx : Executes env s t ch i rest nx s')
    (hi : i = .send c jb ∨ i = .trySend c jb) (hm : jb.m.isReply = true) :
    t = .inbound c ∧ ∃ p, s.request c = some p ∧ Fulfilled c (s.since c) p jb.m := by
  have howes : i.owes = some jb.m := by
    obtain rfl | rfl := hi <;> simp [Instr.owes, hm]
  have ht : t = .inbound c := by
    by_contra ht
    have hmem : .send c jb ∈ s.code t ∨ .trySend c jb ∈ s.code t := by
      have := hx.mem_self
      obtain rfl | rfl := hi
      · exact .inl this
      · exact .inr this
    obtain hdis | hpub := hr.queues hmem ht
    · rw [hdis] at hm
      cases hm
    · rw [Message.isReply_of_isPublish hpub] at hm
      cases hm
  subst ht
  have hok := replyOutline_of_reachable hr c
  rw [hx.code] at hok
  exact ⟨rfl, hok.1.reply _ howes⟩

/-! ## What the index holds -/

/-- The handler of a SUBSCRIBE adds to the index, that of an UNSUBSCRIBE removes. -/
def Instr.MadeFor (o : Option Packet) : Instr → Prop
  | .subsAdd .. => ∃ m, o = some (.subscribe m)
  | .unsub .. => ∃ m, o = some (.unsubscribe m)
  | _ => True

theorem madeFor_handle {p : Packet} (hj : j ∈ handle c p) : j.MadeFor (some p) := by
  cases handles_of_mem hj with
  | subsAdd | unsub => exact ⟨_, rfl⟩
  | _ => trivial

/-- The handler that is at work belongs to the last request. -/
theorem Reachable.madeFor (hr : Reachable env s) (hi : i ∈ s.code (.inbound c)) :
    i.MadeFor (s.request c) := by
  refine hr.forall_handler (Q := fun o i => i.MadeFor o) (fun o j hj => ?_) madeFor_handle ?_ i hi
  · simp only [List.mem_cons, List.not_mem_nil, or_false] at hj
    obtain rfl | rfl | rfl := hj <;> trivial
  · intro s ch i rest nx s' j hr hx hloop _ hj
    cases Instr.brings_cases (hx.follows.brings hj) with
    | subsAdd | unsub =>
      cases hx.home hr rfl
      exact absurd rfl hloop
    | _ => trivial

/-- A call for `c` is made by the handler of a SUBSCRIBE or an UNSUBSCRIBE. -/
def Call.MadeFor (c : ConnId) (o : Option Packet) : Call → Prop
  | .add _ d => d = c → ∃ m, o = some (.subscribe m)
  | .unsub _ d => d = c → ∃ m, o = some (.unsubscribe m)
  | .unsubAll _ => True

/-- The calls that were made since a request were made for it. -/
theorem Reachable.call_madeFor {k : Call} {p : Packet} {pre since : List Event}
    (hr : Reachable env s) (htr : s.trace = pre ++ .received c p :: since)
    (hnone : ∀ q, .received c q ∉ since) (hk : .index k ∈ since) : k.MadeFor c (some p) := by
  obtain ⟨l₁, l₂, rfl⟩ := List.append_of_mem hk
  have hmade : k.MadeFor c (sinceLast (·.request c) (pre ++ .received c p :: l₁)).1 := by
    refine hr.justified (P := fun pre e => ∀ k, e = .index k →
      k.MadeFor c (sinceLast (·.request c) pre).1) (by simp) ?_ (pre ++ .received c p :: l₁) _ l₂
      (by simp [htr]) k rfl
    rintro s t ch i rest nx s' - hr - hx hlog - k rfl
    cases k with
    | add f d =>
      rintro rfl
      obtain rfl : i = .subsAdd d f := hlog
      obtain rfl := hx.home hr rfl
      exact hr.madeFor hx.mem_self
    | unsub f d =>
      rintro rfl
      obtain rfl : i = .unsub d f := hlog
      obtain rfl := hx.home hr rfl
      exact hr.madeFor hx.mem_self
    | unsubAll d => trivial
  have hl₁ : l₁.filterMap (·.request c) = [] := by
    refine List.filterMap_eq_nil_iff.2 fun e he => ?_
    cases e with
    | received d q =>
      have hne : d ≠ c := by
        rintro rfl
        exact hnone q (List.mem_append_left _ he)
      simp [Event.request, hne]
    | _ => rfl
  have hreq : (Event.received c p).request c = some p := by simp [Event.request]
  rw [sinceLast_fst, List.filterMap_append, List.filterMap_cons_some hreq, hl₁] at hmade
  simpa using hmade

/-- What the index holds of the topics of a request: those of a SUBSCRIBE that `add`
accepts, and of an UNSUBSCRIBE none that is without wildcards. `unsub` does not reach
the list of wildcards. -/
def Indexed (c : ConnId) (calls : List Call) : Packet → Prop
  | .subscribe m => ∀ tq ∈ m.topics, Accepts tq.1 → (tq.1, c) ∈ liveAdds calls
  | .unsubscribe m => ∀ f ∈ m.topics, isWildcard f = false → (f, c) ∉ liveAdds calls
  | _ => True

theorem Reachable.indexed {m : Message} {p : Packet} {pre since : List Event}
    (hr : Reachable env s) (htr : s.trace = pre ++ .received c p :: since)
    (hnone : ∀ q, .received c q ∉ since) (hf : Fulfilled c {e | e ∈ since} p m)
    (hall : .index (.unsubAll c) ∉ since) : Indexed c s.calls p := by
  have hcalls : s.calls = pre.filterMap Event.call ++ since.filterMap Event.call := by
    rw [State.calls, htr, List.filterMap_append, List.filterMap_cons_none rfl]
  rw [hcalls]
  cases p with
  | subscribe sub =>
    cases m with
    | subAck id topicsQos =>
      intro tq htq hacc
      refine mem_liveAdds_of_add hacc (mem_calls.2 (hf.2.2 tq htq)) (fun hunsub => ?_)
        (mt mem_calls.1 hall)
      obtain ⟨u, hu⟩ := hr.call_madeFor htr hnone (mem_calls.1 hunsub) rfl
      cases hu
    | _ => exact hf.elim
  | unsubscribe u =>
    cases m with
    | unsubAck id =>
      intro f hmem hwild
      refine not_mem_liveAdds_of_unsub hwild (mem_calls.2 (hf.2 f hmem)) fun hadd => ?_
      obtain ⟨sub, hsub⟩ := hr.call_madeFor htr hnone (mem_calls.1 hadd) rfl
      cases hsub
    | _ => exact hf.elim
  | _ => trivial

/-! ## Replies -/

/-- A reply that was queued for a client is the reply to the last message that was
received from it, and the handler has done its work in between. A PUBLISH was posted and
replicated. The index was called with every topic of a SUBSCRIBE or an UNSUBSCRIBE, and
unless the connection was removed from it meanwhile, the topics of the SUBSCRIBE that it
accepts are live, and those of the UNSUBSCRIBE without wildcards are not. -/
theorem reply_fulfilled {m : Message} {pre post : List Event} (hr : Reachable env s)
    (h : s.trace = pre ++ .queued t c m :: post) (hm : m.isReply = true) :
    ∃ pre' p since, pre = pre' ++ .received c p :: since ∧ (∀ q, .received c q ∉ since) ∧
      Fulfilled c {e | e ∈ since} p m ∧
      (.index (.unsubAll c) ∉ since → Indexed c (pre.filterMap Event.call) p) := by
  refine hr.justified (P := fun pre e => ∀ t c m, e = .queued t c m → m.isReply = true →
    ∃ pre' p since, pre = pre' ++ .received c p :: since ∧ (∀ q, .received c q ∉ since) ∧
      Fulfilled c {e | e ∈ since} p m ∧
      (.index (.unsubAll c) ∉ since → Indexed c (pre.filterMap Event.call) p)) (by simp) ?_
    pre _ post h t c m rfl hm
  rintro s t ch i rest nx s' - hr - hx hlog - t' c m rfl hm
  obtain ⟨rfl, j, hi, rfl⟩ := hlog
  obtain ⟨-, p, hp, hf⟩ := hx.reply_due hr hi hm
  obtain ⟨pre', htr, hnone⟩ := State.eq_append_of_request hp
  exact ⟨pre', p, _, htr, hnone, hf, hr.indexed htr hnone hf⟩

/-- A client connects and subscribes to two topics. -/
def acksRun : List BrokerAction :=
  .accept :: sends 0 (.connect (.named (str "a"))) 9 ++
    sends 0 (.subscribe ⟨7, [(str "t", .atMostOnce), (str "u/+", .atLeastOnce)]⟩) 7

theorem reply_fulfilled_acksRun :
    ∃ s pre post, Transition.run (step openEnv) (init openEnv) acksRun = some s ∧
      s.trace = pre ++ .queued (.inbound 0) 0 (.subAck 7 [.atMostOnce, .atMostOnce]) :: post ∧
      ∃ pre' p since, pre = pre' ++ .received 0 p :: since ∧ (∀ q, .received 0 q ∉ since) ∧
        Fulfilled 0 {e | e ∈ since} p (.subAck 7 [.atMostOnce, .atMostOnce]) ∧
        (.index (.unsubAll 0) ∉ since → Indexed 0 (pre.filterMap Event.call) p) := by
  have heval : (Transition.run (step openEnv) (init openEnv) acksRun).map (fun s =>
      decide (.queued (.inbound 0) 0 (.subAck 7 [.atMostOnce, .atMostOnce]) ∈ s.trace)) =
      some true := by decide +kernel
  obtain ⟨s, hrun, hs⟩ := Option.map_eq_some_iff.1 heval
  obtain ⟨pre, post, htr⟩ := List.append_of_mem (of_decide_eq_true hs)
  exact ⟨s, pre, post, hrun, htr, reply_fulfilled ⟨_, hrun⟩ htr rfl⟩

-- A SUBACK for a filter that `add` does not accept, and an UNSUBACK for one that `unsub`
-- does not find.
example : (Transition.run (step openEnv) (init openEnv) (.accept ::
      sends 0 (.connect (.named (str "a"))) 9 ++
      sends 0 (.subscribe ⟨7, [(str "a/#/b", .atMostOnce), (str "a/+", .atMostOnce)]⟩) 11 ++
      sends 0 (.unsubscribe ⟨8, [str "a/+"]⟩) 4)).map (fun s =>
      decide (.queued (.inbound 0) 0 (.subAck 7 [.atMostOnce, .atMostOnce]) ∈ s.trace ∧
        .queued (.inbound 0) 0 (.unsubAck 8) ∈ s.trace ∧
        liveAdds s.calls = [(str "a/+", 0)])) = some true := by decide +kernel
