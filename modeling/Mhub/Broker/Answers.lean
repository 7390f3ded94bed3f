-- SUMMARY: Requests and replies of a connection: what is queued for it in reply is the image of what it sent, in order.
import Mhub.Broker.Receiver
import Mhub.Broker.Stores

/-!
# Answers

A connection is sent replies by its own handlers only: what others queue for it are
PUBLISH and DISCONNECT messages, and the stores, from which `doConnect` queues again,
hold PUBLISH messages. So the replies that were queued and those that the code of the
handler still owes are together the answers to the requests so far. Only between the
receipt of a CONNECT and the last of its checks the return code, and so the answer, is
not known yet (`Checking`).
-/

variable {env : Env} {s s' : State} {t : Tid} {ch : Choice} {i j : Instr} {rest : List Instr}
  {nx : Next} {c : ConnId}

/-! ## Requests and replies -/

def Message.isReply : Message → Bool
  | .connAck _ | .pubAck _ | .subAck .. | .unsubAck _ | .pingResp => true
  | _ => false

@[simp] theorem Message.isReply_subAck {id : UInt16} {qos : List QosLevel} :
    (Message.subAck id qos).isReply = true := rfl

@[simp] theorem Message.isReply_unsubAck {id : UInt16} : (Message.unsubAck id).isReply = true := rfl

theorem Message.isReply_of_isPublish {m : Message} (h : m.isPublish = true) :
    m.isReply = false := by
  cases m with
  | publish m => rfl
  | _ => cases h

def Packet.isConnect : Packet → Bool
  | .connect _ => true
  | _ => false

/-- The reply to a message other than CONNECT. -/
def answer : Packet → List Message
  | .publish _ m =>
    if m.qosLevel = .atLeastOnce then [.pubAck ⟨.atMostOnce, m.messageId⟩] else []
  | .subscribe m => [.subAck m.messageId (m.topics.map fun _ => .atMostOnce)]
  | .unsubscribe m => [.unsubAck m.messageId]
  | .pingReq => [.pingResp]
  | _ => []

/-- The replies to a list of messages. The CONNECT messages among them are answered with
the return codes, one after the other. -/
def answers : List Packet → List ReturnCode → List Message
  | [], _ => []
  | p :: ps, rcs =>
    match p, rcs with
    | .connect _, rc :: rcs => .connAck rc :: answers ps rcs
    | p, rcs => answer p ++ answers ps rcs

/-- What was put into the jobs queue of `c` in reply, by whomever. -/
def State.replies (s : State) (c : ConnId) : List Message :=
  s.trace.filterMap fun
    | .queued _ c' m => if c' = c ∧ m.isReply = true then some m else none
    | _ => none

/-- What the client of `c` has sent. -/
def State.requests (s : State) (c : ConnId) : List Packet :=
  s.trace.filterMap fun
    | .received c' p => if c' = c then some p else none
    | _ => none

/-- What `doConnect` has returned on `c`. -/
def State.returned (s : State) (c : ConnId) : List ReturnCode :=
  s.trace.filterMap fun
    | .connectReturned c' rc => if c' = c then some rc else none
    | _ => none

theorem answers_append {ps qs : List Packet} {rcs rcs' : List ReturnCode}
    (h : ps.countP (·.isConnect) = rcs.length) :
    answers (ps ++ qs) (rcs ++ rcs') = answers ps rcs ++ answers qs rcs' := by
  induction ps generalizing rcs with
  | nil =>
    obtain rfl : rcs = [] := by simpa using h.symm
    rfl
  | cons p ps ih =>
    cases p with
    | connect m =>
      cases rcs with
      | nil => simp [Packet.isConnect] at h
      | cons rc rcs =>
        have h : ps.countP (·.isConnect) = rcs.length := by simpa [Packet.isConnect] using h
        simp [answers, ih h]
    | _ =>
      have h : ps.countP (·.isConnect) = rcs.length := by simpa [Packet.isConnect] using h
      simp [answers, ih h]

/-! ## What the code still owes -/

def Instr.owes : Instr → Option Message
  | .submit _ m => if m.isReply then some m else none
  | .send _ j | .trySend _ j => if j.m.isReply then some j.m else none
  | _ => none

def Instr.returns : Instr → Option ReturnCode
  | .connectReturn _ rc => some rc
  | _ => none

/-- The checks of `doConnect` are not over. -/
def Instr.begins : Instr → Bool
  | .connectValidate .. | .connectLimit .. => true
  | _ => false

/-- With what the code `l` still owes, every request is answered. -/
structure Settled (s : State) (c : ConnId) (l : List Instr) : Prop where
  begins : ∀ i ∈ l, i.begins = false
  replies : s.replies c ++ l.filterMap Instr.owes =
    answers (s.requests c) (s.returned c ++ l.filterMap Instr.returns)
  connects : (s.requests c).countP (·.isConnect) =
    (s.returned c ++ l.filterMap Instr.returns).length

/-- A CONNECT is being checked, and every earlier request is answered. -/
structure Checking (s : State) (c : ConnId) (l : List Instr) (m : Connect) (ps : List Packet) :
    Prop where
  code : ∃ i, l = [i, .inboundLoop c] ∧ i.begins = true
  requests : s.requests c = ps ++ [.connect m]
  replies : s.replies c = answers ps (s.returned c)
  connects : ps.countP (·.isConnect) = (s.returned c).length

def Answering (s : State) (c : ConnId) : Prop :=
  Settled s c (s.code (.inbound c)) ∨ ∃ m ps, Checking s c (s.code (.inbound c)) m ps

/-! ## Steps -/

section

variable (hx : Executes env s t ch i rest nx s')

include hx

theorem Executes.requests (hi : i ≠ .inboundLoop c) : s'.requests c = s.requests c := by
  refine hx.filterMap_trace fun e hlog => ?_
  cases e with
  | received c' p =>
    have hne : c' ≠ c := fun h => hi (h ▸ hlog)
    simp [hne]
  | _ => rfl

theorem Executes.returned (hi : ∀ rc, i ≠ .connectReturn c rc) :
    s'.returned c = s.returned c := by
  refine hx.filterMap_trace fun e hlog => ?_
  cases e with
  | connectReturned c' rc =>
    have hne : c' ≠ c := fun h => hi rc (h ▸ hlog)
    simp [hne]
  | _ => rfl

theorem Executes.replies
    (hi : ∀ j : Job, i = .send c j ∨ i = .trySend c j → j.m.isReply = false) :
    s'.replies c = s.replies c := by
  refine hx.filterMap_trace fun e hlog => ?_
  cases e with
  | queued t' c' m =>
    obtain ⟨-, j, hij, rfl⟩ := hlog
    by_cases hc : c' = c
    · subst hc
      simp [hi j hij]
    · simp [hc]
  | _ => rfl

end

theorem Answering.congr (h : Answering s c) (hcode : s'.code (.inbound c) = s.code (.inbound c))
    (hreq : s'.requests c = s.requests c) (hrep : s'.replies c = s.replies c)
    (hret : s'.returned c = s.returned c) : Answering s' c := by
  rw [Answering, hcode]
  refine h.imp (fun h => ?_) fun ⟨m, ps, h⟩ => ⟨m, ps, ?_⟩
  · exact ⟨h.begins, by rw [hrep, hreq, hret, h.replies], by rw [hreq, hret, h.connects]⟩
  · exact ⟨h.code, hreq ▸ h.requests, by rw [hrep, hret, h.replies], hret ▸ h.connects⟩

/-- A step of somebody else. -/
theorem Answering.other (hr : Reachable env s) (h : Answering s c)
    (hx : Executes env s t ch i rest nx s') (ht : t ≠ .inbound c) : Answering s' c := by
  have hcode := hx.code_inbound (c := c) ht.symm
  have hreq : s'.requests c = s.requests c := hx.requests fun hi => by
    subst hi
    exact ht (hx.home hr rfl)
  have hret : s'.returned c = s.returned c := hx.returned fun rc hi => by
    subst hi
    exact ht (hx.home hr rfl)
  have hrep : s'.replies c = s.replies c := hx.replies fun j hi => by
    have hmem : .send c j ∈ s.code t ∨ .trySend c j ∈ s.code t := by
      rw [hx.code]
      obtain rfl | rfl := hi <;> simp
    obtain hm | hm := hr.queues hmem ht
    · rw [hm]
      rfl
    · exact Message.isReply_of_isPublish hm
  exact h.congr hcode hreq hrep hret

/-- What takes the place of an instruction owes what the instruction did. -/
theorem Settled.push {is : List Instr} (h : Settled s c (i :: rest))
    (hbegins : ∀ j ∈ is, j.begins = false) (hreq : s'.requests c = s.requests c)
    (hrep : s'.replies c ++ is.filterMap Instr.owes = s.replies c ++ [i].filterMap Instr.owes)
    (hret : s'.returned c ++ is.filterMap Instr.returns =
      s.returned c ++ [i].filterMap Instr.returns) : Settled s' c (is ++ rest) := by
  have hcons : i :: rest = [i] ++ rest := rfl
  refine ⟨?_, ?_, ?_⟩
  · intro j hj
    obtain hj | hj := List.mem_append.1 hj
    · exact hbegins j hj
    · exact h.begins j (List.mem_cons_of_mem _ hj)
  · have hold := h.replies
    rw [hcons, List.filterMap_append, List.filterMap_append, ← List.append_assoc, ← hrep,
      ← List.append_assoc (s.returned c), ← hret] at hold
    rw [hreq, List.filterMap_append, List.filterMap_append, ← List.append_assoc, hold,
      List.append_assoc]
  · have hold := h.connects
    rw [hcons, List.filterMap_append, ← List.append_assoc, ← hret] at hold
    rw [hreq, List.filterMap_append, ← List.append_assoc, hold]

/-- The instructions of a handler that neither owe a reply nor bring one about. -/
def Instr.silent : Instr → Bool
  | .submit .. | .send .. | .trySend .. | .redeliver .. | .connectReturn .. | .inboundReturn _
  | .connectValidate .. | .connectLimit .. | .inboundLoop _ => false
  | _ => true

theorem silent_follows (hi : i.inHandler c = true) (hs : i.silent = true) (hf : Follows env i nx) :
    ∃ is, nx = .push is ∧ is.filterMap Instr.owes = [] ∧ is.filterMap Instr.returns = [] ∧
      ∀ j ∈ is, j.begins = false := by
  cases hf with
  | falls _ => exact ⟨[], rfl, rfl, rfl, by simp⟩
  | takeOver e => exact ⟨_, rfl, rfl, rfl, by simp [Instr.begins]⟩
  | storeAll keys =>
    refine ⟨_, rfl, ?_, ?_, by simp [Instr.begins]⟩
    · simp [List.filterMap_map, Function.comp_def, Instr.owes]
    · simp [List.filterMap_map, Function.comp_def, Instr.returns]
  | submitSync r =>
    simp only [Instr.inHandler, decide_eq_true_eq] at hi
    subst hi
    exact ⟨_, rfl, rfl, rfl, by simp [Instr.begins]⟩
  | overRate | overSubs => exact ⟨_, rfl, rfl, rfl, by simp [stop, Instr.begins]⟩
  | noRetain => exact ⟨_, rfl, rfl, rfl, by simp [Instr.begins]⟩
  | sendRetain m => exact ⟨_, rfl, rfl, rfl, by simp [Instr.begins]⟩
  | _ => first | cases hs; done | cases hi

theorem owes_of_silent (h : i.silent = true) : i.owes = none := by
  cases i <;> first | rfl | cases h

theorem returns_of_silent (h : i.silent = true) : i.returns = none := by
  cases i <;> first | rfl | cases h

/-- Leaving the loop drops nothing that was owed. -/
theorem Settled.leave (h : Settled s c [i, .inboundLoop c]) (hi : i.owes = none)
    (hreq : s'.requests c = s.requests c) (hrep : s'.replies c = s.replies c)
    (hret : s'.returned c = s.returned c ++ [i].filterMap Instr.returns) :
    Settled s' c (inboundDefer c) := by
  have howes : [i, Instr.inboundLoop c].filterMap Instr.owes = [] := by
    rw [List.filterMap_cons_none hi]
    rfl
  have hreturns : [i, Instr.inboundLoop c].filterMap Instr.returns = [i].filterMap Instr.returns :=
    (List.filterMap_append (l := [i])).trans (List.append_nil _)
  have hdefer : (inboundDefer c).filterMap Instr.owes = [] ∧
      (inboundDefer c).filterMap Instr.returns = [] := ⟨rfl, rfl⟩
  refine ⟨by simp [inboundDefer, Instr.begins], ?_, ?_⟩
  · have hold := h.replies
    rw [howes, hreturns] at hold
    rw [hdefer.1, hdefer.2, hrep, hreq, hret, List.append_nil (_ ++ _), hold]
  · have hold := h.connects
    rw [hreturns] at hold
    rw [hdefer.2, hreq, hret, List.append_nil, hold]

theorem owes_handle {p : Packet} (hp : p.isConnect = false) :
    (handle c p).filterMap Instr.owes = answer p ∧ (handle c p).filterMap Instr.returns = [] ∧
      ∀ j ∈ handle c p, j.begins = false := by
  cases p with
  | connect m => cases hp
  | publish retain m =>
    simp only [handle, doPublish, answer]
    split
    · exact ⟨rfl, rfl, by simp [Instr.begins]⟩
    · exact ⟨rfl, rfl, by simp [Instr.begins]⟩
  | subscribe m =>
    refine ⟨?_, ?_, fun j hj => by cases handles_of_mem hj <;> rfl⟩
    · simp [handle, doSubscribe, answer, List.filterMap_flatMap, List.filterMap_map,
        List.filterMap_cons, Function.comp_def, Instr.owes]
    · simp [handle, doSubscribe, List.filterMap_flatMap, List.filterMap_map,
        List.filterMap_cons, Function.comp_def, Instr.returns]
  | unsubscribe m =>
    refine ⟨?_, ?_, fun j hj => by cases handles_of_mem hj <;> rfl⟩
    · simp [handle, doUnsubscribe, answer, List.filterMap_flatMap, List.filterMap_cons, Instr.owes]
    · simp [handle, doUnsubscribe, List.filterMap_flatMap, List.filterMap_cons, Instr.returns]
  | pubAck m => exact ⟨rfl, rfl, by simp [handle, doPublishAck]⟩
  | pingReq => exact ⟨rfl, rfl, by simp [handle, Instr.begins]⟩
  | disconnect | other => exact ⟨rfl, rfl, by simp [handle, Instr.begins]⟩

theorem owes_connectBody (cf : BrokerConfig) (c : ConnId) (m : Connect) (rc : ReturnCode) :
    (connectBody cf c m rc).filterMap Instr.owes = [.connAck rc] ∧
      (connectBody cf c m rc).filterMap Instr.returns = [rc] ∧
      ∀ j ∈ connectBody cf c m rc, j.begins = false := by
  simp only [connectBody]
  split <;> split <;> split <;> exact ⟨rfl, rfl, by simp [Instr.begins]⟩

/-- The loop behind a handler owes nothing. -/
theorem Settled.of_body {is : List Instr} (hbegins : ∀ j ∈ is, j.begins = false)
    (hrep : s.replies c ++ is.filterMap Instr.owes =
      answers (s.requests c) (s.returned c ++ is.filterMap Instr.returns))
    (hcon : (s.requests c).countP (·.isConnect) =
      (s.returned c ++ is.filterMap Instr.returns).length) :
    Settled s c (is ++ [Instr.inboundLoop c]) := by
  have howes : (is ++ [Instr.inboundLoop c]).filterMap Instr.owes = is.filterMap Instr.owes :=
    List.filterMap_append.trans (List.append_nil _)
  have hreturns : (is ++ [Instr.inboundLoop c]).filterMap Instr.returns =
      is.filterMap Instr.returns :=
    List.filterMap_append.trans (List.append_nil _)
  refine ⟨?_, by rw [howes, hreturns, hrep], by rw [hreturns, hcon]⟩
  intro j hj
  obtain hj | hj := List.mem_append.1 hj
  · exact hbegins j hj
  · rw [List.mem_singleton.1 hj]
    rfl

/-- `inboundLoop` reads the next request. -/
theorem Settled.receive (h : Settled s c [Instr.inboundLoop c])
    (hx : Executes env s (.inbound c) ch (.inboundLoop c) [] nx s') : Answering s' c := by
  have hret : s'.returned c = s.returned c := hx.returned nofun
  have hrep : s'.replies c = s.replies c := hx.replies (by simp)
  have hold : s.replies c = answers (s.requests c) (s.returned c) ∧
      (s.requests c).countP (·.isConnect) = (s.returned c).length := by
    simpa [List.filterMap_cons, Instr.owes, Instr.returns] using And.intro h.replies h.connects
  obtain ⟨p, -, rfl, htr⟩ | ⟨rfl, rfl⟩ := hx.inboundLoop
  · have hreq : s'.requests c = s.requests c ++ [p.at s.nextObj] := by
      simp [State.requests, htr]
    have hcode : s'.code (.inbound c) = handle c (p.at s.nextObj) ++ [Instr.inboundLoop c] := by
      simpa [Next.apply] using hx.code_self
    rw [Answering, hcode]
    generalize p.at s.nextObj = p at hreq
    by_cases hp : p.isConnect = true
    · -- the answer depends on the checks to come
      cases p with
      | connect m =>
        exact .inr ⟨m, s.requests c, ⟨_, rfl, rfl⟩, hreq, by rw [hrep, hret, hold.1],
          by rw [hret, hold.2]⟩
      | _ => cases hp
    · have hp : p.isConnect = false := by simpa using hp
      obtain ⟨howes, hreturns, hbegins⟩ := owes_handle (c := c) hp
      refine .inl (.of_body hbegins ?_ ?_)
      · have hone : answers [p] [] = answer p := by cases p <;> simp_all [answers, Packet.isConnect]
        rw [howes, hreturns, hrep, hreq, hret, hold.1, answers_append hold.2, hone]
      · rw [hreturns, hreq, hret, List.countP_append, hold.2]
        simp [hp]
  · have hreq : s'.requests c = s.requests c := by
      obtain ⟨-, s₁, hexec, rfl⟩ := hx
      cases hexec
      rfl
    refine .inl ?_
    rw [hx.code_self]
    exact h.push (by simp [Instr.begins]) hreq (by rw [hrep]; rfl) (by rw [hret]; rfl)

/-- The checks of `doConnect` go on. -/
theorem Checking.step {m : Connect} {ps : List Packet}
    (h : Checking s c (i :: rest) m ps) (hx : Executes env s (.inbound c) ch i rest nx s') :
    Answering s' c := by
  obtain ⟨⟨i', hl, hi⟩, hreq, hrep, hcon⟩ := h
  obtain ⟨rfl, rfl⟩ := List.cons.inj hl
  have hreq' : s'.requests c = s.requests c := hx.requests (by rintro rfl; cases hi)
  have hret' : s'.returned c = s.returned c := hx.returned (by rintro rc rfl; cases hi)
  have hrep' : s'.replies c = s.replies c := hx.replies (by rintro j (rfl | rfl) <;> cases hi)
  have hf := hx.follows
  rw [Answering, hx.code_self]
  cases hf with
  | falls hfalls => cases i <;> first | cases hi; done | cases hfalls
  | validated =>
    exact .inr ⟨m, ps, ⟨_, rfl, rfl⟩, hreq'.trans hreq, by rw [hrep', hrep, hret'],
      by rw [hcon, hret']⟩
  | @limited c' m' rc n =>
    obtain ⟨howes, hreturns, hbegins⟩ := owes_connectBody env.cf c' m' (checkLimit env.cf n rc)
    refine .inl (.of_body hbegins ?_ ?_)
    · rw [howes, hreturns, hrep', hrep, hreq', hreq, hret', answers_append hcon]
      rfl
    · rw [hreturns, hreq', hreq, hret', List.countP_append, List.length_append, hcon]
      rfl
  | _ => cases hi

/-- What `doConnect` queues again is never a reply. -/
theorem Executes.redeliver_owes {key : GoString} (hr : Reachable env s)
    (hx : Executes env s t ch (.redeliver c key) rest nx s') (hp : s'.panicked = none) :
    ∃ is, nx = .push is ∧ is.filterMap Instr.owes = [] ∧ is.filterMap Instr.returns = [] ∧
      ∀ j ∈ is, j.begins = false := by
  obtain ⟨id, -, rfl⟩ := hx.redeliver (.inr hp)
  refine ⟨_, rfl, ?_⟩
  rw [hr.redelivery_eq]
  cases hget : s.contents id key with
  | none => exact ⟨rfl, rfl, by simp⟩
  | some m =>
    obtain ⟨store, hstore, hm⟩ := Option.bind_eq_some_iff.1 hget
    obtain ⟨p, rfl, -, -⟩ := hr.kept hstore key m hm
    exact ⟨rfl, rfl, by simp [Instr.begins]⟩

/-- A step of a handler, or of the deferred function. -/
theorem Settled.step (hblock : env.cf.buffOverflowStrategy = bufferOverflowBlock)
    (hr : Reachable env s) (hp : s'.panicked = none) (h : Settled s c (i :: rest))
    (hx : Executes env s (.inbound c) ch i rest nx s')
    (hi : i.inHandler c = true ∨ i ∈ inboundDefer c) : Settled s' c (s'.code (.inbound c)) := by
  have hreq : s'.requests c = s.requests c := by
    refine hx.requests ?_
    rintro rfl
    simp [Instr.inHandler, inboundDefer] at hi
  rw [hx.code_self]
  by_cases hs : i.silent = true
  · have hret : s'.returned c = s.returned c := hx.returned (by rintro rc rfl; cases hs)
    have hrep : s'.replies c = s.replies c := hx.replies (by rintro j (rfl | rfl) <;> cases hs)
    have howes : [i].filterMap Instr.owes = [] := List.filterMap_cons_none (owes_of_silent hs)
    have hreturns : [i].filterMap Instr.returns = [] :=
      List.filterMap_cons_none (returns_of_silent hs)
    obtain ⟨is, rfl, hio, hir, hbegins⟩ : ∃ is, nx = .push is ∧ is.filterMap Instr.owes = [] ∧
        is.filterMap Instr.returns = [] ∧ ∀ j ∈ is, j.begins = false := by
      obtain hi | hi := hi
      · exact silent_follows hi hs hx.follows
      · exact ⟨[], follows_of_mem_inboundDefer hi hx.follows, rfl, rfl, by simp⟩
    exact h.push hbegins hreq (by rw [hrep, hio, howes]) (by rw [hret, hir, hreturns])
  · have hi : i.inHandler c = true := by
      refine hi.resolve_right fun hmem => hs ?_
      simp only [inboundDefer, List.mem_cons, List.not_mem_nil, or_false] at hmem
      obtain rfl | rfl | rfl | rfl | rfl := hmem <;> rfl
    cases i with
    | submit c' m =>
      obtain rfl : c' = c := by simpa [Instr.inHandler] using hi
      obtain rfl := hx.submit_block hblock (hx.alive hr hi)
      exact h.push (by simp [Instr.begins]) hreq (by rw [hx.replies (by simp)]; rfl)
        (by rw [hx.returned (by simp)]; rfl)
    | send c' j =>
      obtain ⟨rfl, htr⟩ := hx.send_queued (.inr hp)
      refine h.push (by simp) hreq ?_ (by rw [hx.returned (by simp)]; rfl)
      simp only [Instr.inHandler, Bool.decide_or, Bool.or_eq_true, decide_eq_true_eq] at hi
      obtain rfl | hdis := hi
      · simp [State.replies, htr, Instr.owes, List.filterMap_cons]
      · have hreply : j.m.isReply = false := by rw [hdis]; rfl
        simp [State.replies, htr, Instr.owes, hreply]
    | trySend c' j =>
      exact absurd (hx.code ▸ List.mem_cons_self ..) (hr.no_trySend hblock)
    | redeliver c' key =>
      obtain ⟨is, rfl, hio, hir, hbegins⟩ := hx.redeliver_owes hr hp
      exact h.push hbegins hreq (by rw [hx.replies (by simp), hio]; rfl)
        (by rw [hx.returned (by simp), hir]; rfl)
    | connectReturn c' rc =>
      obtain rfl : c' = c := by simpa [Instr.inHandler] using hi
      obtain rfl := hx.behind hr rfl
      have hrep : s'.replies c' = s.replies c' := hx.replies (by simp)
      obtain ⟨hnx, htr⟩ := hx.connectReturn
      have hret : s'.returned c' = s.returned c' ++ [rc] := by simp [State.returned, htr]
      obtain ⟨-, rfl⟩ | ⟨-, rfl⟩ := hnx
      · exact h.push (by simp) hreq (by rw [hrep]; rfl) (by rw [hret]; exact List.append_nil _)
      · exact h.leave rfl hreq hrep hret
    | inboundReturn c' =>
      obtain rfl : c' = c := by simpa [Instr.inHandler] using hi
      obtain rfl := hx.behind hr rfl
      have hrep : s'.replies c' = s.replies c' := hx.replies (by simp)
      have hret : s'.returned c' = s.returned c' := hx.returned (by simp)
      obtain rfl : nx = .jump (inboundDefer c') := by
        have hf := hx.follows
        cases hf with
        | falls h => cases h
        | inboundReturn => rfl
      exact h.leave rfl hreq hrep (by rw [hret]; exact (List.append_nil _).symm)
    | connectValidate c' m | connectLimit c' m rc => simpa [Instr.begins] using h.begins
    | inboundLoop c' => cases hi
    | _ => exact absurd rfl hs

theorem Answering.step (hblock : env.cf.buffOverflowStrategy = bufferOverflowBlock)
    (hr : Reachable env s) (hp : s'.panicked = none) (h : Answering s c)
    (hx : Executes env s (.inbound c) ch i rest nx s') : Answering s' c := by
  rw [Answering, hx.code] at h
  obtain h | ⟨m, ps, h⟩ := h
  · have hshape := hr.shaped (.inbound c)
    rw [hx.code] at hshape
    obtain rfl | hi := hshape.inbound
    · obtain rfl := Tid.Shaped.rest_of_loop (t := .inbound c) hshape
      exact h.receive hx
    · exact .inl (h.step hblock hr hp hx hi)
  · exact h.step hx

theorem Answering.accept (hr : Reachable env s) (h : Answering s c) : Answering s.accept c := by
  have hreq : s.accept.requests c = s.requests c := by
    simp [State.requests, State.accept, State.log, State.setCode]
  have hrep : s.accept.replies c = s.replies c := by
    simp [State.replies, State.accept, State.log, State.setCode]
  have hret : s.accept.returned c = s.returned c := by
    simp [State.returned, State.accept, State.log, State.setCode]
  by_cases hc : c = s.nconns
  · -- the loop is started, and nothing was sent yet
    have hnew : s.accept.code (.inbound c) = [] ++ [Instr.inboundLoop c] := by
      simp [State.accept, State.log, State.setCode, hc]
    have hold : s.code (.inbound c) = [] := (hr.lifecycle c).fresh (Nat.le_of_eq hc.symm)
    rw [Answering, hold] at h
    rw [Answering, hnew]
    obtain h | ⟨m, ps, ⟨i, hl, -⟩, -⟩ := h
    · exact .inl (.of_body (by simp) (by rw [hrep, hreq, hret, h.replies])
        (by rw [hreq, hret, h.connects]))
    · cases hl
  · refine h.congr ?_ hreq hrep hret
    simp [State.accept, State.log, State.setCode, hc]

theorem Reachable.answering (hblock : env.cf.buffOverflowStrategy = bufferOverflowBlock)
    (hr : Reachable env s) (hp : s.panicked = none) (c : ConnId) : Answering s c := by
  refine hr.invariant (I := fun s => s.panicked = none → Answering s c) ?_ ?_ hp
  · intro s a s' hr hI hstep hp'
    obtain ⟨hp, ⟨-, rfl⟩ | ⟨-, rfl⟩ | ⟨t, ch, i, rest, nx, -, hx⟩⟩ := step_cases hstep
    · exact (hI hp).accept hr
    · exact (hI hp).congr (by simp [State.acceptPeer, State.setCode]) rfl rfl rfl
    · by_cases ht : t = .inbound c
      · subst ht
        exact (hI hp).step hblock hr hp' hx
      · exact (hI hp).other hr hx ht
  · intro _
    exact .inl ⟨by simp [init], rfl, rfl⟩

/-! ## Every request is answered -/

/-- `inboundLoop` waits for a message, or has left its loop: no handler is under way. -/
def State.between (s : State) (c : ConnId) : Prop :=
  s.code (.inbound c) = [.inboundLoop c] ∨ s.code (.inbound c) <:+ inboundDefer c

instance (s : State) (c : ConnId) : Decidable (s.between c) :=
  inferInstanceAs (Decidable (_ ∨ _))

/-- The replies that were queued for a connection, by whomever, are the answers to its
requests, in order. -/
theorem requests_answered (hblock : env.cf.buffOverflowStrategy = bufferOverflowBlock)
    (hr : Reachable env s) (hp : s.panicked = none) (hdone : s.between c) :
    s.replies c = answers (s.requests c) (s.returned c) ∧
      (s.requests c).countP (·.isConnect) = (s.returned c).length := by
  have hnone : (s.code (.inbound c)).filterMap Instr.owes = [] ∧
      (s.code (.inbound c)).filterMap Instr.returns = [] ∧
      ∀ i ∈ s.code (.inbound c), i.begins = false := by
    obtain hcode | hsuf := hdone
    · rw [hcode]
      exact ⟨rfl, rfl, by simp [Instr.begins]⟩
    · have hdefer : ∀ i ∈ inboundDefer c, i.owes = none ∧ i.returns = none ∧ i.begins = false := by
        simp [inboundDefer, Instr.owes, Instr.returns, Instr.begins]
      refine ⟨?_, ?_, fun i hi => (hdefer i (hsuf.subset hi)).2.2⟩
      · exact List.filterMap_eq_nil_iff.2 fun i hi => (hdefer i (hsuf.subset hi)).1
      · exact List.filterMap_eq_nil_iff.2 fun i hi => (hdefer i (hsuf.subset hi)).2.1
  obtain h | ⟨m, ps, ⟨i, hl, hi⟩, -⟩ := hr.answering hblock hp c
  · have hrep := h.replies
    have hcon := h.connects
    rw [hnone.1, hnone.2.1, List.append_nil, List.append_nil] at hrep
    rw [hnone.2.1, List.append_nil] at hcon
    exact ⟨hrep, hcon⟩
  · simp [hnone.2.2 i (by simp [hl])] at hi

/-- Client `0` sends a message, and its handler makes `n` steps. -/
def request (p : Packet) (n : Nat) : List BrokerAction :=
  .run (.inbound 0) (.recv p) :: List.replicate n (.run (.inbound 0) (.pour true))

/-- A client connects, subscribes, publishes, pings and unsubscribes. Nothing is sent
out in the meantime. -/
def requestsRun : List BrokerAction :=
  .accept :: request (.connect (.named (str "a"))) 9 ++
  request (.subscribe ⟨1, [(str "t", .atMostOnce), (str "u", .atMostOnce)]⟩) 11 ++
  request (.publish false ⟨0, .atLeastOnce, str "t", 7, [1]⟩) 7 ++ request .pingReq 2 ++
  request (.unsubscribe ⟨2, [str "u"]⟩) 4

theorem requests_answered_requestsRun :
    ∃ s, Transition.run (step doublesEnv) (init doublesEnv) requestsRun = some s ∧
      s.replies 0 = [.connAck .accepted, .subAck 1 [.atMostOnce, .atMostOnce],
        .pubAck ⟨.atMostOnce, 7⟩, .pingResp, .unsubAck 2] ∧
      s.replies 0 = answers (s.requests 0) (s.returned 0) := by
  have hrun : (Transition.run (step doublesEnv) (init doublesEnv) requestsRun).map (fun s =>
      decide (s.panicked = none ∧ s.between 0 ∧ s.replies 0 =
        [.connAck .accepted, .subAck 1 [.atMostOnce, .atMostOnce], .pubAck ⟨.atMostOnce, 7⟩,
          .pingResp, .unsubAck 2])) = some true := by decide +kernel
  obtain ⟨s, hs, hdec⟩ := Option.map_eq_some_iff.1 hrun
  obtain ⟨hp, hbetween, hreplies⟩ := of_decide_eq_true hdec
  have hr : Reachable doublesEnv s := ⟨requestsRun, hs⟩
  have hblock : doublesEnv.cf.buffOverflowStrategy = bufferOverflowBlock := by simp [doublesEnv]
  exact ⟨s, hs, hreplies, (requests_answered hblock hr hp hbetween).1⟩
