-- SUMMARY: A broker together with the endpoints of its peers: what `replicate` hands to them, and the `Retain` bit of what they encode.
import Mhub.Broker.Objects
import Mhub.Cluster
import Mhub.Endpoint

/-!
# Replication

`doPublish` posts the message to the workers and then submits it to the endpoint of
every peer. All of them get the same object. A worker clears its `Retain` bit as soon as
it begins to handle the post. An endpoint encodes the message some time later, with the
bit the object has then.

Nothing else of the message changes after it was decoded. So an endpoint sends what the
client has sent, except that a retained message is sent with the bit cleared once a
worker has begun to handle it.
-/

variable {env : Env} {s s' : State} {m : Publish} {c : ConnId} {retain : Bool}

/-! ## The object of a PUBLISH -/

/-- What is known of the object that was decoded for a PUBLISH of a client: nothing else
is posted under its number, and until a worker handles it the bit is as it was decoded. -/
structure State.Decoded (s : State) (retain : Bool) (m : Publish) : Prop where
  lt : m.obj < s.nextObj
  only : ∀ m', (∃ t, .post m' ∈ s.code t) ∨ .posted m' ∈ s.trace → m'.obj = m.obj → m' = m
  bit : (∀ t isRetain, .taken t m isRetain ∉ s.trace) → s.retainBit m.obj = retain

theorem Executes.decoded {t : Tid} {ch : Choice} {i : Instr} {rest : List Instr} {nx : Next}
    (hr : Reachable env s) (hx : Executes env s t ch i rest nx s')
    (hlog : (Event.received c (.publish retain m)).LoggedBy s t i)
    (htr : s'.trace = s.trace ++ [Event.received c (.publish retain m)]) : s'.Decoded retain m := by
  obtain rfl : i = .inboundLoop c := hlog
  have hnew : m.obj = s.nextObj ∧ s'.nextObj = s.nextObj + 1 ∧ s'.retainBit m.obj = retain ∧
      nx = .push (handle c (.publish retain m) ++ [Instr.inboundLoop c]) := by
    obtain ⟨-, s₁, hexec, rfl⟩ := hx
    simp only [exec] at hexec
    repeat' split at hexec
    all_goals cases hexec
    · rename_i p _
      obtain hp : p.at s.nextObj = .publish retain m := by
        simpa [State.log, State.setCode, State.alloc] using htr
      rw [hp]
      cases p <;> cases hp
      exact ⟨rfl, rfl, by simp [State.log, State.setCode, State.alloc, Packet.retain], rfl⟩
    · simp [State.setCode] at htr
  obtain ⟨hobj, hnext, hbit, rfl⟩ := hnew
  refine ⟨by omega, fun m' hm' ho => ?_, fun _ => hbit⟩
  -- what was posted before has a smaller number
  have hold : ¬ s.Addressed m'.obj := fun haddr => by
    have := hr.addressed_lt haddr
    omega
  obtain ⟨t', hpost⟩ | hposted := hm'
  · obtain hmem | ⟨-, hmem⟩ | hgets := hx.mem_code hpost
    · exact (hold (.inl ⟨t', m', hmem, rfl⟩)).elim
    · obtain ⟨retain', hp⟩ :=
        eq_publish_of_mem_handle (.inl ((List.mem_append.1 hmem).resolve_right (by simp)))
      exact (Packet.publish.inj hp).2.symm
    · cases t' <;> cases hgets
  · exact (hold (.inr ⟨m', by simpa [htr] using hposted, rfl⟩)).elim

theorem State.Decoded.step {a : BrokerAction} (h : s.Decoded retain m) (hr : Reachable env s)
    (hstep : step env s a = some s') : s'.Decoded retain m := by
  have hle := step_nextObj_le hstep
  refine ⟨Nat.lt_of_lt_of_le h.lt hle, fun m' hm' ho => ?_, fun hnot => ?_⟩
  · obtain ⟨t, hpost⟩ | hposted := hm'
    · obtain hold | ⟨-, hnew⟩ := mem_post_step hstep hpost
      · exact h.only m' (.inl ⟨t, hold⟩) ho
      · have := h.lt
        omega
    · obtain hold | ⟨c, hc⟩ | ⟨t, ch, i, rest, nx, -, hx, rfl⟩ := mem_trace_step hstep hposted
      · exact h.only m' (.inr hold) ho
      · cases hc
      · exact h.only m' (.inl ⟨t, hx.mem_self⟩) ho
  · have hbit := h.bit fun t b htaken => hnot t b (mem_trace_mono hstep htaken)
    obtain ⟨-, ⟨-, rfl⟩ | ⟨-, rfl⟩ | ⟨t, ch, i, rest, nx, -, hx⟩⟩ := step_cases hstep
    · exact hbit
    · exact hbit
    · obtain heq | ⟨-, m', rfl, ho⟩ := hx.retainBit h.lt
      · exact heq.trans hbit
      · -- only the message itself has this number, and it is taken in this step
        obtain ⟨w, -, rfl⟩ := hr.worker_of_mem hx.mem_self rfl
        obtain rfl := h.only m' (.inr (hr.posted_of_handlePost hx.mem_self)) ho
        exact absurd (by simp [hx.handlePost.1]) (hnot (.worker w) (s.retainBit m'.obj))

theorem Reachable.decoded (hr : Reachable env s)
    (h : Event.received c (.publish retain m) ∈ s.trace) : s.Decoded retain m := by
  refine hr.invariant (I := fun s => .received c (.publish retain m) ∈ s.trace →
    s.Decoded retain m) ?_ (by simp [init]) h
  intro s a s' hr hI hstep h
  by_cases hold : Event.received c (.publish retain m) ∈ s.trace
  · exact (hI hold).step hr hstep
  · obtain hmem | ⟨c, hc⟩ | ⟨t, ch, i, rest, nx, -, hx, hlog⟩ := mem_trace_step hstep h
    · exact absurd hmem hold
    · cases hc
    · obtain htr | ⟨e, htr, -⟩ := hx.trace <;> rw [htr] at h
      · exact absurd h hold
      · obtain rfl := List.mem_singleton.1 ((List.mem_append.1 h).resolve_left hold)
        exact hx.decoded hr hlog htr

/-- The bit is the decoded one exactly if that was cleared, or no worker has begun to
handle the message. -/
theorem Reachable.bit_iff (hr : Reachable env s) (h : .received c (.publish retain m) ∈ s.trace) :
    s.retainBit m.obj = retain ↔
      retain = false ∨ ∀ t isRetain, .taken t m isRetain ∉ s.trace := by
  constructor
  · intro hbit
    by_cases htaken : ∃ t isRetain, .taken t m isRetain ∈ s.trace
    · obtain ⟨t, isRetain, htaken⟩ := htaken
      exact .inl (hbit.symm.trans (hr.retainBit_of_taken htaken))
    · exact .inr fun t isRetain hmem => htaken ⟨t, isRetain, hmem⟩
  · rintro (rfl | hnot)
    · by_cases htaken : ∃ t isRetain, .taken t m isRetain ∈ s.trace
      · obtain ⟨t, isRetain, htaken⟩ := htaken
        exact hr.retainBit_of_taken htaken
      · exact (hr.decoded h).bit fun t isRetain hmem => htaken ⟨t, isRetain, hmem⟩
    · exact (hr.decoded h).bit hnot

/-! ## The broker and its peers -/

/-- A broker with the endpoints of its peers. -/
structure Replicating where
  broker : State
  /-- What the `replicate` of a goroutine has still to submit, and to which peer. -/
  todo : Tid → List (GoString × Publish) := fun _ => []
  peers : GoString → Endpoint Tid Publish := fun _ => .init

/-- The parameters of a replicating broker: the keys of `peers.nodes`, and the
configuration of the endpoints. -/
structure PeersEnv where
  env : Env
  nodes : List GoString
  cf : PeersConfig

inductive ReplAction where
  /-- The broker makes a step. `order` is how Go ranges over the nodes. -/
  | broker (a : BrokerAction) (order : List GoString)
  /-- The `replicate` of a goroutine goes on. -/
  | submit (t : Tid)
  | session (host : GoString) (ch : Endpoint.Choice)
  | stop (host : GoString)
  deriving DecidableEq, Repr

namespace Replicating

/-- The peer makes a step. -/
def stepPeer (penv : PeersEnv) (r : Replicating) (host : GoString)
    (a : Endpoint.Action Tid Publish) : Option Replicating :=
  (Endpoint.step penv.cf (r.peers host) a).map fun e =>
    { r with peers := Function.update r.peers host e }

/-- The broker makes a step. A goroutine that executes `replicate` then submits the
message to one peer after the other. -/
def stepBroker (penv : PeersEnv) (r : Replicating) (a : BrokerAction) (order : List GoString) :
    Option Replicating :=
  match step penv.env r.broker a, a with
  | none, _ => none
  | some s, .run t _ =>
    if r.todo t ≠ [] then none
    else
      match r.broker.code t with
      | .replicate m :: _ =>
        if order.Perm penv.nodes then
          some { r with broker := s, todo := Function.update r.todo t (order.map (·, m)) }
        else none
      | _ => some { r with broker := s }
  | some s, _ => some { r with broker := s }

/-- `submit` looks at `alive`. It is done if that is cleared, and else goes on to send. -/
def stepSubmit (penv : PeersEnv) (r : Replicating) (t : Tid) : Option Replicating :=
  match r.todo t with
  | [] => none
  | (host, m) :: rest =>
    if ((r.peers host).senders t).isSome then
      { r with todo := Function.update r.todo t rest }.stepPeer penv host (.send t)
    else
      let r := if (r.peers host).alive then r else { r with todo := Function.update r.todo t rest }
      r.stepPeer penv host (.submit t m)

/-- A panic of an endpoint ends the process, as one of the broker does. -/
def crashed (penv : PeersEnv) (r : Replicating) : Bool :=
  r.broker.panicked.isSome || penv.nodes.any fun host => (r.peers host).panicked.isSome

/-- One step of the broker and its endpoints. -/
def stepSystem (penv : PeersEnv) (r : Replicating) (a : ReplAction) : Option Replicating :=
  if r.crashed penv then none
  else
    match a with
    | .broker a order => r.stepBroker penv a order
    | .submit t => r.stepSubmit penv t
    | .session host ch => r.stepPeer penv host (.session ch)
    | .stop host => r.stepPeer penv host .stop

def start (penv : PeersEnv) : Replicating := { broker := init penv.env }

/-! ## What the endpoints have -/

variable {penv : PeersEnv} {r r' : Replicating}

/-- The broker is in a state it reaches on its own. What its goroutines have to submit,
and what its endpoints hold, was replicated. -/
structure Consistent (penv : PeersEnv) (r : Replicating) : Prop where
  broker : Reachable penv.env r.broker
  todo : ∀ {t host m}, (host, m) ∈ r.todo t → .replicated m ∈ r.broker.trace
  peers : ∀ {host m}, (r.peers host).Holds m → .replicated m ∈ r.broker.trace

theorem Consistent.stepPeer {host : GoString} {a : Endpoint.Action Tid Publish}
    (h : r.Consistent penv) (hsubmit : ∀ t m, a = .submit t m → .replicated m ∈ r.broker.trace)
    (hstep : r.stepPeer penv host a = some r') : r'.Consistent penv := by
  obtain ⟨e, he, rfl⟩ := Option.map_eq_some_iff.1 hstep
  refine ⟨h.broker, h.todo, fun {host' m} hm => ?_⟩
  by_cases hhost : host' = host
  · subst hhost
    obtain hold | ⟨t, rfl⟩ := Endpoint.holds_step he (by simpa using hm)
    · exact h.peers hold
    · exact hsubmit t m rfl
  · exact h.peers (by simpa [hhost] using hm)

/-- What is left of a list to submit. -/
theorem Consistent.pop {t : Tid} {x : GoString × Publish} {rest : List (GoString × Publish)}
    (h : r.Consistent penv) (htodo : r.todo t = x :: rest) :
    Consistent penv { r with todo := Function.update r.todo t rest } := by
  refine ⟨h.broker, fun {t' host m} hm => ?_, h.peers⟩
  by_cases ht : t' = t
  · subst ht
    exact h.todo (htodo ▸ List.mem_cons_of_mem _ (by simpa using hm))
  · exact h.todo (by simpa [ht] using hm)

theorem Consistent.stepSubmit {t : Tid} (h : r.Consistent penv)
    (hstep : r.stepSubmit penv t = some r') : r'.Consistent penv := by
  unfold Replicating.stepSubmit at hstep
  split at hstep
  · cases hstep
  next host m rest htodo =>
  have hrepl : .replicated m ∈ r.broker.trace := h.todo (htodo ▸ List.mem_cons_self ..)
  split at hstep
  · exact (h.pop htodo).stepPeer (by simp) hstep
  · dsimp only at hstep
    split at hstep
    · exact h.stepPeer (fun _ _ ha => by cases ha; exact hrepl) hstep
    · exact (h.pop htodo).stepPeer (fun _ _ ha => by cases ha; exact hrepl) hstep

/-- The broker goes on, and what was replicated stays so. -/
theorem Consistent.advance {a : BrokerAction} {s : State} (h : r.Consistent penv)
    (hs : step penv.env r.broker a = some s) : Consistent penv { r with broker := s } :=
  ⟨Transition.Reachable.tail h.broker hs, fun hm => mem_trace_mono hs (h.todo hm),
    fun hm => mem_trace_mono hs (h.peers hm)⟩

theorem Consistent.stepBroker {a : BrokerAction} {order : List GoString} (h : r.Consistent penv)
    (hstep : r.stepBroker penv a order = some r') : r'.Consistent penv := by
  unfold Replicating.stepBroker at hstep
  split at hstep
  · cases hstep
  · next s t ch hs =>
    split at hstep
    · cases hstep
    split at hstep
    · next m rest hcode =>
      split at hstep <;> cases hstep
      have hrepl : .replicated m ∈ s.trace := by
        obtain ⟨-, ⟨h, -⟩ | ⟨h, -⟩ | ⟨t', ch', i, rest', nx, ha, hx⟩⟩ := step_cases hs
        · cases h
        · cases h
        · cases ha
          obtain ⟨rfl, rfl⟩ := List.cons.inj (hx.code.symm.trans hcode)
          obtain ⟨-, s₁, hexec, rfl⟩ := hx
          cases hexec
          simp [State.log, State.setCode]
      have hnext := h.advance hs
      refine ⟨hnext.broker, fun {t' host m'} hm => ?_, hnext.peers⟩
      by_cases ht : t' = t
      · subst ht
        obtain ⟨-, rfl⟩ : host ∈ order ∧ m = m' := by simpa using hm
        exact hrepl
      · exact hnext.todo (by simpa [ht] using hm)
    · cases hstep
      exact h.advance hs
  · next hs =>
    cases hstep
    exact h.advance hs

theorem Consistent.step {a : ReplAction} (h : r.Consistent penv)
    (hstep : r.stepSystem penv a = some r') : r'.Consistent penv := by
  unfold stepSystem at hstep
  split at hstep
  · cases hstep
  cases a with
  | broker a order => exact h.stepBroker hstep
  | submit t => exact h.stepSubmit hstep
  | session host ch => exact h.stepPeer (by simp) hstep
  | stop host => exact h.stepPeer (by simp) hstep

theorem consistent_start : (start penv).Consistent penv :=
  ⟨Transition.Reachable.refl, nofun, by rintro host m (h | h | ⟨t, h⟩) <;> cases h⟩

/-! ## What the endpoints encode -/

/-- A message as an endpoint encodes it, and the log of the broker before. -/
structure Sent where
  host : GoString
  m : Publish
  retain : Bool
  before : List Event
  deriving DecidableEq, Repr

def observeSent (r : Replicating) (a : ReplAction) (_ : Replicating) : Option Sent :=
  match a with
  | .session host (.encode _) =>
    match (r.peers host).session with
    | .encode m => some ⟨host, m, r.broker.retainBit m.obj, r.broker.trace⟩
    | _ => none
  | _ => none

/-- The message was decoded from a client. It has the `Retain` bit it had then exactly if
that was cleared, or no worker has begun to handle the message. -/
def Sent.Faithful (e : Sent) : Prop :=
  (∃ c retain, .received c (.publish retain e.m) ∈ e.before) ∧
  ∀ c retain, .received c (.publish retain e.m) ∈ e.before →
    (e.retain = retain ↔ retain = false ∨ ∀ t isRetain, .taken t e.m isRetain ∉ e.before)

theorem Consistent.faithful {a : ReplAction} {e : Sent} (h : r.Consistent penv)
    (he : observeSent r a r' = some e) : e.Faithful := by
  unfold observeSent at he
  split at he
  · split at he
    · next m hsession =>
      cases he
      refine ⟨?_, fun c retain => h.broker.bit_iff⟩
      exact h.broker.received_of_replicated (.inr (h.peers (.inr (.inl hsession))))
    · cases he
  · cases he

/-- Whatever an endpoint encodes is what a client has sent, with the `Retain` bit it had
exactly if that was cleared, or no worker has begun to handle the message. -/
theorem replicated_retain_iff {acts : List ReplAction}
    (hrun : Transition.run (stepSystem penv) (start penv) acts = some r) :
    ∀ e ∈ Transition.observed (stepSystem penv) observeSent (start penv) acts,
      (∃ c retain, .received c (.publish retain e.m) ∈ e.before) ∧
      ∀ c retain, .received c (.publish retain e.m) ∈ e.before →
        (e.retain = retain ↔
          retain = false ∨ ∀ t isRetain, .taken t e.m isRetain ∉ e.before) := by
  have hhist : r.Consistent penv ∧
      ∀ e ∈ Transition.observed (stepSystem penv) observeSent (start penv) acts, e.Faithful := by
    refine Transition.run_history (G := fun _ _ => True)
      (I := fun (h : List Sent) r => r.Consistent penv ∧ ∀ e ∈ h, e.Faithful) ?_
      ⟨consistent_start, nofun⟩ hrun
      (Transition.Guarded.of_forall (fun _ _ => trivial) _ _)
    intro h r a r' _ ⟨hc, hI⟩ _ hstep
    refine ⟨hc.step hstep, fun e he => ?_⟩
    obtain he | he := List.mem_append.1 he
    · exact hI e he
    · exact hc.faithful (Option.mem_toList.1 he)
  exact hhist.2

/-- A broker with one worker and one peer. -/
def onePeer : PeersEnv := ⟨workerEnv, [str "p"], {}⟩

/-- The endpoint connects, a client sends a retained PUBLISH, the worker makes `n` steps,
and the endpoint sends the message. -/
def replicateRun (n : Nat) : List ReplAction :=
  [.session (str "p") .go, .session (str "p") (.dial true), .session (str "p") .go] ++
    (BrokerAction.accept :: sends 0 (.connect (.named (str "a"))) 9 ++
      sends 0 (.publish true ⟨0, .atMostOnce, str "t", 1, str "x"⟩) 5 ++
      List.replicate n (BrokerAction.run (.worker 0) .go)).map (.broker · [str "p"]) ++
    [.submit (.inbound 0), .submit (.inbound 0), .session (str "p") .go,
      .session (str "p") (.encode true)]

theorem replicated_retain_iff_replicateRun :
    ∃ r, Transition.run (stepSystem onePeer) (start onePeer) (replicateRun 0) = some r ∧
      ∃ e ∈ Transition.observed (stepSystem onePeer) observeSent (start onePeer) (replicateRun 0),
        e.retain = true ∧ ∃ c retain, .received c (.publish retain e.m) ∈ e.before := by
  have heval : (Transition.run (stepSystem onePeer) (start onePeer) (replicateRun 0)).isSome = true ∧
      (Transition.observed (stepSystem onePeer) observeSent (start onePeer) (replicateRun 0)).map
        (·.retain) = [true] := by decide +kernel
  obtain ⟨hsome, hretain⟩ := heval
  obtain ⟨r, hrun⟩ := Option.isSome_iff_exists.1 hsome
  obtain ⟨e, he, hbit⟩ := List.mem_map.1 (hretain ▸ List.mem_singleton_self true)
  exact ⟨r, hrun, e, he, hbit, (replicated_retain_iff hrun e he).1⟩

/-- The worker begins to handle the message before the endpoint sends it. The client has
set `Retain`, and the peer gets the message without. -/
theorem retain_lost :
    (Transition.observed (stepSystem onePeer) observeSent (start onePeer) (replicateRun 2)).map
      (fun e => (e.retain, decide (.received 0 (.publish true e.m) ∈ e.before))) =
      [(false, true)] := by
  decide +kernel

end Replicating
