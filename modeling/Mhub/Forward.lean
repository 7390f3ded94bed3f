-- SUMMARY: What a broker sends its peers: the messages of one client in the order the client has sent them, and all of them as long as the endpoint is up.
import Mhub.Broker.Order
import Mhub.Replication

/-!
# Forwarding

A handler submits a message to the peers before it reads the next one, and an endpoint
sends in the order in which it accepts. So what a peer gets of one client is in order. It
need not be complete: what comes when the endpoint is dead, or when the queue is full and
the strategy is not to block, is dropped, and so is what `Encode` fails on. Nothing else
is: as long as the endpoint is up, with the block strategy, every PUBLISH is on its way to
the peer or was sent.
-/

/-! ## What the broker forwards -/

variable {env : Env} {s s' : State} {t : Tid} {ch : Choice} {i : Instr} {rest : List Instr}
  {nx : Next} {c p : ConnId} {m : Publish}

def Event.origin : Event → Option (ConnId × Publish)
  | .received c (.publish _ m) => some (c, m)
  | _ => none

/-- Every PUBLISH that was received, and from whom. -/
def State.origins (s : State) : List (ConnId × Publish) := s.trace.filterMap Event.origin

theorem State.mem_origins : (c, m) ∈ s.origins ↔ m ∈ s.published c := by
  rw [State.mem_published, State.origins, List.mem_filterMap]
  constructor
  · rintro ⟨e, he, horigin⟩
    cases e with
    | received c' pk =>
      cases pk with
      | publish retain m' =>
        cases horigin
        exact ⟨retain, he⟩
      | _ => cases horigin
    | _ => cases horigin
  · rintro ⟨retain, he⟩
    exact ⟨_, he, rfl⟩

theorem State.published_eq_origins (s : State) (c : ConnId) :
    s.published c = (s.origins.filter (·.1 = c)).map (·.2) := by
  rw [State.published, State.origins]
  induction s.trace with
  | nil => rfl
  | cons e l ih =>
    cases e with
    | received c' pk =>
      cases pk with
      | publish retain m =>
        have hpub : (Event.received c' (.publish retain m)).published c =
          if c' = c then some m else none := rfl
        have horigin : (Event.received c' (.publish retain m)).origin = some (c', m) := rfl
        rw [List.filterMap_cons, hpub, List.filterMap_cons_some horigin]
        by_cases hc : c' = c <;> simp [hc, ih]
      | _ => exact ih
    | _ => exact ih

theorem Reachable.origin_lt (hr : Reachable env s) {x : ConnId × Publish} (hx : x ∈ s.origins) :
    x.2.obj < s.nextObj := by
  obtain ⟨retain, he⟩ := State.mem_published.1 (State.mem_origins.1 hx)
  exact (hr.decoded he).lt

theorem Executes.origins (hx : Executes env s t ch i rest nx s') :
    s'.origins = s.origins ∨ ∃ c m, m.obj = s.nextObj ∧ s'.origins = s.origins ++ [(c, m)] := by
  by_cases hi : ∃ c, i = .inboundLoop c
  · obtain ⟨c, rfl⟩ := hi
    obtain ⟨pk, -, -, htr⟩ | ⟨rfl, -⟩ := hx.inboundLoop
    · cases pk with
      | publish retain m => exact .inr ⟨c, { m with obj := s.nextObj }, rfl, by
          simp [State.origins, htr, Packet.at, Event.origin]⟩
      | _ => exact .inl (by simp [State.origins, htr, Packet.at, Event.origin])
    · obtain ⟨-, s₁, hexec, rfl⟩ := hx
      cases hexec
      exact .inl rfl
  · refine .inl (hx.filterMap_trace fun e hlog => ?_)
    cases e with
    | received c pk => exact absurd ⟨c, hlog⟩ hi
    | _ => rfl

/-- Every PUBLISH is an object of its own. -/
theorem Reachable.origins_nodup (hr : Reachable env s) : (s.origins.map (·.2.obj)).Nodup := by
  refine hr.invariant (I := fun s => (s.origins.map (·.2.obj)).Nodup) ?_
    (by simp [State.origins, init])
  intro s a s' hr hI hstep
  obtain ⟨-, ⟨-, rfl⟩ | ⟨-, rfl⟩ | ⟨t, ch, i, rest, nx, -, hx⟩⟩ := step_cases hstep
  · simpa [State.origins, State.accept, State.log, State.setCode, Event.origin,
      List.filterMap_cons] using hI
  · exact hI
  · obtain heq | ⟨c, m, hobj, heq⟩ := hx.origins <;> rw [heq]
    · exact hI
    · rw [List.map_append, List.nodup_append]
      refine ⟨hI, by simp, ?_⟩
      rintro n hn _ hm rfl
      obtain ⟨x, hx, rfl⟩ := List.mem_map.1 hn
      have hlt := Reachable.origin_lt hr hx
      simp only [List.map_cons, List.map_nil, List.mem_singleton] at hm
      omega

theorem Reachable.published_nodup (hr : Reachable env s) (c : ConnId) : (s.published c).Nodup := by
  refine List.Nodup.of_map (·.obj) ?_
  rw [s.published_eq_origins c, List.map_map]
  exact hr.origins_nodup.sublist (List.filter_sublist.map _)

theorem Reachable.publisher_unique (hr : Reachable env s) (hc : m ∈ s.published c)
    (hp : m ∈ s.published p) : c = p := by
  have heq := List.inj_on_of_nodup_map hr.origins_nodup (State.mem_origins.2 hc)
    (State.mem_origins.2 hp) rfl
  exact (Prod.mk.inj heq).1

def Instr.toReplicate : Instr → Option Publish
  | .replicate m => some m
  | _ => none

/-- What the handler of `c` has still to hand to `replicate`. -/
def State.toReplicate (s : State) (c : ConnId) : List Publish :=
  (s.code (.inbound c)).filterMap Instr.toReplicate

theorem toReplicate_handle {pk : Packet} :
    (handle c pk ++ [Instr.inboundLoop c]).filterMap Instr.toReplicate = pk.published := by
  rw [List.filterMap_append]
  cases pk with
  | publish retain m =>
    simp only [handle, doPublish]
    split <;> rfl
  | subscribe sub =>
    simp [handle, doSubscribe, List.filterMap_flatMap, List.filterMap_map, List.filterMap_cons,
      Function.comp_def, Instr.toReplicate, Packet.published]
  | unsubscribe u =>
    simp [handle, doUnsubscribe, List.filterMap_flatMap, List.filterMap_cons, Instr.toReplicate,
      Packet.published]
  | _ => rfl

/-- A handler has more to replicate only after it has read a PUBLISH. -/
theorem Executes.toReplicate (hr : Reachable env s) (hx : Executes env s t ch i rest nx s') :
    (t ≠ .inbound c ∧ s'.toReplicate c = s.toReplicate c ∧ s'.published c = s.published c) ∨
    (t = .inbound c ∧ ∃ ms, s'.published c = s.published c ++ ms ∧
      (s'.toReplicate c).Sublist (rest.filterMap Instr.toReplicate ++ ms)) := by
  by_cases ht : t = .inbound c
  · subst ht
    refine .inr ⟨rfl, ?_⟩
    have hcode : (s'.toReplicate c).Sublist
        (nx.instrs.filterMap Instr.toReplicate ++ rest.filterMap Instr.toReplicate) := by
      rw [State.toReplicate, hx.code_self]
      cases nx with
      | push is => simp [Next.apply, Next.instrs]
      | jump is => simp [Next.apply, Next.instrs]
    by_cases hi : i = .inboundLoop c
    · subst hi
      obtain rfl : rest = [] := (hx.code ▸ hr.shaped (.inbound c)).rest_of_loop
      rw [List.filterMap_nil, List.append_nil] at hcode
      obtain ⟨pk, -, rfl, htr⟩ | ⟨rfl, rfl⟩ := hx.inboundLoop
      · refine ⟨(pk.at s.nextObj).published, ?_, ?_⟩
        · cases pk <;> simp [State.published, htr, Packet.at, Packet.published, Event.published]
        · rwa [Next.instrs, toReplicate_handle] at hcode
      · refine ⟨[], ?_, hcode⟩
        obtain ⟨-, s₁, hexec, rfl⟩ := hx
        cases hexec
        simp [State.published, State.setCode]
    · refine ⟨[], by rw [hx.published hi, List.append_nil], ?_⟩
      have hnone : nx.instrs.filterMap Instr.toReplicate = [] := by
        refine List.eq_nil_iff_forall_not_mem.2 fun m hm => ?_
        obtain ⟨j, hj, hjm⟩ := List.mem_filterMap.1 hm
        cases j with
        | replicate m' =>
          obtain ⟨c', rfl⟩ := brings_replicate (hx.follows.brings hj)
          cases hx.home hr rfl
          exact hi rfl
        | _ => cases hjm
      simpa [hnone] using hcode
  · refine .inl ⟨ht, ?_, hx.published ?_⟩
    · rw [State.toReplicate, State.toReplicate, hx.code_inbound (Ne.symm ht)]
    · rintro rfl
      exact ht (hx.home hr rfl)

/-- A step of the broker either leaves what a client has published, or is one of its
handler. -/
theorem step_toReplicate {a : BrokerAction} (hr : Reachable env s) (hstep : step env s a = some s')
    (c : ConnId) :
    ((∀ ch, a ≠ .run (.inbound c) ch) ∧ (s'.toReplicate c).Sublist (s.toReplicate c) ∧
      s'.published c = s.published c) ∨
    ∃ ch i rest ms, a = .run (.inbound c) ch ∧ s.code (.inbound c) = i :: rest ∧
      s'.published c = s.published c ++ ms ∧
      (s'.toReplicate c).Sublist (rest.filterMap Instr.toReplicate ++ ms) := by
  obtain ⟨-, ⟨rfl, rfl⟩ | ⟨rfl, rfl⟩ | ⟨t, ch, i, rest, nx, rfl, hx⟩⟩ := step_cases hstep
  · refine .inl ⟨by simp, ?_, by simp [State.published, State.accept, State.log, State.setCode,
      Event.published]⟩
    obtain hcode | hcode := s.code_accept (.inbound c)
    · rw [State.toReplicate, State.toReplicate, hcode]
    · simp [State.toReplicate, hcode, Tid.loop, Instr.toReplicate, List.filterMap_cons]
  · exact .inl ⟨by simp, .refl _, rfl⟩
  · obtain ⟨ht, hto, hpub⟩ | ⟨rfl, ms, hpub, hto⟩ := hx.toReplicate (c := c) hr
    · exact .inl ⟨by simp [ht], hto ▸ .refl _, hpub⟩
    · exact .inr ⟨ch, i, rest, ms, rfl, hx.code, hpub, hto⟩

/-- Only handlers replicate. -/
theorem Reachable.replicate_home (hr : Reachable env s) (h : .replicate m ∈ s.code t) :
    ∃ c, t = .inbound c := by
  refine hr.forall_code (Q := fun _ t i => (∃ m, i = .replicate m) → ∃ c, t = .inbound c)
    ?_ ?_ ?_ ?_ t _ h ⟨m, rfl⟩
  · rintro s t ⟨m, hm⟩
    cases t <;> cases hm
  · intro s a s' t i _ _ h
    exact h
  · rintro s t ch i rest nx s' j hr hx - - hj ⟨m, rfl⟩
    obtain ⟨c, rfl⟩ := brings_replicate (hx.follows.brings hj)
    exact ⟨c, hx.home hr rfl⟩
  · rintro s t ch i rest nx s' j t' - - hhands - ⟨m, rfl⟩
    cases hhands

/-- A PUBLISH that was received is going to be replicated, or was. -/
theorem Reachable.received_replicated (hr : Reachable env s) (h : m ∈ s.published c) :
    m ∈ s.toReplicate c ∨ .replicated m ∈ s.trace := by
  obtain ⟨retain, he⟩ := State.mem_published.1 h
  have hdone := hr.received_done (j := .replicate m) (e := .replicated m) he
    (by simp [handle, doPublish]) (by simp) fun hx => by
      obtain ⟨-, s₁, hexec, rfl⟩ := hx
      cases hexec
      simp [State.log, State.setCode]
  exact hdone.imp_left fun hmem => List.mem_filterMap.2 ⟨_, hmem, rfl⟩

/-! ## The broker and its endpoints -/

namespace Replicating

variable {penv : PeersEnv} {r r' : Replicating} {host : GoString}

/-- What a step of the broker and its endpoints does. -/
inductive Moves (penv : PeersEnv) (r : Replicating) : ReplAction → Replicating → Prop where
  | broker {a : BrokerAction} {order : List GoString} {s : State} :
    step penv.env r.broker a = some s →
    (∀ t ch, a = .run t ch → r.todo t = [] ∧ ∀ m rest, r.broker.code t ≠ .replicate m :: rest) →
    Moves penv r (.broker a order) { r with broker := s }
  | replicate {t : Tid} {ch : Choice} {order : List GoString} {s : State} {m : Publish}
    {rest : List Instr} : step penv.env r.broker (.run t ch) = some s → r.todo t = [] →
    r.broker.code t = .replicate m :: rest → order.Perm penv.nodes →
    Moves penv r (.broker (.run t ch) order)
      { r with broker := s, todo := Function.update r.todo t (order.map (·, m)) }
  /-- `submit` finds the endpoint alive. -/
  | submit {t : Tid} {host : GoString} {m : Publish} {todo : List (GoString × Publish)}
    {e : Endpoint Tid Publish} : r.todo t = (host, m) :: todo → (r.peers host).senders t = none →
    (r.peers host).alive = true → Endpoint.step penv.cf (r.peers host) (.submit t m) = some e →
    Moves penv r (.submit t) { r with peers := Function.update r.peers host e }
  /-- `submit` finds the endpoint dead. -/
  | drop {t : Tid} {host : GoString} {m : Publish} {todo : List (GoString × Publish)} :
    r.todo t = (host, m) :: todo → (r.peers host).senders t = none →
    (r.peers host).alive = false →
    Moves penv r (.submit t) { r with todo := Function.update r.todo t todo }
  | send {t : Tid} {host : GoString} {m : Publish} {todo : List (GoString × Publish)}
    {e : Endpoint Tid Publish} : r.todo t = (host, m) :: todo → (r.peers host).senders t ≠ none →
    Endpoint.step penv.cf (r.peers host) (.send t) = some e →
    Moves penv r (.submit t)
      { r with todo := Function.update r.todo t todo, peers := Function.update r.peers host e }
  | session {host : GoString} {ch : Endpoint.Choice} {e : Endpoint Tid Publish} :
    Endpoint.step penv.cf (r.peers host) (.session ch) = some e →
    Moves penv r (.session host ch) { r with peers := Function.update r.peers host e }
  | stop {host : GoString} {e : Endpoint Tid Publish} :
    Endpoint.step penv.cf (r.peers host) .stop = some e →
    Moves penv r (.stop host) { r with peers := Function.update r.peers host e }

theorem stepBroker_moves {a : BrokerAction} {order : List GoString}
    (hstep : r.stepBroker penv a order = some r') : Moves penv r (.broker a order) r' := by
  unfold stepBroker at hstep
  split at hstep
  · cases hstep
  · next s t ch hs =>
    split at hstep
    · cases hstep
    next htodo =>
    rw [ne_eq, not_not] at htodo
    split at hstep
    · next m rest hcode =>
      split at hstep <;> cases hstep
      next horder => exact .replicate hs htodo hcode horder
    · next hcode =>
      cases hstep
      refine .broker hs ?_
      rintro t' ch' ⟨⟩
      exact ⟨htodo, hcode⟩
  · next hnot hs =>
    cases hstep
    refine .broker hs ?_
    rintro t ch rfl
    exact absurd rfl (hnot t ch)

theorem stepSubmit_moves (hstep : r.stepSubmit penv t = some r') : Moves penv r (.submit t) r' := by
  unfold stepSubmit at hstep
  split at hstep
  · cases hstep
  next host m todo htodo =>
  split at hstep
  · next hsender =>
    obtain ⟨e, he, rfl⟩ := Option.map_eq_some_iff.1 hstep
    exact .send htodo (by simpa [Option.isSome_iff_ne_none] using hsender) he
  · next hsender =>
    have hsender : (r.peers host).senders t = none := by simpa using hsender
    dsimp only at hstep
    split at hstep
    · next halive =>
      obtain ⟨e, he, rfl⟩ := Option.map_eq_some_iff.1 hstep
      exact .submit htodo hsender halive he
    · next halive =>
      have halive : (r.peers host).alive = false := by simpa using halive
      obtain ⟨e, he, rfl⟩ := Option.map_eq_some_iff.1 hstep
      -- nothing is to be sent
      obtain rfl : e = r.peers host := by
        simp only [Endpoint.step] at he
        split at he
        · cases he
        · exact (Option.some.inj he).symm
      simpa using Moves.drop htodo hsender halive

theorem stepSystem_moves {a : ReplAction} (hstep : r.stepSystem penv a = some r') :
    Moves penv r a r' := by
  unfold stepSystem at hstep
  split at hstep
  · cases hstep
  cases a with
  | broker a order => exact stepBroker_moves hstep
  | submit t => exact stepSubmit_moves hstep
  | session host ch =>
    obtain ⟨e, he, rfl⟩ := Option.map_eq_some_iff.1 hstep
    exact .session he
  | stop host =>
    obtain ⟨e, he, rfl⟩ := Option.map_eq_some_iff.1 hstep
    exact .stop he

/-- What the goroutine `t` has still to submit to the peer. -/
def inFlight (r : Replicating) (host : GoString) (t : Tid) : List Publish :=
  (r.todo t).filterMap fun x => if x.1 = host then some x.2 else none

/-- The events of the endpoint of a peer. -/
def observePeer (penv : PeersEnv) (host : GoString) (r : Replicating) (a : ReplAction)
    (r' : Replicating) : Option (Endpoint.Event Tid Publish) :=
  match a with
  | .submit t =>
    match r.todo t with
    | (host', _) :: _ =>
      if host' = host then Endpoint.observe penv.cf (r.peers host) (.send t) (r'.peers host)
      else none
    | [] => none
  | .session host' ch =>
    if host' = host then Endpoint.observe penv.cf (r.peers host) (.session ch) (r'.peers host)
    else none
  | _ => none

/-- What the endpoint of a peer has got so far, given its events. What a client has got
accepted, what its handler is about to submit, and what it has still to replicate are
among what the client has published, in order. -/
structure Forwards (penv : PeersEnv) (host : GoString) (h : List (Endpoint.Event Tid Publish))
    (r : Replicating) : Prop where
  consistent : r.Consistent penv
  order : ∀ p, (h.filterMap (Endpoint.Event.takenFrom (.inbound p)) ++
    r.inFlight host (.inbound p) ++ r.broker.toReplicate p).Sublist (r.broker.published p)
  home : ∀ {t}, r.todo t ≠ [] → ∃ p, t = .inbound p
  handlers : ∀ {t m}, .accepted t m ∈ h → ∃ p, t = .inbound p
  sender : ∀ {t m}, (r.peers host).senders t = some m → ∃ todo, r.todo t = (host, m) :: todo
  fifo : h.filterMap Endpoint.Event.taken =
    h.filterMap Endpoint.Event.written ++ (r.peers host).pending
  bounded : (r.peers host).jobs.length ≤ penv.cf.queueLen

section Steps

variable {h : List (Endpoint.Event Tid Publish)}

/-- The broker makes a step. If it is one of the handler of `p`, this is about to submit
the message that it replicates. -/
theorem Forwards.advance {a : BrokerAction} {ms : List Publish} (hf : Forwards penv host h r)
    (hs : step penv.env r.broker a = some s)
    (hown : ∀ ch i rest, a = .run (.inbound p) ch → r.broker.code (.inbound p) = i :: rest →
      r.inFlight host (.inbound p) = [] ∧ ms.Sublist i.toReplicate.toList)
    (hother : (∀ ch, a ≠ .run (.inbound p) ch) → ms = r.inFlight host (.inbound p)) :
    (h.filterMap (Endpoint.Event.takenFrom (.inbound p)) ++ ms ++ s.toReplicate p).Sublist
      (s.published p) := by
  have horder := hf.order p
  obtain ⟨ha, hto, hpub⟩ | ⟨ch, i, rest, new, rfl, hcode, hpub, hto⟩ :=
    step_toReplicate hf.consistent.broker hs p
  · rw [hpub, hother ha]
    exact ((List.Sublist.refl _).append hto).trans horder
  · obtain ⟨hnone, hms⟩ := hown ch i rest rfl hcode
    have hold : r.broker.toReplicate p =
        i.toReplicate.toList ++ rest.filterMap Instr.toReplicate := by
      rw [State.toReplicate, hcode, List.filterMap_cons]
      cases i.toReplicate <;> rfl
    rw [hnone, hold, List.append_nil, ← List.append_assoc] at horder
    rw [hpub]
    refine (((List.Sublist.refl _).append hms).append hto).trans ?_
    rw [← List.append_assoc]
    exact horder.append (.refl _)

theorem Forwards.broker {a : BrokerAction} (hf : Forwards penv host h r)
    (hs : step penv.env r.broker a = some s) (hidle : ∀ t ch, a = .run t ch → r.todo t = []) :
    Forwards penv host h { r with broker := s } := by
  refine ⟨hf.consistent.advance hs, fun p => ?_, hf.home, hf.handlers, hf.sender, hf.fifo,
    hf.bounded⟩
  refine hf.advance hs (fun ch i rest ha _ => ?_) fun _ => rfl
  constructor <;> simp [inFlight, hidle _ _ ha]

/-- A peer is in the list once, if at all. -/
theorem filterMap_peer_sublist {order : List GoString} (hnodup : order.Nodup) :
    ((order.map (·, m)).filterMap fun x => if x.1 = host then some x.2 else none).Sublist [m] := by
  induction order with
  | nil => exact List.nil_sublist _
  | cons x order ih =>
    obtain ⟨hx, hnodup⟩ := List.nodup_cons.1 hnodup
    by_cases hxh : x = host
    · subst hxh
      have hnone : (order.map (·, m)).filterMap (fun y => if y.1 = x then some y.2 else none) =
          [] := by
        rw [List.filterMap_eq_nil_iff]
        intro y hy
        obtain ⟨z, hz, rfl⟩ := List.mem_map.1 hy
        exact if_neg (by rintro rfl; exact hx hz)
      simp [hnone]
    · simpa [hxh] using ih hnodup

/-- A handler begins to submit a message to the peers. -/
theorem Forwards.replicate {order : List GoString} (hf : Forwards penv host h r)
    (hnodup : penv.nodes.Nodup) (hc : Consistent penv { r with
      broker := s, todo := Function.update r.todo t (order.map (·, m)) })
    (hs : step penv.env r.broker (.run t ch) = some s) (htodo : r.todo t = [])
    (hcode : r.broker.code t = .replicate m :: rest) (horder : order.Perm penv.nodes) :
    Forwards penv host h
      { r with broker := s, todo := Function.update r.todo t (order.map (·, m)) } := by
  obtain ⟨c, rfl⟩ := hf.consistent.broker.replicate_home (hcode ▸ List.mem_cons_self ..)
  refine ⟨hc, fun p => hf.advance hs (fun ch' i rest' ha hcode' => ?_) fun ha => ?_,
    fun {t'} ht => ?_, hf.handlers, fun {t' m'} hm' => ?_, hf.fifo, hf.bounded⟩
  · cases ha
    obtain ⟨rfl, rfl⟩ := List.cons.inj (hcode.symm.trans hcode')
    refine ⟨by simp [inFlight, htodo], ?_⟩
    simp only [inFlight, Function.update_self]
    exact filterMap_peer_sublist (horder.nodup_iff.2 hnodup)
  · have hpc : (Tid.inbound p) ≠ .inbound c := fun h => ha ch (by rw [h])
    simp [inFlight, hpc]
  · by_cases htt : t' = .inbound c
    · exact ⟨c, htt⟩
    · exact hf.home (by simpa [htt] using ht)
  · obtain ⟨todo, htodo'⟩ := hf.sender hm'
    have htt : t' ≠ .inbound c := by
      rintro rfl
      rw [htodo] at htodo'
      cases htodo'
    exact ⟨todo, by simpa [htt] using htodo'⟩

/-- Who is about to send, sends what it has to submit. -/
theorem Forwards.sender_eq {todo : List (GoString × Publish)} {host' : GoString}
    (hf : Forwards penv host h r) (htodo : r.todo t = (host', m) :: todo)
    (hsender : (r.peers host).senders t ≠ none) : (r.peers host).senders t = some m := by
  obtain ⟨m', hm'⟩ := Option.ne_none_iff_exists'.1 hsender
  obtain ⟨todo', htodo'⟩ := hf.sender hm'
  rw [htodo] at htodo'
  cases htodo'
  exact hm'

/-- Who submits to another peer is not about to send to this one. -/
theorem Forwards.sender_other {todo : List (GoString × Publish)} {host' : GoString}
    (hf : Forwards penv host h r) (htodo : r.todo t = (host', m) :: todo) (hne : host' ≠ host) :
    (r.peers host).senders t = none := by
  by_contra hsender
  obtain ⟨m', hm'⟩ := Option.ne_none_iff_exists'.1 hsender
  obtain ⟨todo', htodo'⟩ := hf.sender hm'
  rw [htodo] at htodo'
  cases htodo'
  exact hne rfl

/-- A goroutine is done with one peer. -/
theorem Forwards.pop {todo : List (GoString × Publish)} {host' : GoString}
    (hf : Forwards penv host h r) (htodo : r.todo t = (host', m) :: todo)
    (hsender : (r.peers host).senders t = none) :
    Forwards penv host h { r with todo := Function.update r.todo t todo } := by
  refine ⟨hf.consistent.pop htodo, fun p => ?_, fun {t'} ht => ?_, hf.handlers,
    fun {t' m'} hm' => ?_, hf.fifo, hf.bounded⟩
  · refine List.Sublist.trans ?_ (hf.order p)
    refine List.Sublist.append (List.Sublist.append (.refl _) ?_) (.refl _)
    by_cases ht : Tid.inbound p = t
    · subst ht
      simp only [inFlight, Function.update_self, htodo]
      exact (List.sublist_cons_self _ _).filterMap _
    · simp [inFlight, ht]
  · by_cases htt : t' = t
    · subst htt
      exact hf.home (by simp [htodo])
    · exact hf.home (by simpa [htt] using ht)
  · have htt : t' ≠ t := by
      rintro rfl
      rw [hsender] at hm'
      cases hm'
    obtain ⟨todo', htodo'⟩ := hf.sender hm'
    exact ⟨todo', by simpa [htt] using htodo'⟩

/-- Another endpoint makes a step. -/
theorem Forwards.otherPeer {host' : GoString} {e : Endpoint Tid Publish}
    (hf : Forwards penv host h r)
    (hne : host' ≠ host) (hc : Consistent penv { r with peers := Function.update r.peers host' e }) :
    Forwards penv host h { r with peers := Function.update r.peers host' e } := by
  have hpeer : Function.update r.peers host' e host = r.peers host :=
    Function.update_of_ne hne.symm _ _
  refine ⟨hc, hf.order, hf.home, hf.handlers, fun hm => ?_, ?_, ?_⟩
  · exact hf.sender (by simpa [hpeer] using hm)
  · simpa [hpeer] using hf.fifo
  · simpa [hpeer] using hf.bounded

/-- The endpoint makes a step. What it accepts was in flight before. -/
theorem Forwards.peer {a : Endpoint.Action Tid Publish} {e : Endpoint Tid Publish}
    {todo : Tid → List (GoString × Publish)} (hf : Forwards penv host h r)
    (hc : Consistent penv { r with todo, peers := Function.update r.peers host e })
    (hstep : Endpoint.step penv.cf (r.peers host) a = some e)
    (hflight : ∀ p, ((Endpoint.observe penv.cf (r.peers host) a e).toList.filterMap
      (Endpoint.Event.takenFrom (.inbound p)) ++ inFlight { r with todo } host (.inbound p)).Sublist
        (r.inFlight host (.inbound p)))
    (hhome : ∀ {t}, todo t ≠ [] → r.todo t ≠ [])
    (htaken : ∀ {t m}, Endpoint.observe penv.cf (r.peers host) a e = some (.accepted t m) →
      r.todo t ≠ [])
    (hsenders : ∀ {t m}, e.senders t = some m → ∃ rest, todo t = (host, m) :: rest) :
    Forwards penv host (h ++ (Endpoint.observe penv.cf (r.peers host) a e).toList)
      { r with todo, peers := Function.update r.peers host e } := by
  obtain ⟨hpending, hb⟩ := Endpoint.step_pending hf.bounded hstep
  refine ⟨hc, fun p => ?_, fun ht => hf.home (hhome ht), fun {t m} hm => ?_, fun hm => ?_, ?_,
    by simpa using hb⟩
  · refine List.Sublist.trans ?_ (hf.order p)
    refine List.Sublist.append ?_ (.refl _)
    rw [List.filterMap_append, List.append_assoc]
    exact (List.Sublist.refl _).append (hflight p)
  · obtain hm | hm := List.mem_append.1 hm
    · exact hf.handlers hm
    · exact hf.home (htaken (Option.mem_toList.1 hm))
  · exact hsenders (by simpa using hm)
  · rw [List.filterMap_append, List.filterMap_append, hf.fifo, List.append_assoc, hpending,
      ← List.append_assoc]
    simp

/-- The session of the endpoint goes on, or it is stopped. -/
theorem Forwards.session {a : Endpoint.Action Tid Publish} {e : Endpoint Tid Publish}
    (hf : Forwards penv host h r)
    (hc : Consistent penv { r with peers := Function.update r.peers host e })
    (hstep : Endpoint.step penv.cf (r.peers host) a = some e)
    (ha : (∃ ch, a = .session ch) ∨ a = .stop) :
    Forwards penv host (h ++ (Endpoint.observe penv.cf (r.peers host) a e).toList)
      { r with peers := Function.update r.peers host e } := by
  have hnone : ∀ t m, Endpoint.observe penv.cf (r.peers host) a e ≠ some (.accepted t m) := by
    intro t m
    obtain ⟨ch, rfl⟩ | rfl := ha
    · cases ch with
      | encode ok => cases hsession : (r.peers host).session <;> simp [Endpoint.observe, hsession]
      | _ => simp [Endpoint.observe]
    · simp [Endpoint.observe]
  refine hf.peer hc hstep (fun p => ?_) id (fun hm => absurd hm (hnone _ _)) fun hm => ?_
  · cases hobs : Endpoint.observe penv.cf (r.peers host) a e with
    | none => exact .refl _
    | some ev =>
      cases ev with
      | accepted t m => exact absurd hobs (hnone t m)
      | encoded m ok => exact .refl _
  · rw [Endpoint.senders_step hstep] at hm
    obtain ⟨ch, rfl⟩ | rfl := ha <;> exact hf.sender hm

theorem Forwards.submit {todo : List (GoString × Publish)} {e : Endpoint Tid Publish}
    (hf : Forwards penv host h r)
    (hc : Consistent penv { r with peers := Function.update r.peers host e })
    (hstep : Endpoint.step penv.cf (r.peers host) (.submit t m) = some e)
    (htodo : r.todo t = (host, m) :: todo) :
    Forwards penv host h { r with peers := Function.update r.peers host e } := by
  have hnext := hf.peer hc hstep (fun p => .refl _) id (fun hm => by cases hm) fun {t' m'} hm => ?_
  · simpa [Endpoint.observe] using hnext
  · rw [Endpoint.senders_step hstep] at hm
    by_cases ht : t' = t
    · subst ht
      simp only at hm
      split at hm
      · obtain rfl : m = m' := by simpa using hm
        exact ⟨todo, htodo⟩
      · exact hf.sender hm
    · refine hf.sender ?_
      simp only at hm
      split at hm
      · rwa [Function.update_of_ne ht] at hm
      · exact hm

theorem Forwards.send {todo : List (GoString × Publish)} {e : Endpoint Tid Publish}
    (hf : Forwards penv host h r)
    (hc : Consistent penv
      { r with todo := Function.update r.todo t todo, peers := Function.update r.peers host e })
    (hstep : Endpoint.step penv.cf (r.peers host) (.send t) = some e)
    (htodo : r.todo t = (host, m) :: todo) (hsender : (r.peers host).senders t ≠ none) :
    Forwards penv host (h ++ (Endpoint.observe penv.cf (r.peers host) (.send t) e).toList)
      { r with todo := Function.update r.todo t todo, peers := Function.update r.peers host e } := by
  have hsender := hf.sender_eq htodo hsender
  refine hf.peer hc hstep (fun p => ?_) (fun {t'} ht => ?_) (fun {t' m'} hm => ?_)
    fun {t' m'} hm => ?_
  · by_cases ht : Tid.inbound p = t
    · subst ht
      cases haccepts : (r.peers host).accepts penv.cf <;>
        simp [Endpoint.observe, Endpoint.Event.takenFrom, haccepts, hsender, inFlight, htodo]
    · have ht' : t ≠ .inbound p := Ne.symm ht
      cases haccepts : (r.peers host).accepts penv.cf <;>
        simp [Endpoint.observe, Endpoint.Event.takenFrom, haccepts, hsender, inFlight, ht, ht']
  · by_cases htt : t' = t
    · simp [htt, htodo]
    · simpa [htt] using ht
  · cases haccepts : (r.peers host).accepts penv.cf <;>
      simp [Endpoint.observe, haccepts, hsender] at hm
    simp [← hm.1, htodo]
  · rw [Endpoint.senders_step hstep] at hm
    have htt : t' ≠ t := by
      rintro rfl
      simp at hm
    simp only [Function.update_of_ne htt] at hm
    obtain ⟨todo', htodo'⟩ := hf.sender hm
    exact ⟨todo', by simpa [htt] using htodo'⟩

theorem Forwards.step {a : ReplAction} (hf : Forwards penv host h r) (hnodup : penv.nodes.Nodup)
    (hstep : r.stepSystem penv a = some r') :
    Forwards penv host (h ++ (observePeer penv host r a r').toList) r' := by
  have hc := hf.consistent.step hstep
  cases stepSystem_moves hstep with
  | broker hs hidle =>
    simpa [observePeer] using hf.broker hs fun t ch ha => (hidle t ch ha).1
  | replicate hs htodo hcode horder =>
    simpa [observePeer] using hf.replicate hnodup hc hs htodo hcode horder
  | @submit t host' m todo e htodo hsender halive hs =>
    by_cases hhost : host' = host
    · subst hhost
      simpa [observePeer, htodo, Endpoint.observe, hsender] using hf.submit hc hs htodo
    · simpa [observePeer, htodo, hhost] using hf.otherPeer hhost hc
  | @drop t host' m todo htodo hsender halive =>
    by_cases hhost : host' = host
    · subst hhost
      simpa [observePeer, htodo, Endpoint.observe, hsender] using hf.pop htodo hsender
    · simpa [observePeer, htodo, hhost] using hf.pop htodo (hf.sender_other htodo hhost)
  | @send t host' m todo e htodo hsender hs =>
    by_cases hhost : host' = host
    · subst hhost
      simpa [observePeer, htodo] using hf.send hc hs htodo hsender
    · simpa [observePeer, htodo, hhost] using
        (hf.pop htodo (hf.sender_other htodo hhost)).otherPeer hhost hc
  | @session host' ch e hs =>
    by_cases hhost : host' = host
    · subst hhost
      simpa [observePeer] using hf.session hc hs (.inl ⟨ch, rfl⟩)
    · simpa [observePeer, hhost] using hf.otherPeer hhost hc
  | @stop host' e hs =>
    by_cases hhost : host' = host
    · subst hhost
      simpa [observePeer, Endpoint.observe] using hf.session hc hs (.inr rfl)
    · simpa [observePeer, hhost] using hf.otherPeer hhost hc

end Steps

/-! ## Runs -/

/-- The events of the endpoint of a peer in a run. -/
def peerEvents (penv : PeersEnv) (host : GoString) (acts : List ReplAction) :
    List (Endpoint.Event Tid Publish) :=
  Transition.observed (stepSystem penv) (observePeer penv host) (start penv) acts

theorem forwards_start : Forwards penv host [] (start penv) := by
  refine ⟨consistent_start, fun p => ?_, fun h => absurd rfl h, fun hm => ?_, fun hm => ?_, rfl,
    Nat.zero_le _⟩
  · exact List.nil_sublist _
  · cases hm
  · cases hm

theorem forwards_run {acts : List ReplAction} (host : GoString) (hnodup : penv.nodes.Nodup)
    (hrun : Transition.run (stepSystem penv) (start penv) acts = some r) :
    Forwards penv host (peerEvents penv host acts) r :=
  Transition.run_history (G := fun _ _ => True) (fun _ _ _ _ _ hf _ hstep => hf.step hnodup hstep)
    forwards_start hrun (Transition.Guarded.of_forall (fun _ _ => trivial) _ _)

theorem Forwards.published_of_accepted {h : List (Endpoint.Event Tid Publish)}
    (hf : Forwards penv host h r) (hm : .accepted (.inbound c) m ∈ h) :
    m ∈ r.broker.published c := by
  refine (hf.order c).subset (List.mem_append_left _ (List.mem_append_left _ ?_))
  exact List.mem_filterMap.2 ⟨_, hm, by simp [Endpoint.Event.takenFrom]⟩

theorem Forwards.published_of_taken {h : List (Endpoint.Event Tid Publish)}
    (hf : Forwards penv host h r) (hm : m ∈ h.filterMap Endpoint.Event.taken) :
    ∃ c, m ∈ r.broker.published c := by
  obtain ⟨ev, hev, hm⟩ := List.mem_filterMap.1 hm
  cases ev with
  | accepted t m' =>
    cases hm
    obtain ⟨c, rfl⟩ := hf.handlers hev
    exact ⟨c, hf.published_of_accepted hev⟩
  | encoded m' ok => cases hm

/-- Of what the endpoint has accepted, the messages of one client are those that its
handler has submitted. -/
theorem Forwards.filter_taken {h : List (Endpoint.Event Tid Publish)} (hf : Forwards penv host h r)
    (p : ConnId) :
    (h.filterMap Endpoint.Event.taken).filter (· ∈ r.broker.published p) =
      h.filterMap (Endpoint.Event.takenFrom (.inbound p)) := by
  rw [List.filter_filterMap]
  refine List.filterMap_congr fun ev hev => ?_
  cases ev with
  | accepted t m =>
    obtain ⟨q, rfl⟩ := hf.handlers hev
    have hq := hf.published_of_accepted hev
    by_cases hqp : q = p
    · subst hqp
      simp [Endpoint.Event.taken, Endpoint.Event.takenFrom, hq]
    · have hp : m ∉ r.broker.published p := fun hp =>
        hqp (hf.consistent.broker.publisher_unique hq hp)
      simp [Endpoint.Event.taken, Endpoint.Event.takenFrom, hqp, hp]
  | encoded m ok => rfl

/-- What a broker sends a peer it sends once, and the messages of one client it sends in
the order in which they were received, whatever sessions fail and whatever is dropped. -/
theorem replication_order {acts : List ReplAction} (hnodup : penv.nodes.Nodup)
    (hrun : Transition.run (stepSystem penv) (start penv) acts = some r) (host : GoString)
    (p : ConnId) :
    ((peerEvents penv host acts).filterMap Endpoint.Event.written).Nodup ∧
      (((peerEvents penv host acts).filterMap Endpoint.Event.written).filter
        (· ∈ r.broker.published p)).Sublist (r.broker.published p) := by
  have hf := forwards_run host hnodup hrun
  have hpre : (peerEvents penv host acts).filterMap Endpoint.Event.written <+:
      (peerEvents penv host acts).filterMap Endpoint.Event.taken := ⟨_, hf.fifo.symm⟩
  have horder : ∀ p, (((peerEvents penv host acts).filterMap Endpoint.Event.written).filter
      (· ∈ r.broker.published p)).Sublist (r.broker.published p) := by
    intro p
    have htaken := hpre.sublist.filter (· ∈ r.broker.published p)
    rw [hf.filter_taken p] at htaken
    refine htaken.trans (List.Sublist.trans ?_ (hf.order p))
    rw [List.append_assoc]
    exact List.sublist_append_left _ _
  refine ⟨List.nodup_iff_count_le_one.2 fun m => ?_, horder p⟩
  -- whoever has sent the message, it is among the messages of that client once
  by_cases hm : m ∈ (peerEvents penv host acts).filterMap Endpoint.Event.written
  · obtain ⟨q, hq⟩ := hf.published_of_taken (hpre.subset hm)
    have hnodup := (hf.consistent.broker.published_nodup q).sublist (horder q)
    have hcount := List.nodup_iff_count_le_one.1 hnodup m
    rwa [List.count_filter (by simpa using hq)] at hcount
  · rw [List.count_eq_zero_of_not_mem hm]
    exact Nat.zero_le _

/-- A client sends two messages. The endpoint connects in between, and both get through. -/
def forwardRun : List ReplAction :=
  (BrokerAction.accept :: sends 0 (.connect (.named (str "a"))) 9 ++
      sends 0 (.publish false ⟨0, .atMostOnce, str "t", 1, str "x"⟩) 5).map (.broker · [str "p"]) ++
    [.submit (.inbound 0), .submit (.inbound 0), .session (str "p") .go,
      .session (str "p") (.dial true), .session (str "p") .go] ++
    (sends 0 (.publish false ⟨0, .atMostOnce, str "t", 1, str "y"⟩) 5).map
      (.broker · [str "p"]) ++
    [.submit (.inbound 0), .submit (.inbound 0), .session (str "p") .go,
      .session (str "p") (.encode true), .session (str "p") .go, .session (str "p") (.encode true)]

theorem replication_order_forwardRun :
    ∃ r m₁ m₂, Transition.run (stepSystem onePeer) (start onePeer) forwardRun = some r ∧
      (peerEvents onePeer (str "p") forwardRun).filterMap Endpoint.Event.written = [m₁, m₂] ∧
      m₁ ≠ m₂ ∧ [m₁, m₂].Sublist (r.broker.published 0) := by
  have heval : (Transition.run (stepSystem onePeer) (start onePeer) forwardRun).map (fun r =>
      (r.broker.published 0, (peerEvents onePeer (str "p") forwardRun).filterMap
        Endpoint.Event.written)) =
      some ([⟨1, .atMostOnce, str "t", 1, str "x"⟩, ⟨2, .atMostOnce, str "t", 1, str "y"⟩],
        [⟨1, .atMostOnce, str "t", 1, str "x"⟩, ⟨2, .atMostOnce, str "t", 1, str "y"⟩]) := by
    decide +kernel
  obtain ⟨r, hrun, heq⟩ := Option.map_eq_some_iff.1 heval
  obtain ⟨hpub, hsent⟩ := Prod.mk.inj heq
  have hsub := (replication_order (by decide) hrun (str "p") 0).2
  rw [hsent, List.filter_eq_self.2 (by simp [hpub])] at hsub
  exact ⟨r, _, _, hrun, hsent, by decide, hsub⟩

/-! ## Nothing is lost while the endpoint is up -/

section Steps

variable {h : List (Endpoint.Event Tid Publish)}

theorem Moves.down {a : ReplAction} (hmove : Moves penv r a r') (h : (r.peers host).Down) :
    (r'.peers host).Down ∧ ((r'.peers host).Up → (r.peers host).Up) := by
  have hpeer : ∀ {host' a e}, Endpoint.step penv.cf (r.peers host') a = some e →
      (Function.update r.peers host' e host).Down ∧
        ((Function.update r.peers host' e host).Up → (r.peers host).Up) := by
    intro host' a e hs
    by_cases hhost : host' = host
    · subst hhost
      simpa using h.step hs
    · rw [Function.update_of_ne (Ne.symm hhost)]
      exact ⟨h, id⟩
  cases hmove with
  | broker | replicate | drop => exact ⟨h, id⟩
  | submit _ _ _ hs => exact hpeer hs
  | send _ _ hs => exact hpeer hs
  | session hs => exact hpeer hs
  | stop hs => exact hpeer hs

theorem down_of_reachable (hr : Transition.Reachable (stepSystem penv) (start penv) r) :
    (r.peers host).Down :=
  hr.invariant (I := fun r => (r.peers host).Down)
    (fun _ _ _ _ hI hstep => ((stepSystem_moves hstep).down hI).1) fun hdead => by cases hdead

/-- An endpoint does not come up again. -/
theorem up_of_step {a : ReplAction} (hr : Transition.Reachable (stepSystem penv) (start penv) r)
    (hstep : r.stepSystem penv a = some r') (hup : (r'.peers host).Up) : (r.peers host).Up :=
  ((stepSystem_moves hstep).down (down_of_reachable hr)).2 hup

/-- An endpoint on which `Encode` fails is not up any more. -/
theorem Moves.not_up_of_failed {a : ReplAction} (hmove : Moves penv r a r')
    (hobs : observePeer penv host r a r' = some (.encoded m false)) : ¬ (r'.peers host).Up := by
  have hpeer : ∀ {host' a e}, host' = host → Endpoint.step penv.cf (r.peers host') a = some e →
      Endpoint.observe penv.cf (r.peers host) a (Function.update r.peers host' e host) =
        some (.encoded m false) → ¬ (Function.update r.peers host' e host).Up := by
    rintro host' a e rfl hs hobs
    rw [Function.update_self] at hobs ⊢
    exact Endpoint.not_up_of_failed hs hobs
  cases hmove with
  | broker | replicate | stop => cases hobs
  | submit htodo hsender | drop htodo hsender =>
    simp only [observePeer, htodo] at hobs
    split at hobs
    · next hhost => simp [Endpoint.observe, ← hhost, hsender] at hobs
    · cases hobs
  | send htodo _ hs =>
    simp only [observePeer, htodo] at hobs
    split at hobs
    · next hhost => exact hpeer hhost hs hobs
    · cases hobs
  | session hs =>
    simp only [observePeer] at hobs
    split at hobs
    · next hhost => exact hpeer hhost hs hobs
    · cases hobs

/-- Nothing that was replicated is lost as long as the endpoint is up: it was accepted, or
some handler is about to submit it. -/
def Keeps (host : GoString) (h : List (Endpoint.Event Tid Publish)) (r : Replicating) : Prop :=
  (r.peers host).Up → ∀ {m}, .replicated m ∈ r.broker.trace →
    m ∈ h.filterMap Endpoint.Event.taken ∨ ∃ t, (host, m) ∈ r.todo t

theorem Keeps.broker {a : BrokerAction} (hk : Keeps host h r)
    (hs : step penv.env r.broker a = some s)
    (hidle : ∀ t ch, a = .run t ch → ∀ m rest, r.broker.code t ≠ .replicate m :: rest) :
    Keeps host h { r with broker := s } := by
  refine fun hup m hm => hk hup ?_
  obtain hold | ⟨c, hc⟩ | ⟨t, ch, i, rest, nx, rfl, hx, rfl⟩ := mem_trace_step hs hm
  · exact hold
  · cases hc
  · exact absurd hx.code (hidle t ch rfl m rest)

theorem Keeps.replicate {order : List GoString} (hk : Keeps host h r) (hhost : host ∈ penv.nodes)
    (hs : step penv.env r.broker (.run t ch) = some s) (htodo : r.todo t = [])
    (hcode : r.broker.code t = .replicate m :: rest) (horder : order.Perm penv.nodes) :
    Keeps host h
      { r with broker := s, todo := Function.update r.todo t (order.map (·, m)) } := by
  intro hup m' hm'
  obtain hold | ⟨c, hc⟩ | ⟨t', ch', i, rest', nx, ha, hx, hlog⟩ := mem_trace_step hs hm'
  · refine (hk hup hold).imp_right ?_
    rintro ⟨t', ht'⟩
    have htt : t' ≠ t := by
      rintro rfl
      simp [htodo] at ht'
    exact ⟨t', by simpa [htt] using ht'⟩
  · cases hc
  · cases ha
    obtain rfl : i = .replicate m' := hlog
    obtain ⟨hm, -⟩ := List.cons.inj (hcode.symm.trans hx.code)
    obtain rfl : m = m' := by simpa using hm
    exact .inr ⟨t, by simpa using horder.mem_iff.2 hhost⟩

/-- The broker waits, and what some handler has to submit is accepted or stays. -/
theorem Keeps.peers {evs : List (Endpoint.Event Tid Publish)} (hk : Keeps host h r)
    (hbroker : r'.broker = r.broker) (hback : (r'.peers host).Up → (r.peers host).Up)
    (htodo : (r.peers host).Up → ∀ {t m}, (host, m) ∈ r.todo t →
      m ∈ evs.filterMap Endpoint.Event.taken ∨ ∃ t, (host, m) ∈ r'.todo t) :
    Keeps host (h ++ evs) r' := by
  intro hup m hm
  rw [List.filterMap_append, List.mem_append]
  obtain hm | ⟨t, hm⟩ := hk (hback hup) (hbroker ▸ hm)
  · exact .inl (.inl hm)
  · exact (htodo (hback hup) hm).imp_left .inr

/-- What a goroutine has to submit, apart from the first thing. -/
theorem mem_todo_pop {todo : List (GoString × Publish)} {t' : Tid} {x y : GoString × Publish}
    (htodo : r.todo t = x :: todo) (hx : y ≠ x) (h : y ∈ r.todo t') :
    y ∈ Function.update r.todo t todo t' := by
  by_cases ht : t' = t
  · subst ht
    rw [htodo] at h
    simpa [hx] using h
  · simpa [ht] using h

theorem Keeps.step {a : ReplAction} (hk : Keeps host h r) (hf : Forwards penv host h r)
    (hblock : penv.cf.buffOverflowStrategy = bufferOverflowBlock) (hhost : host ∈ penv.nodes)
    (hback : (r'.peers host).Up → (r.peers host).Up) (hstep : r.stepSystem penv a = some r') :
    Keeps host (h ++ (observePeer penv host r a r').toList) r' := by
  cases stepSystem_moves hstep with
  | broker hs hidle =>
    simpa [observePeer] using hk.broker hs fun t ch ha => (hidle t ch ha).2
  | replicate hs htodo hcode horder =>
    simpa [observePeer] using hk.replicate hhost hs htodo hcode horder
  | submit | session | stop => exact hk.peers rfl hback fun _ _ _ h => .inr ⟨_, h⟩
  | @drop t host' m todo htodo hsender halive =>
    refine hk.peers rfl hback fun hup t' m' hm' => .inr ⟨t', mem_todo_pop htodo ?_ hm'⟩
    rintro ⟨⟩
    cases halive.symm.trans hup.1
  | @send t host' m todo e htodo hsender hs =>
    refine hk.peers rfl hback fun hup t' m' hm' => ?_
    by_cases hm : (host, m') = (host', m)
    · obtain ⟨rfl, rfl⟩ := Prod.mk.inj hm
      refine .inl (List.mem_filterMap.2 ⟨.accepted t m', ?_, rfl⟩)
      simp [observePeer, htodo, Endpoint.observe, Endpoint.accepts_of_up hup hblock hs,
        hf.sender_eq htodo hsender]
    · exact .inr ⟨t', mem_todo_pop htodo hm hm'⟩

end Steps

theorem keeps_run {acts : List ReplAction} (hnodup : penv.nodes.Nodup)
    (hblock : penv.cf.buffOverflowStrategy = bufferOverflowBlock) (hhost : host ∈ penv.nodes)
    (hrun : Transition.run (stepSystem penv) (start penv) acts = some r) :
    Keeps host (peerEvents penv host acts) r := by
  refine (Transition.run_history (G := fun _ _ => True)
    (I := fun h r => Forwards penv host h r ∧ Keeps host h r) ?_ ?_ hrun
    (Transition.Guarded.of_forall (fun _ _ => trivial) _ _)).2
  · rintro h r a r' hr ⟨hf, hk⟩ - hstep
    exact ⟨hf.step hnodup hstep, hk.step hf hblock hhost (up_of_step hr hstep) hstep⟩
  · exact ⟨forwards_start, fun _ m hm => by cases hm⟩

/-- As long as the endpoint is up, nothing has failed that it has encoded. -/
theorem encoded_ok {acts : List ReplAction} {ok : Bool}
    (hrun : Transition.run (stepSystem penv) (start penv) acts = some r)
    (hup : (r.peers host).Up) (h : .encoded m ok ∈ peerEvents penv host acts) : ok = true := by
  have hok : (r.peers host).Up → .encoded m false ∉ peerEvents penv host acts := by
    refine Transition.run_history (G := fun _ _ => True)
      (I := fun (h : List (Endpoint.Event Tid Publish)) (r : Replicating) =>
        (r.peers host).Up → .encoded m false ∉ h) ?_ (fun _ => List.not_mem_nil) hrun
      (Transition.Guarded.of_forall (fun _ _ => trivial) _ _)
    rintro h r a r' hr hok - hstep hup hmem
    obtain hold | hnew := List.mem_append.1 hmem
    · exact hok (up_of_step hr hstep hup) hold
    · exact (stepSystem_moves hstep).not_up_of_failed (Option.mem_toList.1 hnew) hup
  cases ok with
  | true => rfl
  | false => exact absurd h (hok hup)

/-- With the block strategy, and as long as no session of the endpoint has failed, every
PUBLISH that was received from a client was encoded for the peer without an error, is
pending at its endpoint, or is still with the handler of the client. -/
theorem replication_complete {acts : List ReplAction} (hnodup : penv.nodes.Nodup)
    (hblock : penv.cf.buffOverflowStrategy = bufferOverflowBlock) (hhost : host ∈ penv.nodes)
    (hrun : Transition.run (stepSystem penv) (start penv) acts = some r)
    (hup : (r.peers host).Up) (hm : m ∈ r.broker.published p) :
    m ∈ (peerEvents penv host acts).filterMap Endpoint.Event.sent ∨
      m ∈ (r.peers host).pending ∨ m ∈ r.inFlight host (.inbound p) ∨
      m ∈ r.broker.toReplicate p := by
  have hf := forwards_run host hnodup hrun
  have hr := hf.consistent.broker
  obtain htodo | hrepl := hr.received_replicated hm
  · exact .inr (.inr (.inr htodo))
  obtain htaken | ⟨t, ht⟩ := keeps_run hnodup hblock hhost hrun hup hrepl
  · rw [hf.fifo, List.mem_append] at htaken
    refine htaken.imp (fun hwritten => ?_) .inl
    obtain ⟨ev, hev, hm⟩ := List.mem_filterMap.1 hwritten
    cases ev with
    | accepted t m' => cases hm
    | encoded m' ok =>
      obtain rfl : ok = true := encoded_ok hrun hup hev
      exact List.mem_filterMap.2 ⟨_, hev, hm⟩
  · -- whoever is about to submit it is the handler of the client
    obtain ⟨q, rfl⟩ := hf.home (List.ne_nil_of_mem ht)
    have hflight : m ∈ r.inFlight host (.inbound q) := List.mem_filterMap.2 ⟨_, ht, by simp⟩
    have hq : m ∈ r.broker.published q :=
      (hf.order q).subset (List.mem_append_left _ (List.mem_append_right _ hflight))
    obtain rfl := hr.publisher_unique hq hm
    exact .inr (.inr (.inl hflight))

/-- The first message was encoded, and the second one is next. -/
theorem replication_complete_forwardRun :
    ∃ r m, Transition.run (stepSystem onePeer) (start onePeer) forwardRun.dropLast = some r ∧
      m ∈ r.broker.published 0 ∧ m ∈ (peerEvents onePeer (str "p")
        forwardRun.dropLast).filterMap Endpoint.Event.sent := by
  have heval : (Transition.run (stepSystem onePeer) (start onePeer) forwardRun.dropLast).map
      (fun r => decide ((r.peers (str "p")).alive = true ∧ (r.peers (str "p")).jobsClosed = false ∧
        (r.peers (str "p")).session ≠ .setDead ∧
        ⟨1, .atMostOnce, str "t", 1, str "x"⟩ ∈ r.broker.published 0 ∧
        r.inFlight (str "p") (.inbound 0) = [] ∧ r.broker.toReplicate 0 = [] ∧
        ⟨1, .atMostOnce, str "t", 1, str "x"⟩ ∉ (r.peers (str "p")).pending)) = some true := by
    decide +kernel
  obtain ⟨r, hrun, heval⟩ := Option.map_eq_some_iff.1 heval
  obtain ⟨halive, hopen, hsession, hpub, hflight, hto, hpending⟩ := of_decide_eq_true heval
  have hmem := replication_complete (by decide) rfl (List.mem_singleton_self _) hrun
    ⟨halive, hopen, hsession⟩ hpub
  rw [hflight, hto] at hmem
  exact ⟨r, _, hrun, hpub, by simpa [hpending] using hmem⟩

end Replicating
