-- SUMMARY: A client of the library and the broker, with the connection between them: a call that is given a reply is given that to its own request, whose handler has done its work.
import Mhub.Broker.Wire
import Mhub.Calls

/-!
# A client and the broker

A call of the library returns when `inboundLoop` hands it a reply. That this is the reply
to its own request rests on three things: the calls of a client are one after the other,
the connection keeps the order of what is written to it, and the broker queues at most one
reply for a request. Here they are put together, in a system of the broker, a client and
what is on its way between them. The broker has other connections as well, and may hear
anything on them.

Reading takes what the other side has written first. Either side may fail to read or to
write at any time.
-/

/-! ## The system -/

/-- A client, the broker, and what is on its way on the connection between them. -/
structure Linked where
  broker : State
  client : ClientConn
  /-- What the client has written and the broker has not read yet. -/
  up : List Packet := []
  /-- What the broker has written and the client has not read yet. -/
  down : List Message := []
  /-- The requests of the calls so far, of those that wait for a reply. -/
  calls : List Packet := []
  /-- The replies that the calls were given. -/
  answers : List Message := []

namespace Linked

inductive Action where
  | broker (a : BrokerAction)
  | client (a : ClientConn.Action)
  deriving DecidableEq, Repr

/-- What the broker reads from the connection `c`. -/
def reads (c : ConnId) (s : State) : BrokerAction → Option Packet
  | .run (.inbound d) (.recv p) =>
    if d = c ∧ s.code (.inbound c) = [.inboundLoop c] then some p else none
  | _ => none

/-- What the broker writes to the connection `c`. -/
def writes (c : ConnId) (s : State) : BrokerAction → Option Message
  | .run (.outbound d) (.encode true) =>
    if d = c then
      match s.code (.outbound c) with
      | .encode _ j :: _ => some j.m
      | _ => none
    else none
  | _ => none

/-- Read from one end of a connection. -/
def receive {α : Type} [DecidableEq α] : Option α → List α → Option (List α)
  | none, l => some l
  | some _, [] => none
  | some x, y :: l => if x = y then some l else none

def stepLinked (env : Env) (c : ConnId) (L : Linked) : Action → Option Linked
  | .broker a => do
    let broker ← step env L.broker a
    let up ← receive (reads c L.broker a) L.up
    return { L with broker, up, down := L.down ++ (writes c L.broker a).toList }
  -- the broker sends nothing that the library does not know
  | .client (.inbound .recvOther) => none
  | .client a => do
    let client ← L.client.step a
    let down ← receive (L.client.reads a) L.down
    return { L with
      client, down
      up := L.up ++ (L.client.writes a).toList
      calls := L.calls ++ (L.client.calls a).toList
      answers := L.answers ++ (L.client.answers a).toList }

def start (env : Env) (client : ClientConn) : Linked where
  broker := init env
  client

/-! ## What a step does -/

variable {env : Env} {c : ConnId} {s s' : State} {L L' : Linked}

theorem receive_eq_some {α : Type} [DecidableEq α] {o : Option α} {l l' : List α} :
    receive o l = some l' ↔ l = o.toList ++ l' := by
  cases o with
  | none => simp [receive]
  | some x =>
    cases l with
    | nil => simp [receive]
    | cons y l =>
      by_cases h : x = y
      · simp [receive, h]
      · simp [receive, h, Ne.symm h]

/-- Either the broker makes a step, or the client does. -/
inductive Moves (env : Env) (c : ConnId) (L : Linked) : Linked → Prop where
  | broker {a : BrokerAction} {broker : State} {up : List Packet}
    (hstep : step env L.broker a = some broker)
    (hup : L.up = (reads c L.broker a).toList ++ up) :
    Moves env c L { L with broker, up, down := L.down ++ (writes c L.broker a).toList }
  | client {a : ClientConn.Action} {client : ClientConn} {down : List Message}
    (hstep : L.client.step a = some client)
    (hdown : L.down = (L.client.reads a).toList ++ down) :
    Moves env c L { L with
      client, down
      up := L.up ++ (L.client.writes a).toList
      calls := L.calls ++ (L.client.calls a).toList
      answers := L.answers ++ (L.client.answers a).toList }

theorem moves_of_step {act : Action} (h : stepLinked env c L act = some L') : Moves env c L L' := by
  unfold stepLinked at h
  split at h
  · obtain ⟨broker, hstep, h⟩ := Option.bind_eq_some_iff.1 h
    obtain ⟨up, hup, h⟩ := Option.bind_eq_some_iff.1 h
    cases h
    exact .broker hstep (receive_eq_some.1 hup)
  · cases h
  · obtain ⟨client, hstep, h⟩ := Option.bind_eq_some_iff.1 h
    obtain ⟨down, hdown, h⟩ := Option.bind_eq_some_iff.1 h
    cases h
    exact .client hstep (receive_eq_some.1 hdown)

/-- What the broker logs as received is what it reads. -/
theorem requests_step {a : BrokerAction} (hr : Reachable env s) (hstep : step env s a = some s') :
    s'.requests c = s.requests c ++ ((reads c s a).map (·.at s.nextObj)).toList := by
  obtain ⟨-, ⟨rfl, rfl⟩ | ⟨rfl, rfl⟩ | ⟨t, ch, i, rest, nx, rfl, hx⟩⟩ := step_cases hstep
  · simp [State.requests_accept, reads]
  · simp [reads, State.requests, State.acceptPeer, State.setCode]
  · by_cases hi : i = .inboundLoop c
    · subst hi
      obtain rfl := hx.home hr rfl
      obtain rfl : rest = [] := (hx.code ▸ hr.shaped (.inbound c)).rest_of_loop
      obtain ⟨p, rfl, -, hreq⟩ | ⟨rfl, -, hreq⟩ := hx.requests_inboundLoop
      · simp [hreq, reads, hx.code]
      · simp [hreq, reads]
    · have hnone : reads c s (.run t ch) = none := by
        unfold reads
        split
        · next d p heq =>
          cases heq
          refine if_neg ?_
          rintro ⟨rfl, hcode⟩
          rw [hx.code] at hcode
          exact hi (List.cons.inj hcode).1
        · rfl
      simp [hx.requests hi, hnone]

/-- What was written to the connection `c`. -/
def written (c : ConnId) (s : State) : List Message :=
  ((s.encodedFor c).filter (·.2)).map Prod.fst

theorem encodedFor_encode {t : Tid} {ch : Choice} {rest : List Instr} {nx : Next} {j : Job}
    (hx : Executes env s t ch (.encode c j) rest nx s') :
    ∃ ok, ch = .encode ok ∧ s'.encodedFor c = s.encodedFor c ++ [(j.m, ok)] := by
  obtain ⟨-, s₁, hexec, rfl⟩ := hx
  simp only [exec] at hexec
  split at hexec
  · next ok =>
    cases hexec
    refine ⟨ok, rfl, ?_⟩
    rw [State.encodedFor_append rfl]
    simp [Event.encodedFor]
  · cases hexec

theorem encodedFor_of_ne {t : Tid} {ch : Choice} {i : Instr} {rest : List Instr} {nx : Next}
    (hx : Executes env s t ch i rest nx s') (hi : ∀ j, i ≠ .encode c j) :
    s'.encodedFor c = s.encodedFor c := by
  refine hx.filterMap_trace fun e hlog => ?_
  cases e with
  | encoded c' m retain ok =>
    obtain ⟨j, rfl, -⟩ := hlog
    have hne : c' ≠ c := fun h => hi j (h ▸ rfl)
    simp [Event.encodedFor, hne]
  | _ => rfl

/-- What the broker logs as encoded, without an error, is what it writes. -/
theorem written_step {a : BrokerAction} (hr : Reachable env s) (hstep : step env s a = some s') :
    written c s' = written c s ++ (writes c s a).toList := by
  obtain ⟨-, ⟨rfl, rfl⟩ | ⟨rfl, rfl⟩ | ⟨t, ch, i, rest, nx, rfl, hx⟩⟩ := step_cases hstep
  · simp [written, writes, State.encodedFor, State.accept, State.log, State.setCode,
      Event.encodedFor]
  · simp [written, writes, State.encodedFor, State.acceptPeer, State.setCode]
  · by_cases hi : ∃ j, i = .encode c j
    · obtain ⟨j, rfl⟩ := hi
      obtain rfl := hx.home hr rfl
      obtain ⟨ok, rfl, henc⟩ := encodedFor_encode hx
      cases ok <;> simp [written, writes, henc, hx.code]
    · have hnone : writes c s (.run t ch) = none := by
        unfold writes
        split
        · next d heq =>
          cases heq
          split
          · next hd =>
            subst hd
            rw [hx.code]
            split
            · next c' j rest' hcode =>
              obtain ⟨rfl, -⟩ := List.cons.inj hcode
              cases hx.home hr rfl
              exact absurd ⟨j, rfl⟩ hi
            · rfl
          · rfl
        · rfl
      rw [written, encodedFor_of_ne hx (fun j hj => hi ⟨j, hj⟩), hnone]
      simp [written]

/-! ## Requests and replies -/

/-- The requests go up in the order of the calls, and the replies come down in the order in
which the broker has queued them. -/
structure Exchange (env : Env) (c : ConnId) (L : Linked) : Prop where
  broker : Reachable env L.broker
  room : L.client.out.length ≤ L.client.queueLength
  waits : L.client.Waits L.calls L.answers
  sent : ∃ rest, L.calls.map Packet.content =
      (L.broker.awaitingOf c ++ L.up.filter Packet.awaits).map Packet.content ++ rest ∧
    (L.client.Works → rest = L.client.unsent.map Packet.content)
  got : (written c L.broker).filter Message.isAwaited = L.answers ++
    (L.client.inbound.inHand.toList ++ L.down).filter Message.isAwaited

/-- The client writes the next request, or begins a call. -/
theorem Exchange.sent_client {a : ClientConn.Action} {client : ClientConn} (h : Exchange env c L)
    (hstep : L.client.step a = some client) :
    ∃ rest, (L.calls ++ (L.client.calls a).toList).map Packet.content =
        (L.broker.awaitingOf c ++ (L.up ++ (L.client.writes a).toList).filter Packet.awaits).map
          Packet.content ++ rest ∧
      (client.Works → rest = client.unsent.map Packet.content) := by
  obtain ⟨rest, hsent, hrest⟩ := h.sent
  cases hw : L.client.writes a with
  | some p =>
    have hworks := ClientConn.works_of_writes hstep hw
    obtain ⟨hworks₀, hunsent⟩ := ClientConn.step_unsent hstep h.room hworks
    refine ⟨client.unsent.map Packet.content, ?_, fun _ => rfl⟩
    rw [List.map_append, hsent, hrest hworks₀, List.append_assoc, ← List.map_append, hunsent, hw]
    simp
  | none =>
    refine ⟨rest ++ (L.client.calls a).toList.map Packet.content, ?_, fun hworks => ?_⟩
    · rw [List.map_append, hsent]
      simp
    · obtain ⟨hworks₀, hunsent⟩ := ClientConn.step_unsent hstep h.room hworks
      rw [hrest hworks₀, ← List.map_append, hunsent, hw]
      rfl

theorem Exchange.step (h : Exchange env c L) (hm : Moves env c L L') : Exchange env c L' := by
  cases hm with
  | @broker a broker up hstep hup =>
    have hreq := requests_step (c := c) h.broker hstep
    have hwritten := written_step (c := c) h.broker hstep
    obtain ⟨rest, hsent, hrest⟩ := h.sent
    refine ⟨h.broker.tail hstep, h.room, h.waits, ⟨rest, ?_, hrest⟩, ?_⟩
    · rw [hsent, State.awaitingOf, State.awaitingOf, hreq, hup]
      cases reads c L.broker a with
      | none => simp
      | some p => cases hp : p.awaits <;> simp [hp]
    · rw [hwritten, List.filter_append, h.got]
      simp
  | @client a client down hstep hdown =>
    have hhand := ClientConn.step_inHand hstep
    refine ⟨h.broker, ClientConn.step_room hstep h.room, h.waits.step hstep, ?_, ?_⟩
    · exact h.sent_client hstep
    · rw [h.got, hdown, ← List.append_assoc, List.filter_append, hhand]
      simp

theorem exchange_start {queueLength : Nat} {keepAlive : UInt16} {clientId : GoString} :
    Exchange env c (start env (.newClientConn queueLength keepAlive clientId)) where
  broker := Transition.Reachable.refl
  room := Nat.zero_le _
  waits := ⟨fun _ => ⟨rfl, rfl⟩, fun _ => rfl, fun _ hi => absurd hi List.not_mem_nil,
    Nat.zero_le _⟩
  sent := ⟨[], rfl, fun _ => rfl⟩
  got := rfl

/-- If only the last one can fail, what passes is a first part of the list. -/
theorem exists_eq_filter_append {α : Type} {p : α → Bool} {l : List α}
    (h : ∀ x ∈ l.dropLast, p x = true) : ∃ r, l = l.filter p ++ r := by
  obtain rfl | ⟨l, x, rfl⟩ := l.eq_nil_or_concat
  · exact ⟨[], rfl⟩
  · rw [List.concat_eq_append, List.dropLast_concat] at h
    refine ⟨[x].filter (!p ·), ?_⟩
    cases hp : p x <;> simp [List.filter_eq_self.2 h, hp]

/-- What was written is the first part of what was queued. -/
theorem written_queued (hr : Reachable env s) :
    ∃ ms, s.awaitedFor c = (written c s).filter Message.isAwaited ++ ms := by
  have hwired := hr.wired c
  obtain ⟨xs, hxs⟩ := exists_eq_filter_append (p := fun x : Message × Bool => x.2)
    fun x hx => (hwired.goesOn x hx).1
  have hmap := congrArg (List.map Prod.fst) hxs
  rw [List.map_append] at hmap
  rw [State.awaitedFor, hwired.order, hmap, written]
  simp only [List.append_assoc, List.filter_append]
  exact ⟨_, rfl⟩

/-- When a reply is at hand, there are as many replies as requests and as many requests as
calls, and the last call waits for its reply. -/
theorem Exchange.paired {m : Message} (h : Exchange env c L) (hm : L.client.inbound = .deliver m)
    (hawaited : m.isAwaited = true) :
    L.broker.awaitedFor c = L.answers ++ [m] ∧
      L.calls.map Packet.content = (L.broker.awaitingOf c).map Packet.content ∧
      (L.broker.awaitedFor c).length = (L.broker.awaitingOf c).length ∧
      0 < L.client.user.countP ClientConn.Instr.awaits := by
  obtain ⟨ms, hq⟩ := written_queued (c := c) h.broker
  have hgot := h.got
  simp only [hm, ClientConn.Inbound.inHand, Option.toList_some, List.cons_append, List.nil_append,
    List.filter_cons_of_pos hawaited] at hgot
  rw [hgot, List.append_assoc, List.cons_append] at hq
  obtain ⟨rest, hsent, -⟩ := h.sent
  rw [List.map_append, List.append_assoc] at hsent
  -- no more replies than requests, no more requests than calls, and all calls but one are answered
  have howed := h.broker.owed_le c
  have hsingle := h.waits.single
  have hcount := h.waits.count (by rw [hm]; rfl)
  have hqlen := congrArg List.length hq
  have hsentlen := congrArg List.length hsent
  simp only [List.length_map, List.length_append, List.length_cons] at hsentlen hqlen
  have hms : L.down.filter Message.isAwaited ++ ms = [] :=
    List.eq_nil_of_length_eq_zero (by rw [List.length_append]; omega)
  have hrest : (L.up.filter Packet.awaits).map Packet.content ++ rest = [] :=
    List.eq_nil_of_length_eq_zero (by rw [List.length_append, List.length_map]; omega)
  rw [hms] at hq
  rw [hrest, List.append_nil] at hsent
  exact ⟨hq, hsent, by omega, by omega⟩

/-- A client calls `Connect`, and `Publish` when it was given its reply. -/
def connects : List ClientConn.Action :=
  .call (.connect [] [] []) :: ClientConn.sendsJob ++ [.user]

def publishes (m : Publish) : List ClientConn.Action :=
  [.inbound (.recv (.connAck .accepted)), .inbound .go, .call (.publish false m)] ++
    ClientConn.sendsJob

/-- The broker handles both, and the second reply is about to be handed over. -/
def publishRun (m : Publish) : List Action :=
  .broker .accept :: connects.map .client ++
    (sends 0 (.connect (.named (str "a"))) 9 ++ sendsNext 0).map .broker ++
    (publishes m).map .client ++ (sends 0 (.publish false m) 7 ++ sendsNext 0).map .broker ++
    [.client (.inbound (.recv (.pubAck ⟨.atMostOnce, m.messageId⟩)))]

end Linked
