-- SUMMARY: From publisher to subscriber: with the block strategy a PUBLISH that was received gets into the queue of everybody who is subscribed to its topic by name and stays so.
import Mhub.Broker.History
import Mhub.Broker.NewSubscriber

/-!
# Delivery

A PUBLISH goes through four hands before it is in the queue of a subscriber: the handler
that has received it posts it, it waits in the channel, a worker takes it and computes
the list of subscribers, and then goes through the list. `State.Underway` says where it
is. As long as the subscription stays and the subscriber is alive, every step leaves the
message underway, or queues it.

The results are for subscriptions to a topic by its name. The list entry of a wildcard
subscription can be overwritten before the worker gets to it.
-/

variable {env : Env} {s s' : State} {t : Tid} {ch : Choice} {i : Instr} {rest : List Instr}
  {nx : Next} {c p : ConnId} {m : Publish} {a : BrokerAction} {topic : GoString}
  {pre post : List Event}

/-! ## On the way -/

/-- Where a message can be that `p` has published and that `c` is going to get. -/
inductive State.Underway (s : State) (p : ConnId) (m : Publish) (c : ConnId) : Prop where
  | received : .post m ∈ s.code (.inbound p) → Underway s p m c
  | posted : m ∈ s.posts → Underway s p m c
  | taken (w : Nat) : .handlePost m ∈ s.code (.worker w) → Underway s p m c
  | begun (w : Nat) : .fanOut m ∈ s.code (.worker w) → Underway s p m c
  | reaching (w : Nat) : s.Reaching w m c → Underway s p m c

/-- Nobody takes the message for a request to delete a retained one. -/
def State.Delivers (s : State) (m : Publish) : Prop :=
  m.payload ≠ [] ∨ s.retainBit m.obj = false

/-- A subscription that nothing cancels stays live. -/
theorem Uncancelled.live (hkeep : Uncancelled topic c post)
    (h : (topic, c) ∈ liveAdds (pre.filterMap Event.call)) :
    (topic, c) ∈ liveAdds ((pre ++ post).filterMap Event.call) := by
  rw [List.filterMap_append]
  exact mem_liveAdds_append h (mt mem_calls.1 hkeep.1) (mt mem_calls.1 hkeep.2)

theorem Executes.posts_keep (hr : Reachable env s) (hx : Executes env s t ch i rest nx s')
    (h : m ∈ s.posts) : m ∈ s'.posts ∨ ∃ w, .handlePost m ∈ s'.code (.worker w) := by
  obtain heq | ⟨m', -, heq⟩ | ⟨rfl, m', heq⟩ := hx.effects.posts
  · exact .inl (heq ▸ h)
  · exact .inl (heq ▸ List.mem_append_left _ h)
  · obtain rfl | h := List.mem_cons.1 (heq ▸ h)
    · obtain ⟨w, -, rfl⟩ := Reachable.worker_of_mem hr hx.mem_self rfl
      exact .inr ⟨w, hx.workerLoop heq⟩
    · exact .inl h

/-- One step of a message on its way. -/
theorem Executes.underway (hblock : env.cf.buffOverflowStrategy = bufferOverflowBlock)
    (hr : Reachable env s) (hx : Executes env s t ch i rest nx s')
    (hstep : step env s a = some s') (hwild : isWildcard m.topicName = false)
    (hlive : (m.topicName, c) ∈ liveAdds s.calls) (hdel : s.Delivers m)
    (hkeep : ∀ call, s'.trace = s.trace ++ [Event.index call] →
      call ≠ .unsub m.topicName c ∧ call ≠ .unsubAll c)
    (halive : (s'.conns c).alive = true) (h : s.Underway p m c) : s'.Underway p m c := by
  cases h with
  | received h =>
    obtain h | ⟨rfl, rfl⟩ := hx.inbound_stays hr h (by simp)
    · exact .received h
    · obtain h | ⟨w, h⟩ := hx.post
      · exact .posted h
      · exact .taken w h
  | posted h =>
    obtain h | ⟨w, h⟩ := hx.posts_keep hr h
    · exact .posted h
    · exact .taken w h
  | taken w h =>
    obtain h | ⟨rfl, rfl⟩ := hx.worker_stays hr h (by simp)
    · exact .taken w h
    · obtain ⟨-, ⟨hbit, hpayload, -⟩ | ⟨-, rfl⟩⟩ := hx.handlePost
      · obtain h | h := hdel
        · exact absurd hpayload h
        · rw [hbit] at h
          cases h
      · refine .begun w ?_
        rw [hx.code_self]
        simp [Next.apply, handleLive]
  | begun w h =>
    obtain h | ⟨rfl, rfl⟩ := hx.worker_stays hr h (by simp)
    · exact .begun w h
    · exact .reaching w (hx.reaches hr hwild hlive)
  | reaching w h => exact .reaching w (h.step hblock hr hstep hkeep halive)

theorem State.Underway.step (hblock : env.cf.buffOverflowStrategy = bufferOverflowBlock)
    (hr : Reachable env s) (hstep : step env s a = some s')
    (hwild : isWildcard m.topicName = false)
    (hlive : (m.topicName, c) ∈ liveAdds s.calls) (hdel : s.Delivers m)
    (hkeep : ∀ call, s'.trace = s.trace ++ [Event.index call] →
      call ≠ .unsub m.topicName c ∧ call ≠ .unsubAll c)
    (halive : (s'.conns c).alive = true) (h : s.Underway p m c) : s'.Underway p m c := by
  obtain ⟨-, ⟨-, rfl⟩ | ⟨-, rfl⟩ | ⟨t, ch, i, rest, nx, -, hx⟩⟩ := step_cases hstep
  · cases h with
    | received h => exact .received (by rwa [hr.accept_code (List.ne_nil_of_mem h)])
    | posted h => exact .posted h
    | taken w h => exact .taken w h
    | begun w h => exact .begun w h
    | reaching w h => exact .reaching w (h.step hblock hr hstep hkeep halive)
  · cases h with
    | received h => exact .received h
    | posted h => exact .posted h
    | taken w h => exact .taken w h
    | begun w h => exact .begun w h
    | reaching w h => exact .reaching w (h.step hblock hr hstep hkeep halive)
  · exact hx.underway hblock hr hstep hwild hlive hdel hkeep halive h

/-- A message that was received is a new object, with the bit it came with, and has still
to be posted. -/
theorem Executes.underway_received {retain : Bool} (hr : Reachable env s)
    (hx : Executes env s t ch (.inboundLoop p) rest nx s')
    (htr : s'.trace = s.trace ++ [Event.received p (.publish retain m)]) :
    s'.Underway p m c ∧ s'.retainBit m.obj = retain ∧ m.obj < s'.nextObj := by
  obtain rfl := hx.home hr rfl
  obtain ⟨-, s₁, hexec, rfl⟩ := hx
  simp only [exec] at hexec
  repeat' split at hexec
  all_goals cases hexec
  · next pk _ =>
    have hpk : pk.at s.nextObj = .publish retain m := by
      simpa [State.log, State.setCode, State.alloc] using htr
    obtain ⟨m', rfl, rfl⟩ : ∃ m', pk = .publish retain m' ∧ { m' with obj := s.nextObj } = m := by
      cases pk <;> simp_all [Packet.at]
    refine ⟨.received ?_, ?_, ?_⟩ <;>
      simp [State.setCode, State.log, State.alloc, Packet.at, Packet.retain, Next.apply, handle,
        doPublish]
  · simp [State.setCode] at htr

/-- A message that was received is on its way to everybody who was subscribed then, as
long as they stay so. -/
theorem Reachable.underway {retain : Bool}
    (hblock : env.cf.buffOverflowStrategy = bufferOverflowBlock)
    (hr : Reachable env s) (hwild : isWildcard m.topicName = false)
    (htr : s.trace = pre ++ .received p (.publish retain m) :: post)
    (hdel : ¬ (retain = true ∧ m.payload = []))
    (hlive : (m.topicName, c) ∈ liveAdds (pre.filterMap Event.call))
    (hkeep : Uncancelled m.topicName c post) (halive : (s.conns c).alive = true) :
    s.Underway p m c := by
  refine (hr.invariant (I := fun s => ∀ post,
    s.trace = pre ++ .received p (.publish retain m) :: post → Uncancelled m.topicName c post →
      (s.conns c).alive = true → s.Underway p m c ∧ s.Delivers m ∧ m.obj < s.nextObj) ?_
    (by simp [init]) post htr hkeep halive).1
  intro s a s' hr hI hstep post htr hkeep halive
  obtain ⟨rfl, rfl, t, ch, i, rest, nx, -, hx, hlog⟩ | ⟨c, hc⟩ | ⟨post₀, es, hold, htr', rfl⟩ :=
    trace_since hstep htr
  · obtain rfl : i = .inboundLoop p := hlog
    obtain ⟨hway, hbit, hobj⟩ := hx.underway_received hr htr
    refine ⟨hway, ?_, hobj⟩
    cases retain with
    | true => exact .inl fun h => hdel ⟨rfl, h⟩
    | false => exact .inr hbit
  · cases hc
  · obtain ⟨hkeep₀, hkeep₁⟩ := hkeep.of_append
    obtain ⟨hway, hdel, hobj⟩ := hI post₀ hold hkeep₀ (alive_of_step hstep halive)
    refine ⟨hway.step hblock hr hstep hwild ?_ hdel ?_ halive,
      hdel.imp_right (step_retainBit hstep hobj),
      Nat.lt_of_lt_of_le hobj (step_nextObj_le hstep)⟩
    · simpa [State.calls, hold, Event.call, List.filterMap_cons] using hkeep₀.live hlive
    · intro call hcall
      obtain rfl : es = [.index call] := List.append_cancel_left (htr'.symm.trans hcall)
      simpa [Uncancelled, eq_comm] using hkeep₁

/-- With the block strategy, a PUBLISH on a topic without wildcards that was received, and
does not ask to delete a retained message, is never lost on its way to a connection that
is subscribed by the name of the topic, stays so and is alive. The handler has it still
to post, it is in the channel, a worker has it, or it was queued for the connection. -/
theorem publish_delivered {retain : Bool}
    (hblock : env.cf.buffOverflowStrategy = bufferOverflowBlock)
    (hr : Reachable env s) (hwild : isWildcard m.topicName = false)
    (htr : s.trace = pre ++ .received p (.publish retain m) :: post)
    (hdel : ¬ (retain = true ∧ m.payload = []))
    (hlive : (m.topicName, c) ∈ liveAdds (pre.filterMap Event.call))
    (hkeep : Uncancelled m.topicName c post) (halive : (s.conns c).alive = true) :
    .post m ∈ s.code (.inbound p) ∨ m ∈ s.posts ∨
      (∃ w, .handlePost m ∈ s.code (.worker w) ∨ ∃ i ∈ s.code (.worker w), i.delivers m = true) ∨
      ∃ w, .queued (.worker w) c (.publish m) ∈ s.trace := by
  cases hr.underway hblock hwild htr hdel hlive hkeep halive with
  | received h => exact .inl h
  | posted h => exact .inr (.inl h)
  | taken w h => exact .inr (.inr (.inl ⟨w, .inl h⟩))
  | begun w h => exact .inr (.inr (.inl ⟨w, .inr ⟨_, h, by simp [Instr.delivers]⟩⟩))
  | reaching w h =>
    by_cases hdone : ∀ i ∈ s.code (.worker w), i.delivers m = false
    · obtain ⟨sl, k, k', hmem, -⟩ | hsending := h
      · have := hdone _ hmem
        simp [Instr.delivers] at this
      · exact .inr (.inr (.inr ⟨w, hsending.queued hdone⟩))
    · push Not at hdone
      obtain ⟨i, hi, hdel⟩ := hdone
      exact .inr (.inr (.inl ⟨w, .inr ⟨i, hi, by simpa using hdel⟩⟩))

/-- Client `0` subscribes to `t`, client `1` publishes on it, and the worker is done with
the message. -/
def acrossRun : List BrokerAction :=
  joinRun 0 (str "a") 7 ++ .accept :: sends 1 (.connect (.named (str "b"))) 9 ++
    sends 1 (.publish false (onT 0)) 5 ++ List.replicate 7 (.run (.worker 0) .go)

theorem publish_delivered_acrossRun :
    ∃ s, Transition.run (step workerEnv) (init workerEnv) acrossRun = some s ∧
      s.code (.worker 0) = [.workerLoop] ∧ s.code (.inbound 1) = [.inboundLoop 1] ∧
      s.posts = [] ∧ ∃ w, .queued (.worker w) 0 (.publish (onT 3)) ∈ s.trace := by
  have heval : (Transition.run (step workerEnv) (init workerEnv) acrossRun).map (fun s => decide (
      s.code (.worker 0) = [.workerLoop] ∧ s.code (.inbound 1) = [.inboundLoop 1] ∧
      s.posts = [] ∧ (s.conns 0).alive = true ∧
      s.trace = s.trace.take 14 ++ .received 1 (.publish false (onT 3)) :: s.trace.drop 15 ∧
      (str "t", 0) ∈ liveAdds ((s.trace.take 14).filterMap Event.call) ∧
      .index (.unsub (str "t") 0) ∉ s.trace.drop 15 ∧ .index (.unsubAll 0) ∉ s.trace.drop 15)) =
      some true := by decide +kernel
  obtain ⟨s, hrun, hdec⟩ := Option.map_eq_some_iff.1 heval
  obtain ⟨hworker, hclient, hposts, halive, htr, hlive, hkeep⟩ := of_decide_eq_true hdec
  have hr : Reachable workerEnv s := ⟨_, hrun⟩
  have hothers : ∀ w, ∀ i ∈ s.code (.worker w), i = .workerLoop := by
    intro w i hi
    have hlt : w < 1 := hr.started (List.ne_nil_of_mem hi)
    obtain rfl : w = 0 := by omega
    simpa [hworker] using hi
  refine ⟨s, hrun, hworker, hclient, hposts, ?_⟩
  obtain h | h | ⟨w, h⟩ | h := publish_delivered rfl hr (by decide +kernel) htr (by decide) hlive
    hkeep halive
  · simp [hclient] at h
  · simp [hposts] at h
  · obtain h | ⟨i, hi, h⟩ := h
    · cases hothers w _ h
    · cases hothers w i hi
      cases h
  · exact h
