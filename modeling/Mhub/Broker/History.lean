-- SUMMARY: Rules for whole runs of the broker: what every event of the log has in front of it, and how messages get from one goroutine to another.
import Mhub.Base.Log
import Mhub.Broker.Answers
import Mhub.Broker.Objects

/-!
# History

The results about whole runs speak of events and of messages. Two rules lead to them.
For an event it is enough to look at the step that logs it (`Reachable.justified`). A
message is where it was before, or in the code that takes the place of an instruction,
or the instruction hands it to another goroutine (`Executes.mem_code_cases`).

The first use is the way of a PUBLISH into the broker: once it was received, its handler
has it to post, or has posted it.
-/

variable {env : Env} {s s' : State} {t : Tid} {ch : Choice} {i j : Instr} {rest : List Instr}
  {nx : Next} {c : ConnId} {m : Publish}

/-! ## Reasons -/

/-- The rule for what every event of the log has in front of it. -/
theorem Reachable.justified {P : List Event → Event → Prop} (hacc : ∀ pre c, P pre (.accepted c))
    (hlog : ∀ {s t ch i rest nx s' e}, Reachable env s → s.panicked = none →
      Executes env s t ch i rest nx s' → e.LoggedBy s t i → s'.trace = s.trace ++ [e] →
      P s.trace e)
    (hr : Reachable env s) : Justified P s.trace := by
  refine Transition.Reachable.justified State.trace rfl ?_ hr
  intro s a s' hr hstep
  obtain ⟨hp, ⟨-, rfl⟩ | ⟨-, rfl⟩ | ⟨t, ch, i, rest, nx, -, hx⟩⟩ := step_cases hstep
  · exact .inr ⟨.accepted s.nconns, rfl, hacc _ _⟩
  · exact .inl rfl
  · obtain htr | ⟨e, htr, he⟩ := hx.trace
    · exact .inl htr
    · exact .inr ⟨e, htr, hlog hr hp hx he htr⟩

/-- The rule for what an event tells from the step on that logs it. -/
theorem Reachable.since_logged {e : Event} {P : State → Prop} (hr : Reachable env s)
    (he : e ∈ s.trace) (hacc : ∀ c, e ≠ .accepted c)
    (hlog : ∀ {s t ch i rest nx s'}, Reachable env s → Executes env s t ch i rest nx s' →
      e.LoggedBy s t i → s'.trace = s.trace ++ [e] → P s')
    (hkeep : ∀ {s a s'}, Reachable env s → P s → step env s a = some s' → P s') : P s := by
  refine hr.invariant (I := fun s => e ∈ s.trace → P s) ?_ (by simp [init]) he
  intro s a s' hr hI hstep he
  by_cases hold : e ∈ s.trace
  · exact hkeep hr (hI hold) hstep
  · obtain ⟨-, ⟨-, rfl⟩ | ⟨-, rfl⟩ | ⟨t, ch, i, rest, nx, -, hx⟩⟩ := step_cases hstep
    · obtain he | he := List.mem_append.1 he
      · exact absurd he hold
      · exact absurd (List.mem_singleton.1 he) (hacc _)
    · exact absurd he hold
    · obtain htr | ⟨e', htr, hlogged⟩ := hx.trace <;> rw [htr] at he
      · exact absurd he hold
      · obtain rfl := List.mem_singleton.1 ((List.mem_append.1 he).resolve_left hold)
        exact hlog hr hx hlogged htr

/-- A step leaves what was logged before it. -/
theorem step_trace_append {a : BrokerAction} (hstep : step env s a = some s') :
    ∃ es, s'.trace = s.trace ++ es := by
  obtain ⟨-, ⟨-, rfl⟩ | ⟨-, rfl⟩ | ⟨t, ch, i, rest, nx, -, hx⟩⟩ := step_cases hstep
  · exact ⟨[.accepted s.nconns], rfl⟩
  · exact ⟨[], by simp [State.acceptPeer, State.setCode]⟩
  · obtain htr | ⟨e, htr, -⟩ := hx.trace
    · exact ⟨[], by simp [htr]⟩
    · exact ⟨[e], htr⟩

/-! ## Where the code of a goroutine comes from -/

/-- Executing `i` can put `j` into the code of another goroutine. -/
inductive Instr.Hands : Instr → Instr → Prop where
  | persistOutbound {c : ConnId} {j : Job} : Hands (.send c j) (.persistOutbound c j.m)
  | encode {c : ConnId} {j : Job} : Hands (.send c j) (.encode c j)
  | tryPersistOutbound {c : ConnId} {j : Job} : Hands (.trySend c j) (.persistOutbound c j.m)
  | tryEncode {c : ConnId} {j : Job} : Hands (.trySend c j) (.encode c j)
  | handlePost {m : Publish} : Hands (.post m) (.handlePost m)
  | heartbeat {c : ConnId} : Hands (.startHeartbeat c) (.heartbeatLoop c)

theorem Executes.mem_code_cases {t' : Tid} (hx : Executes env s t ch i rest nx s')
    (hj : j ∈ s'.code t') : j ∈ s.code t' ∨ t' = t ∧ j ∈ nx.instrs ∨ t' ≠ t ∧ i.Hands j := by
  by_cases ht : t' = t
  · subst ht
    rw [hx.code_self] at hj
    refine (Next.mem_apply hj).symm.imp (fun hj => ?_) fun hj => .inl ⟨rfl, hj⟩
    rw [hx.code]
    exact List.mem_cons_of_mem _ hj
  · have htouch := hx.touch ht
    generalize s.code t' = l, s'.code t' = l' at htouch hj
    cases htouch with
    | same => exact .inl hj
    | job hi =>
      simp only [handleJob, List.cons_append, List.nil_append, List.mem_cons] at hj
      obtain rfl | rfl | rfl | hj := hj
      · obtain rfl | rfl := hi
        · exact .inr (.inr ⟨ht, .persistOutbound⟩)
        · exact .inr (.inr ⟨ht, .tryPersistOutbound⟩)
      · obtain rfl | rfl := hi
        · exact .inr (.inr ⟨ht, .encode⟩)
        · exact .inr (.inr ⟨ht, .tryEncode⟩)
      · exact .inl (List.mem_cons_self ..)
      · exact .inl (List.mem_cons_of_mem _ hj)
    | post hi =>
      obtain rfl := hi
      simp only [List.cons_append, List.nil_append, List.mem_cons] at hj
      obtain rfl | rfl | hj := hj
      · exact .inr (.inr ⟨ht, .handlePost⟩)
      · exact .inl (List.mem_cons_self ..)
      · exact .inl (List.mem_cons_of_mem _ hj)
    | heartbeat hi =>
      obtain rfl := hi
      obtain rfl := List.mem_singleton.1 hj
      exact .inr (.inr ⟨ht, .heartbeat⟩)

/-- The rule for what every instruction in the code of every goroutine tells. -/
theorem Reachable.forall_code {Q : State → Tid → Instr → Prop} (hloop : ∀ s t, Q s t t.loop)
    (hkeep : ∀ {s a s' t i}, Reachable env s → step env s a = some s' → Q s t i → Q s' t i)
    (hnext : ∀ {s t ch i rest nx s' j}, Reachable env s → Executes env s t ch i rest nx s' →
      Q s t i → Q s' t i → j ∈ nx.instrs → Q s' t j)
    (hhands : ∀ {s t ch i rest nx s' j t'}, Executes env s t ch i rest nx s' →
      Q s' t i → i.Hands j → j ∈ s'.code t' → Q s' t' j)
    (hr : Reachable env s) : ∀ t, ∀ i ∈ s.code t, Q s t i := by
  refine hr.invariant (I := fun s => ∀ t, ∀ i ∈ s.code t, Q s t i) ?_ ?_
  · intro s a s' hr hI hstep t j hj
    obtain ⟨-, ⟨-, rfl⟩ | ⟨-, rfl⟩ | ⟨t₁, ch, i, rest, nx, -, hx⟩⟩ := step_cases hstep
    · obtain hj | rfl := State.mem_code_accept hj
      · exact hkeep hr hstep (hI t j hj)
      · exact hloop _ t
    · obtain hj | rfl := State.mem_code_acceptPeer hj
      · exact hkeep hr hstep (hI t j hj)
      · exact hloop _ t
    · obtain hold | ⟨rfl, hnew⟩ | ⟨-, hhand⟩ := hx.mem_code_cases hj
      · exact hkeep hr hstep (hI t j hold)
      · have hi := hI t i hx.mem_self
        exact hnext hr hx hi (hkeep hr hstep hi) hnew
      · exact hhands hx (hkeep hr hstep (hI t₁ i hx.mem_self)) hhand hj
  · intro t i hi
    cases t with
    | worker w =>
      simp only [init] at hi
      split at hi
      · rw [List.mem_singleton.1 hi]
        exact hloop _ (.worker w)
      · cases hi
    | _ => cases hi

/-! ## The way of a PUBLISH into the broker -/

/-- What a handler has still to do stays until it does it. -/
theorem Executes.inbound_stays (hr : Reachable env s) (hx : Executes env s t ch i rest nx s')
    (hj : j ∈ s.code (.inbound c)) (hne : j ≠ .inboundLoop c) :
    j ∈ s'.code (.inbound c) ∨ t = .inbound c ∧ i = j := by
  by_cases ht : t = .inbound c
  · subst ht
    rw [hx.code] at hj
    obtain rfl | hj := List.mem_cons.1 hj
    · exact .inr ⟨rfl, rfl⟩
    · refine .inl ?_
      rw [hx.code_self]
      cases nx with
      | push is => exact List.mem_append_right _ hj
      | jump l =>
        rw [hx.inbound_jump hr, List.mem_singleton] at hj
        exact absurd hj hne
  · rw [hx.code_inbound (Ne.symm ht)]
    exact .inl hj

theorem Executes.post_logged (hx : Executes env s t ch (.post m) rest nx s') :
    s'.trace = s.trace ++ [Event.posted m] := by
  obtain ⟨-, s₁, hexec, rfl⟩ := hx
  simp only [exec] at hexec
  split at hexec <;> cases hexec
  obtain ⟨posts, code, -, rfl⟩ := State.post_frame ‹_›
  rfl

/-- What the handler of a PUBLISH that was received has to do, it is going to do, or has
done. -/
theorem Reachable.received_done {retain : Bool} {e : Event} (hr : Reachable env s)
    (h : .received c (.publish retain m) ∈ s.trace) (hj : j ∈ handle c (.publish retain m))
    (hloop : j ≠ .inboundLoop c)
    (hdone : ∀ {s t ch rest nx s'}, Executes env s t ch j rest nx s' → e ∈ s'.trace) :
    j ∈ s.code (.inbound c) ∨ e ∈ s.trace := by
  refine hr.since_logged (P := fun s => j ∈ s.code (.inbound c) ∨ e ∈ s.trace) h (by simp) ?_ ?_
  · intro s t ch i rest nx s' hr hx hlog htr
    obtain rfl : i = .inboundLoop c := hlog
    obtain rfl := hx.home hr rfl
    refine .inl ?_
    rw [hx.code_self]
    obtain ⟨p, -, rfl, htr'⟩ | ⟨rfl, rfl⟩ := hx.inboundLoop
    · have hp : p.at s.nextObj = .publish retain m := by simpa using htr'.symm.trans htr
      simp [hp, Next.apply, hj]
    · obtain ⟨-, s₁, hexec, rfl⟩ := hx
      cases hexec
      simp [State.setCode] at htr
  · intro s a s' hr hI hstep
    obtain ⟨-, ⟨-, rfl⟩ | ⟨-, rfl⟩ | ⟨t, ch, i, rest, nx, -, hx⟩⟩ := step_cases hstep
    · refine hI.imp (fun h => ?_) (by simp +contextual [State.accept, State.log, State.setCode])
      rwa [Reachable.accept_code hr (List.ne_nil_of_mem h)]
    · exact hI
    · obtain htodo | hlogged := hI
      · obtain htodo | ⟨rfl, rfl⟩ := hx.inbound_stays hr htodo hloop
        · exact .inl htodo
        · exact .inr (hdone hx)
      · exact .inr (hx.trace_mono hlogged)

/-- A PUBLISH that was received is going to be posted, or was. -/
theorem Reachable.received_posted {retain : Bool} (hr : Reachable env s)
    (h : .received c (.publish retain m) ∈ s.trace) :
    .post m ∈ s.code (.inbound c) ∨ .posted m ∈ s.trace :=
  hr.received_done h (by simp [handle, doPublish]) (by simp) fun hx => by simp [hx.post_logged]

/-! ## What the stores hold -/

theorem StoreCall.apply_eq_some {f : GoString → Option Message} {call : StoreCall}
    {key : GoString} {msg : Message} (h : call.apply f key = some msg) :
    call = .put key msg ∨ f key = some msg := by
  by_cases hkey : key = call.key
  · cases call with
    | put key' msg' =>
      obtain rfl : key = key' := hkey
      obtain rfl : msg' = msg := by simpa [StoreCall.apply] using h
      exact .inl rfl
    | del key' =>
      obtain rfl : key = key' := hkey
      simp [StoreCall.apply] at h
  · rw [StoreCall.apply_of_ne hkey] at h
    exact .inr h

/-- A PUBLISH gets into a store by the handler that received it or by the `outboundLoop`
that is about to send it. -/
theorem Executes.stored_cases {id key : GoString} (hr : Reachable env s)
    (hx : Executes env s t ch i rest nx s') (h : s'.contents id key = some (.publish m)) :
    s.contents id key = some (.publish m) ∨ ∃ d, (s.conns d).store = some id ∧
      (i = .persistInbound d m ∨ i = .persistOutbound d (.publish m)) := by
  obtain heq | ⟨d, hstore, rfl | ⟨call, hcall, heq⟩⟩ := hx.contents_cases hr id
  · exact .inl (heq ▸ h)
  · rw [hx.contents_reset hstore] at h
    cases h
  · rw [heq] at h
    obtain rfl | h := StoreCall.apply_eq_some h
    · refine .inr ⟨d, hstore, ?_⟩
      obtain ⟨p, rfl, hp⟩ | ⟨msg, rfl, hp⟩ := storeCall_eq_some hcall
      · obtain ⟨-, hput⟩ := persistInbound_eq_some hp
        cases hput
        exact .inl rfl
      · obtain ⟨p, rfl, -, hput⟩ | ⟨ack, -, hput⟩ := persistOutbound_eq_some hp <;> cases hput
        exact .inr rfl
    · exact .inl h

/-! ## What `doConnect` queues again -/

/-- What `doConnect` queues again is a PUBLISH from the store of the connection. -/
theorem Executes.mem_redeliver {key : GoString} (hr : Reachable env s)
    (hx : Executes env s t ch (.redeliver c key) rest nx s') (hj : j ∈ nx.instrs) :
    ∃ id m, (s.conns c).store = some id ∧ s.contents id key = some (.publish m) ∧
      j = .submit c (.publish m) := by
  by_cases h : key ≠ [] ∧ (s.conns c).store ≠ none
  · obtain ⟨id, hstore, rfl⟩ := hx.redeliver (.inl h)
    rw [hr.redelivery_eq] at hj
    cases hget : s.contents id key with
    | none => simp [hget, Next.instrs] at hj
    | some msg =>
      obtain ⟨store, hsome, hm⟩ := Option.bind_eq_some_iff.1 hget
      obtain ⟨m, rfl, -, -⟩ := hr.kept hsome key msg hm
      exact ⟨id, m, hstore, hget, by simpa [hget, Next.instrs] using hj⟩
  · -- the call panics
    obtain ⟨-, s₁, hexec, -⟩ := hx
    cases hstore : (s.conns c).store with
    | none =>
      simp only [exec, hstore] at hexec
      cases hexec
      simp [Next.instrs] at hj
    | some id =>
      obtain rfl : key = [] := by simpa [hstore] using h
      simp only [exec, hstore] at hexec
      cases hexec
      simp [Next.instrs] at hj
