-- SUMMARY: The registry of clients: takeovers and late cleanups delete by client id, and under which schedules an accepted connection stays registered.
import Mhub.Broker.Limit

/-!
# Registry

A connection registers under its client id in `doConnect`, after it has made a
connection found there leave. Deleting an entry goes by client id, not by
connection: the `del` of a taker and the `del` in the old connection's deferred
function both remove whatever they find, also the entry of a successor. And the
second `add` of `doConnect` does not look whether it found the entry taken.

`RegistrySafe` excludes exactly these two. Then an accepted connection leaves the
registry only when it was told to leave or its `outboundLoop` is over.
-/

variable {env : Env} {s s' : State} {t : Tid} {ch : Choice} {i : Instr} {rest : List Instr}
  {nx : Next} {c e : ConnId}

def Event.tellsToLeave (c : ConnId) : Event → Bool
  | .queued _ c' m => c' = c && m = .disconnect
  | _ => false

/-- A Disconnect was queued for the connection. -/
def State.toldToLeave (s : State) (c : ConnId) : Bool := s.trace.any (·.tellsToLeave c)

/-- The connection was accepted, was not told to leave, and is in both its loops. -/
structure State.Live (s : State) (c : ConnId) (f : Connect) : Prop where
  running : s.panicked = none
  flag : (s.conns c).flag = some f
  accepted : .connectReturned c .accepted ∈ s.trace
  stays : s.toldToLeave c = false
  inbound : .inboundLoop c ∈ s.code (.inbound c)
  outbound : .outboundLoop c ∈ s.code (.outbound c)

instance {f : Connect} : Decidable (s.Live c f) :=
  decidable_of_iff (s.panicked = none ∧ (s.conns c).flag = some f ∧
      .connectReturned c .accepted ∈ s.trace ∧ s.toldToLeave c = false ∧
      .inboundLoop c ∈ s.code (.inbound c) ∧ .outboundLoop c ∈ s.code (.outbound c))
    ⟨fun ⟨hp, hf, ha, hs, hi, ho⟩ => ⟨hp, hf, ha, hs, hi, ho⟩,
      fun ⟨hp, hf, ha, hs, hi, ho⟩ => ⟨hp, hf, ha, hs, hi, ho⟩⟩

/-- The step is not a second CONNECT on a connection. -/
def OneConnect (s : State) : BrokerAction → Bool
  | .run (.inbound c) (.recv (.connect _)) =>
    s.trace.all fun
      | .received c' (.connect _) => c' ≠ c
      | _ => true
  | _ => true

/-- The entry under the client id of a connection is free or its own. -/
def State.ownEntry (s : State) (c : ConnId) : Bool :=
  match (s.conns c).flag with
  | none => true
  | some f => s.clients f.clientId = none ∨ s.clients f.clientId = some c

/-- The step does not delete the entry of another connection, and is no `add` that
finds one. -/
def RegistrySafe (s : State) : BrokerAction → Bool
  | .run t _ =>
    match s.code t with
    | .del c :: _ | .add c :: _ => s.ownEntry c
    | _ => true
  | _ => true

theorem Executes.toldToLeave (hx : Executes env s t ch i rest nx s')
    (h : s.toldToLeave c = true) : s'.toldToLeave c = true := by
  obtain htr | ⟨e, htr, -⟩ := hx.trace <;> simp_all [State.toldToLeave]

/-! ## A taker deletes only who was told to leave -/

/-- What is known is that `e` was told to leave. -/
def takeOverOutline (e : ConnId) : Outline Instr Prop where
  pre i told := i = .del e → told
  post i told := told ∨ i = .submitSync e .disconnect ∨ ∃ r, i = .send e ⟨.disconnect, r⟩
  pre_mono h hpre hi := h (hpre hi)
  post_mono h := Or.imp_left h
  le_post := .inl

theorem brings_del (h : i.brings (.del e) = true) :
    (∃ c, i = .addOrTakeOver c) ∨ i.home = some (.outbound e) := by
  cases Instr.brings_cases h with
  | del => exact .inl ⟨_, rfl⟩
  | delOwn hi => obtain rfl | ⟨m, rfl⟩ | rfl := hi <;> exact .inr rfl

theorem takeOverOutline_follows {told : Prop} (hf : Follows env i nx)
    (hi : i.home ≠ some (.outbound e)) : (takeOverOutline e).Ok told nx.instrs := by
  by_cases hmem : .del e ∈ nx.instrs
  · obtain ⟨c, rfl⟩ := (brings_del (hf.brings hmem)).resolve_right hi
    cases hf with
    | falls _ => cases hmem
    | takeOver e' =>
      simp only [Next.instrs, List.mem_cons, reduceCtorEq, Instr.del.injEq, List.not_mem_nil,
        or_false, false_or] at hmem
      subst hmem
      simp [Outline.Ok, takeOverOutline, Next.instrs]
  · exact Outline.ok_of_forall fun j hj a h => absurd (h ▸ hj) hmem

theorem toldToLeave_send {r : Option Nat}
    (hx : Executes env s t ch (.send e ⟨.disconnect, r⟩) rest nx s') :
    s'.toldToLeave e = true ∨ s'.panicked.isSome = true := by
  obtain ⟨-, s₁, hexec, rfl⟩ := hx
  simp only [exec] at hexec
  split at hexec
  · cases hexec
    exact .inr rfl
  · split at hexec <;> cases hexec
    obtain ⟨conns, code, rfl⟩ := State.enqueue_frame ‹_›
    exact .inl (by simp [State.toldToLeave, State.setCode, Event.tellsToLeave])

theorem Reachable.takeOver (hr : Reachable env s) (c e : ConnId) :
    (takeOverOutline e).Ok (s.toldToLeave e = true ∨ s.panicked.isSome = true)
      (s.code (.inbound c)) := by
  refine hr.invariant (I := fun s => (takeOverOutline e).Ok
    (s.toldToLeave e = true ∨ s.panicked.isSome = true) (s.code (.inbound c))) ?_ (by trivial)
  intro s a s' hr hI hstep
  obtain ⟨hp, ⟨-, rfl⟩ | ⟨-, rfl⟩ | ⟨t, ch, i, rest, nx, -, hx⟩⟩ := step_cases hstep
  · have hmono : s.toldToLeave e = true → s.accept.toldToLeave e = true := by
      simp_all [State.toldToLeave, State.accept, State.log, State.setCode]
    exact (State.accept_outline hI fun _ h => by cases h).mono (Or.imp_left hmono)
  · exact hI
  · have hmono : (s.toldToLeave e = true ∨ s.panicked.isSome = true) →
        s'.toldToLeave e = true ∨ s'.panicked.isSome = true := by
      intro h
      exact .inl (hx.toldToLeave (h.resolve_right (by simp [hp])))
    refine hx.outline hI hmono fun ht => ⟨takeOverOutline_follows hx.follows ?_, ?_⟩
    · intro hhome
      cases (hx.home hr hhome).symm.trans ht
    · rintro (h | rfl | ⟨r, rfl⟩)
      · exact Outline.after_of (hmono h)
      · -- the send comes next
        cases hx.follows with
        | falls hf => cases hf
        | submitSync r => exact .inl (.inr (.inr ⟨_, rfl⟩))
      · exact Outline.after_of (toldToLeave_send hx)

/-! ## One CONNECT on each connection -/

theorem mem_handle_connectValidate {p : Packet} {m : Connect}
    (h : .connectValidate c m ∈ handle c p) : p = .connect m := by
  cases p <;> simp [handle, doConnect, doPublish, doSubscribe, doUnsubscribe, doPublishAck] at h
  subst h
  rfl

theorem brings_connectValidate {m : Connect} (h : i.brings (.connectValidate c m) = true) :
    i = .inboundLoop c := by
  cases Instr.brings_cases h with
  | connectValidate => rfl

theorem brings_connectLimit {m : Connect} {rc : ReturnCode}
    (h : i.brings (.connectLimit c m rc) = true) : i = .connectValidate c m := by
  cases Instr.brings_cases h with
  | connectLimit => rfl

/-- A CONNECT is handled before the next message is read. -/
theorem Reachable.connectValidate {m : Connect} (hr : Reachable env s)
    (h : .connectValidate c m ∈ s.code (.inbound c)) :
    s.code (.inbound c) = [.connectValidate c m, .inboundLoop c] := by
  refine hr.invariant (I := fun s => .connectValidate c m ∈ s.code (.inbound c) →
    s.code (.inbound c) = [.connectValidate c m, .inboundLoop c]) ?_ (fun h => by cases h) h
  intro s a s' hr hI hstep hmem
  obtain ⟨-, ⟨-, rfl⟩ | ⟨-, rfl⟩ | ⟨t, ch, i, rest, nx, -, hx⟩⟩ := step_cases hstep
  · by_cases hc : c = s.nconns
    · simp [State.accept, State.log, State.setCode, hc] at hmem
    · simp only [State.accept, State.log, State.setCode, ne_eq, Tid.inbound.injEq, hc,
        not_false_eq_true, Function.update_of_ne, reduceCtorEq] at hmem ⊢
      exact hI hmem
  · exact hI hmem
  · by_cases ht : .inbound c = t
    · subst ht
      rw [hx.code_self] at hmem ⊢
      obtain hnew | hold := Next.mem_apply hmem
      · obtain rfl := brings_connectValidate (hx.follows.brings hnew)
        have hshape := Reachable.shaped hr (.inbound c)
        rw [hx.code] at hshape
        obtain rfl := Tid.Shaped.rest_of_loop (t := .inbound c) hshape
        cases hx.follows with
        | falls hf => cases hf
        | recv p =>
          have hhandle := (List.mem_append.1 hnew).resolve_right (by simp)
          obtain rfl := mem_handle_connectValidate hhandle
          rfl
        | recvErr => simp [Next.instrs] at hnew
      · have hcode := hI (by rw [hx.code]; exact List.mem_cons_of_mem _ hold)
        rw [hx.code] at hcode
        obtain ⟨-, rfl⟩ := List.cons.inj hcode
        simp at hold
    · rw [hx.code_inbound ht] at hmem ⊢
      exact hI hmem

/-- `doConnect` is called for a CONNECT that was just read. -/
theorem Executes.connect {m : Connect} (hx : Executes env s t ch i rest nx s')
    (h : .connectValidate c m ∈ nx.instrs) :
    i = .inboundLoop c ∧ ch = .recv (.connect m) ∧
      s'.trace = s.trace ++ [Event.received c (.connect m)] := by
  obtain rfl := brings_connectValidate (hx.follows.brings h)
  obtain ⟨p, rfl, rfl, htr⟩ | ⟨-, rfl⟩ := hx.inboundLoop
  · have hhandle := (List.mem_append.1 h).resolve_right (by simp)
    have hp := mem_handle_connectValidate hhandle
    rw [hp] at htr
    exact ⟨rfl, congrArg _ (Packet.at_eq_connect.1 hp), htr⟩
  · simp [Next.instrs] at h

/-- A message that was just read is handled next. -/
theorem Executes.received {p : Packet} (hx : Executes env s t ch i rest nx s')
    (h : .received c p ∈ s'.trace) (hnew : .received c p ∉ s.trace) :
    i = .inboundLoop c ∧ nx = .push (handle c p ++ [Instr.inboundLoop c]) := by
  obtain rfl := (hx.mem_trace h).resolve_left hnew
  obtain ⟨-, s₁, hexec, rfl⟩ := hx
  simp only [exec] at hexec
  repeat' split at hexec
  all_goals cases hexec
  · have hp := List.mem_singleton.1 ((List.mem_append.1 h).resolve_left hnew)
    rw [(Event.received.inj hp).2]
    exact ⟨rfl, rfl⟩
  · exact absurd h hnew

/-- A connection has a flag, or is about to get it, only after that CONNECT. -/
theorem Reachable.received_connect {m : Connect} (hr : Reachable env s)
    (h : (s.conns c).flag = some m ∨ .connectValidate c m ∈ s.code (.inbound c)) :
    .received c (.connect m) ∈ s.trace := by
  refine hr.invariant (I := fun s =>
    ((s.conns c).flag = some m ∨ .connectValidate c m ∈ s.code (.inbound c)) →
      .received c (.connect m) ∈ s.trace) ?_ ?_ h
  · intro s a s' hr hI hstep h
    obtain ⟨-, ⟨-, rfl⟩ | ⟨-, rfl⟩ | ⟨t, ch, i, rest, nx, -, hx⟩⟩ := step_cases hstep
    · have hold : (s.conns c).flag = some m ∨ .connectValidate c m ∈ s.code (.inbound c) :=
        h.imp_right fun hm => (State.mem_code_accept hm).resolve_right nofun
      exact List.mem_append_left _ (hI hold)
    · exact hI h
    · obtain hflag | hm := h
      · obtain heq | ⟨m', rfl, heq⟩ := (hx.conn c).flag
        · exact hx.trace_mono (hI (.inl (heq ▸ hflag)))
        · obtain rfl := hx.home hr rfl
          obtain rfl := Option.some.inj (heq.symm.trans hflag)
          exact hx.trace_mono (hI (.inr hx.mem_self))
      · obtain hold | ⟨rfl, hnew⟩ | hgets := hx.mem_code hm
        · exact hx.trace_mono (hI (.inr hold))
        · simp [(hx.connect hnew).2.2]
        · cases hgets
  · rintro (h | h) <;> cases h

/-- A connection that has a flag was accepted by the server. -/
theorem Reachable.flag_lt {m : Connect} (hr : Reachable env s) (h : (s.conns c).flag = some m) :
    c < s.nconns :=
  (hr.lifecycle c).received _ (hr.received_connect (.inl h))

/-! ## Registered connections -/

/-- The connection is registered, or it was told to leave or has left its
`outboundLoop`. -/
def State.Registered (s : State) (c : ConnId) : Prop :=
  ∃ f, (s.conns c).flag = some f ∧
    (s.clients f.clientId = some c ∨ s.toldToLeave c = true ∨
      .outboundLoop c ∉ s.code (.outbound c))

/-- What is known is that `c` is registered. -/
def registryOutline (c : ConnId) : Outline Instr Prop where
  pre i registered := (∃ rc, i = .connectReturn c rc) → registered
  post i registered := registered ∨ i = .add c
  pre_mono h hpre hi := h (hpre hi)
  post_mono h := Or.imp_left h
  le_post := .inl

structure RegistryInv (c : ConnId) (s : State) : Prop where
  /-- The flag is not yet set when a CONNECT comes. -/
  fresh : ∀ m, .connectValidate c m ∈ s.code (.inbound c) → (s.conns c).flag = none
  outline : (registryOutline c).Ok (s.Registered c ∨ s.panicked.isSome = true)
    (s.code (.inbound c))
  returned : ∀ rc, .connectReturned c rc ∈ s.trace → s.Registered c

theorem registryOutline_connectBody {cf : BrokerConfig} {m : Connect} {rc : ReturnCode}
    {registered : Prop} : (registryOutline c).Ok registered (connectBody cf c m rc) := by
  simp only [connectBody]
  split <;> split <;> split <;> simp [Outline.Ok, registryOutline]

theorem registryOutline_follows {registered : Prop} (hf : Follows env i nx) :
    (registryOutline c).Ok registered nx.instrs := by
  by_cases hmem : ∃ rc, .connectReturn c rc ∈ nx.instrs
  · obtain ⟨rc, hmem⟩ := hmem
    obtain ⟨m, rc', rfl⟩ := brings_connectReturn (hf.brings hmem)
    cases hf with
    | falls hf => cases hf
    | limited n => exact registryOutline_connectBody
  · refine Outline.ok_of_forall fun j hj a => ?_
    rintro ⟨rc, rfl⟩
    exact absurd ⟨rc, hj⟩ hmem

theorem RegistryInv.fresh_executes (hr : Reachable env s) (hI : RegistryInv c s)
    (hone : OneConnect s (.run t ch) = true) (hx : Executes env s t ch i rest nx s') (m : Connect)
    (hm : .connectValidate c m ∈ s'.code (.inbound c)) : (s'.conns c).flag = none := by
  obtain hold | ⟨rfl, hnew⟩ | hgets := hx.mem_code hm
  · obtain heq | ⟨m', rfl, -⟩ := (hx.conn c).flag
    · exact heq.trans (hI.fresh m hold)
    · -- the flag is set by the CONNECT itself, which is then no longer there
      obtain rfl := hx.home hr rfl
      have hcode := hr.connectValidate hold
      rw [hx.code] at hcode
      obtain ⟨-, rfl⟩ := List.cons.inj hcode
      rw [hx.code_self] at hm
      cases hx.follows with
      | falls hf => cases hf
      | validated => simp [Next.apply] at hm
  · obtain ⟨rfl, rfl, -⟩ := hx.connect hnew
    have hflag : (s'.conns c).flag = (s.conns c).flag := (hx.conn c).flag.resolve_right (by simp)
    rw [hflag]
    by_contra hne
    obtain ⟨m', hm'⟩ := Option.ne_none_iff_exists'.1 hne
    simpa using List.all_eq_true.1 hone _ (hr.received_connect (.inl hm'))
  · cases hgets

/-- A `del` is run by a taker, or by the connection's own deferred function. -/
theorem Tid.Shaped.del (h : t.Shaped (.del e :: rest)) :
    (∃ c, t = .inbound c) ∨ t = .outbound e ∧ .del e :: rest <:+ outboundDefer e := by
  obtain ⟨body, hl, hbody⟩ | hx := h
  · cases body with
    | nil => cases t <;> cases (List.cons.inj hl).1
    | cons j body =>
      obtain ⟨rfl, -⟩ := List.cons.inj hl
      cases t with
      | inbound c => exact .inl ⟨c, rfl⟩
      | _ => simp [Tid.inBody, Instr.inSender, Instr.inWorker] at hbody
  · cases t with
    | inbound c => exact .inl ⟨c, rfl⟩
    | outbound c =>
      have hmem := hx.subset (List.mem_cons_self ..)
      simp only [outboundDefer, List.mem_cons, reduceCtorEq, Instr.del.injEq, List.not_mem_nil,
        or_false, false_or] at hmem
      subst hmem
      exact .inr ⟨rfl, hx⟩
    | heartbeat c k => simpa using hx _ (List.mem_cons_self ..)
    | worker w =>
      obtain ⟨topic, hx⟩ := hx
      simpa using hx.subset (List.mem_cons_self ..)
    | replay p => cases hx

/-- Whose entry is deleted was told to leave, or has left. -/
theorem left_of_del (hr : Reachable env s) (hp : s.panicked = none)
    (hx : Executes env s t ch (.del c) rest nx s') :
    s'.toldToLeave c = true ∨ .outboundLoop c ∉ s'.code (.outbound c) := by
  have hshape := hr.shaped t
  rw [hx.code] at hshape
  obtain ⟨c', rfl⟩ | ⟨rfl, hsuf⟩ := hshape.del
  · have hok := hr.takeOver c' c
    rw [hx.code] at hok
    exact .inl (hx.toldToLeave ((hok.1 rfl).resolve_right (by simp [hp])))
  · refine .inr ?_
    obtain rfl := follows_of_mem_outboundDefer (hsuf.subset (List.mem_cons_self ..)) hx.follows
    rw [hx.code_self]
    intro hmem
    simpa [outboundDefer] using hsuf.subset (List.mem_cons_of_mem _ hmem)

theorem brings_outboundLoop (h : i.brings (.outboundLoop c) = true) : i = .outboundLoop c := by
  cases Instr.brings_cases h with
  | outboundLoop => rfl

/-- Being registered is stable: only the connection's own cleanup and the takers it
was told about delete its entry. -/
theorem State.Registered.executes (hr : Reachable env s) (hp : s.panicked = none)
    (hI : RegistryInv c s) (hsafe : RegistrySafe s (.run t ch) = true)
    (hx : Executes env s t ch i rest nx s') (h : s.Registered c) : s'.Registered c := by
  obtain ⟨f, hflag, h⟩ := h
  have hflag' : (s'.conns c).flag = some f := by
    obtain heq | ⟨m, rfl, -⟩ := (hx.conn c).flag
    · exact heq.trans hflag
    · obtain rfl := hx.home hr rfl
      have hnone := hI.fresh m (by rw [hx.code]; exact List.mem_cons_self ..)
      rw [hnone] at hflag
      cases hflag
  refine ⟨f, hflag', ?_⟩
  obtain h | h | h := h
  · obtain hcl | ⟨e, f', -, -, hfree, hcl⟩ | ⟨e, f', rfl, hfe, hcl⟩ := hx.effects.clients
    · exact .inl (hcl ▸ h)
    · refine .inl ?_
      rw [hcl, Function.update_of_ne, h]
      intro heq
      rw [← heq, h] at hfree
      cases hfree
    · by_cases heq : f.clientId = f'.clientId
      · -- the step deletes the entry of `c`, so it is a `del` of `c`
        have hown : s.ownEntry e = true := by simpa [RegistrySafe, hx.code] using hsafe
        have hce : c = e := by simpa [State.ownEntry, hfe, ← heq, h] using hown
        subst hce
        exact .inr (left_of_del hr hp hx)
      · exact .inl (by rw [hcl, Function.update_of_ne heq, h])
  · exact .inr (.inl (hx.toldToLeave h))
  · refine .inr (.inr fun hmem => ?_)
    obtain hold | ⟨rfl, hnew⟩ | hgets := hx.mem_code hmem
    · exact h hold
    · obtain rfl := brings_outboundLoop (hx.follows.brings hnew)
      exact h (by rw [hx.code]; exact List.mem_cons_self ..)
    · cases hgets

theorem registered_add (hsafe : RegistrySafe s (.run t ch) = true)
    (hx : Executes env s t ch (.add c) rest nx s') :
    s'.Registered c ∨ s'.panicked.isSome = true := by
  have hown : s.ownEntry c = true := by simpa [RegistrySafe, hx.code] using hsafe
  obtain ⟨-, s₁, hexec, rfl⟩ := hx
  simp only [exec] at hexec
  split at hexec
  · cases hexec
    exact .inr rfl
  next f hflag =>
    cases hexec
    refine .inl ⟨f, hflag, .inl ?_⟩
    simp only [State.ownEntry, hflag, decide_eq_true_eq] at hown
    obtain h | h := hown <;> simp [State.add, State.setCode, h]

theorem RegistryInv.executes (hr : Reachable env s) (hp : s.panicked = none)
    (hI : RegistryInv c s) (hone : OneConnect s (.run t ch) = true)
    (hsafe : RegistrySafe s (.run t ch) = true) (hx : Executes env s t ch i rest nx s') :
    RegistryInv c s' := by
  have hstable : s.Registered c → s'.Registered c :=
    State.Registered.executes hr hp hI hsafe hx
  have hmono : (s.Registered c ∨ s.panicked.isSome = true) →
      s'.Registered c ∨ s'.panicked.isSome = true := by
    intro h
    exact .inl (hstable (h.resolve_right (by simp [hp])))
  refine ⟨hI.fresh_executes hr hone hx, ?_, ?_⟩
  · refine hx.outline hI.outline hmono fun _ => ⟨registryOutline_follows hx.follows, ?_⟩
    rintro (h | rfl)
    · exact Outline.after_of (hmono h)
    · exact Outline.after_of (registered_add hsafe hx)
  · intro rc hret
    obtain hret | rfl := hx.mem_trace hret
    · exact hstable (hI.returned rc hret)
    · obtain rfl := hx.home hr rfl
      have hok := hI.outline
      rw [hx.code] at hok
      exact hstable ((hok.1 ⟨rc, rfl⟩).resolve_right (by simp [hp]))

theorem State.Registered.accept (hr : Reachable env s) (h : s.Registered c) :
    s.accept.Registered c := by
  obtain ⟨f, hflag, h⟩ := h
  have hne : c ≠ s.nconns := Nat.ne_of_lt (hr.flag_lt hflag)
  refine ⟨f, hflag, ?_⟩
  obtain h | h | h := h
  · exact .inl h
  · exact .inr (.inl (by simp_all [State.toldToLeave, State.accept, State.log, State.setCode]))
  · exact .inr (.inr (by simpa [State.accept, State.log, State.setCode, hne] using h))

theorem RegistryInv.accept (hr : Reachable env s) (hI : RegistryInv c s) :
    RegistryInv c s.accept where
  fresh m hm := hI.fresh m ((State.mem_code_accept hm).resolve_right nofun)
  outline := (State.accept_outline hI.outline fun _ ⟨_, h⟩ => nomatch h).mono
    (Or.imp_left (State.Registered.accept hr))
  returned rc hret := by
    have hret : .connectReturned c rc ∈ s.trace := by
      simpa [State.accept, State.log, State.setCode] using hret
    exact (hI.returned rc hret).accept hr

theorem registryInv_init : RegistryInv c (init env) where
  fresh m hm := by cases hm
  outline := trivial
  returned rc hret := by cases hret

theorem registryInv_run {as : List BrokerAction}
    (hrun : Transition.run (step env) (init env) as = some s)
    (hone : Transition.Guarded (step env) (OneConnect · ·) (init env) as)
    (hsafe : Transition.Guarded (step env) (RegistrySafe · ·) (init env) as) :
    RegistryInv c s := by
  refine Transition.run_invariant ?_ registryInv_init hrun (hone.and hsafe)
  intro s a s' hr hI hG hstep
  obtain ⟨hp, ⟨-, rfl⟩ | ⟨-, rfl⟩ | ⟨t, ch, i, rest, nx, rfl, hx⟩⟩ := step_cases hstep
  · exact hI.accept hr
  · exact ⟨hI.fresh, hI.outline, hI.returned⟩
  · exact hI.executes hr hp hG.1 hG.2 hx

/-- With one CONNECT on each connection, and in a run whose steps are safe for the
registry, a live connection is the one registered under its client id, so that no
two of them share it. -/
theorem live_registered {as : List BrokerAction}
    (hrun : Transition.run (step env) (init env) as = some s)
    (hone : Transition.Guarded (step env) (OneConnect · ·) (init env) as)
    (hsafe : Transition.Guarded (step env) (RegistrySafe · ·) (init env) as) :
    (∀ c f, s.Live c f → s.clients f.clientId = some c) ∧
    ∀ c c' f f', s.Live c f → s.Live c' f' → f.clientId = f'.clientId → c = c' := by
  have hreg : ∀ c f, s.Live c f → s.clients f.clientId = some c := by
    intro c f hlive
    obtain ⟨f', hflag, h⟩ := (registryInv_run hrun hone hsafe).returned _ hlive.accepted
    cases hflag.symm.trans hlive.flag
    refine h.resolve_right ?_
    rintro (h | h)
    · simp [hlive.stays] at h
    · exact h hlive.outbound
  refine ⟨hreg, fun c c' f f' hlive hlive' heq => ?_⟩
  have hc := hreg c f hlive
  rw [heq, hreg c' f' hlive'] at hc
  exact (Option.some.inj hc).symm

/-- Connection `c` sends a CONNECT for the client `a`, and its `inboundLoop` gets
through `n` instructions of the handler. -/
def connectAs (c : ConnId) (n : Nat) : List BrokerAction :=
  .accept :: .run (.inbound c) (.recv (.connect (.named (str "a")))) ::
    List.replicate n (.run (.inbound c) .go)

/-- The `outboundLoop` of connection 0 sends the one job that is left and gets
through `n` instructions after that. -/
def sendLast (n : Nat) : List BrokerAction :=
  [.run (.outbound 0) .job, .run (.outbound 0) .go, .run (.outbound 0) (.encode true)] ++
    List.replicate n (.run (.outbound 0) .go)

/-- Connection 0 cleans up before the taker goes on. -/
def orderlyTakeOver : List BrokerAction :=
  connectAs 0 9 ++ sendLast 1 ++ connectAs 1 5 ++ sendLast 6 ++
    List.replicate 8 (.run (.inbound 1) .go)

theorem live_registered_orderlyTakeOver :
    ∃ s, Transition.run (step openEnv) (init openEnv) orderlyTakeOver = some s ∧
      s.Live 1 (.named (str "a")) ∧ s.clients (str "a") = some 1 := by
  have heval : (Transition.run (step openEnv) (init openEnv) orderlyTakeOver).map
      (fun s => decide (s.Live 1 (.named (str "a")))) = some true := by decide +kernel
  obtain ⟨s, hrun, hlive⟩ := Option.map_eq_some_iff.1 heval
  have hlive := of_decide_eq_true hlive
  have hreg := live_registered hrun (by decide +kernel) (by decide +kernel)
  exact ⟨s, hrun, hlive, hreg.1 1 _ hlive⟩

/-- Connection 0 cleans up after connection 1 has registered, and deletes its entry.
A third connection of the client finds nobody to take over. -/
def lateCleanup : List BrokerAction :=
  connectAs 0 9 ++ sendLast 1 ++ connectAs 1 5 ++ sendLast 2 ++
    List.replicate 8 (.run (.inbound 1) .go) ++ List.replicate 4 (.run (.outbound 0) .go) ++
    connectAs 2 9

theorem live_twice :
    Transition.Guarded (step openEnv) (OneConnect · ·) (init openEnv) lateCleanup ∧
    (Transition.run (step openEnv) (init openEnv) lateCleanup).map (fun s =>
      decide (s.Live 1 (.named (str "a")) ∧ s.Live 2 (.named (str "a")) ∧
        s.clients (str "a") = some 2)) = some true := by
  decide +kernel
