-- SUMMARY: What in the loops, handlers and workers can bring the broker down: the three kinds of panics that occur, what must have happened before each, and the kinds that never occur.
import Mhub.Broker.History
import Mhub.Broker.Redelivery
import Mhub.Broker.Registry
import Mhub.Broker.Session

/-!
# Crashes

A panic in any goroutine ends the broker. The goroutines of the connections and the
workers have six operations that can panic: the use of a session that is not there, a
send on a closed jobs channel, the close of one of three channels that may be closed
already, and an index into a key of the store. The panics of an endpoint are a matter of
`Endpoint`; those of the statistics and of the start of the server are not modelled.

Only three of the six ever occur. The deferred functions of the two loops run once, so the jobs
and the heartbeat channel are closed once, and no key of a store is empty. A session is
missing only on a connection whose client has sent no CONNECT at all: if something that
relies on it comes first, the handler does not get back to its loop
(`State.Doomed`).
-/

variable {env : Env} {s s' : State} {t : Tid} {ch : Choice} {i j : Instr} {rest : List Instr}
  {nx : Next} {c : ConnId} {q : Panic}

/-! ## Channels that are closed once -/

/-- Nobody closes a jobs channel that is closed. -/
theorem Reachable.jobsClosed (hr : Reachable env s) (h : (s.conns c).jobsClosed = true) :
    s.code (.inbound c) <:+ [.onTerminate c] := by
  refine hr.invariant (I := fun s => (s.conns c).jobsClosed = true →
    s.code (.inbound c) <:+ [.onTerminate c]) ?_ (by simp [init]) h
  intro s a s' hr hI hstep h
  obtain ⟨-, ⟨-, rfl⟩ | ⟨-, rfl⟩ | ⟨t, ch, i, rest, nx, -, hx⟩⟩ := step_cases hstep
  · have hlt := (Reachable.dead_code hr (Reachable.closed hr h)).1
    simpa [State.accept, State.log, State.setCode, Nat.ne_of_lt hlt] using hI h
  · exact hI h
  · obtain heq | ⟨rfl, -⟩ := (hx.conn c).jobsClosed
    · have hcode := hI (heq ▸ h)
      by_cases ht : .inbound c = t
      · subst ht
        rw [hx.code] at hcode
        obtain rfl : i = .onTerminate c := by simpa using hcode.subset (List.mem_cons_self ..)
        obtain rfl := follows_of_mem_inboundDefer (c := c) (by simp [inboundDefer]) hx.follows
        rw [hx.code_self]
        exact (List.suffix_cons _ rest).trans hcode
      · rwa [hx.code_inbound ht]
    · obtain rfl := hx.home hr rfl
      have hshape := Reachable.shaped hr (.inbound c)
      rw [hx.code] at hshape
      have hsuf := hshape.deferred (by simp [inboundDefer])
      obtain rfl := follows_of_mem_inboundDefer (hsuf.subset (List.mem_cons_self ..)) hx.follows
      obtain rfl : rest = [.onTerminate c] := by
        simpa [inboundDefer, List.suffix_cons_iff] using hsuf
      rw [hx.code_self]
      exact List.suffix_refl _

theorem Executes.heartbeatClosed (hx : Executes env s t ch i rest nx s') (c : ConnId) :
    (s'.conns c).heartbeatClosed = (s.conns c).heartbeatClosed ∨ i = .closeHeartbeat c := by
  have hupd : ∀ {s' : State} {c' k}, s'.conns = Function.update s.conns c' k →
      k.heartbeatClosed = (s.conns c').heartbeatClosed →
      (s'.conns c).heartbeatClosed = (s.conns c).heartbeatClosed := by
    intro s' c' k hs hk
    rw [hs]
    by_cases hc : c = c'
    · subst hc
      simpa using hk
    · simp [hc]
  obtain ⟨-, s₁, h, rfl⟩ := hx
  change (s₁.conns c).heartbeatClosed = _ ∨ _
  cases i <;> simp only [exec, State.callStore] at h
  case post =>
    split at h <;> cases h
    obtain ⟨posts, code, hposts, rfl⟩ := State.post_frame ‹_›
    exact .inl rfl
  case closeHeartbeat c' =>
    by_cases hc : c = c'
    · exact .inr (hc ▸ rfl)
    · split at h <;> cases h <;> exact .inl (by simp [State.panicWith, State.modConn, hc])
  case send | trySend =>
    repeat' split at h
    all_goals cases h
    all_goals first
      | exact .inl rfl
      | obtain ⟨-, rfl⟩ | ⟨-, rest, hcode, rfl⟩ := State.enqueue_eq_some ‹_›
        · exact .inl (hupd rfl rfl)
        · exact .inl rfl
  all_goals repeat' split at h
  all_goals cases h
  all_goals first
    | exact .inl rfl
    | exact .inl (hupd rfl rfl)

/-- Nobody closes a heartbeat channel that is closed. -/
theorem Reachable.heartbeatClosed (hr : Reachable env s) (h : (s.conns c).heartbeatClosed = true) :
    c < s.nconns ∧ s.code (.outbound c) <:+ [.closeConn c, .del c, .unsubAll c] := by
  refine hr.invariant (I := fun s => (s.conns c).heartbeatClosed = true →
    c < s.nconns ∧ s.code (.outbound c) <:+ [.closeConn c, .del c, .unsubAll c]) ?_
    (by simp [init]) h
  intro s a s' hr hI hstep h
  obtain ⟨-, ⟨-, rfl⟩ | ⟨-, rfl⟩ | ⟨t, ch, i, rest, nx, -, hx⟩⟩ := step_cases hstep
  · obtain ⟨hlt, hcode⟩ := hI h
    refine ⟨Nat.lt_succ_of_lt hlt, ?_⟩
    simpa [State.accept, State.log, State.setCode, Nat.ne_of_lt hlt] using hcode
  · exact hI h
  · rw [hx.nconns]
    obtain heq | rfl := hx.heartbeatClosed c
    · obtain ⟨hlt, hcode⟩ := hI (heq ▸ h)
      refine ⟨hlt, ?_⟩
      by_cases ht : .outbound c = t
      · subst ht
        rw [hx.code] at hcode
        have hmem : i ∈ outboundDefer c :=
          List.mem_cons_of_mem _ (hcode.subset (List.mem_cons_self ..))
        obtain rfl := follows_of_mem_outboundDefer hmem hx.follows
        rw [hx.code_self]
        exact (List.suffix_cons i rest).trans hcode
      · have htouch := hx.touch ht
        generalize s.code (.outbound c) = l, s'.code (.outbound c) = l' at htouch hcode
        cases htouch with
        | same => exact hcode
        | job _ => simpa using hcode.subset (List.mem_cons_self ..)
    · obtain rfl := hx.home hr rfl
      refine ⟨Reachable.started hr (t := .outbound c) (by simp [hx.code]), ?_⟩
      have hsender := Reachable.sender hr c
      rw [hx.code] at hsender
      cases hsender with
      | done hi => cases hi
      | left hsuf =>
        obtain rfl := follows_of_mem_outboundDefer (hsuf.subset (List.mem_cons_self ..)) hx.follows
        obtain rfl : rest = [.closeConn c, .del c, .unsubAll c] := by
          simpa [outboundDefer, List.suffix_cons_iff] using hsuf
        rw [hx.code_self]
        exact List.suffix_refl _

/-! ## The keys of a store -/

theorem Executes.storeAll_keys {key : GoString} (hr : Reachable env s)
    (hx : Executes env s t ch i rest nx s') (hj : .redeliver c key ∈ nx.instrs) : key ≠ [] := by
  cases Instr.brings_cases (hx.follows.brings hj)
  obtain ⟨-, s₁, hexec, rfl⟩ := hx
  simp only [exec] at hexec
  repeat' split at hexec
  all_goals cases hexec
  · simp [Next.instrs] at hj
  · next hstore hall =>
    obtain ⟨key', hkey, heq⟩ := List.mem_map.1 hj
    cases heq
    obtain ⟨-, -, -, hne⟩ := hr.entry hstore (hall.subset hkey)
    exact hne

theorem Reachable.redeliver_key {key : GoString} (hr : Reachable env s)
    (h : .redeliver c key ∈ s.code t) : key ≠ [] := by
  refine hr.forall_code (Q := fun _ _ i => ∀ c key, i = .redeliver c key → key ≠ [])
    ?_ ?_ ?_ ?_ t _ h c key rfl
  · rintro s t c key h
    cases t <;> cases h
  · exact fun _ _ h => h
  · rintro s t ch i rest nx s' j hr hx - - hj c key rfl
    exact hx.storeAll_keys hr hj
  · rintro s t ch i rest nx s' j t' - - hhands - c key rfl
    cases hhands

/-! ## Messages before a CONNECT -/

/-- What a handler does before it asks for the session. -/
def Instr.preliminary (c : ConnId) : Instr → Bool
  | .aborted => true
  | .pour c' | .closeStop c' => c' = c
  | _ => false

/-- The handler is going to miss its session, or it is leaving its loop. -/
def Doomed (c : ConnId) (l : List Instr) : Prop :=
  l <:+ inboundDefer c ∨ ∃ l₁ i l₂, l = l₁ ++ i :: l₂ ∧ l₁.all (·.preliminary c) = true ∧
    (i = .authorized c ∨ i = .inboundReturn c)

theorem preliminary_follows (hi : i.preliminary c = true) (h : Follows env i nx) :
    ∃ is, nx = .push is ∧ is.all (·.preliminary c) = true := by
  cases h with
  | falls _ => exact ⟨[], rfl, rfl⟩
  | overRate =>
    obtain rfl : _ = c := by simpa [Instr.preliminary] using hi
    exact ⟨_, rfl, by simp [stop, Instr.preliminary]⟩
  | _ => cases hi

/-- A handler that is doomed does not read another message. -/
theorem Doomed.ne_inboundLoop (h : Doomed c (i :: rest)) : i ≠ .inboundLoop c := by
  rintro rfl
  obtain hsuf | ⟨l₁, j, l₂, hcode, hl₁, hj⟩ := h
  · simpa [inboundDefer] using hsuf.subset (List.mem_cons_self ..)
  · cases l₁ with
    | nil =>
      obtain ⟨rfl, -⟩ := List.cons.inj hcode
      obtain h | h := hj <;> cases h
    | cons j' l₁ =>
      obtain ⟨rfl, -⟩ := List.cons.inj hcode
      cases (Bool.and_eq_true_iff.1 hl₁).1

theorem Doomed.executes (h : Doomed c (s.code (.inbound c))) (hflag : (s.conns c).flag = none)
    (hx : Executes env s t ch i rest nx s') :
    s'.panicked ≠ none ∨ Doomed c (s'.code (.inbound c)) := by
  by_cases ht : .inbound c = t
  · subst ht
    rw [hx.code] at h
    rw [hx.code_self]
    obtain hsuf | ⟨l₁, j, l₂, hcode, hl₁, hj⟩ := h
    · obtain rfl := follows_of_mem_inboundDefer (hsuf.subset (List.mem_cons_self ..)) hx.follows
      exact .inr (.inl ((List.suffix_cons i rest).trans hsuf))
    · cases l₁ with
      | nil =>
        obtain ⟨rfl, rfl⟩ := List.cons.inj hcode
        obtain rfl | rfl := hj
        · refine .inl ?_
          obtain ⟨-, s₁, hexec, rfl⟩ := hx
          simp only [exec, hflag] at hexec
          cases hexec
          simp [State.setCode, State.panicWith]
        · have hf := hx.follows
          cases hf with
          | falls h => cases h
          | inboundReturn => exact .inr (.inl (List.suffix_refl _))
      | cons j' l₁ =>
        obtain ⟨rfl, rfl⟩ := List.cons.inj hcode
        obtain ⟨hi, hl₁⟩ := Bool.and_eq_true_iff.1 hl₁
        obtain ⟨is, rfl, his⟩ := preliminary_follows hi hx.follows
        refine .inr (.inr ⟨is ++ l₁, j, l₂, by simp [Next.apply], ?_, hj⟩)
        rw [List.all_append, his, hl₁]
        rfl
  · rw [hx.code_inbound ht]
    exact .inr h

theorem State.sawConnect_of_received {m : Connect} (h : .received c (.connect m) ∈ s.trace) :
    s.sawConnect c = true :=
  List.any_eq_true.2 ⟨_, h, by simp⟩

theorem Reachable.flag_none (hr : Reachable env s) (h : s.sawConnect c = false) :
    (s.conns c).flag = none := by
  by_contra hne
  obtain ⟨m, hm⟩ := Option.ne_none_iff_exists'.1 hne
  rw [State.sawConnect_of_received (hr.received_connect (.inl hm))] at h
  cases h

/-- A message that relies on a session and comes before any CONNECT. -/
theorem Executes.doomed (hr : Reachable env s) (hx : Executes env s t ch i rest nx s')
    (hfirst : ConnectFirst env c s (.run t ch) = false) :
    i = .inboundLoop c ∧ s'.sawConnect c = false ∧ Doomed c (s'.code (.inbound c)) := by
  simp only [ConnectFirst, hx.code] at hfirst
  cases i with
  | inboundLoop c' =>
    obtain rfl := hx.home hr rfl
    have hcode := hx.code_self
    obtain ⟨p, rfl, rfl, htr⟩ | ⟨rfl, rfl⟩ := hx.inboundLoop
    · simp only [ne_eq, decide_not, Bool.or_eq_false_iff, Bool.not_eq_false', decide_eq_true_eq]
        at hfirst
      obtain ⟨⟨rfl, hsaw⟩, hneeds⟩ := hfirst
      rw [hcode]
      refine ⟨rfl, ?_, ?_⟩
      · cases p <;> simp_all [State.sawConnect, Packet.at, Packet.needsSession]
      · cases p with
        | publish retain m =>
          exact .inr ⟨[.pour c'], _, _, rfl, by simp [Instr.preliminary], .inl rfl⟩
        | subscribe sub => exact .inr ⟨[], _, _, rfl, rfl, .inl rfl⟩
        | disconnect | other => exact .inr ⟨[], _, _, rfl, rfl, .inr rfl⟩
        | _ => cases hneeds
    · simp only [ne_eq, decide_not, Bool.or_eq_false_iff, Bool.not_eq_false', decide_eq_true_eq]
        at hfirst
      obtain ⟨⟨rfl, hsaw⟩, -⟩ := hfirst
      rw [hcode]
      refine ⟨rfl, ?_, .inr ⟨[.aborted], _, _, rfl, rfl, .inr rfl⟩⟩
      obtain ⟨-, s₁, hexec, rfl⟩ := hx
      cases hexec
      exact hsaw
  | _ => cases hfirst

/-- The handler of `c` has its session when it needs it, or no CONNECT came and none will
be read. -/
def State.Sound (env : Env) (s : State) (c : ConnId) : Prop :=
  SessionInv env c s ∨ c < s.nconns ∧ s.sawConnect c = false ∧
    (s.panicked ≠ none ∨ Doomed c (s.code (.inbound c)))

theorem Executes.sound (hr : Reachable env s) (hx : Executes env s t ch i rest nx s')
    (hp : s.panicked = none) (h : s.Sound env c) : s'.Sound env c := by
  obtain hI | ⟨hlt, hsaw, hI⟩ := h
  · cases hfirst : ConnectFirst env c s (.run t ch) with
    | true => exact .inl (hI.executes hr hfirst hx)
    | false =>
      obtain ⟨rfl, hsaw, hdoomed⟩ := hx.doomed hr hfirst
      obtain rfl := hx.home hr rfl
      have hlt := (hr.lifecycle c).lt_nconns hx.mem_self
      exact .inr ⟨hx.nconns ▸ hlt, hsaw, .inr hdoomed⟩
  · have hI := hI.resolve_left fun h => h hp
    have hne : i ≠ .inboundLoop c := by
      rintro rfl
      obtain rfl := hx.home hr rfl
      exact (hx.code ▸ hI).ne_inboundLoop rfl
    exact .inr ⟨hx.nconns ▸ hlt, (hx.sawConnect hne).trans hsaw,
      hI.executes (hr.flag_none hsaw) hx⟩

theorem Reachable.sound (hr : Reachable env s) (c : ConnId) : s.Sound env c := by
  refine hr.invariant (I := fun s => s.Sound env c) ?_ (.inl sessionInv_init)
  intro s a s' hr hI hstep
  obtain ⟨hp, ⟨-, rfl⟩ | ⟨-, rfl⟩ | ⟨t, ch, i, rest, nx, -, hx⟩⟩ := step_cases hstep
  · obtain hI | ⟨hlt, hsaw, hI⟩ := hI
    · exact .inl (hI.accept hr)
    · refine .inr ⟨Nat.lt_succ_of_lt hlt, ?_, hI.imp_right fun hI => ?_⟩
      · simpa [State.sawConnect, State.accept, State.log, State.setCode] using hsaw
      · simpa [State.accept, State.log, State.setCode, Nat.ne_of_lt hlt] using hI
  · obtain hI | hI := hI
    · exact .inl hI.acceptPeer
    · exact .inr hI
  · exact hx.sound hr hp hI

/-! ## Why the broker goes down -/

/-- The last step of a run that ends in a panic. -/
theorem Reachable.raised (hr : Reachable env s) (hp : s.panicked = some q) :
    ∃ s₀ t ch i rest nx, Reachable env s₀ ∧ Executes env s₀ t ch i rest nx s ∧
      q.RaisedBy env.cf s₀ i := by
  refine hr.invariant (I := fun s => s.panicked = some q → ∃ s₀ t ch i rest nx,
    Reachable env s₀ ∧ Executes env s₀ t ch i rest nx s ∧ q.RaisedBy env.cf s₀ i) ?_
    (by simp [init]) hp
  rintro s a s' hr - hstep hp'
  obtain ⟨hp, ⟨-, rfl⟩ | ⟨-, rfl⟩ | ⟨t, ch, i, rest, nx, -, hx⟩⟩ := step_cases hstep
  · cases hp.symm.trans hp'
  · cases hp.symm.trans hp'
  · obtain h | ⟨q', h, hraise⟩ := hx.panicked
    · cases hp.symm.trans (h.symm.trans hp')
    · cases h.symm.trans hp'
      exact ⟨s, t, ch, i, rest, nx, hr, hx, hraise⟩

/-- A panic in the loops and handlers of the connections and in the workers is one of
three. A session is missed on a connection on which no CONNECT was received, a send on a
closed queue is to a connection whose `inboundLoop` is over, and otherwise a connection
was stopped twice. -/
theorem crash_causes (hr : Reachable env s) (hp : s.panicked = some q) :
    ∃ c < s.nconns,
      q = .nilDeref c ∧ (∀ m, .received c (.connect m) ∉ s.trace) ∨
      q = .sendOnClosed c ∧ s.code (.inbound c) <:+ [.onTerminate c] ∨
      q = .closeOfClosedStop c ∧ (s.conns c).stopClosed = true := by
  obtain ⟨s₀, t, ch, i, rest, nx, hr₀, hx, hraise⟩ := hr.raised hp
  cases q with
  | nilDeref c =>
    obtain hI | ⟨hlt, hsaw, -⟩ := hr.sound c
    · exact absurd hp hI.noPanic
    · refine ⟨c, hlt, .inl ⟨rfl, fun m hm => ?_⟩⟩
      rw [State.sawConnect_of_received hm] at hsaw
      cases hsaw
  | sendOnClosed c =>
    have hclosed : (s.conns c).jobsClosed = true := by
      obtain h | ⟨-, h⟩ := (hx.conn c).jobsClosed
      · exact h.trans hraise.2
      · exact h
    exact ⟨c, (hr.dead_code (hr.closed hclosed)).1, .inr (.inl ⟨rfl, hr.jobsClosed hclosed⟩)⟩
  | closeOfClosedStop c =>
    obtain ⟨rfl, hclosed⟩ := hraise
    obtain rfl := hx.home hr₀ rfl
    refine ⟨c, hx.nconns ▸ (hr₀.lifecycle c).lt_nconns hx.mem_self, .inr (.inr ⟨rfl, ?_⟩)⟩
    obtain h | ⟨-, h⟩ := (hx.conn c).stopClosed
    · exact h.trans hclosed
    · exact h
  | closeOfClosedJobs c =>
    obtain ⟨rfl, hclosed⟩ := hraise
    obtain rfl := hx.home hr₀ rfl
    simpa using (hr₀.jobsClosed hclosed).subset hx.mem_self
  | closeOfClosedHeartbeat c =>
    obtain ⟨rfl, hclosed⟩ := hraise
    obtain rfl := hx.home hr₀ rfl
    simpa using (hr₀.heartbeatClosed hclosed).2.subset hx.mem_self
  | indexOutOfRange c =>
    obtain rfl : i = .redeliver c [] := hraise
    exact absurd rfl (hr₀.redeliver_key hx.mem_self)

/-- A client that subscribes before it connects. -/
theorem crash_causes_subscribe :
    ∃ s, Transition.run (step presenceEnv) (init presenceEnv)
        [.accept, .run (.inbound 0) (.recv (.subscribe ⟨1, [(str "t", .atMostOnce)]⟩)),
          .run (.inbound 0) .go] = some s ∧ s.panicked = some (.nilDeref 0) ∧
      ∃ c < s.nconns,
        Panic.nilDeref 0 = .nilDeref c ∧ (∀ m, .received c (.connect m) ∉ s.trace) ∨
        Panic.nilDeref 0 = .sendOnClosed c ∧ s.code (.inbound c) <:+ [.onTerminate c] ∨
        Panic.nilDeref 0 = .closeOfClosedStop c ∧ (s.conns c).stopClosed = true := by
  have heval : (Transition.run (step presenceEnv) (init presenceEnv)
      [.accept, .run (.inbound 0) (.recv (.subscribe ⟨1, [(str "t", .atMostOnce)]⟩)),
        .run (.inbound 0) .go]).map (·.panicked) = some (some (.nilDeref 0)) := by decide +kernel
  obtain ⟨s, hrun, hp⟩ := Option.map_eq_some_iff.1 heval
  exact ⟨s, hrun, hp, crash_causes ⟨_, hrun⟩ hp⟩
