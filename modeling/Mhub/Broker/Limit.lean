-- SUMMARY: The connection counter is exact, and no more than `MaxConnections` accepted sessions are open at any time.
import Mathlib.Data.Finset.Card
import Mhub.Broker.Effects

/-!
# Connection limit

`doConnect` compares a counter of TCP connections with `MaxConnections` and accepts
some steps later. The bound does not come from the check alone, other connections
come and go in between: at the check the counter is the number of *all* open
connections, so the sessions accepted so far and the one that passes now are
together at most that many. `State.passing` is the set this argument is about.
-/

variable {env : Env} {s s' : State} {c : ConnId}

/-! ## Open connections and sessions -/

def Event.acceptedConn : Event → Option ConnId
  | .accepted c => some c
  | _ => none

/-- The connections for which `clientConnect` has run and `clientDisconnect` has
not. -/
def State.openConns (s : State) : Finset ConnId :=
  {c ∈ (s.trace.filterMap Event.acceptedConn).toFinset | .disconnected c ∉ s.trace}

/-- The open connections on which some CONNECT was accepted. -/
def State.sessions (s : State) : Finset ConnId :=
  {c ∈ s.openConns | .connectReturned c .accepted ∈ s.trace}

/-- The sessions, and the connections whose CONNECT is past its last check and will
be accepted. -/
def State.passing (s : State) : Finset ConnId :=
  {c ∈ s.openConns | .connectReturned c .accepted ∈ s.trace ∨
    .connectReturn c .accepted ∈ s.code (.inbound c)}

theorem State.mem_openConns :
    c ∈ s.openConns ↔ .accepted c ∈ s.trace ∧ .disconnected c ∉ s.trace := by
  have hacc : c ∈ (s.trace.filterMap Event.acceptedConn).toFinset ↔ .accepted c ∈ s.trace := by
    simp only [List.mem_toFinset, List.mem_filterMap]
    constructor
    · intro ⟨e, he, hc⟩
      cases e <;> cases hc
      exact he
    · intro h
      exact ⟨_, h, rfl⟩
  rw [openConns, Finset.mem_filter, hacc]

theorem State.sessions_subset_passing : s.sessions ⊆ s.passing := by
  intro c hc
  simp only [sessions, passing, Finset.mem_filter] at hc ⊢
  exact ⟨hc.1, .inl hc.2⟩

theorem State.passing_subset_openConns : s.passing ⊆ s.openConns :=
  Finset.filter_subset _ _

/-! ## The life of a connection -/

/-- What the log says of a connection, against the state of its `inboundLoop`. -/
structure Lifecycle (s : State) (c : ConnId) : Prop where
  accepted : .accepted c ∈ s.trace ↔ c < s.nconns
  fresh : s.nconns ≤ c → s.code (.inbound c) = []
  disconnected : .disconnected c ∈ s.trace →
    c < s.nconns ∧ s.code (.inbound c) <:+ (inboundDefer c).tail
  returned : ∀ rc, .connectReturned c rc ∈ s.trace → c < s.nconns
  received : ∀ p, .received c p ∈ s.trace → c < s.nconns

theorem Lifecycle.lt_nconns (h : Lifecycle s c) {i : Instr} (hi : i ∈ s.code (.inbound c)) :
    c < s.nconns := by
  by_contra hc
  rw [h.fresh (Nat.le_of_not_lt hc)] at hi
  cases hi

theorem lifecycle_init : Lifecycle (init env) c :=
  ⟨by simp [init], fun _ => rfl, by simp [init], by simp [init], by simp [init]⟩

theorem lifecycle_accept (h : Lifecycle s c) : Lifecycle s.accept c := by
  have hcode : c ≠ s.nconns → s.accept.code (.inbound c) = s.code (.inbound c) := by
    intro hc
    simp [State.accept, State.setCode, State.log, hc]
  have htrace : s.accept.trace = s.trace ++ [Event.accepted s.nconns] := rfl
  have hnconns : s.accept.nconns = s.nconns + 1 := rfl
  refine ⟨?_, ?_, ?_, ?_, ?_⟩
  · rw [htrace, hnconns, List.mem_append, h.accepted, List.mem_singleton, Nat.lt_succ_iff_lt_or_eq,
      Event.accepted.injEq]
  · intro hc
    rw [hcode (Nat.ne_of_gt hc)]
    exact h.fresh (Nat.le_of_succ_le hc)
  · intro hd
    have hd : .disconnected c ∈ s.trace := by simpa [htrace] using hd
    obtain ⟨hlt, hsuf⟩ := h.disconnected hd
    rw [hcode (Nat.ne_of_lt hlt)]
    exact ⟨Nat.lt_succ_of_lt hlt, hsuf⟩
  · intro rc hret
    have hret : .connectReturned c rc ∈ s.trace := by simpa [htrace] using hret
    exact Nat.lt_succ_of_lt (h.returned rc hret)
  · intro p hrec
    have hrec : .received c p ∈ s.trace := by simpa [htrace] using hrec
    exact Nat.lt_succ_of_lt (h.received p hrec)

theorem lifecycle_executes {t : Tid} {ch : Choice} {i : Instr} {rest : List Instr} {nx : Next}
    (hr : Reachable env s) (h : Lifecycle s c) (hx : Executes env s t ch i rest nx s') :
    Lifecycle s' c := by
  have hnconns := hx.nconns
  -- the instruction at the head belongs to the running goroutine
  have hlt : t = .inbound c → c < s.nconns := by
    intro ht
    subst ht
    exact h.lt_nconns (i := i) (by rw [hx.code]; exact List.mem_cons_self ..)
  refine ⟨?_, ?_, ?_, ?_, ?_⟩
  · rw [hnconns, ← h.accepted]
    refine ⟨fun he => (hx.mem_trace he).resolve_right id, hx.trace_mono⟩
  · intro hc
    rw [hnconns] at hc
    rw [hx.code_inbound, h.fresh hc]
    intro ht
    exact absurd (hlt ht.symm) (Nat.not_lt.2 hc)
  · intro hd
    rw [hnconns]
    obtain hd | rfl := hx.mem_trace hd
    · obtain ⟨hlt, hsuf⟩ := h.disconnected hd
      refine ⟨hlt, ?_⟩
      by_cases ht : .inbound c = t
      · subst ht
        rw [hx.code] at hsuf
        have hmem : i ∈ inboundDefer c := List.mem_of_mem_tail (hsuf.subset (List.mem_cons_self ..))
        obtain rfl := follows_of_mem_inboundDefer hmem hx.follows
        rw [hx.code_self]
        exact (List.suffix_cons i rest).trans hsuf
      · rw [hx.code_inbound ht]
        exact hsuf
    · obtain rfl := hx.home hr rfl
      refine ⟨hlt rfl, ?_⟩
      have hsuf : .clientDisconnect c :: rest <:+ inboundDefer c := by
        have hshape := hr.shaped (.inbound c)
        rw [hx.code] at hshape
        exact hshape.deferred (List.mem_cons_self ..)
      obtain rfl := follows_of_mem_inboundDefer (List.mem_cons_self ..) hx.follows
      rw [hx.code_self]
      obtain heq | hsuf := List.suffix_cons_iff.1 hsuf
      · exact (List.cons.inj heq).2 ▸ List.suffix_refl _
      · simpa using hsuf.subset (List.mem_cons_self ..)
  · intro rc hret
    rw [hnconns]
    obtain hret | rfl := hx.mem_trace hret
    · exact h.returned rc hret
    · exact hlt (hx.home hr rfl)
  · intro p hrec
    rw [hnconns]
    obtain hrec | rfl := hx.mem_trace hrec
    · exact h.received p hrec
    · exact hlt (hx.home hr rfl)

theorem Reachable.lifecycle (hr : Reachable env s) (c : ConnId) : Lifecycle s c := by
  refine hr.invariant (I := fun s => ∀ c, Lifecycle s c) ?_ (fun c => lifecycle_init) c
  intro s a s' hr hl hstep c
  obtain ⟨-, ⟨-, rfl⟩ | ⟨-, rfl⟩ | ⟨t, ch, i, rest, nx, -, hx⟩⟩ := step_cases hstep
  · exact lifecycle_accept (hl c)
  · exact ⟨(hl c).accepted, (hl c).fresh, (hl c).disconnected, (hl c).returned, (hl c).received⟩
  · exact lifecycle_executes hr (hl c) hx

/-! ## The counter -/

theorem openConns_accept (hr : Reachable env s) :
    s.nconns ∉ s.openConns ∧ s.accept.openConns = insert s.nconns s.openConns := by
  have hl := hr.lifecycle s.nconns
  have hacc : .accepted s.nconns ∉ s.trace := fun h => Nat.lt_irrefl _ (hl.accepted.1 h)
  have hdis : .disconnected s.nconns ∉ s.trace := fun h => Nat.lt_irrefl _ (hl.disconnected h).1
  refine ⟨fun h => hacc (State.mem_openConns.1 h).1, ?_⟩
  ext c
  rw [Finset.mem_insert, State.mem_openConns, State.mem_openConns]
  simp only [State.accept, State.log, State.setCode, List.mem_append, List.mem_singleton,
    Event.accepted.injEq, reduceCtorEq, or_false]
  constructor
  · rintro ⟨h, hd⟩
    exact h.symm.imp_right fun h => ⟨h, hd⟩
  · intro h
    obtain rfl | ⟨h, hd⟩ := h
    · exact ⟨.inr rfl, hdis⟩
    · exact ⟨.inl h, hd⟩

section

variable {t : Tid} {ch : Choice} {i : Instr} {rest : List Instr} {nx : Next}

theorem openConns_executes (hx : Executes env s t ch i rest nx s')
    (hi : ∀ c, i ≠ .clientDisconnect c) : s'.openConns = s.openConns := by
  ext c
  rw [State.mem_openConns, State.mem_openConns]
  have hacc : .accepted c ∈ s'.trace ↔ .accepted c ∈ s.trace :=
    ⟨fun h => (hx.mem_trace h).resolve_right id, hx.trace_mono⟩
  have hdis : .disconnected c ∈ s'.trace ↔ .disconnected c ∈ s.trace :=
    ⟨fun h => (hx.mem_trace h).resolve_right (hi c), hx.trace_mono⟩
  rw [hacc, hdis]

theorem openConns_clientDisconnect (hr : Reachable env s)
    (hx : Executes env s t ch (.clientDisconnect c) rest nx s') :
    c ∈ s.openConns ∧ s'.openConns = s.openConns.erase c := by
  have hl := hr.lifecycle c
  obtain rfl := hx.home hr rfl
  have hhead : .clientDisconnect c ∈ s.code (.inbound c) := by
    rw [hx.code]
    exact List.mem_cons_self ..
  have hdis : Event.disconnected c ∉ s.trace := by
    intro hd
    simpa [inboundDefer] using (hl.disconnected hd).2.subset hhead
  have htrace : s'.trace = s.trace ++ [Event.disconnected c] := by
    obtain ⟨-, s₁, hexec, rfl⟩ := hx
    cases hexec
    rfl
  refine ⟨State.mem_openConns.2 ⟨hl.accepted.2 (hl.lt_nconns hhead), hdis⟩, ?_⟩
  ext c'
  rw [Finset.mem_erase, State.mem_openConns, State.mem_openConns, htrace]
  simp only [List.mem_append, List.mem_singleton, reduceCtorEq, or_false,
    Event.disconnected.injEq, not_or]
  tauto

/-- `stats.clients` is the number of open connections. -/
theorem Reachable.stats_clients (hr : Reachable env s) : s.stats.clients = s.openConns.card := by
  refine hr.invariant (I := fun s => s.stats.clients = s.openConns.card) ?_ rfl
  intro s a s' hr hI hstep
  obtain ⟨-, ⟨-, rfl⟩ | ⟨-, rfl⟩ | ⟨t, ch, i, rest, nx, -, hx⟩⟩ := step_cases hstep
  · obtain ⟨hnew, heq⟩ := openConns_accept hr
    rw [heq, Finset.card_insert_of_notMem hnew, Nat.cast_succ, ← hI]
    rfl
  · exact hI
  · obtain ⟨hi, hst⟩ | ⟨c, rfl, hst⟩ := hx.effects.stats_clients
    · rw [hst, hI, openConns_executes hx hi]
    · obtain ⟨hmem, heq⟩ := openConns_clientDisconnect hr hx
      rw [hst, hI, heq, Finset.card_erase_of_mem hmem,
        Nat.cast_pred (Finset.card_pos.2 ⟨c, hmem⟩)]

/-! ## The bound -/

theorem brings_connectReturn {rc : ReturnCode} (h : i.brings (.connectReturn c rc) = true) :
    ∃ m rc', i = .connectLimit c m rc' := by
  cases Instr.brings_cases h with
  | connectReturn => exact ⟨_, _, rfl⟩

theorem mem_connectBody {cf : BrokerConfig} {m : Connect} {rc rc' : ReturnCode}
    (h : .connectReturn c rc ∈ connectBody cf c m rc') : rc = rc' := by
  simp only [connectBody] at h
  split at h <;> split at h <;> split at h <;> simpa using h

theorem checkLimit_accepted {cf : BrokerConfig} {clients : Int} {rc : ReturnCode}
    (hM : 0 < cf.maxConnections) (h : checkLimit cf clients rc = .accepted) :
    clients ≤ cf.maxConnections := by
  by_contra hlt
  simp [checkLimit, hM, Int.lt_of_not_ge hlt] at h

/-- Either nobody new passes, or somebody has just passed the check. -/
theorem passing_executes (hM : 0 < env.cf.maxConnections) (hr : Reachable env s)
    (hx : Executes env s t ch i rest nx s') :
    s'.passing ⊆ s.passing ∨
      s'.openConns = s.openConns ∧ s.stats.clients ≤ env.cf.maxConnections := by
  by_cases hpass : ∃ c, .connectReturn c .accepted ∈ nx.instrs
  · obtain ⟨c, hc⟩ := hpass
    obtain ⟨m, rc, rfl⟩ := brings_connectReturn (hx.follows.brings hc)
    refine .inr ⟨openConns_executes hx nofun, ?_⟩
    obtain ⟨-, s₁, hexec, -⟩ := hx
    cases hexec
    exact checkLimit_accepted hM (mem_connectBody hc).symm
  · refine .inl ?_
    intro c hc
    simp only [State.passing, Finset.mem_filter, State.mem_openConns] at hc ⊢
    obtain ⟨⟨hacc, hdis⟩, hret⟩ := hc
    refine ⟨⟨(hx.mem_trace hacc).resolve_right id, fun h => hdis (hx.trace_mono h)⟩, ?_⟩
    obtain hret | hcode := hret
    · -- the acceptance may be logged just now
      obtain hret | rfl := hx.mem_trace hret
      · exact .inl hret
      · obtain rfl := hx.home hr rfl
        rw [hx.code]
        exact .inr (List.mem_cons_self ..)
    · by_cases ht : .inbound c = t
      · subst ht
        rw [hx.code_self] at hcode
        obtain hcode | hcode := Next.mem_apply hcode
        · exact absurd ⟨c, hcode⟩ hpass
        · rw [hx.code]
          exact .inr (List.mem_cons_of_mem _ hcode)
      · rw [hx.code_inbound ht] at hcode
        exact .inr hcode

end

theorem passing_accept (hr : Reachable env s) : s.accept.passing ⊆ s.passing := by
  have hl := hr.lifecycle s.nconns
  intro c hc
  simp only [State.passing, Finset.mem_filter, (openConns_accept hr).2, Finset.mem_insert] at hc ⊢
  obtain ⟨hopen, hret⟩ := hc
  have hret' : .connectReturned c .accepted ∈ s.trace ∨
      .connectReturn c .accepted ∈ s.code (.inbound c) := by
    by_cases hc : c = s.nconns
    · subst hc
      exact .inl (by simpa [State.accept, State.log, State.setCode] using hret)
    · simpa [State.accept, State.log, State.setCode, hc] using hret
  refine ⟨hopen.resolve_left ?_, hret'⟩
  rintro rfl
  obtain h | h := hret'
  · exact Nat.lt_irrefl _ (hl.returned _ h)
  · exact Nat.lt_irrefl _ (hl.lt_nconns h)

theorem Reachable.card_passing (hM : 0 < env.cf.maxConnections) (hr : Reachable env s) :
    (s.passing.card : Int) ≤ env.cf.maxConnections := by
  refine hr.invariant (I := fun s => (s.passing.card : Int) ≤ env.cf.maxConnections) ?_ ?_
  · intro s a s' hr hI hstep
    have hmono : s'.passing ⊆ s.passing → (s'.passing.card : Int) ≤ env.cf.maxConnections := by
      intro h
      exact (Int.ofNat_le.2 (Finset.card_le_card h)).trans hI
    obtain ⟨-, ⟨-, rfl⟩ | ⟨-, rfl⟩ | ⟨t, ch, i, rest, nx, -, hx⟩⟩ := step_cases hstep
    · exact hmono (passing_accept hr)
    · exact hmono fun _ h => h
    · obtain h | ⟨hopen, hle⟩ := passing_executes hM hr hx
      · exact hmono h
      · -- all who passed are open, and the check has counted the open ones
        have hcard := Finset.card_le_card (hopen ▸ s'.passing_subset_openConns)
        rw [Reachable.stats_clients hr] at hle
        exact (Int.ofNat_le.2 hcard).trans hle
  · exact hM.le

/-- Whatever connections come and go, the sessions with an accepted CONNECT are at
most `MaxConnections`, and the counter the check reads is exact. -/
theorem sessions_le_maxConnections (hM : 0 < env.cf.maxConnections) (hr : Reachable env s) :
    (s.sessions.card : Int) ≤ env.cf.maxConnections ∧ s.stats.clients = s.openConns.card := by
  refine ⟨?_, hr.stats_clients⟩
  have hcard := Finset.card_le_card s.sessions_subset_passing
  exact (Int.ofNat_le.2 hcard).trans (hr.card_passing hM)

/-- A broker that admits one session. -/
def limitEnv : Env where
  cf := { maxConnections := 1, allowAnonymousConnect := true }
  grow := (· + 1)

/-- Two clients get through the listener. The first connects before the second is
there, the second is turned away by the check. -/
def limitRun : List BrokerAction :=
  .accept :: .run (.inbound 0) (.recv (.connect (.named (str "a")))) ::
    List.replicate 9 (.run (.inbound 0) .go) ++
  .accept :: .run (.inbound 1) (.recv (.connect (.named (str "b")))) ::
    List.replicate 9 (.run (.inbound 1) .go)

theorem sessions_le_maxConnections_limitRun :
    ∃ s, Transition.run (step limitEnv) (init limitEnv) limitRun = some s ∧
      s.sessions = {0} ∧ s.openConns = {0, 1} ∧
      (s.sessions.card : Int) ≤ limitEnv.cf.maxConnections ∧
      s.stats.clients = s.openConns.card := by
  have heval : (Transition.run (step limitEnv) (init limitEnv) limitRun).map
      (fun s => (s.sessions, s.openConns)) = some ({0}, {0, 1}) := by decide +kernel
  obtain ⟨s, hrun, hs⟩ := Option.map_eq_some_iff.1 heval
  obtain ⟨hsessions, hopen⟩ := Prod.mk.inj hs
  exact ⟨s, hrun, hsessions, hopen, sessions_le_maxConnections (by decide) ⟨limitRun, hrun⟩⟩
