-- SUMMARY: How often a session is counted as aborted: once for each stop, kick and read error, so a session with two of them is counted twice.
import Mathlib.Data.Multiset.Filter
import Mhub.Broker.Stop

/-!
# Aborted sessions

`aborted` is called at three places: by `stop`, by `heartbeat` after it has kicked a
client, and by `inboundLoop` when it cannot read. The first two make `outboundLoop`
close the connection, so that `inboundLoop` cannot read any more.

Every call is owed to a step of the goroutine that makes it, and the account is kept
for each goroutine: the calls it has made and the calls that are still in its code are
not more than the steps that led to one.
-/

variable {env : Env} {s s' : State} {t : Tid} {ch : Choice} {i : Instr} {rest : List Instr}
  {nx : Next}

/-- The session of a goroutine that can call `aborted`. -/
def Tid.session : Tid → Option ConnId
  | .inbound c | .heartbeat c _ => some c
  | _ => none

inductive AbortMark where
  /-- What the goroutine does now makes it call `aborted`. -/
  | ending (t : Tid)
  /-- The goroutine calls `aborted`. -/
  | aborted (t : Tid)
  deriving DecidableEq, Repr

def AbortMark.ending? : AbortMark → Option Tid
  | .ending t => some t
  | .aborted _ => none

def AbortMark.aborted? : AbortMark → Option Tid
  | .ending _ => none
  | .aborted t => some t

/-- What a step has to do with aborted sessions. -/
def abortMark (env : Env) (s : State) : BrokerAction → Option AbortMark
  | .run t ch =>
    match s.code t with
    | .aborted :: _ => some (.aborted t)
    -- `stop`: `Pour` fails, or the client has too many subscriptions
    | .pour _ :: _ => if ch = .pour false then some (.ending t) else none
    | .countSub c :: _ =>
      if (s.conns c).subN + 1 > env.cf.clientMaxSubscriptions then some (.ending t) else none
    -- the connection cannot be read
    | .inboundLoop _ :: _ => if ch = .recvErr then some (.ending t) else none
    -- the client is over idle and kicked out
    | .heartbeatLoop c :: _ =>
      if ch = .tick true ∧ (s.conns c).alive = true then some (.ending t) else none
    | _ => none
  | _ => none

def abortMarks (env : Env) (as : List BrokerAction) : List AbortMark :=
  Transition.observed (step env) (fun s a _ => abortMark env s a) (init env) as

/-- The sessions that are stopped by a handler, kicked out or found unreadable in a run,
in order, each as often as that happens to it. -/
def endings (env : Env) (as : List BrokerAction) : List ConnId :=
  ((abortMarks env as).filterMap AbortMark.ending?).filterMap Tid.session

/-- The sessions for which `aborted` is called in a run, in order. -/
def abortedSessions (env : Env) (as : List BrokerAction) : List ConnId :=
  ((abortMarks env as).filterMap AbortMark.aborted?).filterMap Tid.session

/-! ## Steps -/

/-- Only `aborted` counts an aborted session. -/
theorem Executes.stats (hx : Executes env s t ch i rest nx s') :
    s'.stats.sessions = s.stats.sessions ∧
      (i = .aborted ∧ nx = .push [] ∧ s'.stats.aborts = s.stats.aborts + 1 ∨
        i ≠ .aborted ∧ s'.stats.aborts = s.stats.aborts) := by
  obtain ⟨-, s₁, h, rfl⟩ := hx
  cases i <;> simp only [exec, State.callStore] at h
  all_goals repeat' split at h
  all_goals cases h
  all_goals try obtain ⟨conns, code, rfl⟩ := State.enqueue_frame ‹_›
  all_goals try obtain ⟨posts, code, -, rfl⟩ := State.post_frame ‹_›
  case aborted => exact ⟨rfl, .inl ⟨rfl, rfl, rfl⟩⟩
  all_goals exact ⟨rfl, .inr ⟨by rintro ⟨⟩, rfl⟩⟩

theorem Reachable.stats_sessions (hr : Reachable env s) : s.stats.sessions = s.nconns := by
  refine hr.invariant (I := fun s => s.stats.sessions = s.nconns) ?_ rfl
  intro s a s' _ hI hstep
  obtain ⟨-, ⟨-, rfl⟩ | ⟨-, rfl⟩ | ⟨t, ch, i, rest, nx, -, hx⟩⟩ := step_cases hstep
  · simp [State.accept, State.log, State.setCode, hI]
  · exact hI
  · rw [hx.stats.1, hx.nconns, hI]

theorem brings_aborted (h : i.brings .aborted = true) :
    (∃ c, i = .inboundLoop c) ∨ (∃ c, i = .heartbeatLoop c) ∨
      ∃ c, i = .pour c ∨ i = .countSub c := by
  cases Instr.brings_cases h with
  | recvErr => exact .inl ⟨_, rfl⟩
  | idle => exact .inr (.inl ⟨_, rfl⟩)
  | stopAborted hi => exact .inr (.inr ⟨_, hi⟩)

theorem aborted_notMem_handle {c : ConnId} {p : Packet} : .aborted ∉ handle c p := by
  cases p <;> simp [handle, doConnect, doPublish, doSubscribe, doUnsubscribe, doPublishAck]

/-- A call of `aborted` that comes into the code is marked, and there is only one. -/
theorem count_aborted_executes (hx : Executes env s t ch i rest nx s')
    (hmem : .aborted ∈ nx.instrs) :
    abortMark env s (.run t ch) = some (.ending t) ∧ nx.instrs.count .aborted = 1 := by
  have hstop {c : ConnId} : (stop c).count .aborted = 1 := by simp [stop]
  have hcode := hx.code
  obtain ⟨s₁, hexec, -⟩ := hx.effect
  obtain ⟨c, rfl⟩ | ⟨c, rfl⟩ | ⟨c, rfl | rfl⟩ := brings_aborted ((exec_follows hexec).brings hmem)
  · obtain ⟨p, -, rfl, -⟩ | ⟨rfl, rfl⟩ := hx.inboundLoop
    · simp [Next.instrs, aborted_notMem_handle] at hmem
    · simp [abortMark, hcode, Next.instrs]
  · simp only [exec] at hexec
    repeat' split at hexec
    all_goals cases hexec
    next overIdle hidle => simp_all [abortMark, Next.instrs]
    next => simp [Next.instrs] at hmem
    next => cases hmem
  · simp only [exec] at hexec
    split at hexec <;> cases hexec
    next ok =>
    cases ok with
    | true => cases hmem
    | false => simp [abortMark, hcode, Next.instrs, hstop]
  · cases hexec
    split at hmem
    next hover => simp [abortMark, hcode, Next.instrs, hstop, hover]
    next => cases hmem

theorem Tid.Shaped.heartbeatLoop {l : List Instr} {c : ConnId} (hl : t.Shaped l)
    (hi : .heartbeatLoop c ∈ l) : t.session = some c := by
  obtain ⟨body, rfl, hbody⟩ | hexit := hl
  · obtain hi | hi := List.mem_append.1 hi
    · have hin := List.all_eq_true.1 hbody _ hi
      cases t <;> cases hin
    · have hloop := List.mem_singleton.1 hi
      cases t <;> cases hloop
      rfl
  · cases t with
    | inbound c' =>
      have hmem : .heartbeatLoop c ∈ inboundDefer c' := hexit.subset hi
      simp [inboundDefer] at hmem
    | outbound c' =>
      have hmem : .heartbeatLoop c ∈ outboundDefer c' := hexit.subset hi
      simp [outboundDefer] at hmem
    | heartbeat c' k =>
      obtain h | ⟨r, h | h⟩ | h := hexit _ hi <;> cases h
    | worker w =>
      obtain ⟨topic, hexit⟩ := hexit
      cases List.mem_singleton.1 (hexit.subset hi)
    | replay p => simp_all [Tid.Exits]

theorem Tid.Started.session {c : ConnId} (h : t.Started env s) (ht : t.session = some c) :
    c < s.nconns := by
  cases t with
  | inbound c' =>
    cases ht
    exact h
  | heartbeat c' k =>
    cases ht
    exact h.1
  | _ => cases ht

/-- A goroutine that is going to call `aborted` belongs to a session. -/
theorem session_of_abortMark (hr : Reachable env s) (hx : Executes env s t ch i rest nx s')
    {m : AbortMark} (hmark : abortMark env s (.run t ch) = some m) (hi : i ≠ .aborted) :
    m = .ending t ∧ ∃ c, t.session = some c ∧ c < s.nconns := by
  have hstarted := hr.started (t := t) (by simp [hx.code])
  have hinbound {c : ConnId} (hh : i.home = some (.inbound c)) : t.session = some c := by
    rw [hx.home hr hh, Tid.session]
  suffices hmark : m = .ending t ∧ ∃ c, t.session = some c from
    hmark.imp_right (Exists.imp fun _ hc => ⟨hc, hstarted.session hc⟩)
  cases i <;> simp only [abortMark, hx.code, reduceCtorEq, Option.ite_none_right_eq_some,
    Option.some.injEq] at hmark
  case aborted => exact absurd rfl hi
  case heartbeatLoop c => exact ⟨hmark.2.symm, c, (hr.shaped t).heartbeatLoop hx.mem_self⟩
  all_goals exact ⟨hmark.2.symm, _, hinbound rfl⟩

variable {h : List AbortMark}

/-- The account of a run: every session that is counted was marked before, by the same
goroutine, and so are the calls of `aborted` that goroutines have ahead of them. -/
structure Accounted (h : List AbortMark) (s : State) : Prop where
  aborts : s.stats.aborts = (h.filterMap AbortMark.aborted?).length
  owed : ∀ t, (h.filterMap AbortMark.aborted?).count t + (s.code t).count .aborted ≤
    (h.filterMap AbortMark.ending?).count t
  session : ∀ t ∈ h.filterMap AbortMark.ending?, ∃ c, t.session = some c ∧ c < s.nconns

theorem accounted_init : Accounted [] (init env) where
  aborts := rfl
  owed t := by
    cases t with
    | worker w =>
      simp only [init]
      split <;> simp
    | _ => exact Nat.le_refl 0
  session t ht := by cases ht

theorem loop_ne_aborted (t : Tid) : t.loop ≠ .aborted := by cases t <;> rintro ⟨⟩

/-- No goroutine makes another one call `aborted`. -/
theorem Touch.count_aborted {l l' : List Instr} (h : Touch s i t l l') :
    l'.count .aborted ≤ l.count .aborted := by
  cases h <;> simp [handleJob]

namespace Accounted

/-- Starting goroutines changes nothing. -/
theorem start (h0 : Accounted h s) (hstats : s'.stats.aborts = s.stats.aborts)
    (hcode : ∀ t, s'.code t = s.code t ∨ s'.code t = [t.loop]) (hconns : s.nconns ≤ s'.nconns) :
    Accounted h s' where
  aborts := hstats.trans h0.aborts
  owed t := by
    have howed := h0.owed t
    obtain hsame | hloop := hcode t
    · rwa [hsame]
    · rw [hloop, List.count_cons_of_ne (loop_ne_aborted t)]
      exact Nat.le_trans (Nat.add_le_add_left (Nat.zero_le _) _) howed
  session t ht := by
    obtain ⟨c, hc, hlt⟩ := h0.session t ht
    exact ⟨c, hc, Nat.lt_of_lt_of_le hlt hconns⟩

theorem aborted (h0 : Accounted h s) (hx : Executes env s t ch .aborted rest (.push []) s')
    (haborts : s'.stats.aborts = s.stats.aborts + 1) :
    Accounted (h ++ [AbortMark.aborted t]) s' where
  aborts := by simp [haborts, h0.aborts, AbortMark.aborted?]
  owed t' := by
    have howed := h0.owed t'
    by_cases ht : t' = t
    · subst ht
      rw [hx.code, List.count_cons_self] at howed
      simp only [List.filterMap_append, List.count_append, hx.code_self, Next.apply]
      simp [AbortMark.aborted?, AbortMark.ending?]
      omega
    · have htouch := (hx.touch ht).count_aborted
      simp only [List.filterMap_append, List.count_append]
      simp [AbortMark.aborted?, AbortMark.ending?, Ne.symm ht]
      omega
  session t' ht' := by
    rw [hx.nconns]
    exact h0.session t' (by simpa [AbortMark.ending?] using ht')

/-- Another instruction puts at most one call of `aborted` into the code, and is marked
then. -/
theorem other (h0 : Accounted h s) (hr : Reachable env s)
    (hx : Executes env s t ch i rest nx s') (hi : i ≠ .aborted)
    (haborts : s'.stats.aborts = s.stats.aborts) :
    Accounted (h ++ (abortMark env s (.run t ch)).toList) s' := by
  have hself : (s'.code t).count .aborted ≤
      nx.instrs.count .aborted + (s.code t).count .aborted := by
    rw [hx.code_self, hx.code, List.count_cons_of_ne hi]
    exact nx.count_apply_le rest .aborted
  have htouch {t' : Tid} (ht : t' ≠ t) := (hx.touch ht).count_aborted
  cases hmark : abortMark env s (.run t ch) with
  | none =>
    have hnone : nx.instrs.count .aborted = 0 := by
      refine List.count_eq_zero.2 fun hmem => ?_
      rw [(count_aborted_executes hx hmem).1] at hmark
      cases hmark
    rw [Option.toList_none, List.append_nil]
    refine ⟨haborts.trans h0.aborts, fun t' => ?_, by rw [hx.nconns]; exact h0.session⟩
    have howed := h0.owed t'
    by_cases ht : t' = t
    · subst ht
      omega
    · have := htouch ht
      omega
  | some m =>
    obtain ⟨rfl, hsession⟩ := session_of_abortMark hr hx hmark hi
    have hone : nx.instrs.count .aborted ≤ 1 := by
      by_cases hmem : .aborted ∈ nx.instrs
      · exact (count_aborted_executes hx hmem).2.le
      · simp [List.count_eq_zero.2 hmem]
    refine ⟨by simp [haborts, h0.aborts, AbortMark.aborted?], fun t' => ?_, fun t' ht' => ?_⟩
    · have howed := h0.owed t'
      by_cases ht : t' = t
      · subst ht
        simp [List.filterMap_cons, AbortMark.aborted?, AbortMark.ending?]
        omega
      · have := htouch ht
        simp [List.filterMap_cons, AbortMark.aborted?, AbortMark.ending?, Ne.symm ht]
        omega
    · rw [hx.nconns]
      obtain ht' | rfl : t' ∈ h.filterMap AbortMark.ending? ∨ t' = t := by
        simpa [AbortMark.ending?] using ht'
      · exact h0.session t' ht'
      · exact hsession

theorem executes (h0 : Accounted h s) (hr : Reachable env s)
    (hx : Executes env s t ch i rest nx s') :
    Accounted (h ++ (abortMark env s (.run t ch)).toList) s' := by
  obtain ⟨-, ⟨rfl, rfl, haborts⟩ | ⟨hi, haborts⟩⟩ := hx.stats
  · have hmark : abortMark env s (.run t ch) = some (.aborted t) := by simp [abortMark, hx.code]
    rw [hmark]
    exact h0.aborted hx haborts
  · exact h0.other hr hx hi haborts

end Accounted

/-- Along every run the account is kept. -/
theorem accounted_run {as : List BrokerAction}
    (hrun : Transition.run (step env) (init env) as = some s) :
    Accounted (abortMarks env as) s := by
  refine Transition.run_history (I := Accounted) (G := fun _ _ => True) ?_ accounted_init hrun
    (.of_forall (fun _ _ => trivial) _ _)
  intro h s a s' hr h0 _ hstep
  obtain ⟨-, ⟨rfl, rfl⟩ | ⟨rfl, rfl⟩ | ⟨t, ch, i, rest, nx, rfl, hx⟩⟩ := step_cases hstep
  · have hstart : Accounted h s.accept := h0.start rfl s.code_accept (Nat.le_succ _)
    simpa [abortMark] using hstart
  · have hstart : Accounted h s.acceptPeer := h0.start rfl s.code_acceptPeer (Nat.le_refl _)
    simpa [abortMark] using hstart
  · exact h0.executes hr hx

/-- The sessions that are counted are among those that were ended, each as often at
most. -/
theorem Accounted.subperm (h0 : Accounted h s) :
    ((h.filterMap AbortMark.aborted?).filterMap Tid.session).Subperm
      ((h.filterMap AbortMark.ending?).filterMap Tid.session) := by
  have hle : (h.filterMap AbortMark.aborted?).Subperm (h.filterMap AbortMark.ending?) :=
    List.subperm_ext_iff.2 fun t _ => Nat.le_trans (Nat.le_add_right _ _) (h0.owed t)
  simpa using Multiset.filterMap_le_filterMap Tid.session (Multiset.coe_le.2 hle)

/-- Every call of `aborted` counts a session. -/
theorem Accounted.aborts_eq (h0 : Accounted h s) :
    s.stats.aborts = ((h.filterMap AbortMark.aborted?).filterMap Tid.session).length := by
  refine h0.aborts.trans (congrArg Nat.cast (Eq.symm ?_))
  rw [List.length_filterMap_eq_countP, List.countP_eq_length]
  intro t ht
  have hmarked : 0 < (h.filterMap AbortMark.ending?).count t :=
    Nat.lt_of_lt_of_le (List.count_pos_iff.2 ht) (Nat.le_trans (Nat.le_add_right _ _) (h0.owed t))
  obtain ⟨c, hc, -⟩ := h0.session t (List.count_pos_iff.1 hmarked)
  rw [hc, Option.isSome_some]

/-- If every session is stopped, kicked out or found unreadable once at most, then it is
counted once at most, and not more sessions are counted as aborted than there were. -/
theorem aborted_once {as : List BrokerAction}
    (hrun : Transition.run (step env) (init env) as = some s) (honce : (endings env as).Nodup) :
    (abortedSessions env as).Nodup ∧ s.stats.aborts ≤ s.stats.sessions := by
  have h0 := accounted_run hrun
  obtain ⟨l, hperm, hsub⟩ := h0.subperm
  have hnodup : (abortedSessions env as).Nodup := hperm.nodup_iff.1 (honce.sublist hsub)
  have hrange : abortedSessions env as ⊆ List.range s.nconns := by
    intro c hc
    have hend : c ∈ endings env as := hsub.subset (hperm.mem_iff.2 hc)
    obtain ⟨t, ht, hsession⟩ := List.mem_filterMap.1 hend
    obtain ⟨c', hc', hlt⟩ := h0.session t ht
    obtain rfl := Option.some.inj (hsession.symm.trans hc')
    exact List.mem_range.2 hlt
  refine ⟨hnodup, ?_⟩
  have hlen := (List.subperm_of_subset hnodup hrange).length_le
  rw [List.length_range] at hlen
  rw [h0.aborts_eq, Reachable.stats_sessions ⟨as, hrun⟩]
  exact Int.ofNat_le.2 hlen

/-- A client connects, and closes its connection. -/
def goesAway : List BrokerAction :=
  .accept :: sends 0 (.connect (.named (str "a"))) 9 ++
    [Choice.recvErr, .go].map (.run (.inbound 0))

theorem aborted_once_goesAway :
    ∃ s, Transition.run (step openEnv) (init openEnv) goesAway = some s ∧
      endings openEnv goesAway = [0] ∧ s.stats.aborts = 1 ∧
      s.stats.aborts ≤ s.stats.sessions := by
  have heval : (Transition.run (step openEnv) (init openEnv) goesAway).map (·.stats.aborts) =
      some 1 := by decide +kernel
  obtain ⟨s, hrun, haborts⟩ := Option.map_eq_some_iff.1 heval
  have hend : endings openEnv goesAway = [0] := by decide +kernel
  exact ⟨s, hrun, hend, haborts, (aborted_once hrun (by simp [hend])).2⟩

/-- A client publishes too fast. It is stopped, `outboundLoop` closes the connection, and
then `inboundLoop` cannot read. -/
def stopsAndFails : List BrokerAction :=
  .accept :: sends 0 (.connect (.named (str "a"))) 9 ++
    BrokerAction.run (.inbound 0) (.recv (.publish false ⟨0, .atMostOnce, str "t", 0, []⟩)) ::
    [Choice.pour false, .go, .go, .go, .go, .go, .go].map (.run (.inbound 0)) ++
    [Choice.stopped, .go, .go, .go, .go].map (.run (.outbound 0)) ++
    [Choice.recvErr, .go].map (.run (.inbound 0))

/-- One session was aborted twice. -/
theorem aborted_twice :
    ¬ ∀ (env : Env) (as : List BrokerAction) (s : State),
      Transition.run (step env) (init env) as = some s → s.stats.aborts ≤ s.stats.sessions := by
  intro h
  have heval : (Transition.run (step openEnv) (init openEnv) stopsAndFails).map
      (fun s => (s.stats.aborts, s.stats.sessions)) = some (2, 1) := by decide +kernel
  obtain ⟨s, hrun, hs⟩ := Option.map_eq_some_iff.1 heval
  obtain ⟨haborts, hsessions⟩ := Prod.mk.inj hs
  have hle := h _ _ s hrun
  rw [haborts, hsessions] at hle
  cases hle
