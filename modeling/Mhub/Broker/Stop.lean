-- SUMMARY: `stopChan` of a connection is closed once for every call of `stop`, so the second call panics; runs with one trigger are safe.
import Mhub.Broker.Effects

/-!
# Stopping a connection

`stop` closes `stopChan` and returns to its caller, which goes on: `doPublish` after
a failed `Pour`, `doSubscribe` with the next topic. Nothing remembers that the
connection is being stopped, so every trigger leads to one more `close`.
-/

variable {env : Env} {s s' : State} {t : Tid} {ch : Choice} {i : Instr} {rest : List Instr}
  {nx : Next} {c : ConnId}

/-- The step makes a handler of `c` call `stop`: `Pour` fails, or a topic takes the
connection over `ClientMaxSubscriptions`. -/
def stops (env : Env) (c : ConnId) (s : State) : BrokerAction → Bool
  | .run t ch =>
    match s.code t with
    | .pour c' :: _ => c' = c && ch = .pour false
    | .countSub c' :: _ => c' = c && (s.conns c).subN + 1 > env.cf.clientMaxSubscriptions
    | _ => false
  | _ => false

/-- The calls of `stop` that were made so far: the ones under way, the one that
closed the channel, and the one that found it closed. -/
def State.stopCalls (s : State) (c : ConnId) : Nat :=
  (s.code (.inbound c)).count (.closeStop c) + (s.conns c).stopClosed.toNat +
    (decide (s.panicked = some (.closeOfClosedStop c))).toNat

theorem brings_closeStop (h : i.brings (.closeStop c) = true) : i = .pour c ∨ i = .countSub c := by
  cases Instr.brings_cases h with
  | closeStop hi => exact hi

theorem count_closeStop_executes (hx : Executes env s (.inbound c) ch i rest nx s') :
    nx.instrs.count (.closeStop c) ≤ (stops env c s (.run (.inbound c) ch)).toNat := by
  by_cases hmem : .closeStop c ∈ nx.instrs
  · have hcount : (stop c).count (.closeStop c) = 1 := by simp [stop]
    obtain ⟨hcode, s₁, hexec, -⟩ := hx
    obtain rfl | rfl := brings_closeStop ((exec_follows hexec).brings hmem)
    · simp only [exec] at hexec
      split at hexec <;> cases hexec
      next ok =>
      cases ok with
      | true => cases hmem
      | false => simp [stops, hcode, Next.instrs, hcount]
    · cases hexec
      split at hmem
      next hover => simp [stops, hcode, Next.instrs, hcount, hover]
      next => cases hmem
  · rw [List.count_eq_zero_of_not_mem hmem]
    exact Nat.zero_le _

theorem Next.count_apply_le (nx : Next) (rest : List Instr) (a : Instr) :
    (nx.apply rest).count a ≤ nx.instrs.count a + rest.count a := by
  cases nx with
  | push is => exact Nat.le_of_eq List.count_append
  | jump is => exact Nat.le_add_right _ _

/-- A step adds a call of `stop` only if it is a trigger. -/
theorem stopCalls_executes (hr : Reachable env s) (hp : s.panicked = none)
    (hx : Executes env s t ch i rest nx s') :
    s'.stopCalls c ≤ s.stopCalls c + (stops env c s (.run t ch)).toNat := by
  by_cases hi : i = .closeStop c
  · -- a pending call closes the channel, or finds it closed
    subst hi
    obtain rfl := hx.home hr rfl
    obtain ⟨hcode, s₁, hexec, rfl⟩ := hx
    have hpending : (s.code (.inbound c)).count (.closeStop c) = rest.count (.closeStop c) + 1 := by
      rw [hcode, List.count_cons_self]
    simp only [exec] at hexec
    split at hexec <;> cases hexec <;>
      simp_all [State.stopCalls, State.setCode, State.panicWith, State.modConn, Next.apply]
  · have hstop : (s'.conns c).stopClosed = (s.conns c).stopClosed :=
      (hx.conn c).stopClosed.resolve_right fun h => hi h.1
    have hpanic : s'.panicked ≠ some (.closeOfClosedStop c) := by
      obtain h | ⟨p, h, hraise⟩ := hx.panicked <;> rw [h]
      · simp [hp]
      · intro heq
        cases heq
        exact hi hraise.1
    have hcount : (s'.code (.inbound c)).count (.closeStop c) ≤
        (s.code (.inbound c)).count (.closeStop c) + (stops env c s (.run t ch)).toNat := by
      by_cases ht : .inbound c = t
      · subst ht
        have hnew := count_closeStop_executes hx
        have happly := nx.count_apply_le rest (.closeStop c)
        rw [hx.code_self, hx.code, List.count_cons]
        omega
      · rw [hx.code_inbound ht]
        exact Nat.le_add_right _ _
    simp only [State.stopCalls, hstop, hpanic, decide_false, Bool.toNat_false]
    omega

theorem stopCalls_step {a : BrokerAction} (hr : Reachable env s) (hstep : step env s a = some s') :
    s'.stopCalls c ≤ s.stopCalls c + (stops env c s a).toNat := by
  obtain ⟨hp, ⟨-, rfl⟩ | ⟨-, rfl⟩ | ⟨t, ch, i, rest, nx, rfl, hx⟩⟩ := step_cases hstep
  · refine Nat.le_add_right_of_le (Nat.add_le_add_right (Nat.add_le_add_right ?_ _) _)
    by_cases hc : c = s.nconns
    · simp [State.accept, State.log, State.setCode, hc]
    · simp [State.accept, State.log, State.setCode, hc]
  · exact Nat.le_add_right _ _
  · exact stopCalls_executes hr hp hx

/-- The panic comes on top of a closed channel. -/
theorem Reachable.stopClosed (hr : Reachable env s)
    (hp : s.panicked = some (.closeOfClosedStop c)) : (s.conns c).stopClosed = true := by
  refine hr.invariant (I := fun s => s.panicked = some (.closeOfClosedStop c) →
    (s.conns c).stopClosed = true) ?_ (fun h => by cases h) hp
  intro s a s' hr hI hstep hp'
  obtain ⟨hp, ⟨-, rfl⟩ | ⟨-, rfl⟩ | ⟨t, ch, i, rest, nx, rfl, hx⟩⟩ := step_cases hstep
  · exact hI hp'
  · exact hI hp'
  · obtain h | ⟨p, h, hraise⟩ := hx.panicked
    · simp [h, hp] at hp'
    · cases h.symm.trans hp'
      obtain h | h := (hx.conn c).stopClosed
      · exact h.trans hraise.2
      · exact h.2

/-- A run in which at most one step makes a handler of `c` call `stop` never closes
its `stopChan` twice. -/
theorem stop_once {as : List BrokerAction} (hrun : Transition.run (step env) (init env) as = some s)
    (honce : Transition.count (step env) (stops env c) (init env) as ≤ 1) :
    s.panicked ≠ some (.closeOfClosedStop c) := by
  intro hp
  have hle := Transition.Reachable.refl.run_measure
    (fun s a s' hr hstep => @stopCalls_step env s s' c a hr hstep) hrun
  have hclosed := Reachable.stopClosed ⟨as, hrun⟩ hp
  have hinit : (init env).stopCalls c = 0 := rfl
  have htwo : 2 ≤ s.stopCalls c := by
    simp only [State.stopCalls, hclosed, hp, decide_true, Bool.toNat_true]
    omega
  omega

/-- A client connects and subscribes to `topics`, and the handler gets through `n`
instructions of `doSubscribe`. -/
def stopRun (topics : List GoString) (n : Nat) : List BrokerAction :=
  .accept :: .run (.inbound 0) (.recv (.connect (.named (str "a")))) ::
    List.replicate 9 (.run (.inbound 0) .go) ++
  .run (.inbound 0) (.recv (.subscribe ⟨1, topics.map (·, .atMostOnce)⟩)) ::
    List.replicate n (.run (.inbound 0) .go)

/-- Two topics: the second one stops the connection. -/
theorem stop_once_stopRun :
    ∃ s, Transition.run (step oneSubEnv) (init oneSubEnv) (stopRun [str "x", str "y"] 13) = some s ∧
      Transition.count (step oneSubEnv) (stops oneSubEnv 0) (init oneSubEnv)
        (stopRun [str "x", str "y"] 13) = 1 ∧
      (s.conns 0).stopClosed = true ∧ s.panicked ≠ some (.closeOfClosedStop 0) := by
  have heval : (Transition.run (step oneSubEnv) (init oneSubEnv)
      (stopRun [str "x", str "y"] 13)).map (fun s => (s.conns 0).stopClosed) = some true := by
    decide +kernel
  have hcount : Transition.count (step oneSubEnv) (stops oneSubEnv 0) (init oneSubEnv)
      (stopRun [str "x", str "y"] 13) = 1 := by decide +kernel
  obtain ⟨s, hrun, hclosed⟩ := Option.map_eq_some_iff.1 heval
  exact ⟨s, hrun, hcount, hclosed, stop_once hrun hcount.le⟩

/-- Three topics in one SUBSCRIBE: the second and the third stop the connection, and
the broker goes down. -/
theorem stop_twice :
    (Transition.run (step oneSubEnv) (init oneSubEnv)
      (stopRun [str "x", str "y", str "z"] 10)).map (·.panicked) =
    some (some (.closeOfClosedStop 0)) := by
  decide +kernel
