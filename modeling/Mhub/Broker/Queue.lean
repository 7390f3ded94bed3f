-- SUMMARY: The life of a connection's job queue: who sends on it, when it is closed, and under which schedules nothing is sent after that.
import Mhub.Base.Outline
import Mhub.Broker.Effects

/-!
# Job queues

A message reaches the `jobs` channel of a connection in two steps. `submit` reads
`alive` and then sends; `submitSync` sends without looking. Between the two steps,
or while the sender waits for room, `inboundLoop` may clear `alive` and close the
channel, and a takeover or a heartbeat may call `submitSync` even after that.

What the code does guarantee is proved first: the channel is closed only after
`alive` was cleared (`closedOutline`). With that, the queue is safe in every run in
which no send is under way at the moment of the close, and `submitSync` is not
called on a closed queue (`QueueSafe`).
-/

variable {env : Env} {s s' : State} {t : Tid} {ch : Choice} {i : Instr} {rest : List Instr}
  {nx : Next} {c : ConnId}

/-! ## `alive` is cleared before `jobs` is closed -/

/-- What is known is that `alive` is cleared. -/
def closedOutline (c : ConnId) : Outline Instr Prop where
  pre i dead := i = .closeJobs c → dead
  post i dead := dead ∨ i = .setDead c
  pre_mono h hpre hi := h (hpre hi)
  post_mono h := Or.imp_left h
  le_post := .inl

theorem brings_closeJobs (h : i.brings (.closeJobs c) = true) :
    i = .inboundReturn c ∨ ∃ rc, i = .connectReturn c rc := by
  cases Instr.brings_cases h with
  | closeJobs hi => exact hi

theorem closedOutline_defer (dead : Prop) : (closedOutline c).Ok dead (inboundDefer c) := by
  simp [Outline.Ok, inboundDefer, closedOutline]

/-- What follows an instruction is in order by itself. -/
theorem closedOutline_follows {dead : Prop} (hf : Follows env i nx) :
    (closedOutline c).Ok dead nx.instrs := by
  by_cases hmem : .closeJobs c ∈ nx.instrs
  · have hnx : nx = .jump (inboundDefer c) := by
      obtain rfl | ⟨rc, rfl⟩ := brings_closeJobs (hf.brings hmem) <;> cases hf <;>
        first | rfl | cases hmem
    subst hnx
    exact closedOutline_defer dead
  · exact Outline.ok_of_forall fun j hj a h => absurd (h ▸ hj) hmem

theorem Executes.dead (hx : Executes env s t ch i rest nx s') (h : (s.conns c).alive = false) :
    (s'.conns c).alive = false := by
  obtain ha | ⟨-, ha⟩ := (hx.conn c).alive
  · exact ha.trans h
  · exact ha

theorem closedOutline_of_reachable (hr : Reachable env s) (c : ConnId) :
    (closedOutline c).Ok ((s.conns c).alive = false) (s.code (.inbound c)) := by
  refine hr.invariant (I := fun s => (closedOutline c).Ok ((s.conns c).alive = false)
    (s.code (.inbound c))) ?_ (by trivial)
  intro s a s' hr hI hstep
  obtain ⟨-, ⟨-, rfl⟩ | ⟨-, rfl⟩ | ⟨t, ch, i, rest, nx, -, hx⟩⟩ := step_cases hstep
  · exact State.accept_outline hI fun _ => nofun
  · exact hI
  · refine hx.outline hI hx.dead fun _ => ⟨closedOutline_follows hx.follows, ?_⟩
    refine le_trans ?_ (Outline.le_after _)
    rintro (hdead | rfl)
    · exact hx.dead hdead
    · obtain ⟨-, s₁, hexec, rfl⟩ := hx
      cases hexec
      simp [State.setCode, State.modConn]

/-- A closed queue belongs to a dead connection. -/
theorem Reachable.closed (hr : Reachable env s) (h : (s.conns c).jobsClosed = true) :
    (s.conns c).alive = false := by
  refine hr.invariant (I := fun s => (s.conns c).jobsClosed = true → (s.conns c).alive = false)
    ?_ (by simp [init]) h
  intro s a s' hr hI hstep h
  obtain ⟨-, ⟨-, rfl⟩ | ⟨-, rfl⟩ | ⟨t, ch, i, rest, nx, -, hx⟩⟩ := step_cases hstep
  · exact hI h
  · exact hI h
  · obtain heq | ⟨rfl, -⟩ := (hx.conn c).jobsClosed
    · exact hx.dead (hI (heq ▸ h))
    · obtain rfl := hx.home hr rfl
      have hok := closedOutline_of_reachable hr c
      rw [hx.code] at hok
      exact hx.dead (hok.1 rfl)

/-! ## Senders -/

/-- The instruction sends on the `jobs` channel of `c`. -/
def Instr.sendsTo (c : ConnId) : Instr → Bool
  | .send c' _ | .trySend c' _ => c' = c
  | _ => false

/-- The step is harmless for the queue of `c`: it does not close the queue while a
send is under way, and does not call `submitSync` on the closed queue. -/
def QueueSafe (env : Env) (c : ConnId) (s : State) : BrokerAction → Bool
  | .run t _ =>
    match s.code t with
    | .closeJobs c' :: _ => c' ≠ c || (s.tids env).all fun t' => (s.code t').all (!·.sendsTo c)
    | .submitSync c' _ :: _ => c' ≠ c || !(s.conns c).jobsClosed
    | _ => true
  | _ => true

/-- Once the queue is closed, nobody is about to send on it, or will be. -/
structure QueueInv (c : ConnId) (s : State) : Prop where
  dead : (s.conns c).jobsClosed = true → (s.conns c).alive = false
  quiet : (s.conns c).jobsClosed = true → ∀ t, ∀ i ∈ s.code t, i.sendsTo c = false
  noPanic : s.panicked ≠ some (.sendOnClosed c)

theorem brings_sendsTo {j : Instr} (hj : j.sendsTo c = true) (h : i.brings j = true) :
    ∃ m, i = .submit c m ∨ i = .submitSync c m := by
  cases Instr.brings_cases h with
  | send | trySend => exact ⟨_, .inl (by rw [of_decide_eq_true hj])⟩
  | sendSync => exact ⟨_, .inr (by rw [of_decide_eq_true hj])⟩
  | _ => cases hj

/-- Only the running goroutine can come closer to a send. -/
theorem Executes.mem_sendsTo (hx : Executes env s t ch i rest nx s') {t' : Tid} {j : Instr}
    (hj : j ∈ s'.code t') (hs : j.sendsTo c = true) : j ∈ s.code t' ∨ j ∈ nx.instrs := by
  obtain hj | ⟨-, hj⟩ | hgets := hx.mem_code hj
  · exact .inl hj
  · exact .inr hj
  · cases j <;> simp only [Instr.sendsTo, Bool.false_eq_true] at hs <;> cases t' <;> cases hgets

/-- A step does not get closer to a send on a closed queue. -/
theorem notMem_instrs_of_closed (hx : Executes env s t ch i rest nx s')
    (hsafe : QueueSafe env c s (.run t ch) = true) (hclosed : (s.conns c).jobsClosed = true)
    (hdead : (s.conns c).alive = false) {j : Instr} (hs : j.sendsTo c = true) :
    j ∉ nx.instrs := by
  intro hj
  obtain ⟨m, rfl | rfl⟩ := brings_sendsTo hs (hx.follows.brings hj)
  · -- `submit` has looked at `alive`
    obtain ⟨-, s₁, hexec, -⟩ := hx
    simp [exec, State.log, hdead] at hexec
    rw [← hexec.2] at hj
    cases hj
  · simp [QueueSafe, hx.code, hclosed] at hsafe

theorem QueueInv.executes (hr : Reachable env s) (hI : QueueInv c s)
    (hsafe : QueueSafe env c s (.run t ch) = true) (hx : Executes env s t ch i rest nx s') :
    QueueInv c s' := by
  have hnoPanic : s'.panicked ≠ some (.sendOnClosed c) := by
    obtain h | ⟨p, h, hraise⟩ := hx.panicked <;> rw [h]
    · exact hI.noPanic
    · intro heq
      cases heq
      obtain ⟨⟨j, hi⟩, hclosed⟩ := hraise
      have hquiet := hI.quiet hclosed t i (by rw [hx.code]; exact List.mem_cons_self ..)
      obtain rfl | rfl := hi <;> simp [Instr.sendsTo] at hquiet
  by_cases hclose : i = .closeJobs c
  · subst hclose
    obtain rfl := hx.home hr rfl
    have hok := closedOutline_of_reachable hr c
    rw [hx.code] at hok
    obtain rfl := follows_of_mem_inboundDefer (c := c) (by simp [inboundDefer]) hx.follows
    refine ⟨fun _ => hx.dead (hok.1 rfl), ?_, hnoPanic⟩
    intro _ t' j hj
    by_contra hs
    have hs : j.sendsTo c = true := by simpa using hs
    have hmem := (hx.mem_sendsTo hj hs).resolve_right List.not_mem_nil
    have hstarted := State.mem_tids.2 (hr.started (List.ne_nil_of_mem hmem))
    have hquiet : ∀ t' ∈ s.tids env, ∀ j ∈ s.code t', j.sendsTo c = false := by
      simpa [QueueSafe, hx.code] using hsafe
    exact absurd hs (by simp [hquiet t' hstarted j hmem])
  · have hjobs : (s'.conns c).jobsClosed = (s.conns c).jobsClosed :=
      (hx.conn c).jobsClosed.resolve_right fun h => hclose h.1
    refine ⟨?_, ?_, hnoPanic⟩
    · intro h
      exact hx.dead (hI.dead (hjobs ▸ h))
    · intro h t' j hj
      have hclosed : (s.conns c).jobsClosed = true := hjobs ▸ h
      by_contra hs
      have hs : j.sendsTo c = true := by simpa using hs
      obtain hmem | hmem := hx.mem_sendsTo hj hs
      · exact absurd hs (by simp [hI.quiet hclosed t' j hmem])
      · exact notMem_instrs_of_closed hx hsafe hclosed (hI.dead hclosed) hs hmem

theorem loop_sendsTo : t.loop.sendsTo c = false := by
  cases t <;> rfl

theorem QueueInv.accept (hI : QueueInv c s) : QueueInv c s.accept := by
  refine ⟨hI.dead, ?_, hI.noPanic⟩
  intro h t i hi
  obtain hi | rfl := State.mem_code_accept hi
  · exact hI.quiet h t i hi
  · exact loop_sendsTo

theorem QueueInv.acceptPeer (hI : QueueInv c s) : QueueInv c s.acceptPeer := by
  refine ⟨hI.dead, ?_, hI.noPanic⟩
  intro h t i hi
  obtain hi | rfl := State.mem_code_acceptPeer hi
  · exact hI.quiet h t i hi
  · exact loop_sendsTo

theorem queueInv_init : QueueInv c (init env) where
  dead h := by cases h
  quiet h := by cases h
  noPanic h := by cases h

/-- Nothing is sent on the closed queue of `c` in a run whose steps are harmless for
it. -/
theorem no_send_on_closed {as : List BrokerAction}
    (hrun : Transition.run (step env) (init env) as = some s)
    (hsafe : Transition.Guarded (step env) (QueueSafe env c · ·) (init env) as) :
    s.panicked ≠ some (.sendOnClosed c) := by
  have hI : QueueInv c s := by
    refine Transition.run_invariant ?_ queueInv_init hrun hsafe
    intro s a s' hr hI hG hstep
    obtain ⟨-, ⟨-, rfl⟩ | ⟨-, rfl⟩ | ⟨t, ch, i, rest, nx, rfl, hx⟩⟩ := step_cases hstep
    · exact hI.accept
    · exact hI.acceptPeer
    · exact hI.executes hr hG hx
  exact hI.noPanic

/-- A client connects, disconnects, and its `inboundLoop` gets through `n`
instructions of the deferred function. -/
def leaveRun (n : Nat) : List BrokerAction :=
  .accept :: .run (.inbound 0) (.recv (.connect (.named (str "a")))) ::
    List.replicate 9 (.run (.inbound 0) .go) ++
  .run (.inbound 0) (.recv .disconnect) :: List.replicate n (.run (.inbound 0) .go)

theorem no_send_on_closed_leaveRun :
    ∃ s, Transition.run (step openEnv) (init openEnv) (leaveRun 6) = some s ∧
      (s.conns 0).jobsClosed = true ∧ s.panicked ≠ some (.sendOnClosed 0) := by
  have heval : (Transition.run (step openEnv) (init openEnv) (leaveRun 6)).map
      (fun s => (s.conns 0).jobsClosed) = some true := by decide +kernel
  obtain ⟨s, hrun, hclosed⟩ := Option.map_eq_some_iff.1 heval
  exact ⟨s, hrun, hclosed, no_send_on_closed hrun (by decide +kernel)⟩

/-- The client comes back under its name before its old `outboundLoop` has noticed:
the takeover finds the old connection and sends on its closed queue. -/
theorem send_on_closed :
    (Transition.run (step openEnv) (init openEnv) (leaveRun 5 ++
      .accept :: .run (.inbound 1) (.recv (.connect (.named (str "a")))) ::
        List.replicate 5 (.run (.inbound 1) .go))).map (·.panicked) =
    some (some (.sendOnClosed 0)) := by
  decide +kernel
