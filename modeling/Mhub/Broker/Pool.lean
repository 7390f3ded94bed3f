-- SUMMARY: The size of the worker pool: every retained PUBLISH without payload costs a worker, and when all are gone no message is handled any more.
import Mathlib.Data.List.Nodup
import Mhub.Broker.Objects

/-!
# The size of the pool

Nothing starts a worker again that has returned from `run`. The log tells which workers
have: those that have taken a retained PUBLISH without payload (`State.leavers`). Each
does so once, so the pool shrinks by one with every such message, whoever has sent it.
When it is empty the posts channel has no receiver left. The handlers of all connections
then get through `subscriptions.submit` until the channel is full, and not further.
-/

variable {env : Env} {s s' : State} {t : Tid} {ch : Choice} {i : Instr} {rest : List Instr}
  {nx : Next} {w : Nat} {m : Publish} {a : BrokerAction}

/-! ## Who has left -/

def Event.leaver : Event → Option Nat
  | .taken (.worker w) m true => if m.payload = [] then some w else none
  | _ => none

/-- The workers that have left the pool, in the order in which they did. -/
def State.leavers (s : State) : List Nat := s.trace.filterMap Event.leaver

theorem Event.leaver_eq_some {e : Event} :
    e.leaver = some w ↔ ∃ m, e = .taken (.worker w) m true ∧ m.payload = [] := by
  constructor
  · intro h
    unfold Event.leaver at h
    split at h
    · simp only [Option.ite_none_right_eq_some, Option.some.injEq] at h
      obtain ⟨hempty, rfl⟩ := h
      exact ⟨_, rfl, hempty⟩
    · cases h
  · rintro ⟨m, rfl, hempty⟩
    simp [Event.leaver, hempty]

theorem State.mem_leavers :
    w ∈ s.leavers ↔ ∃ m, .taken (.worker w) m true ∈ s.trace ∧ m.payload = [] := by
  simp only [State.leavers, List.mem_filterMap, Event.leaver_eq_some]
  constructor
  · rintro ⟨e, he, m, rfl, hempty⟩
    exact ⟨m, he, hempty⟩
  · rintro ⟨m, he, hempty⟩
    exact ⟨_, he, m, rfl, hempty⟩

theorem Reachable.mem_leavers_iff (hr : Reachable env s) :
    w ∈ s.leavers ↔ w < env.cf.subscriptionsWorkers ∧ ¬ s.Receives w := by
  rw [State.mem_leavers]
  constructor
  · rintro ⟨m, hm, hempty⟩
    obtain ⟨w', hlt, heq⟩ := hr.worker_of_taken hm
    cases heq
    exact ⟨hlt, fun h => (hr.receives_iff hlt).1 h m hm hempty⟩
  · rintro ⟨hlt, h⟩
    rw [hr.receives_iff hlt] at h
    push Not at h
    exact h

/-- A worker leaves once. -/
theorem Reachable.leavers_nodup (hr : Reachable env s) : s.leavers.Nodup := by
  refine hr.invariant (I := fun s => s.leavers.Nodup) ?_ List.nodup_nil
  intro s a s' hr hI hstep
  obtain ⟨-, ⟨-, rfl⟩ | ⟨-, rfl⟩ | ⟨t, ch, i, rest, nx, -, hx⟩⟩ := step_cases hstep
  · have hsame : s.accept.leavers = s.leavers := by
      simp [State.leavers, State.accept, State.log, State.setCode, List.filterMap_cons, Event.leaver]
    rwa [hsame]
  · exact hI
  · obtain htr | ⟨e, htr, hlog⟩ := hx.trace
    · rwa [State.leavers, htr]
    · have hleavers : s'.leavers = s.leavers ++ e.leaver.toList := by
        simp [State.leavers, htr, List.filterMap_cons]
        cases e.leaver <;> rfl
      rw [hleavers]
      cases he : e.leaver with
      | none => simpa using hI
      | some w =>
        obtain ⟨m, rfl, -⟩ := Event.leaver_eq_some.1 he
        obtain ⟨rfl, rfl, -⟩ := hlog
        have hreceives : s.Receives w := by
          rw [State.Receives, Reachable.handlePost hr hx.mem_self]
          simp
        have hnew : w ∉ s.leavers := fun h => ((Reachable.mem_leavers_iff hr).1 h).2 hreceives
        simpa using hI.concat hnew

/-! ## Who is left -/

instance State.Receives.decidable (s : State) (w : Nat) : Decidable (s.Receives w) :=
  inferInstanceAs (Decidable (_ ∈ _))

/-- The workers that still receive from the posts channel. -/
def State.receivers (env : Env) (s : State) : List Nat :=
  (List.range env.cf.subscriptionsWorkers).filter fun w => s.Receives w

theorem Reachable.pool (hr : Reachable env s) :
    (s.receivers env).length + s.leavers.length = env.cf.subscriptionsWorkers := by
  have hperm : s.leavers.Perm
      ((List.range env.cf.subscriptionsWorkers).filter fun w => ¬ s.Receives w) := by
    refine (List.perm_ext_iff_of_nodup hr.leavers_nodup (List.nodup_range.filter _)).2 fun w => ?_
    simp [hr.mem_leavers_iff]
  have hlen := (List.range env.cf.subscriptionsWorkers).length_eq_length_filter_add
    fun w => decide (s.Receives w)
  rw [List.length_range] at hlen
  rw [hperm.length_eq, State.receivers]
  simpa using hlen.symm

/-- A worker that is gone does not come back. -/
theorem step_receives (hstep : step env s a = some s') (h : s'.Receives w) : s.Receives w := by
  obtain ⟨-, ⟨-, rfl⟩ | ⟨-, rfl⟩ | ⟨t, ch, i, rest, nx, -, hx⟩⟩ := step_cases hstep
  · simpa [State.Receives, State.accept, State.log, State.setCode] using h
  · exact h
  · exact hx.receives h

/-- Without a receiver no post is taken. -/
theorem takenPosts_of_no_receiver (hr : Reachable env s) (hnone : ∀ w, ¬ s.Receives w)
    (hstep : step env s a = some s') : s'.takenPosts = s.takenPosts := by
  obtain ⟨-, ⟨-, rfl⟩ | ⟨-, rfl⟩ | ⟨t, ch, i, rest, nx, -, hx⟩⟩ := step_cases hstep
  · exact s.takenPosts_accept
  · rfl
  · obtain ⟨heq, -⟩ | ⟨w, m, htake, -⟩ := hx.takenPosts hr
    · exact heq
    · refine absurd ?_ (hnone w)
      simp [State.Receives, htake.code]

/-- The workers that are left and the retained PUBLISH messages without payload that were
taken make up the pool. Once there were as many of these as workers, no post is taken any
more, however the broker goes on, and at most one channel of posts gets in. -/
theorem pool_size (hr : Reachable env s) :
    (s.receivers env).length + s.leavers.length = env.cf.subscriptionsWorkers ∧
    (s.leavers.length = env.cf.subscriptionsWorkers → ∀ acts s',
      Transition.run (step env) s acts = some s' →
      s'.takenPosts = s.takenPosts ∧
        s'.posted.length ≤ s.takenPosts.length + env.cf.subscriptionsQueueLen) := by
  refine ⟨hr.pool, fun hall acts s' hrun => ?_⟩
  have hnone : ∀ w, ¬ s.Receives w := by
    intro w hw
    have hlt : w < env.cf.subscriptionsWorkers :=
      hr.started (t := .worker w) (List.ne_nil_of_mem hw)
    have hmem : w ∈ s.receivers env := by simp [State.receivers, hlt, hw]
    have hpool := hr.pool
    have := List.length_pos_of_mem hmem
    omega
  have hinv : (∀ w, ¬ s'.Receives w) ∧ s'.takenPosts = s.takenPosts := by
    refine Transition.Reachable.run_invariant (G := fun _ _ => True)
      (I := fun s' => (∀ w, ¬ s'.Receives w) ∧ s'.takenPosts = s.takenPosts) ?_ hr ⟨hnone, rfl⟩ hrun
      (.of_forall (fun _ _ => trivial) _ _)
    rintro s₁ a s₂ hr₁ ⟨hnone₁, heq⟩ - hstep
    exact ⟨fun w hw => hnone₁ w (step_receives hstep hw),
      (takenPosts_of_no_receiver hr₁ hnone₁ hstep).trans heq⟩
  have hr' : Reachable env s' := by
    obtain ⟨acts₀, hrun₀⟩ := hr
    exact ⟨_, Transition.run_append hrun₀ hrun⟩
  refine ⟨hinv.2, ?_⟩
  have hposts := hr'.posts_length
  rw [hr'.posted_eq, hinv.2, List.length_append]
  omega

/-- The only worker takes a retained PUBLISH without payload. -/
theorem pool_size_workerEnv :
    ∃ s, Transition.run (step workerEnv) (init workerEnv)
        (subscribeRun ++ publishRun true [] ++ List.replicate 2 (.run (.worker 0) .go)) = some s ∧
      s.leavers = [0] ∧ ∀ acts s', Transition.run (step workerEnv) s acts = some s' →
        s'.takenPosts = s.takenPosts ∧
          s'.posted.length ≤ s.takenPosts.length + workerEnv.cf.subscriptionsQueueLen := by
  have heval : (Transition.run (step workerEnv) (init workerEnv)
      (subscribeRun ++ publishRun true [] ++ List.replicate 2 (.run (.worker 0) .go))).map
      (·.leavers) = some [0] := by decide +kernel
  obtain ⟨s, hrun, hs⟩ := Option.map_eq_some_iff.1 heval
  exact ⟨s, hrun, hs, (pool_size ⟨_, hrun⟩).2 (by rw [hs]; rfl)⟩
