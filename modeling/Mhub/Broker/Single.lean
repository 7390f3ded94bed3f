-- SUMMARY: A broker with a single worker: it handles one post after the other, so what it queues is in channel order and a topic retains the last retained post that was taken.
import Mathlib.Data.List.TakeWhile
import Mhub.Broker.Content
import Mhub.Broker.LastRetained

/-!
# A single worker

With more than one worker, a post can overtake another one behind the channel. A single
worker is done with a post before it takes the next one. Whatever it has in its hands is
the last post that was taken (`State.AtLast`). So what it queues for a subscriber are
copies of the posts, in channel order, the copies of one post together, and it updates
the retained messages in channel order.
-/

variable {env : Env} {s s' : State} {t : Tid} {ch : Choice} {i j : Instr} {rest : List Instr}
  {nx : Next} {c : ConnId} {m : Publish} {a : BrokerAction}

/-! ## One post at a time -/

/-- What a single worker has in its hands is the last post that was taken. -/
def State.AtLast (s : State) : Prop :=
  ∀ i ∈ s.code (.worker 0), ∀ m, i.publish? = some m → s.takenPosts.getLast? = some m

/-- A step that takes no post leaves the worker with the one it has. -/
theorem State.AtLast.keep (h : s.AtLast) (hr : Reachable env s) (hr' : Reachable env s')
    (hx : Executes env s t ch i rest nx s') (heq : s'.takenPosts = s.takenPosts)
    (hcode : ∀ w m, .handlePost m ∈ s'.code (.worker w) → .handlePost m ∈ s.code (.worker w)) :
    s'.AtLast := by
  intro j hj m hm
  rw [heq]
  have hpost : j = .handlePost m → s.takenPosts.getLast? = some m := fun hjm =>
    h _ (hcode 0 m (hjm ▸ hj)) m rfl
  obtain hold | ⟨rfl, hnext⟩ | ⟨-, hhands⟩ := hx.mem_code_cases hj
  · exact h j hold m hm
  · have hshape := hr.shaped (.worker 0)
    rw [hx.code] at hshape
    obtain rfl | hin | ⟨topic, rfl⟩ := hshape.worker
    · obtain ⟨m', -, rfl⟩ := hx.workerLoop_cases
      simp only [Next.instrs, List.mem_cons, List.not_mem_nil, or_false] at hnext
      obtain rfl | rfl := hnext
      · cases hm
        exact hpost rfl
      · cases hm
    · have hbrings := Instr.brings_cases (hx.follows.brings hnext)
      have hnot : i.fetches = false := by cases i <;> first | rfl | cases hin
      obtain hi | ⟨c, m', rc, rfl⟩ := hbrings.publish? hm hnot
      · exact h i hx.mem_self m hi
      · cases hin
    · have hf := hx.follows
      cases hf
      cases hnext
  · cases hhands with
    | handlePost =>
      cases hm
      exact hpost rfl
    | heartbeat => cases hm
    | _ => cases (hr'.shaped (.worker 0)).home hj rfl

section

variable (hn : env.cf.subscriptionsWorkers ≤ 1)
include hn

theorem Reachable.worker_eq_zero {w : Nat} (hr : Reachable env s) (h : s.code (.worker w) ≠ []) :
    w = 0 := by
  have hlt : w < env.cf.subscriptionsWorkers := hr.started h
  omega

theorem Reachable.atLast (hr : Reachable env s) : s.AtLast := by
  refine hr.invariant (I := State.AtLast) ?_ ?_
  · intro s a s' hr hI hstep
    have hr' := Transition.Reachable.tail hr hstep
    obtain ⟨-, ⟨-, rfl⟩ | ⟨-, rfl⟩ | ⟨t, ch, i, rest, nx, -, hx⟩⟩ := step_cases hstep
    · intro i hi m hm
      rw [s.takenPosts_accept]
      exact hI i hi m hm
    · exact hI
    · obtain ⟨heq, hcode⟩ | ⟨w, m, htake, heq⟩ := hx.takenPosts hr
      · exact hI.keep hr hr' hx heq hcode
      · obtain rfl := Reachable.worker_eq_zero hn hr (w := w) (by simp [htake.code])
        intro i hi m' hm
        rw [htake.takes] at hi
        simp only [List.mem_cons, List.not_mem_nil, or_false] at hi
        obtain rfl | rfl := hi
        · cases hm
          simp [heq]
        · cases hm
  · intro i hi m hm
    simp only [init] at hi
    split at hi
    · obtain rfl := List.mem_singleton.1 hi
      cases hm
    · cases hi

end

/-! ## Subscribers are served in channel order -/

def Event.liveFor (c : ConnId) : Event → Option Publish
  | .queued (.worker _) c' (.publish m) => if c' = c then some m else none
  | _ => none

/-- What workers have queued for `c`. -/
def State.liveFor (s : State) (c : ConnId) : List Publish :=
  s.trace.filterMap (·.liveFor c)

theorem Event.eq_of_liveFor {e : Event} (h : e.liveFor c = some m) :
    ∃ w, e = .queued (.worker w) c (.publish m) := by
  unfold Event.liveFor at h
  split at h
  · simp only [Option.ite_none_right_eq_some, Option.some.injEq] at h
    obtain ⟨rfl, rfl⟩ := h
    exact ⟨_, rfl⟩
  · cases h

section

variable (hn : env.cf.subscriptionsWorkers ≤ 1)
include hn

/-- What a single worker has queued for a connection are copies of the posts, in channel
order. -/
theorem Reachable.liveFor_copies (hr : Reachable env s) (c : ConnId) :
    Copies s.takenPosts (s.liveFor c) := by
  refine hr.invariant (I := fun s => Copies s.takenPosts (s.liveFor c)) ?_ .nil
  intro s a s' hr hI hstep
  obtain ⟨-, ⟨-, rfl⟩ | ⟨-, rfl⟩ | ⟨t, ch, i, rest, nx, -, hx⟩⟩ := step_cases hstep
  · have hlive : s.accept.liveFor c = s.liveFor c := by
      simp [State.liveFor, State.accept, State.log, State.setCode, Event.liveFor]
    rwa [s.takenPosts_accept, hlive]
  · exact hI
  · obtain ⟨heq, -⟩ | ⟨w, m, htake, heq⟩ := hx.takenPosts hr
    · rw [heq]
      obtain htr | ⟨e, htr, hlog⟩ := hx.trace
      · rwa [State.liveFor, htr]
      · rw [State.liveFor, htr, List.filterMap_append]
        cases he : e.liveFor c with
        | none => simpa [he, State.liveFor] using hI
        | some m =>
          have hlast : s.takenPosts.getLast? = some m := by
            obtain ⟨w, rfl⟩ := Event.eq_of_liveFor he
            obtain ⟨rfl, jb, hi, hjb⟩ := hlog
            obtain rfl := Reachable.worker_eq_zero hn hr (w := w) (by simp [hx.code])
            refine Reachable.atLast hn hr i hx.mem_self m ?_
            obtain rfl | rfl := hi <;> simp [Instr.publish?, hjb, Message.publish?]
          obtain ⟨xs, hxs⟩ := List.getLast?_eq_some_iff.1 hlast
          rw [hxs] at hI ⊢
          simpa [he, State.liveFor] using hI.again
    · have hlive : s'.liveFor c = s.liveFor c := by
        refine hx.filterMap_trace fun e hlog => ?_
        by_contra hne
        obtain ⟨m', he⟩ := Option.ne_none_iff_exists'.1 hne
        obtain ⟨w', rfl⟩ := Event.eq_of_liveFor he
        obtain ⟨-, jb, rfl | rfl, -⟩ := hlog <;> cases htake.instr <;> contradiction
      rw [heq, hlive]
      exact hI.append_right [m]

/-! ## Retained messages -/

/-- A single worker has one post pending. -/
theorem Reachable.inOrder (hr : Reachable env s) (a : BrokerAction) : InOrder env s a := by
  unfold InOrder
  split
  · rintro - m - hpend m' hm' - - hopen
    obtain ⟨w', hpend'⟩ := hr.open_iff.1 hopen
    obtain rfl := hr.worker_eq_zero hn hpend.code_ne_nil
    obtain rfl := hr.worker_eq_zero hn hpend'.code_ne_nil
    obtain rfl := hr.pending_unique hpend hpend'
    simpa using List.mem_takeWhile_imp hm'
  · trivial

theorem Reachable.upToDate (hr : Reachable env s) (topic : GoString) : s.UpToDate env topic := by
  refine hr.invariant (I := fun s => s.UpToDate env topic) ?_ ?_
  · intro s a s' hr hI hstep
    exact hI.step hr (Reachable.inOrder hn hr a) hstep
  · exact ⟨[], [], rfl, by simp, by simp, rfl⟩

end

/-- With a single worker, every topic retains the last retained post on it that was taken
from the channel, or nothing if that had no payload or there was none. Only the post the
worker has in its hands may not count yet. -/
theorem single_last_retained (hn : env.cf.subscriptionsWorkers ≤ 1) (hr : Reachable env s)
    (topic : GoString) :
    ∃ through pend, s.retainedPosts topic = through ++ pend ∧
      s.subs.retain topic = retainedBy through.getLast? ∧
      pend.length ≤ 1 ∧ ∀ m ∈ pend, s.Pending 0 m := by
  obtain ⟨through, pend, heq, -, hpend, hlast⟩ := hr.upToDate hn topic
  have hzero : ∀ m ∈ pend, s.Pending 0 m := by
    intro m hm
    obtain ⟨w, h⟩ := hr.open_iff.1 (hpend m hm)
    obtain rfl := hr.worker_eq_zero hn h.code_ne_nil
    exact h
  refine ⟨through, pend, heq, hlast, ?_, hzero⟩
  have hnodup : pend.Nodup := by
    have hposts : (s.retainedPosts topic).Nodup := hr.takenPosts_nodup.filter _
    rw [heq] at hposts
    exact hposts.of_append_right
  match pend, hnodup, hzero with
  | [], _, _ => exact Nat.zero_le 1
  | [_], _, _ => exact Nat.le_refl 1
  | m :: m' :: _, hnodup, hzero =>
    obtain rfl := hr.pending_unique (hzero m (by simp)) (hzero m' (by simp))
    simp at hnodup

/-- Client `0` sends the retained messages `x` and `y` on `t`, and the worker handles
both. -/
def oneByOneRun : List BrokerAction :=
  .accept :: sends 0 (.connect (.named (str "a"))) 9 ++
    sends 0 (.publish true (onT 0)) 5 ++ sends 0 (.publish true (laterOnT 0)) 5 ++
    List.replicate 10 (.run (.worker 0) .go)

theorem single_last_retained_oneByOneRun :
    ∃ s, Transition.run (step workerEnv) (init workerEnv) oneByOneRun = some s ∧
      s.retainedPosts (str "t") = [onT 1, laterOnT 2] ∧ s.code (.worker 0) = [.workerLoop] ∧
      ∃ through pend, s.retainedPosts (str "t") = through ++ pend ∧
        s.subs.retain (str "t") = retainedBy through.getLast? ∧
        pend.length ≤ 1 ∧ ∀ m ∈ pend, s.Pending 0 m := by
  have heval : (Transition.run (step workerEnv) (init workerEnv) oneByOneRun).map
      (fun s => (s.retainedPosts (str "t"), s.code (.worker 0))) =
      some ([onT 1, laterOnT 2], [.workerLoop]) := by decide +kernel
  obtain ⟨s, hrun, hs⟩ := Option.map_eq_some_iff.1 heval
  obtain ⟨hposts, hcode⟩ := Prod.mk.inj hs
  exact ⟨s, hrun, hposts, hcode, single_last_retained (by decide) ⟨_, hrun⟩ (str "t")⟩
