-- SUMMARY: Progress with the discard strategy: a worker can handle all the posts in the channel, and has to wait for nobody but the holder of `subs.mu`, who waits for nobody.
import Mathlib.Data.Prod.Lex
import Mhub.Broker.History
import Mhub.Broker.Retain
import Mhub.Broker.Waiting

/-!
# Progress

With the block strategy a worker waits for the subscriber whose queue is full, and
whoever holds `subs.mu` can be left waiting for good. With the discard strategy a full
queue stops nobody. Then a worker waits for `subs.mu` only, its holder can always go on,
and it needs at most three steps to unlock. So as long as a worker is left, it can
handle every post in the channel, whatever the other goroutines are doing.

The argument is a measure: each step of a worker shortens what is left of the post it
handles, or takes the next one out of the channel.
-/

variable {env : Env} {s s' : State} {t : Tid} {ch : Choice} {i j : Instr} {rest : List Instr}
  {nx : Next} {c : ConnId} {w : Nat} {m : Publish}

/-! ## What can be done at any time -/

theorem step_of_exec {s₁ : State} (hp : s.panicked = none) (hcode : s.code t = i :: rest)
    (hexec : exec env s t ch i = some (s₁, nx)) :
    step env s (.run t ch) = some (s₁.setCode t (nx.apply rest)) := by
  simp [step, hp, hcode, hexec]

theorem exec_trySend (env : Env) (s : State) (t : Tid) (ch : Choice) (c : ConnId) (j : Job) :
    ∃ s₁, exec env s t ch (.trySend c j) = some (s₁, .push []) := by
  simp only [exec]
  repeat' split
  all_goals exact ⟨_, rfl⟩

section

variable (hdiscard : env.cf.buffOverflowStrategy ≠ bufferOverflowBlock)
include hdiscard

theorem exec_submit (s : State) (t : Tid) (ch : Choice) (c : ConnId) (msg : Message) :
    ∃ s₁ is, exec env s t ch (.submit c msg) = some (s₁, .push is) ∧
      (is = [] ∨ is = [.trySend c ⟨msg, none⟩]) := by
  simp only [exec, hdiscard]
  split
  · exact ⟨_, _, rfl, .inl rfl⟩
  · exact ⟨_, _, rfl, .inr rfl⟩

/-- With the discard strategy, a message without a receipt is sent by a `select`. -/
theorem Reachable.send_receipt {j : Job} (hr : Reachable env s) (h : .send c j ∈ s.code t) :
    j.r ≠ none := by
  refine hr.forall_code (Q := fun _ _ i => ∀ c j, i = .send c j → j.r ≠ none)
    ?_ ?_ ?_ ?_ t _ h c j rfl
  · rintro s t c j h
    cases t <;> cases h
  · exact fun _ _ h => h
  · rintro s t ch i rest nx s' j' hr hx - - hj c ⟨msg, r⟩ rfl
    cases Instr.brings_cases (hx.follows.brings hj) with
    | send =>
      obtain ⟨-, s₁, hexec, -⟩ := hx
      obtain ⟨s₂, is, hexec', his⟩ := exec_submit hdiscard s t ch c msg
      cases hexec.symm.trans hexec'
      obtain rfl | rfl := his <;> simp [Next.instrs] at hj
    | sendSync =>
      obtain ⟨-, s₁, hexec, -⟩ := hx
      cases hexec
      simp [Next.instrs] at hj
      simp [hj]
  · rintro s t ch i rest nx s' j' t' - - hhands - c j rfl
    cases hhands

end

/-! ## The holder of `subs.mu` -/

/-- How far the holder is from unlocking. -/
def State.lockSteps (s : State) : Nat :=
  match s.subsMu with
  | none => 0
  | some t =>
    match s.code t with
    | .submit .. :: _ => 3
    | .send .. :: _ | .trySend .. :: _ => 2
    | _ => 1

/-- The holder can always go on, and gets closer to unlocking. -/
theorem Reachable.holder_step (hdiscard : env.cf.buffOverflowStrategy ≠ bufferOverflowBlock)
    (hr : Reachable env s) (hp : s.panicked = none) (hmu : s.subsMu = some t) :
    ∃ s', step env s (.run t .go) = some s' ∧ s'.lockSteps < s.lockSteps ∧
      (s'.subsMu = none ∨ s'.subsMu = some t) := by
  obtain ⟨c, rfl, hl⟩ := hr.mutex.holder hmu
  have hheld : ∀ {i rest s₁ nx}, s.code (.inbound c) = i :: rest → i.locks = false →
      exec env s (.inbound c) .go i = some (s₁, nx) → s₁.subsMu = some (.inbound c) := by
    intro i rest s₁ nx hcode hi hexec
    have hx : Executes env s (.inbound c) .go i rest nx _ := ⟨hcode, s₁, hexec, rfl⟩
    obtain ⟨-, h⟩ | ⟨⟨c', topic, rfl⟩, -⟩ | ⟨rfl, -⟩ := hx.subsMu
    · exact h.trans hmu
    · cases hi
    · cases hi
  generalize hcode : s.code (.inbound c) = l at hl
  cases hl with
  | @submit msg rest hrest =>
    obtain ⟨s₁, is, hexec, his⟩ := exec_submit hdiscard s (.inbound c) .go c msg
    have hmu₁ := hheld hcode rfl hexec
    refine ⟨_, step_of_exec hp hcode hexec, ?_, .inr hmu₁⟩
    obtain rfl | rfl := his <;>
      simp [State.lockSteps, State.setCode, Next.apply, hmu, hmu₁, hcode]
  | send hrest hblock => exact absurd hblock hdiscard
  | @trySend j rest hrest =>
    obtain ⟨s₁, hexec⟩ := exec_trySend env s (.inbound c) .go c j
    have hmu₁ := hheld hcode rfl hexec
    refine ⟨_, step_of_exec hp hcode hexec, ?_, .inr hmu₁⟩
    simp [State.lockSteps, State.setCode, Next.apply, hmu, hmu₁, hcode]
  | unlock hrest =>
    refine ⟨_, step_of_exec hp hcode rfl, ?_, .inl rfl⟩
    simp [State.lockSteps, State.setCode, hmu, hcode]

/-! ## A worker -/

/-- What a worker has still to find out about the post it handles. -/
def Instr.stage : Instr → Nat
  | .handlePost _ => 2
  | .fanOut _ => 1
  | _ => 0

/-- The steps that an instruction of a worker leads to, at most. -/
def Instr.weight : Instr → Nat
  | .submit .. => 2
  | .send .. | .trySend .. | .storeRetain _ | .deleteRetain _ => 1
  | .deliver _ sl k => 3 * (sl.len - k) + 1
  | _ => 0

/-- What is left to do of a post. -/
def effort (l : List Instr) : ℕ ×ₗ ℕ := toLex ((l.map Instr.stage).sum, (l.map Instr.weight).sum)

def State.backlog (s : State) (w : Nat) : ℕ ×ₗ ℕ ×ₗ ℕ :=
  toLex (s.posts.length, effort (s.code (.worker w)))

theorem effort_lt_of_stage {l l' : List Instr}
    (h : (l'.map Instr.stage).sum < (l.map Instr.stage).sum) : effort l' < effort l :=
  Prod.Lex.toLex_lt_toLex.2 (.inl h)

theorem effort_lt_of_weight {l l' : List Instr}
    (h : (l'.map Instr.stage).sum = (l.map Instr.stage).sum)
    (h' : (l'.map Instr.weight).sum < (l.map Instr.weight).sum) : effort l' < effort l :=
  Prod.Lex.toLex_lt_toLex.2 (.inr ⟨h, h'⟩)

/-- A step towards the subscribers. -/
theorem exec_delivers (hdiscard : env.cf.buffOverflowStrategy ≠ bufferOverflowBlock)
    (hmu : s.subsMu = none) (hi : i.delivers m = true) (hsend : ∀ c j, i = .send c j → j.r ≠ none) :
    ∃ s₁ is, exec env s t .go i = some (s₁, .push is) ∧
      ∀ rest, effort (is ++ rest) < effort (i :: rest) := by
  cases i with
  | fanOut m' =>
    refine ⟨_, _, by simp only [exec, hmu]; rfl, fun rest => effort_lt_of_stage ?_⟩
    simp [Instr.stage]
  | deliver m' sl k =>
    by_cases hk : k < sl.len
    · refine ⟨_, _, by simp only [exec, hk, if_true]; rfl, fun rest => effort_lt_of_weight ?_ ?_⟩
      · cases ((s.subs.heap.contents sl)[k]?).join <;> simp [submitEntry, Instr.stage]
      · cases ((s.subs.heap.contents sl)[k]?).join <;> simp [submitEntry, Instr.weight] <;> omega
    · refine ⟨_, [], by simp only [exec, hk, if_false]; rfl, fun rest => effort_lt_of_weight ?_ ?_⟩
      · simp [Instr.stage]
      · simp [Instr.weight]
  | submit c msg =>
    obtain ⟨s₁, is, hexec, his⟩ := exec_submit hdiscard s t .go c msg
    refine ⟨s₁, is, hexec, fun rest => ?_⟩
    obtain rfl | rfl := his <;>
      exact effort_lt_of_weight (by simp [Instr.stage]) (by simp [Instr.weight])
  | send c j =>
    obtain rfl : j = ⟨.publish m, none⟩ := of_decide_eq_true hi
    exact absurd rfl (hsend c _ rfl)
  | trySend c j =>
    obtain ⟨s₁, hexec⟩ := exec_trySend env s t .go c j
    exact ⟨s₁, [], hexec, fun rest =>
      effort_lt_of_weight (by simp [Instr.stage]) (by simp [Instr.weight])⟩
  | _ => cases hi

/-- A worker that handles a post can go on when `subs.mu` is free, and has less to do
then. -/
theorem Reachable.worker_exec (hdiscard : env.cf.buffOverflowStrategy ≠ bufferOverflowBlock)
    (hr : Reachable env s) (hmu : s.subsMu = none) (hcode : s.code (.worker w) = i :: rest)
    (hi : i ≠ .workerLoop) :
    ∃ s₁ nx, exec env s (.worker w) .go i = some (s₁, nx) ∧
      effort (nx.apply rest) < effort (i :: rest) := by
  have hworker := hr.worker w
  generalize hl : s.code (.worker w) = l at hworker
  rw [hcode] at hl
  cases hworker with
  | idle => exact absurd (List.cons.inj hl).1 hi
  | post m =>
    obtain ⟨rfl, rfl⟩ := List.cons.inj hl
    refine ⟨_, _, rfl, effort_lt_of_stage ?_⟩
    split
    · simp [Next.apply, Instr.stage]
    · simp only [handleLive]
      split <;> simp [Next.apply, Instr.stage]
  | leaves topic =>
    obtain ⟨rfl, rfl⟩ := List.cons.inj hl
    refine ⟨_, .push [], by simp only [exec, hmu]; rfl, effort_lt_of_weight rfl ?_⟩
    simp [Next.apply, Instr.weight]
  | gone => cases hl
  | @live m isRetain is his =>
    cases is with
    | nil =>
      cases isRetain with
      | false => exact absurd (List.cons.inj hl).1 hi
      | true =>
        obtain ⟨rfl, rfl⟩ := List.cons.inj hl
        refine ⟨_, .push [], by simp only [exec, hmu]; rfl, effort_lt_of_weight rfl ?_⟩
        simp [Next.apply, Instr.weight]
    | cons i' is =>
      obtain ⟨rfl, rfl⟩ := List.cons.inj hl
      obtain ⟨s₁, is, hexec, hlt⟩ := exec_delivers (s := s) (t := .worker w) hdiscard hmu
        (Bool.and_eq_true_iff.1 his).1
        fun c j hj => hr.send_receipt hdiscard (t := .worker w) (c := c) (by simp [hcode, hj])
      exact ⟨s₁, .push is, hexec, hlt _⟩

theorem Reachable.worker_step (hdiscard : env.cf.buffOverflowStrategy ≠ bufferOverflowBlock)
    (hr : Reachable env s) (hmu : s.subsMu = none) (hp : s.panicked = none)
    (hcode : s.code (.worker w) = i :: rest) (hwork : i = .workerLoop → s.posts ≠ []) :
    ∃ s', step env s (.run (.worker w) .go) = some s' ∧ s'.subsMu = none ∧
      s'.backlog w < s.backlog w := by
  by_cases hi : i = .workerLoop
  · subst hi
    obtain ⟨m, ms, hposts⟩ := List.exists_cons_of_ne_nil (hwork rfl)
    have hexec : exec env s (.worker w) .go .workerLoop =
        some ({ s with posts := ms }, .push [.handlePost m, .workerLoop]) := by
      simp only [exec, hposts]
    refine ⟨_, step_of_exec hp hcode hexec, hmu, Prod.Lex.toLex_lt_toLex.2 (.inl ?_)⟩
    simp [State.setCode, hposts]
  · obtain ⟨s₁, nx, hexec, hlt⟩ := hr.worker_exec hdiscard hmu hcode hi
    have hx : Executes env s (.worker w) .go i rest nx _ := ⟨hcode, s₁, hexec, rfl⟩
    have hshape := hr.shaped (.worker w)
    rw [hcode] at hshape
    have hin := hshape.worker.resolve_left hi
    refine ⟨_, step_of_exec hp hcode hexec, ?_, Prod.Lex.toLex_lt_toLex.2 (.inr ⟨?_, ?_⟩)⟩
    · obtain ⟨-, h⟩ | ⟨⟨c', topic, rfl⟩, -⟩ | ⟨rfl, -⟩ := hx.subsMu
      · exact h.trans hmu
      · obtain h | ⟨_, h⟩ := hin <;> cases h
      · obtain h | ⟨_, h⟩ := hin <;> cases h
    · obtain h | ⟨m', rfl, -⟩ | ⟨rfl, -⟩ := hx.effects.posts
      · exact congrArg List.length h
      · obtain h | ⟨_, h⟩ := hin <;> cases h
      · exact absurd rfl hi
    · rw [hx.code_self, hcode]
      exact hlt

/-! ## The channel can be emptied -/

/-- The holder of `subs.mu` can unlock on its own. -/
theorem Reachable.unlocks (hdiscard : env.cf.buffOverflowStrategy ≠ bufferOverflowBlock)
    (hr : Reachable env s) :
    ∃ acts s', (∀ a ∈ acts, ∃ t, a = .run t .go ∧ s.subsMu = some t) ∧
      Transition.run (step env) s acts = some s' ∧
      (Reachable env s' ∧ (s'.subsMu = none ∨ s'.subsMu = s.subsMu)) ∧
      (s'.panicked ≠ none ∨ s'.subsMu = none) := by
  refine Transition.exists_run (measure State.lockSteps).wf ?_ s ⟨hr, .inr rfl⟩
  rintro s' ⟨hr', hmu⟩ hD
  push Not at hD
  obtain ⟨t, ht⟩ := Option.ne_none_iff_exists'.1 hD.2
  obtain ⟨s'', hstep, hlt, hmu'⟩ := hr'.holder_step hdiscard hD.1 ht
  have hst := (hmu.resolve_left hD.2).symm.trans ht
  exact ⟨_, s'', ⟨t, rfl, hst⟩, hstep, ⟨hr'.tail hstep, hmu'.imp_right (·.trans hst.symm)⟩, hlt⟩

/-- When `subs.mu` is free, a worker can empty the channel on its own. -/
theorem Reachable.drains (hdiscard : env.cf.buffOverflowStrategy ≠ bufferOverflowBlock)
    (hr : Reachable env s) (hmu : s.panicked ≠ none ∨ s.subsMu = none) (w : Nat) :
    ∃ acts s', (∀ a ∈ acts, a = .run (.worker w) .go) ∧
      Transition.run (step env) s acts = some s' ∧
      (Reachable env s' ∧ (s'.panicked ≠ none ∨ s'.subsMu = none)) ∧
      (s'.panicked ≠ none ∨ s'.code (.worker w) = [] ∨
        s'.code (.worker w) = [.workerLoop] ∧ s'.posts = []) := by
  refine Transition.exists_run (InvImage.wf (State.backlog · w) wellFounded_lt) ?_ s ⟨hr, hmu⟩
  rintro s' ⟨hr', hmu⟩ hD
  push Not at hD
  obtain ⟨hp, hne, hidle⟩ := hD
  obtain ⟨i, rest, hcode⟩ := List.exists_cons_of_ne_nil hne
  have hwork : i = .workerLoop → s'.posts ≠ [] := by
    rintro rfl
    have hrest : rest = [] := (hcode ▸ hr'.shaped (.worker w)).rest_of_loop
    exact hidle (hrest ▸ hcode)
  obtain ⟨s'', hstep, hmu', hlt⟩ :=
    hr'.worker_step hdiscard (hmu.resolve_left fun h => h hp) hp hcode hwork
  exact ⟨_, s'', rfl, hstep, ⟨hr'.tail hstep, .inr hmu'⟩, hlt⟩

/-- With the discard strategy, from any point of any run a worker can handle all posts in
the channel on its own, unless it leaves the pool or a panic ends the process. Nobody else
has to make a step but the holder of `subs.mu`. -/
theorem channel_drained (hdiscard : env.cf.buffOverflowStrategy ≠ bufferOverflowBlock)
    (hr : Reachable env s) (w : Nat) :
    ∃ acts s', (∀ a ∈ acts, ∃ t, a = .run t .go ∧ (t = .worker w ∨ s.subsMu = some t)) ∧
      Transition.run (step env) s acts = some s' ∧
      (s'.panicked ≠ none ∨ s'.code (.worker w) = [] ∨
        s'.code (.worker w) = [.workerLoop] ∧ s'.posts = []) := by
  obtain ⟨acts₁, s₁, hacts₁, hrun₁, ⟨hr₁, -⟩, hD₁⟩ := hr.unlocks hdiscard
  obtain ⟨acts₂, s₂, hacts₂, hrun₂, -, hD₂⟩ := hr₁.drains hdiscard hD₁ w
  refine ⟨acts₁ ++ acts₂, s₂, fun a ha => ?_, Transition.run_append hrun₁ hrun₂, hD₂⟩
  obtain ha | ha := List.mem_append.1 ha
  · obtain ⟨t, rfl, ht⟩ := hacts₁ a ha
    exact ⟨t, rfl, .inr ht⟩
  · exact ⟨_, hacts₂ a ha, .inl rfl⟩

/-- The broker of `fillQueue`, with the discard strategy. -/
def discardEnv : Env where
  cf := { narrowEnv.cf with buffOverflowStrategy := str "discard" }
  grow := (· + 1)

/-- The queue of the client is full, its handler holds `subs.mu`, and a post waits in the
channel. -/
theorem channel_drained_fillQueue :
    ∃ s, Transition.run (step discardEnv) (init discardEnv)
        (fillQueue ++ [.run (.inbound 0) .go, .run (.replay 0) (.recv (.publish false (onT 0))),
          .run (.replay 0) .go]) = some s ∧
      s.subsMu = some (.inbound 0) ∧ s.posts = [onT 4] ∧
      ∃ acts s', (∀ a ∈ acts, ∃ t, a = .run t .go ∧ (t = .worker 0 ∨ s.subsMu = some t)) ∧
        Transition.run (step discardEnv) s acts = some s' ∧
        (s'.panicked ≠ none ∨ s'.code (.worker 0) = [] ∨
          s'.code (.worker 0) = [.workerLoop] ∧ s'.posts = []) := by
  have heval : (Transition.run (step discardEnv) (init discardEnv)
      (fillQueue ++ [.run (.inbound 0) .go, .run (.replay 0) (.recv (.publish false (onT 0))),
        .run (.replay 0) .go])).map (fun s => (s.subsMu, s.posts)) =
      some (some (.inbound 0), [onT 4]) := by decide +kernel
  obtain ⟨s, hrun, hs⟩ := Option.map_eq_some_iff.1 heval
  obtain ⟨hmu, hposts⟩ := Prod.mk.inj hs
  exact ⟨s, hrun, hmu, hposts, channel_drained (by decide +kernel) ⟨_, hrun⟩ 0⟩
