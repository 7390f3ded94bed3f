-- SUMMARY: The worker pool of `subscriptions`: which workers are still there, and what became of every post.
import Mhub.Base.Log
import Mhub.Broker.Effects

/-!
# Workers

A worker that takes a retained PUBLISH without payload deletes the retained message
and returns from `run`, so the pool loses it for good. `Reachable.workers_iff` says
that this is the only way: all workers are there exactly as long as none has taken
such a post.

What becomes of a post is followed through the log. It is posted, taken by a worker,
the worker computes the list of subscribers, reads its entries one after the other,
and submits to those that are not nil. At each stage the event is in the log or the
worker still has the instruction that leads to it (`Reachable.posted`,
`Reachable.taken`, `Reachable.fannedOut`, `Reachable.slot`). The entries are read from
an array that the index and other lists may share; they are the entries of the list
unless a call has changed the index in between.
-/

variable {env : Env} {s s' : State} {t : Tid} {ch : Choice} {i j : Instr} {rest : List Instr}
  {nx : Next} {w : Nat} {m : Publish}

/-! ## The code of a worker -/

/-- The instructions only workers have. -/
def Instr.ofWorker : Instr → Bool
  | .workerLoop | .handlePost _ | .fanOut _ | .deliver .. => true
  | _ => false

theorem Tid.Shaped.ofWorker {l : List Instr} (h : t.Shaped l) (hi : i ∈ l)
    (hw : i.ofWorker = true) : ∃ w, t = .worker w := by
  have hnot : ∀ {is : List Instr}, is.all (!·.ofWorker) = true → i ∉ is := by
    intro is hall hmem
    simpa [hw] using List.all_eq_true.1 hall i hmem
  obtain ⟨body, rfl, hbody⟩ | hx := h
  · obtain hi | hi := List.mem_append.1 hi
    · have hin := List.all_eq_true.1 hbody i hi
      cases t with
      | worker w => exact ⟨w, rfl⟩
      | _ => cases i <;> first | cases hw; done | cases hin
    · obtain rfl := List.mem_singleton.1 hi
      cases t with
      | worker w => exact ⟨w, rfl⟩
      | _ => cases hw
  · cases t with
    | worker w => exact ⟨w, rfl⟩
    | inbound c => exact absurd (hx.subset hi) (hnot rfl)
    | outbound c => exact absurd (hx.subset hi) (hnot rfl)
    | heartbeat c k => obtain rfl | ⟨r, rfl | rfl⟩ | rfl := hx i hi <;> cases hw
    | replay p =>
      obtain rfl := hx
      cases hi

/-- Only the workers that were started have the instructions of a worker. -/
theorem Reachable.worker_of_mem (hr : Reachable env s) (hi : i ∈ s.code t)
    (hw : i.ofWorker = true) : ∃ w, w < env.cf.subscriptionsWorkers ∧ t = .worker w := by
  obtain ⟨w, rfl⟩ := (hr.shaped t).ofWorker hi hw
  exact ⟨w, hr.started (List.ne_nil_of_mem hi), rfl⟩

theorem brings_handlePost (h : i.brings (.handlePost m) = true) : i = .workerLoop := by
  cases Instr.brings_cases h with
  | handlePost => rfl

/-- A worker handles one post at a time. -/
theorem Reachable.handlePost (hr : Reachable env s) (h : .handlePost m ∈ s.code (.worker w)) :
    s.code (.worker w) = [.handlePost m, .workerLoop] := by
  refine hr.invariant (I := fun s => .handlePost m ∈ s.code (.worker w) →
    s.code (.worker w) = [.handlePost m, .workerLoop]) ?_ ?_ h
  · intro s a s' hr hI hstep h
    have hshape := Reachable.shaped hr (.worker w)
    have hcode := step_code hstep (.worker w)
    generalize s.code (.worker w) = l, s'.code (.worker w) = l' at hcode h hI hshape
    cases hcode with
    | same => exact hI h
    | start => simp [Tid.loop] at h
    | @flow i rest nx hf =>
      obtain hnew | hold := Next.mem_apply h
      · obtain rfl := brings_handlePost (hf.brings hnew)
        obtain rfl := Tid.Shaped.rest_of_loop (t := .worker w) hshape
        cases hf with
        | falls hf => cases hf
        | post m' =>
          obtain rfl : m = m' := by simpa [Next.instrs] using hnew
          rfl
      · have hold := hI (List.mem_cons_of_mem _ hold)
        cases hold
        simp at *
  · intro h
    simp only [init] at h
    split at h <;> simp at h

/-- The head of a worker's code. -/
theorem Tid.Shaped.worker (h : (Tid.worker w).Shaped (i :: rest)) :
    i = .workerLoop ∨ i.inWorker = true ∨ ∃ topic, i = .deleteRetain topic := by
  obtain ⟨body, hl, hbody⟩ | ⟨topic, hx⟩ := h
  · cases body with
    | nil => exact .inl (List.cons.inj hl).1
    | cons j body =>
      obtain ⟨rfl, -⟩ := List.cons.inj hl
      simp only [List.all_cons, Bool.and_eq_true] at hbody
      exact .inr (.inl hbody.1)
  · exact .inr (.inr ⟨topic, List.mem_singleton.1 (hx.subset (List.mem_cons_self ..))⟩)

/-- A worker leaves its loop only to delete a retained message. -/
theorem Reachable.worker_jump {l : List Instr} (hr : Reachable env s)
    (hx : Executes env s (.worker w) ch i rest (.jump l) s') :
    ∃ m, i = .handlePost m ∧ rest = [.workerLoop] := by
  have hshape := hr.shaped (.worker w)
  rw [hx.code] at hshape
  have hf := hx.follows
  have hi := hshape.worker
  cases hf with
  | @deleteRetain m =>
    have hcode := hr.handlePost (w := w) (m := m) (by rw [hx.code]; exact List.mem_cons_self ..)
    rw [hx.code] at hcode
    exact ⟨m, rfl, (List.cons.inj hcode).2⟩
  | _ => simp [Instr.inWorker] at hi

/-- What a worker has to do stays until it does it. -/
theorem Executes.worker_stays (hr : Reachable env s) (hx : Executes env s t ch i rest nx s')
    (hj : j ∈ s.code (.worker w)) (hne : j ≠ .workerLoop) :
    j ∈ s'.code (.worker w) ∨ t = .worker w ∧ i = j := by
  by_cases ht : .worker w = t
  · subst ht
    rw [hx.code] at hj
    obtain rfl | hj := List.mem_cons.1 hj
    · exact .inr ⟨rfl, rfl⟩
    · refine .inl ?_
      rw [hx.code_self]
      cases nx with
      | push is => exact List.mem_append_right _ hj
      | jump l =>
        obtain ⟨m, -, rfl⟩ := hr.worker_jump hx
        exact absurd (List.mem_singleton.1 hj) hne
  · have htouch := hx.touch ht
    refine .inl ?_
    generalize s.code (.worker w) = l, s'.code (.worker w) = l' at htouch hj
    cases htouch with
    | same => exact hj
    | post _ => exact List.mem_cons_of_mem _ hj

/-! ## The pool -/

/-- The worker still receives from the posts channel. -/
def State.Receives (s : State) (w : Nat) : Prop := .workerLoop ∈ s.code (.worker w)

/-- No worker has taken a retained PUBLISH without payload. -/
def State.NoneDeleted (s : State) : Prop :=
  ∀ t m, .taken t m true ∈ s.trace → m.payload ≠ []

theorem Executes.handlePost (hx : Executes env s t ch (.handlePost m) rest nx s') :
    s'.trace = s.trace ++ [Event.taken t m (s.retainBit m.obj)] ∧
    (s.retainBit m.obj = true ∧ m.payload = [] ∧ nx = .jump [.deleteRetain m.topicName] ∨
      ¬ (s.retainBit m.obj = true ∧ m.payload = []) ∧
        nx = .push (handleLive m (s.retainBit m.obj))) := by
  obtain ⟨-, s₁, h, rfl⟩ := hx
  cases h
  refine ⟨rfl, ?_⟩
  by_cases hdel : s.retainBit m.obj = true ∧ m.payload = []
  · exact .inl ⟨hdel.1, hdel.2, by simp [hdel]⟩
  · refine .inr ⟨hdel, if_neg ?_⟩
    simpa using hdel

theorem brings_workerLoop (h : i.brings .workerLoop = true) : i = .workerLoop := by
  cases Instr.brings_cases h with
  | workerLoop => rfl

/-- A worker that is gone does not come back. -/
theorem Executes.receives (hx : Executes env s t ch i rest nx s') (h : s'.Receives w) :
    s.Receives w := by
  obtain h | ⟨rfl, h⟩ | h := hx.mem_code h
  · exact h
  · obtain rfl := brings_workerLoop (hx.follows.brings h)
    rw [State.Receives, hx.code]
    exact List.mem_cons_self ..
  · cases h

/-- A worker that leaves has taken a retained PUBLISH without payload. -/
theorem Executes.leaves (hr : Reachable env s) (hx : Executes env s t ch i rest nx s')
    (h : s.Receives w) (h' : ¬ s'.Receives w) :
    ∃ m, .taken (.worker w) m true ∈ s'.trace ∧ m.payload = [] := by
  by_cases ht : .worker w = t
  · subst ht
    rw [State.Receives, hx.code_self] at h'
    rw [State.Receives, hx.code] at h
    cases nx with
    | push is =>
      obtain rfl | hrest := List.mem_cons.1 h
      · have hf := hx.follows
        cases hf with
        | falls hf => cases hf
        | post m => simp [Next.apply] at h'
      · exact absurd (List.mem_append_right _ hrest) h'
    | jump l =>
      obtain ⟨m, rfl, rfl⟩ := hr.worker_jump hx
      obtain ⟨htr, ⟨hretain, hempty, -⟩ | ⟨-, hnx⟩⟩ := hx.handlePost
      · exact ⟨m, by simp [htr, hretain], hempty⟩
      · cases hnx
  · have htouch := hx.touch ht
    rw [State.Receives] at h h'
    generalize s.code (.worker w) = l, s'.code (.worker w) = l' at htouch h h'
    cases htouch with
    | same => exact absurd h h'
    | post _ => simp at h'

/-- A worker is missing exactly when it has taken a retained PUBLISH without payload. -/
theorem Reachable.receives_iff (hr : Reachable env s) (hw : w < env.cf.subscriptionsWorkers) :
    s.Receives w ↔ ∀ m, .taken (.worker w) m true ∈ s.trace → m.payload ≠ [] := by
  refine hr.invariant (I := fun s => s.Receives w ↔
    ∀ m, .taken (.worker w) m true ∈ s.trace → m.payload ≠ []) ?_
    (by simp [init, hw, State.Receives])
  intro s a s' hr hI hstep
  obtain ⟨-, ⟨-, rfl⟩ | ⟨-, rfl⟩ | ⟨t, ch, i, rest, nx, -, hx⟩⟩ := step_cases hstep
  · simpa [State.Receives, State.accept, State.log, State.setCode] using hI
  · simpa [State.Receives, State.acceptPeer, State.log, State.setCode] using hI
  · constructor
    · intro h m hm hempty
      obtain hm | ⟨rfl, rfl, hretain⟩ := hx.mem_trace hm
      · exact hI.1 (hx.receives h) m hm hempty
      · -- the worker has just jumped out of its loop
        obtain ⟨-, ⟨-, -, rfl⟩ | ⟨hnot, -⟩⟩ := hx.handlePost
        · simp [State.Receives, hx.code_self, Next.apply] at h
        · exact hnot ⟨hretain.symm, hempty⟩
    · intro h
      by_contra h'
      have hold : s.Receives w := hI.2 fun m hm => h m (hx.trace_mono hm)
      obtain ⟨m, hm, hempty⟩ := hx.leaves hr hold h'
      exact h m hm hempty

/-- Only workers take posts. -/
theorem Reachable.worker_of_taken {isRetain : Bool} (hr : Reachable env s)
    (h : .taken t m isRetain ∈ s.trace) :
    ∃ w, w < env.cf.subscriptionsWorkers ∧ t = .worker w := by
  refine hr.invariant (I := fun s => .taken t m isRetain ∈ s.trace →
    ∃ w, w < env.cf.subscriptionsWorkers ∧ t = .worker w) ?_ (by simp [init]) h
  intro s a s' hr hI hstep h
  obtain ⟨-, ⟨-, rfl⟩ | ⟨-, rfl⟩ | ⟨t', ch, i, rest, nx, -, hx⟩⟩ := step_cases hstep
  · exact hI (by simpa [State.accept, State.log, State.setCode] using h)
  · exact hI h
  · obtain h | ⟨rfl, rfl, -⟩ := hx.mem_trace h
    · exact hI h
    · refine Reachable.worker_of_mem (i := .handlePost m) hr ?_ rfl
      rw [hx.code]
      exact List.mem_cons_self ..

/-- The pool is complete exactly as long as no worker has taken a retained PUBLISH
without payload. -/
theorem Reachable.workers_iff (hr : Reachable env s) :
    (∀ w < env.cf.subscriptionsWorkers, s.Receives w) ↔ s.NoneDeleted := by
  constructor
  · intro h t m hm
    obtain ⟨w, hw, rfl⟩ := hr.worker_of_taken hm
    exact (hr.receives_iff hw).1 (h w hw) m hm
  · intro h w hw
    exact (hr.receives_iff hw).2 fun m hm => h _ m hm

/-! ## The way of a post -/

/-- A post goes into the channel, or into the hands of a worker that waits for one. -/
theorem Executes.post (hx : Executes env s t ch (.post m) rest nx s') :
    m ∈ s'.posts ∨ ∃ w, .handlePost m ∈ s'.code (.worker w) := by
  obtain ⟨hcode, s₁, hexec, rfl⟩ := hx
  simp only [exec] at hexec
  split at hexec <;> cases hexec
  next hpost =>
  obtain rfl | ⟨w, rest', hw, rfl⟩ := State.post_eq_some hpost
  · exact .inl (List.mem_append_right _ (List.mem_cons_self ..))
  · have hne : Tid.worker w ≠ t := by
      intro heq
      rw [heq, hcode] at hw
      cases hw
    exact .inr ⟨w, by simp [State.setCode, State.log, hne]⟩

/-- A worker takes the post at the head of the channel. -/
theorem Executes.workerLoop (hx : Executes env s t ch .workerLoop rest nx s')
    (h : s.posts = m :: s'.posts) : .handlePost m ∈ s'.code t := by
  rw [hx.code_self]
  obtain ⟨-, s₁, hexec, -⟩ := hx
  simp only [exec, h, Option.some.injEq, Prod.mk.injEq] at hexec
  rw [← hexec.2]
  exact List.mem_cons_self ..

/-- Every post is in the channel, in the hands of a worker, or was taken. -/
theorem Reachable.posted (hr : Reachable env s) (h : .posted m ∈ s.trace) :
    m ∈ s.posts ∨ (∃ w, .handlePost m ∈ s.code (.worker w)) ∨
      ∃ w isRetain, .taken (.worker w) m isRetain ∈ s.trace := by
  refine hr.invariant (I := fun s => .posted m ∈ s.trace → m ∈ s.posts ∨
    (∃ w, .handlePost m ∈ s.code (.worker w)) ∨
      ∃ w isRetain, .taken (.worker w) m isRetain ∈ s.trace) ?_ (by simp [init]) h
  intro s a s' hr hI hstep h
  obtain ⟨-, ⟨-, rfl⟩ | ⟨-, rfl⟩ | ⟨t, ch, i, rest, nx, -, hx⟩⟩ := step_cases hstep
  · simpa [State.accept, State.log, State.setCode] using
      hI (by simpa [State.accept, State.log, State.setCode] using h)
  · simpa [State.acceptPeer, State.setCode] using hI h
  · obtain h | rfl := hx.mem_trace h
    · obtain hmem | ⟨w, hw⟩ | ⟨w, isRetain, htaken⟩ := hI h
      · obtain heq | ⟨m', -, heq⟩ | ⟨rfl, m', heq⟩ := hx.effects.posts
        · exact .inl (heq ▸ hmem)
        · exact .inl (heq ▸ List.mem_append_left _ hmem)
        · obtain rfl | hmem := List.mem_cons.1 (heq ▸ hmem)
          · obtain ⟨w, -, rfl⟩ := Reachable.worker_of_mem (i := .workerLoop) hr
              (by rw [hx.code]; exact List.mem_cons_self ..) rfl
            exact .inr (.inl ⟨w, hx.workerLoop heq⟩)
          · exact .inl hmem
      · obtain hstay | ⟨rfl, rfl⟩ := hx.worker_stays hr hw (by simp)
        · exact .inr (.inl ⟨w, hstay⟩)
        · exact .inr (.inr ⟨w, s.retainBit m.obj, by simp [hx.handlePost.1]⟩)
      · exact .inr (.inr ⟨w, isRetain, hx.trace_mono htaken⟩)
    · exact hx.post.imp_right .inl

/-- An event that leaves a worker with something to do: the worker still has to, or
has done it. -/
theorem Reachable.carried_out {e : Event} {P : Event → Prop} (hne : j ≠ .workerLoop)
    (hlog : ∀ {s t ch i rest nx s'}, Reachable env s → Executes env s t ch i rest nx s' →
      e.LoggedBy s t i → s'.trace = s.trace ++ [e] → j ∈ s'.code (.worker w))
    (hdone : ∀ {s ch rest nx s'}, Executes env s (.worker w) ch j rest nx s' →
      ∃ e' ∈ s'.trace, P e')
    (hr : Reachable env s) (he : e ∈ s.trace) (hacc : ∀ c, e ≠ .accepted c) :
    j ∈ s.code (.worker w) ∨ ∃ e' ∈ s.trace, P e' := by
  refine hr.invariant (I := fun s => e ∈ s.trace →
    j ∈ s.code (.worker w) ∨ ∃ e' ∈ s.trace, P e') ?_ (by simp [init]) he
  intro s a s' hr hI hstep h
  obtain ⟨-, ⟨-, rfl⟩ | ⟨-, rfl⟩ | ⟨t, ch, i, rest, nx, -, hx⟩⟩ := step_cases hstep
  · have hold : e ∈ s.trace := by
      simpa [State.accept, State.log, State.setCode, hacc] using h
    refine (hI hold).imp (fun h => ?_) (Exists.imp fun e' he' => ?_)
    · simpa [State.accept, State.log, State.setCode] using h
    · exact ⟨List.mem_append_left _ he'.1, he'.2⟩
  · simpa [State.acceptPeer, State.setCode] using hI h
  · by_cases hold : e ∈ s.trace
    · obtain hmem | ⟨e', he', hP⟩ := hI hold
      · obtain hstay | ⟨rfl, rfl⟩ := hx.worker_stays hr hmem hne
        · exact .inl hstay
        · exact .inr (hdone hx)
      · exact .inr ⟨e', hx.trace_mono he', hP⟩
    · obtain htr | ⟨e', htr, hby⟩ := hx.trace <;> rw [htr] at h
      · exact absurd h hold
      · obtain rfl := List.mem_singleton.1 ((List.mem_append.1 h).resolve_left hold)
        exact .inl (hlog hr hx hby htr)

/-- A post that was taken deletes a retained message, or gets to its subscribers. -/
theorem Reachable.taken {isRetain : Bool} (hr : Reachable env s)
    (h : .taken (.worker w) m isRetain ∈ s.trace) (hlive : ¬ (isRetain = true ∧ m.payload = [])) :
    .fanOut m ∈ s.code (.worker w) ∨ ∃ L, .fannedOut (.worker w) m L ∈ s.trace := by
  have hdue := Reachable.carried_out (w := w) (j := .fanOut m)
    (P := fun e => ∃ L, e = .fannedOut (.worker w) m L) nofun ?_ ?_ hr h nofun
  · obtain hmem | ⟨_, he, L, rfl⟩ := hdue
    · exact .inl hmem
    · exact .inr ⟨L, he⟩
  · intro s t ch i rest nx s' _ hx ⟨ht, hi, hretain⟩ _
    subst ht hi hretain
    obtain ⟨-, ⟨hretain, hempty, -⟩ | ⟨-, rfl⟩⟩ := hx.handlePost
    · exact absurd ⟨hretain, hempty⟩ hlive
    · rw [hx.code_self]
      exact List.mem_cons_self ..
  · intro s ch rest nx s' hx
    obtain ⟨-, s₁, hexec, rfl⟩ := hx
    simp only [exec] at hexec
    split at hexec <;> cases hexec
    exact ⟨_, List.mem_append_right _ (List.mem_cons_self ..), _, rfl⟩

theorem Executes.deliver {sl : Slice} {k : Nat}
    (hx : Executes env s t ch (.deliver m sl k) rest nx s') :
    s'.subs = s.subs ∧
    ((∃ entry, k < sl.len ∧ entry = (s.subs.heap.contents sl)[k]?.join ∧
        s'.trace = s.trace ++ [Event.slot t m k entry] ∧
        nx = .push (submitEntry m entry ++ [Instr.deliver m sl (k + 1)])) ∨
      sl.len ≤ k ∧ s'.trace = s.trace ++ [Event.delivered t m]) := by
  obtain ⟨-, s₁, h, rfl⟩ := hx
  simp only [exec] at h
  split at h <;> cases h
  · next hk => exact ⟨rfl, .inl ⟨_, hk, rfl, rfl, rfl⟩⟩
  · next hk => exact ⟨rfl, .inr ⟨Nat.le_of_not_lt hk, rfl⟩⟩

/-- A worker submits to every entry it has read that is not nil. -/
theorem Reachable.slot {k : Nat} {c : ConnId} (hr : Reachable env s)
    (h : .slot (.worker w) m k (some c) ∈ s.trace) :
    .submit c (.publish m) ∈ s.code (.worker w) ∨
      .submitted (.worker w) c (.publish m) ∈ s.trace := by
  have hdue := Reachable.carried_out (w := w) (j := .submit c (.publish m))
    (P := (· = .submitted (.worker w) c (.publish m))) nofun ?_ ?_ hr h nofun
  · obtain hmem | ⟨_, he, rfl⟩ := hdue
    · exact .inl hmem
    · exact .inr he
  · intro s t ch i rest nx s' _ hx ⟨ht, sl, hi⟩ htr
    subst ht hi
    obtain ⟨-, ⟨entry, -, -, htr', rfl⟩ | ⟨-, htr'⟩⟩ := hx.deliver
    · obtain rfl : some c = entry := by simpa using htr.symm.trans htr'
      rw [hx.code_self]
      exact List.mem_cons_self ..
    · simpa using htr.symm.trans htr'
  · intro s ch rest nx s' hx
    obtain ⟨-, s₁, hexec, rfl⟩ := hx
    simp only [exec] at hexec
    repeat' split at hexec
    all_goals
      cases hexec
      exact ⟨_, List.mem_append_right _ (List.mem_cons_self ..), rfl⟩

/-! ## The list of subscribers -/

/-- After the list `L` was computed, `t` has read its entry `k`. What was read is the
entry of the list unless a call has changed the index in between. -/
def SlotRead (t : Tid) (m : Publish) (L : List (Option ConnId)) (k : Nat) (post : List Event) :
    Prop :=
  ∃ mid entry post', post = mid ++ .slot t m k entry :: post' ∧
    ((∀ call, .index call ∉ mid) → L[k]? = some entry)

/-- The worker is reading the list. Of what it has not read yet, nothing has changed
unless a call has changed the index. -/
def State.Reading (s : State) (t : Tid) (m : Publish) (L : List (Option ConnId))
    (post : List Event) : Prop :=
  ∃ sl k, .deliver m sl k ∈ s.code t ∧ sl.len = L.length ∧
    ((∀ call, .index call ∉ post) → s.subs.Snapshot m.topicName sl ∧
      s.subs.slots m.topicName ++ s.subs.wildMatches m.topicName = L) ∧
    ∀ k' < k, SlotRead t m L k' post

variable {L : List (Option ConnId)} {pre post : List Event}

theorem SlotRead.mono {k : Nat} (h : SlotRead t m L k post) (e : Event) :
    SlotRead t m L k (post ++ [e]) := by
  obtain ⟨mid, entry, post', rfl, hentry⟩ := h
  exact ⟨mid, entry, post' ++ [e], by simp, hentry⟩

/-- Behind an event of the log there is nothing yet, or what was there before and what
the step has logged. -/
theorem trace_since {a : BrokerAction} {e : Event} (hstep : step env s a = some s')
    (h : s'.trace = pre ++ e :: post) :
    (post = [] ∧ s.trace = pre ∧ ∃ t ch i rest nx, a = .run t ch ∧
        Executes env s t ch i rest nx s' ∧ e.LoggedBy s t i) ∨
      (∃ c, e = .accepted c) ∨
      ∃ post₀ es, s.trace = pre ++ e :: post₀ ∧ s'.trace = s.trace ++ es ∧ post = post₀ ++ es := by
  have hsame : s'.trace = s.trace → ∃ post₀ es, s.trace = pre ++ e :: post₀ ∧
      s'.trace = s.trace ++ es ∧ post = post₀ ++ es := fun htr =>
    ⟨post, [], htr ▸ h, by rw [htr, List.append_nil], (List.append_nil _).symm⟩
  obtain ⟨-, ⟨-, rfl⟩ | ⟨-, rfl⟩ | ⟨t, ch, i, rest, nx, rfl, hx⟩⟩ := step_cases hstep
  · obtain ⟨-, -, he⟩ | ⟨post₀, hpost, hold⟩ := concat_eq_append_cons_cases h
    · exact .inr (.inl ⟨_, he.symm⟩)
    · exact .inr (.inr ⟨post₀, _, hold, rfl, hpost⟩)
  · exact .inr (.inr (hsame rfl))
  · obtain htr | ⟨e', htr, hlog⟩ := hx.trace
    · exact .inr (.inr (hsame htr))
    · obtain ⟨rfl, hpre, rfl⟩ | ⟨post₀, hpost, hold⟩ := concat_eq_append_cons_cases (htr ▸ h)
      · exact .inl ⟨rfl, hpre, t, ch, i, rest, nx, rfl, hx, hlog⟩
      · exact .inr (.inr ⟨post₀, [e'], hold, htr, hpost⟩)

/-- What a step that makes no call leaves of a list that is being read. -/
theorem Executes.snapshot (hr : Reachable env s) (hx : Executes env s t ch i rest nx s')
    (hi : ∀ k, s'.trace ≠ s.trace ++ [Event.index k]) {topic : GoString} {sl : Slice}
    (h : s.subs.Snapshot topic sl ∧ s.subs.slots topic ++ s.subs.wildMatches topic = L) :
    s'.subs.Snapshot topic sl ∧ s'.subs.slots topic ++ s'.subs.wildMatches topic = L := by
  have hv := hr.refines.valid
  obtain ⟨k, -, -, htr⟩ | ⟨-, heq | ⟨m, -, heq⟩ | ⟨retain, heq⟩⟩ := hx.effects.subs
  · exact absurd htr (hi k)
  · rw [heq]
    exact h
  · rw [heq, Subscriptions.slots_subscribers hv, Subscriptions.wildMatches_subscribers]
    exact ⟨h.1.subscribers hv m.topicName, h.2⟩
  · rw [heq]
    exact ⟨⟨h.1.valid, h.1.contents, h.1.own⟩, h.2⟩

theorem Executes.fanOut (hr : Reachable env s) (hx : Executes env s t ch (.fanOut m) rest nx s')
    (htr : s'.trace = s.trace ++ [Event.fannedOut t m L]) : s'.Reading t m L [] := by
  have hv := hr.refines.valid
  have hcode := hx.code_self
  obtain ⟨-, s₁, hexec, rfl⟩ := hx
  simp only [exec] at hexec
  split at hexec <;> cases hexec
  obtain rfl : _ = L := by simpa [State.log, State.setCode] using htr
  have hsnap := Subscriptions.snapshot_subscribers (g := env.grow) hv m.topicName
  refine ⟨_, 0, by rw [hcode]; exact List.mem_cons_self .., hsnap.valid.length_contents.symm, ?_,
    by simp⟩
  exact fun _ => ⟨hsnap, hsnap.contents.symm⟩

/-- One step of a worker that has computed the list, or of another goroutine. `post₀`
is what the log had after the list, `post` is what it has now. -/
theorem Executes.reading (hr : Reachable env s) (hx : Executes env s t ch i rest nx s')
    {post₀ : List Event}
    (hpost : s'.trace = s.trace ∧ post = post₀ ∨
      ∃ e, s'.trace = s.trace ++ [e] ∧ post = post₀ ++ [e])
    (h : s.Reading (.worker w) m L post₀) :
    s'.Reading (.worker w) m L post ∨ ∀ k < L.length, SlotRead (.worker w) m L k post := by
  have hmono : ∀ k, SlotRead (.worker w) m L k post₀ → SlotRead (.worker w) m L k post := by
    intro k hk
    obtain ⟨-, rfl⟩ | ⟨e, -, rfl⟩ := hpost
    · exact hk
    · exact hk.mono e
  have hindex : (∀ call, .index call ∉ post) →
      (∀ call, .index call ∉ post₀) ∧ ∀ k, s'.trace ≠ s.trace ++ [Event.index k] := by
    intro hno
    obtain ⟨htr, rfl⟩ | ⟨e, htr, rfl⟩ := hpost
    · exact ⟨hno, by simp [htr]⟩
    · refine ⟨fun call hmem => hno call (List.mem_append_left _ hmem), ?_⟩
      intro k heq
      obtain rfl : e = .index k := by simpa using htr.symm.trans heq
      exact hno k (by simp)
  obtain ⟨sl, k, hmem, hlen, hsnap, hread⟩ := h
  have hsnap' := fun hno => hx.snapshot hr (hindex hno).2 (hsnap (hindex hno).1)
  obtain hstay | ⟨rfl, rfl⟩ := hx.worker_stays hr hmem nofun
  · exact .inl ⟨sl, k, hstay, hlen, hsnap', fun k' hk' => hmono k' (hread k' hk')⟩
  · obtain ⟨-, ⟨entry, hk, hentry, htr, rfl⟩ | ⟨hk, -⟩⟩ := hx.deliver
    · refine .inl ⟨sl, k + 1, by simp [hx.code_self, Next.apply], hlen, hsnap', ?_⟩
      intro k' hk'
      obtain hlt | rfl := Nat.lt_succ_iff_lt_or_eq.1 hk'
      · exact hmono k' (hread k' hlt)
      · -- the entry read in this step
        have hpost : post = post₀ ++ [Event.slot (.worker w) m k' entry] := by
          obtain ⟨htr', -⟩ | ⟨e, htr', rfl⟩ := hpost
          · simpa using htr'.symm.trans htr
          · simpa using htr'.symm.trans htr
        refine ⟨post₀, entry, [], hpost, fun hno => ?_⟩
        obtain ⟨hsnap, hL⟩ := hsnap hno
        have hlt : k' < L.length := hlen ▸ hk
        rw [hsnap.contents, hL, List.getElem?_eq_getElem hlt] at hentry
        rw [hentry, List.getElem?_eq_getElem hlt]
        rfl
    · exact .inr fun k' hk' => hmono k' (hread k' (by omega))

/-- A worker reads the list it has computed to its end. -/
theorem Reachable.fannedOut (hr : Reachable env s)
    (h : s.trace = pre ++ .fannedOut (.worker w) m L :: post) :
    s.Reading (.worker w) m L post ∨ ∀ k < L.length, SlotRead (.worker w) m L k post := by
  refine hr.invariant (I := fun s => ∀ post, s.trace = pre ++ .fannedOut (.worker w) m L :: post →
    s.Reading (.worker w) m L post ∨ ∀ k < L.length, SlotRead (.worker w) m L k post) ?_ ?_ post h
  · intro s a s' hr hI hstep post h
    obtain ⟨-, ⟨-, rfl⟩ | ⟨-, rfl⟩ | ⟨t, ch, i, rest, nx, -, hx⟩⟩ := step_cases hstep
    · have h : s.trace ++ [Event.accepted s.nconns] = pre ++ .fannedOut (.worker w) m L :: post := h
      obtain ⟨-, -, he⟩ | ⟨post₀, rfl, hold⟩ := concat_eq_append_cons_cases h
      · cases he
      · refine (hI post₀ hold).imp ?_ fun h k hk => (h k hk).mono _
        intro ⟨sl, k, hmem, hlen, hsnap, hread⟩
        refine ⟨sl, k, by simpa [State.accept, State.log, State.setCode] using hmem, hlen, ?_,
          fun k' hk' => (hread k' hk').mono _⟩
        exact fun hno => hsnap fun call hcall => hno call (List.mem_append_left _ hcall)
    · exact hI post h
    · obtain htr | ⟨e, htr, hlog⟩ := hx.trace
      · obtain h | h := hI post (htr ▸ h)
        · exact hx.reading hr (.inl ⟨htr, rfl⟩) h
        · exact .inr h
      · obtain ⟨rfl, -, rfl⟩ | ⟨post₀, rfl, hold⟩ := concat_eq_append_cons_cases (htr ▸ h)
        · obtain ⟨rfl, rfl⟩ := hlog
          exact .inl (hx.fanOut hr htr)
        · obtain h | h := hI post₀ hold
          · exact hx.reading hr (.inr ⟨e, htr, rfl⟩) h
          · exact .inr fun k hk => (h k hk).mono e
  · intro post h
    simp [init] at h

/-! ## No post is left behind -/

/-- The worker handles no post and cannot go on: it waits for one, or is gone. -/
def State.Idle (env : Env) (s : State) (w : Nat) : Prop :=
  (∀ i ∈ s.code (.worker w), i = .workerLoop) ∧ ∀ ch, step env s (.run (.worker w) ch) = none

/-- The post was submitted to the subscribers. A worker has computed the list, read
all its entries, and submitted to those that are not nil. What it has read are the
entries of the list unless a call has changed the index in between. -/
def State.Handled (s : State) (m : Publish) : Prop :=
  ∃ w L pre post, s.trace = pre ++ .fannedOut w m L :: post ∧ ∀ k < L.length,
    ∃ mid entry post', post = mid ++ .slot w m k entry :: post' ∧
      ((∀ call, .index call ∉ mid) → L[k]? = some entry) ∧
      ∀ c, entry = some c → .submitted w c (.publish m) ∈ s.trace

theorem Reachable.handled (hr : Reachable env s) (hnone : s.NoneDeleted)
    (hidle : ∀ w < env.cf.subscriptionsWorkers, s.Idle env w) (hposts : s.posts = [])
    (h : .posted m ∈ s.trace) : s.Handled m := by
  -- an idle worker has nothing left to do
  have hnot : ∀ {w i}, i ∈ s.code (.worker w) → i ≠ .workerLoop → False := by
    intro w i hi hne
    exact hne ((hidle w (hr.started (List.ne_nil_of_mem hi))).1 i hi)
  obtain hmem | ⟨w, hmem⟩ | ⟨w, isRetain, htaken⟩ := hr.posted h
  · simp [hposts] at hmem
  · exact (hnot hmem nofun).elim
  · have hlive : ¬ (isRetain = true ∧ m.payload = []) := by
      rintro ⟨rfl, hempty⟩
      exact hnone _ m htaken hempty
    obtain hmem | ⟨L, hL⟩ := hr.taken htaken hlive
    · exact (hnot hmem nofun).elim
    · obtain ⟨pre, post, htr⟩ := List.append_of_mem hL
      obtain ⟨sl, k, hmem, -⟩ | hread := hr.fannedOut htr
      · exact (hnot hmem nofun).elim
      · refine ⟨.worker w, L, pre, post, htr, fun k hk => ?_⟩
        obtain ⟨mid, entry, post', rfl, hentry⟩ := hread k hk
        refine ⟨mid, entry, post', rfl, hentry, ?_⟩
        rintro c rfl
        exact (hr.slot (k := k) (by simp [htr])).resolve_left fun hmem => hnot hmem nofun

/-- The pool keeps its workers exactly as long as no worker takes a retained PUBLISH
without payload. Until then, when all workers are idle the channel is empty and
every post was handled. -/
theorem worker_pool (hn : 1 ≤ env.cf.subscriptionsWorkers) (hr : Reachable env s) :
    ((∀ w < env.cf.subscriptionsWorkers, s.Receives w) ↔ s.NoneDeleted) ∧
    (s.NoneDeleted → s.panicked = none → (∀ w < env.cf.subscriptionsWorkers, s.Idle env w) →
      s.posts = [] ∧ ∀ m, .posted m ∈ s.trace → s.Handled m) := by
  refine ⟨hr.workers_iff, fun hnone hpanic hidle => ?_⟩
  have hposts : s.posts = [] := by
    obtain ⟨hloop, hstuck⟩ := hidle 0 hn
    have hrecv : s.Receives 0 := hr.workers_iff.2 hnone 0 hn
    cases hcode : s.code (.worker 0) with
    | nil => simp [State.Receives, hcode] at hrecv
    | cons i rest =>
      obtain rfl := hloop i (by simp [hcode])
      cases hp : s.posts with
      | nil => rfl
      | cons m ms =>
        have hstep := hstuck .go
        simp [step, hpanic, hcode, exec, hp] at hstep
  exact ⟨hposts, fun m hm => hr.handled hnone hidle hposts hm⟩

/-- A broker with one worker. -/
def workerEnv : Env where
  cf := { allowAnonymousConnect := true, subscriptionsWorkers := 1 }
  grow := (· + 1)

/-- Client `0` connects and subscribes to `t`. -/
def subscribeRun : List BrokerAction :=
  .accept :: .run (.inbound 0) (.recv (.connect (.named (str "a")))) ::
    List.replicate 9 (.run (.inbound 0) .go) ++
  .run (.inbound 0) (.recv (.subscribe ⟨1, [(str "t", .atMostOnce)]⟩)) ::
    List.replicate 7 (.run (.inbound 0) .go)

/-- Client `0` publishes on `t`. -/
def publishRun (retain : Bool) (payload : List UInt8) : List BrokerAction :=
  .run (.inbound 0) (.recv (.publish retain ⟨0, .atMostOnce, str "t", 1, payload⟩)) ::
    .run (.inbound 0) (.pour true) :: List.replicate 4 (.run (.inbound 0) .go)

theorem worker_pool_publishRun :
    ∃ s, Reachable workerEnv s ∧ s.trace.any (· matches .posted _) = true ∧ s.posts = [] ∧
      ∀ m, .posted m ∈ s.trace → s.Handled m := by
  have heval : (Transition.run (step workerEnv) (init workerEnv)
      (subscribeRun ++ publishRun true (str "x") ++ List.replicate 8 (.run (.worker 0) .go))).map
      (fun s => (s.code (.worker 0), s.posts, s.panicked, s.trace.any (· matches .posted _),
        s.trace.all fun e => match e with
          | .taken _ m true => !m.payload.isEmpty
          | _ => true)) = some ([.workerLoop], [], none, true, true) := by
    decide +kernel
  obtain ⟨s, hrun, h⟩ := Option.map_eq_some_iff.1 heval
  simp only [Prod.mk.injEq] at h
  obtain ⟨hcode, hposts, hpanic, hposted, hall⟩ := h
  have hr : Reachable workerEnv s := ⟨_, hrun⟩
  have hnone : s.NoneDeleted := by
    intro t m hm
    simpa using List.all_eq_true.1 hall _ hm
  have hidle : ∀ w < workerEnv.cf.subscriptionsWorkers, s.Idle workerEnv w := by
    intro w hw
    obtain rfl : w = 0 := Nat.lt_one_iff.1 hw
    exact ⟨by simp [hcode], by simp [step, hpanic, hcode, exec, hposts]⟩
  exact ⟨s, hr, hposted, (worker_pool (by decide) hr).2 hnone hpanic hidle⟩

/-- The only worker takes a retained PUBLISH without payload and is gone. The next
post stays in the channel. -/
theorem worker_lost :
    (Transition.run (step workerEnv) (init workerEnv)
      (subscribeRun ++ publishRun true [] ++ List.replicate 3 (.run (.worker 0) .go) ++
        publishRun false (str "x"))).map
      (fun s => (s.code (.worker 0), s.posts.length, s.panicked)) = some ([], 1, none) := by
  decide +kernel
