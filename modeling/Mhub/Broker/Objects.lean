-- SUMMARY: `Publish` objects on their way through the posts channel: each is posted and taken at most once, in order, and its `Retain` bit is only ever cleared.
import Mhub.Broker.Workers

/-!
# Objects

A decoded PUBLISH is a new object. The handler that decoded it posts it once, the
channel keeps the order, and one worker takes it. `takenPosts` is what the workers
have taken so far, in channel order.

The `Retain` bit of an object is set when the object is made and cleared by the
worker that handles it; nothing sets it again. An object that nobody posts keeps its
bit.
-/

variable {env : Env} {s s' : State} {t : Tid} {ch : Choice} {i j : Instr} {rest : List Instr}
  {nx : Next} {w : Nat} {m : Publish} {a : BrokerAction}

/-! ## Where a worker can be -/

/-- The instructions with which a worker gets a post to its subscribers. -/
def Instr.delivers (m : Publish) : Instr → Bool
  | .fanOut m' | .deliver m' _ _ => m' = m
  | .submit _ m' => m' = .publish m
  | .send _ j | .trySend _ j => j = ⟨.publish m, none⟩
  | _ => false

/-- The code of a worker: it waits for a post, has taken one, gets it to the
subscribers and may have to keep it, or leaves after a delete. -/
inductive Worker : List Instr → Prop where
  | idle : Worker [.workerLoop]
  | post (m : Publish) : Worker [.handlePost m, .workerLoop]
  | live (m : Publish) (isRetain : Bool) {is : List Instr} : is.all (·.delivers m) = true →
    Worker (is ++ (if isRetain then [.storeRetain m] else []) ++ [.workerLoop])
  | leaves (topic : GoString) : Worker [.deleteRetain topic]
  | gone : Worker []

theorem delivers_follows (hi : i.delivers m = true) (h : Follows env i nx) :
    ∃ is, nx = .push is ∧ is.all (·.delivers m) = true := by
  cases h with
  | falls _ => exact ⟨[], rfl, rfl⟩
  | deliver entry => cases entry <;> exact ⟨_, rfl, by simpa [submitEntry, Instr.delivers] using hi⟩
  | submit | trySubmit | fanOut _ => exact ⟨_, rfl, by simpa [Instr.delivers] using hi⟩
  | _ => cases hi

theorem Worker.codeStep {l l' : List Instr} (hl : Worker l) (h : CodeStep env (.worker w) l l') :
    Worker l' := by
  have hloop : ∀ {nx : Next}, Follows env .workerLoop nx → Worker (nx.apply []) := by
    intro nx hf
    cases hf with
    | falls h => cases h
    | post m => exact .post m
  cases h with
  | same => exact hl
  | start => exact .idle
  | @flow i rest nx hf =>
    generalize hcode : i :: rest = l at hl
    cases hl with
    | idle =>
      obtain ⟨rfl, rfl⟩ := List.cons.inj hcode
      exact hloop hf
    | post m =>
      obtain ⟨rfl, rfl⟩ := List.cons.inj hcode
      cases hf with
      | falls h => cases h
      | deleteRetain => exact .leaves _
      | handleLive isRetain => exact @Worker.live m isRetain [.fanOut m] (by simp [Instr.delivers])
    | @live m isRetain is his =>
      cases is with
      | nil =>
        cases isRetain with
        | false =>
          obtain ⟨rfl, rfl⟩ := List.cons.inj hcode
          exact hloop hf
        | true =>
          obtain ⟨rfl, rfl⟩ := List.cons.inj hcode
          cases hf
          exact .idle
      | cons j is =>
        obtain ⟨rfl, rfl⟩ := List.cons.inj hcode
        simp only [List.all_cons, Bool.and_eq_true] at his
        obtain ⟨is', rfl, his'⟩ := delivers_follows his.1 hf
        have hall : (is' ++ is).all (·.delivers m) = true := by
          rw [List.all_append, his', his.2]
          rfl
        have hlive := Worker.live m isRetain hall
        simpa [Next.apply] using hlive
    | leaves topic =>
      obtain ⟨rfl, rfl⟩ := List.cons.inj hcode
      cases hf
      exact .gone
    | gone => cases hcode

theorem Reachable.worker (hr : Reachable env s) (w : Nat) : Worker (s.code (.worker w)) := by
  refine hr.invariant (I := fun s => Worker (s.code (.worker w))) ?_ ?_
  · intro s a s' _ hw hstep
    exact hw.codeStep (step_code hstep _)
  · simp only [init]
    split
    · exact .idle
    · exact .gone

/-- Others change the code of a worker only by posting. -/
theorem Executes.code_worker (hx : Executes env s t ch i rest nx s') (ht : .worker w ≠ t)
    (hi : ∀ m, i ≠ .post m) : s'.code (.worker w) = s.code (.worker w) := by
  have htouch := hx.touch ht
  generalize s.code (.worker w) = l, s'.code (.worker w) = l' at htouch
  cases htouch with
  | same => rfl
  | post h => exact absurd h (hi _)

/-! ## New objects -/

variable {o : Nat}

theorem Executes.nextObj_le (hx : Executes env s t ch i rest nx s') : s.nextObj ≤ s'.nextObj := by
  obtain ⟨-, h⟩ | ⟨m, -, -, h⟩ | ⟨retain, -, -, h⟩ := hx.effects.objects <;> omega

/-- The bit of an object changes when a worker handles the object. -/
theorem Executes.retainBit (hx : Executes env s t ch i rest nx s') (ho : o < s.nextObj) :
    s'.retainBit o = s.retainBit o ∨
      s'.retainBit o = false ∧ ∃ m, i = .handlePost m ∧ m.obj = o := by
  obtain ⟨h, -⟩ | ⟨m, rfl, h, -⟩ | ⟨retain, -, h, -⟩ := hx.effects.objects <;> rw [h]
  · exact .inl rfl
  · by_cases hm : m.obj = o
    · exact .inr ⟨by simp [hm], m, rfl, hm⟩
    · exact .inl (Function.update_of_ne (Ne.symm hm) ..)
  · exact .inl (Function.update_of_ne (Nat.ne_of_lt ho) ..)

theorem Executes.handlePost_bit (hx : Executes env s t ch (.handlePost m) rest nx s') :
    s'.retainBit m.obj = false := by
  obtain ⟨-, s₁, hexec, rfl⟩ := hx
  cases hexec
  simp [State.log, State.setCode]

/-- A bit that is cleared stays cleared. -/
theorem step_retainBit (hstep : step env s a = some s') (ho : o < s.nextObj)
    (h : s.retainBit o = false) : s'.retainBit o = false := by
  obtain ⟨-, ⟨-, rfl⟩ | ⟨-, rfl⟩ | ⟨t, ch, i, rest, nx, -, hx⟩⟩ := step_cases hstep
  · exact h
  · exact h
  · obtain heq | ⟨heq, -⟩ := hx.retainBit ho
    · exact heq.trans h
    · exact heq

theorem brings_post (h : i.brings (.post m) = true) :
    (∃ c, i = .inboundLoop c) ∨ i = .replayLoop := by
  cases Instr.brings_cases h with
  | post => exact .inl ⟨_, rfl⟩
  | replayed => exact .inr rfl

/-- What a goroutine gets to post is a new object. -/
theorem Executes.posts_new (hx : Executes env s t ch i rest nx s') (h : .post m ∈ nx.instrs) :
    m.obj = s.nextObj ∧ s'.nextObj = s.nextObj + 1 := by
  have hat : ∀ {p : Packet} {retain : Bool}, p.at s.nextObj = .publish retain m →
      m.obj = s.nextObj := by
    intro p retain hp
    cases p <;> cases hp
    rfl
  obtain ⟨c, rfl⟩ | rfl := brings_post (hx.follows.brings h)
  · obtain ⟨-, s₁, hexec, rfl⟩ := hx
    simp only [exec] at hexec
    repeat' split at hexec
    all_goals cases hexec
    · obtain ⟨retain, hp⟩ :=
        eq_publish_of_mem_handle (.inl ((List.mem_append.1 h).resolve_right (by simp)))
      exact ⟨hat hp, rfl⟩
    · simp [Next.instrs] at h
  · obtain ⟨-, s₁, hexec, rfl⟩ := hx
    simp only [exec] at hexec
    repeat' split at hexec
    all_goals cases hexec
    · rename_i retain m' hp
      obtain rfl : m = m' := by simpa [Next.instrs] using h
      exact ⟨hat hp, rfl⟩
    · simp [Next.instrs] at h
    · simp [Next.instrs] at h

theorem Executes.mem_post {t' : Tid} (hx : Executes env s t ch i rest nx s')
    (h : .post m ∈ s'.code t') :
    .post m ∈ s.code t' ∨ t' = t ∧ m.obj = s.nextObj ∧ s'.nextObj = s.nextObj + 1 := by
  obtain hold | ⟨rfl, hnew⟩ | hgets := hx.mem_code h
  · exact .inl hold
  · exact .inr ⟨rfl, hx.posts_new hnew⟩
  · cases t' <;> cases hgets

theorem mem_post_step (hstep : step env s a = some s') (h : .post m ∈ s'.code t) :
    .post m ∈ s.code t ∨ (∃ ch, a = .run t ch) ∧ m.obj = s.nextObj := by
  obtain ⟨-, ⟨-, rfl⟩ | ⟨-, rfl⟩ | ⟨t', ch, i, rest, nx, rfl, hx⟩⟩ := step_cases hstep
  · exact .inl ((State.mem_code_accept h).resolve_right (by cases t <;> nofun))
  · exact .inl ((State.mem_code_acceptPeer h).resolve_right (by cases t <;> nofun))
  · obtain hold | ⟨rfl, hobj, -⟩ := hx.mem_post h
    · exact .inl hold
    · exact .inr ⟨⟨ch, rfl⟩, hobj⟩

/-- The object goes to the workers: some goroutine has still to post it, or has. -/
def State.Addressed (s : State) (o : Nat) : Prop :=
  (∃ t m, .post m ∈ s.code t ∧ m.obj = o) ∨ ∃ m, .posted m ∈ s.trace ∧ m.obj = o

/-- Only a new object is addressed to the workers. -/
theorem addressed_step (hstep : step env s a = some s') (h : s'.Addressed o) :
    s.Addressed o ∨ o = s.nextObj ∧ s'.nextObj = s.nextObj + 1 := by
  obtain ⟨-, ⟨-, rfl⟩ | ⟨-, rfl⟩ | ⟨t, ch, i, rest, nx, -, hx⟩⟩ := step_cases hstep
  · refine .inl (h.imp ?_ ?_)
    · rintro ⟨t, m, hm, ho⟩
      exact ⟨t, m, (State.mem_code_accept hm).resolve_right (by cases t <;> nofun), ho⟩
    · rintro ⟨m, hm, ho⟩
      exact ⟨m, by simpa [State.accept, State.log, State.setCode] using hm, ho⟩
  · refine .inl (h.imp_left ?_)
    rintro ⟨t, m, hm, ho⟩
    exact ⟨t, m, (State.mem_code_acceptPeer hm).resolve_right (by cases t <;> nofun), ho⟩
  · obtain ⟨t', m, hm, ho⟩ | ⟨m, hm, ho⟩ := h
    · obtain hold | ⟨-, hobj, hnext⟩ := hx.mem_post hm
      · exact .inl (.inl ⟨t', m, hold, ho⟩)
      · exact .inr ⟨ho.symm.trans hobj, hnext⟩
    · obtain hold | rfl := hx.mem_trace hm
      · exact .inl (.inr ⟨m, hold, ho⟩)
      · exact .inl (.inl ⟨t, m, hx.mem_self, ho⟩)

theorem step_nextObj_le (hstep : step env s a = some s') : s.nextObj ≤ s'.nextObj := by
  obtain ⟨-, ⟨-, rfl⟩ | ⟨-, rfl⟩ | ⟨t, ch, i, rest, nx, -, hx⟩⟩ := step_cases hstep
  · exact Nat.le_refl _
  · exact Nat.le_refl _
  · exact hx.nextObj_le

theorem not_addressed_init : ¬ (init env).Addressed o := by
  rintro (⟨t, m, hm, -⟩ | ⟨m, hm, -⟩)
  · cases t <;> simp only [init, List.not_mem_nil] at hm
    split at hm <;> simp at hm
  · cases hm

theorem Reachable.addressed_lt (hr : Reachable env s) (h : s.Addressed o) : o < s.nextObj := by
  refine hr.invariant (I := fun s => s.Addressed o → o < s.nextObj) ?_
    (fun h => (not_addressed_init h).elim) h
  intro s a s' _ hI hstep h
  have hle := step_nextObj_le hstep
  obtain h | ⟨ho, hnext⟩ := addressed_step hstep h
  · exact Nat.lt_of_lt_of_le (hI h) hle
  · omega

/-! ## Each object is posted once -/

def Instr.toPost : Instr → Option Publish
  | .post m => some m
  | _ => none

/-- The messages a goroutine has still to post. -/
def State.toPost (s : State) (t : Tid) : List Publish := (s.code t).filterMap Instr.toPost

theorem mem_toPost {l : List Instr} : m ∈ l.filterMap Instr.toPost ↔ .post m ∈ l := by
  simp only [List.mem_filterMap]
  constructor
  · rintro ⟨i, hi, hm⟩
    cases i <;> cases hm
    exact hi
  · exact fun h => ⟨_, h, rfl⟩

theorem Follows.toPost_length (h : Follows env i nx) :
    (nx.instrs.filterMap Instr.toPost).length ≤ 1 := by
  by_cases hnew : ∃ m, .post m ∈ nx.instrs
  · obtain ⟨m, hm⟩ := hnew
    have hi := brings_post (h.brings hm)
    cases h with
    | recv p =>
      obtain ⟨retain, rfl⟩ :=
        eq_publish_of_mem_handle (.inl ((List.mem_append.1 hm).resolve_right (by simp)))
      by_cases hq : m.qosLevel = .atLeastOnce <;>
        simp [Next.instrs, handle, doPublish, hq, Instr.toPost, List.filterMap_cons]
    | replay m' => simp [Next.instrs, Instr.toPost, List.filterMap_cons]
    | falls _ | replayErr => cases hm
    | recvErr | ignore => simp [Next.instrs] at hm
    | _ => simp at hi
  · have hnone : nx.instrs.filterMap Instr.toPost = [] :=
      List.eq_nil_iff_forall_not_mem.2 fun m hm => hnew ⟨m, mem_toPost.1 hm⟩
    simp [hnone]

theorem Touch.toPost {t' : Tid} {l l' : List Instr} (h : Touch s i t' l l') :
    (l'.filterMap Instr.toPost).Sublist (l.filterMap Instr.toPost) := by
  cases h with
  | same => exact List.Sublist.refl _
  | job _ | post _ => simp [handleJob, Instr.toPost, List.filterMap_cons]
  | heartbeat _ => simp [Instr.toPost, List.filterMap_cons]

/-- A goroutine gets something to post when it decodes it. -/
theorem Executes.toPost (hx : Executes env s t ch i rest nx s') (t' : Tid) :
    (s'.toPost t').Sublist (s.toPost t') ∨
      ∃ m, m.obj = s.nextObj ∧ (s'.toPost t').Sublist (m :: s.toPost t') := by
  by_cases ht : t' = t
  · subst ht
    have hrest : (rest.filterMap Instr.toPost).Sublist (s.toPost t') := by
      rw [State.toPost, hx.code]
      exact (List.sublist_cons_self i rest).filterMap _
    have hcode : (s'.toPost t').Sublist (nx.instrs.filterMap Instr.toPost ++ s.toPost t') := by
      rw [State.toPost, hx.code_self]
      cases nx with
      | push is =>
        rw [Next.apply, List.filterMap_append]
        exact (List.Sublist.refl _).append hrest
      | jump is => exact List.sublist_append_left _ _
    have hlen := hx.follows.toPost_length
    cases hnew : nx.instrs.filterMap Instr.toPost with
    | nil => exact .inl (by simpa [hnew] using hcode)
    | cons m ms =>
      obtain rfl : ms = [] := by simpa [hnew] using hlen
      have hobj := (hx.posts_new (mem_toPost.1 (hnew ▸ List.mem_cons_self ..))).1
      exact .inr ⟨m, hobj, by simpa [hnew] using hcode⟩
  · exact .inl (hx.touch ht).toPost

/-- The messages that a goroutine has still to post are different objects. -/
theorem Reachable.toPost_nodup (hr : Reachable env s) (t : Tid) :
    ((s.toPost t).map (·.obj)).Nodup := by
  have hloop : ∀ t : Tid, [t.loop].filterMap Instr.toPost = [] := by
    intro t
    cases t <;> rfl
  refine hr.invariant (I := fun s => ∀ t, ((s.toPost t).map (·.obj)).Nodup) ?_ ?_ t
  · intro s a s' hr hI hstep t'
    obtain ⟨-, ⟨-, rfl⟩ | ⟨-, rfl⟩ | ⟨t, ch, i, rest, nx, -, hx⟩⟩ := step_cases hstep
    · obtain hcode | hcode := s.code_accept t' <;> rw [State.toPost, hcode]
      · exact hI t'
      · simp [hloop]
    · obtain hcode | hcode := s.code_acceptPeer t' <;> rw [State.toPost, hcode]
      · exact hI t'
      · simp [hloop]
    · obtain hsub | ⟨m, hobj, hsub⟩ := hx.toPost t'
      · exact (hI t').sublist (hsub.map _)
      · refine List.Nodup.sublist (hsub.map _) ?_
        rw [List.map_cons]
        refine (hI t').cons fun hmem => ?_
        obtain ⟨m', hm', heq⟩ := List.mem_map.1 hmem
        have hlt := Reachable.addressed_lt hr (.inl ⟨t', m', mem_toPost.1 hm', heq⟩)
        omega
  · intro t
    cases t <;> simp only [State.toPost, init]
    all_goals try exact List.nodup_nil
    split <;> exact List.nodup_nil

/-- What is still to be posted is with one goroutine. -/
theorem Reachable.post_unique {t' : Tid} {m' : Publish} (hr : Reachable env s)
    (h : .post m ∈ s.code t) (h' : .post m' ∈ s.code t') (heq : m'.obj = m.obj) : t' = t := by
  refine hr.invariant (I := fun s => ∀ {t t' m m'}, .post m ∈ s.code t → .post m' ∈ s.code t' →
    m'.obj = m.obj → t' = t) ?_ ?_ h h' heq
  · intro s a s' hr hI hstep t₁ t₂ m₁ m₂ h₁ h₂ heq
    have hlt : ∀ {t m}, .post m ∈ s.code t → m.obj < s.nextObj :=
      fun h => Reachable.addressed_lt hr (.inl ⟨_, _, h, rfl⟩)
    obtain h₁ | ⟨⟨ch, rfl⟩, hobj₁⟩ := mem_post_step hstep h₁ <;>
      obtain h₂ | ⟨⟨ch', ha⟩, hobj₂⟩ := mem_post_step hstep h₂
    · exact hI h₁ h₂ heq
    · have := hlt h₁
      omega
    · have := hlt h₂
      omega
    · cases ha
      rfl
  · intro t t' m m' h
    exact (not_addressed_init (.inl ⟨t, m, h, rfl⟩)).elim

/-- What is still to be posted was not posted before. -/
theorem Reachable.not_posted {m' : Publish} (hr : Reachable env s) (h : .post m ∈ s.code t)
    (h' : .posted m' ∈ s.trace) : m'.obj ≠ m.obj := by
  refine hr.invariant (I := fun s => ∀ {t m m'}, .post m ∈ s.code t → .posted m' ∈ s.trace →
    m'.obj ≠ m.obj) ?_ ?_ h h'
  · intro s a s' hr hI hstep t₀ m m' h h' heq
    have hlt : s.Addressed m'.obj → m'.obj < s.nextObj := Reachable.addressed_lt hr
    have hmem := mem_post_step hstep h
    obtain ⟨-, ⟨rfl, rfl⟩ | ⟨rfl, rfl⟩ | ⟨t, ch, i, rest, nx, rfl, hx⟩⟩ := step_cases hstep
    · obtain h | ⟨⟨_, ha⟩, -⟩ := hmem
      · exact hI h (by simpa [State.accept, State.log, State.setCode] using h') heq
      · cases ha
    · obtain h | ⟨⟨_, ha⟩, -⟩ := hmem
      · exact hI h h' heq
      · cases ha
    · obtain h' | rfl := hx.mem_trace h'
      · obtain hold | ⟨-, hobj⟩ := hmem
        · exact hI hold h' heq
        · have := hlt (.inr ⟨m', h', rfl⟩)
          omega
      · have hpost := hx.mem_self
        obtain hold | ⟨-, hobj⟩ := hmem
        · -- the goroutine has posted one of two that are the same object
          obtain rfl := Reachable.post_unique hr hpost hold heq.symm
          have hnodup := Reachable.toPost_nodup hr t₀
          have hnx := hx.follows
          have hself := hx.code_self
          cases hnx
          rw [hself] at h
          simp only [State.toPost, hx.code, Instr.toPost, List.filterMap_cons, List.map_cons,
            List.nodup_cons, List.mem_map, not_exists, not_and] at hnodup
          exact hnodup.1 m (mem_toPost.2 h) heq.symm
        · have := hlt (.inl ⟨t, m', hpost, rfl⟩)
          omega
  · intro t m m' h
    exact (not_addressed_init (.inl ⟨t, m, h, rfl⟩)).elim

/-! ## The channel -/

def Event.post : Event → Option Publish
  | .posted m => some m
  | _ => none

/-- The posts so far, in the order in which they were put on the channel. -/
def State.posted (s : State) : List Publish := s.trace.filterMap Event.post

theorem State.mem_posted : m ∈ s.posted ↔ .posted m ∈ s.trace := by
  simp only [State.posted, List.mem_filterMap]
  constructor
  · rintro ⟨e, he, hm⟩
    cases e <;> cases hm
    exact he
  · exact fun h => ⟨_, h, rfl⟩

/-- The posts that workers have taken so far, in channel order. -/
def State.takenPosts (s : State) : List Publish :=
  s.posted.take (s.posted.length - s.posts.length)

theorem State.takenPosts_eq {l : List Publish} (h : s.posted = l ++ s.posts) :
    s.takenPosts = l := by
  simp [State.takenPosts, h]

theorem Executes.posted_eq (hx : Executes env s t ch i rest nx s') (hi : ∀ m, i ≠ .post m) :
    s'.posted = s.posted := by
  refine hx.filterMap_trace fun e he => ?_
  cases e with
  | posted m => exact absurd he (hi m)
  | _ => rfl

/-- What posting does: the post is at the end of the channel, or a worker that waits
has it. The latter happens on an unbuffered channel. -/
theorem Executes.post_cases (hx : Executes env s t ch (.post m) rest nx s') :
    s'.posted = s.posted ++ [m] ∧
    (s.posts.length < env.cf.subscriptionsQueueLen ∧ s'.posts = s.posts ++ [m] ∧
        (∀ t' ≠ t, s'.code t' = s.code t') ∨
      env.cf.subscriptionsQueueLen = 0 ∧ s'.posts = s.posts ∧
        ∃ w rest', s.code (.worker w) = .workerLoop :: rest' ∧
          s'.code (.worker w) = .handlePost m :: .workerLoop :: rest' ∧
          ∀ t' ≠ t, t' ≠ .worker w → s'.code t' = s.code t') := by
  obtain ⟨hcode, s₁, hexec, rfl⟩ := hx
  simp only [exec] at hexec
  split at hexec <;> cases hexec
  next hpost =>
  simp only [State.post] at hpost
  repeat' split at hpost
  all_goals cases hpost
  · next hlen =>
    refine ⟨by simp [State.posted, State.log, State.setCode, Event.post], .inl ⟨hlen, rfl, ?_⟩⟩
    intro t' ht
    simp [State.log, State.setCode, ht]
  · rename_i _ w hlen _ rest' hw
    have hne : Tid.worker w ≠ t := by
      intro heq
      rw [heq, hcode] at hw
      cases hw
    refine ⟨by simp [State.posted, State.log, State.setCode, Event.post],
      .inr ⟨hlen, rfl, w, rest', hw, by simp [State.log, State.setCode, hne], ?_⟩⟩
    intro t' ht hw'
    simp [State.log, State.setCode, ht, hw']

theorem Executes.workerLoop_cases (hx : Executes env s t ch .workerLoop rest nx s') :
    ∃ m, s.posts = m :: s'.posts ∧ nx = .push [.handlePost m, .workerLoop] := by
  obtain ⟨-, s₁, hexec, rfl⟩ := hx
  simp only [exec] at hexec
  split at hexec <;> cases hexec
  exact ⟨_, ‹_›, rfl⟩

theorem Reachable.posts_length (hr : Reachable env s) :
    s.posts.length ≤ env.cf.subscriptionsQueueLen := by
  refine hr.invariant (I := fun s => s.posts.length ≤ env.cf.subscriptionsQueueLen) ?_
    (Nat.zero_le _)
  intro s a s' _ hI hstep
  obtain ⟨-, ⟨-, rfl⟩ | ⟨-, rfl⟩ | ⟨t, ch, i, rest, nx, -, hx⟩⟩ := step_cases hstep
  · exact hI
  · exact hI
  · obtain heq | ⟨m, rfl, heq⟩ | ⟨-, m, heq⟩ := hx.effects.posts
    · exact heq ▸ hI
    · obtain ⟨-, ⟨hlen, h, -⟩ | ⟨-, h, -⟩⟩ := hx.post_cases
      · rw [h, List.length_append]
        exact hlen
      · exact h ▸ hI
    · rw [heq] at hI
      exact Nat.le_of_succ_le hI

/-- Worker `w`, which waits for a post, takes `m`. -/
structure Takes (s : State) (i : Instr) (w : Nat) (m : Publish) (s' : State) : Prop where
  instr : i = .workerLoop ∨ i = .post m
  code : s.code (.worker w) = [.workerLoop]
  takes : s'.code (.worker w) = [.handlePost m, .workerLoop]
  others : ∀ w' ≠ w, s'.code (.worker w') = s.code (.worker w')
  posted : s'.posted = s.takenPosts ++ [m] ++ s'.posts

/-- A step that takes no post puts it at the end of the channel or does not touch it. -/
theorem Executes.channel (hr : Reachable env s) (hx : Executes env s t ch i rest nx s')
    (hs : s.posted = s.takenPosts ++ s.posts) :
    (s'.posted = s.takenPosts ++ s'.posts ∧
      ∀ w m, .handlePost m ∈ s'.code (.worker w) → .handlePost m ∈ s.code (.worker w)) ∨
    ∃ w m, Takes s i w m s' := by
  by_cases hloop : i = .workerLoop
  · subst hloop
    obtain ⟨w, -, rfl⟩ := hr.worker_of_mem hx.mem_self rfl
    have hshape := hr.shaped (.worker w)
    rw [hx.code] at hshape
    obtain rfl := Tid.Shaped.rest_of_loop (t := .worker w) hshape
    obtain ⟨m, hposts, rfl⟩ := hx.workerLoop_cases
    refine .inr ⟨w, m, .inl rfl, hx.code, hx.code_self, ?_, ?_⟩
    · exact fun w' hw => hx.code_worker (by simpa using hw) nofun
    · rw [hx.posted_eq nofun, hs, hposts]
      simp
  by_cases hpost : ∃ m, i = .post m
  · obtain ⟨m, rfl⟩ := hpost
    have hworker : ∀ w, .worker w ≠ t := by
      rintro w rfl
      have hshape := hr.shaped (.worker w)
      rw [hx.code] at hshape
      simpa [Instr.inWorker] using hshape.worker
    obtain ⟨hposted, ⟨-, hposts, hcode⟩ | ⟨hlen, hposts, w, rest', hw, hw', hcode⟩⟩ := hx.post_cases
    · refine .inl ⟨by simp [hposted, hs, hposts], fun w m' h => ?_⟩
      rwa [hcode _ (hworker w)] at h
    · have hshape := hr.shaped (.worker w)
      rw [hw] at hshape
      obtain rfl := Tid.Shaped.rest_of_loop (t := .worker w) hshape
      have hnil : s.posts = [] := by
        have := hr.posts_length
        rw [hlen] at this
        exact List.eq_nil_of_length_eq_zero (Nat.le_zero.1 this)
      refine .inr ⟨w, m, .inr rfl, hw, hw', fun w' hne => ?_, by simp [hposted, hs, hposts, hnil]⟩
      exact hcode _ (hworker w') (by simpa using hne)
  · refine .inl ⟨?_, fun w m h => ?_⟩
    · have hposts : s'.posts = s.posts := by
        obtain h | ⟨m, rfl, -⟩ | ⟨rfl, -⟩ := hx.effects.posts
        · exact h
        · exact absurd ⟨m, rfl⟩ hpost
        · exact absurd rfl hloop
      rw [hx.posted_eq fun m hm => hpost ⟨m, hm⟩, hs, hposts]
    · by_cases ht : .worker w = t
      · subst ht
        rw [hx.code_self] at h
        obtain hnew | hold := Next.mem_apply h
        · exact absurd (brings_handlePost (hx.follows.brings hnew)) hloop
        · rw [hx.code]
          exact List.mem_cons_of_mem _ hold
      · rwa [hx.code_worker ht fun m hm => hpost ⟨m, hm⟩] at h

theorem State.posted_accept (s : State) : s.accept.posted = s.posted := by
  simp [State.posted, State.accept, State.log, State.setCode, Event.post]

theorem State.takenPosts_accept (s : State) : s.accept.takenPosts = s.takenPosts := by
  rw [State.takenPosts, s.posted_accept]
  rfl

theorem Reachable.posted_eq (hr : Reachable env s) : s.posted = s.takenPosts ++ s.posts := by
  refine hr.invariant (I := fun s => s.posted = s.takenPosts ++ s.posts) ?_ rfl
  intro s a s' hr hI hstep
  obtain ⟨-, ⟨-, rfl⟩ | ⟨-, rfl⟩ | ⟨t, ch, i, rest, nx, -, hx⟩⟩ := step_cases hstep
  · rw [s.posted_accept, s.takenPosts_accept]
    exact hI
  · exact hI
  · obtain ⟨h, -⟩ | ⟨w, m, h⟩ := hx.channel hr hI
    · rw [State.takenPosts_eq h, h]
    · rw [State.takenPosts_eq h.posted, h.posted]

/-- No object is posted twice. -/
theorem Reachable.posted_nodup (hr : Reachable env s) : (s.posted.map (·.obj)).Nodup := by
  refine hr.invariant (I := fun s => (s.posted.map (·.obj)).Nodup) ?_ .nil
  intro s a s' hr hI hstep
  obtain ⟨-, ⟨-, rfl⟩ | ⟨-, rfl⟩ | ⟨t, ch, i, rest, nx, -, hx⟩⟩ := step_cases hstep
  · rw [s.posted_accept]
    exact hI
  · exact hI
  · by_cases hpost : ∃ m, i = .post m
    · obtain ⟨m, rfl⟩ := hpost
      rw [hx.post_cases.1, List.map_append]
      refine hI.append (List.nodup_singleton _) ?_
      rintro o ho ho'
      obtain ⟨m', hm', rfl⟩ := List.mem_map.1 ho
      exact Reachable.not_posted hr hx.mem_self (State.mem_posted.1 hm') (List.mem_singleton.1 ho')
    · rw [hx.posted_eq fun m hm => hpost ⟨m, hm⟩]
      exact hI

theorem Reachable.eq_of_obj_eq {m' : Publish} (hr : Reachable env s) (h : m ∈ s.posted)
    (h' : m' ∈ s.posted) (heq : m.obj = m'.obj) : m = m' :=
  List.inj_on_of_nodup_map hr.posted_nodup h h' heq

theorem Reachable.takenPosts_nodup (hr : Reachable env s) : s.takenPosts.Nodup :=
  (List.Nodup.of_map _ hr.posted_nodup).sublist (List.take_sublist _ _)

theorem Executes.takenPosts (hr : Reachable env s) (hx : Executes env s t ch i rest nx s') :
    (s'.takenPosts = s.takenPosts ∧
      ∀ w m, .handlePost m ∈ s'.code (.worker w) → .handlePost m ∈ s.code (.worker w)) ∨
    ∃ w m, Takes s i w m s' ∧ s'.takenPosts = s.takenPosts ++ [m] := by
  obtain ⟨h, hcode⟩ | ⟨w, m, h⟩ := hx.channel hr hr.posted_eq
  · exact .inl ⟨State.takenPosts_eq h, hcode⟩
  · exact .inr ⟨w, m, h, State.takenPosts_eq h.posted⟩

/-! ## What workers have taken -/

/-- The post is in the hands of one worker, for the first time. -/
structure State.Holds (s : State) (w : Nat) (m : Publish) : Prop where
  mem : m ∈ s.takenPosts
  unique : ∀ w', .handlePost m ∈ s.code (.worker w') → w' = w
  fresh : ∀ t isRetain, .taken t m isRetain ∉ s.trace

/-- A worker that begins to handle a post does not hold it any more. -/
theorem Executes.handlePost_not_mem (hr : Reachable env s)
    (hx : Executes env s (.worker w) ch (.handlePost m) rest nx s') :
    .handlePost m ∉ s'.code (.worker w) := by
  have hcode := hr.handlePost hx.mem_self
  rw [hx.code] at hcode
  obtain ⟨-, rfl⟩ := List.cons.inj hcode
  rw [hx.code_self]
  obtain ⟨-, ⟨-, -, rfl⟩ | ⟨-, rfl⟩⟩ := hx.handlePost
  · simp [Next.apply]
  · cases s.retainBit m.obj <;> simp [Next.apply, handleLive]

/-- What workers hold and what they have begun to handle was taken from the channel. -/
structure State.Handed (s : State) : Prop where
  holds : ∀ {w m}, .handlePost m ∈ s.code (.worker w) → s.Holds w m
  taken : ∀ {t m isRetain}, .taken t m isRetain ∈ s.trace → m ∈ s.takenPosts

/-- A step that takes no post keeps this. -/
theorem State.Handed.keep (h : s.Handed) (hr : Reachable env s)
    (hx : Executes env s t ch i rest nx s') (heq : s'.takenPosts = s.takenPosts)
    (hcode : ∀ w m, .handlePost m ∈ s'.code (.worker w) → .handlePost m ∈ s.code (.worker w)) :
    s'.Handed := by
  -- who begins to handle a post holds it
  have hself : ∀ {m}, i = .handlePost m → ∃ w, t = .worker w ∧ s.Holds w m := by
    rintro m rfl
    obtain ⟨w, -, rfl⟩ := hr.worker_of_mem hx.mem_self rfl
    exact ⟨w, rfl, h.holds hx.mem_self⟩
  refine ⟨fun {w m} hm => ?_, fun {t' m isRetain} ht => ?_⟩
  · have hold := h.holds (hcode w m hm)
    refine ⟨heq ▸ hold.mem, fun w' hm' => hold.unique w' (hcode w' m hm'), ?_⟩
    intro t' isRetain ht
    obtain ht | ⟨rfl, rfl, -⟩ := hx.mem_trace ht
    · exact hold.fresh _ _ ht
    · obtain ⟨w', rfl, hw'⟩ := hself rfl
      obtain rfl := hw'.unique w (hcode w m hm)
      exact hx.handlePost_not_mem hr hm
  · rw [heq]
    obtain ht | ⟨-, rfl, -⟩ := hx.mem_trace ht
    · exact h.taken ht
    · obtain ⟨w, -, hw⟩ := hself rfl
      exact hw.mem

/-- A worker that takes a post is the first to hold it. -/
theorem State.Handed.take (h : s.Handed) (hx : Executes env s t ch i rest nx s')
    (htake : Takes s i w m s') (heq : s'.takenPosts = s.takenPosts ++ [m])
    (hnodup : s'.takenPosts.Nodup) : s'.Handed := by
  have hnew : m ∉ s.takenPosts := by
    rw [heq] at hnodup
    exact fun hm => (List.nodup_append.1 hnodup).2.2 m hm m (List.mem_singleton_self _) rfl
  have hold : ∀ {t' m' isRetain}, .taken t' m' isRetain ∈ s'.trace →
      .taken t' m' isRetain ∈ s.trace := by
    intro t' m' isRetain ht
    obtain ht | ⟨-, rfl, -⟩ := hx.mem_trace ht
    · exact ht
    · obtain hi | hi := htake.instr <;> cases hi
  have hmem : ∀ {w' m'}, .handlePost m' ∈ s'.code (.worker w') →
      w' = w ∧ m' = m ∨ .handlePost m' ∈ s.code (.worker w') ∧ m' ≠ m := by
    intro w' m' hm'
    by_cases hw : w' = w
    · subst hw
      rw [htake.takes] at hm'
      exact .inl ⟨rfl, by simpa using hm'⟩
    · have hm' : .handlePost m' ∈ s.code (.worker w') := htake.others w' hw ▸ hm'
      refine .inr ⟨hm', ?_⟩
      rintro rfl
      exact hnew (h.holds hm').mem
  refine ⟨fun {w' m'} hm' => ?_, fun {t' m' isRetain} ht => ?_⟩
  · obtain ⟨rfl, rfl⟩ | ⟨hm', hne⟩ := hmem hm'
    · refine ⟨heq ▸ List.mem_append_right _ (List.mem_singleton_self _), fun w'' hm'' => ?_, ?_⟩
      · obtain ⟨rfl, -⟩ | ⟨-, hne⟩ := hmem hm''
        · rfl
        · exact absurd rfl hne
      · exact fun t' isRetain ht => hnew (h.taken (hold ht))
    · have hholds := h.holds hm'
      refine ⟨heq ▸ List.mem_append_left _ hholds.mem, fun w'' hm'' => ?_, ?_⟩
      · obtain ⟨-, rfl⟩ | ⟨hm'', -⟩ := hmem hm''
        · exact absurd rfl hne
        · exact hholds.unique w'' hm''
      · exact fun t' isRetain ht => hholds.fresh t' isRetain (hold ht)
  · exact heq ▸ List.mem_append_left _ (h.taken (hold ht))

theorem Reachable.handed (hr : Reachable env s) : s.Handed := by
  refine hr.invariant (I := State.Handed) ?_ ?_
  · intro s a s' hr hI hstep
    have hnodup := Reachable.takenPosts_nodup (Transition.Reachable.tail hr hstep)
    obtain ⟨-, ⟨-, rfl⟩ | ⟨-, rfl⟩ | ⟨t, ch, i, rest, nx, -, hx⟩⟩ := step_cases hstep
    · have htr : ∀ {t' m isRetain}, .taken t' m isRetain ∈ s.accept.trace →
          .taken t' m isRetain ∈ s.trace := by
        simp [State.accept, State.log, State.setCode]
      refine ⟨fun {w m} hm => ?_, fun ht => s.takenPosts_accept ▸ hI.taken (htr ht)⟩
      have hold := hI.holds hm
      exact ⟨s.takenPosts_accept ▸ hold.mem, hold.unique, fun t' b ht => hold.fresh t' b (htr ht)⟩
    · exact ⟨fun hm => ⟨(hI.holds hm).mem, (hI.holds hm).unique, (hI.holds hm).fresh⟩, hI.taken⟩
    · obtain ⟨heq, hcode⟩ | ⟨w, m, htake, heq⟩ := hx.takenPosts hr
      · exact hI.keep hr hx heq hcode
      · exact hI.take hx htake heq hnodup
  · refine ⟨fun {w m} hm => ?_, fun ht => by cases ht⟩
    simp only [init] at hm
    split at hm <;> simp at hm

/-- A post is handled by one worker, once. -/
theorem Reachable.taken_once {t' : Tid} {isRetain isRetain' : Bool} (hr : Reachable env s)
    (h : .taken t m isRetain ∈ s.trace) (h' : .taken t' m isRetain' ∈ s.trace) :
    t' = t ∧ isRetain' = isRetain := by
  -- who logs it has found nothing about it in the log
  have hfresh : ∀ {s t ch i rest nx s'}, Reachable env s → Executes env s t ch i rest nx s' →
      i = .handlePost m → ∀ t isRetain, .taken t m isRetain ∉ s.trace := by
    rintro s t ch _ rest nx s' hr hx rfl
    obtain ⟨w, -, rfl⟩ := hr.worker_of_mem hx.mem_self rfl
    exact (hr.handed.holds hx.mem_self).fresh
  refine Reachable.of_logged (P := fun s => .taken t' m isRetain' ∈ s.trace →
    t' = t ∧ isRetain' = isRetain) hr h nofun ?_ ?_ h'
  · intro s t₁ ch i rest nx s' hr hx hlog h'
    obtain ⟨rfl, rfl, rfl⟩ := hlog
    obtain h' | ⟨rfl, -, rfl⟩ := hx.mem_trace h'
    · exact absurd h' (hfresh hr hx rfl _ _)
    · exact ⟨rfl, rfl⟩
  · intro s a s' hr h hI hstep h'
    obtain h' | ⟨c, hc⟩ | ⟨t₁, ch, i, rest, nx, -, hx, rfl, rfl, -⟩ := mem_trace_step hstep h'
    · exact hI h'
    · cases hc
    · exact absurd h (hfresh hr hx rfl _ _)

theorem Reachable.posted_of_taken {isRetain : Bool} (hr : Reachable env s)
    (h : .taken t m isRetain ∈ s.trace) : .posted m ∈ s.trace := by
  refine State.mem_posted.1 ?_
  rw [hr.posted_eq]
  exact List.mem_append_left _ (hr.handed.taken h)

theorem Reachable.obj_lt_of_taken {isRetain : Bool} (hr : Reachable env s)
    (h : .taken t m isRetain ∈ s.trace) : m.obj < s.nextObj :=
  hr.addressed_lt (.inr ⟨m, hr.posted_of_taken h, rfl⟩)

/-- A post that was taken has its bit cleared for good. -/
theorem Reachable.retainBit_of_taken {isRetain : Bool} (hr : Reachable env s)
    (h : .taken t m isRetain ∈ s.trace) : s.retainBit m.obj = false := by
  refine Reachable.of_logged (P := fun s => s.retainBit m.obj = false) hr h nofun ?_ ?_
  · intro s t₁ ch i rest nx s' _ hx hlog
    obtain ⟨rfl, rfl, rfl⟩ := hlog
    exact hx.handlePost_bit
  · intro s a s' hr h hI hstep
    exact step_retainBit hstep (hr.obj_lt_of_taken h) hI

/-- What a worker has in its hands was posted. -/
theorem Reachable.posted_of_handlePost (hr : Reachable env s)
    (h : .handlePost m ∈ s.code (.worker w)) : .posted m ∈ s.trace := by
  refine State.mem_posted.1 ?_
  rw [hr.posted_eq]
  exact List.mem_append_left _ (hr.handed.holds h).mem
