-- SUMMARY: Which message a topic retains: the last retained post in channel order, if the workers update the retained messages in that order.
import Mhub.Broker.Retain

/-!
# The last retained message

Workers take posts in channel order. Some time later each updates the retained message
of the topic, in a critical section of its own. A post is *open* between the two.

`State.UpToDate` cuts the retained posts on a topic in two: the first ones are through,
the rest are open, and what is retained is the last one that is through. Every step
keeps this as long as a worker updates a topic only when no earlier retained post on
the topic is open.
-/

variable {env : Env} {s s' : State} {t : Tid} {ch : Choice} {i j : Instr} {rest : List Instr}
  {nx : Next} {w : Nat} {m m' : Publish} {a : BrokerAction} {topic : GoString}

/-! ## Retained posts -/

def Event.retainedPost : Event → Option Publish
  | .taken _ m true => some m
  | _ => none

/-- The posts that workers have found with `Retain` set. -/
def State.foundRetained (s : State) : List Publish := s.trace.filterMap Event.retainedPost

theorem State.mem_foundRetained : m ∈ s.foundRetained ↔ ∃ t, .taken t m true ∈ s.trace := by
  simp only [State.foundRetained, List.mem_filterMap]
  constructor
  · rintro ⟨e, he, hm⟩
    cases e with
    | taken t m' isRetain =>
      cases isRetain with
      | true =>
        cases hm
        exact ⟨t, he⟩
      | false => cases hm
    | _ => cases hm
  · rintro ⟨t, ht⟩
    exact ⟨_, ht, rfl⟩

/-- The post arrived with `Retain` set: it still is, or a worker has found it so. -/
def State.ArrivedRetained (s : State) (m : Publish) : Prop :=
  s.retainBit m.obj = true ∨ m ∈ s.foundRetained

instance : Decidable (s.ArrivedRetained m) := inferInstanceAs (Decidable (_ ∨ _))

/-- The retained posts on a topic that workers have taken, in channel order. -/
def State.retainedPosts (s : State) (topic : GoString) : List Publish :=
  s.takenPosts.filter fun m => m.topicName = topic ∧ s.ArrivedRetained m

/-- What a topic retains after a retained post. -/
def retainedBy : Option Publish → Option Retained
  | some m => if m.payload = [] then none else some ⟨m, true⟩
  | none => none

/-! ## Open posts -/

/-- Worker `w` has taken the post, and has not yet updated the retained message. -/
def State.Pending (s : State) (w : Nat) (m : Publish) : Prop :=
  .handlePost m ∈ s.code (.worker w) ∨ .storeRetain m ∈ s.code (.worker w) ∨
    .deleteRetain m.topicName ∈ s.code (.worker w) ∧ .taken (.worker w) m true ∈ s.trace ∧
      m.payload = []

instance : Decidable (s.Pending w m) := inferInstanceAs (Decidable (_ ∨ _ ∨ _))

def State.Open (env : Env) (s : State) (m : Publish) : Prop :=
  ∃ w < env.cf.subscriptionsWorkers, s.Pending w m

instance : Decidable (s.Open env m) := inferInstanceAs (Decidable (∃ w < _, s.Pending w m))

/-- A worker updates the retained message of a topic only when no retained post on the
topic that comes before in the channel is open. -/
def InOrder (env : Env) (s : State) : BrokerAction → Prop
  | .run (.worker w) _ =>
    (s.code (.worker w)).head?.any Instr.retains = true → ∀ m ∈ s.takenPosts, s.Pending w m →
      ∀ m' ∈ s.takenPosts.takeWhile (· ≠ m), m'.topicName = m.topicName →
        s.ArrivedRetained m' → ¬ s.Open env m'
  | _ => True

instance : Decidable (InOrder env s a) := by
  unfold InOrder
  split <;> infer_instance

theorem State.Pending.code_ne_nil (h : s.Pending w m) : s.code (.worker w) ≠ [] := by
  obtain h | h | ⟨h, -⟩ := h <;> exact List.ne_nil_of_mem h

theorem Reachable.open_iff (hr : Reachable env s) : s.Open env m ↔ ∃ w, s.Pending w m := by
  constructor
  · rintro ⟨w, -, h⟩
    exact ⟨w, h⟩
  · rintro ⟨w, h⟩
    exact ⟨w, hr.started h.code_ne_nil, h⟩

/-- A worker that has taken a retained PUBLISH without payload takes no other post. -/
theorem Reachable.deletes (hr : Reachable env s) (h : .taken (.worker w) m true ∈ s.trace)
    (hempty : m.payload = []) : .workerLoop ∉ s.code (.worker w) := by
  obtain ⟨w', hw, heq⟩ := hr.worker_of_taken h
  cases heq
  exact fun hloop => (hr.receives_iff hw).1 hloop m h hempty

theorem Reachable.deleted_unique (hr : Reachable env s) (h : .taken (.worker w) m true ∈ s.trace)
    (hempty : m.payload = []) (h' : .taken (.worker w) m' true ∈ s.trace)
    (hempty' : m'.payload = []) : m' = m := by
  -- who logs the second has left its loop with the first
  have hnot : ∀ {s ch rest nx s' m m'}, Reachable env s →
      Executes env s (.worker w) ch (.handlePost m) rest nx s' →
      .taken (.worker w) m' true ∈ s.trace → m'.payload = [] → False := by
    intro s ch rest nx s' m m' hr hx h hempty
    refine hr.deletes h hempty ?_
    rw [hr.handlePost hx.mem_self]
    simp
  refine hr.of_logged (P := fun s => .taken (.worker w) m' true ∈ s.trace → m' = m) h nofun ?_ ?_ h'
  · intro s t ch i rest nx s' hr hx hlog h'
    obtain ⟨rfl, rfl, -⟩ := hlog
    obtain h' | ⟨-, hi, -⟩ := hx.mem_trace h'
    · exact (hnot hr hx h' hempty').elim
    · cases hi
      rfl
  · intro s a s' hr h hI hstep h'
    obtain h' | ⟨c, hc⟩ | ⟨t, ch, i, rest, nx, -, hx, rfl, rfl, -⟩ := mem_trace_step hstep h'
    · exact hI h'
    · cases hc
    · exact (hnot hr hx h hempty).elim

theorem Worker.handlePost {l : List Instr} (h : Worker l) (hm : .handlePost m ∈ l) :
    l = [.handlePost m, .workerLoop] := by
  cases h with
  | idle | leaves _ | gone => simp at hm
  | post m' =>
    obtain rfl : m = m' := by simpa using hm
    rfl
  | @live m' isRetain is his =>
    obtain hm | hm := List.mem_append.1 hm
    · obtain hm | hm := List.mem_append.1 hm
      · cases List.all_eq_true.1 his _ hm
      · cases isRetain <;> simp at hm
    · simp at hm

theorem Worker.storeRetain {l : List Instr} (h : Worker l) (hm : Instr.storeRetain m ∈ l) :
    ∃ is, is.all (·.delivers m) = true ∧ l = is ++ [Instr.storeRetain m, .workerLoop] := by
  cases h with
  | idle | leaves _ | gone | post _ => simp at hm
  | @live m' isRetain is his =>
    obtain hm | hm := List.mem_append.1 hm
    · obtain hm | hm := List.mem_append.1 hm
      · cases List.all_eq_true.1 his _ hm
      · cases isRetain with
        | false => cases hm
        | true =>
          obtain rfl : m = m' := by simpa using hm
          exact ⟨is, his, by simp⟩
    · simp at hm

theorem Worker.deleteRetain {l : List Instr} (h : Worker l) (hm : .deleteRetain topic ∈ l) :
    l = [.deleteRetain topic] := by
  cases h with
  | idle | gone | post _ => simp at hm
  | leaves topic' =>
    obtain rfl : topic = topic' := by simpa using hm
    rfl
  | @live m' isRetain is his =>
    obtain hm | hm := List.mem_append.1 hm
    · obtain hm | hm := List.mem_append.1 hm
      · cases List.all_eq_true.1 his _ hm
      · cases isRetain <;> simp at hm
    · simp at hm

/-- What a worker is at when a post is pending. -/
theorem Reachable.pending_cases (hr : Reachable env s) (h : s.Pending w m) :
    s.code (.worker w) = [.handlePost m, .workerLoop] ∨
    .taken (.worker w) m true ∈ s.trace ∧
      ((∃ is, is.all (·.delivers m) = true ∧
          s.code (.worker w) = is ++ [Instr.storeRetain m, .workerLoop]) ∨
        s.code (.worker w) = [.deleteRetain m.topicName] ∧ m.payload = []) := by
  obtain h | h | ⟨h, htaken, hempty⟩ := h
  · exact .inl ((hr.worker w).handlePost h)
  · exact .inr ⟨(hr.explains h).1, .inl ((hr.worker w).storeRetain h)⟩
  · exact .inr ⟨htaken, .inr ⟨(hr.worker w).deleteRetain h, hempty⟩⟩

/-- A worker has one post pending. -/
theorem Reachable.pending_unique (hr : Reachable env s) (h : s.Pending w m)
    (h' : s.Pending w m') : m' = m := by
  obtain hcode | ⟨htaken, ⟨is, -, hcode⟩ | ⟨hcode, hempty⟩⟩ := hr.pending_cases h
  · obtain h' | h' | ⟨h', -⟩ := h'
    · simpa [hcode] using h'
    · simp [hcode] at h'
    · simp [hcode] at h'
  · obtain h' | h' | ⟨h', -⟩ := h'
    · rw [(hr.worker w).handlePost h'] at hcode
      have hmem : Instr.storeRetain m ∈ [.handlePost m', .workerLoop] := hcode ▸ by simp
      simp at hmem
    · obtain ⟨is', -, hcode'⟩ := (hr.worker w).storeRetain h'
      have htail := (List.append_inj' (hcode.symm.trans hcode') rfl).2
      simp only [List.cons.injEq, Instr.storeRetain.injEq, and_true] at htail
      exact htail.symm
    · rw [(hr.worker w).deleteRetain h'] at hcode
      have hmem : Instr.storeRetain m ∈ [.deleteRetain m'.topicName] := hcode ▸ by simp
      simp at hmem
  · obtain h' | h' | ⟨-, htaken', hempty'⟩ := h'
    · simp [hcode] at h'
    · simp [hcode] at h'
    · exact hr.deleted_unique htaken hempty htaken' hempty'

/-- A post is pending with one worker. -/
theorem Reachable.pending_worker {w' : Nat} (hr : Reachable env s) (h : s.Pending w m)
    (h' : s.Pending w' m) : w' = w := by
  have hholds : ∀ {w}, s.code (.worker w) = [.handlePost m, .workerLoop] → s.Holds w m :=
    fun hcode => hr.handed.holds (hcode ▸ List.mem_cons_self ..)
  obtain hcode | ⟨htaken, -⟩ := hr.pending_cases h <;>
    obtain hcode' | ⟨htaken', -⟩ := hr.pending_cases h'
  · exact (hholds hcode).unique w' (hcode' ▸ List.mem_cons_self ..)
  · exact absurd htaken' ((hholds hcode).fresh _ _)
  · exact absurd htaken ((hholds hcode').fresh _ _)
  · exact Tid.worker.inj (hr.taken_once htaken htaken').1

theorem Reachable.mem_of_pending (hr : Reachable env s) (h : s.Pending w m) :
    m ∈ s.takenPosts := by
  obtain hcode | ⟨htaken, -⟩ := hr.pending_cases h
  · exact (hr.handed.holds (hcode ▸ List.mem_cons_self ..)).mem
  · exact hr.handed.taken htaken

/-! ## Steps -/

/-- What is retained for the topic is the last of the posts that are through; the open
ones come after. -/
def State.UpToDate (env : Env) (s : State) (topic : GoString) : Prop :=
  ∃ through pend, s.retainedPosts topic = through ++ pend ∧ (∀ m ∈ through, ¬ s.Open env m) ∧
    (∀ m ∈ pend, s.Open env m) ∧ s.subs.retain topic = retainedBy through.getLast?

theorem State.UpToDate.congr (h : s.UpToDate env topic)
    (hposts : s'.retainedPosts topic = s.retainedPosts topic)
    (hopen : ∀ m ∈ s.retainedPosts topic, s'.Open env m ↔ s.Open env m)
    (hretain : s'.subs.retain topic = s.subs.retain topic) : s'.UpToDate env topic := by
  obtain ⟨through, pend, heq, hthrough, hpend, hlast⟩ := h
  rw [heq] at hopen
  refine ⟨through, pend, hposts.trans heq, fun m hm => ?_, fun m hm => ?_, hretain.trans hlast⟩
  · rw [hopen m (List.mem_append_left _ hm)]
    exact hthrough m hm
  · rw [hopen m (List.mem_append_right _ hm)]
    exact hpend m hm

theorem Reachable.obj_lt_of_mem (hr : Reachable env s) (h : m ∈ s.takenPosts) :
    m.obj < s.nextObj := by
  refine hr.addressed_lt (.inr ⟨m, State.mem_posted.1 ?_, rfl⟩)
  rw [hr.posted_eq]
  exact List.mem_append_left _ h

/-- Only the worker that handles a post changes what is known of its bit. -/
theorem Executes.arrivedRetained (hr : Reachable env s) (hx : Executes env s t ch i rest nx s')
    (hi : ∀ m, i ≠ .handlePost m) (hm : m ∈ s.takenPosts) :
    s'.ArrivedRetained m ↔ s.ArrivedRetained m := by
  have hfound : s'.foundRetained = s.foundRetained := by
    refine hx.filterMap_trace fun e he => ?_
    cases e with
    | taken t m isRetain => exact absurd he.2.1 (hi m)
    | _ => rfl
  obtain hbit | ⟨-, m', rfl, -⟩ := hx.retainBit (hr.obj_lt_of_mem hm)
  · rw [State.ArrivedRetained, State.ArrivedRetained, hbit, hfound]
  · exact absurd rfl (hi m')

theorem Executes.retainedPosts_eq (hr : Reachable env s) (hx : Executes env s t ch i rest nx s')
    (hi : ∀ m, i ≠ .handlePost m) (htaken : s'.takenPosts = s.takenPosts) :
    s'.retainedPosts topic = s.retainedPosts topic := by
  rw [State.retainedPosts, State.retainedPosts, htaken]
  refine List.filter_congr fun m hm => ?_
  simp only [hx.arrivedRetained hr hi hm]

/-- The instructions that make a post pending stay where they are, unless they are
executed or a worker takes a post. -/
theorem Executes.pending_iff (hr : Reachable env s) (hx : Executes env s t ch i rest nx s')
    (hpost : ∀ m, i ≠ .handlePost m) (hretains : i.retains = false)
    (hcode : ∀ w m, .handlePost m ∈ s'.code (.worker w) → .handlePost m ∈ s.code (.worker w)) :
    s'.Pending w m ↔ s.Pending w m := by
  have hstay : ∀ {j}, j ≠ .workerLoop → j ≠ i → j ∈ s.code (.worker w) →
      j ∈ s'.code (.worker w) := by
    intro j hloop hne hj
    exact (hx.worker_stays hr hj hloop).resolve_right fun h => hne h.2.symm
  have hback : ∀ {j}, j.retains = true → j ∈ s'.code (.worker w) → j ∈ s.code (.worker w) := by
    intro j hj hmem
    obtain hold | ⟨-, hnew⟩ | hgets := hx.mem_code hmem
    · exact hold
    · obtain ⟨m, hm⟩ := brings_retains (hx.follows.brings hnew) hj
      exact absurd hm (hpost m)
    · cases j <;> first | cases hj; done | cases hgets
  have hne : ∀ {j}, j.retains = true → j ≠ i := by
    rintro j hj rfl
    simp [hj] at hretains
  have htaken : .taken (.worker w) m true ∈ s'.trace ↔ .taken (.worker w) m true ∈ s.trace := by
    refine ⟨fun h => ?_, hx.trace_mono⟩
    exact (hx.mem_trace h).resolve_right fun hlog => hpost m hlog.2.1
  have hhandle : .handlePost m ∈ s'.code (.worker w) ↔ .handlePost m ∈ s.code (.worker w) :=
    ⟨hcode w m, hstay nofun fun h => hpost m h.symm⟩
  have hstore : .storeRetain m ∈ s'.code (.worker w) ↔ .storeRetain m ∈ s.code (.worker w) :=
    ⟨hback rfl, hstay nofun (hne rfl)⟩
  have hdelete : .deleteRetain m.topicName ∈ s'.code (.worker w) ↔
      .deleteRetain m.topicName ∈ s.code (.worker w) := ⟨hback rfl, hstay nofun (hne rfl)⟩
  rw [State.Pending, State.Pending, hhandle, hstore, hdelete, htaken]

theorem State.UpToDate.frame (h : s.UpToDate env topic) (hr : Reachable env s)
    (hx : Executes env s t ch i rest nx s') (hpost : ∀ m, i ≠ .handlePost m)
    (hretains : i.retains = false) (htaken : s'.takenPosts = s.takenPosts)
    (hcode : ∀ w m, .handlePost m ∈ s'.code (.worker w) → .handlePost m ∈ s.code (.worker w)) :
    s'.UpToDate env topic := by
  refine h.congr (hx.retainedPosts_eq hr hpost htaken) (fun m _ => ?_) ?_
  · simp only [State.Open, hx.pending_iff hr hpost hretains hcode]
  · obtain heq | ⟨topic', rfl, -⟩ | ⟨m, rfl, -⟩ := hx.effects.retain
    · rw [heq]
    · cases hretains
    · cases hretains

/-- A post that is taken is open from then on. -/
theorem State.UpToDate.take (h : s.UpToDate env topic) (hr : Reachable env s)
    (hr' : Reachable env s') (hx : Executes env s t ch i rest nx s') (htake : Takes s i w m s')
    (htaken : s'.takenPosts = s.takenPosts ++ [m]) : s'.UpToDate env topic := by
  have hpost : ∀ m, i ≠ .handlePost m := by
    rintro m rfl
    obtain hi | hi := htake.instr <;> cases hi
  have hnew : ∀ m' ∈ s.takenPosts, m' ≠ m := by
    have hnodup := hr'.takenPosts_nodup
    rw [htaken] at hnodup
    exact fun m' hm' => (List.nodup_append.1 hnodup).2.2 m' hm' m (List.mem_singleton_self _)
  have hpending : ∀ w' m', s'.Pending w' m' ↔ s.Pending w' m' ∨ w' = w ∧ m' = m := by
    intro w' m'
    by_cases hw : w' = w
    · subst hw
      simp [State.Pending, htake.code, htake.takes]
    · have hlog : .taken (.worker w') m' true ∈ s'.trace ↔ .taken (.worker w') m' true ∈ s.trace :=
        ⟨fun h => (hx.mem_trace h).resolve_right fun hlog => hpost m' hlog.2.1, hx.trace_mono⟩
      simp [State.Pending, htake.others w' hw, hlog, hw]
  have hopen : ∀ m' ∈ s.takenPosts, s'.Open env m' ↔ s.Open env m' := by
    intro m' hm'
    simp [State.Open, hpending, hnew m' hm']
  have hopen_new : s'.Open env m := hr'.open_iff.2 ⟨w, (hpending w m).2 (.inr ⟨rfl, rfl⟩)⟩
  have hretain : s'.subs.retain topic = s.subs.retain topic := by
    obtain heq | ⟨topic', rfl, -⟩ | ⟨m, rfl, -⟩ := hx.effects.retain
    · rw [heq]
    all_goals obtain hi | hi := htake.instr <;> cases hi
  have hposts : s'.retainedPosts topic =
      s.retainedPosts topic ++ [m].filter fun m => m.topicName = topic ∧ s'.ArrivedRetained m := by
    rw [State.retainedPosts, htaken, List.filter_append]
    refine congrArg (· ++ _) (List.filter_congr fun m' hm' => ?_)
    simp only [hx.arrivedRetained hr hpost hm']
  obtain ⟨through, pend, heq, hthrough, hpend, hlast⟩ := h
  have hmem : ∀ m' ∈ through ++ pend, m' ∈ s.takenPosts := fun m' hm' =>
    List.mem_of_mem_filter (heq ▸ hm' : m' ∈ s.retainedPosts topic)
  refine ⟨through, pend ++ [m].filter _, by rw [hposts, heq, List.append_assoc], ?_, ?_,
    hretain.trans hlast⟩
  · intro m' hm'
    rw [hopen m' (hmem m' (List.mem_append_left _ hm'))]
    exact hthrough m' hm'
  · intro m' hm'
    obtain hm' | hm' := List.mem_append.1 hm'
    · rw [hopen m' (hmem m' (List.mem_append_right _ hm'))]
      exact hpend m' hm'
    · obtain rfl := List.mem_singleton.1 (List.mem_of_mem_filter hm')
      exact hopen_new

/-- A worker that begins to handle a post, moves the bit from the object to its log. -/
theorem Executes.handlePost_arrived (hr : Reachable env s)
    (hx : Executes env s (.worker w) ch (.handlePost m) rest nx s') (hm' : m' ∈ s.takenPosts) :
    s'.ArrivedRetained m' ↔ s.ArrivedRetained m' := by
  have hholds := hr.handed.holds hx.mem_self
  have hfound : ∀ {m'}, m' ∈ s'.foundRetained ↔
      m' ∈ s.foundRetained ∨ m' = m ∧ s.retainBit m.obj = true := by
    intro m'
    rw [State.foundRetained, hx.handlePost.1, List.filterMap_append]
    cases s.retainBit m.obj <;> simp [Event.retainedPost, State.foundRetained]
  have hbit := hx.handlePost_bit
  by_cases heq : m' = m
  · subst heq
    have hnot : m' ∉ s.foundRetained := by
      rw [State.mem_foundRetained]
      rintro ⟨t, ht⟩
      exact hholds.fresh _ _ ht
    simp [State.ArrivedRetained, hfound, hbit, hnot]
  · have hobj : m.obj ≠ m'.obj := fun hobj => by
      refine heq (hr.eq_of_obj_eq ?_ ?_ hobj).symm <;> rw [hr.posted_eq]
      · exact List.mem_append_left _ hholds.mem
      · exact List.mem_append_left _ hm'
    obtain hsame | ⟨-, m₀, hm₀, hobj₀⟩ := hx.retainBit (hr.obj_lt_of_mem hm')
    · simp [State.ArrivedRetained, hfound, hsame, heq]
    · cases hm₀
      exact absurd hobj₀ hobj

/-- The post a worker begins to handle is the only one it has pending, before and after. -/
theorem Executes.handlePost_pending (hr : Reachable env s) (hr' : Reachable env s')
    (hx : Executes env s (.worker w) ch (.handlePost m) rest nx s') :
    (∀ m', s.Pending w m' ↔ m' = m) ∧
      ∀ m', s'.Pending w m' ↔ m' = m ∧ s.retainBit m.obj = true := by
  have hcode := hr.handlePost hx.mem_self
  refine ⟨fun m' => by simp [State.Pending, hcode, eq_comm], ?_⟩
  obtain rfl : rest = [.workerLoop] := by simpa [hx.code] using hcode
  obtain ⟨htr, hnx⟩ := hx.handlePost
  have htaken : .taken (.worker w) m (s.retainBit m.obj) ∈ s'.trace := by simp [htr]
  obtain ⟨hretain, hempty, rfl⟩ | ⟨hlive, rfl⟩ := hnx
  · -- it has left its loop to delete
    rw [hretain] at htaken
    have hpending : s'.Pending w m :=
      .inr (.inr ⟨by simp [hx.code_self, Next.apply], htaken, hempty⟩)
    refine fun m' => ⟨fun h => ⟨hr'.pending_unique hpending h, hretain⟩, ?_⟩
    rintro ⟨rfl, -⟩
    exact hpending
  · intro m'
    cases hretain : s.retainBit m.obj <;>
      simp [State.Pending, hx.code_self, Next.apply, handleLive, hretain, eq_comm]

theorem State.UpToDate.handle (h : s.UpToDate env topic) (hr : Reachable env s)
    (hr' : Reachable env s') (hx : Executes env s (.worker w) ch (.handlePost m) rest nx s')
    (htaken : s'.takenPosts = s.takenPosts) : s'.UpToDate env topic := by
  have hposts : s'.retainedPosts topic = s.retainedPosts topic := by
    rw [State.retainedPosts, State.retainedPosts, htaken]
    refine List.filter_congr fun m' hm' => ?_
    simp only [hx.handlePost_arrived hr hm']
  obtain ⟨hbefore, hafter⟩ := hx.handlePost_pending hr hr'
  refine h.congr hposts (fun m' hm' => ?_) ?_
  · have hpending : ∀ w', s'.Pending w' m' ↔ s.Pending w' m' := by
      intro w'
      by_cases hw : w' = w
      · subst hw
        rw [hbefore, hafter]
        refine and_iff_left_of_imp ?_
        rintro rfl
        -- a retained post that nobody has begun to handle has its bit set
        simp only [State.retainedPosts, List.mem_filter, decide_eq_true_eq] at hm'
        refine hm'.2.2.resolve_right fun hfound => ?_
        obtain ⟨t, ht⟩ := State.mem_foundRetained.1 hfound
        exact (hr.handed.holds hx.mem_self).fresh _ _ ht
      · have hlog : .taken (.worker w') m' true ∈ s'.trace ↔
            .taken (.worker w') m' true ∈ s.trace := by
          simp [hx.handlePost.1, hw]
        simp only [State.Pending, hx.code_worker (by simpa using hw) nofun, hlog]
    simp only [State.Open, hpending]
  · obtain heq | ⟨topic', hi, -⟩ | ⟨m, hi, -⟩ := hx.effects.retain
    · rw [heq]
    · cases hi
    · cases hi

/-- What updating the retained message for `m` does. -/
theorem Executes.updates (hr : Reachable env s) (hx : Executes env s t ch i rest nx s')
    (hi : i.retains = true) :
    ∃ w m, t = .worker w ∧ s.Pending w m ∧ .taken (.worker w) m true ∈ s.trace ∧
      (∀ m', ¬ s'.Pending w m') ∧
      s'.subs.retain = Function.update s.subs.retain m.topicName (retainedBy (some m)) := by
  obtain ⟨w, rfl⟩ := hr.worker_of_retains hx.mem_self hi
  have hworker := hr.worker w
  have hexplains := hr.explains hx.mem_self
  have hf := hx.follows
  have hself := hx.code_self
  cases i with
  | storeRetain m =>
    obtain ⟨htaken, hpayload⟩ := hexplains
    cases hf
    obtain rfl : rest = [.workerLoop] := by
      obtain ⟨is, his, hcode⟩ := hworker.storeRetain hx.mem_self
      rw [hx.code] at hcode
      cases is with
      | nil => exact (List.cons.inj hcode).2
      | cons k is =>
        obtain ⟨rfl, -⟩ := List.cons.inj hcode
        simp [Instr.delivers] at his
    refine ⟨w, m, rfl, .inr (.inl hx.mem_self), htaken, fun m' => ?_, ?_⟩
    · simp [State.Pending, hself, Next.apply]
    · obtain ⟨-, s₁, hexec, rfl⟩ := hx
      simp only [exec] at hexec
      split at hexec <;> cases hexec
      simp [retainedBy, hpayload, State.setCode]
  | deleteRetain topic =>
    obtain ⟨m, htaken, hempty, rfl⟩ := hexplains
    cases hf
    obtain rfl : rest = [] := by
      have hcode := hworker.deleteRetain hx.mem_self
      rw [hx.code] at hcode
      exact (List.cons.inj hcode).2
    refine ⟨w, m, rfl, .inr (.inr ⟨hx.mem_self, htaken, hempty⟩), htaken, fun m' => ?_, ?_⟩
    · simp [State.Pending, hself, Next.apply]
    · obtain ⟨-, s₁, hexec, rfl⟩ := hx
      simp only [exec] at hexec
      split at hexec <;> cases hexec
      simp [retainedBy, hempty, State.setCode]
  | _ => cases hi

/-- In order, a worker updates the retained message for the first open post. -/
theorem State.UpToDate.update (h : s.UpToDate env topic) (hr : Reachable env s)
    (hx : Executes env s t ch i rest nx s') (hi : i.retains = true)
    (hg : InOrder env s (.run t ch)) (htaken : s'.takenPosts = s.takenPosts) :
    s'.UpToDate env topic := by
  have hpost : ∀ m, i ≠ .handlePost m := by
    rintro m rfl
    cases hi
  obtain ⟨w, m, rfl, hpending, hlog, hdone, hretain⟩ := hx.updates hr hi
  have hmem := hr.mem_of_pending hpending
  have hposts : s'.retainedPosts topic = s.retainedPosts topic :=
    hx.retainedPosts_eq hr hpost htaken
  have hpend : ∀ w' m', s'.Pending w' m' ↔ s.Pending w' m' ∧ m' ≠ m := by
    intro w' m'
    by_cases hw : w' = w
    · subst hw
      refine iff_of_false (hdone m') ?_
      rintro ⟨h, hne⟩
      exact hne (hr.pending_unique hpending h)
    · have hlog : .taken (.worker w') m' true ∈ s'.trace ↔
          .taken (.worker w') m' true ∈ s.trace :=
        ⟨fun h => (hx.mem_trace h).resolve_right fun hlog => hpost m' hlog.2.1, hx.trace_mono⟩
      have hcode := hx.code_worker (w := w') (by simpa using hw) fun m hm => by
        simp [hm, Instr.retains] at hi
      simp only [State.Pending, hcode, hlog]
      refine (and_iff_left_of_imp ?_).symm
      rintro h rfl
      exact hw (hr.pending_worker hpending h)
  have hopen : ∀ m', s'.Open env m' ↔ s.Open env m' ∧ m' ≠ m := by
    intro m'
    simp only [State.Open, hpend, ← and_assoc, exists_and_right]
  by_cases htopic : m.topicName = topic
  · subst htopic
    obtain ⟨pre, post, hsplit⟩ := List.append_of_mem hmem
    have hnodup := hr.takenPosts_nodup
    rw [hsplit, List.nodup_middle, List.nodup_cons, List.mem_append, not_or] at hnodup
    obtain ⟨⟨hpre, hpost'⟩, -⟩ := hnodup
    have hbefore : s.takenPosts.takeWhile (· ≠ m) = pre := by
      rw [hsplit, List.takeWhile_append_of_pos, List.takeWhile_cons_of_neg, List.append_nil]
      · simp
      · intro m' hm'
        simpa using ne_of_mem_of_not_mem hm' hpre
    have harrived : s.ArrivedRetained m := .inr (State.mem_foundRetained.2 ⟨_, hlog⟩)
    have hcut : s.retainedPosts m.topicName =
        pre.filter (fun m' => m'.topicName = m.topicName ∧ s.ArrivedRetained m') ++
          m :: post.filter fun m' => m'.topicName = m.topicName ∧ s.ArrivedRetained m' := by
      rw [State.retainedPosts, hsplit, List.filter_append, List.filter_cons_of_pos]
      simpa using harrived
    have hthrough : ∀ m' ∈ pre.filter (fun m' => m'.topicName = m.topicName ∧ s.ArrivedRetained m'),
        ¬ s.Open env m' := by
      intro m' hm'
      simp only [List.mem_filter, decide_eq_true_eq] at hm'
      exact hg (by simp [hx.code, hi]) m hmem hpending m' (hbefore ▸ hm'.1) hm'.2.1 hm'.2.2
    obtain ⟨through, pend, heq, hdone', hpend', hlast⟩ := h
    obtain ⟨rfl, rfl⟩ := append_eq_append_cons (heq.symm.trans hcut) hdone' hpend' hthrough
      (hr.open_iff.2 ⟨w, hpending⟩)
    refine ⟨_ ++ [m], post.filter _, by rw [hposts, hcut, List.append_assoc]; rfl, ?_, ?_, ?_⟩
    · intro m' hm'
      rw [hopen]
      rintro ⟨h, hne⟩
      obtain hm' | hm' := List.mem_append.1 hm'
      · exact hthrough m' hm' h
      · exact hne (List.mem_singleton.1 hm')
    · intro m' hm'
      rw [hopen]
      refine ⟨hpend' m' (List.mem_cons_of_mem _ hm'), ?_⟩
      exact ne_of_mem_of_not_mem (List.mem_of_mem_filter hm') hpost'
    · rw [hretain, Function.update_self, List.getLast?_concat]
  · refine h.congr hposts (fun m' hm' => ?_) ?_
    · rw [hopen]
      refine and_iff_left ?_
      rintro rfl
      simp only [State.retainedPosts, List.mem_filter, decide_eq_true_eq] at hm'
      exact htopic hm'.2.1
    · rw [hretain, Function.update_of_ne (Ne.symm htopic)]

theorem State.UpToDate.step (h : s.UpToDate env topic) (hr : Reachable env s)
    (hg : InOrder env s a) (hstep : step env s a = some s') : s'.UpToDate env topic := by
  have hr' : Reachable env s' := Transition.Reachable.tail hr hstep
  obtain ⟨-, ⟨-, rfl⟩ | ⟨-, rfl⟩ | ⟨t, ch, i, rest, nx, rfl, hx⟩⟩ := step_cases hstep
  · have hfound : s.accept.foundRetained = s.foundRetained := by
      simp [State.foundRetained, State.accept, State.log, State.setCode, Event.retainedPost]
    have hpending : ∀ w m, s.accept.Pending w m ↔ s.Pending w m := by
      intro w m
      simp [State.Pending, State.accept, State.log, State.setCode]
    refine h.congr ?_ (fun m _ => by simp only [State.Open, hpending]) rfl
    simp only [State.retainedPosts, s.takenPosts_accept, State.ArrivedRetained, hfound]
    rfl
  · exact h
  · obtain ⟨htaken, hcode⟩ | ⟨w, m, htake, htaken⟩ := hx.takenPosts hr
    · by_cases hpost : ∃ m, i = .handlePost m
      · obtain ⟨m, rfl⟩ := hpost
        obtain ⟨w, -, rfl⟩ := hr.worker_of_mem hx.mem_self rfl
        exact h.handle hr hr' hx htaken
      · cases hi : i.retains with
        | true => exact h.update hr hx hi hg htaken
        | false => exact h.frame hr hx (fun m hm => hpost ⟨m, hm⟩) hi htaken hcode
    · exact h.take hr hr' hx htake htaken

/-! ## The last retained message -/

/-- If the workers update the retained messages in channel order, then whenever all
posts taken so far were handled, every topic retains the last retained post on it, or
nothing if that had no payload or there was none. -/
theorem last_retained {acts : List BrokerAction}
    (hrun : Transition.run (step env) (init env) acts = some s)
    (hg : Transition.Guarded (step env) (InOrder env) (init env) acts)
    (hidle : ∀ w, ∀ i ∈ s.code (.worker w), i = .workerLoop) (topic : GoString) :
    s.subs.retain topic = retainedBy (s.retainedPosts topic).getLast? := by
  have hr : Reachable env s := ⟨acts, hrun⟩
  have hinit : (init env).UpToDate env topic := ⟨[], [], rfl, nofun, nofun, rfl⟩
  obtain ⟨through, pend, heq, -, hpend, hlast⟩ := Transition.run_invariant
    (I := fun s => s.UpToDate env topic) (fun s a s' hr hI hg hs => hI.step hr hg hs) hinit hrun hg
  have hnone : pend = [] := by
    refine List.eq_nil_iff_forall_not_mem.2 fun m hm => ?_
    obtain ⟨w, h⟩ := hr.open_iff.1 (hpend m hm)
    obtain h | h | ⟨h, -⟩ := h <;> cases hidle w _ h
  rw [hlast, heq, hnone, List.append_nil]

/-- A broker with two workers. -/
def twoWorkersEnv : Env where
  cf := { allowAnonymousConnect := true, subscriptionsWorkers := 2 }
  grow := (· + 1)

/-- The message `y` on `t`. -/
def laterOnT (obj : Nat) : Publish := ⟨obj, .atMostOnce, str "t", 2, str "y"⟩

/-- Client `0` sends the retained messages `x` and `y` on `t`. Worker `0` takes `x`,
worker `1` takes `y`. -/
def twoPostsRun : List BrokerAction :=
  .accept :: sends 0 (.connect (.named (str "a"))) 9 ++
    sends 0 (.publish true (onT 0)) 5 ++ sends 0 (.publish true (laterOnT 0)) 5 ++
    [.run (.worker 0) .go, .run (.worker 1) .go]

/-- The two workers handle their posts, one after the other. -/
def handleRun (first second : Nat) : List BrokerAction :=
  twoPostsRun ++ List.replicate 4 (.run (.worker first) .go) ++
    List.replicate 4 (.run (.worker second) .go)

theorem last_retained_handleRun :
    ∃ s, Transition.run (step twoWorkersEnv) (init twoWorkersEnv) (handleRun 0 1) = some s ∧
      s.retainedPosts (str "t") = [onT 1, laterOnT 2] ∧
      s.subs.retain (str "t") = retainedBy (s.retainedPosts (str "t")).getLast? := by
  have heval : (Transition.run (step twoWorkersEnv) (init twoWorkersEnv) (handleRun 0 1)).map
      (fun s => decide (s.code (.worker 0) = [.workerLoop] ∧ s.code (.worker 1) = [.workerLoop] ∧
        s.retainedPosts (str "t") = [onT 1, laterOnT 2])) = some true := by decide +kernel
  obtain ⟨s, hrun, hdec⟩ := Option.map_eq_some_iff.1 heval
  obtain ⟨h₀, h₁, hposts⟩ := of_decide_eq_true hdec
  have hidle : ∀ w, ∀ i ∈ s.code (.worker w), i = .workerLoop := by
    intro w i hi
    have hw : w < 2 := Reachable.started ⟨_, hrun⟩ (List.ne_nil_of_mem hi)
    obtain rfl | rfl : w = 0 ∨ w = 1 := by omega
    · simpa [h₀] using hi
    · simpa [h₁] using hi
  exact ⟨s, hrun, hposts, last_retained hrun (by decide +kernel) hidle (str "t")⟩

/-- Worker `1` is through with the later message before worker `0` stores the earlier
one, which is then retained. -/
theorem earlier_retained :
    (Transition.run (step twoWorkersEnv) (init twoWorkersEnv) (handleRun 1 0)).map (fun s =>
      (s.code (.worker 0), s.code (.worker 1), s.retainedPosts (str "t"),
        s.subs.retain (str "t"))) =
      some ([.workerLoop], [.workerLoop], [onT 1, laterOnT 2], some ⟨onT 1, true⟩) := by
  decide +kernel
