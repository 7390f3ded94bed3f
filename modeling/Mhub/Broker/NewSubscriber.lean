-- SUMMARY: A subscriber that comes while a worker handles a retained message: it gets the message live or as the retained copy, except in one order of the critical sections.
import Mathlib.Data.List.TakeWhile
import Mhub.Broker.Receiver
import Mhub.Broker.Retain

/-!
# New subscribers

A worker that handles a retained message locks the index twice: it computes the list
of subscribers, and after it has queued the message for all of them it stores the
copy. `doSubscribe` locks it twice too: it adds the subscription, and looks for the
copy. The connection is in the list if it was added before the list was computed, and
finds the copy if it looks for it after the copy was stored. Neither is so if the
worker has computed the list before, and stores the copy after. `Timely` excludes
that order.

An entry of the list is read from an array that may be the one of the index. It is
still the entry of the connection when the worker gets to it, as long as the
subscription is not cancelled (`Subscriptions.Pinned`).
-/

variable {env : Env} {s s' : State} {t : Tid} {ch : Choice} {i : Instr} {rest : List Instr}
  {nx : Next} {w : Nat} {m : Publish} {c : ConnId} {a : BrokerAction} {topic : GoString}
  {pre post : List Event}

/-! ## A message on its way into a queue -/

/-- Goroutine `t` is about to queue the message for `c`, or has queued it. -/
def State.Sending (s : State) (t : Tid) (c : ConnId) (m : Message) : Prop :=
  (∃ rest, s.code t = .submit c m :: rest) ∨ (∃ rest, s.code t = .send c ⟨m, none⟩ :: rest) ∨
    .queued t c m ∈ s.trace

theorem alive_of_step (hstep : step env s a = some s') (h : (s'.conns c).alive = true) :
    (s.conns c).alive = true := by
  obtain ⟨-, ⟨-, rfl⟩ | ⟨-, rfl⟩ | ⟨t, ch, i, rest, nx, -, hx⟩⟩ := step_cases hstep
  · exact h
  · exact h
  · obtain heq | ⟨-, hdead⟩ := (hx.conn c).alive
    · exact heq ▸ h
    · rw [hdead] at h
      cases h

/-- With the block strategy, what is submitted to a connection that stays alive gets
into its queue. -/
theorem State.Sending.step {m : Message}
    (hblock : env.cf.buffOverflowStrategy = bufferOverflowBlock) (hr : Reachable env s)
    (h : s.Sending t c m) (hstep : step env s a = some s')
    (halive : (s'.conns c).alive = true) : s'.Sending t c m := by
  have halive := alive_of_step hstep halive
  obtain ⟨rest, hcode⟩ | ⟨rest, hcode⟩ | hqueued := h
  · obtain hsame | ⟨ch, nx, -, hx⟩ := step_busy hr hstep hcode (by cases t <;> nofun)
    · exact .inl ⟨rest, hsame.trans hcode⟩
    · obtain rfl := hx.submit_block hblock halive
      exact .inr (.inl ⟨rest, hx.code_self⟩)
  · obtain hsame | ⟨ch, nx, -, hx⟩ := step_busy hr hstep hcode (by cases t <;> nofun)
    · exact .inr (.inl ⟨rest, hsame.trans hcode⟩)
    · have hopen : (s.conns c).jobsClosed = false := by
        by_contra hclosed
        have hdead := hr.closed (by simpa using hclosed)
        rw [halive] at hdead
        cases hdead
      obtain ⟨-, htr⟩ := hx.send_queued (.inl hopen)
      exact .inr (.inr (by simp [htr]))
  · exact .inr (.inr (mem_trace_mono hstep hqueued))

/-- A message that is on its way, and that `t` no longer has to queue, was queued. -/
theorem State.Sending.queued {t : Tid} (h : s.Sending t c (.publish m))
    (hdone : ∀ i ∈ s.code t, i.delivers m = false) : .queued t c (.publish m) ∈ s.trace := by
  obtain ⟨rest, hcode⟩ | ⟨rest, hcode⟩ | hqueued := h
  · simpa [Instr.delivers] using hdone (.submit c (.publish m)) (by simp [hcode])
  · simpa [Instr.delivers] using hdone (.send c ⟨.publish m, none⟩) (by simp [hcode])
  · exact hqueued

/-! ## The live message -/

/-- Nothing of what was logged cancels the subscription. -/
def Uncancelled (topic : GoString) (c : ConnId) (post : List Event) : Prop :=
  .index (.unsub topic c) ∉ post ∧ .index (.unsubAll c) ∉ post

theorem Uncancelled.of_append (h : Uncancelled topic c (pre ++ post)) :
    Uncancelled topic c pre ∧ Uncancelled topic c post := by
  simp only [Uncancelled, List.mem_append, not_or] at h
  exact ⟨⟨h.1.1, h.2.1⟩, h.1.2, h.2.2⟩

theorem Uncancelled.of_cons {e : Event} (h : Uncancelled topic c (e :: post)) :
    Uncancelled topic c post := by
  rw [← List.singleton_append] at h
  exact h.of_append.2

/-- Worker `w` has yet to read an entry of its list that refers to `c`, or is sending
`m` to `c`. -/
def State.Reaching (s : State) (w : Nat) (m : Publish) (c : ConnId) : Prop :=
  (∃ sl k k', .deliver m sl k' ∈ s.code (.worker w) ∧ k' ≤ k ∧ k < sl.len ∧
    s.subs.Pinned m.topicName sl.arr k c) ∨ s.Sending (.worker w) c (.publish m)

theorem Executes.pinned {arr k : Nat} (hr : Reachable env s)
    (hx : Executes env s t ch i rest nx s')
    (hkeep : ∀ call, s'.trace = s.trace ++ [Event.index call] →
      call ≠ .unsub topic c ∧ call ≠ .unsubAll c)
    (h : s.subs.Pinned topic arr k c) : s'.subs.Pinned topic arr k c := by
  have hv := hr.refines.valid
  obtain ⟨call, -, heq, htr⟩ | ⟨-, heq | ⟨m, -, heq⟩ | ⟨retain, heq⟩⟩ := hx.effects.subs <;>
    rw [heq]
  · exact h.call hv (hkeep call htr).1 (hkeep call htr).2
  · exact h
  · exact h.subscribers hv m.topicName
  · exact ⟨h.cell, h.own⟩

/-- A connection that is subscribed when the list is computed is in it. -/
theorem Executes.reaches (hr : Reachable env s)
    (hx : Executes env s (.worker w) ch (.fanOut m) rest nx s')
    (hwild : isWildcard m.topicName = false) (hlive : (m.topicName, c) ∈ liveAdds s.calls) :
    s'.Reaching w m c := by
  have hcode := hx.code_self
  obtain ⟨k, hk⟩ := hr.refines.slot hwild hlive
  obtain ⟨hpin, hlt⟩ := Subscriptions.pinned_subscribers (g := env.grow) hr.refines.valid hk
  obtain ⟨-, s₁, hexec, rfl⟩ := hx
  simp only [exec] at hexec
  split at hexec <;> cases hexec
  exact .inl ⟨_, k, 0, by rw [hcode]; exact List.mem_cons_self .., Nat.zero_le _, hlt, hpin⟩

theorem State.Reaching.step (hblock : env.cf.buffOverflowStrategy = bufferOverflowBlock)
    (hr : Reachable env s) (h : s.Reaching w m c) (hstep : step env s a = some s')
    (hkeep : ∀ call, s'.trace = s.trace ++ [Event.index call] →
      call ≠ .unsub m.topicName c ∧ call ≠ .unsubAll c)
    (halive : (s'.conns c).alive = true) : s'.Reaching w m c := by
  obtain ⟨sl, k, k', hmem, hle, hlt, hpin⟩ | hsending := h
  · obtain ⟨-, ⟨-, rfl⟩ | ⟨-, rfl⟩ | ⟨t, ch, i, rest, nx, -, hx⟩⟩ := step_cases hstep
    · exact .inl ⟨sl, k, k', by simpa [State.accept, State.log, State.setCode] using hmem, hle, hlt,
        hpin⟩
    · exact .inl ⟨sl, k, k', by simpa [State.acceptPeer, State.setCode] using hmem, hle, hlt, hpin⟩
    · have hpin' := hx.pinned hr hkeep hpin
      obtain hstay | ⟨rfl, rfl⟩ := hx.worker_stays hr hmem (by simp)
      · exact .inl ⟨sl, k, k', hstay, hle, hlt, hpin'⟩
      · obtain ⟨-, ⟨entry, -, hentry, -, rfl⟩ | ⟨hend, -⟩⟩ := hx.deliver
        · obtain hnext | rfl := Nat.lt_or_eq_of_le hle
          · exact .inl ⟨sl, k, k' + 1, by simp [hx.code_self, Next.apply], hnext, hlt, hpin'⟩
          · -- the entry it reads is the one of `c`
            rw [hpin.cell.contents hlt] at hentry
            obtain rfl : entry = some c := hentry
            exact .inr (.inl ⟨_, hx.code_self⟩)
        · omega
  · exact .inr (hsending.step hblock hr hstep halive)

/-- A connection that was subscribed when the list was computed, and has stayed so, is
sent the message. -/
theorem Reachable.reaching (hblock : env.cf.buffOverflowStrategy = bufferOverflowBlock)
    {L : List (Option ConnId)} (hr : Reachable env s) (hwild : isWildcard m.topicName = false)
    (htr : s.trace = pre ++ .fannedOut (.worker w) m L :: post)
    (hlive : (m.topicName, c) ∈ liveAdds (pre.filterMap Event.call))
    (hkeep : Uncancelled m.topicName c post) (halive : (s.conns c).alive = true) :
    s.Reaching w m c := by
  refine hr.invariant (I := fun s => ∀ post, s.trace = pre ++ .fannedOut (.worker w) m L :: post →
    Uncancelled m.topicName c post → (s.conns c).alive = true → s.Reaching w m c) ?_
    (by simp [init]) post htr hkeep halive
  intro s a s' hr hI hstep post htr hkeep halive
  obtain ⟨-, hpre, t, ch, i, rest, nx, -, hx, rfl, rfl⟩ | ⟨c, hc⟩ | ⟨post₀, es, hold, htr', rfl⟩ :=
    trace_since hstep htr
  · exact hx.reaches hr hwild (by rwa [State.calls, hpre])
  · cases hc
  · obtain ⟨hkeep₀, hkeep₁⟩ := hkeep.of_append
    refine (hI post₀ hold hkeep₀ (alive_of_step hstep halive)).step hblock hr hstep ?_ halive
    intro call hcall
    obtain rfl : es = [.index call] := List.append_cancel_left (htr'.symm.trans hcall)
    simpa [Uncancelled, eq_comm] using hkeep₁

/-! ## `doSubscribe` -/

/-- The instructions of `doSubscribe`, and what they lead to. -/
def Instr.inSubscribe : Instr → Bool
  | .authorized _ | .countSub _ | .aborted | .closeStop _ | .subsAdd .. | .submit .. | .send ..
  | .trySend .. | .sendRetain .. | .unlock => true
  | _ => false

theorem subscribe_follows (hi : i.inSubscribe = true) (h : Follows env i nx) :
    ∃ is, nx = .push is ∧ is.all Instr.inSubscribe = true := by
  cases h with
  | falls _ => exact ⟨[], rfl, rfl⟩
  | submit | trySubmit | overSubs | noRetain | sendRetain _ => exact ⟨_, rfl, rfl⟩
  | _ => cases hi

/-- `doSubscribe` has yet to look for the retained message of the topic. It has added
the subscription, or does so before. -/
def State.Due (s : State) (c : ConnId) (topic : GoString) (post : List Event) : Prop :=
  ∃ l₁ l₂, s.code (.inbound c) = l₁ ++ .sendRetain c topic :: l₂ ∧
    l₁.all Instr.inSubscribe = true ∧ (.subsAdd c topic ∈ l₁ ∨ .index (.add topic c) ∈ post)

theorem due_doSubscribe {sub : Subscribe} {q : QosLevel} (ht : (topic, q) ∈ sub.topics)
    (hcode : s.code (.inbound c) = doSubscribe c sub ++ rest) : s.Due c topic [] := by
  obtain ⟨l₁, l₂, hsplit⟩ := List.append_of_mem ht
  refine ⟨[Instr.authorized c] ++
    sub.topics.flatMap (fun tq => [Instr.countSub c, .subsAdd c tq.1]) ++
    [Instr.submit c (.subAck sub.messageId (sub.topics.map fun _ => .atMostOnce))] ++
    l₁.map (fun tq => .sendRetain c tq.1), l₂.map (fun tq => .sendRetain c tq.1) ++ rest, ?_, ?_, ?_⟩
  · rw [hcode, doSubscribe]
    simp [hsplit]
  · simp [List.all_eq_true, Instr.inSubscribe]
  · refine .inl ?_
    simp only [List.mem_append, List.mem_flatMap, List.mem_cons, List.not_mem_nil, or_false]
    exact .inl (.inl (.inr ⟨_, ht, .inr rfl⟩))

/-- One step of `doSubscribe`: it is still due, or this is the step that looks for the
retained message, with the subscription added before. -/
theorem Executes.due (hx : Executes env s (.inbound c) ch i rest nx s') (h : s.Due c topic post) :
    (∀ es, s'.trace = s.trace ++ es → s'.Due c topic (post ++ es)) ∨
      i = .sendRetain c topic ∧ .index (.add topic c) ∈ post := by
  obtain ⟨l₁, l₂, hcode, hall, hadd⟩ := h
  rw [hx.code] at hcode
  cases l₁ with
  | nil => exact .inr ⟨(List.cons.inj hcode).1, hadd.resolve_left nofun⟩
  | cons j l₁ =>
    obtain ⟨rfl, rfl⟩ := List.cons.inj hcode
    simp only [List.all_cons, Bool.and_eq_true] at hall
    obtain ⟨is, rfl, his⟩ := subscribe_follows hall.1 hx.follows
    refine .inl fun es htr => ⟨is ++ l₁, l₂, ?_, ?_, ?_⟩
    · rw [hx.code_self]
      exact (List.append_assoc ..).symm
    · rw [List.all_append, his, hall.2]
      rfl
    · obtain hadd | hadd := hadd
      · obtain rfl | hadd := List.mem_cons.1 hadd
        · obtain ⟨-, s₁, hexec, rfl⟩ := hx
          simp only [exec] at hexec
          split at hexec <;> cases hexec
          obtain rfl : es = [.index (.add topic c)] := (List.append_cancel_left htr).symm
          exact .inr (by simp)
        · exact .inl (List.mem_append_right _ hadd)
      · exact .inr (List.mem_append_left _ hadd)

/-! ## The retained copy -/

/-- The instructions that change what the topic of `m` retains to something else. -/
def Instr.retainsOther (m : Publish) : Instr → Bool
  | .storeRetain m' => m'.topicName = m.topicName ∧ m' ≠ m
  | .deleteRetain topic => topic = m.topicName
  | _ => false

/-- Once worker `w` has begun to handle `m`, no other message changes what the topic
retains. -/
def NoOtherUpdate (w : Nat) (m : Publish) (s : State) : BrokerAction → Prop
  | .run t _ => .taken (.worker w) m true ∈ s.trace →
    (s.code t).head?.any (·.retainsOther m) = false
  | _ => True

instance (w : Nat) (m : Publish) (s : State) (a : BrokerAction) :
    Decidable (NoOtherUpdate w m s a) := by
  unfold NoOtherUpdate
  split <;> infer_instance

/-- The worker keeps the message, or the topic retains it. -/
def State.Keeping (s : State) (w : Nat) (m : Publish) : Prop :=
  .taken (.worker w) m true ∈ s.trace →
    .storeRetain m ∈ s.code (.worker w) ∨ s.subs.retain m.topicName = some ⟨m, true⟩

theorem State.Keeping.step (hr : Reachable env s) (hpayload : m.payload ≠ [])
    (h : s.Keeping w m) (hg : NoOtherUpdate w m s a) (hstep : step env s a = some s') :
    s'.Keeping w m := by
  obtain ⟨-, ⟨-, rfl⟩ | ⟨-, rfl⟩ | ⟨t, ch, i, rest, nx, rfl, hx⟩⟩ := step_cases hstep
  · simpa [State.Keeping, State.accept, State.log, State.setCode] using h
  · simpa [State.Keeping, State.acceptPeer, State.setCode] using h
  · intro htaken
    obtain hold | ⟨rfl, rfl, hretain⟩ := hx.mem_trace htaken
    · have hother : i.retainsOther m = false := by simpa [hx.code] using hg hold
      obtain hmem | hretain := h hold
      · obtain hstay | ⟨rfl, rfl⟩ := hx.worker_stays hr hmem (by simp)
        · exact .inl hstay
        · refine .inr ?_
          obtain ⟨-, s₁, hexec, rfl⟩ := hx
          simp only [exec] at hexec
          split at hexec <;> cases hexec
          simp [State.setCode]
      · refine .inr ?_
        obtain heq | ⟨topic, rfl, heq⟩ | ⟨m', rfl, heq⟩ := hx.effects.retain <;> rw [heq]
        · exact hretain
        · have hne : topic ≠ m.topicName := by simpa [Instr.retainsOther] using hother
          rw [Function.update_of_ne (Ne.symm hne), hretain]
        · by_cases htopic : m'.topicName = m.topicName
          · obtain rfl : m' = m := by simpa [Instr.retainsOther, htopic] using hother
            simp
          · rw [Function.update_of_ne (Ne.symm htopic), hretain]
    · obtain ⟨-, ⟨-, hempty, -⟩ | ⟨-, rfl⟩⟩ := hx.handlePost
      · exact absurd hempty hpayload
      · exact .inl (by simp [hx.code_self, Next.apply, handleLive, ← hretain])

/-! ## The two orders -/

def Event.fansOut (w : Nat) (m : Publish) : Event → Bool
  | .fannedOut t m' _ => t = .worker w ∧ m' = m
  | _ => false

/-- When `c` looks for the retained message, worker `w` has not computed the list, or
has stored the message, or `c` was added before the list was computed. Only what was
logged after the first `n` events counts. -/
def Timely (n w : Nat) (m : Publish) (c : ConnId) (s : State) : BrokerAction → Prop
  | .run t _ => (s.code t).head? = some (.sendRetain c m.topicName) →
    .fanOut m ∈ s.code (.worker w) ∨ .storeRetain m ∉ s.code (.worker w) ∨
      .index (.add m.topicName c) ∈ (s.trace.takeWhile (!·.fansOut w m)).drop n
  | _ => True

instance (n w : Nat) (m : Publish) (c : ConnId) (s : State) (a : BrokerAction) :
    Decidable (Timely n w m c s a) := by
  unfold Timely
  split <;> infer_instance

/-- The list is computed after the subscription was added. -/
def State.Ahead (s : State) (w : Nat) (m : Publish) (c : ConnId) (post : List Event) : Prop :=
  .taken (.worker w) m true ∉ s.trace ∨ .fanOut m ∈ s.code (.worker w) ∨
    ∃ mid L post', post = mid ++ .fannedOut (.worker w) m L :: post' ∧
      .index (.add m.topicName c) ∈ mid

/-- If the subscription is among what was logged behind `pre` and before the list, so
is the list. -/
theorem exists_fannedOut {tr : List Event} {e : Event} {L : List (Option ConnId)}
    (hmem : Event.fannedOut (.worker w) m L ∈ tr) (htr : tr = pre ++ e :: post)
    (hadd : Event.index (.add m.topicName c) ∈ (tr.takeWhile (!·.fansOut w m)).drop pre.length)
    (he : ∀ k, e ≠ .index k) :
    ∃ mid L post', post = mid ++ Event.fannedOut (.worker w) m L :: post' ∧
      Event.index (.add m.topicName c) ∈ mid := by
  have hdrop : tr.dropWhile (!·.fansOut w m) ≠ [] := by
    intro hnil
    have hall := List.dropWhile_eq_nil_iff.1 hnil _ hmem
    simp [Event.fansOut] at hall
  have hhead := List.head_dropWhile_not _ hdrop
  have hsplit : tr = tr.takeWhile (!·.fansOut w m) ++ tr.dropWhile (!·.fansOut w m) :=
    List.takeWhile_append_dropWhile.symm
  generalize tr.takeWhile (!·.fansOut w m) = before, tr.dropWhile (!·.fansOut w m) = after
    at hsplit hadd hdrop hhead
  obtain ⟨e', post', rfl⟩ := List.exists_cons_of_ne_nil hdrop
  obtain ⟨L', rfl⟩ : ∃ L', e' = .fannedOut (.worker w) m L' := by
    cases e' <;> simp_all [Event.fansOut]
  obtain ⟨mid, rfl, -⟩ | ⟨mid, rfl, hmid⟩ := List.append_eq_append_iff.1 (hsplit.symm.trans htr)
  · -- `before` would end within `pre`
    rw [List.drop_eq_nil_of_le (by simp)] at hadd
    cases hadd
  · rw [List.drop_left] at hadd
    cases mid with
    | nil => cases hadd
    | cons e₀ mid =>
      obtain ⟨rfl, rfl⟩ := List.cons.inj hmid
      exact ⟨mid, L', post', rfl, (List.mem_cons.1 hadd).resolve_left fun h => he _ h.symm⟩

theorem State.Ahead.step (hr : Reachable env s) (h : s.Ahead w m c post)
    (hpayload : m.payload ≠ []) (hstep : step env s a = some s') {es : List Event}
    (hadd : .index (.add m.topicName c) ∈ post) (htr : s'.trace = s.trace ++ es) :
    s'.Ahead w m c (post ++ es) := by
  obtain hnot | hmem | ⟨mid, L, post₀, rfl, hmid⟩ := h
  · by_cases htaken : .taken (.worker w) m true ∈ s'.trace
    · obtain hold | ⟨c, hc⟩ | ⟨t, ch, i, rest, nx, rfl, hx, rfl, rfl, hretain⟩ :=
        mem_trace_step hstep htaken
      · exact absurd hold hnot
      · cases hc
      · obtain ⟨-, ⟨-, hempty, -⟩ | ⟨-, rfl⟩⟩ := hx.handlePost
        · exact absurd hempty hpayload
        · exact .inr (.inl (by simp [hx.code_self, Next.apply, handleLive]))
    · exact .inl htaken
  · obtain ⟨-, ⟨-, rfl⟩ | ⟨-, rfl⟩ | ⟨t, ch, i, rest, nx, rfl, hx⟩⟩ := step_cases hstep
    · exact .inr (.inl (by simpa [State.accept, State.log, State.setCode] using hmem))
    · exact .inr (.inl (by simpa [State.acceptPeer, State.setCode] using hmem))
    · obtain hstay | ⟨rfl, rfl⟩ := hx.worker_stays hr hmem (by simp)
      · exact .inr (.inl hstay)
      · have hlog : ∃ L, s'.trace = s.trace ++ [Event.fannedOut (.worker w) m L] := by
          obtain ⟨-, s₁, hexec, rfl⟩ := hx
          simp only [exec] at hexec
          split at hexec <;> cases hexec
          exact ⟨_, rfl⟩
        obtain ⟨L, hlog⟩ := hlog
        obtain rfl : es = _ := List.append_cancel_left (htr.symm.trans hlog)
        exact .inr (.inr ⟨post, L, [], rfl, hadd⟩)
  · exact .inr (.inr ⟨mid, L, post₀ ++ es, by simp, hmid⟩)

/-! ## Nothing is lost -/

/-- `c` gets the message: it has yet to look for the retained copy, is sent it, or was
subscribed before the list was computed. -/
def State.Served (s : State) (w : Nat) (m : Publish) (c : ConnId) (post : List Event) : Prop :=
  s.Due c m.topicName post ∨ .index (.add m.topicName c) ∈ post ∧
    ((∃ obj, s.Sending (.inbound c) c (.publish { m with obj })) ∨ s.Ahead w m c post)

/-- `c` looks for the retained message. If it does not find the one of worker `w`, the
worker has it still to store. -/
theorem Executes.served {e : Event} (hr : Reachable env s)
    (hx : Executes env s (.inbound c) ch (.sendRetain c m.topicName) rest nx s')
    (hwild : isWildcard m.topicName = false) (hpayload : m.payload ≠ [])
    (hkeeping : s.Keeping w m) (hg : Timely pre.length w m c s (.run (.inbound c) ch))
    (htr : s.trace = pre ++ e :: post) (he : ∀ k, e ≠ .index k) :
    (∃ obj, s'.Sending (.inbound c) c (.publish { m with obj })) ∨ s'.Ahead w m c post := by
  obtain ⟨htrace, hfound⟩ := hx.sendRetain
  by_cases htaken : .taken (.worker w) m true ∈ s.trace
  swap
  · exact .inr (.inl (htrace ▸ htaken))
  have hcode : s'.code (.worker w) = s.code (.worker w) := hx.code_worker nofun nofun
  obtain hstore | hretain := hkeeping htaken
  · refine .inr ?_
    obtain hfan | ⟨L, hL⟩ := hr.taken htaken fun h => hpayload h.2
    · exact .inr (.inl (hcode ▸ hfan))
    · obtain hfan | hstored | hadd := hg (by simp [hx.code])
      · exact .inr (.inl (hcode ▸ hfan))
      · exact absurd hstore hstored
      · exact .inr (.inr (exists_fannedOut hL htr hadd he))
  · obtain ⟨hwild' | hnone, -⟩ | ⟨r, -, hr', rfl, -⟩ := hfound
    · simp [hwild] at hwild'
    · simp [hretain] at hnone
    · obtain rfl : ⟨m, true⟩ = r := Option.some.inj (hretain.symm.trans hr')
      exact .inl ⟨_, .inl ⟨_, hx.code_self⟩⟩

theorem State.Served.step {e : Event} (hblock : env.cf.buffOverflowStrategy = bufferOverflowBlock)
    (hr : Reachable env s) (hwild : isWildcard m.topicName = false) (hpayload : m.payload ≠ [])
    (hkeeping : s.Keeping w m) (hg : Timely pre.length w m c s a)
    (h : s.Served w m c post) (htr : s.trace = pre ++ e :: post) (he : ∀ k, e ≠ .index k)
    (hstep : step env s a = some s') {es : List Event} (htr' : s'.trace = s.trace ++ es)
    (halive : (s'.conns c).alive = true) : s'.Served w m c (post ++ es) := by
  obtain hdue | ⟨hadd, hgets⟩ := h
  · obtain ⟨l₁, l₂, hcode, hall, hadd⟩ := id hdue
    have hbusy : ∃ j rest, s.code (.inbound c) = j :: rest ∧ j ≠ .inboundLoop c := by
      cases l₁ with
      | nil => exact ⟨_, _, hcode, nofun⟩
      | cons j l₁ =>
        refine ⟨_, _, hcode, ?_⟩
        rintro rfl
        cases hall
    obtain ⟨j, rest, hhead, hj⟩ := hbusy
    obtain hsame | ⟨ch, nx, rfl, hx⟩ := step_busy hr hstep hhead hj
    · exact .inl ⟨l₁, l₂, hsame.trans hcode, hall, hadd.imp_right (List.mem_append_left _)⟩
    · obtain hdue | ⟨rfl, hadd⟩ := hx.due hdue
      · exact .inl (hdue es htr')
      · obtain rfl : es = [] := List.append_cancel_left
          (htr'.symm.trans (hx.sendRetain.1.trans (List.append_nil _).symm))
        rw [List.append_nil]
        exact .inr ⟨hadd, hx.served hr hwild hpayload hkeeping hg htr he⟩
  · refine .inr ⟨List.mem_append_left _ hadd, hgets.imp ?_ ?_⟩
    · rintro ⟨obj, hsending⟩
      exact ⟨obj, hsending.step hblock hr hstep halive⟩
    · exact fun hahead => hahead.step hr hpayload hstep hadd htr'

/-- The handler starts with all of `doSubscribe` to do. -/
theorem Executes.due_received {e : Event} {sub : Subscribe} {q : QosLevel} (hr : Reachable env s)
    (hx : Executes env s t ch i rest nx s') (hlog : e.LoggedBy s t i)
    (he : e = .received c (.subscribe sub)) (htr : s'.trace = s.trace ++ [e])
    (ht : (topic, q) ∈ sub.topics) : s'.Due c topic [] := by
  subst he
  obtain rfl : i = .inboundLoop c := hlog
  obtain rfl := hx.home hr rfl
  obtain ⟨p, -, rfl, htr'⟩ | ⟨rfl, rfl⟩ := hx.inboundLoop
  · obtain hp : .received c (.subscribe sub) = Event.received c (p.at s.nextObj) := by
      simpa using htr.symm.trans htr'
    obtain ⟨-, hp⟩ := Event.received.inj hp
    have hcode := hx.code_self
    rw [← hp, Next.apply, List.append_assoc] at hcode
    exact due_doSubscribe ht hcode
  · obtain ⟨-, s₁, hexec, rfl⟩ := hx
    cases hexec
    simp [State.setCode] at htr

theorem Uncancelled.live_of_add {mid : List Event} (hkeep : Uncancelled topic c mid)
    (hwild : isWildcard topic = false) (hadd : .index (.add topic c) ∈ mid) :
    (topic, c) ∈ liveAdds ((pre ++ mid).filterMap Event.call) := by
  rw [List.filterMap_append]
  exact mem_liveAdds_of_add (.inl hwild) (mem_calls.2 hadd) (mt mem_calls.1 hkeep.1)
    (mt mem_calls.1 hkeep.2)

theorem State.Served.queued {e : Event} (hblock : env.cf.buffOverflowStrategy = bufferOverflowBlock)
    (hr : Reachable env s) (hwild : isWildcard m.topicName = false)
    (htaken : .taken (.worker w) m true ∈ s.trace) (hserved : s.Served w m c post)
    (htr : s.trace = pre ++ e :: post) (hkeep : Uncancelled m.topicName c post)
    (halive : (s.conns c).alive = true)
    (hworker : ∀ i ∈ s.code (.worker w), i.delivers m = false)
    (hclient : ∀ i ∈ s.code (.inbound c), i ≠ .sendRetain c m.topicName ∧
      ∀ obj, i.delivers { m with obj } = false) :
    .queued (.worker w) c (.publish m) ∈ s.trace ∨
      ∃ obj, .queued (.inbound c) c (.publish { m with obj }) ∈ s.trace := by
  obtain hdue | ⟨-, ⟨obj, hsending⟩ | hahead⟩ := hserved
  · obtain ⟨l₁, l₂, hcode, -⟩ := hdue
    exact absurd rfl (hclient (.sendRetain c m.topicName) (by simp [hcode])).1
  · exact .inr ⟨obj, hsending.queued fun i hi => (hclient i hi).2 obj⟩
  · refine .inl ?_
    obtain hnot | hfan | ⟨mid, L, post', rfl, hadd⟩ := hahead
    · exact absurd htaken hnot
    · simpa [Instr.delivers] using hworker _ hfan
    · obtain ⟨hmid, hpost⟩ := hkeep.of_append
      have htr : s.trace = (pre ++ [e] ++ mid) ++ .fannedOut (.worker w) m L :: post' := by
        simp [htr]
      have hpost : Uncancelled m.topicName c post' := hpost.of_cons
      obtain ⟨sl, k, k', hmem, -⟩ | hsending :=
        hr.reaching hblock hwild htr (hmid.live_of_add hwild hadd) hpost halive
      · simpa [Instr.delivers] using hworker _ hmem
      · exact hsending.queued hworker

/-- With the block strategy, a connection that subscribes to the topic of a retained
message while a worker handles it gets the message, live or as the retained copy. This
is so if no other message on the topic interferes, unless the worker has computed its
list before the subscription is added and stores the message after the connection has
looked for it. -/
theorem new_subscriber {acts : List BrokerAction} {n : Nat} {sub : Subscribe} {q : QosLevel}
    (hblock : env.cf.buffOverflowStrategy = bufferOverflowBlock)
    (hrun : Transition.run (step env) (init env) acts = some s)
    (htimely : Transition.Guarded (step env) (Timely n w m c) (init env) acts)
    (halone : Transition.Guarded (step env) (NoOtherUpdate w m) (init env) acts)
    (hwild : isWildcard m.topicName = false) (hpayload : m.payload ≠ [])
    (htaken : .taken (.worker w) m true ∈ s.trace)
    (hsub : s.trace[n]? = some (.received c (.subscribe sub)))
    (ht : (m.topicName, q) ∈ sub.topics) (hkeep : Uncancelled m.topicName c (s.trace.drop n))
    (halive : (s.conns c).alive = true)
    (hworker : ∀ i ∈ s.code (.worker w), i.delivers m = false)
    (hclient : ∀ i ∈ s.code (.inbound c), i ≠ .sendRetain c m.topicName ∧
      ∀ obj, i.delivers { m with obj } = false) :
    .queued (.worker w) c (.publish m) ∈ s.trace ∨
      ∃ obj, .queued (.inbound c) c (.publish { m with obj }) ∈ s.trace := by
  obtain ⟨hn, he⟩ := List.getElem?_eq_some_iff.1 hsub
  have hdrop : s.trace.drop n = .received c (.subscribe sub) :: s.trace.drop (n + 1) := by
    rw [List.drop_eq_getElem_cons hn, he]
  have htr : s.trace = s.trace.take n ++ .received c (.subscribe sub) :: s.trace.drop (n + 1) := by
    rw [← hdrop, List.take_append_drop]
  rw [hdrop] at hkeep
  obtain ⟨pre, hpre⟩ : ∃ pre, s.trace.take n = pre := ⟨_, rfl⟩
  obtain rfl : pre.length = n := by
    rw [← hpre]
    exact List.length_take_of_le (Nat.le_of_lt hn)
  rw [hpre] at htr
  have hinv := Transition.run_invariant (I := fun s => s.Keeping w m ∧
    ∀ post, s.trace = pre ++ .received c (.subscribe sub) :: post →
      (s.conns c).alive = true → s.Served w m c post) ?_ ⟨by simp [State.Keeping, init],
        by simp [init]⟩ hrun (htimely.and halone)
  · exact (hinv.2 _ htr halive).queued hblock ⟨acts, hrun⟩ hwild htaken htr
      hkeep.of_cons halive hworker hclient
  · rintro s a s' hr ⟨hkeeping, hserved⟩ ⟨htimely, halone⟩ hstep
    refine ⟨hkeeping.step hr hpayload halone hstep, fun post htr halive => ?_⟩
    obtain ⟨rfl, hpre, t, ch, i, rest, nx, -, hx, hlog⟩ | ⟨c, hc⟩ | ⟨post₀, es, hold, htr', rfl⟩ :=
      trace_since hstep htr
    · exact .inl (hx.due_received hr hlog rfl (hpre ▸ htr) ht)
    · cases hc
    · exact (hserved post₀ hold (alive_of_step hstep halive)).step hblock hr hwild hpayload hkeeping
        htimely hold (by simp) hstep htr' halive

/-- Client `0` sends a retained message on `t`, and the worker makes `k` steps. Then
client `1` subscribes to `t`, and the worker goes on with `l` steps. -/
def lateRun (k l : Nat) : List BrokerAction :=
  .accept :: sends 0 (.connect (.named (str "a"))) 9 ++ sends 0 (.publish true (onT 0)) 5 ++
    List.replicate k (.run (.worker 0) .go) ++ joinRun 1 (str "b") 7 ++
    List.replicate l (.run (.worker 0) .go)

theorem new_subscriber_lateRun :
    ∃ s, Transition.run (step workerEnv) (init workerEnv) (lateRun 2 6) = some s ∧
      s.code (.worker 0) = [.workerLoop] ∧ s.code (.inbound 1) = [.inboundLoop 1] ∧
      (.queued (.worker 0) 1 (.publish (onT 1)) ∈ s.trace ∨
        ∃ obj, .queued (.inbound 1) 1 (.publish (onT obj)) ∈ s.trace) := by
  have heval : (Transition.run (step workerEnv) (init workerEnv) (lateRun 2 6)).map (fun s => decide (
      s.code (.worker 0) = [.workerLoop] ∧ s.code (.inbound 1) = [.inboundLoop 1] ∧
      .taken (.worker 0) (onT 1) true ∈ s.trace ∧ (s.conns 1).alive = true ∧
      s.trace[14]? = some (.received 1 (.subscribe ⟨1, [(str "t", .atMostOnce)]⟩)) ∧
      .index (.unsub (str "t") 1) ∉ s.trace.drop 14 ∧ .index (.unsubAll 1) ∉ s.trace.drop 14)) =
      some true := by decide +kernel
  obtain ⟨s, hrun, hdec⟩ := Option.map_eq_some_iff.1 heval
  obtain ⟨hworker, hclient, htaken, halive, hsub, hkeep⟩ := of_decide_eq_true hdec
  refine ⟨s, hrun, hworker, hclient, ?_⟩
  exact new_subscriber (n := 14) rfl hrun (by decide +kernel) (by decide +kernel)
    (by decide +kernel)
    (by decide +kernel) htaken hsub (List.mem_singleton_self _) hkeep halive
    (by simp [hworker, Instr.delivers]) (by simp [hclient, Instr.delivers])

/-- The worker computes the list, client `1` subscribes and looks for the retained
message, and only then is the message stored. Client `1` does not get it. -/
theorem missed_retained :
    (Transition.run (step workerEnv) (init workerEnv) (lateRun 3 2)).map (fun s =>
      (s.code (.worker 0), s.code (.inbound 1), s.subs.retain (str "t"),
        s.trace.any fun e => match e with
          | .queued _ 1 (.publish _) => true
          | _ => false)) =
      some ([.workerLoop], [.inboundLoop 1], some ⟨onT 1, true⟩, false) := by
  decide +kernel
