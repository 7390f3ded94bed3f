-- SUMMARY: Who gets a message: a worker queues it only for connections that were subscribed while it handled the message.
import Mhub.Broker.Content
import Mhub.Broker.Lists

/-!
# Audience

A worker goes through its list of subscribers without holding `subs.mu`, and others
write into the array behind the list in the meantime. So what it reads need not be what
`subscribers` returned. It is never a stranger, though. The array belongs to one topic,
and all that gets into it is a connection that at that moment has a subscription to the
topic, by its name or by a wildcard filter. So every connection that gets the message was
subscribed at some moment between the lookup and the reading: nobody gets a message on a
subscription that was cancelled before a worker began with the message.
-/

variable {env : Env} {s s' : State} {t : Tid} {ch : Choice} {i j : Instr} {rest : List Instr}
  {nx : Next} {c : ConnId} {m : Publish} {topic : GoString} {sl : Slice}

/-! ## What can get into a list -/

namespace Subscriptions

variable {g : Nat → Nat} {this : Subscriptions}

/-- `add` shows its connection in a list of the same topic. -/
theorem Handed.mem_add {topic' : GoString} {c' : ConnId} (h : this.Handed topic sl)
    (hv : this.Valid) (hc : some c ∈ (this.add g topic' c').heap.contents sl) :
    some c ∈ this.heap.contents sl ∨ isWildcard topic' = false ∧ topic' = topic ∧ c' = c := by
  unfold Subscriptions.add at hc
  split at hc
  · simp only at hc
    split at hc <;> exact .inl hc
  · next hwild =>
    have hlen : 0 < sl.len := by
      by_contra hlen
      simp [Heap.contents, Nat.eq_zero_of_not_pos hlen] at hc
    obtain hc | ⟨harr, hc⟩ := Heap.mem_contents_append h.valid hc
    · exact .inl hc
    · exact .inr ⟨by simpa using hwild, h.eq_of_arr hv harr hlen, (Option.some.inj hc).symm⟩

/-- A lookup shows the wildcard connections in a list of the same topic. -/
theorem Handed.mem_subscribers {topic' : GoString} (h : this.Handed topic sl) (hv : this.Valid)
    (hc : some c ∈ (this.subscribers g topic').1.heap.contents sl) :
    some c ∈ this.heap.contents sl ∨ topic' = topic ∧ some c ∈ this.wildMatches topic := by
  have hlen : 0 < sl.len := by
    by_contra hlen
    simp [Heap.contents, Nat.eq_zero_of_not_pos hlen] at hc
  obtain hc | ⟨harr, hc⟩ := Heap.mem_contents_appendAll h.valid hc
  · exact .inl hc
  · obtain rfl := h.eq_of_arr hv harr hlen
    exact .inr ⟨rfl, hc⟩

theorem mem_contents_unsub {topic' : GoString} {c' : ConnId}
    (hc : some c ∈ (this.unsub topic' c').heap.contents sl) : some c ∈ this.heap.contents sl := by
  unfold Subscriptions.unsub at hc
  split at hc
  · exact hc
  · simp only at hc
    split at hc <;> exact Heap.mem_contents_mapInPlace (fun _ => eq_of_dropConn_eq_some) hc

theorem mem_contents_unsubAll {c' : ConnId}
    (hc : some c ∈ (this.unsubAll c').heap.contents sl) : some c ∈ this.heap.contents sl :=
  Heap.mem_contents_mapAllInPlace (fun _ => eq_of_dropConn_eq_some) hc

end Subscriptions

/-- Whoever is in the list at the lookup has a live subscription to the topic. -/
theorem Refines.mem_subscribers {this : Subscriptions} {hist : List Call} (h : Refines this hist)
    (hc : some c ∈ this.slots topic ++ this.wildMatches topic) :
    ∃ f, (f, c) ∈ liveAdds hist ∧ Selects f topic := by
  refine (mem_recipients (g := id) h).1 ?_
  rw [Subscriptions.recipients, Subscriptions.contents_subscribers h.valid]
  exact List.reduceOption_mem_iff.2 hc

/-! ## Subscribed while the list is read -/

/-- At some moment since `pre`, the connection has a live subscription to the topic. -/
def LiveDuring (topic : GoString) (pre mid : List Event) (c : ConnId) : Prop :=
  ∃ mid₁ mid₂ f, mid = mid₁ ++ mid₂ ∧ (f, c) ∈ liveAdds ((pre ++ mid₁).filterMap Event.call) ∧
    Selects f topic

theorem LiveDuring.mono {pre mid : List Event} (h : LiveDuring topic pre mid c) (es : List Event) :
    LiveDuring topic pre (mid ++ es) c := by
  obtain ⟨mid₁, mid₂, f, rfl, hf⟩ := h
  exact ⟨mid₁, mid₂ ++ es, f, List.append_assoc .., hf⟩

/-- The worker `t` is reading the list `sl` for `m`. Whoever is in it was subscribed at
some moment since the lookup. -/
def State.Attends (s : State) (t : Tid) (m : Publish) (sl : Slice) : Prop :=
  ∃ pre L mid, s.trace = pre ++ .fannedOut t m L :: mid ∧ s.subs.Handed m.topicName sl ∧
    ∀ c, some c ∈ s.subs.heap.contents sl → LiveDuring m.topicName pre mid c

/-- The worker `t` has computed the list for `m`, and since then the connection was
subscribed. -/
def Deserves (tr : List Event) (t : Tid) (m : Publish) (c : ConnId) : Prop :=
  ∃ pre L mid, tr = pre ++ .fannedOut t m L :: mid ∧ LiveDuring m.topicName pre mid c

theorem Deserves.mono {tr : List Event} (h : Deserves tr t m c) (es : List Event) :
    Deserves (tr ++ es) t m c := by
  obtain ⟨pre, L, mid, rfl, hlive⟩ := h
  exact ⟨pre, L, mid ++ es, by simp, hlive.mono es⟩

/-- The moment now counts. -/
theorem liveDuring_now {L : List (Option ConnId)} {pre mid : List Event} {f : GoString}
    (htr : s.trace = pre ++ .fannedOut t m L :: mid) (hf : (f, c) ∈ liveAdds s.calls)
    (hsel : Selects f topic) : LiveDuring topic pre mid c := by
  refine ⟨mid, [], f, by simp, ?_, hsel⟩
  simpa [State.calls, htr, List.filterMap_cons, Event.call] using hf

/-- No step puts anybody else into the list. -/
theorem State.Attends.step {a : BrokerAction} (h : s.Attends t m sl) (hr : Reachable env s)
    (hstep : step env s a = some s') : s'.Attends t m sl := by
  obtain ⟨pre, L, mid, htr, hhanded, hlive⟩ := h
  obtain ⟨es, htr'⟩ := step_trace_append hstep
  have htr'' : s'.trace = pre ++ .fannedOut t m L :: (mid ++ es) := by simp [htr', htr]
  have hv := hr.refines.valid
  have hr' : Reachable env s' := hr.tail hstep
  -- a step that leaves the lists alone
  have hsame : s'.subs.heap = s.subs.heap → s'.subs.subs = s.subs.subs → s'.Attends t m sl := by
    intro hheap hsubs
    refine ⟨pre, L, mid ++ es, htr'', ⟨hheap ▸ hhanded.valid, ?_⟩, fun c hc => ?_⟩
    · rw [hsubs]
      exact hhanded.own
    · exact (hlive c (hheap ▸ hc)).mono es
  obtain ⟨-, ⟨-, rfl⟩ | ⟨-, rfl⟩ | ⟨t₁, ch, i, rest, nx, -, hx⟩⟩ := step_cases hstep
  · exact hsame rfl rfl
  · exact hsame rfl rfl
  · obtain ⟨k, hlog, hsubs, htrk⟩ | ⟨-, hsubs | ⟨m', rfl, hsubs⟩ | ⟨retain, hsubs⟩⟩ :=
      hx.effects.subs
    · have hcalls : s'.calls = s.calls ++ [k] := by simp [State.calls, htrk, Event.call]
      cases k with
      | add f c' =>
        refine ⟨pre, L, mid ++ es, htr'', hsubs ▸ hhanded.add hv f c', fun c hc => ?_⟩
        rw [hsubs] at hc
        obtain hc | ⟨hwild, rfl, rfl⟩ := hhanded.mem_add hv hc
        · exact (hlive c hc).mono es
        · refine liveDuring_now htr'' ?_ (.inl ⟨hwild, rfl⟩)
          rw [hcalls, liveAdds_concat_add, if_pos (.inl hwild)]
          exact List.mem_append_right _ (List.mem_singleton_self _)
      | unsub f c' =>
        refine ⟨pre, L, mid ++ es, htr'', hsubs ▸ hhanded.unsub f c', fun c hc => ?_⟩
        rw [hsubs] at hc
        exact (hlive c (Subscriptions.mem_contents_unsub hc)).mono es
      | unsubAll c' =>
        refine ⟨pre, L, mid ++ es, htr'', hsubs ▸ hhanded.unsubAll c', fun c hc => ?_⟩
        rw [hsubs] at hc
        exact (hlive c (Subscriptions.mem_contents_unsubAll hc)).mono es
    · exact hsame (by rw [hsubs]) (by rw [hsubs])
    · refine ⟨pre, L, mid ++ es, htr'', hsubs ▸ hhanded.subscribers m'.topicName, fun c hc => ?_⟩
      rw [hsubs] at hc
      obtain hc | ⟨htop, hc⟩ := hhanded.mem_subscribers hv hc
      · exact (hlive c hc).mono es
      · obtain ⟨f, hf, hsel⟩ := hr.refines.mem_subscribers (List.mem_append_right _ hc)
        have hcalls : s'.calls = s.calls := hx.calls rfl
        exact liveDuring_now htr'' (hcalls ▸ hf) hsel
    · exact hsame (by rw [hsubs]) (by rw [hsubs])

/-- At the lookup everybody in the list is subscribed. -/
theorem Executes.fanOut_attends (hr : Reachable env s)
    (hx : Executes env s t ch (.fanOut m) rest nx s') :
    ∃ sl, nx = .push [.deliver m sl 0] ∧ s'.Attends t m sl := by
  have hv := hr.refines.valid
  obtain ⟨-, s₁, hexec, rfl⟩ := hx
  cases eq_of_ite_none hexec
  refine ⟨_, rfl, s.trace, _, [], rfl, Subscriptions.handed_subscribers hv _, fun c hc => ?_⟩
  have hc : some c ∈ s.subs.slots m.topicName ++ s.subs.wildMatches m.topicName := by
    rw [← Subscriptions.contents_subscribers hv]
    exact hc
  obtain ⟨f, hf, hsel⟩ := hr.refines.mem_subscribers hc
  exact ⟨[], [], f, rfl, by simpa [State.calls] using hf, hsel⟩

/-! ## What a worker has to send -/

/-- What a worker has to do for a connection, the connection deserves. -/
def State.Attended (s : State) (t : Tid) : Instr → Prop
  | .deliver m sl _ => s.Attends t m sl
  | .submit c (.publish m) | .submitSync c (.publish m) | .send c ⟨.publish m, _⟩
  | .trySend c ⟨.publish m, _⟩ => ∀ w, t = .worker w → Deserves s.trace t m c
  | _ => True

theorem State.Attended.step {a : BrokerAction} (h : s.Attended t i) (hr : Reachable env s)
    (hstep : step env s a = some s') : s'.Attended t i := by
  obtain ⟨es, htr⟩ := step_trace_append hstep
  have hmono : ∀ {m c}, (∀ w, t = .worker w → Deserves s.trace t m c) →
      ∀ w, t = .worker w → Deserves s'.trace t m c :=
    fun h w ht => htr ▸ (h w ht).mono es
  cases i with
  | deliver m sl k => exact State.Attends.step h hr hstep
  | submit c msg | submitSync c msg =>
    cases msg with
    | publish m => exact hmono h
    | _ => trivial
  | send c j | trySend c j =>
    obtain ⟨msg, r⟩ := j
    cases msg with
    | publish m => exact hmono h
    | _ => trivial
  | _ => trivial

theorem Executes.attended_next (hr : Reachable env s) (hx : Executes env s t ch i rest nx s')
    (hold : s.Attended t i) (h : s'.Attended t i) (hj : j ∈ nx.instrs) : s'.Attended t j := by
  have hb := Instr.brings_cases (hx.follows.brings hj)
  cases hb with
  | @send c msg => cases msg <;> exact h
  | @trySend c msg => cases msg <;> exact h
  | @sendSync c msg r => cases msg <;> exact h
  | deliver =>
    obtain ⟨sl', rfl, hatt⟩ := hx.fanOut_attends hr
    cases List.mem_singleton.1 hj
    exact hatt
  | deliverNext => exact h
  | @delivery m sl k c =>
    intro w _
    obtain ⟨-, ⟨entry, -, hentry, htr, rfl⟩ | ⟨hlen, -⟩⟩ := hx.deliver
    · obtain rfl : entry = some c := by
        cases entry with
        | none => simp [Next.instrs, submitEntry] at hj
        | some c' =>
          simp only [Next.instrs, submitEntry, List.cons_append, List.nil_append, List.mem_cons,
            Instr.submit.injEq, List.not_mem_nil, or_false, reduceCtorEq] at hj
          rw [hj.1]
      obtain ⟨pre, L, mid, htr₀, -, hlive⟩ := hold
      have hmem : some c ∈ s.subs.heap.contents sl :=
        List.mem_of_getElem? (Option.join_eq_some_iff.1 hentry.symm)
      have hdes : Deserves s.trace t m c := ⟨pre, L, mid, htr₀, hlive c hmem⟩
      exact htr ▸ hdes.mono _
    · -- the list is at its end
      obtain ⟨-, s₁, hexec, -⟩ := hx
      simp only [exec, if_neg (Nat.not_lt.2 hlen)] at hexec
      cases hexec
      cases hj
  | @answer c msg | @connAck c _ _ msg | @resend c key msg =>
    obtain rfl := hx.home hr rfl
    cases msg with
    | publish m =>
      intro w h
      cases h
    | _ => trivial
  | retained =>
    obtain rfl := hx.home hr rfl
    intro w h
    cases h
  | _ => trivial

theorem Reachable.attended (hr : Reachable env s) (hi : i ∈ s.code t) : s.Attended t i := by
  refine hr.forall_code (Q := fun s t i => s.Attended t i) ?_ ?_ ?_ ?_ t i hi
  · intro s t
    cases t <;> trivial
  · intro s a s' t i hr hstep h
    exact h.step hr hstep
  · intro s t ch i rest nx s' j hr hx hold hi hj
    exact hx.attended_next hr hold hi hj
  · intro s t ch i rest nx s' j t' hx _ hj _
    cases hj <;> trivial

/-- A worker queues a message for a connection only if the connection had a live
subscription to the topic at some moment after the worker had begun with the message. -/
theorem live_audience {w : Nat} {pre post : List Event} (hr : Reachable env s)
    (h : s.trace = pre ++ .queued (.worker w) c (.publish m) :: post) :
    ∃ pre₀ L mid₁ mid₂ f, pre = pre₀ ++ .fannedOut (.worker w) m L :: (mid₁ ++ mid₂) ∧
      (f, c) ∈ liveAdds ((pre₀ ++ mid₁).filterMap Event.call) ∧ Selects f m.topicName := by
  have hdes : Deserves pre (.worker w) m c := by
    refine hr.justified (P := fun pre e => ∀ w c m, e = .queued (.worker w) c (.publish m) →
      Deserves pre (.worker w) m c) (by simp) ?_ pre _ post h w c m rfl
    rintro s t ch i rest nx s' - hr - hx hlog - w c m rfl
    obtain ⟨rfl, ⟨msg, r⟩, hi, rfl⟩ := hlog
    have hatt := hr.attended hx.mem_self
    obtain rfl | rfl := hi <;> exact hatt w rfl
  obtain ⟨pre₀, L, mid, rfl, mid₁, mid₂, f, rfl, hf, hsel⟩ := hdes
  exact ⟨pre₀, L, mid₁, mid₂, f, rfl, hf, hsel⟩

/-- The client that has subscribed to `t` gets what a peer sends on `t`. -/
theorem live_audience_contentRun :
    ∃ s m pre post, Transition.run (step openEnv) (init openEnv) contentRun = some s ∧
      s.trace = pre ++ .queued (.worker 0) 0 (.publish m) :: post ∧
      ∃ pre₀ L mid₁ mid₂ f, pre = pre₀ ++ .fannedOut (.worker 0) m L :: (mid₁ ++ mid₂) ∧
        (f, 0) ∈ liveAdds ((pre₀ ++ mid₁).filterMap Event.call) ∧ Selects f m.topicName := by
  have heval : (Transition.run (step openEnv) (init openEnv) contentRun).map (fun s =>
      decide (.queued (.worker 0) 0 (.publish ⟨2, .atMostOnce, str "t", 5, [1]⟩) ∈ s.trace)) =
      some true := by decide +kernel
  obtain ⟨s, hrun, hs⟩ := Option.map_eq_some_iff.1 heval
  obtain ⟨pre, post, htr⟩ := List.append_of_mem (of_decide_eq_true hs)
  exact ⟨s, _, pre, post, hrun, htr, live_audience ⟨_, hrun⟩ htr⟩
