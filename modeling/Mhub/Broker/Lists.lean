-- SUMMARY: The lists of subscribers the workers read: what an entry can be when the worker gets to it, and which calls in between may change it.
import Mhub.Broker.Retain

/-!
# Lists being read

A worker goes through the list that `subscribers` returned without holding `subs.mu`,
and the list is a slice. Its first part is the slots of the topic, in the array of the
index or a copy of it; a cancellation writes nil there. Behind the slots come the
wildcard connections. If the array of the index has room for them they are in its
spare capacity, which the index does not know of: the next `add` for the topic writes
its connection over the first of them, and the next lookup writes the wildcards that
match by then.
-/

variable {env : Env} {s s' : State} {t : Tid} {ch : Choice} {i : Instr} {rest : List Instr}
  {nx : Next} {w : Nat} {m : Publish} {L : List (Option ConnId)} {mid : List Event}

/-! ## One list at a time -/

/-- The instructions that lead to the reading of a list. -/
def Instr.scans : Instr → Bool
  | .handlePost _ | .fanOut _ | .deliver .. => true
  | _ => false

theorem brings_scans {j : Instr} (h : i.brings j = true) (hj : j.scans = true) :
    i = .workerLoop ∨ i.scans = true := by
  cases Instr.brings_cases h with
  | handlePost => exact .inl rfl
  | deleteRetain | fanOut | storeRetain | deliver | deliverNext => exact .inr rfl
  | _ => cases hj

/-- A list that is read to its end makes room for one. -/
theorem countP_scans_follows (h : Follows env i nx) (hi : i ≠ .workerLoop) :
    nx.instrs.countP Instr.scans ≤ [i].countP Instr.scans := by
  by_cases hs : i.scans = true
  · cases h with
    | falls _ => simp [Next.instrs]
    | deleteRetain | fanOut _ => simp [Next.instrs, Instr.scans]
    | handleLive isRetain =>
      cases isRetain <;> simp [Next.instrs, handleLive, List.countP_cons, Instr.scans]
    | deliver entry => cases entry <;> simp [Next.instrs, submitEntry, Instr.scans]
    | _ => cases hs
  · have hnone : nx.instrs.countP Instr.scans = 0 := by
      rw [List.countP_eq_zero]
      intro j hj hscans
      exact (brings_scans (h.brings hj) hscans).elim hi hs
    omega

theorem Reachable.scans (hr : Reachable env s) (w : Nat) :
    (s.code (.worker w)).countP Instr.scans ≤ 1 := by
  refine hr.invariant (I := fun s => (s.code (.worker w)).countP Instr.scans ≤ 1) ?_ ?_
  · intro s a s' hr hI hstep
    have hshaped := Reachable.shaped hr (.worker w)
    have hcode := step_code hstep (.worker w)
    generalize s.code (.worker w) = l, s'.code (.worker w) = l' at hcode hI hshaped
    cases hcode with
    | same => exact hI
    | start => simp [Tid.loop, Instr.scans]
    | @flow i rest nx hf =>
      by_cases hi : i = .workerLoop
      · subst hi
        obtain rfl : rest = [] := hshaped.rest_of_loop
        cases hf with
        | falls h => cases h
        | post m => simp [Next.apply, List.countP_cons, Instr.scans]
      · have hnext := countP_scans_follows hf hi
        have happly : (nx.apply rest).countP Instr.scans ≤
            nx.instrs.countP Instr.scans + rest.countP Instr.scans := by
          cases nx <;> simp [Next.apply, Next.instrs, List.countP_append]
        simp only [List.countP_cons, List.countP_nil] at hI hnext
        omega
  · simp only [init]
    split <;> simp [Instr.scans]

/-! ## What becomes of an entry -/

/-- The entry `x` of a list for `topic` may be read as `y` after what was logged
since: it is the same, or nil after its subscription was cancelled. -/
def Stable (topic : GoString) (mid : List Event) (x y : Option ConnId) : Prop :=
  y = x ∨ y = none ∧
    ∃ c, x = some c ∧ (.index (.unsub topic c) ∈ mid ∨ .index (.unsubAll c) ∈ mid)

theorem Stable.mono {topic : GoString} {x y : Option ConnId} (h : Stable topic mid x y)
    (es : List Event) : Stable topic (mid ++ es) x y := by
  refine h.imp_right (And.imp_right ?_)
  rintro ⟨c, hx, hmem⟩
  exact ⟨c, hx, hmem.imp (List.mem_append_left _) (List.mem_append_left _)⟩

/-- Dropping a connection is a cancellation. -/
theorem Stable.dropConn {topic : GoString} {x y : Option ConnId} (h : Stable topic mid x y)
    {c : ConnId} (hc : .index (.unsub topic c) ∈ mid ∨ .index (.unsubAll c) ∈ mid) :
    Stable topic mid x (Subscriptions.dropConn c y) := by
  unfold Subscriptions.dropConn
  split
  · next hy =>
    obtain rfl | ⟨hnone, -⟩ := h
    · exact .inr ⟨rfl, c, hy, hc⟩
    · simp [hnone] at hy
  · exact h

/-- The slice still holds the list `L` that was computed for `topic`, but for what was
cancelled since. -/
structure State.KeepsList (s : State) (topic : GoString) (sl : Slice) (L : List (Option ConnId))
    (mid : List Event) : Prop where
  handed : s.subs.Handed topic sl
  length : L.length = sl.len
  entry : ∀ {k : Nat} {x}, L[k]? = some x →
    ∃ y, (s.subs.heap.contents sl)[k]? = some y ∧ Stable topic mid x y

theorem State.KeepsList.of_subs {topic : GoString} {sl : Slice} (h : s.KeepsList topic sl L mid)
    (hs : s'.subs = s.subs) (es : List Event) : s'.KeepsList topic sl L (mid ++ es) := by
  refine ⟨hs ▸ h.handed, h.length, fun hx => ?_⟩
  obtain ⟨y, hy, hstable⟩ := h.entry hx
  exact ⟨y, hs ▸ hy, hstable.mono es⟩

/-- All lists that are being read, with their topics, satisfy `p`. -/
def State.allReading (env : Env) (s : State) (p : GoString → Slice → Bool) : Bool :=
  (List.range env.cf.subscriptionsWorkers).all fun w =>
    (s.code (.worker w)).all fun
      | .deliver m sl _ => p m.topicName sl
      | _ => true

/-- While a list for a topic that lies in the spare capacity of the index is being read,
nobody subscribes to the topic, and who looks it up finds the wildcards of the list. -/
def ListSafe (env : Env) (s : State) : BrokerAction → Bool
  | .run t _ =>
    match s.code t with
    | .subsAdd _ f :: _ =>
      isWildcard f || s.allReading env fun topic sl => topic = f → ¬ s.subs.Overhangs topic sl
    | .fanOut m :: _ =>
      s.allReading env fun topic sl => topic = m.topicName → s.subs.Overhangs topic sl →
        (s.subs.heap.contents sl).drop (s.subs.lookup topic).len = s.subs.wildMatches topic
    | _ => true
  | _ => true

theorem State.allReading_mem {p : GoString → Slice → Bool} {sl : Slice} {k : Nat}
    (h : s.allReading env p = true) (hr : Reachable env s)
    (hmem : .deliver m sl k ∈ s.code (.worker w)) : p m.topicName sl = true := by
  have hw : w < env.cf.subscriptionsWorkers := hr.started (List.ne_nil_of_mem hmem)
  exact List.all_eq_true.1 (List.all_eq_true.1 h w (List.mem_range.2 hw)) _ hmem

theorem Executes.keeps {sl : Slice} {k : Nat} {es : List Event} (hr : Reachable env s)
    (hx : Executes env s t ch i rest nx s') (hg : ListSafe env s (.run t ch) = true)
    (htr : s'.trace = s.trace ++ es) (hmem : .deliver m sl k ∈ s.code (.worker w))
    (h : s.KeepsList m.topicName sl L mid) : s'.KeepsList m.topicName sl L (mid ++ es) := by
  have hv := hr.refines.valid
  simp only [ListSafe, hx.code] at hg
  -- the list as it was
  have hsame : s'.subs.Handed m.topicName sl →
      s'.subs.heap.contents sl = s.subs.heap.contents sl →
      s'.KeepsList m.topicName sl L (mid ++ es) := by
    intro hhanded hcontents
    refine ⟨hhanded, h.length, fun hx => ?_⟩
    obtain ⟨y, hy, hstable⟩ := h.entry hx
    exact ⟨y, hcontents ▸ hy, hstable.mono es⟩
  -- the list after a connection was dropped from some of its cells
  have hdrop : ∀ {c}, s'.subs.Handed m.topicName sl →
      (∀ k : Nat, (s'.subs.heap.contents sl)[k]? = (s.subs.heap.contents sl)[k]? ∨
        (.index (.unsub m.topicName c) ∈ es ∨ .index (.unsubAll c) ∈ es) ∧
          (s'.subs.heap.contents sl)[k]? =
            (s.subs.heap.contents sl)[k]?.map (Subscriptions.dropConn c)) →
      s'.KeepsList m.topicName sl L (mid ++ es) := by
    intro c hhanded hcontents
    refine ⟨hhanded, h.length, fun {k x} hx => ?_⟩
    obtain ⟨y, hy, hstable⟩ := h.entry hx
    obtain heq | ⟨hcancel, heq⟩ := hcontents k
    · exact ⟨y, heq.trans hy, hstable.mono es⟩
    · refine ⟨Subscriptions.dropConn c y, by rw [heq, hy]; rfl, (hstable.mono es).dropConn ?_⟩
      exact hcancel.imp (List.mem_append_right _) (List.mem_append_right _)
  obtain ⟨call, hlog, heq, htr'⟩ | ⟨-, heq | ⟨m', rfl, heq⟩ | ⟨retain, heq⟩⟩ := hx.effects.subs
  · obtain rfl : es = [.index call] := List.append_cancel_left (htr.symm.trans htr')
    cases call with
    | add f c =>
      obtain rfl : i = .subsAdd c f := hlog
      refine hsame (heq ▸ h.handed.add hv f c) (heq ▸ h.handed.contents_add hv ?_)
      rintro hwild rfl
      simp only [hwild, Bool.false_or] at hg
      simpa using State.allReading_mem hg hr hmem
    | unsub f c =>
      refine hdrop (c := c) (heq ▸ h.handed.unsub f c) fun k => ?_
      rw [heq]
      refine (h.handed.getElem?_unsub f c k).imp_right ?_
      rintro ⟨rfl, hk⟩
      exact ⟨.inl (List.mem_singleton_self _), hk⟩
    | unsubAll c =>
      refine hdrop (c := c) (heq ▸ h.handed.unsubAll c) fun k => ?_
      rw [heq]
      exact (s.subs.getElem?_unsubAll sl c k).imp_right
        fun hk => ⟨.inr (List.mem_singleton_self _), hk⟩
  · exact hsame (heq ▸ h.handed) (heq ▸ rfl)
  · refine hsame (heq ▸ h.handed.subscribers _) (heq ▸ h.handed.contents_subscribers hv ?_)
    intro ht hover
    have hread := State.allReading_mem hg hr hmem
    simp only [decide_eq_true_eq] at hread
    exact hread ht.symm hover
  · exact hsame (heq ▸ ⟨h.handed.valid, h.handed.own⟩) (heq ▸ rfl)

/-- The list as it is computed. -/
theorem Executes.fanOut_keeps (hr : Reachable env s)
    (hx : Executes env s t ch (.fanOut m) rest nx s') :
    ∃ sl L, nx = .push [.deliver m sl 0] ∧ s'.trace = s.trace ++ [Event.fannedOut t m L] ∧
      s'.KeepsList m.topicName sl L [] := by
  have hv := hr.refines.valid
  obtain ⟨-, s₁, hexec, rfl⟩ := hx
  simp only [exec] at hexec
  split at hexec <;> cases hexec
  have hhanded := Subscriptions.handed_subscribers (g := env.grow) hv m.topicName
  exact ⟨_, _, rfl, rfl, hhanded, hhanded.valid.length_contents, fun hx => ⟨_, hx, .inl rfl⟩⟩

theorem brings_deliver {sl : Slice} {k : Nat} (h : i.brings (.deliver m sl k) = true) :
    i = .fanOut m ∨ ∃ k', i = .deliver m sl k' := by
  cases Instr.brings_cases h with
  | deliver => exact .inl rfl
  | deliverNext => exact .inr ⟨_, rfl⟩

/-! ## Runs -/

section

variable {pre : List Event}

/-- What worker `w` reads after it has computed the list `L` for `m`, and before it
computes another one, is the list. -/
def State.KeepsLast (s : State) (w : Nat) (m : Publish) (L : List (Option ConnId))
    (pre : List Event) : Prop :=
  ∀ mid, s.trace = pre ++ .fannedOut (.worker w) m L :: mid →
    (∀ m' L', .fannedOut (.worker w) m' L' ∉ mid) →
    ∀ m' sl k, .deliver m' sl k ∈ s.code (.worker w) → m' = m ∧ s.KeepsList m.topicName sl L mid

theorem State.KeepsLast.step {a : BrokerAction} (hr : Reachable env s) (hI : s.KeepsLast w m L pre)
    (hg : ListSafe env s a = true) (hstep : step env s a = some s') : s'.KeepsLast w m L pre := by
  intro mid htr hlast m' sl k hmem
  obtain ⟨rfl, hpre, t, ch, i, rest, nx, rfl, hx, rfl, rfl⟩ | ⟨c, hc⟩ | ⟨mid₀, es, hold, htr', rfl⟩ :=
    trace_since hstep htr
  · -- the worker has just computed the list, and has no other
    have hscans := Reachable.scans (hr.tail hstep) w
    obtain ⟨sl', L', rfl, htr', hkeeps⟩ := hx.fanOut_keeps hr
    obtain rfl : L = L' := by simpa [hpre] using htr.symm.trans htr'
    simp only [hx.code_self, Next.apply, List.cons_append, List.nil_append] at hmem hscans
    rcases List.mem_cons.1 hmem with heq | hmem
    · cases heq
      exact ⟨rfl, hkeeps⟩
    · simp only [List.countP_cons, Instr.scans, if_true, Nat.reduceLeDiff] at hscans
      exact absurd rfl (List.countP_eq_zero.1 (Nat.le_zero.1 hscans) _ hmem)
  · cases hc
  · have hlast₀ : ∀ m' L', .fannedOut (.worker w) m' L' ∉ mid₀ :=
      fun m' L' h => hlast m' L' (List.mem_append_left _ h)
    have hkeeps := hI mid₀ hold hlast₀
    obtain ⟨-, ⟨-, rfl⟩ | ⟨-, rfl⟩ | ⟨t, ch, i, rest, nx, rfl, hx⟩⟩ := step_cases hstep
    · have hsubs : s.accept.subs = s.subs := rfl
      exact (hkeeps m' sl k ((State.mem_code_accept hmem).resolve_right (by rintro ⟨⟩))).imp_right
        fun h => h.of_subs hsubs es
    · have hsubs : s.acceptPeer.subs = s.subs := rfl
      exact (hkeeps m' sl k ((State.mem_code_acceptPeer hmem).resolve_right (by rintro ⟨⟩))).imp_right
        fun h => h.of_subs hsubs es
    · have hread : ∃ k', .deliver m' sl k' ∈ s.code (.worker w) := by
        obtain hmem | ⟨rfl, hnew⟩ | hgets := hx.mem_code hmem
        · exact ⟨k, hmem⟩
        · obtain rfl | ⟨k', rfl⟩ := brings_deliver (hx.follows.brings hnew)
          · -- it would have computed another list since
            obtain ⟨-, L', -, hfan, -⟩ := hx.fanOut_keeps hr
            obtain rfl := List.append_cancel_left (htr'.symm.trans hfan)
            exact absurd (List.mem_append_right _ (List.mem_singleton_self _)) (hlast m' L')
          · exact ⟨k', hx.mem_self⟩
        · cases hgets
      obtain ⟨k', hmem⟩ := hread
      obtain ⟨rfl, h⟩ := hkeeps m' sl k' hmem
      exact ⟨rfl, hx.keeps hr hg htr' hmem h⟩

end

/-- In a run in which the lists that are being read are left alone, every entry a worker
reads is the one of the list it has computed, or it is nil and the subscription was
cancelled in between. -/
theorem list_stable {acts : List BrokerAction} {k : Nat} {entry : Option ConnId}
    {pre post : List Event}
    (hrun : Transition.run (step env) (init env) acts = some s)
    (hg : Transition.Guarded (step env) (ListSafe env · ·) (init env) acts)
    (htr : s.trace =
      pre ++ .fannedOut (.worker w) m L :: (mid ++ .slot (.worker w) m k entry :: post))
    (hlast : ∀ m' L', .fannedOut (.worker w) m' L' ∉ mid) :
    ∃ x, L[k]? = some x ∧ (entry = x ∨ entry = none ∧ ∃ c, x = some c ∧
      (.index (.unsub m.topicName c) ∈ mid ∨ .index (.unsubAll c) ∈ mid)) := by
  have hinv := Transition.run_invariant (I := fun s => s.KeepsLast w m L pre ∧
    ∀ post, s.trace =
        (pre ++ .fannedOut (.worker w) m L :: mid) ++ .slot (.worker w) m k entry :: post →
      ∃ x, L[k]? = some x ∧ Stable m.topicName mid x entry) ?_ ?_ hrun hg
  · exact hinv.2 post (by simpa using htr)
  · rintro s a s' hr ⟨hI, hread⟩ hg hstep
    refine ⟨hI.step hr hg hstep, fun post htr => ?_⟩
    obtain ⟨rfl, hpre, t, ch, i, rest, nx, -, hx, rfl, sl, rfl⟩ | ⟨c, hc⟩ | ⟨post₀, es, hold, -, -⟩ :=
      trace_since hstep htr
    · -- the worker reads the entry
      obtain ⟨-, h⟩ := hI mid hpre hlast m sl k hx.mem_self
      rw [← hpre] at htr
      obtain ⟨-, ⟨entry', hk, hentry, htr', -⟩ | ⟨-, htr'⟩⟩ := hx.deliver
      · obtain rfl : entry = entry' := by simpa using htr.symm.trans htr'
        have hx := List.getElem?_eq_getElem (h.length ▸ hk)
        obtain ⟨y, hy, hstable⟩ := h.entry hx
        obtain rfl : entry = y := by rw [hentry, hy]; rfl
        exact ⟨_, hx, hstable⟩
      · simpa using htr.symm.trans htr'
    · cases hc
    · exact hread post₀ hold
  · constructor
    · intro mid htr
      simp [init] at htr
    · intro post htr
      simp [init] at htr

/-- A broker with one worker, whose arrays double when they are full. -/
def doublingEnv : Env where
  cf := { allowAnonymousConnect := true, subscriptionsWorkers := 1 }
  grow := (2 * ·)

/-- Client `c` connects and subscribes to `topics`. -/
def subscribes (c : ConnId) (clientId : GoString) (topics : List GoString) : List BrokerAction :=
  .accept :: sends c (.connect (.named clientId)) 9 ++
    sends c (.subscribe ⟨1, topics.map fun f => (f, .atMostOnce)⟩) (4 * topics.length + 3)

/-- Three slots for `t` leave room for one more in an array of four, which the wildcard
connection gets when a message comes in through a peer. The worker makes `n` steps. -/
def readList (n : Nat) : List BrokerAction :=
  subscribes 0 (str "a") [str "t", str "t", str "t"] ++ subscribes 1 (str "b") [str "+"] ++
  [.acceptPeer, .run (.replay 0) (.recv (.publish false (onT 0))), .run (.replay 0) .go] ++
  List.replicate n (.run (.worker 0) .go)

theorem list_stable_readList :
    ∃ s mid, Transition.run (step doublingEnv) (init doublingEnv)
        (readList 3 ++ sends 0 (.unsubscribe ⟨2, [str "t"]⟩) 3 ++ [.run (.worker 0) .go]) = some s ∧
      s.trace = s.trace.take 22 ++
        .fannedOut (.worker 0) (onT 4) [some 0, some 0, some 0, some 1] ::
          (mid ++ [.slot (.worker 0) (onT 4) 0 none]) ∧
      (.index (.unsub (str "t") 0) ∈ mid ∨ .index (.unsubAll 0) ∈ mid) := by
  have heval : (Transition.run (step doublingEnv) (init doublingEnv)
      (readList 3 ++ sends 0 (.unsubscribe ⟨2, [str "t"]⟩) 3 ++ [.run (.worker 0) .go])).map
      (fun s => decide (s.trace = s.trace.take 22 ++
        .fannedOut (.worker 0) (onT 4) [some 0, some 0, some 0, some 1] ::
          ((s.trace.drop 23).dropLast ++ [.slot (.worker 0) (onT 4) 0 none])) &&
        (s.trace.drop 23).all fun
          | .fannedOut .. => false
          | _ => true) = some true := by decide +kernel
  obtain ⟨s, hrun, hs⟩ := Option.map_eq_some_iff.1 heval
  obtain ⟨htr, hlast⟩ := Bool.and_eq_true_iff.1 hs
  have htr := of_decide_eq_true htr
  have hstable := list_stable hrun (by decide +kernel) htr ?_
  · obtain ⟨x, ⟨⟩, hx | ⟨-, c, ⟨⟩, hcancel⟩⟩ := hstable
    · cases hx
    · exact ⟨s, _, hrun, htr, hcancel⟩
  · intro m' L' h
    cases List.all_eq_true.1 hlast _ (List.dropLast_subset _ h)

/-- A third client subscribes to `t` while the worker is reading: the wildcard
connection is replaced by it. -/
theorem wildcard_replaced :
    (Transition.run (step doublingEnv) (init doublingEnv)
      (readList 12 ++ subscribes 2 (str "c") [str "t"] ++ [.run (.worker 0) .go])).map (fun s =>
      decide (.fannedOut (.worker 0) (onT 4) [some 0, some 0, some 0, some 1] ∈ s.trace ∧
        .slot (.worker 0) (onT 4) 3 (some 2) ∈ s.trace)) = some true := by
  decide +kernel
