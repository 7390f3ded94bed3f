-- SUMMARY: The entries in the store of a connection that has it for itself: outbound ones are never removed, inbound ones go with their acknowledgement.
import Mhub.Broker.Sole

/-!
# Entries

An outbound entry is made when a message is taken from the queue, and nothing removes
it: the handler of PUBACK is empty. An inbound entry is made by `doPublish` and removed
by `outboundLoop`, one step after it has taken the acknowledgement from the queue.
-/

variable {env : Env} {s s' : State} {t : Tid} {ch : Choice} {i : Instr} {rest : List Instr}
  {nx : Next} {c : ConnId} {id : GoString} {n : UInt16}

/-! ## Outbound entries -/

/-- A QoS 1 PUBLISH with the message id was taken from the queue. -/
def wasDequeued (n : UInt16) (h : List Seen) : Bool :=
  (h.filterMap Seen.publish).any (·.messageId = n)

/-- Such a PUBLISH was taken, and no PUBACK with the message id was handled since. -/
def awaitsAck (n : UInt16) (h : List Seen) : Bool :=
  h.foldl (fun waits e =>
    match e with
    | .dequeued m => waits || m.messageId = n
    | .acked k => waits && k ≠ n) false

theorem wasDequeued_of_awaitsAck {h : List Seen} (hw : awaitsAck n h = true) :
    wasDequeued n h = true := by
  induction h using List.reverseRecOn with
  | nil => cases hw
  | append_singleton h e ih =>
    simp only [awaitsAck, List.foldl_append, List.foldl_cons, List.foldl_nil] at hw
    simp only [wasDequeued, List.filterMap_append, List.any_append, Bool.or_eq_true]
    cases e with
    | dequeued m =>
      simp only [Bool.or_eq_true] at hw
      exact hw.imp ih fun hm => by simpa [Seen.publish] using hm
    | acked k =>
      simp only [Bool.and_eq_true] at hw
      exact .inl (ih hw.1)

theorem lastWith_isSome_eq {ms : List Publish} :
    (lastWith n ms).isSome = ms.any (·.messageId = n) := by
  rw [Bool.eq_iff_iff, List.any_eq_true, Option.isSome_iff_ne_none, lastWith, ne_eq,
    List.getLast?_eq_none_iff, List.filter_eq_nil_iff]
  push Not
  rfl

/-- Between two messages of `outboundLoop`, the store holds an outbound entry for every
message id that was ever taken from the queue. So it holds exactly those that wait for
their acknowledgement as long as no acknowledgement comes. -/
theorem outbound_entries {as : List BrokerAction}
    (hrun : Transition.run (step env) (init env) as = some s)
    (hg : Transition.Guarded (step env) (SoleUser c id · ·) (init env) as)
    (hidle : s.persisting c = none) :
    (∀ n, (s.contents id (oboundMid2key n)).isSome =
        awaitsAck n (Transition.observed (step env) (sees c) (init env) as)) ↔
      ∀ n, wasDequeued n (Transition.observed (step env) (sees c) (init env) as) = true →
        awaitsAck n (Transition.observed (step env) (sees c) (init env) as) = true := by
  have hhistory : Sole c id s ∧ ∀ n, s.outstanding c id n = ((lastWith n
      ((Transition.observed (step env) (sees c) (init env) as).filterMap Seen.publish)).map
        .publish).or none := by
    refine Transition.run_history (I := fun h s => Sole c id s ∧ ∀ n, s.outstanding c id n =
      ((lastWith n (h.filterMap Seen.publish)).map .publish).or none) ?_ ⟨sole_init, fun n => rfl⟩
      hrun hg
    intro h s a s' hr ⟨hsole, hI⟩ hG hstep
    refine ⟨hsole.step hr hG hstep, fun n => outstanding_step hr hstep ?_ (hI n)⟩
    intro t ch i rest nx _ hx n
    rw [hsole.contents hr hx]
  have hentry : ∀ n, (s.contents id (oboundMid2key n)).isSome =
      wasDequeued n (Transition.observed (step env) (sees c) (init env) as) := by
    intro n
    have hn := hhistory.2 n
    simp only [State.outstanding, hidle] at hn
    rw [wasDequeued, ← lastWith_isSome_eq]
    simpa using congrArg Option.isSome hn
  simp only [hentry]
  constructor
  · intro h n hn
    rw [← h n, hn]
  · intro h n
    rw [Bool.eq_iff_iff]
    exact ⟨h n, wasDequeued_of_awaitsAck⟩

/-- A client subscribes to a topic, publishes on it, and is sent its own message. -/
def echoRun : List BrokerAction :=
  subscriberRun ++ sends 0 (.publish false ⟨0, .atLeastOnce, str "t", 7, [1]⟩) 7 ++
    List.replicate 7 (.run (.worker 0) .go) ++
    sendsNext 0 ++ sendsNext 0 ++ sendsNext 0 ++ sendsNext 0

/-- The message waits for its acknowledgement. -/
theorem outbound_entries_echoRun :
    ∃ s, Transition.run (step doublesEnv) (init doublesEnv) echoRun = some s ∧
      wasDequeued 7 (Transition.observed (step doublesEnv) (sees 0) (init doublesEnv) echoRun) =
        true ∧
      ∀ n, (s.contents (str "s") (oboundMid2key n)).isSome =
        awaitsAck n (Transition.observed (step doublesEnv) (sees 0) (init doublesEnv) echoRun) := by
  have hrun : (Transition.run (step doublesEnv) (init doublesEnv) echoRun).map (·.persisting 0) =
      some none := by decide +kernel
  have hseen : Transition.observed (step doublesEnv) (sees 0) (init doublesEnv) echoRun =
      [.dequeued ⟨2, .atLeastOnce, str "t", 7, [1]⟩] := by decide +kernel
  obtain ⟨s, hs, hidle⟩ := Option.map_eq_some_iff.1 hrun
  refine ⟨s, hs, by rw [hseen]; decide +kernel, ?_⟩
  refine (outbound_entries (c := 0) hs (by decide +kernel) hidle).2 fun n hn => ?_
  rw [hseen] at hn ⊢
  simpa [wasDequeued, awaitsAck, Seen.publish] using hn

/-- The client acknowledges the message, and the entry stays. -/
theorem outbound_entry_left :
    ∃ s, Transition.run (step doublesEnv) (init doublesEnv)
        (echoRun ++ sends 0 (.pubAck ⟨.atMostOnce, 7⟩) 0) = some s ∧
      Transition.Guarded (step doublesEnv) (SoleUser 0 (str "s") · ·) (init doublesEnv)
        (echoRun ++ sends 0 (.pubAck ⟨.atMostOnce, 7⟩) 0) ∧
      s.between 0 ∧ s.code (.outbound 0) = [.outboundLoop 0] ∧
      (s.contents (str "s") (oboundMid2key 7)).isSome = true ∧
      awaitsAck 7 (Transition.observed (step doublesEnv) (sees 0) (init doublesEnv)
        (echoRun ++ sends 0 (.pubAck ⟨.atMostOnce, 7⟩) 0)) = false := by
  have hrun : (Transition.run (step doublesEnv) (init doublesEnv)
      (echoRun ++ sends 0 (.pubAck ⟨.atMostOnce, 7⟩) 0)).map (fun s =>
        decide (s.between 0 ∧ s.code (.outbound 0) = [.outboundLoop 0] ∧
          (s.contents (str "s") (oboundMid2key 7)).isSome = true)) = some true := by decide +kernel
  obtain ⟨s, hs, hdec⟩ := Option.map_eq_some_iff.1 hrun
  obtain ⟨hbetween, hout, hentry⟩ := of_decide_eq_true hdec
  exact ⟨s, hs, by decide +kernel, hbetween, hout, hentry, by decide +kernel⟩

/-! ## Inbound entries -/

/-- The acknowledgement that `doPublish` makes. -/
def ackOf (n : UInt16) : Message := .pubAck ⟨.atMostOnce, n⟩

/-- `doPublish` has persisted what it handles, and not queued the acknowledgement yet. -/
def State.acking (s : State) (c : ConnId) (n : UInt16) : Prop :=
  (∀ m, .persistInbound c m ∉ s.code (.inbound c)) ∧
    (.submit c (ackOf n) ∈ s.code (.inbound c) ∨ .send c ⟨ackOf n, none⟩ ∈ s.code (.inbound c))

/-- The acknowledgement is under way: it is going to be queued, it is in the queue, or
`outboundLoop` has taken it and not removed the entry yet. -/
def State.AckDue (s : State) (c : ConnId) (n : UInt16) : Prop :=
  s.acking c n ∨ (∃ j ∈ (s.conns c).jobs, j.m = ackOf n) ∨ s.persisting c = some (ackOf n)

/-- What is sent on an open queue gets into it, or into the hands of `outboundLoop`. -/
theorem Executes.send_lands {j : Job} (hx : Executes env s t ch (.send c j) rest nx s')
    (hopen : (s.conns c).jobsClosed = false) (ht : t ≠ .outbound c) :
    j ∈ (s'.conns c).jobs ∨ s'.persisting c = some j.m := by
  obtain ⟨-, s₁, hexec, rfl⟩ := hx
  simp only [exec, hopen, Bool.false_eq_true, if_false] at hexec
  split at hexec <;> cases hexec
  obtain ⟨-, rfl⟩ | ⟨-, rest', -, rfl⟩ := State.enqueue_eq_some ‹_›
  · exact .inl (by simp [State.setCode, State.log, State.modConn])
  · exact .inr (by simp [State.persisting, State.setCode, State.log, handleJob, Ne.symm ht])

/-- What `outboundLoop` takes from the queue it is about to persist. -/
theorem Executes.takes {j : Job} (hx : Executes env s (.outbound c) ch (.outboundLoop c) rest nx s')
    (h : (s.conns c).jobs = j :: (s'.conns c).jobs) : s'.persisting c = some j.m := by
  obtain ⟨-, s₁, hexec, rfl⟩ := hx
  simp only [exec] at hexec
  repeat' split at hexec
  all_goals cases hexec
  · next hjobs =>
    obtain ⟨rfl, -⟩ := List.cons.inj (hjobs.symm.trans h)
    simp [State.persisting, State.setCode, Next.apply, handleJob]
  -- it has left, and the queue is as it was
  · exact absurd h.symm (List.cons_ne_self _ _)
  · exact absurd h.symm (List.cons_ne_self _ _)

theorem brings_persistInbound {m : Publish} (h : i.brings (.persistInbound c m) = true) :
    i = .inboundLoop c := by
  cases Instr.brings_cases h with
  | persistInbound => rfl

/-- `doPublish` comes closer to queueing the acknowledgement, or does it. -/
theorem State.acking.step (hblock : env.cf.buffOverflowStrategy = bufferOverflowBlock)
    (hr : Reachable env s) (h : s.acking c n)
    (hx : Executes env s (.inbound c) ch i rest nx s') : s'.AckDue c n := by
  obtain ⟨hnone, howed⟩ := h
  rw [hx.code] at hnone howed
  by_cases hsubmit : i = .submit c (ackOf n)
  · subst hsubmit
    obtain rfl := hx.submit_block hblock (hx.alive hr (by simp [Instr.inHandler]))
    refine .inl ⟨fun m hm => ?_, .inr ?_⟩
    · rw [hx.code_self] at hm
      simp only [Next.apply, List.cons_append, List.nil_append, List.mem_cons, reduceCtorEq,
        false_or] at hm
      exact hnone m (List.mem_cons_of_mem _ hm)
    · rw [hx.code_self]
      exact List.mem_cons_self ..
  · by_cases hsend : i = .send c ⟨ackOf n, none⟩
    · subst hsend
      obtain hjob | hpers := hx.send_lands (hx.jobs_open hr (by simp [Instr.inHandler])) (by simp)
      · exact .inr (.inl ⟨_, hjob, rfl⟩)
      · exact .inr (.inr hpers)
    · -- what is owed stands behind the instruction
      have hrest : .submit c (ackOf n) ∈ rest ∨ .send c ⟨ackOf n, none⟩ ∈ rest :=
        howed.imp (fun h => (List.mem_cons.1 h).resolve_left (Ne.symm hsubmit))
          fun h => (List.mem_cons.1 h).resolve_left (Ne.symm hsend)
      cases nx with
      | jump l =>
        obtain rfl := hx.inbound_jump hr
        simp at hrest
      | push is =>
        have hcode : s'.code (.inbound c) = is ++ rest := hx.code_self
        refine .inl ⟨fun m hm => ?_, ?_⟩
        · rw [hcode] at hm
          obtain hm | hm := List.mem_append.1 hm
          · obtain rfl := brings_persistInbound (hx.follows.brings hm)
            have hshape := hr.shaped (.inbound c)
            rw [hx.code] at hshape
            obtain rfl := hshape.rest_of_loop
            simp at hrest
          · exact hnone m (List.mem_cons_of_mem _ hm)
        · rw [hcode]
          exact hrest.imp (List.mem_append_right _) (List.mem_append_right _)

/-- The acknowledgement stays under way until `outboundLoop` removes the entry. -/
theorem State.AckDue.step (hblock : env.cf.buffOverflowStrategy = bufferOverflowBlock)
    (hr : Reachable env s) (h : s.AckDue c n) (hx : Executes env s t ch i rest nx s')
    (hi : i ≠ .persistOutbound c (ackOf n)) : s'.AckDue c n := by
  obtain h | ⟨j, hj, hm⟩ | h := h
  · by_cases ht : t = .inbound c
    · subst ht
      exact h.step hblock hr hx
    · rw [State.AckDue, State.acking, hx.code_inbound (Ne.symm ht)]
      exact .inl h
  · obtain heq | ⟨j', -, heq⟩ | ⟨rfl, j', heq⟩ := (hx.conn c).jobs
    · exact .inr (.inl ⟨j, heq ▸ hj, hm⟩)
    · exact .inr (.inl ⟨j, heq ▸ List.mem_append_left _ hj, hm⟩)
    · rw [heq, List.mem_cons] at hj
      obtain rfl | hj := hj
      · obtain rfl := hx.home hr rfl
        exact .inr (.inr (hm ▸ hx.takes heq))
      · exact .inr (.inl ⟨j, hj, hm⟩)
  · have hp := hx.persists hr (c := c)
    rw [h] at hp
    generalize hnew : s'.persisting c = o at hp
    cases hp with
    | same _ => exact .inr (.inr hnew)
    | done hdone => exact absurd hdone hi

/-- An entry that is there after a step has its acknowledgement under way. -/
theorem ackDue_executes (hblock : env.cf.buffOverflowStrategy = bufferOverflowBlock)
    (hr : Reachable env s) (hsole : Sole c id s)
    (hI : ∀ n, s.contents id (iboundMid2key n) ≠ none → s.AckDue c n)
    (hx : Executes env s t ch i rest nx s')
    (hentry : s'.contents id (iboundMid2key n) ≠ none) : s'.AckDue c n := by
  rw [hsole.contents hr hx] at hentry
  cases hcall : storeCall c i with
  | none =>
    rw [hcall] at hentry
    refine (hI n hentry).step hblock hr hx ?_
    rintro rfl
    simp [storeCall, persistOutbound, ackOf] at hcall
  | some call =>
    rw [hcall, Option.elim_some] at hentry
    by_cases hkey : iboundMid2key n = call.key
    · obtain ⟨m, rfl, hm⟩ | ⟨m, rfl, hm⟩ := storeCall_eq_some hcall
      · -- `doPublish` has made the entry
        obtain ⟨hq, rfl⟩ := persistInbound_eq_some hm
        obtain rfl := iboundMid2key_inj.1 hkey
        obtain rfl := hx.home hr rfl
        obtain rfl := hx.behind hr rfl
        have hf := hx.follows
        cases hf
        refine .inl ⟨?_, ?_⟩ <;> rw [hx.code_self] <;> simp [Next.apply, hq, ackOf]
      · obtain ⟨p, rfl, -, rfl⟩ | ⟨a, rfl, rfl⟩ := persistOutbound_eq_some hm
        · exact absurd hkey (iboundMid2key_ne_oboundMid2key _ _)
        · exact absurd (by rw [hkey]; exact Function.update_self ..) hentry
    · rw [StoreCall.apply_of_ne hkey] at hentry
      refine (hI n hentry).step hblock hr hx ?_
      rintro rfl
      simp only [storeCall, if_true, persistOutbound, ackOf, Option.some.injEq] at hcall
      exact hkey (hcall ▸ rfl)

theorem State.AckDue.accept (hr : Reachable env s) (h : s.AckDue c n) : s.accept.AckDue c n := by
  obtain h | h | h := h
  · have hne : c ≠ s.nconns := by
      intro hc
      have hnil := (hr.lifecycle c).fresh (Nat.le_of_eq hc.symm)
      simp [State.acking, hnil] at h
    have hcode : s.accept.code (.inbound c) = s.code (.inbound c) := by
      simp [State.accept, State.log, State.setCode, hne]
    rw [State.AckDue, State.acking, hcode]
    exact .inl h
  · exact .inr (.inl h)
  · exact .inr (.inr ((State.persisting_accept hr).trans h))

/-- Every inbound entry of the store has its acknowledgement under way: to the queue, in
the queue, or from the queue to the removal of the entry. So there are none when nothing
is under way. -/
theorem inbound_entries {as : List BrokerAction}
    (hblock : env.cf.buffOverflowStrategy = bufferOverflowBlock)
    (hrun : Transition.run (step env) (init env) as = some s)
    (hg : Transition.Guarded (step env) (SoleUser c id · ·) (init env) as) :
    (∀ n, s.contents id (iboundMid2key n) ≠ none →
      s.acking c n ∨ (∃ j ∈ (s.conns c).jobs, j.m = ackOf n) ∨
        s.persisting c = some (ackOf n)) ∧
    (s.between c → (s.conns c).jobs = [] → (∀ n, s.persisting c ≠ some (ackOf n)) →
      ∀ n, s.contents id (iboundMid2key n) = none) := by
  have hI : Sole c id s ∧ ∀ n, s.contents id (iboundMid2key n) ≠ none → s.AckDue c n := by
    refine Transition.run_invariant (I := fun s => Sole c id s ∧
      ∀ n, s.contents id (iboundMid2key n) ≠ none → s.AckDue c n) ?_
      ⟨sole_init, fun n h => absurd rfl h⟩ hrun hg
    intro s a s' hr ⟨hsole, hI⟩ hG hstep
    refine ⟨hsole.step hr hG hstep, fun n hentry => ?_⟩
    obtain ⟨-, ⟨-, rfl⟩ | ⟨-, rfl⟩ | ⟨t, ch, i, rest, nx, rfl, hx⟩⟩ := step_cases hstep
    · exact (hI n hentry).accept hr
    · exact hI n hentry
    · exact ackDue_executes hblock hr hsole hI hx hentry
  refine ⟨hI.2, fun hbetween hjobs hpers n => ?_⟩
  by_contra hentry
  obtain ⟨-, howed⟩ | ⟨j, hj, -⟩ | h := hI.2 n hentry
  · -- an idle handler owes nothing
    obtain hcode | hsuf := hbetween
    · simp [hcode] at howed
    · exact howed.elim (fun h => by simpa [inboundDefer] using hsuf.subset h)
        fun h => by simpa [inboundDefer] using hsuf.subset h
  · rw [hjobs] at hj
    cases hj
  · exact hpers n h

/-- A client publishes, and is sent the CONNACK; the acknowledgement is taken from the
queue. -/
def ackTaken : List BrokerAction :=
  .accept :: sends 0 (.connect (.named (str "a"))) 9 ++
    sends 0 (.publish false ⟨0, .atLeastOnce, str "t", 7, [1]⟩) 7 ++ sendsNext 0 ++
    [.run (.outbound 0) .job]

/-- One step later the entry is removed. -/
theorem inbound_entries_ackTaken :
    ∃ s, Transition.run (step doublesEnv) (init doublesEnv) (ackTaken ++ [.run (.outbound 0) .go]) =
        some s ∧
      .received 0 (.publish false ⟨1, .atLeastOnce, str "t", 7, [1]⟩) ∈ s.trace ∧
      ∀ n, s.contents (str "a") (iboundMid2key n) = none := by
  have hrun : (Transition.run (step doublesEnv) (init doublesEnv)
      (ackTaken ++ [.run (.outbound 0) .go])).map (fun s =>
        decide (s.between 0 ∧ (s.conns 0).jobs = [] ∧ s.persisting 0 = none ∧
          .received 0 (.publish false ⟨1, .atLeastOnce, str "t", 7, [1]⟩) ∈ s.trace)) =
      some true := by decide +kernel
  obtain ⟨s, hs, hdec⟩ := Option.map_eq_some_iff.1 hrun
  obtain ⟨hbetween, hjobs, hidle, hreceived⟩ := of_decide_eq_true hdec
  have hblock : doublesEnv.cf.buffOverflowStrategy = bufferOverflowBlock := by simp [doublesEnv]
  exact ⟨s, hs, hreceived,
    (inbound_entries (c := 0) hblock hs (by decide +kernel)).2 hbetween hjobs (by simp [hidle])⟩

/-- In between, the handler is idle, the queue is empty, and the entry is there. -/
theorem inbound_entry_left :
    ∃ s, Transition.run (step doublesEnv) (init doublesEnv) ackTaken = some s ∧
      Transition.Guarded (step doublesEnv) (SoleUser 0 (str "a") · ·) (init doublesEnv) ackTaken ∧
      doublesEnv.cf.buffOverflowStrategy = bufferOverflowBlock ∧
      s.contents (str "a") (iboundMid2key 7) ≠ none ∧ s.code (.inbound 0) = [.inboundLoop 0] ∧
      (s.conns 0).jobs = [] := by
  have hrun : (Transition.run (step doublesEnv) (init doublesEnv) ackTaken).map (fun s =>
      decide (s.contents (str "a") (iboundMid2key 7) ≠ none ∧
        s.code (.inbound 0) = [.inboundLoop 0] ∧ (s.conns 0).jobs = [])) = some true := by
    decide +kernel
  obtain ⟨s, hs, hdec⟩ := Option.map_eq_some_iff.1 hrun
  obtain ⟨hentry, hcode, hjobs⟩ := of_decide_eq_true hdec
  exact ⟨s, hs, by decide +kernel, by simp [doublesEnv], hentry, hcode, hjobs⟩
