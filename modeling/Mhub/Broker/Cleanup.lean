-- SUMMARY: The end of a connection: what is left of its subscriptions and of its entry in the registry once both its loops are over.
import Mhub.Broker.Limit
import Mhub.Broker.Sender

/-!
# Cleanup

The deferred function of `outboundLoop` deletes the connection from the registry and
cancels all its subscriptions, once. What `inboundLoop` registers or subscribes is made
by another goroutine, which may still be at work on a message then. An entry or a
subscription that is made afterwards stays for good.

The registry has a second leak. `del` deletes by the client id of the last CONNECT, so
the entry of an earlier CONNECT with another client id is never deleted.
-/

variable {env : Env} {s s' : State} {t : Tid} {ch : Choice} {i : Instr} {rest : List Instr}
  {nx : Next} {c : ConnId}

/-- Both loops of the connection have finished their deferred functions. -/
def State.Over (s : State) (c : ConnId) : Prop :=
  c < s.nconns ∧ s.code (.inbound c) = [] ∧ s.code (.outbound c) = []

instance State.Over.decidable (s : State) (c : ConnId) : Decidable (s.Over c) :=
  inferInstanceAs (Decidable (_ ∧ _))

/-! ## Subscriptions -/

/-- The last thing `outboundLoop` does is to cancel the subscriptions. -/
theorem Executes.outbound_ends (hr : Reachable env s) (hx : Executes env s t ch i rest nx s')
    (h : s'.code (.outbound c) = []) :
    s.code (.outbound c) = [] ∨ i = .unsubAll c := by
  by_cases ht : .outbound c = t
  · subst ht
    have hsends := hx.sends hr
    have hcode := hx.code
    cases hsends with
    | encode retain ok _ => cases ok <;> simp [State.setCode, encoded] at h
    | deferred hcode' hsuf _ =>
      obtain ⟨rfl, rfl⟩ := List.cons.inj (hcode.symm.trans hcode')
      obtain rfl : rest = [] := by simpa [State.setCode] using h
      exact .inr (by simpa [outboundDefer, List.suffix_cons_iff] using hsuf)
    | _ => simp [State.setCode, outboundDefer] at h
  · have htouch := hx.touch ht
    generalize s.code (.outbound c) = l, s'.code (.outbound c) = l' at htouch h
    cases htouch with
    | same => exact .inl h
    | job _ => cases h

/-- The step records no subscription of `c` when its `outboundLoop` is over. -/
def SubscribesBefore (c : ConnId) (s : State) : BrokerAction → Bool
  | .run t _ =>
    match s.code t with
    | .subsAdd c' f :: _ => c' = c → Accepts f → s.code (.outbound c) ≠ []
    | _ => true
  | _ => true

theorem Executes.not_live (hr : Reachable env s) (hx : Executes env s t ch i rest nx s')
    (hg : SubscribesBefore c s (.run t ch) = true)
    (hI : s.code (.outbound c) = [] → ∀ f, (f, c) ∉ liveAdds s.calls)
    (h : s'.code (.outbound c) = []) (f : GoString) : (f, c) ∉ liveAdds s'.calls := by
  intro hlive
  obtain hcalls | ⟨k, hlog, hcalls⟩ := hx.calls_cases <;> rw [hcalls] at hlive
  · obtain hend | rfl := hx.outbound_ends hr h
    · exact hI hend f hlive
    · -- the call is in the log
      obtain ⟨-, s₁, hexec, rfl⟩ := hx
      simp only [exec] at hexec
      split at hexec <;> cases hexec
      simp [State.calls, State.callIndex, State.log, State.setCode, Event.call] at hcalls
  · obtain ⟨hold, hk⟩ | ⟨rfl, hacc⟩ := mem_liveAdds_concat hlive
    · obtain hend | rfl := hx.outbound_ends hr h
      · exact hI hend f hold
      · cases k <;> cases hlog
        exact hk rfl
    · obtain rfl : i = .subsAdd c f := hlog
      obtain hend | hi := hx.outbound_ends hr h
      · simp [SubscribesBefore, hx.code, hacc, hend] at hg
      · cases hi

/-- If no subscription is recorded once the `outboundLoop` is over, no slot and no
wildcard refers to a connection whose loops are over. -/
theorem no_subscription_left {acts : List BrokerAction}
    (hrun : Transition.run (step env) (init env) acts = some s)
    (hg : Transition.Guarded (step env) (SubscribesBefore c · ·) (init env) acts)
    (hover : s.Over c) :
    (∀ topic, some c ∉ s.subs.slots topic) ∧ ∀ w ∈ s.subs.wildcards, w.c ≠ c := by
  have hr : Reachable env s := ⟨acts, hrun⟩
  have hnone := Transition.run_invariant (I := fun s => c < s.nconns → s.code (.outbound c) = [] →
    ∀ f, (f, c) ∉ liveAdds s.calls) ?_ (fun h => absurd h (Nat.not_lt_zero c)) hrun hg
  · have hrefers : ¬ s.subs.Refers c := by
      rw [hr.refines.refers_iff]
      rintro ⟨f, hf⟩
      exact hnone hover.1 hover.2.2 f hf
    exact ⟨fun topic h => hrefers (.inl ⟨topic, h⟩), fun w hw hc => hrefers (.inr ⟨w, hw, hc⟩)⟩
  · intro s a s' hr hI hg hstep hlt h
    obtain ⟨-, ⟨-, rfl⟩ | ⟨-, rfl⟩ | ⟨t, ch, i, rest, nx, rfl, hx⟩⟩ := step_cases hstep
    · obtain hlt | rfl := Nat.lt_succ_iff_lt_or_eq.1 hlt
      · rw [State.calls_accept]
        exact hI hlt (by simpa [State.accept, State.log, State.setCode, Nat.ne_of_lt hlt] using h)
      · simp [State.accept, State.log, State.setCode] at h
    · exact hI hlt h
    · exact hx.not_live hr hg (hI (hx.nconns ▸ hlt)) h

/-- A client connects and has its SUBSCRIBE read, of whose handler `n` instructions are
executed. -/
def cleanupRun (n : Nat) : List BrokerAction :=
  .accept :: sends 0 (.connect (.named (str "a"))) 9 ++
    sends 0 (.subscribe ⟨1, [(str "t", .atMostOnce)]⟩) n

/-- The `inboundLoop` of connection 0 finds that the client is gone. -/
def inboundEnds : List BrokerAction :=
  .run (.inbound 0) .recvErr :: List.replicate 7 (.run (.inbound 0) .go)

/-- The `outboundLoop` of connection 0 sends what is queued and finds its queue closed. -/
def outboundEnds (jobs : Nat) : List BrokerAction :=
  (List.replicate jobs (sendsNext 0)).flatten ++
    .run (.outbound 0) .job :: List.replicate 4 (.run (.outbound 0) .go)

theorem no_subscription_left_inboundEnds :
    ∃ s, Transition.run (step openEnv) (init openEnv)
        (cleanupRun 7 ++ inboundEnds ++ outboundEnds 2) = some s ∧
      .index (.add (str "t") 0) ∈ s.trace ∧ s.Over 0 ∧
      (∀ topic, some 0 ∉ s.subs.slots topic) ∧ ∀ w ∈ s.subs.wildcards, w.c ≠ 0 := by
  have heval : (Transition.run (step openEnv) (init openEnv)
      (cleanupRun 7 ++ inboundEnds ++ outboundEnds 2)).map (fun s => decide (
        .index (.add (str "t") 0) ∈ s.trace ∧ s.Over 0)) = some true := by decide +kernel
  obtain ⟨s, hrun, hs⟩ := Option.map_eq_some_iff.1 heval
  obtain ⟨hadd, hover⟩ := of_decide_eq_true hs
  exact ⟨s, hrun, hadd, hover, no_subscription_left hrun (by decide +kernel) hover⟩

/-- The acknowledgement of the CONNECT cannot be written while the SUBSCRIBE is being
handled: `outboundLoop` cancels the subscriptions before this one is recorded. -/
theorem subscription_left :
    (Transition.run (step openEnv) (init openEnv)
      (cleanupRun 2 ++ [.run (.outbound 0) .job, .run (.outbound 0) .go,
        .run (.outbound 0) (.encode false)] ++ List.replicate 5 (.run (.outbound 0) .go) ++
        List.replicate 5 (.run (.inbound 0) .go) ++ inboundEnds)).map (fun s =>
      decide (s.panicked = none ∧ s.Over 0 ∧ s.subs.slots (str "t") = [some 0])) = some true := by
  decide +kernel

/-! ## The registry -/

/-- The `outboundLoop` of `c` has yet to delete the connection from the registry. -/
def State.delDue (s : State) (c : ConnId) : Bool :=
  s.code (.outbound c) |>.any fun i => i = .outboundLoop c ∨ i = .del c

theorem Executes.delDue (hr : Reachable env s) (hx : Executes env s t ch i rest nx s')
    (h : s.delDue c = true) : s'.delDue c = true ∨ i = .del c := by
  by_cases ht : .outbound c = t
  · subst ht
    have hsends := hx.sends hr
    have hcode := hx.code
    cases hsends with
    | encode retain ok _ => exact .inl (by cases ok <;> simp [State.delDue, State.setCode])
    | deferred hcode' hsuf _ =>
      obtain ⟨rfl, rfl⟩ := List.cons.inj (hcode.symm.trans hcode')
      have hne : ∀ j ∈ i :: rest, j ≠ .outboundLoop c := by
        rintro j hj rfl
        simpa [outboundDefer] using hsuf.subset hj
      simp only [State.delDue, hcode, List.any_cons, Bool.or_eq_true, decide_eq_true_eq] at h
      obtain (rfl | rfl) | h := h
      · exact absurd rfl (hne _ (List.mem_cons_self ..))
      · exact .inr rfl
      · exact .inl (by simpa [State.delDue, State.setCode] using h)
    | _ => exact .inl (by simp [State.delDue, State.setCode, outboundDefer])
  · refine .inl ?_
    have htouch := hx.touch ht
    simp only [State.delDue] at h ⊢
    generalize s.code (.outbound c) = l, s'.code (.outbound c) = l' at htouch h
    cases htouch with
    | same => exact h
    | job _ => simp [handleJob]

/-- The step registers no connection whose `outboundLoop` has deleted it, and gives no
other client id to a connection that is registered. -/
def RegistersBefore (s : State) : BrokerAction → Bool
  | .run t _ =>
    match s.code t with
    | .addOrTakeOver c :: _ | .add c :: _ =>
      (s.conns c).flag.all fun f => s.clients f.clientId = none → s.delDue c
    | .connectValidate c m :: _ =>
      (s.conns c).flag.all fun f => s.clients f.clientId = some c → m.clientId = f.clientId
    | _ => true
  | _ => true

/-- Who is registered, is so under its client id, and is going to be deleted. -/
def State.InTime (s : State) (c : ConnId) : Prop :=
  ∀ id, s.clients id = some c →
    (∃ f, (s.conns c).flag = some f ∧ f.clientId = id) ∧ s.delDue c = true

theorem State.InTime.executes (hr : Reachable env s) (h : s.InTime c)
    (hg : RegistersBefore s (.run t ch) = true) (hx : Executes env s t ch i rest nx s') :
    s'.InTime c := by
  intro id hid
  -- an entry that was there before
  have hold : s.clients id = some c →
      (∃ f, (s'.conns c).flag = some f ∧ f.clientId = id) ∧ s'.delDue c = true := by
    intro hreg
    obtain ⟨⟨f, hflag, rfl⟩, hdue⟩ := h id hreg
    constructor
    · obtain heq | ⟨m, rfl, hm⟩ := (hx.conn c).flag
      · exact ⟨f, heq.trans hflag, rfl⟩
      · exact ⟨m, hm, by simpa [RegistersBefore, hx.code, hflag, hreg] using hg⟩
    · obtain hdue | rfl := hx.delDue hr hdue
      · exact hdue
      · -- the entry is deleted in this step
        obtain ⟨-, s₁, hexec, rfl⟩ := hx
        cases hexec
        simp [State.del, State.setCode, hflag] at hid
  obtain heq | ⟨c', f, hi, hflag, hfree, heq⟩ | ⟨c', f, -, -, heq⟩ := hx.effects.clients <;>
    rw [heq] at hid
  · exact hold hid
  · by_cases hf : id = f.clientId
    · subst hf
      obtain rfl : c' = c := by simpa using hid
      have hdue : s.delDue c' = true := by
        obtain rfl | rfl := hi <;> simpa [RegistersBefore, hx.code, hflag, hfree] using hg
      refine ⟨⟨f, ?_, rfl⟩, ?_⟩
      · obtain heq | ⟨m, rfl, -⟩ := (hx.conn c').flag
        · exact heq.trans hflag
        · obtain hi | hi := hi <;> cases hi
      · refine (hx.delDue hr hdue).resolve_right ?_
        rintro rfl
        obtain hi | hi := hi <;> cases hi
    · exact hold (by simpa [hf] using hid)
  · by_cases hf : id = f.clientId
    · simp [hf] at hid
    · exact hold (by simpa [hf] using hid)

/-- If connections are registered before their `outboundLoop` deletes them, and keep
their client id while they are registered, a registered connection has a loop that is
not over. -/
theorem registered_not_over {acts : List BrokerAction}
    (hrun : Transition.run (step env) (init env) acts = some s)
    (hg : Transition.Guarded (step env) (RegistersBefore · ·) (init env) acts)
    {id : GoString} (h : s.clients id = some c) :
    s.code (.inbound c) ≠ [] ∨ s.code (.outbound c) ≠ [] := by
  have hinv := Transition.run_invariant (I := fun s => s.InTime c) ?_ nofun hrun hg
  · refine .inr fun hout => ?_
    have hdue := (hinv id h).2
    simp [State.delDue, hout] at hdue
  · intro s a s' hr hI hg hstep
    obtain ⟨-, ⟨-, rfl⟩ | ⟨-, rfl⟩ | ⟨t, ch, i, rest, nx, rfl, hx⟩⟩ := step_cases hstep
    · intro id hid
      refine ⟨(hI id hid).1, ?_⟩
      have hdue := (hI id hid).2
      obtain hcode | hcode := s.code_accept (.outbound c)
      · simpa [State.delDue, hcode] using hdue
      · simp [State.delDue, hcode, Tid.loop]
    · exact hI
    · exact hI.executes hr hg hx

theorem registered_not_over_inboundEnds :
    ∃ s, Transition.run (step openEnv) (init openEnv)
        (cleanupRun 7 ++ inboundEnds) = some s ∧
      s.clients (str "a") = some 0 ∧ s.code (.inbound 0) = [] ∧
      (s.code (.inbound 0) ≠ [] ∨ s.code (.outbound 0) ≠ []) := by
  have heval : (Transition.run (step openEnv) (init openEnv)
      (cleanupRun 7 ++ inboundEnds)).map (fun s => decide (
        s.clients (str "a") = some 0 ∧ s.code (.inbound 0) = [])) = some true := by decide +kernel
  obtain ⟨s, hrun, hs⟩ := Option.map_eq_some_iff.1 heval
  obtain ⟨hreg, hin⟩ := of_decide_eq_true hs
  exact ⟨s, hrun, hreg, hin, registered_not_over hrun (by decide +kernel) hreg⟩

/-- The client connects a second time, under another id. The entry of the first one is
left when the connection is gone. -/
theorem entry_left :
    (Transition.run (step openEnv) (init openEnv)
      (.accept :: sends 0 (.connect (.named (str "a"))) 9 ++
        sends 0 (.connect (.named (str "b"))) 9 ++ inboundEnds ++ outboundEnds 2)).map (fun s =>
      decide (s.panicked = none ∧ s.Over 0 ∧ s.clients (str "a") = some 0)) = some true := by
  decide +kernel
