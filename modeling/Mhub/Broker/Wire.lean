-- SUMMARY: What a client is sent, in order: the messages queued for it, none twice and none out of turn, as far as its `outboundLoop` got.
import Mhub.Broker.ConnAck
import Mhub.Broker.Connect

/-!
# On the wire

Whoever sends a client something puts it into the jobs queue of its connection, and one
goroutine takes it out of there. So what was encoded for a connection, what its
`outboundLoop` has in its hands and what is left in the queue are, one behind the other,
what was ever queued for it: nothing is sent twice, and nothing overtakes.

Of the messages that were encoded only the last one can have failed, and only the last
one can be a DISCONNECT. After either of them the loop is left, and it is not entered
again.
-/

variable {env : Env} {s s' : State} {t : Tid} {ch : Choice} {i : Instr} {rest : List Instr}
  {nx : Next} {c : ConnId}

/-! ## What is on its way to a client -/

def Event.encodedFor (c : ConnId) : Event → Option (Message × Bool)
  | .encoded c' m _ ok => if c' = c then some (m, ok) else none
  | _ => none

/-- What the `outboundLoop` of `c` has encoded so far, and whether it could be written. -/
def State.encodedFor (s : State) (c : ConnId) : List (Message × Bool) :=
  s.trace.filterMap (·.encodedFor c)

/-- The message that `outboundLoop` has taken from the queue and not encoded yet. -/
def inHand : List Instr → List Message
  | .persistOutbound _ m :: _ => [m]
  | .encode _ j :: _ => [j.m]
  | _ => []

/-- The message was written, and is none after which `outboundLoop` returns. -/
def GoesOn (x : Message × Bool) : Prop := x.2 = true ∧ x.1 ≠ .disconnect

/-- With this code, `outboundLoop` does not take another job. -/
def Quits (c : ConnId) (l : List Instr) : Prop :=
  .outboundReturn c ∈ l ∨ .sent c .disconnect ∈ l ∨ .outboundLoop c ∉ l

/-- What was queued for `c` was encoded, is in the hands of its `outboundLoop`, or is in
the queue, in this order. Once a message could not be written, or was a DISCONNECT, the
loop does not go on. -/
structure State.Wired (s : State) (c : ConnId) : Prop where
  order : s.queuedFor c = (s.encodedFor c).map Prod.fst ++ inHand (s.code (.outbound c)) ++
    (s.conns c).jobs.map Job.m
  goesOn : ∀ x ∈ (s.encodedFor c).dropLast, GoesOn x
  quits : (∀ x ∈ s.encodedFor c, GoesOn x) ∨ Quits c (s.code (.outbound c))

/-! ## Steps -/

@[simp] theorem inHand_persistOutbound {m : Message} :
    inHand (.persistOutbound c m :: rest) = [m] := rfl

@[simp] theorem inHand_encode {j : Job} : inHand (.encode c j :: rest) = [j.m] := rfl

@[simp] theorem inHand_outboundLoop : inHand (.outboundLoop c :: rest) = [] := rfl

@[simp] theorem inHand_closeReceipt {r : Nat} : inHand (.closeReceipt r :: rest) = [] := rfl

theorem inHand_outboundDefer {l : List Instr} (h : l <:+ outboundDefer c) :
    inHand l = [] := by
  cases l with
  | nil => rfl
  | cons i l =>
    have hi : i ∈ outboundDefer c := h.subset (List.mem_cons_self ..)
    simp only [outboundDefer, List.mem_cons, List.not_mem_nil, or_false] at hi
    obtain rfl | rfl | rfl | rfl := hi <;> rfl

theorem inHand_encoded {j : Job} {ok : Bool} : inHand (encoded c j ok ++ rest) = [] := by
  obtain ⟨m, r⟩ := j
  cases r <;> cases ok <;> rfl

theorem inHand_ends (hi : i.ends c = true) : inHand (i :: rest) = [] := by
  cases i <;> first | rfl | cases hi

theorem State.encodedFor_append {e : Event} (htr : s'.trace = s.trace ++ [e]) :
    s'.encodedFor c = s.encodedFor c ++ (e.encodedFor c).toList := by
  cases h : e.encodedFor c <;> simp [State.encodedFor, htr, h]

/-- Only the `outboundLoop` of a connection encodes messages for it. -/
theorem Executes.encodedFor (hr : Reachable env s) (hx : Executes env s t ch i rest nx s')
    (ht : t ≠ .outbound c) : s'.encodedFor c = s.encodedFor c := by
  refine hx.filterMap_trace fun e hlog => ?_
  cases e with
  | encoded c' m retain ok =>
    obtain ⟨j, rfl, -⟩ := hlog
    have hne : c' ≠ c := by
      rintro rfl
      exact ht (hx.home hr rfl)
    simp [Event.encodedFor, hne]
  | _ => rfl

/-- What a step of another goroutine is to the queue of `c` and its `outboundLoop`. -/
inductive Gets (c : ConnId) (s s' : State) : Prop where
  | nothing : s'.queuedFor c = s.queuedFor c → (s'.conns c).jobs = (s.conns c).jobs →
    s'.code (.outbound c) = s.code (.outbound c) → Gets c s s'
  | queued (j : Job) : s'.queuedFor c = s.queuedFor c ++ [j.m] →
    (s'.conns c).jobs = (s.conns c).jobs ++ [j] →
    s'.code (.outbound c) = s.code (.outbound c) → Gets c s s'
  -- the channel has no buffer
  | handed (j : Job) (rest : List Instr) : s'.queuedFor c = s.queuedFor c ++ [j.m] →
    (s.conns c).jobs = [] → (s'.conns c).jobs = [] →
    s.code (.outbound c) = .outboundLoop c :: rest →
    s'.code (.outbound c) = handleJob c j ++ [.outboundLoop c] ++ rest → Gets c s s'

theorem Gets.enqueue {j : Job} (hr : Reachable env s) (h : s.enqueue env.cf t c j = some s') :
    Gets c s s' := by
  obtain ⟨-, rfl⟩ | ⟨hlen, rest, hcode, rfl⟩ := State.enqueue_eq_some h
  · refine .queued j ?_ ?_ rfl
    · simp [State.queuedFor, State.log, State.modConn, Event.queuedFor]
    · simp [State.log, State.modConn]
  · have hjobs : (s.conns c).jobs = [] := by simpa [hlen] using hr.jobs_le c
    refine .handed j rest ?_ hjobs hjobs hcode ?_
    · simp [State.queuedFor, State.log, State.setCode, Event.queuedFor]
    · simp [State.log, State.setCode]

theorem Gets.setCode {l : List Instr} (h : Gets c s s') (ht : t ≠ .outbound c) :
    Gets c s (s'.setCode t l) := by
  have hcode : (s'.setCode t l).code (.outbound c) = s'.code (.outbound c) := by
    simp [State.setCode, ht.symm]
  cases h with
  | nothing hq hj hc => exact .nothing hq hj (hcode.trans hc)
  | queued j hq hj hc => exact .queued j hq hj (hcode.trans hc)
  | handed j rest hq hj hj' hc hc' => exact .handed j rest hq hj hj' hc (hcode.trans hc')

theorem Executes.gets (hr : Reachable env s) (hx : Executes env s t ch i rest nx s')
    (ht : t ≠ .outbound c) : Gets c s s' := by
  by_cases hi : ∃ j, i = .send c j ∨ i = .trySend c j
  · obtain ⟨j, hi⟩ := hi
    obtain ⟨-, s₁, hexec, rfl⟩ := hx
    refine Gets.setCode ?_ ht
    obtain rfl | rfl := hi
    all_goals
      simp only [exec] at hexec
      split at hexec
      · cases hexec
        exact .nothing rfl rfl rfl
      · split at hexec <;> cases hexec
        all_goals
          first
          | exact .enqueue hr ‹_›
          | exact .nothing rfl rfl rfl
  · have hno : ∀ j, ¬ (i = .send c j ∨ i = .trySend c j) := fun j hj => hi ⟨j, hj⟩
    refine .nothing ?_ ?_ ?_
    · obtain hq | ⟨j, hj, -⟩ := hx.queuedFor (c := c)
      · exact hq
      · exact absurd hj (hno j)
    · obtain hj | ⟨j, hj, -⟩ | ⟨rfl, -⟩ := (hx.conn c).jobs
      · exact hj
      · exact absurd hj (hno j)
      · exact absurd (hx.home hr rfl) ht
    · have htouch := hx.touch ht.symm
      generalize s.code (.outbound c) = l, s'.code (.outbound c) = l' at htouch
      cases htouch with
      | same => rfl
      | job hj => exact absurd hj (hno _)

/-- A step that only moves `outboundLoop` along its code, with the same message in hand. -/
theorem State.Wired.moves (h : s.Wired c) (hq : s'.queuedFor c = s.queuedFor c)
    (henc : s'.encodedFor c = s.encodedFor c) (hj : (s'.conns c).jobs = (s.conns c).jobs)
    (hhand : inHand (s'.code (.outbound c)) = inHand (s.code (.outbound c)))
    (hquits : Quits c (s.code (.outbound c)) → Quits c (s'.code (.outbound c))) : s'.Wired c := by
  obtain ⟨horder, hgoes, hor⟩ := h
  refine ⟨?_, ?_, ?_⟩
  · rw [hq, henc, hj, hhand, horder]
  · rwa [henc]
  · rw [henc]
    exact hor.imp_right hquits

/-- Others only add to the queue. -/
theorem State.Wired.gets (h : s.Wired c) (hget : Gets c s s')
    (henc : s'.encodedFor c = s.encodedFor c) : s'.Wired c := by
  obtain ⟨horder, hgoes, hquits⟩ := h
  cases hget with
  | nothing hq hj hc =>
    exact State.Wired.moves ⟨horder, hgoes, hquits⟩ hq henc hj (by rw [hc]) (by rw [hc]; exact id)
  | queued j hq hj hc =>
    exact ⟨by rw [hq, hj, hc, henc, horder]; simp, by rwa [henc], by rwa [hc, henc]⟩
  | handed j rest hq hj hj' hc hc' =>
    rw [hc] at horder hquits
    refine ⟨?_, by rwa [henc], ?_⟩
    · rw [hq, hc', henc, horder, hj, hj']
      simp [handleJob]
    · rw [hc', henc]
      refine hquits.imp_right fun hq => ?_
      simpa [Quits, handleJob] using hq

theorem Executes.sent_next (hx : Executes env s t ch i rest nx s') (hi : i.ends c = true)
    (hstay : .outboundLoop c ∈ s'.code t) : ∃ m, i = .sent c m ∧ m ≠ .disconnect := by
  rw [hx.code_self] at hstay
  obtain ⟨-, s₁, hexec, -⟩ := hx
  cases i with
  | sent c' m =>
    obtain rfl : c' = c := by simpa [Instr.ends] using hi
    refine ⟨m, rfl, ?_⟩
    rintro rfl
    simp only [exec] at hexec
    cases hexec
    simp [Next.apply, outboundDefer] at hstay
  | outboundReturn c' =>
    simp only [exec] at hexec
    cases hexec
    simp [Next.apply, outboundDefer] at hstay
  | _ => cases hi

theorem Leaves.wire (h : Leaves env s c s') :
    s'.queuedFor c = s.queuedFor c ∧ s'.encodedFor c = s.encodedFor c ∧
      (s'.conns c).jobs = (s.conns c).jobs := by
  cases h <;> simp [State.queuedFor, State.encodedFor, State.panicWith, State.modConn, State.del,
    State.callIndex, State.log, Event.queuedFor, Event.encodedFor]

theorem State.callStore_wire (s : State) (call : Option StoreCall) :
    (s.callStore c call).trace = s.trace ∧ (s.callStore c call).conns = s.conns := by
  unfold State.callStore
  repeat' split
  all_goals exact ⟨rfl, rfl⟩

theorem quits_of_suffix {l : List Instr} (h : l <:+ outboundDefer c) : Quits c l :=
  .inr (.inr fun hmem => absurd (h.subset hmem) (by simp [outboundDefer]))

/-- `outboundLoop` takes the first job of the queue, and encodes it before it takes the
next. -/
theorem State.Wired.sends (h : s.Wired c) (hr : Reachable env s)
    (hx : Executes env s (.outbound c) ch i rest nx s') : s'.Wired c := by
  obtain ⟨horder, hgoes, hquits⟩ := h
  have hsends := hx.sends hr
  cases hsends with
  | @take j js hcode hjobs =>
    rw [hcode, hjobs] at horder
    have hall := hquits.resolve_right (by simp [hcode, Quits])
    refine ⟨?_, hgoes, .inl hall⟩
    simpa [State.queuedFor, State.encodedFor, State.setCode, State.modConn] using horder
  | @persist j hcode =>
    obtain ⟨htr, hconns⟩ := s.callStore_wire (c := c) (persistOutbound j.m)
    refine State.Wired.moves ⟨horder, hgoes, hquits⟩ ?_ ?_ ?_ ?_ ?_
    · simp [State.queuedFor, State.setCode, htr]
    · simp [State.encodedFor, State.setCode, htr]
    · simp [State.setCode, hconns]
    · simp [State.setCode, hcode]
    · simp [State.setCode, hcode, Quits]
  | @encode j retain ok hcode =>
    have hall := hquits.resolve_right (by simp [hcode, Quits])
    have henc : (State.setCode (s.log (.encoded c j.m retain ok)) (.outbound c)
        (encoded c j ok ++ [Instr.outboundLoop c])).encodedFor c =
        s.encodedFor c ++ [(j.m, ok)] := by
      simp [State.encodedFor, State.log, State.setCode, Event.encodedFor]
    rw [hcode] at horder
    refine ⟨?_, ?_, ?_⟩
    · have hhand : inHand (encoded c j ok ++ [Instr.outboundLoop c]) = [] := inHand_encoded
      rw [henc]
      simpa [State.queuedFor, State.log, State.setCode, Event.queuedFor, hhand] using horder
    · rw [henc]
      simpa using hall
    · rw [henc]
      by_cases hgo : GoesOn (j.m, ok)
      · refine .inl fun x hx => ?_
        obtain hx | hx := List.mem_append.1 hx
        · exact hall x hx
        · rwa [List.mem_singleton.1 hx]
      · -- a message that failed, or a DISCONNECT
        refine .inr ?_
        cases ok with
        | false => exact .inl (by simp [State.setCode, encoded])
        | true =>
          have hm : j.m = .disconnect := by simpa [GoesOn] using hgo
          exact .inr (.inl (by simp [State.setCode, encoded, hm]))
  | receipt hi hcode =>
    refine State.Wired.moves ⟨horder, hgoes, hquits⟩ rfl rfl rfl ?_ ?_
    · simp [State.setCode, hcode, inHand_ends hi]
    · simp [State.setCode, hcode, Quits]
  | next hi hcode =>
    obtain ⟨rfl, rfl⟩ := List.cons.inj (hx.code.symm.trans hcode)
    obtain ⟨m, rfl, hm⟩ := hx.sent_next hi (by simp [State.setCode])
    refine State.Wired.moves ⟨horder, hgoes, hquits⟩ rfl rfl rfl ?_ ?_
    · simp [State.setCode, hcode, inHand_ends hi]
    · simp [State.setCode, hcode, Quits, hm.symm]
  | leave hcode hi =>
    refine State.Wired.moves ⟨horder, hgoes, hquits⟩ rfl rfl rfl ?_ ?_
    · have hhand : inHand (s.code (.outbound c)) = [] := by
        rw [hcode]
        obtain rfl | hi := hi
        · rfl
        · exact inHand_ends hi
      rw [hhand]
      exact inHand_outboundDefer (c := c) (by simp [State.setCode])
    · exact fun _ => quits_of_suffix (by simp [State.setCode])
  | @deferred i rest s₁ hcode hsuf hleaves =>
    obtain ⟨hq, henc, hj⟩ := hleaves.wire
    have hrest : (s₁.setCode (.outbound c) rest).code (.outbound c) <:+ outboundDefer c := by
      simpa [State.setCode] using (List.suffix_cons i rest).trans hsuf
    refine State.Wired.moves ⟨horder, hgoes, hquits⟩ hq henc hj ?_ ?_
    · rw [hcode, inHand_outboundDefer hsuf, inHand_outboundDefer hrest]
    · exact fun _ => quits_of_suffix hrest

/-! ## Runs -/

theorem Reachable.lt_of_encoded {m : Message} {retain ok : Bool} (hr : Reachable env s)
    (h : .encoded c m retain ok ∈ s.trace) : c < s.nconns := by
  refine hr.of_logged (P := fun s => c < s.nconns) h (by simp) ?_ ?_
  · rintro s t ch i rest nx s' hr hx ⟨j, rfl, -⟩
    obtain rfl := hx.home hr rfl
    have hlt : (Tid.outbound c).Started env s := hr.started (by simp [hx.code])
    rw [hx.nconns]
    exact hlt
  · intro s a s' _ _ hlt hstep
    obtain ⟨-, ⟨-, rfl⟩ | ⟨-, rfl⟩ | ⟨t, ch, i, rest, nx, -, hx⟩⟩ := step_cases hstep
    · exact Nat.lt_succ_of_lt hlt
    · exact hlt
    · rwa [hx.nconns]

/-- A connection is accepted with nothing encoded. -/
theorem State.Wired.accept (h : s.Wired c) (hr : Reachable env s) : s.accept.Wired c := by
  have henc : s.accept.encodedFor c = s.encodedFor c := by
    simp [State.encodedFor, State.accept, State.log, State.setCode, Event.encodedFor]
  by_cases hc : c = s.nconns
  · have hold : s.code (.outbound c) = [] := by
      by_contra hne
      exact absurd (hr.started hne) (by simp [Tid.Started, hc])
    have hnone : s.encodedFor c = [] := by
      refine List.filterMap_eq_nil_iff.2 fun e he => ?_
      cases e with
      | encoded c' m retain ok =>
        have hne : c' ≠ c := (hc ▸ hr.lt_of_encoded he).ne
        simp [Event.encodedFor, hne]
      | _ => rfl
    have hnew : s.accept.code (.outbound c) = [.outboundLoop c] := by
      simp [State.accept, State.log, State.setCode, hc]
    refine ⟨?_, by simp [henc, hnone], .inl (by simp [henc, hnone])⟩
    rw [State.queuedFor_accept, h.order, henc, hold, hnew]
    rfl
  · have hcode : s.accept.code (.outbound c) = s.code (.outbound c) := by
      simp [State.accept, State.log, State.setCode, hc]
    exact h.moves State.queuedFor_accept henc rfl (by rw [hcode]) (by rw [hcode]; exact id)

theorem Reachable.wired (hr : Reachable env s) (c : ConnId) : s.Wired c := by
  refine hr.invariant (I := fun s => s.Wired c) ?_ ?_
  · intro s a s' hr hI hstep
    obtain ⟨-, ⟨-, rfl⟩ | ⟨-, rfl⟩ | ⟨t, ch, i, rest, nx, -, hx⟩⟩ := step_cases hstep
    · exact hI.accept hr
    · exact ⟨hI.order, hI.goesOn, hI.quits⟩
    · by_cases ht : t = .outbound c
      · subst ht
        exact hI.sends hr hx
      · exact hI.gets (hx.gets hr ht) (hx.encodedFor hr ht)
  · exact ⟨rfl, by simp [State.encodedFor, init], .inl (by simp [State.encodedFor, init])⟩

/-- What a client was sent is what was queued for it, in the order in which it was queued
and none of it twice; the rest is in the hands of its `outboundLoop` or in the queue. Only
the last message that was encoded can have failed, and only it can be a DISCONNECT. -/
theorem wire_order (hr : Reachable env s) (c : ConnId) :
    s.queuedFor c = (s.encodedFor c).map Prod.fst ++ inHand (s.code (.outbound c)) ++
      (s.conns c).jobs.map Job.m ∧
    ∀ x ∈ (s.encodedFor c).dropLast, x.2 = true ∧ x.1 ≠ .disconnect :=
  ⟨(hr.wired c).order, (hr.wired c).goesOn⟩

/-- The CONNACK was sent, and the answer to the ping is still in the queue. -/
theorem wire_order_greets :
    ∃ s, Transition.run (step openEnv) (init openEnv) (greets ++ sendsNext 0) = some s ∧
      s.encodedFor 0 = [(.connAck .accepted, true)] ∧
      s.queuedFor 0 = (s.encodedFor 0).map Prod.fst ++ inHand (s.code (.outbound 0)) ++
        (s.conns 0).jobs.map Job.m ∧ (s.conns 0).jobs.map Job.m = [.pingResp] := by
  have heval : (Transition.run (step openEnv) (init openEnv) (greets ++ sendsNext 0)).map
      (fun s => (s.encodedFor 0, (s.conns 0).jobs.map Job.m)) =
      some ([(.connAck .accepted, true)], [.pingResp]) := by decide +kernel
  obtain ⟨s, hrun, hs⟩ := Option.map_eq_some_iff.1 heval
  obtain ⟨henc, hjobs⟩ := Prod.mk.inj hs
  exact ⟨s, hrun, henc, (wire_order ⟨_, hrun⟩ 0).1, hjobs⟩
