-- SUMMARY: One call of `doConnect`: a rejected CONNECT registers, takes over, resets and checks in as an accepted one does, and when nobody can tell.
import Mhub.Broker.Stores

/-!
# Connect

The checks of `doConnect` only set the return code. Whatever they find, the call goes
on to the registry, the store and the presence record. Its effect on everybody else is
computed here for a call that nobody interferes with: only the caller moves and, while
the caller waits for the connection it takes over, that one's `outboundLoop`.

`Phase` is where such a call can be and what it has done so far. The effect of the
whole call is read off the last phase.
-/

variable {env : Env} {s s' s₀ : State} {t : Tid} {ch : Choice} {i : Instr} {rest : List Instr}
  {nx : Next} {c e : ConnId} {m : Connect} {rc : ReturnCode} {r : Nat}

namespace State

/-- The state once the `outboundLoop` of `e` has made the store call it is about to
make, if it is. -/
def handed (s : State) (e : ConnId) : State :=
  match s.code (.outbound e) with
  | .persistOutbound _ m :: _ => s.callStore e (persistOutbound m)
  | _ => s

/-- The call of `doConnect` on `c` waits for `e`, to queue the Disconnect or for its
receipt. -/
def waitsFor (s : State) (c e : ConnId) : Bool :=
  match s.code (.inbound c) with
  | .send e' ⟨_, some _⟩ :: _ => e' = e
  | .wait _ :: .del e' :: _ => e' = e
  | _ => false

/-- The call of `doConnect` on `c` is about to return. -/
def returning (s : State) (c : ConnId) : Bool :=
  match s.code (.inbound c) with
  | .connectReturn .. :: _ => true
  | _ => false

/-- What others see of a CONNECT `m` on `c` is the same in both states. -/
structure Unnoticed (s s' : State) (c : ConnId) (m : Connect) : Prop where
  clients : s'.clients = s.clients
  jobs : ∀ d, d ≠ c → (s'.conns d).jobs = (s.conns d).jobs
  contents : s'.contents m.clientId = s.contents m.clientId
  presence : s'.presence m.username = s.presence m.username

/-- The client id is held by a connection that has since changed its own id to one
that nobody holds, and there is nothing to drop from its queue, from the store or in
the presence record. -/
def HeldInName (s : State) (cf : BrokerConfig) (m : Connect) : Prop :=
  ∃ e, s.clients m.clientId = some e ∧
    (∀ f, (s.conns e).flag = some f → s.clients f.clientId = none) ∧
    (s.conns e).jobs = [] ∧
    (if m.cleanSession then s.contents m.clientId = fun _ => none
      else (s.handed e).contents m.clientId = s.contents m.clientId) ∧
    (cf.enablePresence = true → m.username ≠ [] → s.presence m.username = true)

end State

/-- Only the call of `doConnect` on `c` moves, until it returns, and the `outboundLoop`
it waits for. -/
def Alone (c : ConnId) (s : State) : BrokerAction → Bool
  | .run (.inbound c') _ => c' = c && !s.returning c
  | .run (.outbound e) _ => s.waitsFor c e
  | _ => false

/-! ## What is known of every state -/

/-- Who is registered has sent a CONNECT. -/
theorem Reachable.flag_of_clients {id : GoString} (hr : Reachable env s)
    (h : s.clients id = some c) : (s.conns c).flag ≠ none := by
  refine hr.invariant (I := fun s => s.clients id = some c → (s.conns c).flag ≠ none) ?_
    (by simp [init]) h
  intro s a s' _ hI hstep h
  obtain ⟨-, ⟨-, rfl⟩ | ⟨-, rfl⟩ | ⟨t, ch, i, rest, nx, -, hx⟩⟩ := step_cases hstep
  · exact hI h
  · exact hI h
  · have hkeep : (s.conns c).flag ≠ none → (s'.conns c).flag ≠ none := by
      obtain heq | ⟨m, -, heq⟩ := (hx.conn c).flag <;> simp [heq]
    obtain heq | ⟨c', f, -, hflag, -, heq⟩ | ⟨c', f, -, -, heq⟩ := hx.effects.clients <;>
      rw [heq] at h
    · exact hkeep (hI h)
    · rw [Function.update_apply] at h
      split at h
      · cases h
        exact hkeep (by simp [hflag])
      · exact hkeep (hI h)
    · rw [Function.update_apply] at h
      split at h
      · cases h
      · exact hkeep (hI h)

theorem Executes.jobs_le (hx : Executes env s t ch i rest nx s')
    (h : (s.conns c).jobs.length ≤ env.cf.clientOutboundQueueLen) :
    (s'.conns c).jobs.length ≤ env.cf.clientOutboundQueueLen := by
  obtain heq | ⟨j, hi, heq⟩ | ⟨-, j, heq⟩ := (hx.conn c).jobs
  · rwa [heq]
  · obtain ⟨-, s₁, hexec, rfl⟩ := hx
    have hroom : (s₁.conns c).jobs = (s.conns c).jobs ∨
        (s.conns c).jobs.length < env.cf.clientOutboundQueueLen := by
      obtain rfl | rfl := hi <;> simp only [exec] at hexec <;> repeat' split at hexec
      all_goals cases hexec
      all_goals first
        | exact .inl rfl
        | obtain ⟨hlt, -⟩ | ⟨-, _, -, rfl⟩ := State.enqueue_eq_some ‹_›
          · exact .inr hlt
          · exact .inl rfl
    obtain hroom | hroom := hroom
    · exact (congrArg List.length hroom).trans_le h
    · rw [heq, List.length_append, List.length_singleton]
      exact hroom
  · have hlen := congrArg List.length heq
    simp only [List.length_cons] at hlen
    omega

/-- A queue holds no more than its channel does. -/
theorem Reachable.jobs_le (hr : Reachable env s) (c : ConnId) :
    (s.conns c).jobs.length ≤ env.cf.clientOutboundQueueLen := by
  refine hr.invariant
    (I := fun s => (s.conns c).jobs.length ≤ env.cf.clientOutboundQueueLen) ?_ (Nat.zero_le _)
  intro s a s' _ hI hstep
  obtain ⟨-, ⟨-, rfl⟩ | ⟨-, rfl⟩ | ⟨t, ch, i, rest, nx, -, hx⟩⟩ := step_cases hstep
  · exact hI
  · exact hI
  · exact hx.jobs_le hI

/-! ## The effect of a call -/

/-- `doConnect` between `getClientStore` and its return. -/
def connectEnd (cf : BrokerConfig) (c : ConnId) (m : Connect) (rc : ReturnCode) : List Instr :=
  (if !m.cleanSession then [.storeAll c] else [.storeReset c]) ++
  (if cf.enablePresence && !m.username.isEmpty then [.checkIn m.username] else []) ++
  [.submit c (.connAck rc)]

/-- The rest of a call once `c` is registered. -/
def ConnectTail (cf : BrokerConfig) (c : ConnId) (m : Connect) (rc : ReturnCode)
    (rest k : List Instr) : Prop :=
  ∃ hb, (hb = [] ∨ hb = [.startHeartbeat c]) ∧
    k = hb ++ .getClientStore c m.clientId :: (connectEnd cf c m rc ++ .connectReturn c rc :: rest)

theorem connectBody_eq {cf : BrokerConfig} : ∃ k, ConnectTail cf c m rc rest k ∧
    connectBody cf c m rc ++ rest = .addOrTakeOver c :: .add c :: k := by
  refine ⟨_, ⟨if m.keepAliveTimer > 0 then [.startHeartbeat c] else [], ?_, rfl⟩, ?_⟩
  · split <;> simp
  · simp [connectBody, connectEnd]

namespace State

/-- The registry after a CONNECT `m` on `c`. -/
def takenOver (s : State) (c : ConnId) (m : Connect) : GoString → Option ConnId :=
  match s.clients m.clientId with
  | none => (s.add c m).clients
  | some e => ((s.del e).add c m).clients

/-- What the store of the client holds when `doConnect` gets to it. -/
def left (s : State) (id : GoString) : GoString → Option Message :=
  match s.clients id with
  | none => s.contents id
  | some e => (s.handed e).contents id

/-- The call has done nothing yet that anyone else could see. -/
structure Quiet (s₀ s : State) (c : ConnId) (m : Connect) : Prop where
  flag : (s.conns c).flag = some m
  clients : s.clients = s₀.clients
  stores : s.clientStores = s₀.clientStores
  presence : s.presence = s₀.presence
  conns : ∀ d, d ≠ c → s.conns d = s₀.conns d
  code : ∀ d, d ≠ c → s.code (.outbound d) = s₀.code (.outbound d)

/-- While the call waits for `e`: only `e` changes. -/
structure Draining (s₀ s : State) (c e : ConnId) (m : Connect) : Prop where
  flag : (s.conns c).flag = some m
  conns : ∀ d, d ≠ c → d ≠ e → s.conns d = s₀.conns d
  flag_e : (s.conns e).flag = (s₀.conns e).flag
  clients : s.clients = s₀.clients ∨ s.clients = (s₀.del e).clients
  presence : s.presence = s₀.presence
  contents : (s₀.conns e).jobs = [] →
    (s.handed e).contents m.clientId = (s₀.handed e).contents m.clientId

/-- The receipt is neither closed nor on its way. -/
structure Unused (s : State) (e : ConnId) (r : Nat) : Prop where
  code : ∀ i ∈ s.code (.outbound e), i.receipt ≠ some r
  closed : s.receipts r = false

/-- The Disconnect is in the queue of `e`, behind what is left of the old queue. -/
def Queued (s₀ s : State) (e : ConnId) (r : Nat) : Prop :=
  s.Unused e r ∧ ∃ old, old <:+ (s₀.conns e).jobs ∧ (∀ j ∈ old, j.r ≠ some r) ∧
    (s.conns e).jobs = old ++ [⟨.disconnect, some r⟩]

/-- `e` has taken the last job of its queue, and will not touch a store again. -/
def Drained (s : State) (e : ConnId) : Prop :=
  (s.conns e).jobs = [] ∧
    ∀ m, .persistOutbound e m ∈ s.code (.outbound e) → persistOutbound m = none

/-- What others see once the call has done what it does to the registry, with the code
`l` of the call still ahead. -/
structure Leaving (s₀ s : State) (cf : BrokerConfig) (c : ConnId) (m : Connect)
    (l : List Instr) : Prop where
  jobs : ∀ d, d ≠ c →
    (s.conns d).jobs = if s₀.clients m.clientId = some d then [] else (s₀.conns d).jobs
  contents : (∀ e, s₀.clients m.clientId = some e → (s₀.conns e).jobs = []) →
    (if .storeReset c ∈ l then (fun _ => none) else s.contents m.clientId) =
      if m.cleanSession then (fun _ => none) else s₀.left m.clientId
  presence : (s.presence m.username || decide (.checkIn m.username ∈ l)) =
    (s₀.presence m.username || cf.enablePresence && !m.username.isEmpty)

end State

/-- The instructions of a call after `getClientStore`. -/
def Instr.finishes (c : ConnId) : Instr → Bool
  | .storeReset c' | .storeAll c' | .redeliver c' _ | .submit c' _ | .trySend c' _ => c' = c
  | .send c' j => c' = c && j.r.isNone
  | .checkIn _ => true
  | _ => false

/-- Where a call that nobody interferes with can be. -/
inductive Phase (env : Env) (c : ConnId) (m : Connect) (rest : List Instr) (s₀ s : State) :
    Prop where
  | panicked : s.panicked.isSome = true → Phase env c m rest s₀ s
  | begins : s = s₀ → Phase env c m rest s₀ s
  | validated {rc : ReturnCode} : s.code (.inbound c) = .connectLimit c m rc :: rest →
    s₀.Quiet s c m → Phase env c m rest s₀ s
  | checked {rc : ReturnCode} {k : List Instr} : ConnectTail env.cf c m rc rest k →
    s.code (.inbound c) = .addOrTakeOver c :: .add c :: k → s₀.Quiet s c m →
    Phase env c m rest s₀ s
  | asks {rc : ReturnCode} {e : ConnId} {k : List Instr} : ConnectTail env.cf c m rc rest k →
    s₀.clients m.clientId = some e →
    s.code (.inbound c) = .submitSync e .disconnect :: .del e :: .add c :: k →
    s₀.Quiet s c m → Phase env c m rest s₀ s
  | sends {rc : ReturnCode} {e : ConnId} {k : List Instr} {r : Nat} :
    ConnectTail env.cf c m rc rest k → s₀.clients m.clientId = some e →
    s.code (.inbound c) = .send e ⟨.disconnect, some r⟩ :: .wait r :: .del e :: .add c :: k →
    s₀.Draining s c e m → s.Unused e r → (s.conns e).jobs <:+ (s₀.conns e).jobs →
    (∀ j ∈ (s.conns e).jobs, j.r ≠ some r) → Phase env c m rest s₀ s
  | waits {rc : ReturnCode} {e : ConnId} {k : List Instr} {r : Nat} :
    ConnectTail env.cf c m rc rest k → s₀.clients m.clientId = some e →
    s.code (.inbound c) = .wait r :: .del e :: .add c :: k → s₀.Draining s c e m →
    s₀.Queued s e r ∨ s.Drained e → Phase env c m rest s₀ s
  | deletes {rc : ReturnCode} {e : ConnId} {k : List Instr} :
    ConnectTail env.cf c m rc rest k → s₀.clients m.clientId = some e →
    s.code (.inbound c) = .del e :: .add c :: k → s₀.Draining s c e m → s.Drained e →
    Phase env c m rest s₀ s
  | adds {rc : ReturnCode} {k : List Instr} : ConnectTail env.cf c m rc rest k →
    s.code (.inbound c) = .add c :: k → (s.conns c).flag = some m →
    (s.add c m).clients = s₀.takenOver c m →
    s₀.Leaving s env.cf c m (connectEnd env.cf c m rc) → Phase env c m rest s₀ s
  | opens {rc : ReturnCode} {k : List Instr} : ConnectTail env.cf c m rc rest k →
    s.code (.inbound c) = k → s.clients = s₀.takenOver c m →
    s₀.Leaving s env.cf c m (connectEnd env.cf c m rc) → Phase env c m rest s₀ s
  | finishes {rc : ReturnCode} {l : List Instr} :
    s.code (.inbound c) = l ++ .connectReturn c rc :: rest →
    l.all (·.finishes c) = true → (s.conns c).store = some m.clientId →
    s.clients = s₀.takenOver c m → s₀.Leaving s env.cf c m l → Phase env c m rest s₀ s

/-! ## While the call waits for the connection it takes over -/

theorem State.callStore_clientStores {s s' : State} {call : Option StoreCall}
    (hstores : s.clientStores = s'.clientStores) (hstore : (s.conns e).store = (s'.conns e).store) :
    (s.callStore e call).clientStores = (s'.callStore e call).clientStores := by
  cases call with
  | none => exact hstores
  | some call =>
    simp only [State.callStore, hstore]
    split
    · exact hstores
    · simp [State.modStore, hstores]

theorem State.handed_eq_self (h : ∀ i ∈ (s.code (.outbound e)).head?, i.persists = false) :
    s.handed e = s := by
  simp only [State.handed]
  split
  next c m l hcode => simp [hcode, Instr.persists] at h
  · rfl

theorem Leaves.contents {id : GoString} (h : Leaves env s e s') :
    s'.contents id = s.contents id := by
  cases h <;> rfl

theorem State.handed_clientStores (hcode : s.code (.outbound e) = s'.code (.outbound e))
    (hstores : s.clientStores = s'.clientStores)
    (hstore : (s.conns e).store = (s'.conns e).store) :
    (s.handed e).clientStores = (s'.handed e).clientStores := by
  simp only [State.handed, hcode]
  split
  · exact State.callStore_clientStores hstores hstore
  · exact hstores

/-- The store call that is about to be made is made once. -/
theorem Sends.handed {id : GoString} (hs : Sends env s e s')
    (htake : ∀ j js, (s.conns e).jobs = j :: js → persistOutbound j.m = none) :
    (s'.handed e).contents id = (s.handed e).contents id := by
  cases hs with
  | @take j js hcode hjobs =>
    rw [State.handed_eq_self (s := s) (by simp [hcode, Instr.persists])]
    simp only [State.handed, State.setCode, Function.update_self, htake j js hjobs,
      State.callStore]
    rfl
  | @persist j hcode =>
    rw [State.handed_eq_self (s := (s.callStore e (persistOutbound j.m)).setCode _ _)
      (by simp [State.setCode, Instr.persists])]
    simp only [State.handed, hcode]
    rfl
  | @encode j retain ok hcode =>
    rw [State.handed_eq_self (s := s) (by simp [hcode, Instr.persists]), State.handed_eq_self]
    · rfl
    · obtain ⟨m, r⟩ := j
      cases r <;> cases ok <;> simp [State.setCode, encoded, Instr.persists]
  | receipt hi hcode =>
    rw [State.handed_eq_self (s := s) (by simp [hcode, Instr.persists]), State.handed_eq_self]
    · rfl
    · simp [State.setCode, persists_of_ends hi]
  | next hi hcode =>
    rw [State.handed_eq_self (s := s) (by simp [hcode, persists_of_ends hi]),
      State.handed_eq_self]
    · rfl
    · simp [State.setCode, Instr.persists]
  | leave hcode hi =>
    rw [State.handed_eq_self (s := s), State.handed_eq_self]
    · rfl
    · simp [State.setCode, outboundDefer, Instr.persists]
    · obtain rfl | hi := hi
      · simp [hcode, Instr.persists]
      · simp [hcode, persists_of_ends hi]
  | @deferred i rest s₁ hcode hsuf hl =>
    rw [State.handed_eq_self (s := s), State.handed_eq_self]
    · exact hl.contents
    · intro i hi
      refine persists_of_mem_outboundDefer (c := e) (hsuf.subset (List.mem_cons_of_mem _ ?_))
      exact List.mem_of_mem_head? (by simpa [State.setCode] using hi)
    · simp [hcode, persists_of_mem_outboundDefer (hsuf.subset (List.mem_cons_self ..))]

theorem State.callStore_frame (s : State) (c : ConnId) (call : Option StoreCall) :
    ∃ clientStores panicked, s.callStore c call = { s with clientStores, panicked } := by
  cases call with
  | none => exact ⟨s.clientStores, s.panicked, rfl⟩
  | some call =>
    simp only [State.callStore]
    split
    · exact ⟨s.clientStores, _, rfl⟩
    · exact ⟨_, s.panicked, rfl⟩

/-- What a step of the `outboundLoop` of `e` leaves alone. -/
structure Frame (s : State) (e : ConnId) (s' : State) : Prop where
  conns : ∀ d, d ≠ e → s'.conns d = s.conns d
  flag : (s'.conns e).flag = (s.conns e).flag
  clients : s'.clients = s.clients ∨ s'.clients = (s.del e).clients
  presence : s'.presence = s.presence
  jobs : (s'.conns e).jobs = (s.conns e).jobs ∨ ∃ j, (s.conns e).jobs = j :: (s'.conns e).jobs ∧
    s'.code (.outbound e) = [.persistOutbound e j.m, .encode e j, .outboundLoop e]

theorem Sends.frame (hs : Sends env s e s') : Frame s e s' := by
  cases hs with
  | @take j js hcode hjobs =>
    refine ⟨fun d hd => ?_, ?_, .inl rfl, rfl, .inr ⟨j, ?_, ?_⟩⟩ <;>
      simp_all [State.setCode, State.modConn]
  | @persist j hcode =>
    obtain ⟨stores, panicked, heq⟩ := s.callStore_frame e (persistOutbound j.m)
    rw [heq]
    exact ⟨fun _ _ => rfl, rfl, .inl rfl, rfl, .inl rfl⟩
  | encode _ _ _ => exact ⟨fun _ _ => rfl, rfl, .inl rfl, rfl, .inl rfl⟩
  | receipt _ _ => exact ⟨fun _ _ => rfl, rfl, .inl rfl, rfl, .inl rfl⟩
  | next _ _ => exact ⟨fun _ _ => rfl, rfl, .inl rfl, rfl, .inl rfl⟩
  | leave _ _ => exact ⟨fun _ _ => rfl, rfl, .inl rfl, rfl, .inl rfl⟩
  | deferred _ _ hl =>
    cases hl with
    | panic p => exact ⟨fun _ _ => rfl, rfl, .inl rfl, rfl, .inl rfl⟩
    | closeHeartbeat =>
      refine ⟨fun d hd => ?_, ?_, .inl rfl, rfl, .inl ?_⟩ <;>
        simp_all [State.setCode, State.modConn]
    | closeConn =>
      refine ⟨fun d hd => ?_, ?_, .inl rfl, rfl, .inl ?_⟩ <;>
        simp_all [State.setCode, State.modConn]
    | del => exact ⟨fun _ _ => rfl, rfl, .inr rfl, rfl, .inl rfl⟩
    | unsubAll => exact ⟨fun _ _ => rfl, rfl, .inl rfl, rfl, .inl rfl⟩

theorem State.del_clients (h : (s'.conns e).flag = (s.conns e).flag)
    (hc : s'.clients = s.clients ∨ s'.clients = (s.del e).clients) :
    (s'.del e).clients = (s.del e).clients := by
  simp only [State.del, h] at hc ⊢
  split at hc <;> obtain hc | hc := hc <;> simp [*]

theorem State.Draining.sends (h : s₀.Draining s c e m) (hne : e ≠ c) (hs : Sends env s e s')
    (htake : (s₀.conns e).jobs = [] →
      ∀ j js, (s.conns e).jobs = j :: js → persistOutbound j.m = none) :
    s₀.Draining s' c e m := by
  have hf := hs.frame
  refine ⟨?_, ?_, hf.flag.trans h.flag_e, ?_, hf.presence.trans h.presence, fun hempty => ?_⟩
  · rw [hf.conns c (Ne.symm hne)]
    exact h.flag
  · intro d hd hde
    exact (hf.conns d hde).trans (h.conns d hd hde)
  · obtain heq | heq := hf.clients
    · exact heq ▸ h.clients
    · exact .inr (heq.trans (State.del_clients h.flag_e h.clients))
  · exact (hs.handed (htake hempty)).trans (h.contents hempty)

theorem State.Unused.sends (h : s.Unused e r) (hs : Sends env s e s')
    (htake : ∀ j, (s.conns e).jobs = j :: (s'.conns e).jobs → j.r ≠ some r) : s'.Unused e r := by
  obtain ⟨hcode, hclosed⟩ := h
  cases hs with
  | @take j js hc hj =>
    have hne := htake j (by simp [hj, State.setCode, State.modConn])
    exact ⟨by simp [State.setCode, Instr.receipt, hne], hclosed⟩
  | @persist j hc =>
    obtain ⟨stores, panicked, heq⟩ := s.callStore_frame e (persistOutbound j.m)
    rw [heq]
    exact ⟨by simp_all [State.setCode], hclosed⟩
  | @encode j retain ok hc =>
    refine ⟨?_, hclosed⟩
    obtain ⟨m, r'⟩ := j
    cases r' <;> cases ok <;> simp_all [State.setCode, encoded, Instr.receipt]
  | receipt hi hc =>
    refine ⟨?_, ?_⟩
    · simp_all [State.setCode]
    · simp only [hc, List.mem_cons, forall_eq_or_imp, Instr.receipt, ne_eq, Option.some.injEq]
        at hcode
      simp [State.setCode, Ne.symm hcode.1, hclosed]
  | next hi hc => exact ⟨by simp_all [State.setCode], hclosed⟩
  | leave hc hi => exact ⟨by simp [State.setCode, outboundDefer, Instr.receipt], hclosed⟩
  | @deferred i rest s₁ hc hsuf hl =>
    refine ⟨?_, ?_⟩
    · intro j hj
      refine hcode j ?_
      rw [hc]
      exact List.mem_cons_of_mem _ (by simpa [State.setCode] using hj)
    · cases hl <;> exact hclosed

theorem State.Drained.sends (h : s.Drained e) (hs : Sends env s e s') : s'.Drained e := by
  obtain ⟨hjobs, hcode⟩ := h
  have hkeep : (s'.conns e).jobs = [] := by
    obtain heq | ⟨j, heq, -⟩ := hs.frame.jobs
    · rw [heq, hjobs]
    · rw [hjobs] at heq
      cases heq
  refine ⟨hkeep, fun m hm => ?_⟩
  cases hs with
  | take hc hj => simp [hjobs] at hj
  | persist hc => simp [State.setCode] at hm
  | @encode j retain ok hc =>
    obtain ⟨m', r⟩ := j
    cases r <;> cases ok <;> simp [State.setCode, encoded] at hm
  | receipt hi hc => exact hcode m (by simp_all [State.setCode])
  | next hi hc => simp [State.setCode] at hm
  | leave hc hi => simp [State.setCode, outboundDefer] at hm
  | deferred hc hsuf hl =>
    refine hcode m ?_
    rw [hc]
    exact List.mem_cons_of_mem _ (by simpa [State.setCode] using hm)

theorem State.Drained.handed_contents {id : GoString} (hr : Reachable env s) (h : s.Drained e) :
    (s.handed e).contents id = s.contents id := by
  have hsender := hr.sender e
  have hnone := h.2
  generalize hl : s.code (.outbound e) = l at hsender hnone
  cases hsender with
  | job j => simp [State.handed, hl, hnone j.m (List.mem_cons_self ..), State.callStore]
  | idle => rw [State.handed_eq_self (by simp [hl, Instr.persists])]
  | encode j => rw [State.handed_eq_self (by simp [hl, Instr.persists])]
  | receipt _ => rw [State.handed_eq_self (by simp [hl, Instr.persists])]
  | done hi => rw [State.handed_eq_self (by simp [hl, persists_of_ends hi])]
  | left hsuf =>
    rw [State.handed_eq_self]
    intro i hi
    rw [hl] at hi
    exact persists_of_mem_outboundDefer (hsuf.subset (List.mem_of_mem_head? hi))

/-- The jobs of the old queue are taken first, and the Disconnect last. -/
theorem State.Queued.sends (h : s₀.Queued s e r) (hs : Sends env s e s') :
    s₀.Queued s' e r ∨ s'.Drained e := by
  obtain ⟨hunused, old, hsuf, hold, hjobs⟩ := h
  obtain heq | ⟨j, heq, hcode⟩ := hs.frame.jobs
  · refine .inl ⟨hunused.sends hs fun j hj => ?_, old, hsuf, hold, heq.trans hjobs⟩
    rw [heq] at hj
    exact absurd (congrArg List.length hj) (by simp)
  · rw [hjobs] at heq
    cases old with
    | nil =>
      obtain ⟨rfl, hnil⟩ := List.cons.inj heq
      refine .inr ⟨hnil.symm, fun m hm => ?_⟩
      obtain rfl : m = .disconnect := by simpa [hcode] using hm
      rfl
    | cons j' old =>
      obtain ⟨rfl, hrest⟩ := List.cons.inj heq
      refine .inl ⟨hunused.sends hs fun j hj => ?_, old, (List.suffix_cons _ _).trans hsuf,
        fun j hj => hold j (List.mem_cons_of_mem _ hj), hrest.symm⟩
      rw [hjobs] at hj
      obtain rfl := (List.cons.inj hj).1
      exact hold _ (List.mem_cons_self ..)

/-! ## One step of the call -/

theorem Executes.of_code {t : Tid} {i' : Instr} {rest' : List Instr}
    (hx : Executes env s t ch i rest nx s') (hcode : s.code t = i' :: rest') :
    Executes env s t ch i' rest' nx s' := by
  obtain ⟨rfl, rfl⟩ := List.cons.inj (hx.code.symm.trans hcode)
  exact hx

theorem State.add_clients (h : s.clients = s'.clients) :
    (s.add c m).clients = (s'.add c m).clients := by
  simp only [State.add, h]

theorem State.add_add (s : State) (c : ConnId) (m : Connect) :
    ((s.add c m).add c m).clients = (s.add c m).clients := by
  cases h : s.clients m.clientId <;> simp [State.add, h]

theorem State.Leaving.begin {cf : BrokerConfig}
    (hjobs : ∀ d, d ≠ c →
      (s.conns d).jobs = if s₀.clients m.clientId = some d then [] else (s₀.conns d).jobs)
    (hcontents : (∀ e, s₀.clients m.clientId = some e → (s₀.conns e).jobs = []) →
      s.contents m.clientId = s₀.left m.clientId)
    (hpresence : s.presence = s₀.presence) : s₀.Leaving s cf c m (connectEnd cf c m rc) := by
  have hreset : .storeReset c ∈ connectEnd cf c m rc ↔ m.cleanSession = true := by
    simp only [connectEnd]
    split <;> split <;> simp_all
  have hcheckIn : .checkIn m.username ∈ connectEnd cf c m rc ↔
      (cf.enablePresence && !m.username.isEmpty) = true := by
    simp only [connectEnd]
    split <;> split <;> simp_all
  refine ⟨hjobs, fun h => ?_, ?_⟩
  · simp only [hreset, hcontents h]
  · rw [hpresence]
    simp only [hcheckIn, Bool.decide_eq_true]

theorem connectEnd_finishes {cf : BrokerConfig} :
    (connectEnd cf c m rc).all (·.finishes c) = true := by
  simp only [connectEnd]
  split <;> split <;> simp [Instr.finishes]

/-- The instructions by which the end of a call changes what others see. -/
def Instr.leavesMark (c : ConnId) : Instr → Bool
  | .storeReset c' => c' = c
  | .checkIn _ => true
  | _ => false

theorem State.Leaving.step {cf : BrokerConfig} {l is : List Instr}
    (hl : s₀.Leaving s cf c m (i :: l)) (hi : i.leavesMark c = false)
    (his : ∀ j ∈ is, j.leavesMark c = false)
    (hjobs : ∀ d, d ≠ c → (s'.conns d).jobs = (s.conns d).jobs)
    (hstores : s'.clientStores = s.clientStores) (hpresence : s'.presence = s.presence) :
    s₀.Leaving s' cf c m (is ++ l) := by
  have hmem : ∀ {j : Instr}, j.leavesMark c = true → (j ∈ is ++ l ↔ j ∈ i :: l) := by
    intro j hj
    have hne : j ≠ i := by
      rintro rfl
      simp [hi] at hj
    have hnot : j ∉ is := fun h => by simp [his j h] at hj
    simp [hne, hnot]
  refine ⟨fun d hd => (hjobs d hd).trans (hl.jobs d hd), fun hempty => ?_, ?_⟩
  · rw [← hl.contents hempty, State.contents_congr hstores]
    simp only [hmem (j := .storeReset c) (by simp [Instr.leavesMark])]
  · rw [← hl.presence, hpresence]
    simp only [hmem (j := .checkIn m.username) rfl]

section

variable (hx : Executes env s (.inbound c) ch i rest' nx s')

include hx

theorem Phase.begins_step (hcode : s.code (.inbound c) = .connectValidate c m :: rest) :
    Phase env c m rest s s' := by
  obtain ⟨-, s₁, hexec, rfl⟩ := hx.of_code hcode
  cases hexec
  refine .validated (show _ = .connectLimit c m (validate env.cf m) :: rest by
    simp [State.setCode, Next.apply]) ?_
  refine ⟨?_, rfl, rfl, rfl, fun d hd => ?_, fun d hd => ?_⟩ <;>
    simp_all [State.setCode, State.modConn]

theorem Phase.validated_step (hcode : s.code (.inbound c) = .connectLimit c m rc :: rest)
    (hq : s₀.Quiet s c m) : Phase env c m rest s₀ s' := by
  obtain ⟨-, s₁, hexec, rfl⟩ := hx.of_code hcode
  cases hexec
  obtain ⟨k, hk, heq⟩ : ∃ k, ConnectTail env.cf c m (checkLimit env.cf s.stats.clients rc) rest k ∧
      connectBody env.cf c m (checkLimit env.cf s.stats.clients rc) ++ rest =
        .addOrTakeOver c :: .add c :: k := connectBody_eq
  refine .checked hk (by simpa [State.setCode, Next.apply] using heq) ?_
  exact ⟨hq.flag, hq.clients, hq.stores, hq.presence, hq.conns, fun d hd => by
    simpa [State.setCode] using hq.code d hd⟩

theorem Phase.checked_step {k : List Instr} (hk : ConnectTail env.cf c m rc rest k)
    (hcode : s.code (.inbound c) = .addOrTakeOver c :: .add c :: k) (hq : s₀.Quiet s c m) :
    Phase env c m rest s₀ s' := by
  obtain ⟨-, s₁, hexec, rfl⟩ := hx.of_code hcode
  simp only [exec, hq.flag] at hexec
  split at hexec <;> cases hexec
  next e he =>
    refine .asks hk (by rw [← hq.clients]; exact he) (by simp [State.setCode, Next.apply]) ?_
    exact ⟨hq.flag, hq.clients, hq.stores, hq.presence, hq.conns, fun d hd => by
      simpa [State.setCode] using hq.code d hd⟩
  next hnone =>
    have hnone : s₀.clients m.clientId = none := by rw [← hq.clients]; exact hnone
    refine .adds hk (by simp [State.setCode, Next.apply]) hq.flag ?_ (.begin ?_ ?_ hq.presence)
    · simp only [State.takenOver, hnone]
      exact (State.add_add s c m).trans (State.add_clients hq.clients)
    · intro d hd
      simp only [hnone, reduceCtorEq, if_false]
      exact congrArg Conn.jobs (hq.conns d hd)
    · intro _
      simp only [State.left, hnone]
      exact State.contents_congr hq.stores

theorem Phase.asks_step {k : List Instr} (hr : Reachable env s) (hne : e ≠ c)
    (hk : ConnectTail env.cf c m rc rest k) (he : s₀.clients m.clientId = some e)
    (hcode : s.code (.inbound c) = .submitSync e .disconnect :: .del e :: .add c :: k)
    (hq : s₀.Quiet s c m) : Phase env c m rest s₀ s' := by
  obtain ⟨-, s₁, hexec, rfl⟩ := hx.of_code hcode
  cases hexec
  have hissued := hr.issued
  have hconn := hq.conns e hne
  refine .sends hk he (r := s.nextReceipt) (by simp [State.setCode, Next.apply]) ?_ ?_ ?_ ?_
  · refine ⟨hq.flag, fun d hd _ => hq.conns d hd, congrArg Conn.flag hconn, .inl hq.clients,
      hq.presence, fun _ => State.contents_congr ?_⟩
    exact State.handed_clientStores (by simpa [State.setCode] using hq.code e hne) hq.stores
      (congrArg Conn.store hconn)
  · refine ⟨fun i hi => ?_, ?_⟩
    · intro heq
      exact absurd (hissued.code (t := .outbound e) (by simpa [State.setCode] using hi) heq)
        (Nat.lt_irrefl _)
    · by_contra h
      exact absurd (hissued.closed (Bool.eq_true_of_not_eq_false h)) (Nat.lt_irrefl _)
  · exact hconn ▸ List.suffix_refl _
  · intro j hj heq
    exact absurd (hissued.jobs (c := e) hj heq) (Nat.lt_irrefl _)

theorem Phase.sends_step {k : List Instr} (hr : Reachable env s) (hne : e ≠ c)
    (hk : ConnectTail env.cf c m rc rest k) (he : s₀.clients m.clientId = some e)
    (hcode : s.code (.inbound c) =
      .send e ⟨.disconnect, some r⟩ :: .wait r :: .del e :: .add c :: k)
    (hd : s₀.Draining s c e m) (hunused : s.Unused e r)
    (hsuf : (s.conns e).jobs <:+ (s₀.conns e).jobs) (hjobs : ∀ j ∈ (s.conns e).jobs, j.r ≠ some r) :
    Phase env c m rest s₀ s' := by
  have hlen := hr.jobs_le e
  have hsender := hr.sender e
  obtain ⟨-, s₁, hexec, rfl⟩ := hx.of_code hcode
  simp only [exec] at hexec
  split at hexec
  · cases hexec
    exact .panicked rfl
  split at hexec <;> cases hexec
  next henq =>
  obtain ⟨-, rfl⟩ | ⟨hzero, rest, hloop, rfl⟩ := State.enqueue_eq_some henq
  · refine .waits (r := r) hk he (by simp [State.setCode, Next.apply]) ?_ (.inl ?_)
    · refine ⟨?_, fun d hdc hde => ?_, ?_, hd.clients, hd.presence, fun hempty => ?_⟩
      · simpa [State.setCode, State.log, State.modConn, Ne.symm hne] using hd.flag
      · simpa [State.setCode, State.log, State.modConn, hde] using hd.conns d hdc hde
      · simpa [State.setCode, State.log, State.modConn] using hd.flag_e
      · rw [← hd.contents hempty]
        refine State.contents_congr (State.handed_clientStores ?_ rfl ?_) <;>
          simp [State.setCode, State.log, State.modConn]
    · exact ⟨⟨by simpa [State.setCode, State.log, State.modConn] using hunused.code, hunused.closed⟩,
        (s.conns e).jobs, hsuf, hjobs, by simp [State.setCode, State.log, State.modConn]⟩
  · -- the channel has no buffer, and the Disconnect goes straight to the idle loop
    have hnil : (s.conns e).jobs = [] := List.length_eq_zero_iff.1 (by omega)
    rw [hloop] at hsender
    obtain rfl : rest = [] := by
      cases hsender with
      | idle => rfl
      | done hi => cases hi
      | left hsuf => simpa [outboundDefer] using hsuf.subset (List.mem_cons_self ..)
    refine .waits (r := r) hk he (by simp [State.setCode, Next.apply]) ?_ (.inr ⟨hnil, ?_⟩)
    · refine ⟨hd.flag, hd.conns, hd.flag_e, hd.clients, hd.presence, fun hempty => ?_⟩
      rw [← hd.contents hempty, State.handed_eq_self (s := s) (by simp [hloop, Instr.persists])]
      simp [State.handed, State.setCode, handleJob, persistOutbound, State.callStore, State.log]
      rfl
    · intro m hm
      obtain rfl : m = .disconnect := by simpa [State.setCode, State.log, handleJob] using hm
      rfl

theorem Phase.waits_step {k : List Instr} (hk : ConnectTail env.cf c m rc rest k)
    (he : s₀.clients m.clientId = some e)
    (hcode : s.code (.inbound c) = .wait r :: .del e :: .add c :: k) (hd : s₀.Draining s c e m)
    (hwait : s₀.Queued s e r ∨ s.Drained e) : Phase env c m rest s₀ s' := by
  obtain ⟨-, s₁, hexec, rfl⟩ := hx.of_code hcode
  simp only [exec] at hexec
  split at hexec <;> cases hexec
  next hclosed =>
  have hdrained : s.Drained e := by
    refine hwait.resolve_left fun h => ?_
    rw [h.1.closed] at hclosed
    cases hclosed
  refine .deletes hk he (by simp [State.setCode, Next.apply]) ?_ ?_
  · refine ⟨hd.flag, hd.conns, hd.flag_e, hd.clients, hd.presence, fun hempty => ?_⟩
    rw [← hd.contents hempty]
    exact State.contents_congr (State.handed_clientStores (by simp [State.setCode]) rfl rfl)
  · exact ⟨hdrained.1, by simpa [State.setCode] using hdrained.2⟩

theorem Phase.deletes_step {k : List Instr} (hr : Reachable env s)
    (hk : ConnectTail env.cf c m rc rest k) (he : s₀.clients m.clientId = some e)
    (hcode : s.code (.inbound c) = .del e :: .add c :: k) (hd : s₀.Draining s c e m)
    (hdrained : s.Drained e) : Phase env c m rest s₀ s' := by
  obtain ⟨-, s₁, hexec, rfl⟩ := hx.of_code hcode
  cases hexec
  refine .adds hk (by simp [State.setCode, Next.apply]) hd.flag ?_ (.begin ?_ ?_ hd.presence)
  · simp only [State.takenOver, he]
    exact State.add_clients (State.del_clients hd.flag_e hd.clients)
  · intro d hdc
    by_cases hde : d = e
    · subst hde
      simp only [he, if_true]
      exact hdrained.1
    · simp only [he, Option.some.injEq, Ne.symm hde, if_false]
      exact congrArg Conn.jobs (hd.conns d hdc hde)
  · intro hempty
    simp only [State.left, he]
    rw [← hd.contents (hempty e he)]
    exact (hdrained.handed_contents hr).symm

theorem Phase.adds_step {k : List Instr} (hk : ConnectTail env.cf c m rc rest k)
    (hcode : s.code (.inbound c) = .add c :: k) (hflag : (s.conns c).flag = some m)
    (hclients : (s.add c m).clients = s₀.takenOver c m)
    (hl : s₀.Leaving s env.cf c m (connectEnd env.cf c m rc)) : Phase env c m rest s₀ s' := by
  obtain ⟨-, s₁, hexec, rfl⟩ := hx.of_code hcode
  simp only [exec, hflag] at hexec
  cases hexec
  exact .opens hk (by simp [State.setCode, Next.apply]) hclients ⟨hl.jobs, hl.contents, hl.presence⟩

theorem Phase.opens_step {k : List Instr} (hk : ConnectTail env.cf c m rc rest k)
    (hcode : s.code (.inbound c) = k) (hclients : s.clients = s₀.takenOver c m)
    (hl : s₀.Leaving s env.cf c m (connectEnd env.cf c m rc)) : Phase env c m rest s₀ s' := by
  obtain ⟨hb, rfl | rfl, rfl⟩ := hk
  · obtain ⟨-, s₁, hexec, rfl⟩ := hx.of_code hcode
    cases hexec
    refine .finishes (l := connectEnd env.cf c m rc) (show _ = _ ++ .connectReturn c rc :: rest by
        simp [State.setCode, Next.apply])
      connectEnd_finishes (by simp [State.setCode, State.getClientStore, State.modConn]) hclients ?_
    refine ⟨fun d hd => ?_, ?_, hl.presence⟩
    · simpa [State.setCode, State.getClientStore, State.modConn, hd] using hl.jobs d hd
    · intro hempty
      rw [← hl.contents hempty, ← State.getClientStore_contents s c]
      rfl
  · obtain ⟨-, s₁, hexec, rfl⟩ := hx.of_code hcode
    cases hexec
    refine .opens (show ConnectTail env.cf c m rc rest _ from ⟨[], .inl rfl, rfl⟩)
      (by simp [State.setCode, Next.apply]) hclients ?_
    refine ⟨fun d hd => ?_, hl.contents, hl.presence⟩
    simpa [State.setCode, State.modConn, hd] using hl.jobs d hd

theorem Phase.finishes_step {l : List Instr} (hret : s.returning c = false)
    (hcode : s.code (.inbound c) = l ++ .connectReturn c rc :: rest)
    (hall : l.all (·.finishes c) = true) (hstore : (s.conns c).store = some m.clientId)
    (hclients : s.clients = s₀.takenOver c m) (hl : s₀.Leaving s env.cf c m l) :
    Phase env c m rest s₀ s' := by
  cases l with
  | nil => simp [State.returning, hcode] at hret
  | cons i l =>
    obtain ⟨-, s₁, hexec, rfl⟩ := hx.of_code hcode
    rw [List.all_cons, Bool.and_eq_true] at hall
    obtain ⟨hi, hall⟩ := hall
    -- what is left of the call, after an instruction that leaves no mark
    have hquiet : ∀ {s₁ : State} {is : List Instr}, i.leavesMark c = false →
        is.all (·.finishes c) = true →
        (∀ j ∈ is, j.leavesMark c = false) → (∀ d, d ≠ c → (s₁.conns d).jobs = (s.conns d).jobs) →
        (s₁.conns c).store = (s.conns c).store → s₁.clients = s.clients →
        s₁.clientStores = s.clientStores → s₁.presence = s.presence →
        Phase env c m rest s₀ (s₁.setCode (.inbound c)
          ((Next.push is).apply (l ++ .connectReturn c rc :: rest))) := by
      intro s₁ is hmark hfin hmarks hjobs hst hcl hstores hpres
      refine .finishes (l := is ++ l) (show _ = _ ++ .connectReturn c rc :: rest by
          simp [State.setCode, Next.apply])
        (by simp [List.all_append, hfin, hall]) (hst.trans hstore) (hcl.trans hclients)
        (hl.step hmark hmarks hjobs hstores hpres)
    have hother : ∀ {s₁ : State} {d : ConnId} {t : Tid} {j : Job}, d ≠ c →
        s.enqueue env.cf t c j = some s₁ → (s₁.conns d).jobs = (s.conns d).jobs := by
      intro s₁ d t j hd h
      obtain ⟨-, rfl⟩ | ⟨-, _, -, rfl⟩ := State.enqueue_eq_some h <;>
        simp [State.log, State.modConn, State.setCode, hd]
    have hown : ∀ {s₁ : State} {t : Tid} {j : Job},
        s.enqueue env.cf t c j = some s₁ → (s₁.conns c).store = (s.conns c).store := by
      intro s₁ t j h
      obtain ⟨-, rfl⟩ | ⟨-, _, -, rfl⟩ := State.enqueue_eq_some h <;>
        simp [State.log, State.modConn, State.setCode]
    cases i <;> simp only [Instr.finishes, Bool.false_eq_true, decide_eq_true_eq] at hi
    case storeReset c' =>
      subst hi
      simp only [exec, hstore] at hexec
      cases hexec
      refine .finishes (l := l) (show _ = _ ++ .connectReturn c' rc :: rest by
          simp [State.setCode, Next.apply]) hall hstore
        hclients ⟨hl.jobs, fun hempty => ?_, ?_⟩
      · have hclean := hl.contents hempty
        simp only [List.mem_cons, true_or, if_true] at hclean
        rw [← hclean]
        split
        · rfl
        · exact s.reset_contents m.clientId
      · simpa [State.setCode, State.modStore] using hl.presence
    case checkIn u =>
      cases hexec
      refine .finishes (l := l) (show _ = _ ++ .connectReturn c rc :: rest by
          simp [State.setCode, Next.apply]) hall hstore
        hclients ⟨hl.jobs, fun hempty => ?_, ?_⟩
      · rw [← hl.contents hempty]
        simp only [List.mem_cons, reduceCtorEq, false_or]
        rfl
      · rw [← hl.presence]
        by_cases hu : m.username = u <;> simp [State.setCode, hu]
    case storeAll c' =>
      subst hi
      simp only [exec, hstore] at hexec
      repeat' split at hexec
      all_goals cases hexec
      · exact .panicked rfl
      · refine hquiet rfl ?_ ?_ (fun _ _ => rfl) rfl rfl rfl rfl
        · simp [Instr.finishes]
        · simp [Instr.leavesMark]
    case redeliver c' key =>
      subst hi
      simp only [exec, hstore] at hexec
      repeat' split at hexec
      all_goals cases hexec
      · exact .panicked rfl
      · exact .panicked rfl
      · refine hquiet rfl ?_ ?_ (fun _ _ => rfl) rfl rfl rfl rfl
        all_goals simp only [redelivery]
        all_goals repeat' split
        all_goals simp [Instr.finishes, Instr.leavesMark]
    case submit c' m' =>
      subst hi
      simp only [exec] at hexec
      repeat' split at hexec
      all_goals cases hexec
      all_goals
        refine hquiet rfl ?_ ?_ (fun _ _ => rfl) rfl rfl rfl rfl <;>
          simp [Instr.finishes, Instr.leavesMark]
    case send c' j =>
      simp only [Bool.and_eq_true, decide_eq_true_eq] at hi
      obtain ⟨rfl, -⟩ := hi
      simp only [exec] at hexec
      repeat' split at hexec
      all_goals cases hexec
      · exact .panicked rfl
      · obtain ⟨conns, code, rfl⟩ := State.enqueue_frame ‹_›
        exact hquiet rfl rfl (by simp) (fun d hd => hother hd ‹_›) (hown ‹_›) rfl rfl rfl
    case trySend c' j =>
      subst hi
      simp only [exec] at hexec
      repeat' split at hexec
      all_goals cases hexec
      · exact .panicked rfl
      · obtain ⟨conns, code, rfl⟩ := State.enqueue_frame ‹_›
        exact hquiet rfl rfl (by simp) (fun d hd => hother hd ‹_›) (hown ‹_›) rfl rfl rfl
      · exact hquiet rfl rfl (by simp) (fun _ _ => rfl) rfl rfl rfl rfl

end

/-- A connection without a flag takes over somebody else. -/
theorem Reachable.ne_of_clients (hr : Reachable env s) (hfresh : (s.conns c).flag = none)
    {id : GoString} (he : s.clients id = some e) : e ≠ c := by
  rintro rfl
  exact hr.flag_of_clients he hfresh

theorem Phase.own {rest' : List Instr} (hr₀ : Reachable env s₀)
    (hcode₀ : s₀.code (.inbound c) = .connectValidate c m :: rest)
    (hfresh : (s₀.conns c).flag = none) (hr : Reachable env s) (hp : s.panicked = none)
    (hI : Phase env c m rest s₀ s) (hret : s.returning c = false)
    (hx : Executes env s (.inbound c) ch i rest' nx s') : Phase env c m rest s₀ s' := by
  cases hI with
  | panicked h => simp [hp] at h
  | begins h =>
    subst h
    exact Phase.begins_step hx hcode₀
  | validated hcode hq => exact Phase.validated_step hx hcode hq
  | checked hk hcode hq => exact Phase.checked_step hx hk hcode hq
  | asks hk he hcode hq => exact Phase.asks_step hx hr (hr₀.ne_of_clients hfresh he) hk he hcode hq
  | sends hk he hcode hd hu hsuf hj =>
    exact Phase.sends_step hx hr (hr₀.ne_of_clients hfresh he) hk he hcode hd hu hsuf hj
  | waits hk he hcode hd hw => exact Phase.waits_step hx hk he hcode hd hw
  | deletes hk he hcode hd hw => exact Phase.deletes_step hx hr hk he hcode hd hw
  | adds hk hcode hflag hcl hl => exact Phase.adds_step hx hk hcode hflag hcl hl
  | opens hk hcode hcl hl => exact Phase.opens_step hx hk hcode hcl hl
  | finishes hcode hall hst hcl hl => exact Phase.finishes_step hx hret hcode hall hst hcl hl

/-- While the call waits, the connection it waits for moves. -/
theorem Phase.other {d : ConnId} {rest' : List Instr} (hr₀ : Reachable env s₀)
    (hcode₀ : s₀.code (.inbound c) = .connectValidate c m :: rest)
    (hfresh : (s₀.conns c).flag = none) (hr : Reachable env s) (hp : s.panicked = none)
    (hI : Phase env c m rest s₀ s) (hwait : s.waitsFor c d = true)
    (hx : Executes env s (.outbound d) ch i rest' nx s') : Phase env c m rest s₀ s' := by
  have hcode' : s'.code (.inbound c) = s.code (.inbound c) := hx.code_inbound (by simp)
  have hs := hx.sends hr
  cases hI with
  | panicked h => simp [hp] at h
  | begins h =>
    subst h
    simp [State.waitsFor, hcode₀] at hwait
  | sends hk he hcode hd hu hsuf hj =>
    obtain rfl : _ = d := by simpa [State.waitsFor, hcode] using hwait
    have hne := hr₀.ne_of_clients hfresh he
    refine .sends hk he (hcode'.trans hcode) (hd.sends hne hs ?_) (hu.sends hs ?_) ?_ ?_
    · intro hempty j js hjobs
      rw [hempty] at hsuf
      simp [List.suffix_nil.1 hsuf] at hjobs
    · intro j hjobs
      exact hj j (by simp [hjobs])
    · obtain heq | ⟨j, heq, -⟩ := hs.frame.jobs
      · rwa [heq]
      · rw [heq] at hsuf
        exact (List.suffix_cons _ _).trans hsuf
    · intro j hjobs
      obtain heq | ⟨j', heq, -⟩ := hs.frame.jobs
      · exact hj j (heq ▸ hjobs)
      · exact hj j (heq ▸ List.mem_cons_of_mem _ hjobs)
  | waits hk he hcode hd hw =>
    obtain rfl : _ = d := by simpa [State.waitsFor, hcode] using hwait
    have hne := hr₀.ne_of_clients hfresh he
    refine .waits hk he (hcode'.trans hcode) (hd.sends hne hs ?_) ?_
    · intro hempty j js hjobs
      obtain ⟨-, old, hsuf, -, heq⟩ | ⟨hnil, -⟩ := hw
      · rw [hempty] at hsuf
        obtain rfl := List.suffix_nil.1 hsuf
        obtain ⟨rfl, -⟩ := List.cons.inj (heq.symm.trans hjobs)
        rfl
      · simp [hnil] at hjobs
    · exact hw.elim (fun h => h.sends hs) fun h => .inr (h.sends hs)
  | opens hk hcode _ _ =>
    obtain ⟨hb, rfl | rfl, rfl⟩ := hk <;> simp [State.waitsFor, hcode] at hwait
  | @finishes rc l hcode hall _ _ _ =>
    cases l with
    | nil => simp [State.waitsFor, hcode] at hwait
    | cons i l =>
      simp only [List.all_cons, Bool.and_eq_true] at hall
      simp only [State.waitsFor, hcode, List.cons_append] at hwait
      split at hwait <;> simp_all [Instr.finishes]
  | validated hcode _ => simp [State.waitsFor, hcode] at hwait
  | checked _ hcode _ => simp [State.waitsFor, hcode] at hwait
  | asks _ _ hcode _ => simp [State.waitsFor, hcode] at hwait
  | deletes _ _ hcode _ _ => simp [State.waitsFor, hcode] at hwait
  | adds _ hcode _ _ _ => simp [State.waitsFor, hcode] at hwait

theorem Phase.step {a : BrokerAction} (hr₀ : Reachable env s₀)
    (hcode₀ : s₀.code (.inbound c) = .connectValidate c m :: rest)
    (hfresh : (s₀.conns c).flag = none) (hr : Reachable env s) (hI : Phase env c m rest s₀ s)
    (ha : Alone c s a = true) (hstep : step env s a = some s') : Phase env c m rest s₀ s' := by
  obtain ⟨hp, ⟨rfl, -⟩ | ⟨rfl, -⟩ | ⟨t, ch, i, rest', nx, rfl, hx⟩⟩ := step_cases hstep
  · cases ha
  · cases ha
  · cases t with
    | inbound c' =>
      simp only [Alone, Bool.and_eq_true, decide_eq_true_eq, Bool.not_eq_true'] at ha
      obtain ⟨rfl, hret⟩ := ha
      exact hI.own hr₀ hcode₀ hfresh hr hp hret hx
    | outbound d => exact hI.other hr₀ hcode₀ hfresh hr hp ha hx
    | _ => cases ha

/-- What others see when the call returns. -/
theorem Phase.returned (hI : Phase env c m rest s₀ s) (hp : s.panicked = none)
    (hcode₀ : s₀.code (.inbound c) = .connectValidate c m :: rest)
    {rest' : List Instr} (hret : s.code (.inbound c) = .connectReturn c rc :: rest') :
    s.clients = s₀.takenOver c m ∧ s₀.Leaving s env.cf c m [] := by
  cases hI with
  | panicked h => simp [hp] at h
  | begins h =>
    subst h
    simp [hcode₀] at hret
  | opens hk hcode _ _ =>
    obtain ⟨hb, rfl | rfl, rfl⟩ := hk <;> simp [hcode] at hret
  | @finishes rc l hcode hall _ hcl hl =>
    cases l with
    | nil => exact ⟨hcl, hl⟩
    | cons i l =>
      rw [hcode] at hret
      obtain ⟨rfl, -⟩ := List.cons.inj hret
      simp [Instr.finishes] at hall
  | validated hcode _ => simp [hcode] at hret
  | checked _ hcode _ => simp [hcode] at hret
  | asks _ _ hcode _ => simp [hcode] at hret
  | sends _ _ hcode _ _ _ _ => simp [hcode] at hret
  | waits _ _ hcode _ _ => simp [hcode] at hret
  | deletes _ _ hcode _ _ => simp [hcode] at hret
  | adds _ hcode _ _ _ => simp [hcode] at hret

/-! ## Who can tell -/

theorem State.add_clients_of_some (h : s.clients m.clientId ≠ none) :
    (s.add c m).clients = s.clients := by
  obtain ⟨e, he⟩ := Option.ne_none_iff_exists'.1 h
  simp [State.add, he]

theorem State.add_clients_self (h : s.clients m.clientId = none) :
    (s.add c m).clients m.clientId = some c := by
  simp [State.add, h]

theorem State.del_clients_eq_iff :
    (s.del e).clients = s.clients ↔
      ∀ f, (s.conns e).flag = some f → s.clients f.clientId = none := by
  cases hf : (s.conns e).flag with
  | none => simp [State.del, hf]
  | some f =>
    simp only [State.del, hf, Option.some.injEq, forall_eq']
    constructor
    · intro h
      rw [← h, Function.update_self]
    · intro h
      rw [← h, Function.update_eq_self]

theorem State.takenOver_eq_iff (hne : s.clients m.clientId ≠ some c) :
    s.takenOver c m = s.clients ↔ ∃ e, s.clients m.clientId = some e ∧
      ∀ f, (s.conns e).flag = some f → s.clients f.clientId = none := by
  cases he : s.clients m.clientId with
  | none =>
    simp only [State.takenOver, he, reduceCtorEq, false_and, exists_false, iff_false]
    intro h
    have hself := State.add_clients_self (c := c) he
    rw [h, he] at hself
    cases hself
  | some e =>
    simp only [State.takenOver, he, Option.some.injEq, exists_eq_left', ← State.del_clients_eq_iff]
    constructor
    · intro h
      -- an entry that `del` freed would be the caller's now
      have hkept : (s.del e).clients m.clientId ≠ none := by
        intro hnone
        refine hne ?_
        rw [← h, State.add_clients_self hnone]
      rwa [State.add_clients_of_some hkept] at h
    · intro h
      rw [State.add_clients_of_some (by simp [h, he]), h]

/-- What a call of `doConnect` leaves behind does not depend on the code it returns. A
call that nobody interferes with changes nothing for the others only if the client id
belongs to a connection that has moved on to another id, and nothing is left to drop. -/
theorem connect_unnoticed_iff {as : List BrokerAction} {rest' : List Instr} (hr : Reachable env s)
    (hcode : s.code (.inbound c) = .connectValidate c m :: rest)
    (hfresh : (s.conns c).flag = none) (hrun : Transition.run (step env) s as = some s')
    (halone : Transition.Guarded (step env) (Alone c · ·) s as) (hp : s'.panicked = none)
    (hret : s'.code (.inbound c) = .connectReturn c rc :: rest') :
    s.Unnoticed s' c m ↔ s.HeldInName env.cf m := by
  have hphase : Phase env c m rest s s' :=
    hr.run_invariant (I := Phase env c m rest s)
      (fun _ _ _ hr' hI ha hstep => hI.step hr hcode hfresh hr' ha hstep) (.begins rfl) hrun halone
  obtain ⟨hclients, hl⟩ := hphase.returned hp hcode hret
  have hne : s.clients m.clientId ≠ some c := fun h => hr.ne_of_clients hfresh h rfl
  have hpresence := hl.presence
  simp only [List.not_mem_nil, decide_false, Bool.or_false] at hpresence
  constructor
  · intro h
    obtain ⟨e, he, hflag⟩ := (State.takenOver_eq_iff hne).1 (hclients.symm.trans h.clients)
    have hjobs : (s.conns e).jobs = [] := by
      rw [← h.jobs e (hr.ne_of_clients hfresh he), hl.jobs e (hr.ne_of_clients hfresh he)]
      simp [he]
    have hcontents := hl.contents (by simpa [he] using hjobs)
    simp only [List.not_mem_nil, if_false, State.left, he] at hcontents
    refine ⟨e, he, hflag, hjobs, ?_, fun henabled huser => ?_⟩
    · rw [h.contents] at hcontents
      split <;> simp_all
    · rw [h.presence] at hpresence
      simp_all
  · rintro ⟨e, he, hflag, hjobs, hstore, hpres⟩
    have hcontents := hl.contents (by simpa [he] using hjobs)
    simp only [List.not_mem_nil, if_false, State.left, he] at hcontents
    refine ⟨?_, fun d hd => ?_, ?_, ?_⟩
    · rw [hclients]
      exact (State.takenOver_eq_iff hne).2 ⟨e, he, hflag⟩
    · rw [hl.jobs d hd]
      split
      next h =>
        obtain rfl : e = d := by simpa [he] using h
        exact hjobs.symm
      · rfl
    · rw [hcontents]
      split at hstore <;> simp_all
    · rw [hpresence]
      cases hpr : s.presence m.username <;> simp_all

/-- A CONNECT for the client `a` that asks for a version the broker does not speak. -/
def badVersion : Connect :=
  { Connect.named (str "a") with protocolVersion := 4, username := str "u" }

/-- Connection 0 is accepted as `a`. -/
def acceptedAs : List BrokerAction :=
  .accept :: .run (.inbound 0) (.recv (.connect (.named (str "a")))) ::
    List.replicate 9 (.run (.inbound 0) .go) ++
  [.run (.outbound 0) .job, .run (.outbound 0) .go, .run (.outbound 0) (.encode true),
    .run (.outbound 0) .go]

/-- Connection 1 is about to handle its CONNECT. -/
def comesAs (m : Connect) : List BrokerAction := [.accept, .run (.inbound 1) (.recv (.connect m))]

/-- A call of `doConnect` on connection 1 that takes over connection 0, with `n` steps
after the Disconnect was sent. -/
def takeOverRun (n : Nat) : List BrokerAction :=
  List.replicate 5 (.run (.inbound 1) .go) ++
  [.run (.outbound 0) .job, .run (.outbound 0) .go, .run (.outbound 0) (.encode true),
    .run (.outbound 0) .go] ++
  List.replicate n (.run (.inbound 1) .go)

theorem connect_unnoticed_iff_movedOn :
    ∃ s s', Transition.run (step presenceEnv) s (takeOverRun 7) = some s' ∧
      s'.code (.inbound 1) =
        [.connectReturn 1 .unacceptableProtocolVersion, .inboundLoop 1] ∧
      s.HeldInName presenceEnv.cf { badVersion with username := [] } ∧
      s.Unnoticed s' 1 { badVersion with username := [] } := by
  -- connection 0 has gone on to another CONNECT, as `b`
  let before := acceptedAs ++ [.run (.inbound 0) (.recv (.connect (.named (str "b")))),
    .run (.inbound 0) .go] ++ comesAs { badVersion with username := [] }
  have heval : (Transition.run (step presenceEnv) (init presenceEnv) before).bind (fun s =>
      (Transition.run (step presenceEnv) s (takeOverRun 7)).map fun s' => decide (
        s.code (.inbound 1) =
          [.connectValidate 1 { badVersion with username := [] }, .inboundLoop 1] ∧
        (s.conns 1).flag = none ∧
        Transition.Guarded (step presenceEnv) (Alone 1 · ·) s (takeOverRun 7) ∧
        s'.panicked = none ∧
        s'.code (.inbound 1) = [.connectReturn 1 .unacceptableProtocolVersion, .inboundLoop 1] ∧
        s.clients (str "a") = some 0 ∧ (s.conns 0).flag = some (.named (str "b")) ∧
        s.clients (str "b") = none ∧ (s.conns 0).jobs = [] ∧
        (s.clientStores (str "a")).map (·.messages.keys) = some [])) = some true := by
    decide +kernel
  obtain ⟨s, hs, heval⟩ := Option.bind_eq_some_iff.1 heval
  obtain ⟨s', hs', heval⟩ := Option.map_eq_some_iff.1 heval
  obtain ⟨hcode, hfresh, halone, hp, hret, ha, hflag, hb, hjobs, hkeys⟩ := of_decide_eq_true heval
  have hspares : s.HeldInName presenceEnv.cf { badVersion with username := [] } := by
    refine ⟨0, ha, ?_, hjobs, ?_, fun _ h => absurd rfl h⟩
    · rw [hflag]
      rintro _ ⟨⟩
      exact hb
    · obtain ⟨store, hstore, hkeys⟩ := Option.map_eq_some_iff.1 hkeys
      change s.contents (str "a") = _
      funext key
      have hnot : key ∉ store.messages := by simp [AList.mem_keys, hkeys]
      simp [State.contents, hstore, MemoryStore.get, AList.lookup_eq_none.2 hnot]
  exact ⟨s, s', hs', hret, hspares,
    (connect_unnoticed_iff ⟨_, hs⟩ hcode hfresh hs' halone hp hret).2 hspares⟩

/-- Connection 0 is accepted as `a` and has a QoS 1 message in the store. -/
def storedRun : List BrokerAction :=
  acceptedAs ++ .run (.inbound 0) (.recv (.publish false ⟨0, .atLeastOnce, str "t", 1, str "x"⟩)) ::
    .run (.inbound 0) (.pour true) :: List.replicate 2 (.run (.inbound 0) .go)

/-- The ordinary case: the rejected CONNECT makes connection 0 leave, gives its name to
a connection that the broker is about to close, drops the message, and reports the
user as present. -/
theorem rejected_connect_noticed :
    ∃ s s', Reachable presenceEnv s ∧
      Transition.run (step presenceEnv) s (takeOverRun 8) = some s' ∧
      (s.code (.inbound 1) = [.connectValidate 1 badVersion, .inboundLoop 1] ∧
        (s.conns 1).flag = none ∧
        Transition.Guarded (step presenceEnv) (Alone 1 · ·) s (takeOverRun 8) ∧
        s'.panicked = none ∧
        s'.code (.inbound 1) =
          [.connectReturn 1 .unacceptableProtocolVersion, .inboundLoop 1] ∧
        s.clients (str "a") = some 0 ∧ s'.clients (str "a") = some 1 ∧
        (s.contents (str "a") (str "i.1")).isSome = true ∧
        s'.contents (str "a") (str "i.1") = none ∧
        s.presence (str "u") = false ∧ s'.presence (str "u") = true) ∧
      ¬ s.Unnoticed s' 1 badVersion := by
  have heval : (Transition.run (step presenceEnv) (init presenceEnv)
      (storedRun ++ comesAs badVersion)).bind (fun s =>
        (Transition.run (step presenceEnv) s (takeOverRun 8)).map fun s' => decide (
          s.code (.inbound 1) = [.connectValidate 1 badVersion, .inboundLoop 1] ∧
          (s.conns 1).flag = none ∧
          Transition.Guarded (step presenceEnv) (Alone 1 · ·) s (takeOverRun 8) ∧
          s'.panicked = none ∧
          s'.code (.inbound 1) =
            [.connectReturn 1 .unacceptableProtocolVersion, .inboundLoop 1] ∧
          s.clients (str "a") = some 0 ∧ s'.clients (str "a") = some 1 ∧
          (s.contents (str "a") (str "i.1")).isSome = true ∧
          s'.contents (str "a") (str "i.1") = none ∧
          s.presence (str "u") = false ∧ s'.presence (str "u") = true)) = some true := by
    decide +kernel
  obtain ⟨s, hs, heval⟩ := Option.bind_eq_some_iff.1 heval
  obtain ⟨s', hs', heval⟩ := Option.map_eq_some_iff.1 heval
  have hall := of_decide_eq_true heval
  refine ⟨s, s', ⟨_, hs⟩, hs', hall, fun h => ?_⟩
  obtain ⟨-, -, -, -, -, ha, ha', -⟩ := hall
  rw [h.clients, ha] at ha'
  cases ha'
