-- SUMMARY: The session stores over whole runs: what they hold, which call of which goroutine changes them, and the outbound messages of a connection.
import Mhub.Broker.Sender

/-!
# Session stores over runs

A store is reached through the connections that got it from `getClientStore`. Its
contents change by the calls their `doPublish` and `outboundLoop` make, and by the
reset of a clean CONNECT.

A QoS 1 PUBLISH to a client is stored by `outboundLoop` a step after it was taken from
the queue. `State.outstanding` counts it in from the start: for a connection that has
its store for itself, what is outstanding under a message id is the last PUBLISH taken
with that id (`outstanding_run`).
-/

variable {env : Env} {s s' : State} {t : Tid} {ch : Choice} {i j : Instr} {rest : List Instr}
  {nx : Next} {c : ConnId} {id : GoString}

/-! ## Contents -/

namespace State

/-- What the session store of a client holds. -/
def contents (s : State) (id key : GoString) : Option Message :=
  (s.clientStores id).bind (·.get key)

theorem contents_congr (h : s.clientStores = s'.clientStores) : s.contents id = s'.contents id := by
  funext key
  simp [State.contents, h]

theorem getClientStore_contents (s : State) (c : ConnId) (id : GoString) :
    (s.getClientStore c id).contents id = s.contents id := by
  funext key
  cases h : s.clientStores id <;>
    simp [State.contents, State.getClientStore, State.modConn, h, MemoryStore.newMemoryStore,
      MemoryStore.get]

theorem reset_contents (s : State) (id : GoString) :
    (s.modStore id (·.reset)).contents id = fun _ => none := by
  funext key
  cases h : s.clientStores id <;>
    simp [State.contents, State.modStore, h, MemoryStore.reset, MemoryStore.get]

theorem call_contents {call : StoreCall} (h : (s.clientStores id).isSome = true) :
    (s.modStore id (·.call call)).contents id = call.apply (s.contents id) := by
  obtain ⟨store, hstore⟩ := Option.isSome_iff_exists.1 h
  have hget : s.contents id = store.get := by
    funext key
    simp [contents, hstore]
  rw [hget, ← store.get_call call]
  funext key
  simp [contents, modStore, hstore]

end State

/-- A connection has got its store from the table. -/
theorem Reachable.store_exists (hr : Reachable env s) (h : (s.conns c).store = some id) :
    (s.clientStores id).isSome = true := by
  refine hr.invariant (I := fun s => ∀ id, (s.conns c).store = some id →
    (s.clientStores id).isSome = true) ?_ (fun id h => by cases h) id h
  intro s a s' _ hI hstep id h
  obtain ⟨-, ⟨-, rfl⟩ | ⟨-, rfl⟩ | ⟨t, ch, i, rest, nx, -, hx⟩⟩ := step_cases hstep
  · exact hI id h
  · exact hI id h
  · by_cases hget : i = .getClientStore c id
    · subst hget
      obtain ⟨-, s₁, hexec, rfl⟩ := hx
      cases hexec
      simp [State.getClientStore, State.modConn, State.setCode]
    · have hold : (s.clientStores id).isSome = true := by
        obtain heq | ⟨id', rfl, heq⟩ := (hx.conn c).store
        · exact hI id (heq ▸ h)
        · exact absurd (by rw [Option.some.inj (heq.symm.trans h)]) hget
      obtain heq | ⟨d, id', -, heq⟩ | ⟨id', f, -, heq⟩ := hx.effects.stores <;> rw [heq]
      · exact hold
      all_goals
        by_cases hid : id = id'
        · subst hid
          simp [hold]
        · simpa [hid] using hold

theorem Executes.store_eq (hx : Executes env s t ch i rest nx s')
    (hi : ∀ id, i ≠ .getClientStore c id) : (s'.conns c).store = (s.conns c).store :=
  (hx.conn c).store.resolve_right fun ⟨id, h, _⟩ => hi id h

/-- The call an instruction makes on the store of `c`. -/
def storeCall (c : ConnId) : Instr → Option StoreCall
  | .persistInbound c' m => if c' = c then persistInbound (.publish m) else none
  | .persistOutbound c' m => if c' = c then persistOutbound m else none
  | _ => none

theorem Executes.contents_call {call : StoreCall} (hr : Reachable env s)
    (hx : Executes env s t ch i rest nx s') (hcall : storeCall c i = some call)
    (hstore : (s.conns c).store = some id) : s'.contents id = call.apply (s.contents id) := by
  rw [← State.call_contents (hr.store_exists hstore)]
  obtain ⟨-, s₁, hexec, rfl⟩ := hx
  cases i <;> simp only [storeCall, reduceCtorEq] at hcall
  all_goals
    split at hcall
    · next heq =>
      subst heq
      simp only [exec, State.callStore, hcall, hstore] at hexec
      cases hexec
      rfl
    · cases hcall

theorem Executes.contents_reset (hx : Executes env s t ch (.storeReset c) rest nx s')
    (hstore : (s.conns c).store = some id) : s'.contents id = fun _ => none := by
  rw [← s.reset_contents id]
  obtain ⟨-, s₁, hexec, rfl⟩ := hx
  simp only [exec, hstore] at hexec
  cases hexec
  rfl

/-- A store changes by the calls on it only. -/
theorem Executes.contents_same (hx : Executes env s t ch i rest nx s')
    (h : ∀ d, (s.conns d).store = some id → i ≠ .storeReset d ∧ storeCall d i = none) :
    s'.contents id = s.contents id := by
  obtain heq | ⟨d, id', -, heq⟩ | ⟨id', f, hop, heq⟩ := hx.effects.stores
  · exact State.contents_congr heq
  · by_cases hid : id = id'
    · subst hid
      rw [← State.getClientStore_contents s d]
      exact State.contents_congr heq
    · funext key
      simp [State.contents, heq, hid]
  · by_cases hid : id = id'
    · subst hid
      cases hop with
      | reset hstore => exact absurd rfl (h _ hstore).1
      | inbound hstore hcall | outbound hstore hcall =>
        have hnone := (h _ hstore).2
        simp [storeCall, hcall] at hnone
      | close hstore =>
        funext key
        cases hs : s.clientStores id <;> simp [State.contents, heq, hs]
    · funext key
      simp [State.contents, heq, hid]

theorem Executes.contents_cases (hr : Reachable env s) (hx : Executes env s t ch i rest nx s')
    (id : GoString) :
    s'.contents id = s.contents id ∨ ∃ d, (s.conns d).store = some id ∧ (i = .storeReset d ∨
      ∃ call, storeCall d i = some call ∧ s'.contents id = call.apply (s.contents id)) := by
  by_cases hsame : ∀ d, (s.conns d).store = some id → i ≠ .storeReset d ∧ storeCall d i = none
  · exact .inl (hx.contents_same hsame)
  · push Not at hsame
    obtain ⟨d, hd, hi⟩ := hsame
    refine .inr ⟨d, hd, ?_⟩
    by_cases hreset : i = .storeReset d
    · exact .inl hreset
    · obtain ⟨call, hcall⟩ := Option.ne_none_iff_exists'.1 (hi hreset)
      exact .inr ⟨call, hcall, hx.contents_call hr hcall hd⟩

/-- The instructions that make a call on a store. -/
theorem storeCall_eq_some {call : StoreCall} (h : storeCall c i = some call) :
    (∃ m, i = .persistInbound c m ∧ persistInbound (.publish m) = some call) ∨
    ∃ m, i = .persistOutbound c m ∧ persistOutbound m = some call := by
  cases i <;> simp only [storeCall, reduceCtorEq] at h
  all_goals
    split at h
    · next heq =>
      subst heq
      first
        | exact .inl ⟨_, rfl, h⟩
        | exact .inr ⟨_, rfl, h⟩
    · cases h

/-! ## What is kept -/

theorem StoreOp.kept {f : MemoryStore → MemoryStore} {store : MemoryStore} (h : StoreOp s i id f)
    (hk : store.Kept) : (f store).Kept := by
  cases h with
  | reset _ => exact .reset
  | inbound _ hcall => exact hk.inbound hcall
  | outbound _ hcall => exact hk.outbound hcall
  | close _ => exact hk

/-- Every store holds QoS 1 PUBLISH messages only, under keys of their own. -/
theorem Reachable.kept {store : MemoryStore} (hr : Reachable env s)
    (h : s.clientStores id = some store) : store.Kept := by
  refine hr.invariant (I := fun s => ∀ id store, s.clientStores id = some store → store.Kept)
    ?_ ?_ id store h
  · intro s a s' _ hI hstep id' store h
    obtain ⟨-, ⟨-, rfl⟩ | ⟨-, rfl⟩ | ⟨t, ch, i, rest, nx, -, hx⟩⟩ := step_cases hstep
    · exact hI id' store h
    · exact hI id' store h
    · obtain heq | ⟨c, id, -, heq⟩ | ⟨id, f, hop, heq⟩ := hx.effects.stores <;> rw [heq] at h
      · exact hI id' store h
      · by_cases hid : id' = id
        · subst hid
          rw [Function.update_self] at h
          cases hold : s.clientStores id' with
          | none =>
            rw [hold] at h
            cases h
            exact .new
          | some store' =>
            rw [hold] at h
            cases h
            exact hI id' store' hold
        · rw [Function.update_of_ne hid] at h
          exact hI id' store h
      · by_cases hid : id' = id
        · subst hid
          rw [Function.update_self, Option.map_eq_some_iff] at h
          obtain ⟨store', hold, rfl⟩ := h
          exact hop.kept (hI id' store' hold)
        · rw [Function.update_of_ne hid] at h
          exact hI id' store h
  · simp [init]

/-- What is stored under a key is queued again if there is anything. -/
theorem Reachable.redelivery_eq (hr : Reachable env s) (id key : GoString) :
    redelivery c (s.contents id key) = ((s.contents id key).map (Instr.submit c)).toList := by
  cases hget : s.contents id key with
  | none => rfl
  | some m =>
    obtain ⟨store, hstore, hm⟩ := Option.bind_eq_some_iff.1 hget
    obtain ⟨p, rfl, hq, -⟩ := hr.kept hstore key m hm
    simp [redelivery, hq]

theorem Executes.redeliver {key : GoString} (hx : Executes env s t ch (.redeliver c key) rest nx s')
    (h : key ≠ [] ∧ (s.conns c).store ≠ none ∨ s'.panicked = none) :
    ∃ id, (s.conns c).store = some id ∧ nx = .push (redelivery c (s.contents id key)) := by
  obtain ⟨-, s₁, hexec, rfl⟩ := hx
  simp only [exec] at hexec
  repeat' split at hexec
  all_goals cases hexec
  · next hstore =>
    obtain ⟨-, h⟩ | h := h
    · exact absurd hstore h
    · cases h
  · obtain ⟨h, -⟩ | h := h
    · exact absurd rfl h
    · cases h
  · exact ⟨_, ‹_›, rfl⟩

/-! ## Messages taken from the queue -/

/-- The message that `outboundLoop` has taken from the queue and not handed to
`persistOutbound` yet. -/
def State.persisting (s : State) (c : ConnId) : Option Message :=
  match s.code (.outbound c) with
  | .persistOutbound _ m :: _ => some m
  | _ => none

def Instr.persists : Instr → Bool
  | .persistOutbound .. => true
  | _ => false

theorem persists_of_ends (h : i.ends c = true) : i.persists = false := by
  cases i <;> first | rfl | cases h

theorem persists_of_mem_outboundDefer (h : i ∈ outboundDefer c) : i.persists = false := by
  simp only [outboundDefer, List.mem_cons, List.not_mem_nil, or_false] at h
  obtain rfl | rfl | rfl | rfl := h <;> rfl

theorem State.persisting_eq_none
    (h : ∀ i ∈ (s.code (.outbound c)).head?, i.persists = false) : s.persisting c = none := by
  simp only [State.persisting]
  split
  next hcode => simp [hcode, Instr.persists] at h
  · rfl

/-- What a step can do to it. -/
inductive Persists (c : ConnId) (i : Instr) : Option Message → Option Message → Prop where
  | same {o} : (∀ m, i ≠ .persistOutbound c m) → Persists c i o o
  | taken {m} : (∀ m, i ≠ .persistOutbound c m) → Persists c i none (some m)
  | done {m} : i = .persistOutbound c m → Persists c i (some m) none

theorem Persists.idle (hi : i.persists = false) (h : s.persisting c = none)
    (h' : s'.persisting c = none) : Persists c i (s.persisting c) (s'.persisting c) := by
  rw [h, h']
  exact .same (by rintro m rfl; cases hi)

theorem Executes.persists (hr : Reachable env s) (hx : Executes env s t ch i rest nx s') :
    Persists c i (s.persisting c) (s'.persisting c) := by
  by_cases ht : t = .outbound c
  · subst ht
    have hidle : i.persists = false → s.persisting c = none := fun hi =>
      State.persisting_eq_none (by simpa [hx.code] using hi)
    have hf := hx.follows
    have hcode := hx.code_self
    have hsender := hr.sender c
    rw [hx.code] at hsender
    cases hsender with
    | idle =>
      rw [hidle rfl]
      simp only [State.persisting, hcode]
      cases hf with
      | falls h => cases h
      | job j => exact .taken nofun
      | stopped => exact .same nofun
    | job j =>
      cases hf
      simp only [State.persisting, hx.code, hcode]
      exact .done rfl
    | encode j =>
      refine .idle rfl (hidle rfl) (State.persisting_eq_none ?_)
      cases hf with
      | falls h => cases h
      | encoded ok =>
        cases hj : j.r <;> cases ok <;> simp [hcode, encoded, hj, Next.apply, Instr.persists]
    | receipt hi =>
      cases hf
      refine .idle rfl (hidle rfl) (State.persisting_eq_none ?_)
      simpa [hcode, Next.apply] using persists_of_ends hi
    | done hi =>
      refine .idle (persists_of_ends hi) (hidle (persists_of_ends hi)) (State.persisting_eq_none ?_)
      rw [hcode]
      cases hf with
      | falls _ => simp [Next.apply, Instr.persists]
      | disconnected | outboundReturn => simp [Next.apply, outboundDefer, Instr.persists]
      | _ => cases hi
    | left hsuf =>
      have hi := persists_of_mem_outboundDefer (hsuf.subset (List.mem_cons_self ..))
      obtain rfl := follows_of_mem_outboundDefer (hsuf.subset (List.mem_cons_self ..)) hf
      refine .idle hi (hidle hi) (State.persisting_eq_none fun i' hi' => ?_)
      rw [hcode] at hi'
      exact persists_of_mem_outboundDefer
        (hsuf.subset (List.mem_cons_of_mem _ (List.mem_of_mem_head? hi')))
  · have hi : ∀ m, i ≠ .persistOutbound c m := by
      rintro m rfl
      exact ht (hx.home hr rfl)
    have htouch := hx.touch (Ne.symm ht)
    simp only [State.persisting]
    generalize s.code (.outbound c) = l, s'.code (.outbound c) = l' at htouch
    cases htouch with
    | same => exact .same hi
    | job _ => exact .taken hi

theorem State.persisting_accept (hr : Reachable env s) :
    s.accept.persisting c = s.persisting c := by
  by_cases hc : c = s.nconns
  · -- there was no loop yet
    have hold : s.code (.outbound c) = [] := by
      by_contra hne
      exact absurd (hr.started hne) (by simp [Tid.Started, hc])
    have hnew : s.accept.code (.outbound c) = [.outboundLoop c] := by
      simp [State.accept, State.log, State.setCode, hc]
    simp only [State.persisting, hold, hnew]
  · simp [State.persisting, State.accept, State.log, State.setCode, hc]

/-- The PUBLISH under a message id that is stored for acknowledgement, or about to be. -/
def State.outstanding (s : State) (c : ConnId) (id : GoString) (n : UInt16) : Option Message :=
  ((((s.persisting c).bind (·.atLeastOnce)).filter (·.messageId = n)).map .publish).or
    (s.contents id (oboundMid2key n))

/-- What happens to the outbound messages of a session. -/
inductive Seen where
  /-- `outboundLoop` has taken a QoS 1 PUBLISH from the queue. -/
  | dequeued (m : Publish)
  /-- `inboundLoop` has handled a PUBACK. -/
  | acked (messageId : UInt16)
  deriving DecidableEq, Repr

def Seen.publish : Seen → Option Publish
  | .dequeued m => some m
  | .acked _ => none

/-- The QoS 1 PUBLISH that `outboundLoop` takes in a step. -/
def dequeues (c : ConnId) (s s' : State) : Option Publish :=
  if s.persisting c = none then (s'.persisting c).bind (·.atLeastOnce) else none

/-- The message id of the PUBACK that `inboundLoop` reads in a step. Its handler has no
effect. -/
def acks (c : ConnId) (s : State) : BrokerAction → Option UInt16
  | .run t (.recv (.pubAck m)) =>
    if s.code t = [.inboundLoop c] then some m.messageId else none
  | _ => none

def sees (c : ConnId) (s : State) (a : BrokerAction) (s' : State) : Option Seen :=
  ((dequeues c s s').map .dequeued).or ((acks c s a).map .acked)

theorem sees_publish {a : BrokerAction} : (sees c s a s').bind Seen.publish = dequeues c s s' := by
  cases h : dequeues c s s' <;> cases h' : acks c s a <;> simp [sees, h, h', Seen.publish]

/-- The last of the messages with a message id. -/
def lastWith (n : UInt16) (ms : List Publish) : Option Publish :=
  (ms.filter (·.messageId = n)).getLast?

theorem lastWith_append {n : UInt16} {ms : List Publish} {o : Option Publish} :
    lastWith n (ms ++ o.toList) = (o.filter (·.messageId = n)).or (lastWith n ms) := by
  cases o with
  | none => simp [lastWith]
  | some m =>
    by_cases hm : m.messageId = n <;> simp [lastWith, List.filter_append, hm, Option.filter]

theorem dequeues_of_same (h : s'.persisting c = s.persisting c) : dequeues c s s' = none := by
  simp only [dequeues, h]
  split
  · next hnone => simp [hnone]
  · rfl

/-- Taking a message makes it outstanding, storing it changes nothing. -/
theorem Executes.outstanding {n : UInt16} (hr : Reachable env s)
    (hx : Executes env s t ch i rest nx s')
    (hcontents : ∀ n, s'.contents id (oboundMid2key n) =
      (storeCall c i).elim (s.contents id) (·.apply (s.contents id)) (oboundMid2key n)) :
    s'.outstanding c id n = (((dequeues c s s').filter (·.messageId = n)).map .publish).or
      (s.outstanding c id n) := by
  have hother : (∀ m, i ≠ .persistOutbound c m) →
      s'.contents id (oboundMid2key n) = s.contents id (oboundMid2key n) := by
    intro hi
    rw [hcontents]
    cases hcall : storeCall c i with
    | none => rfl
    | some call =>
      obtain ⟨m, -, hm⟩ | ⟨m, rfl, -⟩ := storeCall_eq_some hcall
      · exact StoreCall.apply_of_ne (persistInbound_key hm n)
      · exact absurd rfl (hi m)
  have hp := hx.persists hr (c := c)
  generalize hold : s.persisting c = o, hnew : s'.persisting c = o' at hp
  cases hp with
  | same hi =>
    rw [dequeues_of_same (hnew.trans hold.symm)]
    simp [State.outstanding, hold, hnew, hother hi]
  | @taken m hi =>
    simp [State.outstanding, dequeues, hold, hnew, hother hi]
  | @done m hi =>
    subst hi
    have hnone : dequeues c s s' = none := by simp [dequeues, hold]
    simp only [hnone, State.outstanding, hold, hnew]
    rw [hcontents]
    cases hm : m.atLeastOnce with
    | none =>
      cases hcall : persistOutbound m with
      | none => simp [storeCall, hcall, hm]
      | some call =>
        simp [storeCall, hcall, hm, StoreCall.apply_of_ne (persistOutbound_key hcall hm n)]
    | some p =>
      obtain ⟨rfl, hcall⟩ := persistOutbound_of_atLeastOnce hm
      by_cases hn : p.messageId = n
      · subst hn
        simp [storeCall, hcall, hm, Option.filter, StoreCall.apply]
      · have hkey : oboundMid2key n ≠ oboundMid2key p.messageId := by
          rw [Ne, oboundMid2key_inj]
          exact Ne.symm hn
        simp [storeCall, hcall, hm, Option.filter, hn, StoreCall.apply, hkey]

/-- The step reaches the outbound entries of the store `id` through `c` only. -/
def ThroughOnly (env : Env) (c : ConnId) (id : GoString) (s : State) (a : BrokerAction)
    (s' : State) : Prop :=
  ∀ t ch i rest nx, a = .run t ch → Executes env s t ch i rest nx s' → ∀ n,
    s'.contents id (oboundMid2key n) =
      (storeCall c i).elim (s.contents id) (·.apply (s.contents id)) (oboundMid2key n)

/-- What is outstanding after a step, by the history up to it. -/
theorem outstanding_step {a : BrokerAction} {h : List Seen} {n : UInt16} {o : Option Message}
    (hr : Reachable env s) (hstep : step env s a = some s') (honly : ThroughOnly env c id s a s')
    (hI : s.outstanding c id n = ((lastWith n (h.filterMap Seen.publish)).map .publish).or o) :
    s'.outstanding c id n = ((lastWith n ((h ++ (sees c s a s').toList).filterMap
      Seen.publish)).map .publish).or o := by
  have hone : s'.outstanding c id n =
      (((dequeues c s s').filter (·.messageId = n)).map .publish).or (s.outstanding c id n) := by
    obtain ⟨-, ⟨-, rfl⟩ | ⟨-, rfl⟩ | ⟨t, ch, i, rest, nx, rfl, hx⟩⟩ := step_cases hstep
    · have hsame := State.persisting_accept (c := c) hr
      rw [dequeues_of_same hsame, State.outstanding, hsame]
      rfl
    · have hsame : s.acceptPeer.persisting c = s.persisting c := rfl
      rw [dequeues_of_same hsame, State.outstanding, hsame]
      rfl
    · exact hx.outstanding hr (honly t ch i rest nx rfl hx)
  have hseen : (sees c s a s').toList.filterMap Seen.publish = (dequeues c s s').toList := by
    rw [← sees_publish (a := a)]
    cases sees c s a s' with
    | none => rfl
    | some e => cases h : e.publish <;> simp [h]
  rw [hone, hI, List.filterMap_append, hseen, lastWith_append]
  cases (dequeues c s s').filter (·.messageId = n) <;> simp

/-! ## A store of one's own -/

/-- The step leaves the outbound entries of the store `id` to `c`: it does not reset the
store, it is not another connection's `outboundLoop` that stores a PUBLISH there, and
`c` does not get another store. -/
def Undisturbed (c : ConnId) (id : GoString) (s : State) : BrokerAction → Bool
  | .run t _ =>
    match s.code t with
    | .storeReset d :: _ => (s.conns d).store ≠ some id
    | .persistOutbound d m :: _ => d = c || (s.conns d).store ≠ some id || m.atLeastOnce.isNone
    | .getClientStore d id' :: _ => d ≠ c || id' = id
    | _ => true
  | _ => true

theorem Undisturbed.store {a : BrokerAction} (hg : Undisturbed c id s a = true)
    (hstep : step env s a = some s') (hstore : (s.conns c).store = some id) :
    (s'.conns c).store = some id := by
  obtain ⟨-, ⟨-, rfl⟩ | ⟨-, rfl⟩ | ⟨t, ch, i, rest, nx, rfl, hx⟩⟩ := step_cases hstep
  · exact hstore
  · exact hstore
  · obtain heq | ⟨id', rfl, heq⟩ := (hx.conn c).store
    · exact heq.trans hstore
    · obtain rfl : id' = id := by simpa [Undisturbed, hx.code] using hg
      exact heq

theorem Undisturbed.throughOnly {a : BrokerAction} (hr : Reachable env s)
    (hg : Undisturbed c id s a = true) (hstore : (s.conns c).store = some id) :
    ThroughOnly env c id s a s' := by
  rintro t ch i rest nx rfl hx n
  simp only [Undisturbed, hx.code] at hg
  cases hcall : storeCall c i with
  | some call => rw [hx.contents_call hr hcall hstore, Option.elim_some]
  | none =>
    obtain hsame | ⟨d, hd, rfl | ⟨call, hcall', heq⟩⟩ := hx.contents_cases hr id
    · rw [hsame, Option.elim_none]
    · simp [hd] at hg
    · -- another connection makes a call that leaves the outbound entries alone
      rw [heq, Option.elim_none]
      refine StoreCall.apply_of_ne ?_
      obtain ⟨m, rfl, hm⟩ | ⟨m, rfl, hm⟩ := storeCall_eq_some hcall'
      · exact persistInbound_key hm n
      · have hne : d ≠ c := by
          rintro rfl
          simp [storeCall, hm] at hcall
        exact persistOutbound_key hm (by simpa [hne, hd] using hg) n

/-- The QoS 1 messages that the `outboundLoop` of `c` takes from the queue in a run. -/
def dequeued (env : Env) (c : ConnId) (s : State) (as : List BrokerAction) : List Publish :=
  (Transition.observed (step env) (sees c) s as).filterMap Seen.publish

theorem outstanding_run {s₀ : State} {as : List BrokerAction} (hr : Reachable env s₀)
    (hstore : (s₀.conns c).store = some id) (hrun : Transition.run (step env) s₀ as = some s)
    (hg : Transition.Guarded (step env) (Undisturbed c id · ·) s₀ as) (n : UInt16) :
    s.outstanding c id n = ((lastWith n (dequeued env c s₀ as)).map .publish).or
      (s₀.outstanding c id n) := by
  have hI : (s.conns c).store = some id ∧ s.outstanding c id n =
      ((lastWith n (dequeued env c s₀ as)).map .publish).or (s₀.outstanding c id n) := by
    refine hr.run_history (h := []) (I := fun h s => (s.conns c).store = some id ∧
      s.outstanding c id n = ((lastWith n (h.filterMap Seen.publish)).map .publish).or
        (s₀.outstanding c id n)) ?_ ⟨hstore, by simp [lastWith]⟩ hrun hg
    intro h s a s' hr ⟨hstore, hI⟩ hg hstep
    exact ⟨Undisturbed.store hg hstep hstore,
      outstanding_step hr hstep (Undisturbed.throughOnly hr hg hstore) hI⟩
  exact hI.2

theorem lastWith_isSome {m : Publish} {ms : List Publish} (h : m ∈ ms) :
    ∃ m', lastWith m.messageId ms = some m' := by
  refine Option.ne_none_iff_exists'.1 fun hnone => ?_
  have hmem : m ∈ ms.filter (·.messageId = m.messageId) := by simpa using h
  rw [List.getLast?_eq_none_iff.1 hnone] at hmem
  cases hmem

/-- Of the messages a connection was sent with QoS 1 since some point, its store keeps
those that no later one with the same message id has replaced. -/
theorem outbound_kept {s₀ : State} {as : List BrokerAction} {ms : List Publish}
    (hr : Reachable env s₀) (hstore : (s₀.conns c).store = some id)
    (hrun : Transition.run (step env) s₀ as = some s)
    (hg : Transition.Guarded (step env) (Undisturbed c id · ·) s₀ as)
    (hidle : s.persisting c = none) (hms : ∀ m ∈ ms, m ∈ dequeued env c s₀ as) (hdiff : ms.Nodup) :
    (∀ m ∈ ms, s.contents id (oboundMid2key m.messageId) = some (.publish m)) ∧
        (ms.map fun m => oboundMid2key m.messageId).Nodup ↔
      ∀ m ∈ ms, lastWith m.messageId (dequeued env c s₀ as) = some m := by
  have hstored : ∀ m ∈ ms, (s.contents id (oboundMid2key m.messageId) = some (.publish m) ↔
      lastWith m.messageId (dequeued env c s₀ as) = some m) := by
    intro m hm
    obtain ⟨m', hm'⟩ := lastWith_isSome (hms m hm)
    have hout := outstanding_run hr hstore hrun hg m.messageId
    simp only [State.outstanding, hidle, hm'] at hout
    simpa [hm'] using congrArg (· = some (.publish m)) hout
  constructor
  · rintro ⟨h, -⟩ m hm
    exact (hstored m hm).1 (h m hm)
  · intro h
    have hall : ∀ m ∈ ms, s.contents id (oboundMid2key m.messageId) = some (.publish m) :=
      fun m hm => (hstored m hm).2 (h m hm)
    refine ⟨hall, List.Nodup.map_on ?_ hdiff⟩
    intro a ha b hb heq
    have hsame := hall a ha
    rw [heq, hall b hb] at hsame
    cases hsame
    rfl

/-- Client `0` subscribes. -/
def subscriberRun : List BrokerAction :=
  .accept :: sends 0 (.connect (.named (str "s"))) 9 ++
    sends 0 (.subscribe ⟨1, [(str "t", .atLeastOnce)]⟩) 7

/-- Clients `1` and `2` publish, each under a message id of its own choice, and client `0`
is sent both. -/
def publishersRun (a b : UInt16) : List BrokerAction :=
  .accept :: sends 1 (.connect (.named (str "p"))) 9 ++
    .accept :: sends 2 (.connect (.named (str "q"))) 9 ++
    sends 1 (.publish false ⟨0, .atLeastOnce, str "t", a, [1]⟩) 7 ++
    sends 2 (.publish false ⟨0, .atLeastOnce, str "t", b, [2]⟩) 7 ++
    List.replicate 14 (.run (.worker 0) .go) ++
    sendsNext 0 ++ sendsNext 0 ++ sendsNext 0 ++ sendsNext 0

/-- The PUBLISH of client `1`, and that of client `2`. -/
def fromOne (n : UInt16) : Publish := ⟨4, .atLeastOnce, str "t", n, [1]⟩
def fromTwo (n : UInt16) : Publish := ⟨5, .atLeastOnce, str "t", n, [2]⟩

theorem outbound_kept_publishersRun :
    ∃ s₀ s, Transition.run (step doublesEnv) (init doublesEnv) subscriberRun = some s₀ ∧
      Transition.run (step doublesEnv) s₀ (publishersRun 7 8) = some s ∧
      dequeued doublesEnv 0 s₀ (publishersRun 7 8) = [fromOne 7, fromTwo 8] ∧
      s.contents (str "s") (oboundMid2key 7) = some (.publish (fromOne 7)) ∧
      s.contents (str "s") (oboundMid2key 8) = some (.publish (fromTwo 8)) := by
  have hrun : (Transition.run (step doublesEnv) (init doublesEnv) subscriberRun).map (fun s₀ =>
      decide ((s₀.conns 0).store = some (str "s") ∧
        Transition.Guarded (step doublesEnv) (Undisturbed 0 (str "s") · ·) s₀ (publishersRun 7 8) ∧
        dequeued doublesEnv 0 s₀ (publishersRun 7 8) = [fromOne 7, fromTwo 8] ∧
        (Transition.run (step doublesEnv) s₀ (publishersRun 7 8)).map (·.persisting 0) =
          some none)) = some true := by decide +kernel
  obtain ⟨s₀, hs₀, hdec⟩ := Option.map_eq_some_iff.1 hrun
  obtain ⟨hstore, hg, hdequeued, hmap⟩ := of_decide_eq_true hdec
  obtain ⟨s, hs, hidle⟩ := Option.map_eq_some_iff.1 hmap
  have hsent : ∀ m ∈ [fromOne 7, fromTwo 8], m ∈ dequeued doublesEnv 0 s₀ (publishersRun 7 8) := by
    simp [hdequeued]
  have hkept := outbound_kept ⟨_, hs₀⟩ hstore hs hg hidle hsent (by decide)
  obtain ⟨hall, -⟩ := hkept.2 (by rw [hdequeued]; decide +kernel)
  exact ⟨s₀, s, hs₀, hs, hdequeued, hall (fromOne 7) (by simp), hall (fromTwo 8) (by simp)⟩

/-- Two publishers choose the same message id. Of the two messages, neither of which was
acknowledged, the store of the subscriber keeps the second one. -/
theorem outbound_overwritten :
    ∃ s, Transition.run (step doublesEnv) (init doublesEnv) (subscriberRun ++ publishersRun 7 7) =
        some s ∧
      Transition.observed (step doublesEnv) (sees 0) (init doublesEnv)
        (subscriberRun ++ publishersRun 7 7) = [.dequeued (fromOne 7), .dequeued (fromTwo 7)] ∧
      fromOne 7 ≠ fromTwo 7 ∧ (s.conns 0).store = some (str "s") ∧ s.persisting 0 = none ∧
      ∀ key, s.contents (str "s") key ≠ some (.publish (fromOne 7)) := by
  have hrun : (Transition.run (step doublesEnv) (init doublesEnv)
      (subscriberRun ++ publishersRun 7 7)).map (fun s =>
        decide ((s.conns 0).store = some (str "s") ∧ s.persisting 0 = none ∧
          s.contents (str "s") (oboundMid2key 7) = some (.publish (fromTwo 7)) ∧
          s.contents (str "s") (iboundMid2key 7) = none)) = some true := by decide +kernel
  have hseen : Transition.observed (step doublesEnv) (sees 0) (init doublesEnv)
      (subscriberRun ++ publishersRun 7 7) = [.dequeued (fromOne 7), .dequeued (fromTwo 7)] := by
    decide +kernel
  obtain ⟨s, hs, hdec⟩ := Option.map_eq_some_iff.1 hrun
  obtain ⟨hstore, hidle, hout, hin⟩ := of_decide_eq_true hdec
  refine ⟨s, hs, hseen, by decide, hstore, hidle, fun key hkey => ?_⟩
  -- a PUBLISH is only ever stored under the two keys of its message id
  obtain ⟨store, hstores, hget⟩ := Option.bind_eq_some_iff.1 hkey
  obtain ⟨p, hp, -, rfl | rfl⟩ := Reachable.kept ⟨_, hs⟩ hstores key _ hget
  · cases hp
    exact absurd (hin.symm.trans hkey) (by simp)
  · cases hp
    exact absurd (hout.symm.trans hkey) (by decide +kernel)
