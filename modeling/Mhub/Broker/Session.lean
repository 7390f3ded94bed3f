-- SUMMARY: Which instructions rely on the flag or the store of a connection, and in which runs they find it there.
import Mhub.Broker.Limit

/-!
# Missing sessions

The `flag` and the `store` of a connection are nil until `doConnect` sets them, and
nothing makes a client send CONNECT first. `ConnectFirst` says which messages rely
on it: PUBLISH and SUBSCRIBE, and with presence enabled also the end of the input.

In a run of clients that keep to this, `sessionOutline` checks the code of
`inboundLoop` against what is set by then. The other goroutines reach the store of a
connection through its job queue, and the workers through the index. As long as
there is no store, nothing leads there (`State.Apart`).
-/

variable {env : Env} {s s' : State} {t : Tid} {ch : Choice} {i j : Instr} {rest : List Instr}
  {nx : Next} {c : ConnId} {cf : BrokerConfig}

/-! ## What relies on a session -/

/-- The instruction, or the deferred function it leads to, reads the flag of `c`. -/
def needsFlag (cf : BrokerConfig) (c : ConnId) : Instr → Bool
  | .connectLimit c' _ _ | .addOrTakeOver c' | .add c' | .authorized c' => c' = c
  | .connectReturn c' _ | .inboundReturn c' | .onTerminate c' => c' = c && cf.enablePresence
  | _ => false

/-- The instruction, or what comes of it, calls the store of `c`. A message queued
for `c` comes to `persistOutbound`, and a subscriber gets any message. -/
def needsStore (c : ConnId) : Instr → Bool
  | .submit c' m | .submitSync c' m | .persistOutbound c' m =>
    c' = c && (persistOutbound m).isSome
  | .send c' j | .trySend c' j => c' = c && (persistOutbound j.m).isSome
  | .storeReset c' | .storeAll c' | .redeliver c' _ | .subsAdd c' _ | .sendRetain c' _ => c' = c
  | .persistInbound c' m => c' = c && (persistInbound (.publish m)).isSome
  | _ => false

theorem needsFlag_of_readsFlag (h : readsFlag cf c i = true) : needsFlag cf c i = true := by
  cases i <;> first | exact h | cases h

theorem needsStore_of_callsStore (h : callsStore c i = true) : needsStore c i = true := by
  cases i <;> first | exact h | cases h

theorem home_of_readsFlag (h : readsFlag cf c i = true) : i.home = some (.inbound c) := by
  cases i <;> simp_all [readsFlag, Instr.home]

theorem brings_needsFlag (hj : needsFlag cf c j = true) (h : i.brings j = true) :
    needsFlag cf c i = true ∨ i = .inboundLoop c ∨ ∃ m, i = .connectValidate c m := by
  cases Instr.brings_cases h with
  | inboundReturn | authorized =>
    simp only [needsFlag, Bool.and_eq_true, decide_eq_true_eq] at hj
    simp [hj]
  | connectLimit => exact .inr (.inr ⟨_, by rw [of_decide_eq_true hj]⟩)
  | addOrTakeOver | add | connectReturn =>
    simp only [needsFlag, Bool.and_eq_true, decide_eq_true_eq] at hj
    simp [needsFlag, hj]
  | onTerminate hi => obtain rfl | ⟨rc, rfl⟩ := hi <;> exact .inl hj
  | _ => cases hj

theorem brings_needsStore (hj : needsStore c j = true) (h : i.brings j = true) :
    needsStore c i = true ∨ i = .inboundLoop c ∨ (∃ m rc, i = .connectLimit c m rc) ∨
      (∃ m m' sl k, i = .deliver m sl k ∧ j = .submit c m') ∨
      ∃ m, i = .outboundLoop c ∧ j = .persistOutbound c m := by
  cases Instr.brings_cases h with
  | send | trySend | sendSync | redeliver => exact .inl hj
  | resend | retained =>
    simp only [needsStore, Bool.and_eq_true] at hj
    exact .inl hj.1
  | persistInbound | subsAdd | sendRetain | answer | storeAll | storeReset | connAck |
    persistOutbound | delivery =>
    simp only [needsStore, Bool.and_eq_true, decide_eq_true_eq] at hj
    simp [hj]
  | takeOver | overIdle => simp [needsStore, persistOutbound] at hj
  | _ => cases hj

/-! ## Clients that connect first -/

/-- Handling the message relies on a session. -/
def Packet.needsSession (cf : BrokerConfig) : Packet → Bool
  | .publish .. | .subscribe _ => true
  | .disconnect | .other => cf.enablePresence
  | _ => false

/-- A CONNECT was received on `c`. -/
def State.sawConnect (s : State) (c : ConnId) : Bool :=
  s.trace.any fun
    | .received c' (.connect _) => c' = c
    | _ => false

/-- If the step reads from the client of `c` something that relies on a session, a
CONNECT came before. -/
def ConnectFirst (env : Env) (c : ConnId) (s : State) : BrokerAction → Bool
  | .run t ch =>
    match s.code t, ch with
    | .inboundLoop c' :: _, .recv p => c' ≠ c || s.sawConnect c || !p.needsSession env.cf
    | .inboundLoop c' :: _, .recvErr => c' ≠ c || s.sawConnect c || !env.cf.enablePresence
    | _, _ => true
  | _ => true

theorem needsSession_at {p : Packet} {obj : Nat} :
    (p.at obj).needsSession cf = p.needsSession cf := by
  cases p <;> rfl

theorem handle_needs {p : Packet} (hp : p.needsSession cf = false) (hj : j ∈ handle c p) :
    needsFlag cf c j = false ∧ needsStore c j = false := by
  cases p with
  | publish | subscribe => cases hp
  | connect m =>
    obtain rfl := List.mem_singleton.1 hj
    exact ⟨rfl, rfl⟩
  | pubAck m => cases hj
  | pingReq =>
    obtain rfl := List.mem_singleton.1 hj
    exact ⟨rfl, by simp [needsStore, persistOutbound]⟩
  | unsubscribe m =>
    simp only [handle, doUnsubscribe, List.mem_append, List.mem_flatMap, List.mem_cons,
      List.not_mem_nil, or_false] at hj
    obtain ⟨topic, -, rfl | rfl⟩ | rfl := hj
    all_goals exact ⟨rfl, by simp [needsStore, persistOutbound]⟩
  | disconnect | other =>
    obtain rfl := List.mem_singleton.1 hj
    simp only [Packet.needsSession] at hp
    exact ⟨by simp [needsFlag, hp], rfl⟩

theorem Executes.sawConnect (hx : Executes env s t ch i rest nx s') (hi : i ≠ .inboundLoop c) :
    s'.sawConnect c = s.sawConnect c := by
  obtain htr | ⟨e, htr, hlog⟩ := hx.trace
  · simp [State.sawConnect, htr]
  · simp only [State.sawConnect, htr, List.any_append, List.any_cons, List.any_nil, Bool.or_false]
    cases e with
    | received c' p =>
      have hne : c' ≠ c := fun h => hi (h ▸ hlog)
      cases p <;> simp [hne]
    | _ => simp

/-! ## The code of `inboundLoop` -/

/-- Whether the flag and the store of `c` are set. -/
def State.session (s : State) (c : ConnId) : Prop × Prop :=
  ((s.conns c).flag ≠ none, (s.conns c).store ≠ none)

/-- What is known is whether the flag and the store are set. Back in the loop, both
are if a CONNECT was received (`saw`). -/
def sessionOutline (cf : BrokerConfig) (c : ConnId) (saw : Prop) :
    Outline Instr (Prop × Prop) where
  pre i a := (needsFlag cf c i = true → a.1) ∧ (needsStore c i = true → a.2) ∧
    (i = .inboundLoop c → saw → a.1 ∧ a.2)
  post i a :=
    (a.1 ∨ ∃ m, i = .connectValidate c m,
      a.2 ∨ (∃ m, i = .connectValidate c m) ∨ (∃ m rc, i = .connectLimit c m rc) ∨
        ∃ id, i = .getClientStore c id)
  pre_mono h hpre :=
    ⟨fun hi => h.1 (hpre.1 hi), fun hi => h.2 (hpre.2.1 hi),
      fun hi hsaw => ⟨h.1 (hpre.2.2 hi hsaw).1, h.2 (hpre.2.2 hi hsaw).2⟩⟩
  post_mono h := ⟨Or.imp_left h.1, Or.imp_left h.2⟩
  le_post := ⟨.inl, .inl⟩

variable {saw : Prop} {a b : Prop × Prop}

theorem Executes.session_mono (hx : Executes env s t ch i rest nx s') :
    s.session c ≤ s'.session c := by
  refine ⟨?_, ?_⟩
  · intro hset
    obtain h | ⟨m, -, h⟩ := (hx.conn c).flag
    · simpa [State.session, h] using hset
    · simp [State.session, h]
  · intro hset
    obtain h | ⟨id, -, h⟩ := (hx.conn c).store
    · simpa [State.session, h] using hset
    · simp [State.session, h]

/-- `connectValidate` sets the flag. -/
theorem Executes.flag_set {m : Connect}
    (hx : Executes env s t ch (.connectValidate c m) rest nx s') :
    (s'.conns c).flag = some m ∧ nx = .push [.connectLimit c m (validate env.cf m)] := by
  obtain ⟨-, s₁, hexec, rfl⟩ := hx
  cases hexec
  exact ⟨by simp [State.modConn, State.setCode], rfl⟩

theorem Executes.store_set {id : GoString}
    (hx : Executes env s t ch (.getClientStore c id) rest nx s') :
    (s'.conns c).store = some id := by
  obtain ⟨-, s₁, hexec, rfl⟩ := hx
  cases hexec
  simp [State.getClientStore, State.modConn, State.setCode]

/-- `doConnect` past its checks needs the flag, and gets the store before it uses
it. -/
theorem sessionOutline_connectBody {m : Connect} {rc : ReturnCode} (hflag : a.1) :
    (sessionOutline cf c saw).Ok a (connectBody cf c m rc) ∧
      ((sessionOutline cf c saw).after a (connectBody cf c m rc)).2 := by
  simp only [connectBody]
  split <;> split <;> split <;>
    simp [Outline.Ok, Outline.after, sessionOutline, needsFlag, needsStore, persistOutbound, hflag]

/-- What follows an instruction of a handler finds what it needs. -/
theorem sessionOutline_follows (hf : Follows env i nx) (hi : i.inHandler c = true)
    (hpre : (sessionOutline env.cf c saw).pre i a) (hab : a ≤ b)
    (hflag : ∀ m, i = .connectValidate c m → b.1) :
    (sessionOutline env.cf c saw).Ok b nx.instrs := by
  by_cases hlimit : ∃ m rc, i = .connectLimit c m rc
  · obtain ⟨m, rc, rfl⟩ := hlimit
    cases hf with
    | falls h => cases h
    | limited n =>
      exact (sessionOutline_connectBody (hab.1 (hpre.1 (by simp [needsFlag])))).1
  · refine Outline.ok_of_pre fun j hj => ?_
    have hbrings := hf.brings hj
    refine ⟨?_, ?_, ?_⟩
    · intro hneeds
      obtain h | rfl | ⟨m, rfl⟩ := brings_needsFlag hneeds hbrings
      · exact hab.1 (hpre.1 h)
      · cases hi
      · exact hflag m rfl
    · intro hneeds
      obtain h | rfl | ⟨m, rc, rfl⟩ | ⟨m, m', sl, k, rfl, -⟩ | ⟨m, rfl, -⟩ :=
        brings_needsStore hneeds hbrings
      · exact hab.2 (hpre.2.1 h)
      · cases hi
      · exact absurd ⟨m, rc, rfl⟩ hlimit
      · cases hi
      · cases hi
    · intro hloop
      subst hloop
      cases Instr.brings_cases hbrings with
      | inboundLoop => cases hi

/-- What an instruction of a handler promises is there, or will be. -/
theorem sessionOutline_post (hx : Executes env s t ch i rest nx s') :
    (sessionOutline env.cf c saw).post i (s.session c) ≤
      (sessionOutline env.cf c saw).after (s'.session c) nx.instrs := by
  have hlater : s'.session c ≤ (sessionOutline env.cf c saw).after (s'.session c) nx.instrs :=
    Outline.le_after _
  refine ⟨?_, ?_⟩
  · rintro (h | ⟨m, rfl⟩)
    · exact hlater.1 (hx.session_mono.1 h)
    · exact hlater.1 (by simp [State.session, hx.flag_set.1])
  · rintro (h | ⟨m, rfl⟩ | ⟨m, rc, rfl⟩ | ⟨id, rfl⟩)
    · exact hlater.2 (hx.session_mono.2 h)
    · obtain ⟨-, rfl⟩ := hx.flag_set
      simp [Next.instrs, Outline.after, sessionOutline]
    · have hf := hx.follows
      cases hf with
      | falls h => cases h
      | limited n =>
        simp only [connectBody, Next.instrs]
        split <;> split <;> split <;> simp [Outline.after, sessionOutline]
    · exact hlater.2 (by simp [State.session, hx.store_set])

/-- A client that connects first leaves `inboundLoop` with code that finds what it
needs. -/
theorem sessionOutline_inboundLoop
    (hpre : (sessionOutline env.cf c (s.sawConnect c = true)).pre (.inboundLoop c) (s.session c))
    (hfirst : ConnectFirst env c s (.run t ch) = true)
    (hx : Executes env s t ch (.inboundLoop c) rest nx s') :
    (sessionOutline env.cf c (s'.sawConnect c = true)).Ok (s'.session c) nx.instrs := by
  cases hsaw : s.sawConnect c with
  | true =>
    -- both are set, whatever was read
    obtain ⟨hflag, hstore⟩ := hpre.2.2 rfl hsaw
    refine Outline.ok_of_pre fun j _ => ⟨fun _ => ?_, fun _ => ?_, fun _ _ => ⟨?_, ?_⟩⟩
    · exact hx.session_mono.1 hflag
    · exact hx.session_mono.2 hstore
    · exact hx.session_mono.1 hflag
    · exact hx.session_mono.2 hstore
  | false =>
    obtain ⟨p, rfl, rfl, htr⟩ | ⟨rfl, rfl⟩ := hx.inboundLoop
    · have hneeds : p.needsSession env.cf = false := by
        simpa [ConnectFirst, hx.code, hsaw] using hfirst
      replace hneeds : (p.at s.nextObj).needsSession env.cf = false := needsSession_at.trans hneeds
      by_cases hconn : ∃ m, p.at s.nextObj = .connect m
      · obtain ⟨m, hm⟩ := hconn
        simp [hm, handle, doConnect, Next.instrs, Outline.Ok, sessionOutline, needsFlag, needsStore]
      · have hsaw' : s'.sawConnect c = false := by
          simp only [State.sawConnect] at hsaw ⊢
          rw [htr, List.any_append, hsaw]
          cases hp : p.at s.nextObj <;> simp_all
        refine Outline.ok_of_pre fun j hj => ⟨?_, ?_, ?_⟩
        · obtain hj | hj := List.mem_append.1 hj
          · simp [(handle_needs hneeds hj).1]
          · simp [List.mem_singleton.1 hj, needsFlag]
        · obtain hj | hj := List.mem_append.1 hj
          · simp [(handle_needs hneeds hj).2]
          · simp [List.mem_singleton.1 hj, needsStore]
        · simp [hsaw']
    · have hpres : env.cf.enablePresence = false := by
        simpa [ConnectFirst, hx.code, hsaw] using hfirst
      have hsaw' : s'.sawConnect c = false := by
        obtain ⟨-, s₁, hexec, rfl⟩ := hx
        cases hexec
        exact hsaw
      simp [Next.instrs, Outline.Ok, sessionOutline, needsFlag, needsStore, hpres, hsaw']

theorem sessionOutline_executes (hr : Reachable env s)
    (hok : (sessionOutline env.cf c (s.sawConnect c = true)).Ok (s.session c) (s.code (.inbound c)))
    (hfirst : ConnectFirst env c s (.run t ch) = true)
    (hx : Executes env s t ch i rest nx s') :
    (sessionOutline env.cf c (s'.sawConnect c = true)).Ok (s'.session c)
      (s'.code (.inbound c)) := by
  by_cases hloop : i = .inboundLoop c
  · subst hloop
    obtain rfl := hx.home hr rfl
    have hshape := hr.shaped (.inbound c)
    rw [hx.code] at hok hshape
    obtain rfl := hshape.rest_of_loop
    have hnew := sessionOutline_inboundLoop hok.1 hfirst hx
    rw [hx.code_self]
    cases nx with
    | push is => simpa [Next.apply, Next.instrs] using hnew
    | jump is => exact hnew
  · rw [hx.sawConnect hloop]
    refine hx.outline hok hx.session_mono fun ht => ⟨?_, sessionOutline_post hx⟩
    subst ht
    have hshape := hr.shaped (.inbound c)
    rw [hx.code] at hok hshape
    obtain h | hi | hdefer := hshape.inbound
    · exact absurd h hloop
    · refine sessionOutline_follows hx.follows hi hok.1 hx.session_mono ?_
      intro m hm
      subst hm
      simp [State.session, hx.flag_set.1]
    · obtain rfl := follows_of_mem_inboundDefer hdefer hx.follows
      trivial

/-! ## The other goroutines -/

/-- Nothing outside `inboundLoop` leads to the store of `c`. -/
structure State.Apart (s : State) (c : ConnId) : Prop where
  code : ∀ t, t ≠ .inbound c → ∀ i ∈ s.code t, needsStore c i = false
  jobs : ∀ j ∈ (s.conns c).jobs, persistOutbound j.m = none
  index : ¬ s.subs.Mentions c

/-- A worker submits to the connections of the index. -/
theorem Executes.deliver_mentions {m : Publish} {m' : Message} {sl : Slice} {k : Nat}
    (hx : Executes env s t ch (.deliver m sl k) rest nx s') (h : .submit c m' ∈ nx.instrs) :
    s.subs.Mentions c := by
  obtain ⟨-, s₁, hexec, -⟩ := hx
  simp only [exec] at hexec
  split at hexec <;> cases hexec
  · cases hentry : (s.subs.heap.contents sl)[k]?.join with
    | none => simp [hentry, Next.instrs, submitEntry] at h
    | some c' =>
      obtain ⟨rfl, -⟩ : c = c' ∧ m' = .publish m := by
        simpa [hentry, Next.instrs, submitEntry] using h
      rw [Option.join_eq_some_iff] at hentry
      exact .inl (Heap.holds_of_mem_contents (List.mem_of_getElem? hentry))
  · cases h

/-- `outboundLoop` takes what it persists from the job queue. -/
theorem Executes.outboundLoop_jobs {m : Message}
    (hx : Executes env s t ch (.outboundLoop c) rest nx s') (h : .persistOutbound c m ∈ nx.instrs) :
    ∃ j ∈ (s.conns c).jobs, j.m = m := by
  obtain ⟨-, s₁, hexec, -⟩ := hx
  simp only [exec] at hexec
  repeat' split at hexec
  all_goals cases hexec
  all_goals simp [Next.instrs, handleJob, outboundDefer] at h
  rename_i j js hjobs
  exact ⟨j, by simp [hjobs], h.symm⟩

/-- A step that does not lead to the store itself leaves nothing behind that does. -/
theorem State.Apart.executes (hr : Reachable env s) (h : s.Apart c)
    (hx : Executes env s t ch i rest nx s') (hi : needsStore c i = false) : s'.Apart c := by
  refine ⟨?_, ?_, ?_⟩
  · intro t' ht' j hj
    by_contra hneeds
    have hneeds : needsStore c j = true := by simpa using hneeds
    by_cases htt : t' = t
    · subst htt
      rw [hx.code_self] at hj
      obtain hj | hj := Next.mem_apply hj
      · obtain h' | rfl | ⟨m, rc, rfl⟩ | ⟨m, m', sl, k, rfl, rfl⟩ | ⟨m, rfl, rfl⟩ :=
          brings_needsStore hneeds (hx.follows.brings hj)
        · simp [hi] at h'
        · exact ht' (hx.home hr rfl)
        · exact ht' (hx.home hr rfl)
        · exact h.index (hx.deliver_mentions hj)
        · obtain ⟨j, hmem, rfl⟩ := hx.outboundLoop_jobs hj
          simp [needsStore, h.jobs j hmem] at hneeds
      · have hold := h.code t' ht' j (by rw [hx.code]; exact List.mem_cons_of_mem _ hj)
        simp [hold] at hneeds
    · have htouch := hx.touch htt
      generalize hl : s.code t' = l, hl' : s'.code t' = l' at htouch
      rw [hl'] at hj
      have hold : j ∉ l := by
        intro hmem
        simp [h.code t' ht' j (hl ▸ hmem)] at hneeds
      cases htouch with
      | same => exact hold hj
      | @job c' j' rest' hsend =>
        simp only [handleJob, List.cons_append, List.nil_append, List.mem_cons] at hj hold
        obtain rfl | rfl | hj := hj
        · obtain rfl | rfl := hsend <;> cases hi.symm.trans hneeds
        · cases hneeds
        · exact hold hj
      | post _ =>
        simp only [List.cons_append, List.nil_append, List.mem_cons] at hj hold
        obtain rfl | hj := hj
        · cases hneeds
        · exact hold hj
      | heartbeat _ =>
        obtain rfl := List.mem_singleton.1 hj
        cases hneeds
  · intro j hj
    obtain heq | ⟨j', hsend, heq⟩ | ⟨-, j', heq⟩ := (hx.conn c).jobs
    · exact h.jobs j (heq ▸ hj)
    · rw [heq, List.mem_append, List.mem_singleton] at hj
      obtain hj | rfl := hj
      · exact h.jobs j hj
      · by_contra hne
        have hsome : (persistOutbound j.m).isSome = true := Option.isSome_iff_ne_none.2 hne
        obtain rfl | rfl := hsend <;> simp [needsStore, hsome] at hi
    · exact h.jobs j (by rw [heq]; exact List.mem_cons_of_mem _ hj)
  · intro hm
    obtain hm | ⟨topic, rfl⟩ := hx.mentions hm
    · exact h.index hm
    · simp [needsStore] at hi

theorem loop_needsStore : needsStore c t.loop = false := by
  cases t <;> rfl

theorem State.Apart.accept (h : s.Apart c) : s.accept.Apart c := by
  refine ⟨fun t ht i hi => ?_, h.jobs, h.index⟩
  obtain hi | rfl := State.mem_code_accept hi
  · exact h.code t ht i hi
  · exact loop_needsStore

theorem State.Apart.acceptPeer (h : s.Apart c) : s.acceptPeer.Apart c := by
  refine ⟨fun t ht i hi => ?_, h.jobs, h.index⟩
  obtain hi | rfl := State.mem_code_acceptPeer hi
  · exact h.code t ht i hi
  · exact loop_needsStore

theorem apart_init : (init env).Apart c := by
  refine ⟨fun t _ i hi => ?_, nofun, Subscriptions.not_mentions_empty c⟩
  cases t with
  | worker w =>
    simp only [init] at hi
    split at hi
    · obtain rfl := List.mem_singleton.1 hi
      rfl
    · cases hi
  | _ => cases hi

/-! ## No handler misses its session -/

structure SessionInv (env : Env) (c : ConnId) (s : State) : Prop where
  own : (sessionOutline env.cf c (s.sawConnect c = true)).Ok (s.session c) (s.code (.inbound c))
  others : (s.conns c).store = none → s.Apart c
  noPanic : s.panicked ≠ some (.nilDeref c)

/-- Whoever executes an instruction that leads to the store finds one. -/
theorem SessionInv.finds_store (hI : SessionInv env c s) (hx : Executes env s t ch i rest nx s')
    (hstore : (s.conns c).store = none) : needsStore c i = false := by
  by_contra hneeds
  have hneeds : needsStore c i = true := by simpa using hneeds
  by_cases ht : t = .inbound c
  · subst ht
    have hok := hI.own
    rw [hx.code] at hok
    exact hok.1.2.1 hneeds hstore
  · have hapart := (hI.others hstore).code t ht i (by rw [hx.code]; exact List.mem_cons_self ..)
    simp [hapart] at hneeds

theorem SessionInv.executes (hr : Reachable env s) (hI : SessionInv env c s)
    (hfirst : ConnectFirst env c s (.run t ch) = true)
    (hx : Executes env s t ch i rest nx s') : SessionInv env c s' := by
  refine ⟨sessionOutline_executes hr hI.own hfirst hx, ?_, ?_⟩
  · intro hnone
    have hstore : (s.conns c).store = none := by
      obtain h | ⟨id, -, h⟩ := (hx.conn c).store <;> rw [h] at hnone
      · exact hnone
      · cases hnone
    exact (hI.others hstore).executes hr hx (hI.finds_store hx hstore)
  · obtain h | ⟨p, h, hraise⟩ := hx.panicked <;> rw [h]
    · exact hI.noPanic
    · intro heq
      cases heq
      obtain ⟨hreads, hflag⟩ | ⟨hcalls, hstore⟩ := hraise
      · obtain rfl := hx.home hr (home_of_readsFlag hreads)
        have hok := hI.own
        rw [hx.code] at hok
        exact hok.1.1 (needsFlag_of_readsFlag hreads) hflag
      · have hneeds := hI.finds_store hx hstore
        rw [needsStore_of_callsStore hcalls] at hneeds
        cases hneeds

theorem State.sawConnect_received (h : s.sawConnect c = true) :
    ∃ m, .received c (.connect m) ∈ s.trace := by
  obtain ⟨e, he, hc⟩ := List.any_eq_true.1 h
  split at hc
  · next c' m => exact ⟨m, of_decide_eq_true hc ▸ he⟩
  · cases hc

theorem SessionInv.accept (hr : Reachable env s) (hI : SessionInv env c s) :
    SessionInv env c s.accept := by
  have hsaw : s.accept.sawConnect c = s.sawConnect c := by
    simp [State.sawConnect, State.accept, State.log, State.setCode]
  refine ⟨?_, fun hstore => (hI.others hstore).accept, hI.noPanic⟩
  rw [hsaw]
  refine State.accept_outline hI.own fun hc => ⟨by rintro ⟨⟩, by rintro ⟨⟩, fun _ h => ?_⟩
  -- nothing was received yet on a new connection
  obtain ⟨m, hm⟩ := State.sawConnect_received h
  exact absurd ((hr.lifecycle c).received _ hm) (by simp [hc])

theorem SessionInv.acceptPeer (hI : SessionInv env c s) : SessionInv env c s.acceptPeer :=
  ⟨hI.own, fun hstore => (hI.others hstore).acceptPeer, hI.noPanic⟩

theorem sessionInv_init : SessionInv env c (init env) where
  own := by trivial
  others _ := apart_init
  noPanic h := by cases h

/-- The flag and the store of `c` are never used while they are nil, in a run in
which the client of `c` connects before it sends what relies on a session. -/
theorem no_nil_deref {as : List BrokerAction}
    (hrun : Transition.run (step env) (init env) as = some s)
    (hfirst : Transition.Guarded (step env) (ConnectFirst env c · ·) (init env) as) :
    s.panicked ≠ some (.nilDeref c) := by
  have hI : SessionInv env c s := by
    refine Transition.run_invariant ?_ sessionInv_init hrun hfirst
    intro s a s' hr hI hG hstep
    obtain ⟨-, ⟨-, rfl⟩ | ⟨-, rfl⟩ | ⟨t, ch, i, rest, nx, rfl, hx⟩⟩ := step_cases hstep
    · exact hI.accept hr
    · exact hI.acceptPeer
    · exact hI.executes hr hG hx
  exact hI.noPanic

/-- A QoS 1 message. -/
def firstPublish : Publish := ⟨0, .atLeastOnce, str "t", 1, str "x"⟩

/-- A client connects, publishes, and goes away. -/
def sessionRun : List BrokerAction :=
  .accept :: .run (.inbound 0) (.recv (.connect (.named (str "a")))) ::
    List.replicate 9 (.run (.inbound 0) .go) ++
  .run (.inbound 0) (.recv (.publish false firstPublish)) ::
    .run (.inbound 0) (.pour true) :: List.replicate 6 (.run (.inbound 0) .go) ++
  .run (.inbound 0) .recvErr :: List.replicate 7 (.run (.inbound 0) .go)

theorem no_nil_deref_sessionRun :
    ∃ s, Transition.run (step presenceEnv) (init presenceEnv) sessionRun = some s ∧
      s.code (.inbound 0) = [] ∧ s.panicked ≠ some (.nilDeref 0) := by
  have heval : (Transition.run (step presenceEnv) (init presenceEnv) sessionRun).map
      (fun s => s.code (.inbound 0)) = some [] := by decide +kernel
  obtain ⟨s, hrun, hcode⟩ := Option.map_eq_some_iff.1 heval
  exact ⟨s, hrun, hcode, no_nil_deref hrun (by decide +kernel)⟩

/-- A PUBLISH as first message: `doPublish` asks who the client is. -/
theorem nil_deref :
    (Transition.run (step presenceEnv) (init presenceEnv)
      [.accept, .run (.inbound 0) (.recv (.publish false firstPublish)),
        .run (.inbound 0) (.pour true), .run (.inbound 0) .go]).map (·.panicked) =
    some (some (.nilDeref 0)) := by
  decide +kernel
