-- SUMMARY: A connection that has its client id for itself: the phases of its session, and who can reach its store in each of them.
import Mhub.Broker.Answers
import Mhub.Broker.Registry
import Mhub.Broker.Session

/-!
# Sole users of a client id

A client that connects once, with CleanSession set and before it sends anything else,
and whose client id nobody else uses, has its session store for itself. Its session
goes through three phases: nothing was received yet, `doConnect` is on its way to the
reset of the store, and the store is its own (`Sole`). Until the reset nothing leads to
the store, so it is empty then. From that on it changes by the calls of `doPublish` and
`outboundLoop` of this connection, and by nothing else (`Sole.contents`).
-/

variable {env : Env} {s s' : State} {t : Tid} {ch : Choice} {i j : Instr} {rest : List Instr}
  {nx : Next} {c : ConnId} {id : GoString}

/-- If the step reads from the client of `c`, it reads its only CONNECT first, with
CleanSession and the client id `id`; if it reads a CONNECT of another client, that has
another client id. -/
def SoleUser (c : ConnId) (id : GoString) (s : State) : BrokerAction → Bool
  | .run t (.recv p) =>
    match s.code t, p with
    | .inboundLoop d :: _, .connect m =>
      if d = c then (s.requests c).isEmpty && m.cleanSession && m.clientId = id
      else m.clientId ≠ id
    | .inboundLoop d :: _, _ => d ≠ c || !(s.requests c).isEmpty
    | _, _ => true
  | _ => true

/-! ## The way to the store -/

/-- The client id with which an instruction goes for a store. -/
def Instr.opens : Instr → Option GoString
  | .connectValidate _ m | .connectLimit _ m _ => some m.clientId
  | .getClientStore _ id => some id
  | _ => none

theorem follows_opens (hf : Follows env i nx) (hj : j ∈ nx.instrs) (ho : j.opens = some id) :
    i.opens = some id ∨ ∃ d m, i = .inboundLoop d ∧ m.clientId = id ∧
      nx = .push (handle d (.connect m) ++ [Instr.inboundLoop d]) := by
  have hb := hf.brings hj
  cases j <;> simp only [Instr.opens, reduceCtorEq, Option.some.injEq] at ho
  case connectValidate d m =>
    obtain rfl := brings_connectValidate hb
    cases hf with
    | falls h => cases h
    | recvErr => simp [Next.instrs] at hj
    | recv p =>
      have hp : p = .connect m := mem_handle_connectValidate (by simpa [Next.instrs] using hj)
      exact .inr ⟨d, m, rfl, ho, by rw [hp]⟩
  case connectLimit d m rc =>
    obtain rfl := brings_connectLimit hb
    exact .inl (congrArg some ho)
  case getClientStore d id' =>
    have hi : ∃ m rc, i = .connectLimit d m rc := by
      cases Instr.brings_cases hb with
      | getClientStore => exact ⟨_, _, rfl⟩
    obtain ⟨m, rc, rfl⟩ := hi
    refine .inl ?_
    cases hf with
    | falls h => cases h
    | limited n =>
      simp only [Next.instrs, connectBody] at hj
      split at hj <;> split at hj <;> split at hj <;> simp_all [Instr.opens]

/-- The instructions of `doConnect` up to the call of `getClientStore`. -/
def Instr.takesOver : Instr → Bool
  | .addOrTakeOver _ | .add _ | .startHeartbeat _ | .wait _ | .del _ => true
  | .submitSync _ m => m = .disconnect
  | .send _ j => j.m = .disconnect
  | _ => false

theorem takesOver_follows (hi : i.takesOver = true) (hf : Follows env i nx) :
    ∃ is, nx = .push is ∧ ∀ j ∈ is, j.takesOver = true := by
  cases hf with
  | falls _ => exact ⟨[], rfl, by simp⟩
  | takeOver e => exact ⟨_, rfl, by simp [Instr.takesOver]⟩
  | submitSync r =>
    simp only [Instr.takesOver, decide_eq_true_eq] at hi
    subst hi
    exact ⟨_, rfl, by simp [Instr.takesOver]⟩
  | _ => cases hi

theorem takesOver_needsStore (hi : i.takesOver = true) : needsStore c i = false := by
  cases i <;> simp_all [Instr.takesOver, needsStore, persistOutbound]

/-- The instruction has nothing to do with the store of `c`, nor with how it gets one. -/
def Instr.Plain (c : ConnId) (i : Instr) : Prop := needsStore c i = false ∧ i.opens = none

/-- Where `doConnect` can be before it resets the store. -/
inductive Opening (c : ConnId) (id : GoString) (store : Option GoString) : List Instr → Prop where
  | check {i : Instr} {m : Connect} : (i = .connectValidate c m ∨ ∃ rc, i = .connectLimit c m rc) →
    m.clientId = id → m.cleanSession = true → Opening c id store [i, .inboundLoop c]
  | before {pre suf : List Instr} : (∀ i ∈ pre, i.takesOver = true) → (∀ i ∈ suf, i.Plain c) →
    Opening c id store (pre ++ .getClientStore c id :: .storeReset c :: suf)
  | reset {suf : List Instr} : store = some id → (∀ i ∈ suf, i.Plain c) →
    Opening c id store (.storeReset c :: suf)

theorem opening_connectBody {cf : BrokerConfig} {m : Connect} {rc : ReturnCode}
    {store : Option GoString} (hclean : m.cleanSession = true) :
    Opening c m.clientId store (connectBody cf c m rc ++ [Instr.inboundLoop c]) := by
  let pre : List Instr := [Instr.addOrTakeOver c, .add c] ++
    if m.keepAliveTimer > 0 then [Instr.startHeartbeat c] else []
  let suf : List Instr := (if cf.enablePresence && !m.username.isEmpty then
    [Instr.checkIn m.username] else []) ++
    [Instr.submit c (.connAck rc), .connectReturn c rc, .inboundLoop c]
  have hbody : connectBody cf c m rc ++ [Instr.inboundLoop c] =
      pre ++ .getClientStore c m.clientId :: .storeReset c :: suf := by
    simp [connectBody, hclean, pre, suf]
  rw [hbody]
  refine .before ?_ ?_
  · simp only [pre]
    split <;> simp [Instr.takesOver]
  · simp only [suf]
    split <;> simp [Instr.Plain, needsStore, persistOutbound, Instr.opens]

/-! ## Phases -/

/-- Nothing leads to the store of `c`, and the store `id` is empty. -/
structure Unopened (c : ConnId) (id : GoString) (s : State) : Prop where
  apart : s.Apart c
  empty : s.contents id = fun _ => none

/-- The phases of the session of `c`. -/
inductive Stage (c : ConnId) (id : GoString) (s : State) : Prop where
  | fresh : Unopened c id s → s.requests c = [] → (∀ i ∈ s.code (.inbound c), i.Plain c) →
    Stage c id s
  | opening : Unopened c id s → s.requests c ≠ [] →
    Opening c id (s.conns c).store (s.code (.inbound c)) → Stage c id s
  | opened : (s.conns c).store = some id → s.requests c ≠ [] →
    (∀ i ∈ s.code (.inbound c), i ≠ .storeReset c ∧ i.opens = none) → Stage c id s

/-- No other connection has the store `id` or goes for it, and the session of `c` is in
one of its phases. -/
structure Sole (c : ConnId) (id : GoString) (s : State) : Prop where
  others : ∀ d, d ≠ c → (s.conns d).store ≠ some id
  foreign : ∀ t, t ≠ .inbound c → ∀ i ∈ s.code t, i.opens ≠ some id
  own : Stage c id s

theorem storeCall_needsStore {call : StoreCall} (h : storeCall c i = some call) :
    needsStore c i = true := by
  obtain ⟨m, rfl, hm⟩ | ⟨m, rfl, hm⟩ := storeCall_eq_some h <;> simp [needsStore, hm]

/-- Before the reset, no instruction of `doConnect` but the reset leads to the store. -/
theorem Opening.needs {store : Option GoString} (h : Opening c id store (i :: rest))
    (hi : i ≠ .storeReset c) : needsStore c i = false := by
  generalize hl : i :: rest = l at h
  cases h with
  | check hcheck _ _ =>
    obtain ⟨rfl, -⟩ := List.cons.inj hl
    obtain rfl | ⟨rc, rfl⟩ := hcheck <;> rfl
  | @before pre suf hpre hsuf =>
    cases pre with
    | nil =>
      obtain ⟨rfl, -⟩ := List.cons.inj hl
      rfl
    | cons i' pre =>
      obtain ⟨rfl, -⟩ := List.cons.inj hl
      exact takesOver_needsStore (hpre i (List.mem_cons_self ..))
  | reset _ _ => exact absurd (List.cons.inj hl).1 hi

theorem Unopened.others_needs (h : Unopened c id s) (hx : Executes env s t ch i rest nx s')
    (ht : t ≠ .inbound c) : needsStore c i = false :=
  h.apart.code t ht i (by rw [hx.code]; exact List.mem_cons_self ..)

/-- Until the session is open, whoever moves leads to the store by its reset only. -/
theorem Stage.needs (h : Stage c id s) (hx : Executes env s t ch i rest nx s')
    (hi : i ≠ .storeReset c) :
    Unopened c id s ∧ needsStore c i = false ∨ (s.conns c).store = some id := by
  cases h with
  | opened hstore _ _ => exact .inr hstore
  | fresh hunused _ hplain =>
    refine .inl ⟨hunused, ?_⟩
    by_cases ht : t = .inbound c
    · subst ht
      exact (hplain i (by rw [hx.code]; exact List.mem_cons_self ..)).1
    · exact hunused.others_needs hx ht
  | opening hunused _ hopening =>
    refine .inl ⟨hunused, ?_⟩
    by_cases ht : t = .inbound c
    · subst ht
      rw [hx.code] at hopening
      exact hopening.needs hi
    · exact hunused.others_needs hx ht

/-- The reset finds the store empty. -/
theorem Stage.contents_reset (hr : Reachable env s) (h : Stage c id s)
    (hx : Executes env s t ch (.storeReset c) rest nx s') : s'.contents id = s.contents id := by
  obtain rfl := hx.home hr rfl
  have hmem : .storeReset c ∈ s.code (.inbound c) := by
    rw [hx.code]
    exact List.mem_cons_self ..
  cases h with
  | fresh _ _ hplain => simpa [needsStore] using (hplain _ hmem).1
  | opened _ _ hcode => exact absurd rfl (hcode _ hmem).1
  | opening hunused _ _ =>
    obtain hsame | ⟨d, hd, hi | ⟨call, hcall, -⟩⟩ := hx.contents_cases hr id
    · exact hsame
    · cases hi
      rw [hx.contents_reset hd, hunused.empty]
    · cases hcall

/-- The store changes by the calls of `c` only. -/
theorem Sole.contents (hr : Reachable env s) (h : Sole c id s)
    (hx : Executes env s t ch i rest nx s') :
    s'.contents id = (storeCall c i).elim (s.contents id) (·.apply (s.contents id)) := by
  by_cases hreset : i = .storeReset c
  · subst hreset
    exact h.own.contents_reset hr hx
  · cases hcall : storeCall c i with
    | some call =>
      obtain ⟨-, hneeds⟩ | hstore := h.own.needs hx hreset
      · simp [storeCall_needsStore hcall] at hneeds
      · exact hx.contents_call hr hcall hstore
    | none =>
      obtain hsame | ⟨d, hd, hi⟩ := hx.contents_cases hr id
      · exact hsame
      · obtain rfl : d = c := of_not_not fun hne => h.others d hne hd
        obtain rfl | ⟨call, hcall', -⟩ := hi
        · exact absurd rfl hreset
        · cases hcall.symm.trans hcall'

/-! ## Steps -/

theorem Unopened.step (hr : Reachable env s) (h : Sole c id s) (hunused : Unopened c id s)
    (hx : Executes env s t ch i rest nx s') (hi : needsStore c i = false) : Unopened c id s' := by
  refine ⟨hunused.apart.executes hr hx hi, ?_⟩
  have hcall : storeCall c i = none := by
    cases hcall : storeCall c i with
    | none => rfl
    | some call => simp [storeCall_needsStore hcall] at hi
  rw [h.contents hr hx, hcall, Option.elim_none, hunused.empty]

/-- What comes instead of an instruction goes for a store only if the instruction did, or
a CONNECT was read. -/
theorem Instr.Plain.follows {nx : Next} (hr : Reachable env s) (hi : i.Plain c)
    (hx : Executes env s (.inbound c) ch i rest nx s') (hloop : i ≠ .inboundLoop c)
    (hj : j ∈ nx.instrs) : j.Plain c := by
  have hshape := hr.shaped (.inbound c)
  rw [hx.code] at hshape
  refine ⟨?_, ?_⟩
  · by_contra hneeds
    have hneeds : needsStore c j = true := by simpa using hneeds
    obtain h | rfl | ⟨m, rc, rfl⟩ | ⟨m, m', sl, k, rfl, -⟩ | ⟨m, rfl, -⟩ :=
      brings_needsStore hneeds (hx.follows.brings hj)
    · simp [hi.1] at h
    · exact hloop rfl
    · cases hi.2
    · obtain h | h | h := hshape.inbound
      · cases h
      · cases h
      · simp [inboundDefer] at h
    · cases hx.home hr rfl
  · by_contra hopens
    obtain ⟨id', ho⟩ := Option.ne_none_iff_exists'.1 hopens
    obtain h | ⟨d, m, rfl, -, -⟩ := follows_opens hx.follows hj ho
    · simp [hi.2] at h
    · obtain h := hx.home hr rfl
      cases h
      exact hloop rfl

theorem State.requests_received {p : Packet} (htr : s'.trace = s.trace ++ [Event.received c p]) :
    s'.requests c = s.requests c ++ [p] := by
  simp [State.requests, htr]

/-- A step of somebody else. -/
theorem Stage.other (hr : Reachable env s) (h : Sole c id s)
    (hx : Executes env s t ch i rest nx s') (ht : t ≠ .inbound c) : Stage c id s' := by
  have hcode := hx.code_inbound (Ne.symm ht)
  have hreq : s'.requests c = s.requests c := hx.requests fun hi => by
    subst hi
    exact ht (hx.home hr rfl)
  have hstore : (s'.conns c).store = (s.conns c).store := hx.store_eq fun id hi => by
    subst hi
    exact ht (hx.home hr rfl)
  cases h.own with
  | fresh hunused hnone hplain =>
    refine .fresh (hunused.step hr h hx (hunused.others_needs hx ht)) (hreq.trans hnone) ?_
    rwa [hcode]
  | opening hunused hsome hopening =>
    refine .opening (hunused.step hr h hx (hunused.others_needs hx ht)) (by rwa [hreq]) ?_
    rwa [hcode, hstore]
  | opened hset hsome hplain =>
    refine .opened (hstore.trans hset) (by rwa [hreq]) ?_
    rwa [hcode]

theorem Opening.not_loop {store : Option GoString}
    (h : Opening c id store (.inboundLoop c :: rest)) :
    False := by
  generalize hl : Instr.inboundLoop c :: rest = l at h
  cases h with
  | check hcheck _ _ => obtain rfl | ⟨rc, rfl⟩ := hcheck <;> cases hl
  | @before pre suf hpre hsuf =>
    cases pre with
    | nil => cases hl
    | cons i pre =>
      obtain ⟨rfl, -⟩ := List.cons.inj hl
      simpa [Instr.takesOver] using hpre _ (List.mem_cons_self ..)
  | reset _ _ => cases hl

/-- Handling a message other than CONNECT does not lead to another store. -/
theorem handle_opened {p : Packet} (hp : p.isConnect = false) (hj : j ∈ handle c p) :
    j ≠ .storeReset c ∧ j.opens = none := by
  have hentry := List.all_eq_true.1 (handle_inEntry (c := c) (p := p)) j hj
  refine ⟨(by rintro rfl; cases hentry), ?_⟩
  cases j with
  | connectValidate d m =>
    obtain rfl : d = c := by simpa [Instr.inEntry] using hentry
    rw [mem_handle_connectValidate hj] at hp
    cases hp
  | connectLimit | getClientStore => cases hentry
  | _ => rfl

/-- `inboundLoop` reads a message, or fails to. -/
theorem Stage.receive (hr : Reachable env s) (h : Sole c id s)
    (hx : Executes env s (.inbound c) ch (.inboundLoop c) rest nx s')
    (hg : SoleUser c id s (.run (.inbound c) ch) = true) : Stage c id s' := by
  have hshape := hr.shaped (.inbound c)
  rw [hx.code] at hshape
  obtain rfl := hshape.rest_of_loop
  have hstore : (s'.conns c).store = (s.conns c).store := hx.store_eq (by simp)
  have hcode := hx.code_self
  have hloop : Instr.Plain c (.inboundLoop c) := ⟨rfl, rfl⟩
  obtain ⟨p, rfl, rfl, htr⟩ | ⟨rfl, rfl⟩ := hx.inboundLoop
  · have hreq := State.requests_received htr
    have hsome : s'.requests c ≠ [] := by simp [hreq]
    cases h.own with
    | fresh hunused hnone _ =>
      -- the CONNECT
      cases p with
      | connect m =>
        obtain ⟨hclean, rfl⟩ : m.cleanSession = true ∧ m.clientId = id := by
          simpa [SoleUser, hx.code, hnone] using hg
        refine .opening (hunused.step hr h hx rfl) hsome ?_
        rw [hcode]
        exact .check (.inl rfl) rfl hclean
      | _ => simp [SoleUser, hx.code, hnone] at hg
    | opening _ _ hopening =>
      rw [hx.code] at hopening
      exact hopening.not_loop.elim
    | opened hset hold hplain =>
      have hp : (p.at s.nextObj).isConnect = false := by
        cases p with
        | connect m => simp [SoleUser, hx.code, hold] at hg
        | _ => rfl
      refine .opened (hstore.trans hset) hsome fun j hj => ?_
      simp only [hcode, Next.apply, List.append_nil, List.mem_append, List.mem_singleton] at hj
      obtain hj | rfl := hj
      · exact handle_opened hp hj
      · exact ⟨by simp, rfl⟩
  · have hreq : s'.requests c = s.requests c := by
      obtain ⟨-, s₁, hexec, rfl⟩ := hx
      cases hexec
      rfl
    cases h.own with
    | fresh hunused hnone _ =>
      refine .fresh (hunused.step hr h hx rfl) (hreq.trans hnone) ?_
      rw [hcode]
      simp [Next.apply, Instr.Plain, needsStore, Instr.opens]
    | opening _ _ hopening =>
      rw [hx.code] at hopening
      exact hopening.not_loop.elim
    | opened hset hold hplain =>
      refine .opened (hstore.trans hset) (by rwa [hreq]) ?_
      rw [hcode]
      simp [Next.apply, Instr.opens]

theorem brings_storeReset (h : i.brings (.storeReset c) = true) :
    ∃ m rc, i = .connectLimit c m rc := by
  cases Instr.brings_cases h with
  | storeReset => exact ⟨_, _, rfl⟩

/-- `doConnect` comes closer to the reset of the store, or makes it. -/
theorem Opening.step (hr : Reachable env s) (h : Sole c id s) (hunused : Unopened c id s)
    (hsome : s'.requests c ≠ [])
    (hopening : Opening c id (s.conns c).store (s.code (.inbound c)))
    (hx : Executes env s (.inbound c) ch i rest nx s') : Stage c id s' := by
  have hcode := hx.code_self
  have hf := hx.follows
  have hstep : i ≠ .storeReset c → Unopened c id s' := fun hi =>
    hunused.step hr h hx ((hx.code ▸ hopening).needs hi)
  rw [hx.code] at hopening
  generalize hl : i :: rest = l at hopening
  cases hopening with
  | check hcheck hid hclean =>
    obtain ⟨rfl, rfl⟩ := List.cons.inj hl
    obtain rfl | ⟨rc, rfl⟩ := hcheck
    · cases hf with
      | falls h => cases h
      | validated =>
        refine .opening (hstep nofun) hsome ?_
        rw [hcode]
        exact .check (.inr ⟨_, rfl⟩) hid hclean
    · cases hf with
      | falls h => cases h
      | limited n =>
        refine .opening (hstep nofun) hsome ?_
        rw [hcode, ← hid]
        exact opening_connectBody hclean
  | @before pre suf hpre hsuf =>
    cases pre with
    | nil =>
      obtain ⟨rfl, rfl⟩ := List.cons.inj hl
      cases hf
      refine .opening (hstep nofun) hsome ?_
      rw [hcode]
      exact .reset hx.store_set hsuf
    | cons i' pre =>
      obtain ⟨rfl, rfl⟩ := List.cons.inj hl
      have hi := hpre i (List.mem_cons_self ..)
      obtain ⟨is, rfl, his⟩ := takesOver_follows hi hf
      refine .opening (hstep (by rintro rfl; cases hi)) hsome ?_
      have happend : s'.code (.inbound c) =
          (is ++ pre) ++ .getClientStore c id :: .storeReset c :: suf :=
        hcode.trans (List.append_assoc ..).symm
      rw [happend]
      refine .before (fun j hj => ?_) hsuf
      obtain hj | hj := List.mem_append.1 hj
      · exact his j hj
      · exact hpre j (List.mem_cons_of_mem _ hj)
  | reset hset hsuf =>
    obtain ⟨rfl, rfl⟩ := List.cons.inj hl
    cases hf
    refine .opened ((hx.store_eq nofun).trans hset) hsome fun j hj => ?_
    rw [hcode] at hj
    obtain ⟨hneeds, hopens⟩ := hsuf j hj
    exact ⟨(by rintro rfl; simp [needsStore] at hneeds), hopens⟩

/-- A step of a handler, or of the deferred function. -/
theorem Stage.handle (hr : Reachable env s) (h : Sole c id s)
    (hx : Executes env s (.inbound c) ch i rest nx s') (hi : i ≠ .inboundLoop c) :
    Stage c id s' := by
  have hreq : s'.requests c = s.requests c := hx.requests hi
  cases h.own with
  | fresh hunused hnone hplain =>
    rw [hx.code] at hplain
    have hhead := hplain i (List.mem_cons_self ..)
    refine .fresh (hunused.step hr h hx hhead.1) (hreq.trans hnone) fun j hj => ?_
    rw [hx.code_self] at hj
    obtain hj | hj := Next.mem_apply hj
    · exact hhead.follows hr hx hi hj
    · exact hplain j (List.mem_cons_of_mem _ hj)
  | opening hunused hsome hopening => exact hopening.step hr h hunused (by rwa [hreq]) hx
  | opened hset hsome hcode =>
    rw [hx.code] at hcode
    have hhead := hcode i (List.mem_cons_self ..)
    have hstore : (s'.conns c).store = (s.conns c).store := hx.store_eq fun id hget => by
      subst hget
      cases hhead.2
    refine .opened (hstore.trans hset) (by rwa [hreq]) fun j hj => ?_
    rw [hx.code_self] at hj
    obtain hj | hj := Next.mem_apply hj
    · refine ⟨?_, ?_⟩
      · rintro rfl
        obtain ⟨m, rc, rfl⟩ := brings_storeReset (hx.follows.brings hj)
        cases hhead.2
      · by_contra hopens
        obtain ⟨id', ho⟩ := Option.ne_none_iff_exists'.1 hopens
        obtain h' | ⟨d, m, rfl, -, -⟩ := follows_opens hx.follows hj ho
        · simp [hhead.2] at h'
        · cases hx.home hr rfl
          exact hi rfl
    · exact hcode j (List.mem_cons_of_mem _ hj)

theorem Sole.executes (hr : Reachable env s) (h : Sole c id s)
    (hg : SoleUser c id s (.run t ch) = true) (hx : Executes env s t ch i rest nx s') :
    Sole c id s' := by
  refine ⟨?_, ?_, ?_⟩
  · intro d hd
    obtain heq | ⟨id', rfl, heq⟩ := (hx.conn d).store <;> rw [heq]
    · exact h.others d hd
    · have hne : t ≠ .inbound c := by
        rintro rfl
        cases hx.home hr rfl
        exact hd rfl
      exact h.foreign t hne _ (by rw [hx.code]; exact List.mem_cons_self ..)
  · intro t' ht' j hj ho
    obtain hold | ⟨rfl, hnew⟩ | hgets := hx.mem_code hj
    · exact h.foreign t' ht' j hold ho
    · obtain h' | ⟨d, m, rfl, hid, rfl⟩ := follows_opens hx.follows hnew ho
      · exact h.foreign t' ht' i (by rw [hx.code]; exact List.mem_cons_self ..) h'
      · -- somebody else has sent a CONNECT with the client id
        obtain rfl := hx.home hr rfl
        obtain ⟨p, rfl, hnx, -⟩ | ⟨-, hnx⟩ := hx.inboundLoop
        · have hmem : .connectValidate d m ∈ handle d (p.at s.nextObj) := by
            rw [← List.append_cancel_right (Next.push.inj hnx)]
            exact List.mem_singleton_self _
          obtain rfl := Packet.at_eq_connect.1 (mem_handle_connectValidate hmem)
          have hne : d ≠ c := fun hd => ht' (congrArg Tid.inbound hd)
          simp [SoleUser, hx.code, hne, hid] at hg
        · cases Next.push.inj hnx
    · cases j <;> cases t' <;> first | cases ho; done | cases hgets
  · by_cases ht : t = .inbound c
    · subst ht
      by_cases hi : i = .inboundLoop c
      · subst hi
        exact .receive hr h hx hg
      · exact .handle hr h hx hi
    · exact .other hr h hx ht

/-- No goroutine starts with a CONNECT. -/
theorem loop_foreign (t : Tid) : t.loop.opens ≠ some id := by
  cases t <;> simp [Tid.loop, Instr.opens]

theorem Sole.accept (hr : Reachable env s) (h : Sole c id s) : Sole c id s.accept := by
  have hreq : s.accept.requests c = s.requests c := by
    simp [State.requests, State.accept, State.log, State.setCode]
  refine ⟨h.others, ?_, ?_⟩
  · intro t ht i hi
    obtain hi | rfl := State.mem_code_accept hi
    · exact h.foreign t ht i hi
    · exact loop_foreign t
  · have hcode : ∀ i ∈ s.accept.code (.inbound c), i ∈ s.code (.inbound c) ∨ i = .inboundLoop c :=
      fun i hi => State.mem_code_accept hi
    cases h.own with
    | fresh hunused hnone hplain =>
      refine .fresh ⟨hunused.apart.accept, hunused.empty⟩ (hreq.trans hnone) fun i hi => ?_
      obtain hi | rfl := hcode i hi
      · exact hplain i hi
      · exact ⟨rfl, rfl⟩
    | opening hunused hsome hopening =>
      refine .opening ⟨hunused.apart.accept, hunused.empty⟩ (by rwa [hreq]) ?_
      have hne : c ≠ s.nconns := by
        intro hc
        rw [(hr.lifecycle c).fresh (Nat.le_of_eq hc.symm)] at hopening
        generalize hl : ([] : List Instr) = l at hopening
        cases hopening <;> simp at hl
      simpa [State.accept, State.log, State.setCode, hne] using hopening
    | opened hset hsome hplain =>
      refine .opened hset (by rwa [hreq]) fun i hi => ?_
      obtain hi | rfl := hcode i hi
      · exact hplain i hi
      · exact ⟨by simp, rfl⟩

theorem Sole.acceptPeer (h : Sole c id s) : Sole c id s.acceptPeer := by
  refine ⟨h.others, ?_, ?_⟩
  · intro t ht i hi
    obtain hi | rfl := State.mem_code_acceptPeer hi
    · exact h.foreign t ht i hi
    · exact loop_foreign t
  · cases h.own with
    | fresh hunused hnone hplain =>
      exact .fresh ⟨hunused.apart.acceptPeer, hunused.empty⟩ hnone hplain
    | opening hunused hsome hopening =>
      exact .opening ⟨hunused.apart.acceptPeer, hunused.empty⟩ hsome hopening
    | opened hset hsome hplain => exact .opened hset hsome hplain

theorem sole_init : Sole c id (init env) where
  others d _ h := by cases h
  foreign t _ i hi := by
    cases t with
    | worker w =>
      simp only [init] at hi
      split at hi
      · obtain rfl := List.mem_singleton.1 hi
        exact loop_foreign (.worker w)
      · cases hi
    | _ => cases hi
  own := .fresh ⟨apart_init, rfl⟩ rfl (by simp [init])

theorem Sole.step {a : BrokerAction} (hr : Reachable env s) (h : Sole c id s)
    (hg : SoleUser c id s a = true) (hstep : step env s a = some s') : Sole c id s' := by
  obtain ⟨-, ⟨-, rfl⟩ | ⟨-, rfl⟩ | ⟨t, ch, i, rest, nx, rfl, hx⟩⟩ := step_cases hstep
  · exact h.accept hr
  · exact h.acceptPeer
  · exact h.executes hr hg hx
