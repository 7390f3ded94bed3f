-- SUMMARY: Resuming a session: `doConnect` queues whatever the session store holds, in both directions, so a client gets back what it has sent itself.
import Mhub.Broker.Receiver
import Mhub.Broker.Stores

/-!
# Redelivery

For a CONNECT without CleanSession, `doConnect` asks the store for its keys and queues
what it finds under each of them. The first byte of the key would tell the direction,
but both branches of that test are empty.

The loop is followed from the call of `All` to its end (`Redelivering`), under the
condition that nobody changes or removes what is stored in the meantime. New entries
may come in: they are not among the keys.
-/

variable {env : Env} {s s' s₀ : State} {t : Tid} {ch : Choice} {i : Instr} {rest : List Instr}
  {nx : Next} {c : ConnId} {id : GoString} {keys : List GoString}

/-! ## What is stored in either direction -/

/-- The messages a store holds under the keys of one direction. -/
def State.stored (s : State) (id direction : GoString) : List Message :=
  match s.clientStores id with
  | some store => (store.messages.keys.filter direction.isPrefixOf).filterMap store.get
  | none => []

/-- Every key of a store has an entry, and the key tells the direction. -/
theorem Reachable.entry {store : MemoryStore} {key : GoString} (hr : Reachable env s)
    (hstore : s.clientStores id = some store) (hkey : key ∈ store.messages.keys) :
    ∃ p, s.contents id key = some (.publish p) ∧
      (str "o.").isPrefixOf key = !(str "i.").isPrefixOf key ∧ key ≠ [] := by
  have hsome : (store.get key).isSome = true := AList.lookup_isSome.2 hkey
  obtain ⟨m, hm⟩ := Option.isSome_iff_exists.1 hsome
  obtain ⟨p, rfl, -, hdir⟩ := hr.kept hstore key m hm
  have hi : str "i." = [0x69, 0x2E] := by decide +kernel
  have ho : str "o." = [0x6F, 0x2E] := by decide +kernel
  refine ⟨p, by simp [State.contents, hstore, hm], ?_⟩
  obtain rfl | rfl := hdir <;> simp [iboundMid2key, oboundMid2key, hi, ho, List.isPrefixOf]

/-- What is stored was received from the client or is meant for it. -/
theorem Reachable.stored_perm {store : MemoryStore} (hr : Reachable env s)
    (hstore : s.clientStores id = some store) (hkeys : store.IsAll keys) :
    (keys.filterMap (s.contents id)).Perm (s.stored id (str "i.") ++ s.stored id (str "o.")) := by
  have hget : s.contents id = store.get := by
    funext key
    simp [State.contents, hstore]
  have hother : store.messages.keys.filter (fun key => !(str "i.").isPrefixOf key) =
      store.messages.keys.filter (str "o.").isPrefixOf := by
    refine List.filter_congr fun key hkey => ?_
    obtain ⟨-, -, hdir, -⟩ := hr.entry hstore hkey
    exact hdir.symm
  simp only [State.stored, hstore, hget]
  rw [← List.filterMap_append, ← hother]
  exact (hkeys.trans (List.filter_append_perm _ _).symm).filterMap _

/-! ## The condition -/

/-- The call changes or removes none of the entries `f`. -/
def StoreCall.keeps (f : GoString → Option Message) : StoreCall → Bool
  | .put key m => f key = none || f key = some m
  | .del key => f key = none

theorem StoreCall.keeps.apply {f : GoString → Option Message} {call : StoreCall} {key : GoString}
    {m : Message} (h : call.keeps f = true) (hm : f key = some m) : call.apply f key = some m := by
  by_cases hkey : key = call.key
  · subst hkey
    cases call <;> simp_all [StoreCall.keeps, StoreCall.apply, StoreCall.key]
  · rw [StoreCall.apply_of_ne hkey, hm]

/-- The step changes or removes no entry of the store `id`. -/
def KeepsStored (id : GoString) (s : State) : BrokerAction → Bool
  | .run t _ =>
    match s.code t with
    | .storeReset d :: _ => (s.conns d).store ≠ some id
    | .persistInbound d m :: _ =>
      (s.conns d).store ≠ some id ||
        (persistInbound (.publish m)).all (·.keeps (s.contents id))
    | .persistOutbound d m :: _ =>
      (s.conns d).store ≠ some id || (persistOutbound m).all (·.keeps (s.contents id))
    | _ => true
  | _ => true

theorem KeepsStored.contents {key : GoString} {m : Message} (hr : Reachable env s)
    (hg : KeepsStored id s (.run t ch) = true) (hx : Executes env s t ch i rest nx s')
    (hm : s.contents id key = some m) : s'.contents id key = some m := by
  simp only [KeepsStored, hx.code] at hg
  obtain hsame | ⟨d, hd, rfl | ⟨call, hcall, heq⟩⟩ := hx.contents_cases hr id
  · rw [hsame, hm]
  · simp [hd] at hg
  · rw [heq]
    refine StoreCall.keeps.apply ?_ hm
    obtain ⟨p, rfl, hp⟩ | ⟨p, rfl, hp⟩ := storeCall_eq_some hcall
    · simpa [hd, hp] using hg
    · simpa [hd, hp] using hg

/-! ## The loop -/

/-- The PUBLISH messages that the handlers of `c` have queued for `c` itself. -/
def State.resent (s : State) (c : ConnId) : List Message :=
  s.trace.filterMap fun
    | .queued t c' m => if t = .inbound c ∧ c' = c ∧ m.isPublish = true then some m else none
    | _ => none

/-- A message that was read from the store is on its way into the queue. -/
inductive Resends (c : ConnId) : List Instr → List Message → Prop where
  | done : Resends c [] []
  | submit (m : Message) : Resends c [.submit c m] [m]
  | send (m : Message) : Resends c [.send c ⟨m, none⟩] [m]

/-- The loop over `keys` has got so far. -/
structure Redelivering (s₀ : State) (c : ConnId) (id : GoString) (keys : List GoString)
    (rest : List Instr) (s : State) : Prop where
  store : (s.conns c).store = some id
  kept : ∀ key m, s₀.contents id key = some m → s.contents id key = some m
  progress : ∃ sent now ms later, s.resent c = s₀.resent c ++ sent ∧ Resends c now ms ∧
    s.code (.inbound c) = now ++ later.map (.redeliver c) ++ rest ∧ later ⊆ keys ∧
    sent ++ ms ++ later.filterMap (s₀.contents id) = keys.filterMap (s₀.contents id)

theorem Executes.resent (hx : Executes env s t ch i rest nx s')
    (hi : t = .inbound c → ∀ j : Job, i = .send c j ∨ i = .trySend c j → False) :
    s'.resent c = s.resent c := by
  refine hx.filterMap_trace fun e hlog => ?_
  cases e with
  | queued t' c' m =>
    obtain ⟨rfl, j, hij, -⟩ := hlog
    by_cases hc : t' = .inbound c ∧ c' = c
    · obtain ⟨rfl, rfl⟩ := hc
      exact (hi rfl j hij).elim
    · simp only
      rw [if_neg fun h => hc ⟨h.1, h.2.1⟩]
  | _ => rfl

/-- A step of the loop itself. -/
theorem Redelivering.step_own (hblock : env.cf.buffOverflowStrategy = bufferOverflowBlock)
    (hr : Reachable env s) (h : Redelivering s₀ c id keys rest s)
    (hkeys : ∀ key ∈ keys, ∃ p, s₀.contents id key = some (.publish p) ∧ key ≠ [])
    (hmore : s.code (.inbound c) ≠ rest)
    (hkept : ∀ key m, s₀.contents id key = some m → s'.contents id key = some m)
    {rest' : List Instr} (hx : Executes env s (.inbound c) ch i rest' nx s') :
    Redelivering s₀ c id keys rest s' := by
  obtain ⟨sent, now, ms, later, hsent, hnow, hcode, hsub, hall⟩ := h.progress
  have hcode := hx.code.symm.trans hcode
  cases hnow with
  | submit m =>
    obtain ⟨rfl, rfl⟩ := List.cons.inj hcode
    obtain rfl := hx.submit_block hblock (hx.alive hr (by simp [Instr.inHandler]))
    exact ⟨(hx.store_eq (by simp)).trans h.store, hkept, sent, _, _, later,
      (hx.resent (by simp)).trans hsent, .send m, hx.code_self, hsub, hall⟩
  | send m =>
    obtain ⟨rfl, rfl⟩ := List.cons.inj hcode
    obtain ⟨rfl, htr⟩ := hx.send_queued (.inl (hx.jobs_open hr (by simp [Instr.inHandler])))
    have hpublish : m.isPublish = true := by
      have hmem : m ∈ keys.filterMap (s₀.contents id) := by simp [← hall]
      obtain ⟨key, hkey, hm⟩ := List.mem_filterMap.1 hmem
      obtain ⟨p, hp, -⟩ := hkeys key hkey
      cases hp.symm.trans hm
      rfl
    refine ⟨(hx.store_eq (by simp)).trans h.store, hkept, sent ++ [m], [], [], later, ?_, .done,
      hx.code_self, hsub, by simpa using hall⟩
    simp only [State.resent] at hsent ⊢
    simp [htr, hsent, hpublish]
  | done =>
    cases later with
    | nil => exact absurd (hx.code.trans hcode) hmore
    | cons key later =>
      obtain ⟨rfl, rfl⟩ := List.cons.inj hcode
      obtain ⟨p, hp, hne⟩ := hkeys key (hsub (List.mem_cons_self ..))
      obtain ⟨id', hid', rfl⟩ := hx.redeliver (.inl ⟨hne, by simp [h.store]⟩)
      obtain rfl : id = id' := Option.some.inj (h.store.symm.trans hid')
      have hnow : redelivery c (s.contents id key) = [.submit c (.publish p)] := by
        rw [hr.redelivery_eq, h.kept key _ hp]
        rfl
      rw [hnow] at hx
      refine ⟨(hx.store_eq (by simp)).trans h.store, hkept, sent, _, _, later,
        (hx.resent (by simp)).trans hsent, .submit (.publish p), hx.code_self,
        fun k hk => hsub (List.mem_cons_of_mem _ hk), ?_⟩
      simpa [List.filterMap_cons, hp] using hall

/-- A step of the system while the loop runs. -/
theorem Redelivering.step {a : BrokerAction}
    (hblock : env.cf.buffOverflowStrategy = bufferOverflowBlock) (hr : Reachable env s)
    (h : Redelivering s₀ c id keys rest s)
    (hkeys : ∀ key ∈ keys, ∃ p, s₀.contents id key = some (.publish p) ∧ key ≠ [])
    (hmore : s.code (.inbound c) ≠ rest) (hg : KeepsStored id s a = true)
    (hstep : step env s a = some s') : Redelivering s₀ c id keys rest s' := by
  obtain ⟨-, ⟨-, rfl⟩ | ⟨-, rfl⟩ | ⟨t, ch, i, rest', nx, rfl, hx⟩⟩ := step_cases hstep
  · obtain ⟨sent, now, ms, later, hsent, hnow, hcode, hlater⟩ := h.progress
    have hne : c ≠ s.nconns := by
      intro hc
      have hfresh := (hr.lifecycle c).fresh (Nat.le_of_eq hc.symm)
      have hnil := hcode.symm.trans hfresh
      simp only [List.append_eq_nil_iff] at hnil
      exact hmore (hfresh.trans hnil.2.symm)
    have hsame : s.accept.code (.inbound c) = s.code (.inbound c) := by
      simp [State.accept, State.log, State.setCode, hne]
    have hresent : s.accept.resent c = s.resent c := by
      simp [State.resent, State.accept, State.log, State.setCode]
    exact ⟨h.store, h.kept, sent, now, ms, later, hresent.trans hsent, hnow, hsame.trans hcode,
      hlater⟩
  · exact ⟨h.store, h.kept, h.progress⟩
  · have hkept : ∀ key m, s₀.contents id key = some m → s'.contents id key = some m :=
      fun key m hm => KeepsStored.contents hr hg hx (h.kept key m hm)
    by_cases ht : t = .inbound c
    · subst ht
      exact h.step_own hblock hr hkeys hmore hkept hx
    · have hstore : (s'.conns c).store = (s.conns c).store := hx.store_eq fun id hi => by
        subst hi
        exact ht (hx.home hr rfl)
      obtain ⟨sent, now, ms, later, hsent, hprogress⟩ := h.progress
      rw [← hx.code_inbound (Ne.symm ht)] at hprogress
      exact ⟨hstore.trans h.store, hkept, sent, now, ms, later,
        (hx.resent fun h => absurd h ht).trans hsent, hprogress⟩

/-- The call of `All` fixes the keys. -/
theorem Executes.storeAll (hx : Executes env s t (.order keys) (.storeAll c) rest nx s')
    (hstore : (s.conns c).store = some id) :
    ∃ store, s.clientStores id = some store ∧ store.IsAll keys ∧
      nx = .push (keys.map (.redeliver c)) := by
  obtain ⟨-, s₁, hexec, -⟩ := hx
  simp only [exec, hstore] at hexec
  split at hexec
  · cases hexec
  · split at hexec <;> cases hexec
    exact ⟨_, ‹_›, ‹_›, rfl⟩

/-- `doConnect` redelivers the outbound messages of a session, each once and nothing
else, if the store has no inbound ones when it is asked for its keys. -/
theorem redelivers_outbound {as : List BrokerAction}
    (hblock : env.cf.buffOverflowStrategy = bufferOverflowBlock) (hr : Reachable env s₀)
    (hcode : s₀.code (.inbound c) = .storeAll c :: rest) (hstore : (s₀.conns c).store = some id)
    (hrun : Transition.run (step env) s₀ (.run (.inbound c) (.order keys) :: as) = some s)
    (hg : Transition.Guarded (step env)
      (fun s a => s.code (.inbound c) ≠ rest ∧ KeepsStored id s a = true) s₀
      (.run (.inbound c) (.order keys) :: as))
    (hend : s.code (.inbound c) = rest) :
    ∃ sent, s.resent c = s₀.resent c ++ sent ∧
      (sent.Perm (s₀.stored id (str "o.")) ∧ (∀ m ∈ s₀.stored id (str "i."), m ∉ sent) ↔
        s₀.stored id (str "i.") = []) := by
  obtain ⟨s₁, hs₁, hrest⟩ := Transition.run_cons_eq_some.1 hrun
  obtain ⟨-, ⟨h, -⟩ | ⟨h, -⟩ | ⟨t, ch, i, rest', nx, heq, hx⟩⟩ := step_cases hs₁
  · cases h
  · cases h
  cases heq
  obtain ⟨rfl, rfl⟩ := List.cons.inj (hx.code.symm.trans hcode)
  obtain ⟨store, hst, hall, rfl⟩ := hx.storeAll hstore
  have hkeys : ∀ key ∈ keys, ∃ p, s₀.contents id key = some (.publish p) ∧ key ≠ [] := by
    intro key hkey
    obtain ⟨p, hp, -, hne⟩ := hr.entry hst (hall.subset hkey)
    exact ⟨p, hp, hne⟩
  have hfirst : Redelivering s₀ c id keys rest' s₁ := by
    refine ⟨(hx.store_eq nofun).trans hstore, fun key m hm => ?_, [], [], [], keys, ?_, .done,
      hx.code_self, List.Subset.refl _, rfl⟩
    · rw [hx.contents_same fun d _ => ⟨nofun, rfl⟩, hm]
    · rw [hx.resent (by simp), List.append_nil]
  have hlast : Redelivering s₀ c id keys rest' s :=
    (hr.tail hs₁).run_invariant
      (fun s a s' hr hI hG hstep => hI.step hblock hr hkeys hG.1 hG.2 hstep) hfirst hrest
      (hg.cons hs₁).2
  obtain ⟨sent, now, ms, later, hsent, hnow, hover, -, hmsgs⟩ := hlast.progress
  -- the loop is over: nothing is left to be queued
  rw [hend, List.self_eq_append_left, List.append_eq_nil_iff, List.map_eq_nil_iff] at hover
  obtain ⟨rfl, rfl⟩ := hover
  cases hnow
  have hperm := hr.stored_perm hst hall
  rw [← hmsgs] at hperm
  simp only [List.append_nil, List.filterMap_nil] at hperm
  refine ⟨sent, hsent, ?_, fun hnone => ?_⟩
  · rintro ⟨hout, -⟩
    have hlen := hperm.length_eq
    rw [List.length_append, hout.length_eq] at hlen
    exact List.length_eq_zero_iff.1 (by omega)
  · rw [hnone, List.nil_append] at hperm
    exact ⟨hperm, by simp [hnone]⟩

/-! ## Two sessions -/

/-- Client `c` connects to resume the session of `id`, and has got its store. -/
def resumes (c : ConnId) (id : GoString) : List BrokerAction :=
  .accept :: sends c (.connect { Connect.named id with cleanSession := false }) 5

/-- The loop of `doConnect` over `keys`. -/
def redelivers (c : ConnId) (keys : List GoString) : List BrokerAction :=
  .run (.inbound c) (.order keys) :: List.replicate (3 * keys.length) (.run (.inbound c) .go)

/-- A subscriber was sent two messages and went away. -/
def subscriberLeft : List BrokerAction :=
  subscriberRun ++ publishersRun 7 8 ++
    (.run (.inbound 0) .recvErr :: List.replicate 7 (.run (.inbound 0) .go)) ++
    List.replicate 5 (.run (.outbound 0) .job)

theorem redelivers_outbound_subscriberLeft :
    ∃ s₀ s, Transition.run (step doublesEnv) (init doublesEnv)
        (subscriberLeft ++ resumes 3 (str "s")) = some s₀ ∧
      Transition.run (step doublesEnv) s₀ (redelivers 3 [oboundMid2key 7, oboundMid2key 8]) =
        some s ∧
      s₀.stored (str "s") (str "o.") = [.publish (fromTwo 8), .publish (fromOne 7)] ∧
      ∃ sent, s.resent 3 = s₀.resent 3 ++ sent ∧ sent.Perm (s₀.stored (str "s") (str "o.")) := by
  have hrun : (Transition.run (step doublesEnv) (init doublesEnv)
      (subscriberLeft ++ resumes 3 (str "s"))).map (fun s₀ =>
        decide (s₀.code (.inbound 3) = .storeAll 3 ::
            [.submit 3 (.connAck .accepted), .connectReturn 3 .accepted, .inboundLoop 3] ∧
          (s₀.conns 3).store = some (str "s") ∧
          s₀.stored (str "s") (str "o.") = [.publish (fromTwo 8), .publish (fromOne 7)] ∧
          s₀.stored (str "s") (str "i.") = [] ∧
          Transition.Guarded (step doublesEnv) (fun s a => s.code (.inbound 3) ≠
              [.submit 3 (.connAck .accepted), .connectReturn 3 .accepted, .inboundLoop 3] ∧
            KeepsStored (str "s") s a = true) s₀
            (redelivers 3 [oboundMid2key 7, oboundMid2key 8]) ∧
          (Transition.run (step doublesEnv) s₀
            (redelivers 3 [oboundMid2key 7, oboundMid2key 8])).map (·.code (.inbound 3)) =
            some [.submit 3 (.connAck .accepted), .connectReturn 3 .accepted, .inboundLoop 3])) =
      some true := by decide +kernel
  obtain ⟨s₀, hs₀, hdec⟩ := Option.map_eq_some_iff.1 hrun
  obtain ⟨hcode, hstore, hout, hin, hg, hmap⟩ := of_decide_eq_true hdec
  obtain ⟨s, hs, hend⟩ := Option.map_eq_some_iff.1 hmap
  have hblock : doublesEnv.cf.buffOverflowStrategy = bufferOverflowBlock := by simp [doublesEnv]
  obtain ⟨sent, hsent, hiff⟩ :=
    redelivers_outbound hblock ⟨_, hs₀⟩ hcode hstore hs hg hend
  exact ⟨s₀, s, hs₀, hs, hout, sent, hsent, (hiff.2 hin).1⟩

/-- A client has sent a PUBLISH, and its connection breaks before the acknowledgement is
written. -/
def ackLost : List BrokerAction :=
  .accept :: sends 0 (.connect (.named (str "a"))) 9 ++
    sends 0 (.publish false ⟨0, .atLeastOnce, str "t", 7, [1]⟩) 3 ++
    [.job, .go, .encode false, .go, .go, .go, .go, .go].map (.run (.outbound 0))

/-- When it comes back, it is sent its own message. -/
theorem redelivers_inbound :
    ∃ s₀ s m, Transition.run (step doublesEnv) (init doublesEnv) (ackLost ++ resumes 1 (str "a")) =
        some s₀ ∧
      s₀.code (.inbound 1) = [.storeAll 1, .submit 1 (.connAck .accepted),
        .connectReturn 1 .accepted, .inboundLoop 1] ∧
      s₀.stored (str "a") (str "i.") = [m] ∧ s₀.stored (str "a") (str "o.") = [] ∧
      s₀.resent 1 = [] ∧
      Transition.run (step doublesEnv) s₀ (redelivers 1 [iboundMid2key 7]) = some s ∧
      s.code (.inbound 1) = [.submit 1 (.connAck .accepted), .connectReturn 1 .accepted,
        .inboundLoop 1] ∧
      s.resent 1 = [m] := by
  have hrun : (Transition.run (step doublesEnv) (init doublesEnv)
      (ackLost ++ resumes 1 (str "a"))).map (fun s₀ =>
        decide (s₀.code (.inbound 1) = [.storeAll 1, .submit 1 (.connAck .accepted),
            .connectReturn 1 .accepted, .inboundLoop 1] ∧
          s₀.stored (str "a") (str "i.") =
            [.publish ⟨1, .atLeastOnce, str "t", 7, [1]⟩] ∧
          s₀.stored (str "a") (str "o.") = [] ∧ s₀.resent 1 = [] ∧
          (Transition.run (step doublesEnv) s₀ (redelivers 1 [iboundMid2key 7])).map (fun s =>
            (s.code (.inbound 1), s.resent 1)) =
            some ([.submit 1 (.connAck .accepted), .connectReturn 1 .accepted, .inboundLoop 1],
              [.publish ⟨1, .atLeastOnce, str "t", 7, [1]⟩]))) = some true := by decide +kernel
  obtain ⟨s₀, hs₀, hdec⟩ := Option.map_eq_some_iff.1 hrun
  obtain ⟨hcode, hin, hout, hnone, hmap⟩ := of_decide_eq_true hdec
  obtain ⟨s, hs, hend⟩ := Option.map_eq_some_iff.1 hmap
  obtain ⟨hcode', hresent⟩ := Prod.mk.inj hend
  exact ⟨s₀, s, _, hs₀, hcode, hin, hout, hnone, hs, hcode', hresent⟩
