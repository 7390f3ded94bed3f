-- SUMMARY: `ClientMaxSubscriptions`: how the counter of a connection relates to what the index holds for it, and when the limit is kept.
import Mhub.Broker.Effects

/-!
# The subscription limit

`doSubscribe` counts every topic before it adds it, and stops the connection when the
count is over the limit. `doUnsubscribe` counts every topic down before it cancels it.
The count is at least the number of subscriptions as long as every cancellation finds
one: a topic that is not subscribed, or a wildcard filter, is counted down as well, and
makes room for a subscription that is over the limit.
-/

variable {env : Env} {s s' : State} {t : Tid} {ch : Choice} {i : Instr} {rest : List Instr}
  {nx : Next} {c : ConnId}

/-! ## The counter and the calls -/

/-- The instructions that count or make a call for a topic, or end a call of `stop`. -/
def Instr.accounts : Instr → Bool
  | .countSub _ | .subsAdd .. | .uncountSub _ | .unsub .. | .closeStop _ => true
  | _ => false

/-- Code in which every topic is counted right before the call for it. -/
inductive Paired (c : ConnId) : List Instr → Prop where
  | nil : Paired c []
  | sub {f : GoString} {l : List Instr} : Paired c l → Paired c (.countSub c :: .subsAdd c f :: l)
  | unsub {f : GoString} {l : List Instr} : Paired c l →
    Paired c (.uncountSub c :: .unsub c f :: l)
  | other {i : Instr} {l : List Instr} : i.accounts = false → Paired c l → Paired c (i :: l)

theorem Paired.append {l l' : List Instr} (h : Paired c l) (h' : Paired c l') :
    Paired c (l ++ l') := by
  induction h with
  | nil => exact h'
  | sub _ ih => exact .sub ih
  | unsub _ ih => exact .unsub ih
  | other hi _ ih => exact .other hi ih

theorem paired_of_forall {l : List Instr} (h : ∀ i ∈ l, i.accounts = false) : Paired c l := by
  induction l with
  | nil => exact .nil
  | cons i l ih =>
    exact .other (h i (List.mem_cons_self ..)) (ih fun j hj => h j (List.mem_cons_of_mem _ hj))

theorem paired_doSubscribe (m : Subscribe) : Paired c (doSubscribe c m) := by
  have htopics : ∀ topics : List (GoString × QosLevel),
      Paired c (topics.flatMap fun tq => [.countSub c, .subsAdd c tq.1]) := by
    intro topics
    induction topics with
    | nil => exact .nil
    | cons tq topics ih => exact .sub ih
  refine (((paired_of_forall ?_).append (htopics m.topics)).append ?_).append ?_
  · simp [Instr.accounts]
  · exact .other rfl .nil
  · refine paired_of_forall fun i hi => ?_
    obtain ⟨tq, -, rfl⟩ := List.mem_map.1 hi
    rfl

theorem paired_doUnsubscribe (m : Unsubscribe) : Paired c (doUnsubscribe c m) := by
  have htopics : ∀ topics : List GoString,
      Paired c (topics.flatMap fun t => [.uncountSub c, .unsub c t]) := by
    intro topics
    induction topics with
    | nil => exact .nil
    | cons t topics ih => exact .unsub ih
  exact (htopics m.topics).append (.other rfl .nil)

theorem paired_handle (p : Packet) : Paired c (handle c p) := by
  cases p with
  | subscribe m => exact paired_doSubscribe m
  | unsubscribe m => exact paired_doUnsubscribe m
  | publish retain m =>
    refine paired_of_forall fun i hi => ?_
    cases handles_of_mem hi <;> rfl
  | _ => exact paired_of_forall (by simp [handle, doConnect, doPublishAck, Instr.accounts])

/-- Where the code of `inboundLoop` stands: whether it is in a call of `stop`, and how
many calls on the index it is ahead of the counter. -/
inductive Counting (c : ConnId) : Bool → Int → List Instr → Prop where
  | even {l : List Instr} : Paired c l → Counting c false 0 l
  | adding {f : GoString} {l : List Instr} : Paired c l → Counting c false 1 (.subsAdd c f :: l)
  | removing {f : GoString} {l : List Instr} : Paired c l → Counting c false (-1) (.unsub c f :: l)
  | stopping {n : Int} {l : List Instr} : Counting c false n l →
    Counting c true n (.closeStop c :: l)
  | aborting {n : Int} {l : List Instr} : Counting c true n l → Counting c true n (.aborted :: l)

/-- The number of live adds of the connection. -/
def State.subscribed (s : State) (c : ConnId) : Nat := (liveAdds s.calls).countP (·.2 = c)

/-- The counter covers what is subscribed, and the limit covers the counter unless the
connection is being stopped. -/
def State.WithinLimit (env : Env) (s : State) (c : ConnId) : Prop :=
  ∃ stop n, Counting c stop n (s.code (.inbound c)) ∧
    (s.subscribed c : Int) + n ≤ (s.conns c).subN ∧
    ((s.conns c).stopClosed = false → (s.subscribed c : Int) ≤ env.cf.clientMaxSubscriptions ∧
      (stop = false → (s.conns c).subN ≤ env.cf.clientMaxSubscriptions))

/-! ## Steps -/

theorem subN_update {c' : ConnId} {k : Conn} (hs : s'.conns = Function.update s.conns c' k)
    (hk : k.subN = (s.conns c').subN) : (s'.conns c).subN = (s.conns c).subN := by
  rw [hs]
  by_cases hc : c = c'
  · subst hc
    simpa using hk
  · simp [hc]

theorem subN_enqueue {c' : ConnId} {j : Job} (h : s.enqueue env.cf t c' j = some s') :
    (s'.conns c).subN = (s.conns c).subN := by
  obtain ⟨-, rfl⟩ | ⟨-, rest, -, rfl⟩ := State.enqueue_eq_some h
  · exact subN_update rfl rfl
  · rfl

/-- How an instruction changes the counter of a connection. -/
theorem Executes.subN (hx : Executes env s t ch i rest nx s') :
    (s'.conns c).subN = (s.conns c).subN ∨
    i = .countSub c ∧ (s'.conns c).subN = (s.conns c).subN + 1 ∨
    i = .uncountSub c ∧ (s'.conns c).subN = (s.conns c).subN - 1 := by
  obtain ⟨-, s₁, h, rfl⟩ := hx
  change (s₁.conns c).subN = _ ∨ _ ∧ (s₁.conns c).subN = _ ∨ _ ∧ (s₁.conns c).subN = _
  cases i <;> simp only [exec, State.callStore] at h
  case countSub c' =>
    cases h
    by_cases hc : c = c'
    · exact .inr (.inl ⟨hc ▸ rfl, by simp [State.modConn, hc]⟩)
    · exact .inl (by simp [State.modConn, hc])
  case uncountSub c' =>
    cases h
    by_cases hc : c = c'
    · exact .inr (.inr ⟨hc ▸ rfl, by simp [State.modConn, hc]⟩)
    · exact .inl (by simp [State.modConn, hc])
  case post =>
    split at h <;> cases h
    obtain ⟨posts, code, -, rfl⟩ := State.post_frame ‹_›
    exact .inl rfl
  all_goals repeat' split at h
  all_goals cases h
  all_goals first
    | exact .inl rfl
    | exact .inl (subN_enqueue ‹_›)
    | exact .inl (subN_update rfl rfl)

theorem Executes.subscribed (hx : Executes env s t ch i rest nx s') :
    s'.subscribed c ≤ s.subscribed c ∨
      (∃ f, i = .subsAdd c f) ∧ s'.subscribed c ≤ s.subscribed c + 1 := by
  obtain hcalls | ⟨k, hlog, hcalls⟩ := hx.calls_cases <;> rw [State.subscribed, hcalls]
  · exact .inl (Nat.le_refl _)
  · refine (countP_liveAdds_concat s.calls k c).imp_right (And.imp_left ?_)
    rintro ⟨f, rfl⟩
    exact ⟨f, hlog⟩

theorem brings_accounts {j : Instr} (h : i.brings j = true) (hj : j.accounts = true) :
    (∃ c, i = .inboundLoop c) ∨ (∃ c, i = .pour c) ∨ ∃ c, i = .countSub c := by
  cases Instr.brings_cases h with
  | countSub | subsAdd | uncountSub | unsub => exact .inl ⟨_, rfl⟩
  | closeStop hi => exact .inr (hi.imp (fun h => ⟨_, h⟩) fun h => ⟨_, h⟩)
  | _ => cases hj

/-- What comes in the place of an instruction that neither counts nor calls. -/
theorem Paired.executes (hr : Reachable env s) (hrest : Paired c rest) (hi : i.accounts = false)
    (hx : Executes env s (.inbound c) ch i rest nx s') :
    ∃ stop, Counting c stop 0 (nx.apply rest) := by
  -- what is pushed has no calls, or has them in pairs
  have hpush : Paired c nx.instrs → ∃ stop, Counting c stop 0 (nx.apply rest) := by
    intro h
    cases nx with
    | push is => exact ⟨false, .even (h.append hrest)⟩
    | jump is => exact ⟨false, .even h⟩
  by_cases hnew : ∃ j ∈ nx.instrs, j.accounts = true
  · obtain ⟨j, hj, hacc⟩ := hnew
    obtain ⟨c', rfl⟩ | ⟨c', rfl⟩ | ⟨c', rfl⟩ := brings_accounts (hx.follows.brings hj) hacc
    · cases hx.home hr rfl
      obtain ⟨p, -, rfl, -⟩ | ⟨-, rfl⟩ := hx.inboundLoop
      · exact hpush ((paired_handle _).append (.other rfl .nil))
      · exact hpush (paired_of_forall (by simp [Next.instrs, Instr.accounts]))
    · -- the rate limiter stops the connection
      cases hx.home hr rfl
      obtain ⟨-, s₁, hexec, rfl⟩ := hx
      simp only [exec] at hexec
      split at hexec <;> cases hexec
      split
      · exact ⟨false, .even hrest⟩
      · exact ⟨true, .aborting (.stopping (.even hrest))⟩
    · cases hi
  · refine hpush (paired_of_forall fun j hj => ?_)
    exact Bool.eq_false_iff.2 fun h => hnew ⟨j, hj, h⟩

/-- The step cancels only subscriptions that `c` has: of a topic without wildcards, under
which there is a slot of `c`. -/
def CancelsOwn (c : ConnId) (s : State) : BrokerAction → Bool
  | .run t _ =>
    match s.code t with
    | .unsub c' f :: _ => c' = c → isWildcard f = false ∧ some c ∈ s.subs.slots f
    | _ => true
  | _ => true

/-- A cancellation of the connection's own subscription leaves less. -/
theorem Executes.unsub_lt {f : GoString} (hr : Reachable env s)
    (hx : Executes env s t ch (.unsub c f) rest nx s') (hwild : isWildcard f = false)
    (hslot : some c ∈ s.subs.slots f) : nx = .push [] ∧ s'.subscribed c < s.subscribed c := by
  have hlive : (f, c) ∈ liveAdds s.calls := by
    have hmem := List.reduceOption_mem_iff.2 hslot
    rw [hr.refines.slots] at hmem
    obtain ⟨⟨f', c'⟩, hf, rfl⟩ := List.mem_map.1 hmem
    obtain ⟨hlive, hf⟩ := List.mem_filter.1 hf
    obtain rfl : f' = f := by simpa using (of_decide_eq_true hf).2
    exact hlive
  obtain ⟨-, s₁, hexec, rfl⟩ := hx
  simp only [exec] at hexec
  split at hexec <;> cases hexec
  have hcalls : ((s.callIndex env (.unsub f c)).setCode t (Next.apply (.push []) rest)).calls =
      s.calls ++ [Call.unsub f c] := by
    simp [State.calls, State.callIndex, State.log, State.setCode, Event.call]
  refine ⟨rfl, ?_⟩
  rw [State.subscribed, hcalls]
  exact countP_liveAdds_unsub_lt hwild hlive

theorem Executes.countSub (hx : Executes env s t ch (.countSub c) rest nx s') :
    (s'.conns c).subN = (s.conns c).subN + 1 ∧
      nx = .push (if (s.conns c).subN + 1 > env.cf.clientMaxSubscriptions then stop c else []) := by
  obtain ⟨-, s₁, hexec, rfl⟩ := hx
  cases hexec
  exact ⟨by simp [State.setCode, State.modConn], rfl⟩

theorem Executes.uncountSub (hx : Executes env s t ch (.uncountSub c) rest nx s') :
    (s'.conns c).subN = (s.conns c).subN - 1 ∧ nx = .push [] := by
  obtain ⟨-, s₁, hexec, rfl⟩ := hx
  cases hexec
  exact ⟨by simp [State.setCode, State.modConn], rfl⟩

theorem Executes.closeStop (hx : Executes env s t ch (.closeStop c) rest nx s') :
    (s'.conns c).stopClosed = true ∧ nx = .push [] := by
  obtain ⟨-, s₁, hexec, rfl⟩ := hx
  simp only [exec] at hexec
  split at hexec <;> cases hexec
  · exact ⟨‹_›, rfl⟩
  · exact ⟨by simp [State.setCode, State.modConn], rfl⟩

/-- The handlers of the connection keep the account. -/
theorem Counting.executes {stop : Bool} {n : Int} (hr : Reachable env s)
    (hphase : Counting c stop n (s.code (.inbound c)))
    (hcount : (s.subscribed c : Int) + n ≤ (s.conns c).subN)
    (hlimit : (s.conns c).stopClosed = false →
      (s.subscribed c : Int) ≤ env.cf.clientMaxSubscriptions ∧
        (stop = false → (s.conns c).subN ≤ env.cf.clientMaxSubscriptions))
    (hg : CancelsOwn c s (.run (.inbound c) ch) = true)
    (hx : Executes env s (.inbound c) ch i rest nx s') : s'.WithinLimit env c := by
  have hopen : (s'.conns c).stopClosed = false → (s.conns c).stopClosed = false := by
    obtain h | ⟨-, h⟩ := (hx.conn c).stopClosed <;> simp [h]
  have hsub : (∀ f, i ≠ .subsAdd c f) → s'.subscribed c ≤ s.subscribed c :=
    fun hi => hx.subscribed.resolve_right fun h => h.1.elim hi
  have hsubN : i ≠ .countSub c → i ≠ .uncountSub c → (s'.conns c).subN = (s.conns c).subN := by
    intro hup hdown
    exact hx.subN.resolve_right fun h => h.elim (fun h => hup h.1) fun h => hdown h.1
  rw [hx.code] at hphase
  rw [State.WithinLimit, hx.code_self]
  generalize hl : i :: rest = l at hphase
  cases hphase with
  | even hpaired =>
    cases hpaired with
    | nil => cases hl
    | sub hrest =>
      cases hl
      obtain ⟨hN, rfl⟩ := hx.countSub
      have hS := hsub (by simp)
      split
      · exact ⟨true, 1, .aborting (.stopping (.adding hrest)), by omega, fun h =>
          ⟨by have := (hlimit (hopen h)).1; omega, by simp⟩⟩
      · exact ⟨false, 1, .adding hrest, by omega, fun h =>
          ⟨by have := (hlimit (hopen h)).1; omega, fun _ => by omega⟩⟩
    | unsub hrest =>
      cases hl
      obtain ⟨hN, rfl⟩ := hx.uncountSub
      have hS := hsub (by simp)
      refine ⟨false, -1, .removing hrest, by omega, fun h => ?_⟩
      obtain ⟨hle, hn⟩ := hlimit (hopen h)
      have hn := hn rfl
      exact ⟨by omega, fun _ => by omega⟩
    | other hi hrest =>
      cases hl
      have hS := hsub (by rintro f rfl; cases hi)
      have hN := hsubN (by rintro rfl; cases hi) (by rintro rfl; cases hi)
      obtain ⟨stop', hphase⟩ := hrest.executes hr hi hx
      refine ⟨stop', 0, hphase, by omega, fun h => ?_⟩
      obtain ⟨hle, hn⟩ := hlimit (hopen h)
      have hn := hn rfl
      exact ⟨by omega, fun _ => by omega⟩
  | adding hrest =>
    cases hl
    have hS : s'.subscribed c ≤ s.subscribed c + 1 := by
      obtain h | ⟨-, h⟩ := hx.subscribed (c := c) <;> omega
    have hN := hsubN (by simp) (by simp)
    have hnx : nx = .push [] := by
      obtain ⟨-, s₁, hexec, -⟩ := hx
      simp only [exec] at hexec
      split at hexec <;> cases hexec
      rfl
    subst hnx
    refine ⟨false, 0, .even hrest, by omega, fun h => ?_⟩
    obtain ⟨hle, hn⟩ := hlimit (hopen h)
    have hn := hn rfl
    exact ⟨by omega, fun _ => by omega⟩
  | removing hrest =>
    cases hl
    obtain ⟨hwild, hslot⟩ : isWildcard _ = false ∧ some c ∈ s.subs.slots _ := by
      simpa [CancelsOwn, hx.code] using hg
    obtain ⟨rfl, hlt⟩ := hx.unsub_lt hr hwild hslot
    have hN := hsubN (by simp) (by simp)
    refine ⟨false, 0, .even hrest, by omega, fun h => ?_⟩
    obtain ⟨hle, hn⟩ := hlimit (hopen h)
    have hn := hn rfl
    exact ⟨by omega, fun _ => by omega⟩
  | stopping h =>
    cases hl
    obtain ⟨hclosed, rfl⟩ := hx.closeStop
    have hS := hsub (by simp)
    have hN := hsubN (by simp) (by simp)
    exact ⟨false, _, h, by omega, by simp [hclosed]⟩
  | aborting h =>
    cases hl
    have hS := hsub (by simp)
    have hN := hsubN (by simp) (by simp)
    obtain rfl : nx = .push [] := by
      obtain ⟨-, s₁, hexec, -⟩ := hx
      cases hexec
      rfl
    exact ⟨true, _, h, by omega, fun h => ⟨by have := (hlimit (hopen h)).1; omega, by simp⟩⟩

theorem State.WithinLimit.executes (hr : Reachable env s) (hI : s.WithinLimit env c)
    (hg : CancelsOwn c s (.run t ch) = true) (hx : Executes env s t ch i rest nx s') :
    s'.WithinLimit env c := by
  obtain ⟨stop, n, hphase, hcount, hlimit⟩ := hI
  by_cases ht : .inbound c = t
  · subst ht
    exact hphase.executes hr hcount hlimit hg hx
  · -- the others leave the counter alone, and may cancel
    have hstop : (s'.conns c).stopClosed = (s.conns c).stopClosed := by
      refine (hx.conn c).stopClosed.resolve_right ?_
      rintro ⟨rfl, -⟩
      exact ht (hx.home hr rfl).symm
    have hsubN : (s'.conns c).subN = (s.conns c).subN := by
      obtain h | ⟨rfl, -⟩ | ⟨rfl, -⟩ := hx.subN (c := c)
      · exact h
      · exact absurd (hx.home hr rfl).symm ht
      · exact absurd (hx.home hr rfl).symm ht
    have hsub : s'.subscribed c ≤ s.subscribed c := by
      refine hx.subscribed.resolve_right ?_
      rintro ⟨⟨f, rfl⟩, -⟩
      exact ht (hx.home hr rfl).symm
    refine ⟨stop, n, hx.code_inbound ht ▸ hphase, by omega, fun hopen => ?_⟩
    obtain ⟨hle, hn⟩ := hlimit (hstop ▸ hopen)
    exact ⟨by omega, fun h => hsubN ▸ hn h⟩

theorem State.WithinLimit.accept (hr : Reachable env s) (hI : s.WithinLimit env c) :
    s.accept.WithinLimit env c := by
  have hcalls : s.accept.subscribed c = s.subscribed c := by
    rw [State.subscribed, State.calls_accept, State.subscribed]
  obtain ⟨stop, n, hphase, hcount, hlimit⟩ := hI
  simp only [State.WithinLimit, hcalls]
  by_cases hnil : s.code (.inbound c) = []
  · rw [hnil] at hphase
    obtain hcode | hcode := s.code_accept (.inbound c) <;> rw [hcode]
    · exact ⟨stop, n, hnil ▸ hphase, hcount, hlimit⟩
    · cases hphase
      exact ⟨false, 0, .even (.other rfl .nil), hcount, hlimit⟩
  · rw [hr.accept_code hnil]
    exact ⟨stop, n, hphase, hcount, hlimit⟩

/-- As long as a connection cancels only what it has subscribed, and was not stopped, it
has at most `ClientMaxSubscriptions` slots and wildcards in the index. -/
theorem subscriptions_le_limit {acts : List BrokerAction} (hK : 0 ≤ env.cf.clientMaxSubscriptions)
    (hrun : Transition.run (step env) (init env) acts = some s)
    (hg : Transition.Guarded (step env) (CancelsOwn c · ·) (init env) acts)
    (hstop : (s.conns c).stopClosed = false) :
    (s.subs.refCount c : Int) ≤ env.cf.clientMaxSubscriptions := by
  have hr : Reachable env s := ⟨acts, hrun⟩
  have hinv := Transition.run_invariant (I := fun s => s.WithinLimit env c) ?_ ?_ hrun hg
  · obtain ⟨stop, n, -, -, hlimit⟩ := hinv
    rw [hr.refines.refCount]
    exact (hlimit hstop).1
  · intro s a s' hr hI hg hstep
    obtain ⟨-, ⟨-, rfl⟩ | ⟨-, rfl⟩ | ⟨t, ch, i, rest, nx, rfl, hx⟩⟩ := step_cases hstep
    · exact hI.accept hr
    · exact hI
    · exact hI.executes hr hg hx
  · exact ⟨false, 0, .even .nil, Int.le_refl 0, fun _ => ⟨hK, fun _ => hK⟩⟩

/-- A client subscribes to `t`, unsubscribes from `topic` and subscribes to `u`. -/
def resubscribe (topic : GoString) : List BrokerAction :=
  .accept :: sends 0 (.connect (.named (str "a"))) 9 ++
    sends 0 (.subscribe ⟨1, [(str "t", .atMostOnce)]⟩) 7 ++ sends 0 (.unsubscribe ⟨2, [topic]⟩) 4 ++
    sends 0 (.subscribe ⟨3, [(str "u", .atMostOnce)]⟩) 7

theorem subscriptions_le_limit_resubscribe :
    ∃ s, Transition.run (step oneSubEnv) (init oneSubEnv) (resubscribe (str "t")) = some s ∧
      s.subs.refCount 0 = 1 ∧ (s.conns 0).stopClosed = false ∧
      (s.subs.refCount 0 : Int) ≤ oneSubEnv.cf.clientMaxSubscriptions := by
  have heval : (Transition.run (step oneSubEnv) (init oneSubEnv) (resubscribe (str "t"))).map
      (fun s => decide (s.subs.refCount 0 = 1 ∧ (s.conns 0).stopClosed = false)) = some true := by
    decide +kernel
  obtain ⟨s, hrun, hs⟩ := Option.map_eq_some_iff.1 heval
  obtain ⟨hcount, hstop⟩ := of_decide_eq_true hs
  exact ⟨s, hrun, hcount, hstop,
    subscriptions_le_limit (by decide) hrun (by decide +kernel) hstop⟩

/-- A topic that is not subscribed is counted down too. -/
theorem limit_exceeded :
    (Transition.run (step oneSubEnv) (init oneSubEnv) (resubscribe (str "x"))).map (fun s =>
      decide (s.panicked = none ∧ (s.conns 0).stopClosed = false ∧ s.subs.refCount 0 = 2)) =
    some true := by
  decide +kernel
