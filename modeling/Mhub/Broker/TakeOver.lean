-- SUMMARY: Taking over a client id: the old connection is deleted only after its `outboundLoop` has sent DISCONNECT, and after that it is sent nothing.
import Mhub.Broker.History
import Mhub.Broker.Registry
import Mhub.Broker.Waiting
import Mhub.Broker.Wire

/-!
# Taking over

`doConnect` makes room for a client that comes back under its id. It sends the old
connection a DISCONNECT with `submitSync`, which waits for the receipt, and then deletes
the connection. The receipt is a number that travels with the job: from the sender into
the queue, from there into the hands of `outboundLoop`, which closes it when the message
was encoded. Nobody else gets to use the number, so whoever waited for it knows that the
message was encoded (`State.Sync`).

A DISCONNECT is the last message that an `outboundLoop` encodes. When the old connection
is deleted it has therefore been sent all it will ever be sent.
-/

variable {env : Env} {s s' : State} {t : Tid} {ch : Choice} {i j : Instr} {rest : List Instr}
  {nx : Next} {c e : ConnId} {r : Nat} {m : Message} {a : BrokerAction}

/-! ## What a receipt stands for -/

/-- The job with the receipt `r` that an instruction is about: to whom it goes and what
it says. -/
def Instr.concerns (r : Nat) : Instr → Option (ConnId × Message)
  | .send c j | .trySend c j | .encode c j => if j.r = some r then some (c, j.m) else none
  | _ => none

/-- The message was encoded for the connection. -/
def State.Sent (s : State) (c : ConnId) (m : Message) : Prop :=
  ∃ retain ok, .encoded c m retain ok ∈ s.trace

/-- The receipt `r` belongs to the message `m` for `e`, wherever it is. It is closed after
the message was encoded. -/
structure State.Sync (s : State) (r : Nat) (e : ConnId) (m : Message) : Prop where
  issued : r < s.nextReceipt
  code : ∀ {t i x}, i ∈ s.code t → i.concerns r = some x → x = (e, m)
  jobs : ∀ {c} {j : Job}, j ∈ (s.conns c).jobs → j.r = some r → c = e ∧ j.m = m
  closing : ∀ {t}, .closeReceipt r ∈ s.code t → s.Sent e m
  closed : s.receipts r = true → s.Sent e m

theorem State.Sent.mono (h : s.Sent c m) (htr : ∀ ev ∈ s.trace, ev ∈ s'.trace) : s'.Sent c m := by
  obtain ⟨retain, ok, h⟩ := h
  exact ⟨retain, ok, htr _ h⟩

theorem receipt_of_concerns {x : ConnId × Message} (h : i.concerns r = some x) :
    i.receipt = some r := by
  cases i <;> simp only [Instr.concerns, Option.ite_none_right_eq_some, reduceCtorEq] at h <;>
    exact h.1

theorem Instr.Hands.concerns (h : i.Hands j) {x : ConnId × Message} (hj : j.concerns r = some x) :
    i.concerns r = some x := by
  cases h <;> first | exact hj | cases hj

/-- What comes next has the receipt from the job that is sent or taken. -/
theorem Executes.concerns_next (hx : Executes env s t ch i rest nx s') (h : s.Sync r e m)
    (hj : j ∈ nx.instrs) {x : ConnId × Message} (hjr : j.concerns r = some x) : x = (e, m) := by
  cases Instr.brings_cases (hx.follows.brings hj) with
  | sendSync =>
    -- the number it draws is another one
    obtain ⟨-, s₁, hexec, -⟩ := hx
    cases hexec
    have hissued := h.issued
    simp only [Next.instrs, List.mem_cons, List.not_mem_nil, or_false, reduceCtorEq,
      Instr.send.injEq, Job.mk.injEq, true_and] at hj
    subst hj
    simp only [Instr.concerns, Option.ite_none_right_eq_some, Option.some.injEq] at hjr
    omega
  | @encode c j =>
    obtain ⟨j', hj', rfl⟩ : ∃ j' ∈ (s.conns c).jobs, j' = j := by
      obtain ⟨-, s₁, hexec, -⟩ := hx
      simp only [exec] at hexec
      repeat' split at hexec
      all_goals cases hexec
      all_goals simp_all [Next.instrs, handleJob, outboundDefer]
    simp only [Instr.concerns, Option.ite_none_right_eq_some, Option.some.injEq] at hjr
    obtain ⟨hr, rfl⟩ := hjr
    obtain ⟨rfl, rfl⟩ := h.jobs hj' hr
    rfl
  | _ => cases hjr

theorem Executes.closes (hx : Executes env s t ch i rest nx s') (h : s.Sync r e m)
    (hj : .closeReceipt r ∈ nx.instrs) : s'.Sent e m := by
  cases Instr.brings_cases (hx.follows.brings hj) with
  | @closeReceipt c j =>
    have hself : ∀ {x}, (Instr.encode c j).concerns r = some x → x = (e, m) := h.code hx.mem_self
    obtain ⟨-, s₁, hexec, rfl⟩ := hx
    simp only [exec] at hexec
    split at hexec <;> cases hexec
    have hjr : j.r = some r := receipt_of_mem_encoded hj rfl
    obtain ⟨rfl, rfl⟩ := Prod.mk.inj (hself (x := (c, j.m)) (by simp [Instr.concerns, hjr]))
    exact ⟨_, _, List.mem_append_right _ (List.mem_singleton_self _)⟩

theorem State.Sync.executes (h : s.Sync r e m) (hx : Executes env s t ch i rest nx s') :
    s'.Sync r e m := by
  have hself : ∀ {x}, i.concerns r = some x → x = (e, m) := h.code hx.mem_self
  have hmono : s.Sent e m → s'.Sent e m := fun h => h.mono fun _ => hx.trace_mono
  refine ⟨?_, ?_, ?_, ?_, ?_⟩
  · obtain heq | ⟨-, heq⟩ := hx.effects.nextReceipt
    · exact heq ▸ h.issued
    · exact heq ▸ Nat.lt_succ_of_lt h.issued
  · intro t' j x hj hjr
    obtain hold | ⟨rfl, hnew⟩ | ⟨-, hhands⟩ := hx.mem_code_cases hj
    · exact h.code hold hjr
    · exact hx.concerns_next h hnew hjr
    · exact hself (hhands.concerns hjr)
  · intro c j hj hjr
    obtain heq | ⟨j', hi, heq⟩ | ⟨-, j', heq⟩ := (hx.conn c).jobs
    · exact h.jobs (heq ▸ hj) hjr
    · obtain hj | hj := List.mem_append.1 (heq ▸ hj)
      · exact h.jobs hj hjr
      · obtain rfl := List.mem_singleton.1 hj
        have hx := hself (x := (c, j.m)) (by obtain rfl | rfl := hi <;> simp [Instr.concerns, hjr])
        exact Prod.mk.inj hx
    · exact h.jobs (heq ▸ List.mem_cons_of_mem _ hj) hjr
  · intro t' hj
    obtain hold | ⟨rfl, hnew⟩ | ⟨-, hhands⟩ := hx.mem_code_cases hj
    · exact hmono (h.closing hold)
    · exact hx.closes h hnew
    · cases hhands
  · intro hclosed
    obtain heq | ⟨r', rfl, heq⟩ := hx.effects.receipts
    · exact hmono (h.closed (heq ▸ hclosed))
    · by_cases hr : r = r'
      · subst hr
        exact hmono (h.closing hx.mem_self)
      · exact hmono (h.closed (by simpa [heq, hr] using hclosed))

theorem State.Sync.step (h : s.Sync r e m) (hstep : step env s a = some s') : s'.Sync r e m := by
  obtain ⟨-, ⟨-, rfl⟩ | ⟨-, rfl⟩ | ⟨t, ch, i, rest, nx, -, hx⟩⟩ := step_cases hstep
  · have hmono : s.Sent e m → s.accept.Sent e m := fun h =>
      h.mono fun _ h => List.mem_append_left _ h
    refine ⟨h.issued, fun {t i x} hi hx => ?_, h.jobs, fun {t} hi => ?_,
      fun h' => hmono (h.closed h')⟩
    · obtain hold | rfl := State.mem_code_accept hi
      · exact h.code hold hx
      · cases t <;> cases hx
    · obtain hold | hloop := State.mem_code_accept hi
      · exact hmono (h.closing hold)
      · cases t <;> cases hloop
  · refine ⟨h.issued, fun {t i x} hi hx => ?_, h.jobs, fun {t} hi => ?_, h.closed⟩
    · obtain hold | rfl := State.mem_code_acceptPeer hi
      · exact h.code hold hx
      · cases t <;> cases hx
    · obtain hold | hloop := State.mem_code_acceptPeer hi
      · exact h.closing hold
      · cases t <;> cases hloop
  · exact h.executes hx

/-- `submitSync` draws a new number for its message. -/
theorem Executes.sync (hr : Reachable env s)
    (hx : Executes env s t ch (.submitSync e m) rest nx s') :
    nx = .push [.send e ⟨m, some s.nextReceipt⟩, .wait s.nextReceipt] ∧
      s'.Sync s.nextReceipt e m := by
  have hissued := hr.issued
  obtain ⟨hcode, s₁, hexec, rfl⟩ := hx
  cases hexec
  have hmem : ∀ {t' i}, i ∈ (s.setCode t ([.send e ⟨m, some s.nextReceipt⟩, .wait s.nextReceipt] ++
      rest)).code t' → i.receipt = some s.nextReceipt →
      i = .send e ⟨m, some s.nextReceipt⟩ ∨ i = .wait s.nextReceipt := by
    intro t' i hi hreceipt
    by_cases ht : t' = t
    · subst ht
      simp only [State.setCode, Function.update_self, List.cons_append, List.nil_append,
        List.mem_cons] at hi
      obtain rfl | rfl | hi := hi
      · exact .inl rfl
      · exact .inr rfl
      · exact absurd (hissued.code (hcode ▸ List.mem_cons_of_mem _ hi) hreceipt) (Nat.lt_irrefl _)
    · simp only [State.setCode, Function.update_of_ne ht] at hi
      exact absurd (hissued.code hi hreceipt) (Nat.lt_irrefl _)
  refine ⟨rfl, Nat.lt_succ_self _, ?_, ?_, ?_, ?_⟩
  · intro t' i x hi hx
    obtain rfl | rfl := hmem hi (receipt_of_concerns hx)
    · simpa [Instr.concerns, eq_comm] using hx
    · cases hx
  · intro c j hj hjr
    exact absurd (hissued.jobs hj hjr) (Nat.lt_irrefl _)
  · intro t' hi
    obtain h | h := hmem hi rfl <;> cases h
  · intro hclosed
    exact absurd (hissued.closed hclosed) (Nat.lt_irrefl _)

/-! ## Waiting for the old connection -/

/-- What is known is that `e` was sent a DISCONNECT. `R` are the receipts for it. -/
def waitOutline (e : ConnId) (R : Nat → Prop) : Outline Instr Prop :=
  Outline.once (· = .del e) fun i => i = .submitSync e .disconnect ∨ ∃ r, i = .wait r ∧ R r

variable {R R' : Nat → Prop} {sent sent' : Prop}

theorem waitOutline_mono {l : List Instr} (hR : ∀ r, R r → R' r) (hsent : sent → sent')
    (h : (waitOutline e R).Ok sent l) : (waitOutline e R').Ok sent' l := by
  induction l generalizing sent sent' with
  | nil => trivial
  | cons i l ih =>
    refine ⟨fun hi => hsent (h.1 hi), ih ?_ h.2⟩
    exact Or.imp hsent (Or.imp_right (Exists.imp fun r => And.imp_right (hR r)))

theorem waitOutline_follows (hf : Follows env i nx) (hi : i.home ≠ some (.outbound e)) :
    (waitOutline e R).Ok sent nx.instrs := by
  by_cases hmem : .del e ∈ nx.instrs
  · obtain ⟨c, rfl⟩ := (brings_del (hf.brings hmem)).resolve_right hi
    cases hf with
    | falls _ => cases hmem
    | takeOver e' =>
      simp only [Next.instrs, List.mem_cons, reduceCtorEq, Instr.del.injEq, List.not_mem_nil,
        or_false, false_or] at hmem
      subst hmem
      simp [Outline.Ok, Outline.once, waitOutline, Next.instrs]
  · exact Outline.ok_once_of_not fun j hj h => hmem (h ▸ hj)

theorem Executes.wait_closed (hx : Executes env s t ch (.wait r) rest nx s') :
    s'.receipts r = true := by
  obtain ⟨-, s₁, hexec, rfl⟩ := hx
  simp only [exec] at hexec
  split at hexec <;> cases hexec
  assumption

theorem Reachable.waits (hr : Reachable env s) (c e : ConnId) :
    (waitOutline e (s.Sync · e .disconnect)).Ok (s.Sent e .disconnect) (s.code (.inbound c)) := by
  refine hr.invariant (I := fun s => (waitOutline e (s.Sync · e .disconnect)).Ok
    (s.Sent e .disconnect) (s.code (.inbound c))) ?_ (by trivial)
  intro s a s' hr hI hstep
  have hR : ∀ r, s.Sync r e .disconnect → s'.Sync r e .disconnect := fun r h => h.step hstep
  have hmono : s.Sent e .disconnect → s'.Sent e .disconnect := fun h =>
    h.mono fun ev hev => mem_trace_mono hstep hev
  obtain ⟨-, ⟨-, rfl⟩ | ⟨-, rfl⟩ | ⟨t, ch, i, rest, nx, -, hx⟩⟩ := step_cases hstep
  · exact waitOutline_mono hR hmono (State.accept_outline hI fun _ h => by cases h)
  · exact waitOutline_mono hR hmono hI
  · refine hx.outline (waitOutline_mono hR id hI) hmono fun ht =>
      ⟨waitOutline_follows hx.follows ?_, ?_⟩
    · intro hhome
      cases (hx.home hr hhome).symm.trans ht
    · rintro (h | rfl | ⟨r, rfl, hsync⟩)
      · exact Outline.after_of (hmono h)
      · obtain ⟨rfl, hsync⟩ := hx.sync hr
        exact .inr (.inr ⟨_, rfl, hsync⟩)
      · exact Outline.after_of (hsync.closed hx.wait_closed)

/-! ## The last message of the old connection -/

theorem State.Sent.mem_encodedFor (h : s.Sent c m) : ∃ ok, (m, ok) ∈ s.encodedFor c := by
  obtain ⟨retain, ok, h⟩ := h
  exact ⟨ok, List.mem_filterMap.2 ⟨_, h, by simp [Event.encodedFor]⟩⟩

/-- A DISCONNECT is the last message that is encoded. -/
theorem Reachable.disconnect_last {ok : Bool} {ms ms' : List (Message × Bool)}
    (hr : Reachable env s)
    (h : s.encodedFor e = ms ++ (.disconnect, ok) :: ms') : ms' = [] := by
  by_contra hne
  have hgoes := (hr.wired e).goesOn
  rw [h, List.dropLast_append_of_ne_nil (by simp), List.dropLast_cons_of_ne_nil hne] at hgoes
  exact (hgoes (.disconnect, ok) (by simp)).2 rfl

theorem Reachable.disconnect_stays {a : BrokerAction} {ok : Bool} {ms : List (Message × Bool)}
    (hr : Reachable env s) (hstep : step env s a = some s')
    (h : s.encodedFor e = ms ++ [(.disconnect, ok)]) :
    s'.encodedFor e = ms ++ [(.disconnect, ok)] := by
  obtain ⟨es, htr⟩ := step_trace_append hstep
  have hext : s'.encodedFor e = ms ++ (.disconnect, ok) :: es.filterMap (Event.encodedFor e) := by
    simp only [State.encodedFor] at h
    simp [State.encodedFor, htr, h]
  rw [hext, Reachable.disconnect_last (hr.tail hstep) hext]

/-- When `doConnect` deletes the connection whose client id it takes over, the last thing
that was encoded for that connection is a DISCONNECT. However the broker goes on, nothing
else is encoded for it. -/
theorem taken_over_silent {acts : List BrokerAction} (hr : Reachable env s)
    (hcode : s.code (.inbound c) = .del e :: rest)
    (hrun : Transition.run (step env) s acts = some s') :
    ∃ ms ok, s.encodedFor e = ms ++ [(.disconnect, ok)] ∧
      s'.encodedFor e = ms ++ [(.disconnect, ok)] := by
  have hsent : s.Sent e .disconnect := by
    have hok := hr.waits c e
    rw [hcode] at hok
    exact hok.1 rfl
  obtain ⟨ok, hmem⟩ := hsent.mem_encodedFor
  obtain ⟨ms, ms', heq⟩ := List.append_of_mem hmem
  obtain rfl := hr.disconnect_last heq
  refine ⟨ms, ok, heq, ?_⟩
  exact Transition.Reachable.run_invariant (G := fun _ _ => True)
    (I := fun u => u.encodedFor e = ms ++ [(.disconnect, ok)])
    (fun u a u' hu hI _ hstep => Reachable.disconnect_stays hu hstep hI) hr heq hrun
    (Transition.Guarded.of_forall (fun _ _ => trivial) _ _)

/-- Connection `1` has taken over the client id of connection `0` up to `del`. -/
theorem taken_over_silent_takeOverRun :
    ∃ s s' : State, Reachable presenceEnv s ∧ s.code (.inbound 1) = .del 0 :: s'.code (.inbound 1) ∧
      s'.encodedFor 0 = [(.connAck .accepted, true), (.disconnect, true)] := by
  have heval : (Transition.run (step presenceEnv) (init presenceEnv)
      (acceptedAs ++ comesAs (.named (str "a")) ++ takeOverRun 1)).bind (fun s =>
        (Transition.run (step presenceEnv) s [.run (.inbound 1) .go]).map fun s' =>
          decide (s.code (.inbound 1) = .del 0 :: s'.code (.inbound 1) ∧
            s.encodedFor 0 = [(.connAck .accepted, true), (.disconnect, true)])) = some true := by
    decide +kernel
  obtain ⟨s, hs, heval⟩ := Option.bind_eq_some_iff.1 heval
  obtain ⟨s', hs', heval⟩ := Option.map_eq_some_iff.1 heval
  obtain ⟨hcode, henc⟩ := of_decide_eq_true heval
  obtain ⟨ms, ok, heq, heq'⟩ := taken_over_silent ⟨_, hs⟩ hcode hs'
  exact ⟨s, s', ⟨_, hs⟩, hcode, heq'.trans (heq.symm.trans henc)⟩
