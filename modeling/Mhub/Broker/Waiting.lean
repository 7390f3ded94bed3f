-- SUMMARY: Waiting for an `outboundLoop`: the receipts of jobs that are queued for a connection, and the holder of `subs.mu` on a full queue.
import Mhub.Broker.Sender

/-!
# Waiting

`outboundLoop` is the only consumer of the jobs of a connection, and it leaves its
receive loop with whatever is still queued. Two kinds of goroutines depend on it.

`submitSync` queues a job and waits until it was sent. Nobody closes the receipt of a
job that is left in the queue.

`sendRetain` queues a message while it holds `subs.mu`. With the block strategy it
stays there when the queue is full, and what would end the wait is the `outboundLoop`
that itself wants `subs.mu` in order to cancel the subscriptions.
-/

variable {env : Env} {s s' : State} {t : Tid} {ch : Choice} {i : Instr} {rest : List Instr}
  {nx : Next} {c : ConnId} {r : Nat}

/-! ## The receive loop -/

/-- The `outboundLoop` of `c` has not left its receive loop. -/
def State.Serves (s : State) (c : ConnId) : Prop := .outboundLoop c ∈ s.code (.outbound c)

instance State.Serves.decidable (s : State) (c : ConnId) : Decidable (s.Serves c) :=
  inferInstanceAs (Decidable (_ ∈ _))

/-- The connection whose `outboundLoop` leaves its receive loop in a step. -/
def State.leaving (s : State) : BrokerAction → Option ConnId
  | .run t ch =>
    match s.code t, ch with
    -- the jobs are closed
    | .outboundLoop c :: _, .job => if (s.conns c).jobs = [] then some c else none
    | .outboundLoop c :: _, .stopped => some c
    | .sent c m :: _, _ => if m = .disconnect then some c else none
    -- a write error
    | .outboundReturn c :: _, _ => some c
    | _, _ => none
  | _ => none

theorem Executes.serves (hr : Reachable env s) (hx : Executes env s t ch i rest nx s')
    (h : s.Serves c) :
    s'.Serves c ∨ s.leaving (.run t ch) = some c ∧
      s' = s.setCode (.outbound c) (outboundDefer c) := by
  by_cases ht : .outbound c = t
  · subst ht
    have hsender := hr.sender c
    have hcode := hx.code
    rw [State.Serves, hcode] at h
    rw [hcode] at hsender
    generalize hl : i :: rest = l at hsender
    obtain ⟨-, s₁, hexec, rfl⟩ := hx
    cases hsender with
    | left hsuf => exact absurd (hsuf.subset (hl ▸ h)) (by simp [outboundDefer])
    | idle =>
      cases hl
      simp only [exec] at hexec
      repeat' split at hexec
      all_goals cases hexec
      · exact .inl (by simp [State.Serves, State.setCode, Next.apply])
      · exact .inr ⟨by simp [State.leaving, *], rfl⟩
      · exact .inr ⟨by simp [State.leaving, hcode], rfl⟩
    | done hi =>
      cases hl
      cases i <;> simp only [Instr.ends, decide_eq_true_eq, Bool.false_eq_true] at hi <;>
        simp only [exec] at hexec <;> cases hexec <;> subst hi
      · split
        · exact .inr ⟨by simp [State.leaving, *], rfl⟩
        · exact .inl (by simp [State.Serves, State.setCode, Next.apply])
      · exact .inr ⟨by simp [State.leaving, hcode], rfl⟩
    | job j | receipt hi =>
      cases hl
      cases hexec
      exact .inl (by simp [State.Serves, State.setCode, Next.apply])
    | encode j =>
      cases hl
      simp only [exec] at hexec
      split at hexec <;> cases hexec
      exact .inl (by simp [State.Serves, State.setCode, Next.apply])
  · refine .inl ?_
    have htouch := hx.touch ht
    simp only [State.Serves] at h ⊢
    generalize s.code (.outbound c) = l, s'.code (.outbound c) = l' at htouch h
    cases htouch with
    | same => exact h
    | job _ => simp [handleJob]

theorem State.Serves.accept (h : s.Serves c) : s.accept.Serves c := by
  obtain hcode | hcode := s.code_accept (.outbound c) <;> rw [State.Serves, hcode]
  · exact h
  · exact List.mem_singleton_self _

/-! ## Receipts -/

/-- A job with the receipt `r` is queued for `c`, or is in the hands of its
`outboundLoop`. -/
def State.HoldsReceipt (s : State) (c : ConnId) (r : Nat) : Prop :=
  (∃ j ∈ (s.conns c).jobs, j.r = some r) ∨ ∃ i ∈ s.code (.outbound c), i.receipt = some r

theorem receipt_of_mem_outboundDefer (hi : i ∈ outboundDefer c) : i.receipt = none := by
  simp only [outboundDefer, List.mem_cons, List.not_mem_nil, or_false] at hi
  obtain rfl | rfl | rfl | rfl := hi <;> rfl

theorem receipt_of_ends (hi : i.ends c = true) : i.receipt = none := by
  cases i <;> first | rfl | cases hi

theorem receipt_of_mem_encoded {j : Job} {ok : Bool} (hi : i ∈ encoded c j ok)
    (hr : i.receipt = some r) : j.r = some r := by
  obtain ⟨m, _ | r'⟩ := j <;> cases ok <;>
    simp only [encoded, List.mem_cons, List.not_mem_nil, or_false, List.nil_append,
      List.cons_append] at hi
  all_goals first
    | (subst hi; cases hr)
    | obtain rfl | rfl := hi
      · exact hr
      · cases hr

/-- What `outboundLoop` has in its hands it has taken from the queue. -/
theorem Sends.holds (h : Sends env s c s') {j : Instr} (hj : j ∈ s'.code (.outbound c))
    (hr : j.receipt = some r) : s.HoldsReceipt c r := by
  cases h with
  | take hcode hjobs =>
    simp only [State.setCode, Function.update_self, List.mem_cons, List.not_mem_nil, or_false] at hj
    obtain rfl | rfl | rfl := hj
    · cases hr
    · exact .inl ⟨_, by simp [hjobs], hr⟩
    · cases hr
  | persist hcode =>
    refine .inr ⟨j, ?_, hr⟩
    rw [hcode]
    exact List.mem_cons_of_mem _ (by simpa [State.setCode] using hj)
  | encode retain ok hcode =>
    simp only [State.setCode, Function.update_self, List.mem_append, List.mem_singleton] at hj
    obtain hj | rfl := hj
    · exact .inr ⟨.encode c _, hcode ▸ List.mem_cons_self .., receipt_of_mem_encoded hj hr⟩
    · cases hr
  | receipt hi hcode =>
    simp only [State.setCode, Function.update_self, List.mem_cons, List.not_mem_nil, or_false] at hj
    obtain rfl | rfl := hj
    · simp [receipt_of_ends hi] at hr
    · cases hr
  | next =>
    obtain rfl := List.mem_singleton.1 (by simpa [State.setCode] using hj)
    cases hr
  | leave =>
    simp [receipt_of_mem_outboundDefer (by simpa [State.setCode] using hj)] at hr
  | deferred _ hsuf =>
    have hmem := hsuf.subset (List.mem_cons_of_mem _ (by simpa [State.setCode] using hj))
    simp [receipt_of_mem_outboundDefer hmem] at hr

/-- A receipt gets to a connection with a job that is sent to it. -/
theorem Executes.holds (hr : Reachable env s) (hx : Executes env s t ch i rest nx s')
    (h : s'.HoldsReceipt c r) :
    s.HoldsReceipt c r ∨ ∃ j, (i = .send c j ∨ i = .trySend c j) ∧ j.r = some r := by
  obtain ⟨j, hj, hjr⟩ | ⟨j, hj, hjr⟩ := h
  · obtain heq | ⟨j', hi, heq⟩ | ⟨-, j', heq⟩ := (hx.conn c).jobs
    · exact .inl (.inl ⟨j, heq ▸ hj, hjr⟩)
    · rw [heq] at hj
      obtain hj | hj := List.mem_append.1 hj
      · exact .inl (.inl ⟨j, hj, hjr⟩)
      · obtain rfl := List.mem_singleton.1 hj
        exact .inr ⟨j, hi, hjr⟩
    · exact .inl (.inl ⟨j, heq ▸ List.mem_cons_of_mem _ hj, hjr⟩)
  · by_cases ht : .outbound c = t
    · subst ht
      exact .inl ((hx.sends hr).holds hj hjr)
    · have htouch := hx.touch ht
      generalize hl : s.code (.outbound c) = l, s'.code (.outbound c) = l' at htouch hj
      cases htouch with
      | same => exact .inl (.inr ⟨j, hl ▸ hj, hjr⟩)
      | job hi =>
        simp only [handleJob, List.mem_append, List.mem_cons, List.not_mem_nil, or_false] at hj
        obtain ((rfl | rfl) | rfl) | hj := hj
        · cases hjr
        · exact .inr ⟨_, hi, hjr⟩
        · cases hjr
        · exact .inl (.inr ⟨j, hl ▸ List.mem_cons_of_mem _ hj, hjr⟩)

/-- A job that `outboundLoop` takes from the queue it has in its hands. -/
theorem Sends.jobs (h : Sends env s c s') :
    (s'.conns c).jobs = (s.conns c).jobs ∨
      ∃ j, (s.conns c).jobs = j :: (s'.conns c).jobs ∧ .encode c j ∈ s'.code (.outbound c) := by
  cases h with
  | take _ hjobs =>
    exact .inr ⟨_, by simpa [State.setCode, State.modConn] using hjobs, by simp [State.setCode]⟩
  | @persist j =>
    refine .inl ?_
    simp only [State.setCode, State.callStore]
    repeat' split
    all_goals rfl
  | deferred _ _ h => cases h <;> simp [State.setCode, State.modConn, State.panicWith, State.del,
      State.callIndex, State.log]
  | _ => exact .inl rfl

/-- `outboundLoop` has a receipt in its hands until it closes it. -/
theorem Sends.receipt_mono (h : Sends env s c s') (hs : Sender c (s.code (.outbound c)))
    {j : Instr} (hj : j ∈ s.code (.outbound c)) (hr : j.receipt = some r) :
    (∃ j ∈ s'.code (.outbound c), j.receipt = some r) ∨ s'.receipts r = true := by
  cases h with
  | take hcode =>
    obtain rfl := List.mem_singleton.1 (hcode ▸ hj)
    cases hr
  | persist hcode =>
    rw [hcode] at hj
    obtain rfl | hj := List.mem_cons.1 hj
    · cases hr
    · exact .inl ⟨j, by simpa [State.setCode] using hj, hr⟩
  | @encode j' retain ok hcode =>
    rw [hcode] at hj
    obtain rfl | hj := List.mem_cons.1 hj
    · exact .inl ⟨.closeReceipt r, by simp [State.setCode, encoded, show j'.r = some r from hr], rfl⟩
    · obtain rfl := List.mem_singleton.1 hj
      cases hr
  | receipt hi hcode =>
    simp only [hcode, List.mem_cons, List.not_mem_nil, or_false] at hj
    obtain rfl | rfl | rfl := hj
    · cases hr
      exact .inr (by simp [State.setCode])
    · simp [receipt_of_ends hi] at hr
    · cases hr
  | next hi hcode =>
    simp only [hcode, List.mem_cons, List.not_mem_nil, or_false] at hj
    obtain rfl | rfl := hj
    · simp [receipt_of_ends hi] at hr
    · cases hr
  | leave hcode hi =>
    rw [hcode] at hs hj
    cases hs with
    | idle =>
      obtain rfl := List.mem_singleton.1 hj
      cases hr
    | done hi =>
      simp only [List.mem_cons, List.not_mem_nil, or_false] at hj
      obtain rfl | rfl := hj
      · simp [receipt_of_ends hi] at hr
      · cases hr
    | left hsuf => simp [receipt_of_mem_outboundDefer (hsuf.subset hj)] at hr
    | _ => simp [Instr.ends] at hi
  | deferred hcode hsuf =>
    simp [receipt_of_mem_outboundDefer (hsuf.subset (hcode ▸ hj))] at hr

/-- A job stays with its connection until its receipt is closed. -/
theorem Executes.holds_mono (hr : Reachable env s) (hx : Executes env s t ch i rest nx s')
    (h : s.HoldsReceipt c r) : s'.HoldsReceipt c r ∨ s'.receipts r = true := by
  by_cases ht : .outbound c = t
  · subst ht
    have hsends := hx.sends hr
    obtain ⟨j, hj, hjr⟩ | ⟨j, hj, hjr⟩ := h
    · refine .inl ?_
      obtain heq | ⟨j', heq, hmem⟩ := hsends.jobs
      · exact .inl ⟨j, heq ▸ hj, hjr⟩
      · rw [heq] at hj
        obtain rfl | hj := List.mem_cons.1 hj
        · exact .inr ⟨_, hmem, hjr⟩
        · exact .inl ⟨j, hj, hjr⟩
    · exact (hsends.receipt_mono (hr.sender c) hj hjr).imp_left .inr
  · refine .inl ?_
    obtain ⟨j, hj, hjr⟩ | ⟨j, hj, hjr⟩ := h
    · obtain heq | ⟨j', -, heq⟩ | ⟨rfl, -⟩ := (hx.conn c).jobs
      · exact .inl ⟨j, heq ▸ hj, hjr⟩
      · exact .inl ⟨j, heq ▸ List.mem_append_left _ hj, hjr⟩
      · exact absurd (hx.home hr rfl).symm ht
    · have htouch := hx.touch ht
      generalize hl' : s'.code (.outbound c) = l', s.code (.outbound c) = l at htouch hj
      cases htouch with
      | same => exact .inr ⟨j, hl' ▸ hj, hjr⟩
      | job hi =>
        obtain rfl | hj := List.mem_cons.1 hj
        · cases hjr
        · exact .inr ⟨j, hl' ▸ List.mem_append_right _ hj, hjr⟩

/-! ### Runs -/

/-- The step queues no job with a receipt for a connection whose `outboundLoop` has
left its receive loop, and no `outboundLoop` leaves with such a job queued. -/
def ReceiptSafe (s : State) (a : BrokerAction) : Bool :=
  (match a with
    | .run t _ =>
      match s.code t with
      | .send c j :: _ | .trySend c j :: _ => j.r.isSome → s.Serves c
      | _ => true
    | _ => true) &&
  (s.leaving a).all fun c => (s.conns c).jobs.all (·.r.isNone)

/-- Who holds a receipt is going to close it. -/
theorem Executes.holds_serves (hr : Reachable env s) (hx : Executes env s t ch i rest nx s')
    (hg : ReceiptSafe s (.run t ch) = true) (hI : s.HoldsReceipt c r → s.Serves c)
    (h : s'.HoldsReceipt c r) : s'.Serves c := by
  simp only [ReceiptSafe, hx.code, Bool.and_eq_true] at hg
  have hrec : s.Serves c := by
    obtain h | ⟨j, hi, hj⟩ := hx.holds hr h
    · exact hI h
    · obtain rfl | rfl := hi <;> simpa [hj] using hg.1
  obtain h' | ⟨hleave, rfl⟩ := hx.serves hr hrec
  · exact h'
  · -- nothing with a receipt is left behind
    rw [hleave] at hg
    obtain ⟨j, hj, hjr⟩ | ⟨j, hj, hjr⟩ := h
    · have hnone := List.all_eq_true.1 hg.2 j hj
      simp [hjr] at hnone
    · simp [receipt_of_mem_outboundDefer (by simpa [State.setCode] using hj)] at hjr

/-- Where the job is whose receipt a goroutine waits for: it is going to be sent, it
is with a connection, or it is done. -/
def State.Tracked (s : State) (t : Tid) (r : Nat) : Prop :=
  s.receipts r = true ∨ (∃ c, s.HoldsReceipt c r) ∨
    ∃ c m rest, s.code t = .send c ⟨m, some r⟩ :: .wait r :: rest

theorem brings_wait (h : i.brings (.wait r) = true) : ∃ c m, i = .submitSync c m := by
  cases Instr.brings_cases h with
  | wait => exact ⟨_, _, rfl⟩

/-- A job that is sent is with the receiver, or the process is over. -/
theorem Executes.send_holds {j : Job} (hx : Executes env s t ch (.send c j) rest nx s')
    (hjr : j.r = some r) (hp : s'.panicked = none) : s'.HoldsReceipt c r := by
  have hcode := hx.code
  obtain ⟨-, s₁, hexec, rfl⟩ := hx
  simp only [exec] at hexec
  repeat' split at hexec
  all_goals cases hexec
  · cases hp
  · obtain ⟨-, rfl⟩ | ⟨-, rest', hout, rfl⟩ := State.enqueue_eq_some ‹_›
    · exact .inl ⟨j, by simp [State.setCode, State.log, State.modConn], hjr⟩
    · have ht : .outbound c ≠ t := by
        rintro rfl
        simp [hcode] at hout
      exact .inr ⟨.encode c j, by simp [State.setCode, State.log, ht, handleJob], hjr⟩

theorem Executes.receipts_mono (hx : Executes env s t ch i rest nx s') (h : s.receipts r = true) :
    s'.receipts r = true := by
  obtain heq | ⟨r', -, heq⟩ := hx.effects.receipts <;> rw [heq]
  · exact h
  · by_cases hr : r = r' <;> simp [hr, h]

theorem Executes.tracked (hr : Reachable env s) (hx : Executes env s t ch i rest nx s')
    (hI : ∀ t, .wait r ∈ s.code t → s.Tracked t r) (hp : s'.panicked = none) {t' : Tid}
    (h : .wait r ∈ s'.code t') : s'.Tracked t' r := by
  -- what is with a connection or done stays so
  have hkeep : s.receipts r = true ∨ (∃ c, s.HoldsReceipt c r) → s'.Tracked t' r := by
    rintro (hclosed | ⟨c, hc⟩)
    · exact .inl (hx.receipts_mono hclosed)
    · obtain hc | hclosed := hx.holds_mono hr hc
      · exact .inr (.inl ⟨c, hc⟩)
      · exact .inl hclosed
  by_cases ht : t' = t
  · subst ht
    have hmem := h
    rw [hx.code_self] at hmem
    obtain hnew | hold := Next.mem_apply hmem
    · obtain ⟨c, m, rfl⟩ := brings_wait (hx.follows.brings hnew)
      obtain ⟨-, s₁, hexec, rfl⟩ := hx
      cases hexec
      obtain rfl : r = s.nextReceipt := by simpa [Next.instrs] using hnew
      exact .inr (.inr ⟨c, m, rest, by simp [State.setCode, Next.apply]⟩)
    · obtain hc | hc | ⟨c, m, rest', hcode⟩ := hI t' (hx.code ▸ List.mem_cons_of_mem _ hold)
      · exact hkeep (.inl hc)
      · exact hkeep (.inr hc)
      · obtain ⟨rfl, rfl⟩ := List.cons.inj (hx.code.symm.trans hcode)
        exact .inr (.inl ⟨c, hx.send_holds rfl hp⟩)
  · have hold : .wait r ∈ s.code t' := by
      obtain h | ⟨rfl, -⟩ | h := hx.mem_code h
      · exact h
      · exact absurd rfl ht
      · cases t' <;> cases h
    obtain hc | hc | ⟨c, m, rest', hcode⟩ := hI t' hold
    · exact hkeep (.inl hc)
    · exact hkeep (.inr hc)
    · refine .inr (.inr ⟨c, m, rest', ?_⟩)
      have htouch := hx.touch ht
      generalize s.code t' = l, s'.code t' = l' at htouch hcode h
      cases htouch with
      | same => exact hcode
      | job _ | post _ => cases hcode
      | heartbeat _ => simp at h

theorem Reachable.tracked (hr : Reachable env s) (hp : s.panicked = none)
    (h : .wait r ∈ s.code t) : s.Tracked t r := by
  refine hr.invariant (I := fun s => s.panicked = none → ∀ t, .wait r ∈ s.code t → s.Tracked t r)
    ?_ ?_ hp t h
  · intro s a s' hr hI hstep hp' t' h
    obtain ⟨hp, ⟨-, rfl⟩ | ⟨-, rfl⟩ | ⟨t, ch, i, rest, nx, -, hx⟩⟩ := step_cases hstep
    · have hold := (State.mem_code_accept h).resolve_right (by cases t' <;> nofun)
      refine (hI hp t' hold).imp id (Or.imp ?_ ?_)
      · rintro ⟨c, hc⟩
        refine ⟨c, hc.imp_right ?_⟩
        rintro ⟨i, hi, hir⟩
        exact ⟨i, Reachable.accept_code hr (List.ne_nil_of_mem hi) ▸ hi, hir⟩
      · rw [Reachable.accept_code hr (List.ne_nil_of_mem hold)]
        exact id
    · have hold := (State.mem_code_acceptPeer h).resolve_right (by cases t' <;> nofun)
      refine (hI hp t' hold).imp id (Or.imp id ?_)
      rw [Reachable.acceptPeer_code hr (List.ne_nil_of_mem hold)]
      exact id
    · exact hx.tracked hr (hI hp) hp' h
  · intro _ t h
    cases t <;> simp [init] at h

/-- In a run in which no receipt gets to a connection that nobody serves, and none is
left behind, the job a goroutine waits for is with a connection whose `outboundLoop`
has not left its receive loop. -/
theorem wait_served {acts : List BrokerAction}
    (hrun : Transition.run (step env) (init env) acts = some s)
    (hg : Transition.Guarded (step env) (ReceiptSafe · ·) (init env) acts)
    (hwait : s.code t = .wait r :: rest) (hopen : s.receipts r = false) :
    (∀ c, s.HoldsReceipt c r → s.Serves c) ∧ (s.panicked = none → ∃ c, s.HoldsReceipt c r) := by
  have hr : Reachable env s := ⟨acts, hrun⟩
  constructor
  · refine Transition.run_invariant (I := fun s => ∀ c, s.HoldsReceipt c r → s.Serves c) ?_
      ?_ hrun hg
    · intro s a s' hr hI hg hstep c h
      obtain ⟨-, ⟨-, rfl⟩ | ⟨-, rfl⟩ | ⟨t, ch, i, rest, nx, rfl, hx⟩⟩ := step_cases hstep
      · refine State.Serves.accept (hI c ?_)
        refine h.imp_right ?_
        rintro ⟨i, hi, hir⟩
        obtain hi | rfl := State.mem_code_accept hi
        · exact ⟨i, hi, hir⟩
        · cases hir
      · exact hI c h
      · exact hx.holds_serves hr hg (hI c) h
    · rintro c (⟨j, hj, -⟩ | ⟨i, hi, -⟩)
      · cases hj
      · cases hi
  · intro hp
    obtain hclosed | hc | ⟨c, m, rest', hcode⟩ := hr.tracked hp (hwait ▸ List.mem_cons_self ..)
    · simp [hopen] at hclosed
    · exact hc
    · simp [hwait] at hcode

/-- Client `a` is connected, and `n` further connections of it find the first one in
the registry and queue a Disconnect for it. -/
def takeOvers (n : Nat) : List BrokerAction :=
  .accept :: sends 0 (.connect (.named (str "a"))) 9 ++
    (List.range n).flatMap fun k => .accept :: sends (k + 1) (.connect (.named (str "a"))) 5

theorem wait_served_takeOvers :
    ∃ s, Transition.run (step openEnv) (init openEnv) (takeOvers 1) = some s ∧
      s.code (.inbound 1) = .wait 0 :: (s.code (.inbound 1)).tail ∧ s.receipts 0 = false ∧
      ∃ c, s.HoldsReceipt c 0 ∧ s.Serves c := by
  have heval : (Transition.run (step openEnv) (init openEnv) (takeOvers 1)).map
      (fun s => decide (s.code (.inbound 1) = .wait 0 :: (s.code (.inbound 1)).tail ∧
        s.receipts 0 = false ∧ s.panicked = none)) = some true := by decide +kernel
  obtain ⟨s, hrun, hs⟩ := Option.map_eq_some_iff.1 heval
  obtain ⟨hwait, hopen, hp⟩ := of_decide_eq_true hs
  obtain ⟨hserved, hheld⟩ := wait_served hrun (by decide +kernel) hwait hopen
  obtain ⟨c, hc⟩ := hheld hp
  exact ⟨s, hrun, hwait, hopen, c, hc, hserved c hc⟩

/-- Two connections of the client take over the same one. Its `outboundLoop` sends the
first Disconnect and leaves with the other one in the queue. -/
theorem wait_forsaken :
    (Transition.run (step openEnv) (init openEnv)
      (takeOvers 2 ++ sendsNext 0 ++ sendsNext 0 ++ [.run (.outbound 0) .go])).map (fun s =>
      decide (s.panicked = none ∧ (s.code (.inbound 2)).head? = some (.wait 1) ∧
        s.receipts 1 = false ∧ (s.conns 0).jobs = [⟨.disconnect, some 1⟩] ∧ ¬ s.Serves 0)) =
    some true := by
  decide +kernel

/-! ## The subscription mutex -/

/-- The instructions that lock or unlock `subs.mu`. -/
def Instr.locks : Instr → Bool
  | .sendRetain .. | .unlock => true
  | _ => false

/-- How an instruction changes the holder of `subs.mu`. -/
theorem Executes.subsMu (hx : Executes env s t ch i rest nx s') :
    i.locks = false ∧ s'.subsMu = s.subsMu ∨
    (∃ c topic, i = .sendRetain c topic) ∧ s.subsMu = none ∧ s'.subsMu = some t ∨
    i = .unlock ∧ s'.subsMu = none := by
  obtain ⟨-, s₁, hexec, rfl⟩ := hx
  change _ ∧ s₁.subsMu = s.subsMu ∨ _ ∧ _ ∧ s₁.subsMu = some t ∨ _ ∧ s₁.subsMu = none
  cases i <;> simp only [exec, State.callStore, State.callIndex] at hexec
  all_goals repeat' split at hexec
  all_goals cases hexec
  all_goals try obtain ⟨conns, code, rfl⟩ := State.enqueue_frame ‹_›
  all_goals try obtain ⟨posts, code, -, rfl⟩ := State.post_frame ‹_›
  all_goals first
    | exact .inl ⟨rfl, rfl⟩
    | exact .inr (.inr ⟨rfl, rfl⟩)
    | exact .inr (.inl ⟨⟨_, _, rfl⟩, by simpa using ‹¬ s.subsMu.isSome = true›, rfl⟩)

/-- The code of a goroutine that holds `subs.mu` over a call: it is about to submit a
retained message, is at the queue, or is about to unlock. -/
inductive Locked (env : Env) (c : ConnId) : List Instr → Prop where
  | submit {m : Message} {rest : List Instr} : .unlock ∉ rest →
    Locked env c (.submit c m :: .unlock :: rest)
  | send {j : Job} {rest : List Instr} : .unlock ∉ rest →
    env.cf.buffOverflowStrategy = bufferOverflowBlock → Locked env c (.send c j :: .unlock :: rest)
  | trySend {j : Job} {rest : List Instr} : .unlock ∉ rest →
    Locked env c (.trySend c j :: .unlock :: rest)
  | unlock {rest : List Instr} : .unlock ∉ rest → Locked env c (.unlock :: rest)

/-- Who is to unlock `subs.mu` holds it, and its holder is the `inboundLoop` of a
connection that sends itself a retained message. -/
structure Mutex (env : Env) (s : State) : Prop where
  held : ∀ {t}, .unlock ∈ s.code t → s.subsMu = some t
  holder : ∀ {t}, s.subsMu = some t → ∃ c, t = .inbound c ∧ Locked env c (s.code t)

theorem brings_unlock (h : i.brings .unlock = true) : ∃ c topic, i = .sendRetain c topic := by
  cases Instr.brings_cases h with
  | unlock => exact ⟨_, _, rfl⟩

/-- The holder goes on. -/
theorem Locked.executes (hl : Locked env c (i :: rest)) (hx : Executes env s t ch i rest nx s') :
    i = .unlock ∧ .unlock ∉ rest ∧ nx = .push [] ∨ Locked env c (nx.apply rest) := by
  obtain ⟨-, s₁, hexec, rfl⟩ := hx
  cases hl with
  | submit hrest =>
    simp only [exec] at hexec
    repeat' split at hexec
    all_goals cases hexec
    · exact .inr (.unlock hrest)
    · exact .inr (.send hrest ‹_›)
    · exact .inr (.trySend hrest)
  | send hrest _ | trySend hrest =>
    simp only [exec] at hexec
    repeat' split at hexec
    all_goals cases hexec
    all_goals exact .inr (.unlock hrest)
  | unlock hrest =>
    cases hexec
    exact .inl ⟨rfl, hrest, rfl⟩

theorem Mutex.executes (hr : Reachable env s) (hI : Mutex env s)
    (hx : Executes env s t ch i rest nx s') : Mutex env s' := by
  have hmu := hx.subsMu
  constructor
  · intro t' h
    by_cases ht : t' = t
    · subst ht
      rw [hx.code_self] at h
      obtain hnew | hold := Next.mem_apply h
      · obtain ⟨c, topic, rfl⟩ := brings_unlock (hx.follows.brings hnew)
        obtain ⟨hi, -⟩ | ⟨-, -, heq⟩ | ⟨hi, -⟩ := hmu
        · cases hi
        · exact heq
        · cases hi
      · have hmine := hI.held (hx.code ▸ List.mem_cons_of_mem _ hold)
        obtain ⟨-, heq⟩ | ⟨-, hfree, -⟩ | ⟨rfl, -⟩ := hmu
        · exact heq.trans hmine
        · simp [hfree] at hmine
        · -- it unlocks once
          obtain ⟨c, -, hl⟩ := hI.holder hmine
          rw [hx.code] at hl
          cases hl with
          | unlock hrest => exact absurd hold hrest
    · have hold : .unlock ∈ s.code t' := by
        obtain h | ⟨rfl, -⟩ | h := hx.mem_code h
        · exact h
        · exact absurd rfl ht
        · cases t' <;> cases h
      have hother := hI.held hold
      obtain ⟨-, heq⟩ | ⟨-, hfree, -⟩ | ⟨rfl, -⟩ := hmu
      · exact heq.trans hother
      · simp [hfree] at hother
      · exact absurd (Option.some.inj (hother.symm.trans (hI.held hx.mem_self))) ht
  · intro t' h
    obtain ⟨hi, heq⟩ | ⟨⟨c, topic, rfl⟩, hfree, heq⟩ | ⟨-, heq⟩ := hmu
    · obtain ⟨c, rfl, hl⟩ := hI.holder (heq ▸ h)
      refine ⟨c, rfl, ?_⟩
      by_cases ht : .inbound c = t
      · subst ht
        rw [hx.code] at hl
        rw [hx.code_self]
        refine (hl.executes hx).resolve_left ?_
        rintro ⟨rfl, -⟩
        cases hi
      · rw [hx.code_inbound ht]
        exact hl
    · obtain rfl := hx.home hr rfl
      obtain rfl := Option.some.inj (heq.symm.trans h)
      have hrest : .unlock ∉ rest := by
        intro hmem
        have hmine := hI.held (hx.code ▸ List.mem_cons_of_mem _ hmem)
        simp [hfree] at hmine
      refine ⟨c, rfl, ?_⟩
      rw [hx.code_self]
      obtain ⟨-, ⟨-, rfl⟩ | ⟨r, -, -, rfl, -⟩⟩ := hx.sendRetain
      · exact .unlock hrest
      · exact .submit hrest
    · simp [heq] at h

theorem Reachable.mutex (hr : Reachable env s) : Mutex env s := by
  refine hr.invariant ?_ ?_
  · intro s a s' hr hI hstep
    obtain ⟨-, ⟨-, rfl⟩ | ⟨-, rfl⟩ | ⟨t, ch, i, rest, nx, -, hx⟩⟩ := step_cases hstep
    · refine ⟨fun {t} h => ?_, fun {t} h => ?_⟩
      · exact hI.held ((State.mem_code_accept h).resolve_right (by cases t <;> nofun))
      · obtain ⟨c, rfl, hl⟩ := hI.holder h
        refine ⟨c, rfl, ?_⟩
        rwa [Reachable.accept_code hr]
        rintro hnil
        rw [hnil] at hl
        cases hl
    · refine ⟨fun {t} h => ?_, fun {t} h => ?_⟩
      · exact hI.held ((State.mem_code_acceptPeer h).resolve_right (by cases t <;> nofun))
      · obtain ⟨c, rfl, hl⟩ := hI.holder h
        exact ⟨c, rfl, hl⟩
    · exact hI.executes hr hx
  · refine ⟨fun {t} h => ?_, nofun⟩
    cases t <;> simp [init] at h

/-! ### Runs -/

/-- With the block strategy, the step sends no retained message to a connection whose
`outboundLoop` has left its receive loop, and no `outboundLoop` leaves while the
`inboundLoop` of its connection holds `subs.mu`. -/
def MutexSafe (cf : BrokerConfig) (s : State) (a : BrokerAction) : Bool :=
  cf.buffOverflowStrategy ≠ bufferOverflowBlock ||
    (match a with
      | .run t _ =>
        match s.code t with
        | .sendRetain c topic :: _ =>
          !isWildcard topic && (s.subs.retain topic).isSome → s.Serves c
        | _ => true
      | _ => true) &&
    (s.leaving a).all fun c => s.subsMu ≠ some (.inbound c)

/-- The connection on whose full queue a goroutine is blocked. -/
def State.blockedOn (cf : BrokerConfig) (s : State) (t : Tid) : Option ConnId :=
  match s.code t with
  | .send c _ :: _ =>
    if (s.conns c).jobsClosed = false ∧ cf.clientOutboundQueueLen ≤ (s.conns c).jobs.length then
      some c
    else none
  | _ => none

theorem State.blockedOn_eq_some (h : s.blockedOn env.cf t = some c) :
    ∃ j rest, s.code t = .send c j :: rest := by
  simp only [State.blockedOn] at h
  repeat' split at h
  all_goals cases h
  exact ⟨_, _, ‹_›⟩

/-- If the holder of `subs.mu` has something to send, somebody receives it. -/
def State.Relieved (s : State) (c : ConnId) : Prop :=
  s.subsMu = some (.inbound c) → (s.code (.inbound c)).head? ≠ some .unlock → s.Serves c

theorem State.Relieved.executes (hblock : env.cf.buffOverflowStrategy = bufferOverflowBlock)
    (hr : Reachable env s) (hg : MutexSafe env.cf s (.run t ch) = true) (hI : s.Relieved c)
    (hx : Executes env s t ch i rest nx s') : s'.Relieved c := by
  simp only [MutexSafe, hblock, hx.code, ne_eq, not_true_eq_false, decide_false, Bool.false_or,
    Bool.and_eq_true] at hg
  intro hmine hnext
  have hrec : s.Serves c := by
    by_cases ht : .inbound c = t
    · subst ht
      rw [hx.code_self] at hnext
      obtain ⟨hi, heq⟩ | ⟨⟨c', topic, rfl⟩, -⟩ | ⟨-, heq⟩ := hx.subsMu
      · refine hI (heq ▸ hmine) ?_
        rw [hx.code]
        rintro ⟨⟩
        cases hi
      · cases hx.home hr rfl
        obtain ⟨-, ⟨-, rfl⟩ | ⟨r, hwild, hsome, -⟩⟩ := hx.sendRetain
        · exact absurd rfl hnext
        · simpa [hwild, hsome] using hg.1
      · simp [heq] at hmine
    · rw [hx.code_inbound ht] at hnext
      refine hI ?_ hnext
      obtain ⟨-, heq⟩ | ⟨-, -, heq⟩ | ⟨-, heq⟩ := hx.subsMu
      · exact heq ▸ hmine
      · exact absurd (Option.some.inj (hmine.symm.trans heq)) ht
      · simp [heq] at hmine
  obtain h | ⟨hleave, rfl⟩ := hx.serves hr hrec
  · exact h
  · rw [hleave] at hg
    simpa [show s.subsMu = some (.inbound c) from hmine] using hg.2

/-- The holder of `subs.mu` is blocked on no full queue whose consumer is gone: never
with the discard strategy, and with the block strategy in a run whose steps are safe. -/
theorem holder_served {acts : List BrokerAction}
    (hrun : Transition.run (step env) (init env) acts = some s)
    (hg : Transition.Guarded (step env) (MutexSafe env.cf · ·) (init env) acts)
    (hmu : s.subsMu = some t) (hblocked : s.blockedOn env.cf t = some c) : s.Serves c := by
  have hr : Reachable env s := ⟨acts, hrun⟩
  obtain ⟨j, rest, hcode⟩ := State.blockedOn_eq_some hblocked
  obtain ⟨c', rfl, hl⟩ := hr.mutex.holder hmu
  rw [hcode] at hl
  cases hl with
  | send hrest hblock =>
    refine Transition.run_invariant (I := fun s => s.Relieved c) ?_ nofun hrun hg hmu
      (by simp [hcode])
    intro s a s' hr hI hg hstep
    obtain ⟨-, ⟨-, rfl⟩ | ⟨-, rfl⟩ | ⟨t, ch, i, rest, nx, rfl, hx⟩⟩ := step_cases hstep
    · intro hmu hnext
      refine State.Serves.accept (hI hmu fun hhead => hnext ?_)
      rwa [Reachable.accept_code hr]
      exact List.ne_nil_of_mem (List.mem_of_mem_head? hhead)
    · exact hI
    · exact hI.executes hblock hr hg hx

/-- A broker whose queues have room for one message. -/
def narrowEnv : Env where
  cf := { allowAnonymousConnect := true, clientOutboundQueueLen := 1, subscriptionsWorkers := 1 }
  grow := (· + 1)

/-- A message on `t` comes in through a peer and is retained. A client connects, its
`outboundLoop` takes the acknowledgement, and the answer to its SUBSCRIBE fills the
queue. -/
def fillQueue : List BrokerAction :=
  [.acceptPeer, .run (.replay 0) (.recv (.publish true ⟨0, .atMostOnce, str "t", 0, str "x"⟩)),
    .run (.replay 0) .go] ++
  List.replicate 5 (.run (.worker 0) .go) ++
  .accept :: sends 0 (.connect (.named (str "a"))) 9 ++
  [.run (.outbound 0) .job, .run (.outbound 0) .go] ++
  sends 0 (.subscribe ⟨1, [(str "t", .atMostOnce)]⟩) 5

theorem holder_served_fillQueue :
    ∃ s, Transition.run (step narrowEnv) (init narrowEnv)
        (fillQueue ++ List.replicate 2 (.run (.inbound 0) .go)) = some s ∧
      s.subsMu = some (.inbound 0) ∧ s.blockedOn narrowEnv.cf (.inbound 0) = some 0 ∧
      s.Serves 0 := by
  have heval : (Transition.run (step narrowEnv) (init narrowEnv)
      (fillQueue ++ List.replicate 2 (.run (.inbound 0) .go))).map (fun s => decide (
        s.subsMu = some (.inbound 0) ∧ s.blockedOn narrowEnv.cf (.inbound 0) = some 0)) =
      some true := by decide +kernel
  obtain ⟨s, hrun, hs⟩ := Option.map_eq_some_iff.1 heval
  obtain ⟨hmu, hblocked⟩ := of_decide_eq_true hs
  exact ⟨s, hrun, hmu, hblocked, holder_served hrun (by decide +kernel) hmu hblocked⟩

/-- The acknowledgement cannot be written. `sendRetain` then waits for room in a queue
that nobody empties, and `outboundLoop` for the mutex. -/
theorem holder_forsaken :
    (Transition.run (step narrowEnv) (init narrowEnv)
      (fillQueue ++ [.run (.outbound 0) (.encode false), .run (.outbound 0) .go] ++
        List.replicate 2 (.run (.inbound 0) .go) ++
        List.replicate 3 (.run (.outbound 0) .go))).map (fun s =>
      decide (s.panicked = none ∧ s.subsMu = some (.inbound 0) ∧
        s.blockedOn narrowEnv.cf (.inbound 0) = some 0 ∧ ¬ s.Serves 0 ∧
        s.code (.outbound 0) = [.unsubAll 0])) = some true := by
  decide +kernel
