-- SUMMARY: The receipt of a job is closed at most once: from `submitSync` to the `outboundLoop` that closes it, it is in one place at a time.
import Mhub.Broker.History
import Mhub.Broker.Waiting

/-!
# Receipts

The receipt of a job is a channel that `outboundLoop` closes when the job is done, and Go
panics when a channel is closed twice. The job is copied on its way: into the queue, from
there into the hands of `outboundLoop`, or directly to it if the queue has no room at
all. Each time the one who hands it over does not keep it. So there is one place at most
that the receipt is in, and it is not closed before it gets there.
-/

variable {env : Env} {s s' : State} {t : Tid} {ch : Choice} {i j : Instr} {rest : List Instr}
  {nx : Next} {c : ConnId} {r : Nat}

/-! ## Places -/

/-- Where a receipt can be. -/
inductive Place where
  /-- The number was not drawn yet. -/
  | unused
  | code (t : Tid)
  | queue (c : ConnId)
  | closed

/-- The instruction leads to the receipt being closed. -/
def Instr.toClose (r : Nat) : Instr → Bool
  | .send _ j | .trySend _ j | .encode _ j => j.r = some r
  | .closeReceipt r' => r' = r
  | _ => false

/-- How often the receipt is in a place. -/
def State.tokens (s : State) (r : Nat) : Place → Nat
  | .unused => if r < s.nextReceipt then 0 else 1
  | .code t => (s.code t).countP (·.toClose r)
  | .queue c => (s.conns c).jobs.countP (·.r = some r)
  | .closed => (s.receipts r).toNat

theorem receipt_of_toClose (h : i.toClose r = true) : i.receipt = some r := by
  cases i <;> simp_all [Instr.toClose, Instr.receipt]

@[simp] theorem State.tokens_setCode_self {l : List Instr} :
    (s.setCode t l).tokens r (.code t) = l.countP (·.toClose r) := by
  simp [State.tokens, State.setCode]

theorem State.tokens_setCode {l : List Instr} {q : Place} (hq : q ≠ .code t) :
    (s.setCode t l).tokens r q = s.tokens r q := by
  cases q with
  | code t' =>
    have ht : t' ≠ t := by simpa using hq
    simp [State.tokens, State.setCode, ht]
  | _ => rfl

theorem countP_apply_le {p : Instr → Bool} :
    (nx.apply rest).countP p ≤ nx.instrs.countP p + rest.countP p := by
  cases nx <;> simp [Next.apply, Next.instrs]

/-! ## Steps -/

/-- An instruction that is not about the receipt moves nothing. -/
theorem Executes.tokens_le (hx : Executes env s t ch i rest nx s') (hi : i.toClose r = false)
    (hsync : ∀ c m, i ≠ .submitSync c m) (hloop : ∀ c, i ≠ .outboundLoop c) (q : Place) :
    s'.tokens r q ≤ s.tokens r q := by
  cases q with
  | unused =>
    obtain heq | ⟨⟨c, m, hi⟩, -⟩ := hx.effects.nextReceipt
    · simp [State.tokens, heq]
    · exact absurd hi (hsync c m)
  | code t' =>
    by_cases ht : t' = t
    · subst ht
      have hnone : nx.instrs.countP (·.toClose r) = 0 := by
        rw [List.countP_eq_zero]
        intro j hj hjr
        obtain ⟨c, m, rfl⟩ | ⟨c, rfl⟩ | ⟨c, j, rfl⟩ :=
          brings_receipt (hx.follows.brings hj) (receipt_of_toClose hjr)
        · exact hsync c m rfl
        · exact hloop c rfl
        · cases Instr.brings_cases (hx.follows.brings hj) with
          | closeReceipt =>
            obtain ⟨-, s₁, hexec, -⟩ := hx
            simp only [exec] at hexec
            split at hexec <;> cases hexec
            have hmem := receipt_of_mem_encoded hj (receipt_of_toClose hjr)
            simp [Instr.toClose, hmem] at hi
          | _ => simp [Instr.toClose] at hjr
      simp only [State.tokens, hx.code_self, hx.code]
      exact countP_apply_le.trans (by rw [hnone, List.countP_cons]; omega)
    · have htouch := hx.touch ht
      simp only [State.tokens]
      generalize s.code t' = l, s'.code t' = l' at htouch
      cases htouch with
      | same => exact Nat.le_refl _
      | @job c j rest hj =>
        have hjr : ¬ j.r = some r := by
          obtain rfl | rfl := hj <;> simpa [Instr.toClose] using hi
        simp [handleJob, Instr.toClose, hjr]
      | post => simp [Instr.toClose]
      | heartbeat => simp [Instr.toClose]
  | queue c =>
    simp only [State.tokens]
    obtain heq | ⟨j, hj, heq⟩ | ⟨hi, -⟩ := (hx.conn c).jobs
    · rw [heq]
    · have hjr : ¬ j.r = some r := by
        obtain rfl | rfl := hj <;> simpa [Instr.toClose] using hi
      simp [heq, hjr]
    · exact absurd hi (hloop c)
  | closed =>
    obtain heq | ⟨r', rfl, heq⟩ := hx.effects.receipts
    · simp [State.tokens, heq]
    · have hne : ¬ r' = r := by simpa [Instr.toClose] using hi
      simp [State.tokens, heq, Ne.symm hne]


section Moves

variable (h : Transition.Lone (s.tokens r))

include h

/-- `submitSync` draws a number that nobody has. -/
theorem Executes.lone_submitSync {m : Message}
    (hx : Executes env s t ch (.submitSync c m) rest nx s') :
    Transition.Lone (s'.tokens r) := by
  obtain ⟨hcode, s₁, hexec, rfl⟩ := hx
  cases hexec
  refine h.move (p := .unused) (q := .code t) (by simp) ?_ ?_
  · intro x hp hq
    rw [State.tokens_setCode hq]
    cases x with
    | unused => exact absurd rfl hp
    | _ => exact Nat.le_refl _
  · rw [State.tokens_setCode (by simp), State.tokens_setCode_self]
    simp only [State.tokens, hcode, Next.apply, List.cons_append, List.nil_append,
      List.countP_cons, Instr.toClose]
    grind

/-- A job that is sent is in the queue, with the receiver, or nowhere. -/
theorem Executes.lone_send {j : Job} (hx : Executes env s t ch i rest nx s')
    (hi : i = .send c j ∨ i = .trySend c j) (hjr : j.r = some r) :
    Transition.Lone (s'.tokens r) := by
  have hclose : i.toClose r = true := by obtain rfl | rfl := hi <;> simp [Instr.toClose, hjr]
  have hhead : i ≠ .outboundLoop c := by obtain rfl | rfl := hi <;> simp
  obtain ⟨hcode, s₁, hexec, rfl⟩ := hx
  obtain ⟨rfl, hs₁⟩ : nx = .push [] ∧ (s₁.tokens r = s.tokens r ∨
      s.enqueue env.cf t c j = some s₁) := by
    obtain rfl | rfl := hi <;> simp only [exec] at hexec <;> repeat' split at hexec
    all_goals cases hexec
    all_goals first | exact ⟨rfl, .inl rfl⟩ | exact ⟨rfl, .inr ‹_›⟩
  have hself : s.tokens r (.code t) = rest.countP (·.toClose r) + 1 := by
    simp [State.tokens, hcode, hclose]
  obtain hs₁ | hs₁ := hs₁
  · refine h.mono fun q => ?_
    by_cases hq : q = .code t
    · subst hq
      simp [Next.apply, hself]
    · rw [State.tokens_setCode hq, hs₁]
  obtain ⟨-, rfl⟩ | ⟨-, rest', hcode', rfl⟩ := State.enqueue_eq_some hs₁
  · refine h.move (p := .code t) (q := .queue c) (by simp) ?_ ?_
    · intro x hp hq
      rw [State.tokens_setCode hp]
      cases x with
      | queue c' =>
        have hc : c' ≠ c := by simpa using hq
        simp [State.tokens, State.log, State.modConn, hc]
      | _ => exact Nat.le_refl _
    · rw [State.tokens_setCode_self, State.tokens_setCode (by simp), hself]
      simp [State.tokens, State.log, State.modConn, Next.apply, hjr]
      omega
  · -- the receiver is another goroutine
    have ht : Tid.outbound c ≠ t := by
      rintro rfl
      rw [hcode] at hcode'
      exact hhead (List.cons.inj hcode').1
    refine h.move (p := .code t) (q := .code (.outbound c)) (by simpa using ht.symm) ?_ ?_
    · intro x hp hq
      rw [State.tokens_setCode hp]
      exact (State.tokens_setCode (s := s) hq).le
    · have hq : s.tokens r (.code (.outbound c)) = rest'.countP (·.toClose r) := by
        simp [State.tokens, hcode', Instr.toClose]
      rw [State.tokens_setCode_self, State.tokens_setCode (by simpa using ht), hself, hq]
      simp [State.tokens, State.log, State.setCode, handleJob, Next.apply, Instr.toClose, hjr]
      omega

theorem Executes.lone_outboundLoop (hx : Executes env s t ch (.outboundLoop c) rest nx s') :
    Transition.Lone (s'.tokens r) := by
  have hcode := hx.code
  have hself : s.tokens r (.code t) = rest.countP (·.toClose r) := by
    simp [State.tokens, hcode, Instr.toClose]
  have hleave : Transition.Lone ((s.setCode t (outboundDefer c)).tokens r) := by
    refine h.mono fun q => ?_
    by_cases hq : q = .code t
    · subst hq
      simp [outboundDefer, Instr.toClose]
    · exact (State.tokens_setCode hq).le
  obtain ⟨-, s₁, hexec, rfl⟩ := hx
  simp only [exec] at hexec
  repeat' split at hexec
  all_goals cases hexec
  next j js hjobs =>
    refine h.move (p := .queue c) (q := .code t) (by simp) ?_ ?_
    · intro x hp hq
      rw [State.tokens_setCode hq]
      cases x with
      | queue c' =>
        have hc : c' ≠ c := by simpa using hp
        simp [State.tokens, State.modConn, hc]
      | _ => exact Nat.le_refl _
    · rw [State.tokens_setCode (by simp), State.tokens_setCode_self, hself]
      simp only [State.tokens, State.modConn, Function.update_self, hjobs, Next.apply, handleJob,
        List.cons_append, List.nil_append, List.countP_cons, Instr.toClose]
      grind
  all_goals exact hleave

/-- Once the job was encoded, its receipt is the next thing to be closed. -/
theorem Executes.lone_encode {j : Job} (hx : Executes env s t ch (.encode c j) rest nx s')
    (hjr : j.r = some r) : Transition.Lone (s'.tokens r) := by
  obtain ⟨hcode, s₁, hexec, rfl⟩ := hx
  simp only [exec] at hexec
  split at hexec <;> cases hexec
  refine h.mono fun q => ?_
  by_cases hq : q = .code t
  · subst hq
    rw [State.tokens_setCode_self]
    simp only [State.tokens, hcode, Next.apply, encoded, hjr, List.cons_append, List.nil_append,
      List.countP_cons, Instr.toClose]
    grind
  · exact (State.tokens_setCode hq).le

theorem Executes.lone_closeReceipt (hx : Executes env s t ch (.closeReceipt r) rest nx s') :
    Transition.Lone (s'.tokens r) := by
  obtain ⟨hcode, s₁, hexec, rfl⟩ := hx
  cases hexec
  refine h.move (p := .code t) (q := .closed) (by simp) ?_ ?_
  · intro x hp hq
    rw [State.tokens_setCode hp]
    cases x with
    | closed => exact absurd rfl hq
    | _ => exact Nat.le_refl _
  · rw [State.tokens_setCode_self, State.tokens_setCode (by simp)]
    simp [State.tokens, hcode, Next.apply, Instr.toClose]

end Moves

theorem Executes.lone (hx : Executes env s t ch i rest nx s') (h : Transition.Lone (s.tokens r)) :
    Transition.Lone (s'.tokens r) := by
  by_cases hi : i.toClose r = true
  · cases i with
    | send c j => exact hx.lone_send h (.inl rfl) (of_decide_eq_true hi)
    | trySend c j => exact hx.lone_send h (.inr rfl) (of_decide_eq_true hi)
    | encode c j => exact hx.lone_encode h (of_decide_eq_true hi)
    | closeReceipt r' =>
      obtain rfl := of_decide_eq_true hi
      exact hx.lone_closeReceipt h
    | _ => cases hi
  · by_cases hsync : ∃ c m, i = .submitSync c m
    · obtain ⟨c, m, rfl⟩ := hsync
      exact hx.lone_submitSync h
    · by_cases hloop : ∃ c, i = .outboundLoop c
      · obtain ⟨c, rfl⟩ := hloop
        exact hx.lone_outboundLoop h
      · refine h.mono (hx.tokens_le (by simpa using hi) ?_ ?_)
        · rintro c m rfl
          exact hsync ⟨c, m, rfl⟩
        · rintro c rfl
          exact hloop ⟨c, rfl⟩

/-! ## Runs -/

/-- A goroutine that is started has no receipt. -/
theorem State.tokens_started (hcode : s'.code t = s.code t ∨ s'.code t = [t.loop]) :
    s'.tokens r (.code t) ≤ s.tokens r (.code t) := by
  obtain hcode | hcode := hcode
  · simp [State.tokens, hcode]
  · cases t <;> simp [State.tokens, hcode, Tid.loop, Instr.toClose]

theorem lone_init : Transition.Lone ((init env).tokens r) := by
  have hzero : ∀ q, q ≠ .unused → (init env).tokens r q = 0 := by
    rintro (_ | t | c | _) hq
    · exact absurd rfl hq
    · cases t <;> simp [State.tokens, init, apply_ite, Instr.toClose]
    · simp [State.tokens, init]
    · simp [State.tokens, init]
  refine ⟨fun q => ?_, fun {q q'} hpos hpos' => ?_⟩
  · by_cases hq : q = .unused
    · subst hq
      simp [State.tokens, init]
    · simp [hzero q hq]
  · have hunused : ∀ {q}, 0 < (init env).tokens r q → q = .unused := by
      intro q hpos
      by_contra hq
      exact Nat.ne_of_gt hpos (hzero q hq)
    rw [hunused hpos, hunused hpos']

theorem Reachable.lone (hr : Reachable env s) (r : Nat) : Transition.Lone (s.tokens r) := by
  refine hr.invariant (I := fun s => Transition.Lone (s.tokens r)) ?_ lone_init
  intro s a s' hr hI hstep
  obtain ⟨-, ⟨-, rfl⟩ | ⟨-, rfl⟩ | ⟨t, ch, i, rest, nx, -, hx⟩⟩ := step_cases hstep
  · refine hI.mono fun q => ?_
    cases q with
    | code t => exact State.tokens_started (s.code_accept t)
    | _ => exact Nat.le_refl _
  · refine hI.mono fun q => ?_
    cases q with
    | code t => exact State.tokens_started (s.code_acceptPeer t)
    | _ => exact Nat.le_refl _
  · exact hx.lone hI

/-- When an `outboundLoop` is about to close the receipt of a job, it is not closed yet,
and no other goroutine is going to close it. -/
theorem receipt_closed_once (hr : Reachable env s) (hcode : s.code t = .closeReceipt r :: rest) :
    s.receipts r = false ∧ (∀ c, ∀ j ∈ (s.conns c).jobs, j.r ≠ some r) ∧
      ∀ t' i, i ∈ s.code t' → i.toClose r = true → t' = t ∧ i = .closeReceipt r := by
  have hlone := hr.lone r
  have hhere : 0 < s.tokens r (.code t) := by simp [State.tokens, hcode, Instr.toClose]
  have helse : ∀ {q}, q ≠ .code t → s.tokens r q = 0 := hlone.eq_zero hhere
  refine ⟨?_, ?_, ?_⟩
  · simpa [State.tokens] using helse (q := .closed) (by simp)
  · intro c j hj hjr
    have hzero : (s.conns c).jobs.countP (·.r = some r) = 0 := helse (q := .queue c) (by simp)
    exact List.countP_eq_zero.1 hzero j hj (by simpa using hjr)
  · intro t' i hi hclose
    have hpos : 0 < s.tokens r (.code t') := List.countP_pos_iff.2 ⟨i, hi, hclose⟩
    obtain rfl : t' = t := by simpa using hlone.eq_of_pos hpos hhere
    refine ⟨rfl, ?_⟩
    have hone : rest.countP (·.toClose r) + 1 ≤ 1 := by
      simpa [State.tokens, hcode, Instr.toClose] using hlone.le_one (.code t')
    rw [hcode, List.mem_cons] at hi
    obtain rfl | hi := hi
    · rfl
    · have hpos : 0 < rest.countP (·.toClose r) := List.countP_pos_iff.2 ⟨i, hi, hclose⟩
      omega

/-- The Disconnect of a client that was taken over was encoded. -/
theorem receipt_closed_once_takeOvers :
    ∃ s : State, Reachable openEnv s ∧
      s.code (.outbound 0) = [.closeReceipt 0, .sent 0 .disconnect, .outboundLoop 0] ∧
      s.receipts 0 = false := by
  have heval : (Transition.run (step openEnv) (init openEnv)
      (takeOvers 1 ++ sendsNext 0 ++ (sendsNext 0).take 3)).map (fun s =>
        s.code (.outbound 0)) =
      some [.closeReceipt 0, .sent 0 .disconnect, .outboundLoop 0] := by decide +kernel
  obtain ⟨s, hrun, hcode⟩ := Option.map_eq_some_iff.1 heval
  exact ⟨s, ⟨_, hrun⟩, hcode, (receipt_closed_once ⟨_, hrun⟩ hcode).1⟩
