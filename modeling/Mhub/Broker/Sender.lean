-- SUMMARY: The `outboundLoop` of a connection: where it can be in its code, what one step of it does, and the receipts it closes.
import Mhub.Broker.Effects

/-!
# Sender

`outboundLoop` takes one job at a time: it makes the store call of the job, encodes
it, closes the receipt if someone waits for it, and takes the next one or leaves.
`Sender` lists the places it can be at and `Sends` what a step from each of them
makes of the state.

A receipt is a number that `submitSync` draws. It travels with the job, so a number
that was not drawn yet is nowhere.
-/

variable {env : Env} {s s' : State} {t : Tid} {ch : Choice} {i : Instr} {rest : List Instr}
  {nx : Next} {c : ConnId} {r : Nat}

/-! ## Where `outboundLoop` can be -/

/-- What is left to do once a message was encoded. -/
def Instr.ends (c : ConnId) : Instr → Bool
  | .sent c' _ | .outboundReturn c' => c' = c
  | _ => false

/-- The code of `outboundLoop`: it waits for a job, is at work on one, or has left. -/
inductive Sender (c : ConnId) : List Instr → Prop where
  | idle : Sender c [.outboundLoop c]
  | job (j : Job) : Sender c [.persistOutbound c j.m, .encode c j, .outboundLoop c]
  | encode (j : Job) : Sender c [.encode c j, .outboundLoop c]
  | receipt {r : Nat} {i : Instr} : i.ends c = true →
    Sender c [.closeReceipt r, i, .outboundLoop c]
  | done {i : Instr} : i.ends c = true → Sender c [i, .outboundLoop c]
  | left {l : List Instr} : l <:+ outboundDefer c → Sender c l

theorem Sender.encoded (j : Job) (ok : Bool) :
    Sender c (encoded c j ok ++ [Instr.outboundLoop c]) := by
  obtain ⟨m, r⟩ := j
  cases r with
  | none => cases ok <;> exact .done (by simp [Instr.ends])
  | some r => cases ok <;> exact .receipt (by simp [Instr.ends])

theorem Sender.codeStep {l l' : List Instr} (hl : Sender c l)
    (h : CodeStep env (.outbound c) l l') : Sender c l' := by
  cases h with
  | same => exact hl
  | start => exact .idle
  | @flow i rest nx hf =>
    cases hl with
    | idle =>
      cases hf with
      | falls h => cases h
      | job j => exact .job j
      | stopped => exact .left (List.suffix_refl _)
    | job j =>
      cases hf with
      | falls _ => exact .encode j
    | encode j =>
      cases hf with
      | falls h => cases h
      | encoded ok => exact .encoded j ok
    | receipt hi =>
      cases hf with
      | falls _ => exact .done hi
    | done hi =>
      cases hf with
      | falls _ => exact .idle
      | disconnected =>
        obtain rfl : _ = c := by simpa [Instr.ends] using hi
        exact .left (List.suffix_refl _)
      | outboundReturn =>
        obtain rfl : _ = c := by simpa [Instr.ends] using hi
        exact .left (List.suffix_refl _)
      | _ => cases hi
    | left hsuf =>
      obtain rfl := follows_of_mem_outboundDefer (hsuf.subset (List.mem_cons_self ..)) hf
      exact .left ((List.suffix_cons _ _).trans hsuf)

theorem Reachable.sender (hr : Reachable env s) (c : ConnId) : Sender c (s.code (.outbound c)) := by
  refine hr.invariant (I := fun s => Sender c (s.code (.outbound c))) ?_ (.left (by simp [init]))
  intro s a s' _ hs hstep
  exact hs.codeStep (step_code hstep _)

/-! ## One step of `outboundLoop` -/

/-- What the deferred function of `outboundLoop` can do in one step. -/
inductive Leaves (env : Env) (s : State) (c : ConnId) : State → Prop where
  | panic (p : Panic) : Leaves env s c (s.panicWith p)
  | closeHeartbeat : Leaves env s c (s.modConn c fun k => { k with heartbeatClosed := true })
  | closeConn : Leaves env s c (s.modConn c fun k => { k with connClosed := true })
  | del : Leaves env s c (s.del c)
  | unsubAll : Leaves env s c (s.callIndex env (.unsubAll c))

/-- What a step of `outboundLoop` makes of the state. -/
inductive Sends (env : Env) (s : State) (c : ConnId) : State → Prop where
  | take {j : Job} {js : List Job} : s.code (.outbound c) = [.outboundLoop c] →
    (s.conns c).jobs = j :: js →
    Sends env s c ((s.modConn c fun k => { k with jobs := js }).setCode (.outbound c)
      [.persistOutbound c j.m, .encode c j, .outboundLoop c])
  | persist {j : Job} :
    s.code (.outbound c) = [.persistOutbound c j.m, .encode c j, .outboundLoop c] →
    Sends env s c ((s.callStore c (persistOutbound j.m)).setCode (.outbound c)
      [.encode c j, .outboundLoop c])
  | encode {j : Job} (retain ok : Bool) : s.code (.outbound c) = [.encode c j, .outboundLoop c] →
    Sends env s c ((s.log (.encoded c j.m retain ok)).setCode (.outbound c)
      (encoded c j ok ++ [.outboundLoop c]))
  | receipt {r : Nat} {i : Instr} : i.ends c = true →
    s.code (.outbound c) = [.closeReceipt r, i, .outboundLoop c] →
    Sends env s c ({ s with receipts := Function.update s.receipts r true }.setCode (.outbound c)
      [i, .outboundLoop c])
  | next {i : Instr} : i.ends c = true → s.code (.outbound c) = [i, .outboundLoop c] →
    Sends env s c (s.setCode (.outbound c) [.outboundLoop c])
  | leave {i : Instr} {rest : List Instr} : s.code (.outbound c) = i :: rest →
    i = .outboundLoop c ∨ i.ends c = true →
    Sends env s c (s.setCode (.outbound c) (outboundDefer c))
  | deferred {i : Instr} {rest : List Instr} {s₁ : State} : s.code (.outbound c) = i :: rest →
    i :: rest <:+ outboundDefer c → Leaves env s c s₁ →
    Sends env s c (s₁.setCode (.outbound c) rest)

theorem Executes.deferred (hx : Executes env s (.outbound c) ch i rest nx s')
    (hi : i ∈ outboundDefer c) : ∃ s₁, Leaves env s c s₁ ∧ s' = s₁.setCode (.outbound c) rest := by
  obtain ⟨-, s₁, hexec, rfl⟩ := hx
  simp only [outboundDefer, List.mem_cons, List.not_mem_nil, or_false] at hi
  obtain rfl | rfl | rfl | rfl := hi <;> simp only [exec] at hexec
  · split at hexec <;> cases hexec
    · exact ⟨_, .panic _, rfl⟩
    · exact ⟨_, .closeHeartbeat, rfl⟩
  · cases hexec
    exact ⟨_, .closeConn, rfl⟩
  · cases hexec
    exact ⟨_, .del, rfl⟩
  · split at hexec <;> cases hexec
    exact ⟨_, .unsubAll, rfl⟩

theorem Executes.sends (hr : Reachable env s)
    (hx : Executes env s (.outbound c) ch i rest nx s') : Sends env s c s' := by
  have hsender := hr.sender c
  have hcode := hx.code
  rw [hcode] at hsender
  generalize hl : i :: rest = l at hsender
  cases hsender with
  | left hsuf =>
    rw [← hl] at hsuf
    obtain ⟨s₁, hs₁, rfl⟩ := hx.deferred (hsuf.subset (List.mem_cons_self ..))
    exact .deferred hcode hsuf hs₁
  | idle =>
    cases hl
    obtain ⟨-, s₁, hexec, rfl⟩ := hx
    simp only [exec] at hexec
    repeat' split at hexec
    all_goals cases hexec
    · exact .take hcode ‹_›
    · exact .leave hcode (.inl rfl)
    · exact .leave hcode (.inl rfl)
  | job j =>
    cases hl
    obtain ⟨-, s₁, hexec, rfl⟩ := hx
    cases hexec
    exact .persist hcode
  | encode j =>
    cases hl
    obtain ⟨-, s₁, hexec, rfl⟩ := hx
    simp only [exec] at hexec
    split at hexec <;> cases hexec
    exact .encode _ _ hcode
  | receipt hi =>
    cases hl
    obtain ⟨-, s₁, hexec, rfl⟩ := hx
    cases hexec
    exact .receipt hi hcode
  | done hi =>
    cases hl
    obtain ⟨-, s₁, hexec, rfl⟩ := hx
    cases i <;> simp only [Instr.ends, decide_eq_true_eq, Bool.false_eq_true] at hi <;>
      simp only [exec] at hexec <;> cases hexec <;> subst hi
    · split
      · exact .leave hcode (.inr (by simp [Instr.ends]))
      · exact .next (by simp [Instr.ends]) hcode
    · exact .leave hcode (.inr (by simp [Instr.ends]))

/-! ## Receipts -/

/-- The receipt an instruction has to do with. -/
def Instr.receipt : Instr → Option Nat
  | .send _ j | .trySend _ j | .encode _ j => j.r
  | .wait r | .closeReceipt r => some r
  | _ => none

/-- Every receipt in use was drawn. -/
structure Issued (s : State) : Prop where
  code : ∀ {t i r}, i ∈ s.code t → i.receipt = some r → r < s.nextReceipt
  jobs : ∀ {c r} {j : Job}, j ∈ (s.conns c).jobs → j.r = some r → r < s.nextReceipt
  closed : ∀ {r}, s.receipts r = true → r < s.nextReceipt

theorem brings_receipt {j : Instr} (h : i.brings j = true) (hj : j.receipt = some r) :
    (∃ c m, i = .submitSync c m) ∨ (∃ c, i = .outboundLoop c) ∨ ∃ c j, i = .encode c j := by
  cases Instr.brings_cases h with
  | sendSync | wait => exact .inl ⟨_, _, rfl⟩
  | encode => exact .inr (.inl ⟨_, rfl⟩)
  | closeReceipt => exact .inr (.inr ⟨_, _, rfl⟩)
  | _ => cases hj

/-- A receipt in the code that comes next is new, or it was in use. -/
theorem Executes.receipt_next (hx : Executes env s t ch i rest nx s') {j : Instr}
    (hj : j ∈ nx.instrs) (hr : j.receipt = some r) :
    r < s'.nextReceipt ∨ i.receipt = some r ∨ ∃ c, ∃ j ∈ (s.conns c).jobs, j.r = some r := by
  have hbrings := brings_receipt (hx.follows.brings hj) hr
  obtain ⟨-, s₁, hexec, rfl⟩ := hx
  obtain ⟨c, m, rfl⟩ | ⟨c, rfl⟩ | ⟨c, j', rfl⟩ := hbrings <;> simp only [exec] at hexec
  · cases hexec
    refine .inl ?_
    simp only [Next.instrs, List.mem_cons, List.not_mem_nil, or_false] at hj
    obtain rfl | rfl := hj <;> simp only [Instr.receipt, Option.some.injEq] at hr <;> subst hr <;>
      exact Nat.lt_succ_self _
  · repeat' split at hexec
    all_goals cases hexec
    all_goals simp only [Next.instrs, handleJob, outboundDefer, List.mem_cons, List.not_mem_nil,
      or_false, List.cons_append, List.nil_append] at hj
    · obtain rfl | rfl | rfl := hj <;> simp only [Instr.receipt, reduceCtorEq] at hr
      exact .inr (.inr ⟨c, _, by simp [*], hr⟩)
    all_goals obtain rfl | rfl | rfl | rfl := hj <;> cases hr
  · split at hexec <;> cases hexec
    refine .inr (.inl ?_)
    obtain ⟨m, r'⟩ := j'
    cases r' <;> simp only [Next.instrs, encoded, List.mem_append, List.mem_cons,
      List.not_mem_nil, or_false, false_or] at hj
    · split at hj <;> subst hj <;> cases hr
    · obtain rfl | hj := hj
      · exact hr
      · split at hj <;> subst hj <;> cases hr

theorem Issued.executes (hI : Issued s) (hx : Executes env s t ch i rest nx s') : Issued s' := by
  have hmono : s.nextReceipt ≤ s'.nextReceipt := by
    obtain heq | ⟨-, heq⟩ := hx.effects.nextReceipt <;> omega
  have hhead : ∀ {r}, i.receipt = some r → r < s.nextReceipt :=
    fun h => hI.code (t := t) (hx.code ▸ List.mem_cons_self ..) h
  refine ⟨?_, ?_, ?_⟩
  · intro t' j r hj hr
    by_cases ht : t' = t
    · subst ht
      rw [hx.code_self] at hj
      obtain hnew | hold := Next.mem_apply hj
      · obtain hlt | hr | ⟨c, j', hj', hr⟩ := hx.receipt_next hnew hr
        · exact hlt
        · exact Nat.lt_of_lt_of_le (hhead hr) hmono
        · exact Nat.lt_of_lt_of_le (hI.jobs hj' hr) hmono
      · exact Nat.lt_of_lt_of_le (hI.code (hx.code ▸ List.mem_cons_of_mem _ hold) hr) hmono
    · refine Nat.lt_of_lt_of_le ?_ hmono
      have htouch := hx.touch ht
      have hold : ∀ j ∈ s.code t', j.receipt = some r → r < s.nextReceipt := fun _ h => hI.code h
      generalize s.code t' = l, s'.code t' = l' at htouch hj hold
      cases htouch with
      | same => exact hold j hj hr
      | @job c job rest' hi =>
        -- the job is the one that is sent
        simp only [handleJob, List.mem_append, List.mem_cons, List.not_mem_nil, or_false] at hj
        obtain ((rfl | rfl) | rfl) | hj := hj
        · cases hr
        · exact hhead (by obtain rfl | rfl := hi <;> exact hr)
        · cases hr
        · exact hold j (List.mem_cons_of_mem _ hj) hr
      | post _ =>
        simp only [List.mem_append, List.mem_cons, List.not_mem_nil, or_false] at hj
        obtain (rfl | rfl) | hj := hj
        · cases hr
        · cases hr
        · exact hold j (List.mem_cons_of_mem _ hj) hr
      | heartbeat _ =>
        obtain rfl := List.mem_singleton.1 hj
        cases hr
  · intro c r j hj hr
    refine Nat.lt_of_lt_of_le ?_ hmono
    obtain heq | ⟨j', hi, heq⟩ | ⟨-, j', heq⟩ := (hx.conn c).jobs
    · exact hI.jobs (heq ▸ hj) hr
    · rw [heq] at hj
      obtain hj | hj := List.mem_append.1 hj
      · exact hI.jobs hj hr
      · obtain rfl := List.mem_singleton.1 hj
        exact hhead (by obtain rfl | rfl := hi <;> exact hr)
    · exact hI.jobs (heq ▸ List.mem_cons_of_mem _ hj) hr
  · intro r hr
    refine Nat.lt_of_lt_of_le ?_ hmono
    obtain heq | ⟨r', rfl, heq⟩ := hx.effects.receipts
    · exact hI.closed (heq ▸ hr)
    · by_cases hne : r = r'
      · exact hhead (hne ▸ rfl)
      · exact hI.closed (by simpa [heq, hne] using hr)

theorem Reachable.issued (hr : Reachable env s) : Issued s := by
  refine hr.invariant ?_ ?_
  · intro s a s' hr hI hstep
    obtain ⟨-, ⟨-, rfl⟩ | ⟨-, rfl⟩ | ⟨t, ch, i, rest, nx, -, hx⟩⟩ := step_cases hstep
    · refine ⟨fun h hr => ?_, hI.jobs, hI.closed⟩
      obtain h | rfl := State.mem_code_accept h
      · exact hI.code h hr
      · cases ‹Tid› <;> cases hr
    · refine ⟨fun h hr => ?_, hI.jobs, hI.closed⟩
      obtain h | rfl := State.mem_code_acceptPeer h
      · exact hI.code h hr
      · cases ‹Tid› <;> cases hr
    · exact hI.executes hx
  · refine ⟨fun {t i r} h hr => ?_, nofun, nofun⟩
    cases t <;> simp only [init, List.not_mem_nil] at h
    split at h <;> simp at h
    subst h
    cases hr
