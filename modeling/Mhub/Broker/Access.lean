-- SUMMARY: Who may publish and subscribe: only a client whose CONNECT was accepted, and what such a CONNECT has to give.
import Mhub.Broker.Acks
import Mhub.Broker.Session

/-!
# Access

`doConnect` checks what a client gives and its return code ends the loop of a client that
is turned away. The other handlers do not ask whether the client was accepted, and
`validateMessage` is empty. But the handlers of PUBLISH and SUBSCRIBE pass the user name
of the `flag` to `authorized`, and to read it panics if no CONNECT came at all. Together
that is enough: the `flag` is set before the checks, but while `doConnect` runs no other
handler does, and after it only the handlers of an accepted client run. So whatever is
posted or subscribed comes from a client that was admitted before.
-/

variable {env : Env} {s s' : State} {t : Tid} {ch : Choice} {i j : Instr} {rest : List Instr}
  {nx : Next} {c : ConnId} {m : Connect} {cf : BrokerConfig}

/-! ## What an accepted CONNECT has to give -/

/-- The protocol is the right one, the client id is neither missing nor too long, and
unless anonymous clients are allowed there are a user name and a password. -/
structure Acceptable (cf : BrokerConfig) (m : Connect) : Prop where
  protocol : m.protocolName = protocolName ∧ m.protocolVersion = protocolVersion
  clientId : 1 ≤ m.clientId.length ∧ m.clientId.length ≤ maxClientIdLength
  credentials : cf.allowAnonymousConnect = false →
    m.usernameFlag = true ∧ m.username ≠ [] ∧ m.passwordFlag = true ∧ m.password ≠ []

theorem acceptable_of_validate (h : validate cf m = .accepted) : Acceptable cf m := by
  simp only [validate, authenticate, Bool.not_true, Bool.and_false, Bool.false_eq_true,
    if_false] at h
  split at h
  · cases h
  · next hcred =>
    split at h
    · cases h
    · next hid =>
      split at h
      · cases h
      · next hproto =>
        refine ⟨by simpa [not_or] using hproto, by omega, fun hanon => ?_⟩
        simpa [hanon, and_assoc] using hcred

theorem validate_of_checkLimit {clients : Int} {rc : ReturnCode}
    (h : checkLimit cf clients rc = .accepted) : rc = .accepted := by
  simp only [checkLimit] at h
  split at h
  · cases h
  · exact h

/-- An acceptable CONNECT was received on `c`, and `doConnect` has accepted it: nothing
else was received on `c` before it returned. -/
def Admitted (cf : BrokerConfig) (c : ConnId) (tr : List Event) : Prop :=
  ∃ m pre mid post, tr = pre ++ .received c (.connect m) :: mid ++
      .connectReturned c .accepted :: post ∧
    (∀ q, .received c q ∉ mid) ∧ Acceptable cf m

theorem Admitted.mono {tr : List Event} (h : Admitted cf c tr) (es : List Event) :
    Admitted cf c (tr ++ es) := by
  obtain ⟨m, pre, mid, post, rfl, hmid, hm⟩ := h
  exact ⟨m, pre, mid, post ++ es, by simp, hmid, hm⟩

/-! ## While `doConnect` runs -/

/-- What the instructions of `doConnect` know of the request. -/
def Announced (cf : BrokerConfig) (o : Option Packet) : Instr → Prop
  | .connectValidate _ m => o = some (.connect m)
  | .connectLimit _ m rc => o = some (.connect m) ∧ rc = validate cf m
  | .connectReturn _ rc => rc = .accepted → ∃ m, o = some (.connect m) ∧ Acceptable cf m
  | _ => True

theorem announced_handle {p : Packet} (hj : j ∈ handle c p) : Announced cf (some p) j := by
  cases handles_of_mem hj with
  | connectValidate => rfl
  | _ => trivial

theorem Reachable.announced (hr : Reachable env s) (hi : i ∈ s.code (.inbound c)) :
    Announced env.cf (s.request c) i := by
  refine hr.forall_handler (Q := Announced env.cf) (fun o j hj => ?_) announced_handle ?_ i hi
  · simp only [List.mem_cons, List.not_mem_nil, or_false] at hj
    obtain rfl | rfl | rfl := hj <;> trivial
  · intro s ch i rest nx s' j hr hx hloop hi hj
    cases Instr.brings_cases (hx.follows.brings hj) with
    | connectValidate =>
      cases hx.home hr rfl
      exact absurd rfl hloop
    | connectLimit =>
      obtain ⟨-, rfl⟩ := hx.flag_set
      cases List.mem_singleton.1 hj
      exact ⟨hi, rfl⟩
    | @connectReturn c m rc rc' =>
      rintro rfl
      have hf := hx.follows
      cases hf with
      | falls h => cases h
      | limited clients =>
        have hrc := validate_of_checkLimit (mem_connectBody hj).symm
        exact ⟨m, hi.1, acceptable_of_validate (hi.2.symm.trans hrc)⟩
    | _ => trivial

/-! ## The standing of a client -/

/-- The client was admitted, is being checked, or is on its way out. -/
inductive Standing (cf : BrokerConfig) (s : State) (c : ConnId) : Prop where
  | admitted : Admitted cf c s.trace → Standing cf s c
  | checked : (∃ i ∈ s.code (.inbound c), (∃ m rc, i = .connectLimit c m rc) ∨
      ∃ rc, i = .connectReturn c rc) → .authorized c ∉ s.code (.inbound c) → Standing cf s c
  | left : s.code (.inbound c) <:+ inboundDefer c → Standing cf s c

theorem Admitted.step {a : BrokerAction} (h : Admitted cf c s.trace)
    (hstep : step env s a = some s') : Admitted cf c s'.trace := by
  obtain ⟨-, ⟨-, rfl⟩ | ⟨-, rfl⟩ | ⟨t, ch, i, rest, nx, -, hx⟩⟩ := step_cases hstep
  · exact h.mono [.accepted s.nconns]
  · exact h
  · obtain htr | ⟨e, htr, -⟩ := hx.trace <;> rw [htr]
    · exact h
    · exact h.mono [e]

/-- Only `inboundLoop` itself gets to the check of the `flag`. -/
theorem Executes.mem_authorized (hr : Reachable env s) (hx : Executes env s t ch i rest nx s')
    (h : .authorized c ∈ s'.code (.inbound c)) :
    .authorized c ∈ s.code (.inbound c) ∨ s.code (.inbound c) = [.inboundLoop c] := by
  obtain hold | ⟨rfl, hnew⟩ | ⟨-, hhand⟩ := hx.mem_code_cases h
  · exact .inl hold
  · have hb := Instr.brings_cases (hx.follows.brings hnew)
    cases hb
    have hshape := hr.shaped (.inbound c)
    rw [hx.code] at hshape ⊢
    obtain rfl := Tid.Shaped.rest_of_loop (t := .inbound c) hshape
    exact .inr rfl
  · cases hhand

/-- A client that is being checked still is, or the check is over. -/
theorem Executes.checked (hr : Reachable env s) (hx : Executes env s t ch i rest nx s')
    (hj : j ∈ s.code (.inbound c))
    (hkind : (∃ m rc, j = .connectLimit c m rc) ∨ ∃ rc, j = .connectReturn c rc)
    (hauth : .authorized c ∉ s.code (.inbound c)) : Standing env.cf s' c := by
  have hauth' : .authorized c ∉ s'.code (.inbound c) := by
    intro h
    obtain h | h := hx.mem_authorized hr h
    · exact hauth h
    · rw [h, List.mem_singleton] at hj
      subst hj
      simp at hkind
  obtain hstay | ⟨rfl, rfl⟩ := hx.inbound_stays hr hj (by
    rintro rfl
    simp at hkind)
  · exact .checked ⟨j, hstay, hkind⟩ hauth'
  · obtain ⟨m, rc, rfl⟩ | ⟨rc, rfl⟩ := hkind
    · refine .checked ?_ hauth'
      rw [hx.code_self]
      have hf := hx.follows
      cases hf with
      | falls h => cases h
      | limited clients =>
        refine ⟨.connectReturn c (checkLimit env.cf clients rc), ?_, .inr ⟨_, rfl⟩⟩
        exact List.mem_append_left _ (by simp [connectBody])
    · obtain ⟨⟨rfl, -⟩ | ⟨-, rfl⟩, htr⟩ := hx.connectReturn
      · obtain ⟨m, hreq, hacc⟩ := hr.announced hx.mem_self rfl
        obtain ⟨pre, htr₀, hmid⟩ := State.eq_append_of_request hreq
        exact .admitted ⟨m, pre, _, [], by rw [htr, ← htr₀], hmid, hacc⟩
      · exact .left (by simp [hx.code_self, Next.apply])

theorem Executes.standing (hr : Reachable env s) (hx : Executes env s t ch i rest nx s')
    (h : (s.conns c).flag ≠ none → Standing env.cf s c) (hflag : (s'.conns c).flag ≠ none) :
    Standing env.cf s' c := by
  obtain heq | ⟨m, rfl, -⟩ := (hx.conn c).flag
  · rw [heq] at hflag
    obtain hadm | ⟨⟨j, hj, hkind⟩, hauth⟩ | hleft := h hflag
    · obtain htr | ⟨e, htr, -⟩ := hx.trace
      · exact .admitted (htr ▸ hadm)
      · exact .admitted (htr ▸ hadm.mono [e])
    · exact hx.checked hr hj hkind hauth
    · refine .left ?_
      by_cases ht : t = .inbound c
      · subst ht
        rw [hx.code] at hleft
        rw [hx.code_self, follows_of_mem_inboundDefer (hleft.subset (by simp)) hx.follows]
        exact (List.suffix_cons i rest).trans hleft
      · rwa [hx.code_inbound (Ne.symm ht)]
  · obtain rfl := hx.home hr rfl
    obtain rfl := hx.behind hr rfl
    obtain ⟨-, rfl⟩ := hx.flag_set
    refine .checked ⟨.connectLimit c m (validate env.cf m), ?_, .inl ⟨m, _, rfl⟩⟩ ?_
    · simp [hx.code_self, Next.apply]
    · simp [hx.code_self, Next.apply]

theorem Executes.lt_of_flag (hr : Reachable env s) (hx : Executes env s t ch i rest nx s')
    (h : (s.conns c).flag ≠ none → c < s.nconns) (hflag : (s'.conns c).flag ≠ none) :
    c < s'.nconns := by
  rw [hx.nconns]
  obtain heq | ⟨m, rfl, -⟩ := (hx.conn c).flag
  · exact h (heq ▸ hflag)
  · obtain rfl := hx.home hr rfl
    exact (hr.lifecycle c).lt_nconns hx.mem_self

theorem Reachable.lt_of_flag (hr : Reachable env s) (hflag : (s.conns c).flag ≠ none) :
    c < s.nconns := by
  refine hr.invariant (I := fun s => (s.conns c).flag ≠ none → c < s.nconns) ?_
    (fun h => absurd rfl h) hflag
  intro s a s' hr hI hstep hflag
  obtain ⟨-, ⟨-, rfl⟩ | ⟨-, rfl⟩ | ⟨t, ch, i, rest, nx, -, hx⟩⟩ := step_cases hstep
  · exact Nat.lt_succ_of_lt (hI hflag)
  · exact hI hflag
  · exact hx.lt_of_flag hr hI hflag

theorem Reachable.standing (hr : Reachable env s) (hflag : (s.conns c).flag ≠ none) :
    Standing env.cf s c := by
  refine hr.invariant (I := fun s => (s.conns c).flag ≠ none → Standing env.cf s c) ?_
    (fun h => absurd rfl h) hflag
  intro s a s' hr hI hstep hflag
  obtain ⟨-, ⟨-, rfl⟩ | ⟨-, rfl⟩ | ⟨t, ch, i, rest, nx, -, hx⟩⟩ := step_cases hstep
  · have hlt := Reachable.lt_of_flag hr hflag
    have hcode : s.accept.code (.inbound c) = s.code (.inbound c) := by
      simp [State.accept, State.log, State.setCode, hlt.ne]
    obtain hadm | ⟨hj, hauth⟩ | hleft := hI hflag
    · exact .admitted (hadm.step hstep)
    · exact .checked (hcode ▸ hj) (hcode ▸ hauth)
    · exact .left (hcode ▸ hleft)
  · obtain hadm | ⟨hj, hauth⟩ | hleft := hI hflag
    · exact .admitted hadm
    · exact .checked hj hauth
    · exact .left hleft
  · exact hx.standing hr hI hflag

/-! ## Who gets to publish and to subscribe -/

/-- The instructions that only a client who was admitted gets to. -/
def Instr.privileged : Instr → Bool
  | .persistInbound .. | .post _ | .replicate _ | .countSub _ | .subsAdd .. | .sendRetain .. =>
    true
  | _ => false

/-- What is known is whether the client was admitted. -/
def accessOutline (c : ConnId) : Outline Instr Prop :=
  Outline.once (·.privileged = true) (· = .authorized c)

theorem accessOutline_handle {admitted : Prop} {p : Packet} :
    (accessOutline c).Ok admitted (handle c p) := by
  cases p with
  | publish retain m =>
    -- all that is privileged is behind the check
    refine ⟨fun h => ?_, fun h => ?_, Outline.ok_of_pre fun i _ _ => .inr rfl⟩ <;> cases h
  | subscribe m =>
    refine ⟨fun h => ?_, Outline.ok_of_pre fun i _ _ => .inr rfl⟩
    cases h
  | unsubscribe m =>
    refine Outline.ok_once_of_not fun i hi => ?_
    simp only [handle, doUnsubscribe, List.mem_append, List.mem_flatMap, List.mem_cons,
      List.not_mem_nil, or_false] at hi
    obtain ⟨f, -, rfl | rfl⟩ | rfl := hi <;> simp [Instr.privileged]
  | _ =>
    exact Outline.ok_once_of_not (by simp [handle, doConnect, doPublishAck, Instr.privileged])

/-- An instruction that passes the check of the `flag` finds the client admitted. -/
theorem Executes.authorized (hr : Reachable env s)
    (hx : Executes env s t ch (.authorized c) rest nx s') (hp : s'.panicked = none) :
    Admitted env.cf c s.trace := by
  have hflag : (s.conns c).flag ≠ none := by
    intro hnone
    obtain ⟨-, s₁, hexec, rfl⟩ := hx
    simp only [exec, hnone] at hexec
    cases hexec
    cases hp
  have hmem : .authorized c ∈ s.code (.inbound c) := hx.home hr rfl ▸ hx.mem_self
  obtain hadm | ⟨-, hauth⟩ | hleft := hr.standing hflag
  · exact hadm
  · exact absurd hmem hauth
  · exact absurd (hleft.subset hmem) (by simp [inboundDefer])

theorem brings_privileged (hj : j.privileged = true) (h : i.brings j = true) :
    (∃ c, i = .inboundLoop c) ∨ i = .replayLoop := by
  have hb := Instr.brings_cases h
  cases hb <;> first | exact .inl ⟨_, rfl⟩ | exact .inr rfl | cases hj

theorem accessOutline_of_reachable (hr : Reachable env s) (hp : s.panicked = none) (c : ConnId) :
    (accessOutline c).Ok (Admitted env.cf c s.trace) (s.code (.inbound c)) := by
  refine hr.invariant (I := fun s => s.panicked = none →
    (accessOutline c).Ok (Admitted env.cf c s.trace) (s.code (.inbound c))) ?_ ?_ hp
  case refine_2 => exact fun _ => trivial
  intro s a s' hr hI hstep hp
  obtain ⟨hp₀, ⟨-, rfl⟩ | ⟨-, rfl⟩ | ⟨t, ch, i, rest, nx, -, hx⟩⟩ := step_cases hstep
  · exact State.accept_outline ((hI hp₀).mono fun h => h.step hstep) fun _ h => by cases h
  · exact hI hp₀
  · refine hx.outline (hI hp₀) (fun h => h.step hstep) ?_
    rintro rfl
    refine ⟨?_, ?_⟩
    · by_cases hi : i = .inboundLoop c
      · subst hi
        obtain ⟨p, -, rfl, -⟩ | ⟨-, rfl⟩ := hx.inboundLoop
        · exact Outline.ok_append.2 ⟨accessOutline_handle,
            Outline.ok_once_of_not (by simp [Instr.privileged])⟩
        · exact Outline.ok_once_of_not (by simp [Next.instrs, Instr.privileged])
      · refine Outline.ok_once_of_not fun j hj hpriv => ?_
        obtain ⟨c', rfl⟩ | rfl := brings_privileged hpriv (hx.follows.brings hj)
        · cases hx.home hr rfl
          exact absurd rfl hi
        · have hshape := Reachable.shaped hr (.inbound c)
          rw [hx.code] at hshape
          obtain h | h | h := hshape.inbound
          · cases h
          · cases h
          · simp [inboundDefer] at h
    · rintro (h | rfl)
      · exact Outline.after_of (h.step hstep)
      · exact Outline.after_of ((hx.authorized hr hp).step hstep)

/-- A message that a client has published is posted, and a topic it has subscribed to is
added to the index, only after the client has sent a CONNECT with the right protocol, a
client id of legal length and, unless anonymous clients are allowed, a user name and a
password, and was accepted. -/
theorem admitted_first {e : Event} {pre post : List Event} (hr : Reachable env s)
    (h : s.trace = pre ++ e :: post)
    (he : (∃ f, e = .index (.add f c)) ∨
      ∃ retain m, e = .posted m ∧ .received c (.publish retain m) ∈ pre) :
    Admitted env.cf c pre := by
  refine hr.justified (P := fun pre e => (∃ f, e = .index (.add f c)) ∨
    (∃ retain m, e = .posted m ∧ .received c (.publish retain m) ∈ pre) →
      Admitted env.cf c pre) (by simp) ?_ pre e post h he
  rintro s t ch i rest nx s' e hr hp hx hlog - he
  have hok := accessOutline_of_reachable hr hp c
  obtain ⟨f, rfl⟩ | ⟨retain, m, rfl, hrecv⟩ := he
  · obtain rfl : i = .subsAdd c f := hlog
    obtain rfl := hx.home hr rfl
    rw [hx.code] at hok
    exact hok.1 rfl
  · obtain rfl : i = .post m := hlog
    obtain rfl : .inbound c = t := by
      refine hr.post_unique hx.mem_self ?_ rfl
      refine (hr.received_posted hrecv).resolve_right fun hposted => ?_
      exact hr.not_posted hx.mem_self hposted rfl
    rw [hx.code] at hok
    exact hok.1 rfl

/-- A broker that does not let anonymous clients in. -/
def accessEnv : Env where
  cf := { allowAnonymousConnect := false }
  grow := (· + 1)

/-- A client with a user name and a password connects and subscribes. -/
def accessRun : List BrokerAction :=
  .accept :: sends 0 (.connect { Connect.named (str "a") with
    usernameFlag := true, username := str "u", passwordFlag := true, password := str "p" }) 9 ++
    sends 0 (.subscribe ⟨1, [(str "t", .atMostOnce)]⟩) 7

theorem admitted_first_accessRun :
    ∃ s pre post, Transition.run (step accessEnv) (init accessEnv) accessRun = some s ∧
      s.trace = pre ++ .index (.add (str "t") 0) :: post ∧ Admitted accessEnv.cf 0 pre := by
  have heval : (Transition.run (step accessEnv) (init accessEnv) accessRun).map
      (fun s => decide (.index (.add (str "t") 0) ∈ s.trace)) = some true := by decide +kernel
  obtain ⟨s, hrun, hs⟩ := Option.map_eq_some_iff.1 heval
  obtain ⟨pre, post, htr⟩ := List.append_of_mem (of_decide_eq_true hs)
  exact ⟨s, pre, post, hrun, htr, admitted_first ⟨_, hrun⟩ htr (.inl ⟨_, rfl⟩)⟩
