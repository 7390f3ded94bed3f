-- SUMMARY: The `inboundLoop` of a connection: which instructions end an iteration, when the connection is marked dead, and what others queue for it.
import Mhub.Broker.Limit
import Mhub.Broker.Queue

/-!
# Receiver

`inboundLoop` handles one message at a time. Behind some instructions it is known
what is left of the iteration (`Instr.behind`). One that leaves the loop, or that
begins `doConnect`, is the last: leaving the loop drops nothing that was still to be
done. And a PUBLISH that was stored is going to be acknowledged.

Everything a connection is sent goes through its jobs queue, whoever sends it.
Apart from the handlers of the connection itself, others queue only PUBLISH and
DISCONNECT messages (`Reachable.queues`).
-/

variable {env : Env} {s s' : State} {t : Tid} {ch : Choice} {i j : Instr} {rest : List Instr}
  {nx : Next} {c : ConnId}

/-! ## The end of an iteration -/

/-- What is left of an iteration behind an instruction, where the instruction tells. -/
def Instr.behind : Instr → Option (List Instr)
  | .connectValidate .. | .connectLimit .. | .connectReturn .. | .inboundReturn _ => some []
  | .persistInbound c m =>
    some ([.post m, .replicate m] ++
      if m.qosLevel = .atLeastOnce then [.submit c (.pubAck ⟨.atMostOnce, m.messageId⟩)] else [])
  | _ => none

/-- Every such instruction of the list has that behind it, and then `loop`. -/
def Behind (loop : Instr) : List Instr → Prop
  | [] => True
  | i :: rest => (∀ l, i.behind = some l → rest = l ++ [loop]) ∧ Behind loop rest

theorem Behind.append {loop : Instr} {is : List Instr} (h : Behind loop rest)
    (his : ∀ j ∈ is, j.behind = none) : Behind loop (is ++ rest) := by
  induction is with
  | nil => exact h
  | cons j is ih =>
    refine ⟨fun l hl => ?_, ih fun j hj => his j (List.mem_cons_of_mem _ hj)⟩
    rw [his j (List.mem_cons_self ..)] at hl
    cases hl

theorem brings_behind (hj : j.behind ≠ none) (h : i.brings j = true) :
    (∃ c, i = .inboundLoop c) ∨ i.behind = some [] := by
  cases Instr.brings_cases h with
  | inboundReturn | connectValidate | persistInbound => exact .inl ⟨_, rfl⟩
  | connectLimit | connectReturn => exact .inr rfl
  | _ => exact absurd rfl hj

theorem behind_handle (p : Packet) :
    Behind (.inboundLoop c) (handle c p ++ [Instr.inboundLoop c]) := by
  have hloop : Behind (.inboundLoop c) [Instr.inboundLoop c] := ⟨by simp [Instr.behind], trivial⟩
  cases p with
  | connect m => exact ⟨by simp [Instr.behind], hloop⟩
  | disconnect | other => exact ⟨by simp [Instr.behind], hloop⟩
  | pingReq | pubAck m => exact hloop.append (by simp [handle, doPublishAck, Instr.behind])
  | publish retain m =>
    have hack : Behind (.inboundLoop c)
        ((if m.qosLevel = .atLeastOnce then
          [Instr.submit c (.pubAck ⟨.atMostOnce, m.messageId⟩)] else []) ++
        [Instr.inboundLoop c]) := by
      refine hloop.append fun j hj => ?_
      split at hj
      · rw [List.mem_singleton.1 hj]
        rfl
      · cases hj
    refine ⟨?_, ?_, ?_, ?_, ?_, hack⟩
    all_goals
      rintro l ⟨rfl⟩
    rfl
  | subscribe m | unsubscribe m =>
    refine hloop.append fun j hj => ?_
    cases handles_of_mem hj <;> rfl

theorem behind_connectBody {cf : BrokerConfig} {m : Connect} {rc : ReturnCode} :
    Behind (.inboundLoop c) (connectBody cf c m rc ++ [Instr.inboundLoop c]) := by
  simp only [connectBody]
  split <;> split <;> split <;> simp [Behind, Instr.behind]

theorem Behind.codeStep {l l' : List Instr} (hshape : (Tid.inbound c).Shaped l)
    (hl : Behind (.inboundLoop c) l) (h : CodeStep env (.inbound c) l l') :
    Behind (.inboundLoop c) l' := by
  cases h with
  | same => exact hl
  | start => exact ⟨by simp [Tid.loop, Instr.behind], trivial⟩
  | @flow i rest nx hf =>
    by_cases hnew : ∃ j ∈ nx.instrs, j.behind ≠ none
    · obtain ⟨j, hj, hbehind⟩ := hnew
      obtain ⟨c', rfl⟩ | hi := brings_behind hbehind (hf.brings hj)
      · obtain rfl : c' = c := by
          have hhome := hshape.home (List.mem_cons_self ..) rfl
          exact (Tid.inbound.inj hhome).symm
        obtain rfl := Tid.Shaped.rest_of_loop (t := .inbound c') hshape
        cases hf with
        | falls h => cases h
        | recv p =>
          simp only [Next.apply, List.append_nil]
          exact behind_handle p
        | recvErr => simp [Next.apply, Behind, Instr.behind]
      · obtain rfl := hl.1 [] hi
        cases hf with
        | validated => simp [Next.apply, Behind, Instr.behind]
        | @limited c' m rc n =>
          obtain rfl : c' = c := by
            have hhome := hshape.home (List.mem_cons_self ..) rfl
            exact (Tid.inbound.inj hhome).symm
          exact behind_connectBody
        | falls h => cases hj
        | rejected _ | inboundReturn =>
          simp only [Next.instrs, inboundDefer, List.mem_cons, List.not_mem_nil, or_false] at hj
          obtain rfl | rfl | rfl | rfl | rfl := hj <;> exact absurd rfl hbehind
        | _ => cases hi
    · have hnone : ∀ j ∈ nx.instrs, j.behind = none :=
        fun j hj => of_not_not fun h => hnew ⟨j, hj, h⟩
      cases nx with
      | push is => exact hl.2.append hnone
      | jump is =>
        have hjump : Behind (.inboundLoop c) (is ++ []) := Behind.append trivial hnone
        simpa [Next.apply] using hjump

theorem Reachable.behind (hr : Reachable env s) (c : ConnId) :
    Behind (.inboundLoop c) (s.code (.inbound c)) := by
  refine hr.invariant (I := fun s => Behind (.inboundLoop c) (s.code (.inbound c))) ?_
    (by simp [init, Behind])
  intro s a s' hr hI hstep
  exact hI.codeStep (Reachable.shaped hr _) (step_code hstep _)

/-- An instruction finds behind it what belongs there, and the loop. -/
theorem Executes.behind {l : List Instr} (hr : Reachable env s)
    (hx : Executes env s (.inbound c) ch i rest nx s') (hi : i.behind = some l) :
    rest = l ++ [Instr.inboundLoop c] := by
  have hl := hr.behind c
  rw [hx.code] at hl
  exact hl.1 l hi

/-- A handler leaves its code only when nothing but the loop is left of it. -/
theorem Executes.inbound_jump {l : List Instr} (hr : Reachable env s)
    (hx : Executes env s (.inbound c) ch i rest (.jump l) s') : rest = [Instr.inboundLoop c] := by
  have hshape := hr.shaped (.inbound c)
  rw [hx.code] at hshape
  have hf := hx.follows
  have hi : i.behind = some [] := by
    obtain rfl | hi | hi := hshape.inbound
    · cases hf
    · cases hf <;> first | rfl | cases hi
    · cases follows_of_mem_inboundDefer hi hf
  exact hx.behind hr hi

/-- `doConnect` returns to the loop when it has accepted the CONNECT. -/
theorem Executes.connectReturn {rc : ReturnCode}
    (hx : Executes env s t ch (.connectReturn c rc) rest nx s') :
    (rc = .accepted ∧ nx = .push [] ∨ rc ≠ .accepted ∧ nx = .jump (inboundDefer c)) ∧
      s'.trace = s.trace ++ [Event.connectReturned c rc] := by
  obtain ⟨-, s₁, hexec, rfl⟩ := hx
  simp only [exec] at hexec
  split at hexec <;> cases hexec
  · exact ⟨.inl ⟨‹_›, rfl⟩, rfl⟩
  · exact ⟨.inr ⟨‹_›, rfl⟩, rfl⟩

/-! ## Dead connections -/

/-- A connection is marked dead by the deferred function, when all handlers are
done. -/
theorem Reachable.dead_code (hr : Reachable env s) (h : (s.conns c).alive = false) :
    c < s.nconns ∧ s.code (.inbound c) <:+ [.closeJobs c, .onTerminate c] := by
  refine hr.invariant (I := fun s => (s.conns c).alive = false →
    c < s.nconns ∧ s.code (.inbound c) <:+ [.closeJobs c, .onTerminate c]) ?_ ?_ h
  · intro s a s' hr hI hstep h
    obtain ⟨-, ⟨-, rfl⟩ | ⟨-, rfl⟩ | ⟨t, ch, i, rest, nx, -, hx⟩⟩ := step_cases hstep
    · obtain ⟨hlt, hcode⟩ := hI h
      refine ⟨Nat.lt_succ_of_lt hlt, ?_⟩
      simpa [State.accept, State.log, State.setCode, Nat.ne_of_lt hlt] using hcode
    · exact hI h
    · rw [hx.nconns]
      obtain halive | ⟨rfl, -⟩ := (hx.conn c).alive
      · obtain ⟨hlt, hcode⟩ := hI (halive ▸ h)
        refine ⟨hlt, ?_⟩
        by_cases ht : .inbound c = t
        · subst ht
          rw [hx.code] at hcode
          have hmem : i ∈ inboundDefer c := by
            have := hcode.subset (List.mem_cons_self ..)
            simp only [List.mem_cons, List.not_mem_nil, or_false] at this
            obtain rfl | rfl := this <;> simp [inboundDefer]
          obtain rfl := follows_of_mem_inboundDefer hmem hx.follows
          rw [hx.code_self]
          exact (List.suffix_cons i rest).trans hcode
        · rw [hx.code_inbound ht]
          exact hcode
      · obtain rfl := hx.home hr rfl
        refine ⟨(Reachable.lifecycle hr c).lt_nconns (hx.code ▸ List.mem_cons_self ..), ?_⟩
        have hshape := Reachable.shaped hr (.inbound c)
        rw [hx.code] at hshape
        have hsuf := hshape.deferred (by simp [inboundDefer])
        obtain rfl := follows_of_mem_inboundDefer (hsuf.subset (List.mem_cons_self ..)) hx.follows
        obtain rfl : rest = [.closeJobs c, .onTerminate c] := by
          simpa [inboundDefer, List.suffix_cons_iff] using hsuf
        rw [hx.code_self]
        exact List.suffix_refl _
  · simp [init]

/-- The handlers of a connection find it alive. -/
theorem Executes.alive (hr : Reachable env s) (hx : Executes env s (.inbound c) ch i rest nx s')
    (hi : i.inHandler c = true) : (s.conns c).alive = true := by
  by_contra hdead
  have hsuf := (hr.dead_code (by simpa using hdead)).2
  rw [hx.code] at hsuf
  have hmem := hsuf.subset (List.mem_cons_self ..)
  simp only [List.mem_cons, List.not_mem_nil, or_false] at hmem
  obtain rfl | rfl := hmem <;> cases hi

/-- They find its queue open. -/
theorem Executes.jobs_open (hr : Reachable env s)
    (hx : Executes env s (.inbound c) ch i rest nx s') (hi : i.inHandler c = true) :
    (s.conns c).jobsClosed = false := by
  by_contra hclosed
  have hdead := hr.closed (by simpa using hclosed)
  rw [hx.alive hr hi] at hdead
  cases hdead

/-! ## What is queued for a connection -/

theorem Executes.submit_block {m : Message}
    (hblock : env.cf.buffOverflowStrategy = bufferOverflowBlock)
    (hx : Executes env s t ch (.submit c m) rest nx s') (halive : (s.conns c).alive = true) :
    nx = .push [.send c ⟨m, none⟩] := by
  obtain ⟨-, s₁, hexec, -⟩ := hx
  simp only [exec, State.log, halive, hblock] at hexec
  cases hexec
  rfl

/-- On an open queue, or if nothing panics, a send that gets through is queued. -/
theorem Executes.send_queued {j : Job} (hx : Executes env s t ch (.send c j) rest nx s')
    (h : (s.conns c).jobsClosed = false ∨ s'.panicked = none) :
    nx = .push [] ∧ s'.trace = s.trace ++ [Event.queued t c j.m] := by
  obtain ⟨-, s₁, hexec, rfl⟩ := hx
  simp only [exec] at hexec
  split at hexec
  · next hclosed =>
    cases hexec
    obtain h | h := h
    · simp [hclosed] at h
    · cases h
  · split at hexec <;> cases hexec
    obtain ⟨conns, code, rfl⟩ := State.enqueue_frame ‹_›
    exact ⟨rfl, rfl⟩

/-- Only `inboundLoop` itself sends its connection anything but PUBLISH and
DISCONNECT. -/
theorem Reachable.queues {j : Job} (hr : Reachable env s)
    (h : .send c j ∈ s.code t ∨ .trySend c j ∈ s.code t) (ht : t ≠ .inbound c) :
    j.m = .disconnect ∨ j.m.isPublish = true := by
  have hshape := hr.shaped t
  have hmem : ∃ i ∈ s.code t, i = .send c j ∨ i = .trySend c j :=
    h.elim (fun h => ⟨_, h, .inl rfl⟩) fun h => ⟨_, h, .inr rfl⟩
  obtain ⟨i, hi, heq⟩ := hmem
  generalize s.code t = l at hshape hi
  obtain ⟨body, rfl, hbody⟩ | hx := hshape
  · obtain hi | hi := List.mem_append.1 hi
    · have hin := List.all_eq_true.1 hbody i hi
      cases t with
      | inbound c' =>
        obtain rfl | rfl := heq
        · simp only [Tid.inBody, Instr.inHandler, Bool.decide_or, Bool.or_eq_true,
            decide_eq_true_eq] at hin
          obtain rfl | hdis := hin
          · exact absurd rfl ht
          · exact .inl hdis
        · simp only [Tid.inBody, Instr.inHandler, decide_eq_true_eq] at hin
          exact absurd (congrArg Tid.inbound hin.symm) ht
      | worker w =>
        obtain rfl | rfl := heq
        all_goals
          simp only [Tid.inBody, Instr.inWorker, Bool.and_eq_true] at hin
          exact .inr hin.1
      | outbound c' | heartbeat c' k | replay p => obtain rfl | rfl := heq <;> cases hin
    · obtain rfl := List.mem_singleton.1 hi
      cases t <;> obtain heq | heq := heq <;> cases heq
  · cases t with
    | inbound c' =>
      have hmem := hx.subset hi
      obtain rfl | rfl := heq <;> simp [inboundDefer] at hmem
    | outbound c' =>
      have hmem := hx.subset hi
      obtain rfl | rfl := heq <;> simp [outboundDefer] at hmem
    | heartbeat c' k =>
      obtain rfl | ⟨r, rfl | rfl⟩ | rfl := hx i hi <;> obtain heq | heq := heq <;> cases heq
      exact .inl rfl
    | worker w =>
      obtain ⟨topic, hx⟩ := hx
      obtain rfl := List.mem_singleton.1 (hx.subset hi)
      obtain heq | heq := heq <;> cases heq
    | replay p =>
      obtain rfl := hx
      cases hi

/-- With the block strategy nothing is discarded. -/
theorem Reachable.no_trySend {j : Job} (hblock : env.cf.buffOverflowStrategy = bufferOverflowBlock)
    (hr : Reachable env s) : .trySend c j ∉ s.code t := by
  refine hr.invariant (I := fun s => ∀ t, .trySend c j ∉ s.code t) ?_ ?_ t
  · intro s a s' hr hI hstep t' hmem
    obtain ⟨-, ⟨-, rfl⟩ | ⟨-, rfl⟩ | ⟨t, ch, i, rest, nx, -, hx⟩⟩ := step_cases hstep
    · obtain hold | hloop := State.mem_code_accept hmem
      · exact hI t' hold
      · cases t' <;> cases hloop
    · obtain hold | hloop := State.mem_code_acceptPeer hmem
      · exact hI t' hold
      · cases t' <;> cases hloop
    · obtain hold | ⟨rfl, hnew⟩ | hgets := hx.mem_code hmem
      · exact hI t' hold
      · have hi : ∃ c m, i = .submit c m := by
          cases Instr.brings_cases (hx.follows.brings hnew) with
          | trySend => exact ⟨_, _, rfl⟩
        obtain ⟨c', m, rfl⟩ := hi
        obtain ⟨-, s₁, hexec, -⟩ := hx
        simp only [exec, hblock] at hexec
        split at hexec <;> cases hexec <;> simp [Next.instrs] at hnew
      · cases t' <;> cases hgets
  · intro t hmem
    cases t <;> simp only [init, List.not_mem_nil] at hmem
    split at hmem <;> simp at hmem
