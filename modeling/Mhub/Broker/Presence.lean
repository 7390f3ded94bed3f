-- SUMMARY: Presence records: who is online, and under which schedules the record of a username agrees with it.
import Mhub.Broker.Receiver
import Mhub.Broker.Registry
import Mhub.Broker.Session

/-!
# Presence

`doConnect` checks in the username of a CONNECT, whatever its return code is going to
be, and the deferred function of `inboundLoop` checks out the username of the last
CONNECT. Both act on the one record of the username. So a connection that ends, also
one that was rejected, removes the record of another connection of the same user. And
the username of an earlier CONNECT is never checked out.

`PresenceSafe` excludes these two. Then a record has an owner that is going to check
it out, and a connection that has checked in and stays finds its record.
-/

variable {env : Env} {s s' : State} {t : Tid} {ch : Choice} {i j : Instr} {rest : List Instr}
  {nx : Next} {c : ConnId} {u : GoString}

/-! ## Who is online -/

/-- One of these is left to execute as long as `doConnect` has not returned. -/
def Instr.ofConnect : Instr → Bool
  | .connectValidate .. | .connectLimit .. | .connectReturn .. => true
  | _ => false

/-- The connection is inside `doConnect`. -/
def State.connecting (s : State) (c : ConnId) : Bool := (s.code (.inbound c)).any Instr.ofConnect

/-- The connection is inside its termination code. -/
def State.terminating (s : State) (c : ConnId) : Bool :=
  s.code (.inbound c) ≠ [] ∧ .inboundLoop c ∉ s.code (.inbound c)

/-- No connection is inside `doConnect` or its termination code. -/
def State.Settled (s : State) : Prop := ∀ c, s.connecting c = false ∧ s.terminating c = false

/-- A CONNECT with username `u` was accepted on the connection. A rejected one is the
last message of its connection, so the next acceptance is the one of this CONNECT. -/
def State.AcceptedAs (s : State) (c : ConnId) (u : GoString) : Prop :=
  ∃ m : Connect, m.username = u ∧
    [.received c (.connect m), .connectReturned c .accepted].Sublist s.trace

/-- Some connection that was accepted with username `u` has not terminated. -/
def State.Online (s : State) (u : GoString) : Prop :=
  ∃ c, s.AcceptedAs c u ∧ s.code (.inbound c) ≠ []

/-! ## Check-in and check-out -/

theorem Executes.presence (hx : Executes env s t ch i rest nx s') :
    s'.presence = s.presence ∨
    (∃ u, i = .checkIn u ∧ s'.presence = Function.update s.presence u true) ∨
    ∃ c f, i = .onTerminate c ∧ (s.conns c).flag = some f ∧ f.username ≠ [] ∧
      s'.presence = Function.update s.presence f.username false := by
  obtain ⟨-, s₁, hexec, rfl⟩ := hx
  cases i <;> simp only [exec, State.callStore, State.callIndex, State.add, State.del] at hexec
  all_goals repeat' split at hexec
  all_goals cases hexec
  all_goals try obtain ⟨conns, code, rfl⟩ := State.enqueue_frame ‹_›
  all_goals try obtain ⟨posts, code, hposts, rfl⟩ := State.post_frame ‹_›
  all_goals first
    | exact .inl rfl
    | exact .inr (.inl ⟨_, rfl, rfl⟩)
    | exact .inr (.inr ⟨_, _, rfl, ‹_›, by simp_all, rfl⟩)

theorem Executes.checkIn (hx : Executes env s t ch (.checkIn u) rest nx s') :
    s'.presence = Function.update s.presence u true := by
  obtain ⟨-, s₁, hexec, rfl⟩ := hx
  cases hexec
  rfl

theorem Executes.checkOut {f : Connect} (hpres : env.cf.enablePresence = true)
    (hx : Executes env s t ch (.onTerminate c) rest nx s') (hflag : (s.conns c).flag = some f)
    (hf : f.username ≠ []) : s'.presence f.username = false := by
  obtain ⟨-, s₁, hexec, rfl⟩ := hx
  simp only [exec, hpres, hflag, Bool.not_true, List.isEmpty_iff, hf] at hexec
  cases hexec
  simp [State.setCode]

theorem brings_checkIn (h : i.brings (.checkIn u) = true) : ∃ c m rc, i = .connectLimit c m rc := by
  cases Instr.brings_cases h with
  | checkIn => exact ⟨_, _, _, rfl⟩

/-- While there is more to do for a CONNECT, the flag is not changed. -/
theorem Executes.flag_of_mem (hr : Reachable env s) (hx : Executes env s t ch i rest nx s')
    (hj : j ∈ s.code (.inbound c)) (hne : ∀ m, j ≠ .connectValidate c m)
    (hloop : j ≠ .inboundLoop c) : (s'.conns c).flag = (s.conns c).flag := by
  refine (hx.conn c).flag.resolve_right ?_
  rintro ⟨m, rfl, -⟩
  obtain rfl := hx.home hr rfl
  rw [hr.connectValidate hx.mem_self] at hj
  simp only [List.mem_cons, List.not_mem_nil, or_false] at hj
  exact hj.elim (hne m) hloop

/-- `doConnect` has set the flag before its last check. -/
theorem Reachable.connectLimit {m : Connect} {rc : ReturnCode} (hr : Reachable env s)
    (h : .connectLimit c m rc ∈ s.code (.inbound c)) : (s.conns c).flag = some m := by
  refine hr.invariant (I := fun s => .connectLimit c m rc ∈ s.code (.inbound c) →
    (s.conns c).flag = some m) ?_ (fun h => by cases h) h
  intro s a s' hr hI hstep hmem
  obtain ⟨-, ⟨-, rfl⟩ | ⟨-, rfl⟩ | ⟨t, ch, i, rest, nx, -, hx⟩⟩ := step_cases hstep
  · exact hI ((State.mem_code_accept hmem).resolve_right nofun)
  · exact hI hmem
  · obtain hold | ⟨rfl, hnew⟩ | hgets := hx.mem_code hmem
    · rw [hx.flag_of_mem hr hold nofun nofun]
      exact hI hold
    · obtain rfl := brings_connectLimit (hx.follows.brings hnew)
      exact hx.flag_set.1
    · cases hgets

theorem mem_connectBody_checkIn {cf : BrokerConfig} {m : Connect} {rc : ReturnCode}
    (h : .checkIn u ∈ connectBody cf c m rc) : u = m.username := by
  simp only [connectBody] at h
  split at h <;> split at h <;> split at h <;> simp_all

/-- A username is checked in by the connection whose flag has it. -/
theorem Reachable.checkIn (hr : Reachable env s) (h : .checkIn u ∈ s.code t) :
    ∃ c f, t = .inbound c ∧ (s.conns c).flag = some f ∧ f.username = u := by
  refine hr.invariant (I := fun s => .checkIn u ∈ s.code t →
    ∃ c f, t = .inbound c ∧ (s.conns c).flag = some f ∧ f.username = u) ?_ ?_ h
  · intro s a s' hr hI hstep hmem
    obtain ⟨-, ⟨-, rfl⟩ | ⟨-, rfl⟩ | ⟨t', ch, i, rest, nx, -, hx⟩⟩ := step_cases hstep
    · exact hI ((State.mem_code_accept hmem).resolve_right (by cases t <;> nofun))
    · exact hI ((State.mem_code_acceptPeer hmem).resolve_right (by cases t <;> nofun))
    · obtain hold | ⟨rfl, hnew⟩ | hgets := hx.mem_code hmem
      · obtain ⟨c, f, rfl, hflag, hf⟩ := hI hold
        exact ⟨c, f, rfl, (hx.flag_of_mem hr hold nofun nofun).trans hflag, hf⟩
      · obtain ⟨c, m, rc, rfl⟩ := brings_checkIn (hx.follows.brings hnew)
        obtain rfl := hx.home hr rfl
        refine ⟨c, m, rfl, ?_, ?_⟩
        · rw [hx.flag_of_mem hr hx.mem_self nofun nofun]
          exact Reachable.connectLimit hr hx.mem_self
        · cases hx.follows with
          | falls hf => cases hf
          | limited n => exact (mem_connectBody_checkIn hnew).symm
      · cases t <;> cases hgets
  · intro hmem
    cases t <;> simp only [init, List.not_mem_nil] at hmem
    split at hmem <;> simp at hmem

/-! ## The end of `doConnect` and of `inboundLoop` -/

theorem brings_inboundLoop (h : i.brings (.inboundLoop c) = true) : i = .inboundLoop c := by
  cases Instr.brings_cases h with
  | inboundLoop => rfl

/-- Only `inboundLoop` itself goes on with the loop. -/
theorem Executes.mem_inboundLoop (hx : Executes env s t ch i rest nx s')
    (h : .inboundLoop c ∈ s'.code (.inbound c)) : .inboundLoop c ∈ s.code (.inbound c) := by
  obtain hold | ⟨rfl, hnew⟩ | hgets := hx.mem_code h
  · exact hold
  · obtain rfl := brings_inboundLoop (hx.follows.brings hnew)
    exact hx.mem_self
  · cases hgets

/-- What is behind an instruction that does not leave the loop stays. -/
theorem Executes.inbound_push (hx : Executes env s (.inbound c) ch i rest nx s')
    (h : .inboundLoop c ∈ s'.code (.inbound c)) : ∃ is, nx = .push is := by
  cases nx with
  | push is => exact ⟨is, rfl⟩
  | jump is =>
    rw [hx.code_self] at h
    obtain rfl := brings_inboundLoop (hx.follows.brings h)
    obtain ⟨p, -, hnx, -⟩ | ⟨-, hnx⟩ := hx.inboundLoop <;> cases hnx

/-- The last thing `inboundLoop` does is to check out. -/
theorem Executes.inbound_ends (hr : Reachable env s) (hx : Executes env s t ch i rest nx s')
    (h : s'.code (.inbound c) = []) : s.code (.inbound c) = [] ∨ i = .onTerminate c := by
  by_cases ht : .inbound c = t
  · subst ht
    refine .inr ?_
    have hshape := hr.shaped (.inbound c)
    have hfollows := hx.follows
    rw [hx.code] at hshape
    rw [hx.code_self] at h
    obtain ⟨body, hl, hbody⟩ | hsuf := hshape
    · -- a handler leaves the loop behind it, or goes on with the deferred function
      exfalso
      cases nx with
      | push is =>
        obtain ⟨rfl, rfl⟩ := List.append_eq_nil_iff.1 h
        obtain rfl : i = .inboundLoop c := by cases body <;> simp_all [Tid.loop]
        obtain ⟨p, -, hnx, -⟩ | ⟨-, hnx⟩ := hx.inboundLoop <;> simp at hnx
      | jump is =>
        obtain rfl : is = [] := h
        cases body <;> obtain ⟨rfl, -⟩ := List.cons.inj hl <;> cases hfollows <;>
          simp [Tid.inBody, Instr.inHandler] at hbody
    · have hsuf : i :: rest <:+ inboundDefer c := hsuf
      obtain rfl := follows_of_mem_inboundDefer (hsuf.subset (List.mem_cons_self ..)) hfollows
      obtain rfl : rest = [] := h
      simpa [inboundDefer, List.suffix_cons_iff] using hsuf
  · exact .inl ((hx.code_inbound ht).symm.trans h)

theorem sublist_trace {l : List Event} (hx : Executes env s t ch i rest nx s')
    (h : l.Sublist s.trace) : l.Sublist s'.trace := by
  obtain htr | ⟨e, htr, -⟩ := hx.trace <;> rw [htr]
  · exact h
  · exact h.trans (List.sublist_append_left ..)

theorem State.connecting_of_mem (h : j ∈ s.code (.inbound c)) (hj : j.ofConnect = true) :
    s.connecting c = true :=
  List.any_eq_true.2 ⟨j, h, hj⟩

/-- `doConnect` goes on until it returns; then the CONNECT was accepted, or the loop is
left. -/
theorem Executes.connecting {f : Connect} (hr : Reachable env s)
    (hx : Executes env s t ch i rest nx s') (hflag : (s.conns c).flag = some f)
    (h : s.connecting c = true) :
    s'.connecting c = true ∨ .inboundLoop c ∉ s'.code (.inbound c) ∨
      [.received c (.connect f), .connectReturned c .accepted].Sublist s'.trace := by
  by_cases ht : .inbound c = t
  · subst ht
    by_cases hloop : .inboundLoop c ∈ s'.code (.inbound c)
    · obtain ⟨is, rfl⟩ := hx.inbound_push hloop
      have hcode : s'.code (.inbound c) = is ++ rest := hx.code_self
      obtain ⟨j, hj, hof⟩ := List.any_eq_true.1 h
      rw [hx.code] at hj
      obtain rfl | hj := List.mem_cons.1 hj
      · have hfollows := hx.follows
        cases j with
        | connectValidate c' m =>
          cases hfollows with
          | falls hf => cases hf
          | validated =>
            refine .inl (State.connecting_of_mem
              (j := .connectLimit c' m (validate env.cf m)) ?_ rfl)
            simp [hcode]
        | connectLimit c' m rc =>
          cases hfollows with
          | falls hf => cases hf
          | limited n =>
            refine .inl (State.connecting_of_mem
              (j := .connectReturn c' (checkLimit env.cf n rc)) ?_ rfl)
            simp [hcode, connectBody]
        | connectReturn c' rc =>
          refine .inr (.inr ?_)
          obtain rfl : c' = c := (Tid.inbound.inj (hx.home hr rfl)).symm
          obtain ⟨⟨rfl, -⟩ | ⟨-, hnx⟩, htr⟩ := hx.connectReturn
          · rw [htr]
            exact (List.singleton_sublist.2 (hr.received_connect (.inl hflag))).append (.refl _)
          · cases hnx
        | _ => cases hof
      · exact .inl (State.connecting_of_mem (hcode ▸ List.mem_append_right _ hj) hof)
    · exact .inr (.inl hloop)
  · exact .inl (by rwa [State.connecting, hx.code_inbound ht])

/-- A check-in is made inside `doConnect`. -/
theorem Reachable.connecting_of_checkIn (hr : Reachable env s)
    (h : .checkIn u ∈ s.code (.inbound c)) : s.connecting c = true := by
  refine hr.invariant (I := fun s => .checkIn u ∈ s.code (.inbound c) → s.connecting c = true) ?_
    (fun h => by cases h) h
  intro s a s' hr hI hstep hmem
  obtain ⟨-, ⟨-, rfl⟩ | ⟨-, rfl⟩ | ⟨t, ch, i, rest, nx, -, hx⟩⟩ := step_cases hstep
  · have hold := (State.mem_code_accept hmem).resolve_right nofun
    rw [State.connecting, Reachable.accept_code hr (List.ne_nil_of_mem hold)]
    exact hI hold
  · exact hI hmem
  · by_cases ht : .inbound c = t
    · subst ht
      rw [hx.code_self] at hmem
      by_cases hnew : .checkIn u ∈ nx.instrs
      · obtain ⟨c', m, rc, rfl⟩ := brings_checkIn (hx.follows.brings hnew)
        cases hx.follows with
        | falls hf => cases hf
        | limited n =>
          refine State.connecting_of_mem (j := .connectReturn c' (checkLimit env.cf n rc)) ?_ rfl
          simp [hx.code_self, connectBody, Next.apply]
      · -- what has the check-in behind it is not the last instruction of `doConnect`
        cases nx with
        | jump is => exact absurd hmem hnew
        | push is =>
          have hold := (List.mem_append.1 hmem).resolve_left hnew
          obtain ⟨j, hj, hof⟩ := List.any_eq_true.1 (hI (hx.code ▸ List.mem_cons_of_mem _ hold))
          rw [hx.code] at hj
          obtain rfl | hj := List.mem_cons.1 hj
          · have hlast : j.behind = some [] := by cases j <;> first | rfl | cases hof
            rw [hx.behind hr hlast] at hold
            simp at hold
          · exact State.connecting_of_mem
              (by rw [hx.code_self]; exact List.mem_append_right _ hj) hof
    · rw [hx.code_inbound ht] at hmem
      rw [State.connecting, hx.code_inbound ht]
      exact hI hmem

/-- The last CONNECT is still handled, or the loop was left, or it was accepted. -/
theorem Reachable.accepted {f : Connect} (hr : Reachable env s) (h : (s.conns c).flag = some f) :
    s.connecting c = true ∨ .inboundLoop c ∉ s.code (.inbound c) ∨
      [.received c (.connect f), .connectReturned c .accepted].Sublist s.trace := by
  refine hr.invariant (I := fun s => (s.conns c).flag = some f → s.connecting c = true ∨
    .inboundLoop c ∉ s.code (.inbound c) ∨
      [.received c (.connect f), .connectReturned c .accepted].Sublist s.trace) ?_
    (fun h => by cases h) h
  intro s a s' hr hI hstep h
  obtain ⟨-, ⟨-, rfl⟩ | ⟨-, rfl⟩ | ⟨t, ch, i, rest, nx, -, hx⟩⟩ := step_cases hstep
  · have hcode : s.accept.code (.inbound c) = s.code (.inbound c) := by
      have hne := Nat.ne_of_lt (Reachable.flag_lt hr h)
      simp [State.accept, State.log, State.setCode, hne]
    rw [State.connecting, hcode]
    exact (hI h).imp_right (Or.imp_right fun h => h.trans (List.sublist_append_left ..))
  · exact hI h
  · obtain heq | ⟨m, rfl, heq⟩ := (hx.conn c).flag
    · have hflag := heq.symm.trans h
      obtain hc | hloop | hacc := hI hflag
      · exact hx.connecting hr hflag hc
      · exact .inr (.inl fun h => hloop (hx.mem_inboundLoop h))
      · exact .inr (.inr (sublist_trace hx hacc))
    · -- the check of this CONNECT is next
      obtain rfl := hx.home hr rfl
      obtain ⟨-, rfl⟩ := hx.flag_set
      refine .inl (State.connecting_of_mem (j := .connectLimit c m (validate env.cf m)) ?_ rfl)
      rw [hx.code_self]
      exact List.mem_cons_self ..

/-! ## Records and their owners -/

/-- As long as one of these is left, the connection checks in once more or is going to
be rejected. -/
def Instr.checksIn : Instr → Bool
  | .connectValidate .. | .connectLimit .. | .checkIn _ => true
  | .connectReturn _ rc => rc ≠ .accepted
  | _ => false

/-- The connection has checked in as `u` and stays. -/
def State.checkedIn (s : State) (c : ConnId) (u : GoString) : Bool :=
  (s.conns c).flag.map (·.username) = some u ∧ .inboundLoop c ∈ s.code (.inbound c) ∧
    (s.code (.inbound c)).any Instr.checksIn = false

/-- The step checks out nobody while another connection has checked in with the same
username, and is no CONNECT that changes the username of its connection. -/
def PresenceSafe (s : State) : BrokerAction → Bool
  | .run t _ =>
    match s.code t with
    | .onTerminate c :: _ =>
      match (s.conns c).flag with
      | none => true
      | some f => f.username = [] ∨ ∀ c' < s.nconns, c' ≠ c → s.checkedIn c' f.username = false
    | .connectValidate c m :: _ =>
      match (s.conns c).flag with
      | none => true
      | some f => f.username = [] ∨ m.username = f.username
    | _ => true
  | _ => true

/-- Some connection is going to check out `u`. -/
def State.Owned (s : State) (u : GoString) : Prop :=
  ∃ c f, (s.conns c).flag = some f ∧ f.username = u ∧ s.code (.inbound c) ≠ []

structure PresenceInv (s : State) : Prop where
  owned : ∀ u, u ≠ [] → s.presence u = true → s.Owned u
  present : ∀ c u, u ≠ [] → s.checkedIn c u = true → s.presence u = true
  /-- The username of a CONNECT stays the one of its connection. -/
  keeps : ∀ c m, .received c (.connect m) ∈ s.trace → m.username ≠ [] →
    .connectValidate c m ∈ s.code (.inbound c) ∨
      ∃ f, (s.conns c).flag = some f ∧ f.username = m.username

/-- A safe CONNECT leaves the username as it is. -/
theorem Executes.username {f : Connect} (hsafe : PresenceSafe s (.run t ch) = true)
    (hx : Executes env s t ch i rest nx s') (hflag : (s.conns c).flag = some f)
    (hf : f.username ≠ []) : ∃ f', (s'.conns c).flag = some f' ∧ f'.username = f.username := by
  obtain heq | ⟨m, rfl, heq⟩ := (hx.conn c).flag
  · exact ⟨f, heq.trans hflag, rfl⟩
  · have hm : f.username = [] ∨ m.username = f.username := by
      simpa [PresenceSafe, hx.code, hflag] using hsafe
    exact ⟨m, heq, hm.resolve_left hf⟩

theorem State.Owned.executes (hpres : env.cf.enablePresence = true) (hr : Reachable env s)
    (hsafe : PresenceSafe s (.run t ch) = true) (hx : Executes env s t ch i rest nx s')
    (hu : u ≠ []) (h : s.Owned u) : s'.Owned u ∨ s'.presence u = false := by
  obtain ⟨c, f, hflag, rfl, hcode⟩ := h
  by_cases hi : i = .onTerminate c
  · subst hi
    exact .inr (hx.checkOut hpres hflag hu)
  · obtain ⟨f', hflag', hf'⟩ := hx.username hsafe hflag hu
    exact .inl ⟨c, f', hflag', hf', fun hend => (hx.inbound_ends hr hend).elim hcode hi⟩

theorem PresenceInv.owned_executes (hpres : env.cf.enablePresence = true) (hr : Reachable env s)
    (hI : PresenceInv s) (hsafe : PresenceSafe s (.run t ch) = true)
    (hx : Executes env s t ch i rest nx s') (hu : u ≠ []) (h : s'.presence u = true) :
    s'.Owned u := by
  have hkeeps : s.Owned u → s'.Owned u := fun hold =>
    (State.Owned.executes hpres hr hsafe hx hu hold).resolve_right (by simp [h])
  obtain heq | ⟨u', rfl, heq⟩ | ⟨c, f, rfl, -, -, heq⟩ := hx.presence <;> rw [heq] at h
  · exact hkeeps (hI.owned u hu h)
  · by_cases hu' : u = u'
    · subst hu'
      obtain ⟨c, f, rfl, hflag, hf⟩ := hr.checkIn hx.mem_self
      exact hkeeps ⟨c, f, hflag, hf, by simp [hx.code]⟩
    · rw [Function.update_of_ne hu'] at h
      exact hkeeps (hI.owned u hu h)
  · by_cases hf : u = f.username
    · simp [hf] at h
    · rw [Function.update_of_ne hf] at h
      exact hkeeps (hI.owned u hu h)

theorem PresenceInv.keeps_executes {m : Connect} (hr : Reachable env s) (hI : PresenceInv s)
    (hsafe : PresenceSafe s (.run t ch) = true) (hx : Executes env s t ch i rest nx s')
    (hm : m.username ≠ []) (h : .received c (.connect m) ∈ s'.trace) :
    .connectValidate c m ∈ s'.code (.inbound c) ∨
      ∃ f, (s'.conns c).flag = some f ∧ f.username = m.username := by
  by_cases hold : .received c (.connect m) ∈ s.trace
  · obtain hval | ⟨f, hflag, hf⟩ := hI.keeps c m hold hm
    · by_cases ht : .inbound c = t
      · subst ht
        obtain ⟨rfl, -⟩ := List.cons.inj (hx.code.symm.trans (hr.connectValidate hval))
        exact .inr ⟨m, hx.flag_set.1, rfl⟩
      · exact .inl (hx.code_inbound ht ▸ hval)
    · obtain ⟨f', hflag', hf'⟩ := hx.username hsafe hflag (hf ▸ hm)
      exact .inr ⟨f', hflag', hf'.trans hf⟩
  · obtain ⟨rfl, rfl⟩ := hx.received h hold
    obtain rfl := hx.home hr rfl
    rw [hx.code_self]
    exact .inl (List.mem_cons_self ..)

theorem State.checkedIn_iff : s.checkedIn c u = true ↔
    (∃ f, (s.conns c).flag = some f ∧ f.username = u) ∧ .inboundLoop c ∈ s.code (.inbound c) ∧
      ∀ j ∈ s.code (.inbound c), j.checksIn = false := by
  simp [State.checkedIn]

theorem mem_checkIn_connectBody {cf : BrokerConfig} {m : Connect} {rc : ReturnCode}
    (hpres : cf.enablePresence = true) (hm : m.username ≠ []) :
    .checkIn m.username ∈ connectBody cf c m rc := by
  simp [connectBody, hpres, hm]

/-- A connection has checked in when it executes `checkIn`. -/
theorem Executes.checkedIn (hpres : env.cf.enablePresence = true) (hr : Reachable env s)
    (hx : Executes env s t ch i rest nx s') (hu : u ≠ []) (h : s'.checkedIn c u = true) :
    s.checkedIn c u = true ∨ i = .checkIn u := by
  rw [State.checkedIn_iff] at h ⊢
  obtain ⟨⟨f, hflag, rfl⟩, hloop, hnone⟩ := h
  by_cases ht : .inbound c = t
  · subst ht
    obtain ⟨is, rfl⟩ := hx.inbound_push hloop
    rw [hx.code_self] at hnone
    have hnew : ∀ j ∈ is, j.checksIn = false := fun j hj => hnone j (List.mem_append_left _ hj)
    have hrest : ∀ j ∈ rest, j.checksIn = false := fun j hj => hnone j (List.mem_append_right _ hj)
    by_cases hi : i.checksIn = true
    · have hfollows := hx.follows
      cases i with
      | connectValidate c' m =>
        cases hfollows with
        | falls hf => cases hf
        | validated => cases hnew _ (List.mem_cons_self ..)
      | connectLimit c' m rc =>
        obtain rfl : c' = c := (Tid.inbound.inj (hx.home hr rfl)).symm
        have hm := hr.connectLimit hx.mem_self
        rw [← hx.flag_of_mem hr hx.mem_self nofun nofun, hflag] at hm
        cases hm
        cases hfollows with
        | falls hf => cases hf
        | limited n => cases hnew _ (mem_checkIn_connectBody hpres hu)
      | checkIn u' =>
        obtain ⟨c', f', hc, hflag', rfl⟩ := hr.checkIn hx.mem_self
        cases hc
        rw [← hx.flag_of_mem hr hx.mem_self nofun nofun, hflag] at hflag'
        cases hflag'
        exact .inr rfl
      | connectReturn c' rc =>
        obtain ⟨⟨rfl, -⟩ | ⟨-, hnx⟩, -⟩ := hx.connectReturn
        · cases hi
        · cases hnx
      | _ => cases hi
    · refine .inl ⟨⟨f, ?_, rfl⟩, hx.mem_inboundLoop hloop, ?_⟩
      · rw [← hflag]
        refine ((hx.conn c).flag.resolve_right ?_).symm
        rintro ⟨m, rfl, -⟩
        exact hi rfl
      · rw [hx.code]
        exact List.forall_mem_cons.2 ⟨by simpa using hi, hrest⟩
  · rw [hx.code_inbound ht] at hloop hnone
    refine .inl ⟨⟨f, ?_, rfl⟩, hloop, hnone⟩
    rw [← hflag]
    refine ((hx.conn c).flag.resolve_right ?_).symm
    rintro ⟨m, rfl, -⟩
    exact ht (hx.home hr rfl).symm

/-- A connection that has checked in finds its record: it has just made it, or nobody
else has removed it. -/
theorem PresenceInv.present_executes (hpres : env.cf.enablePresence = true) (hr : Reachable env s)
    (hI : PresenceInv s) (hsafe : PresenceSafe s (.run t ch) = true)
    (hx : Executes env s t ch i rest nx s') (hu : u ≠ []) (h : s'.checkedIn c u = true) :
    s'.presence u = true := by
  obtain hin | rfl := hx.checkedIn hpres hr hu h
  · have hpresent := hI.present c u hu hin
    obtain heq | ⟨u', rfl, heq⟩ | ⟨c', f, rfl, hflag, hf, heq⟩ := hx.presence <;> rw [heq]
    · exact hpresent
    · by_cases hu' : u = u'
      · simp [hu']
      · rw [Function.update_of_ne hu', hpresent]
    · obtain ⟨⟨g, hg, -⟩, hloop, -⟩ := State.checkedIn_iff.1 hin
      have hne : c ≠ c' := by
        rintro rfl
        have hshape := hr.shaped t
        obtain rfl := hx.home hr rfl
        rw [hx.code] at hshape hloop
        have hmem := (hshape.deferred (by simp [inboundDefer])).subset hloop
        simp [inboundDefer] at hmem
      have hfree : f.username = [] ∨ ∀ c < s.nconns, c ≠ c' → s.checkedIn c f.username = false := by
        simpa [PresenceSafe, hx.code, hflag] using hsafe
      have hother := hfree.resolve_left hf c (hr.flag_lt hg) hne
      rw [Function.update_of_ne, hpresent]
      rintro rfl
      rw [hin] at hother
      cases hother
  · simp [hx.checkIn]

theorem PresenceInv.accept (hr : Reachable env s) (hI : PresenceInv s) : PresenceInv s.accept where
  owned u hu h := by
    obtain ⟨c, f, hflag, hf, hcode⟩ := hI.owned u hu h
    exact ⟨c, f, hflag, hf, by rwa [hr.accept_code hcode]⟩
  present c u hu h := by
    refine hI.present c u hu ?_
    obtain ⟨⟨f, hflag, hf⟩, hloop, hnone⟩ := State.checkedIn_iff.1 h
    have hcode : s.accept.code (.inbound c) = s.code (.inbound c) := by
      have hne := Nat.ne_of_lt (hr.flag_lt hflag)
      simp [State.accept, State.log, State.setCode, hne]
    rw [hcode] at hloop hnone
    exact State.checkedIn_iff.2 ⟨⟨f, hflag, hf⟩, hloop, hnone⟩
  keeps c m h hm := by
    have h : .received c (.connect m) ∈ s.trace := (List.mem_append.1 h).resolve_right (by simp)
    refine (hI.keeps c m h hm).imp_left fun hval => ?_
    rwa [hr.accept_code (List.ne_nil_of_mem hval)]

theorem presenceInv_init : PresenceInv (init env) where
  owned u hu h := by cases h
  present c u hu h := by simp [State.checkedIn_iff, init] at h
  keeps c m h := by cases h

theorem presenceInv_run {acts : List BrokerAction} (hpres : env.cf.enablePresence = true)
    (hrun : Transition.run (step env) (init env) acts = some s)
    (hsafe : Transition.Guarded (step env) (PresenceSafe · ·) (init env) acts) :
    PresenceInv s := by
  refine Transition.run_invariant ?_ presenceInv_init hrun hsafe
  intro s a s' hr hI hG hstep
  obtain ⟨-, ⟨-, rfl⟩ | ⟨-, rfl⟩ | ⟨t, ch, i, rest, nx, rfl, hx⟩⟩ := step_cases hstep
  · exact hI.accept hr
  · exact ⟨hI.owned, hI.present, hI.keeps⟩
  · exact {
      owned := fun u hu h => hI.owned_executes hpres hr hG hx hu h
      present := fun c u hu h => hI.present_executes hpres hr hG hx hu h
      keeps := fun c m h hm => hI.keeps_executes hr hG hx hm h }

/-! ## Presence and who is online -/

/-- If no connection checks out the username of another, and none changes its own, then
between the CONNECTs and the terminations the users with a record are those that are
online. -/
theorem presence_iff_online {acts : List BrokerAction} (hpres : env.cf.enablePresence = true)
    (hrun : Transition.run (step env) (init env) acts = some s)
    (hsafe : Transition.Guarded (step env) (PresenceSafe · ·) (init env) acts)
    (hs : s.Settled) (hu : u ≠ []) : s.presence u = true ↔ s.Online u := by
  have hr : Reachable env s := ⟨acts, hrun⟩
  have hI := presenceInv_run hpres hrun hsafe
  have hloop : ∀ c, s.code (.inbound c) ≠ [] → .inboundLoop c ∈ s.code (.inbound c) := by
    intro c hcode
    simpa [State.terminating, hcode] using (hs c).2
  constructor
  · intro h
    obtain ⟨c, f, hflag, hf, hcode⟩ := hI.owned u hu h
    obtain hc | hleft | hacc := hr.accepted hflag
    · rw [(hs c).1] at hc
      cases hc
    · exact absurd (hloop c hcode) hleft
    · exact ⟨c, ⟨f, hf, hacc⟩, hcode⟩
  · rintro ⟨c, ⟨m, rfl, hacc⟩, hcode⟩
    have hidle : ∀ j ∈ s.code (.inbound c), j.ofConnect = false := by
      simpa [State.connecting] using (hs c).1
    have hrec := hacc.subset (List.mem_cons_self ..)
    obtain hval | ⟨f, hflag, hf⟩ := hI.keeps c m hrec hu
    · cases hidle _ hval
    · refine hI.present c _ hu (State.checkedIn_iff.2 ⟨⟨f, hflag, hf⟩, hloop c hcode, ?_⟩)
      intro j hj
      have hj' := hidle j hj
      cases j with
      | checkIn u =>
        have hc := hr.connecting_of_checkIn hj
        rw [(hs c).1] at hc
        cases hc
      | connectValidate _ _ | connectLimit _ _ _ | connectReturn _ _ => cases hj'
      | _ => rfl

/-- Connections that were not accepted by the server do nothing. -/
theorem Reachable.settled (hr : Reachable env s)
    (h : ∀ c < s.nconns, s.connecting c = false ∧ s.terminating c = false) : s.Settled := by
  intro c
  by_cases hc : c < s.nconns
  · exact h c hc
  · simp [State.connecting, State.terminating, (hr.lifecycle c).fresh (Nat.le_of_not_lt hc)]

/-- The CONNECT of user `u` with client id `id`. -/
def Connect.asUser (id u : GoString) : Connect :=
  { Connect.named id with usernameFlag := true, username := u }

/-- User `u` connects. -/
def logsIn (c : ConnId) (id u : GoString) : List BrokerAction :=
  .accept :: sends c (.connect (.asUser id u)) 10

/-- The connection is closed by its client. -/
def hangsUp (c : ConnId) : List BrokerAction :=
  .run (.inbound c) .recvErr :: List.replicate 7 (.run (.inbound c) .go)

/-- Of two users that are online, one leaves. -/
def twoUsers : List BrokerAction :=
  logsIn 0 (str "a") (str "u") ++ logsIn 1 (str "b") (str "v") ++ hangsUp 0

theorem presence_iff_online_twoUsers :
    ∃ s, Transition.run (step presenceEnv) (init presenceEnv) twoUsers = some s ∧
      s.Settled ∧ s.Online (str "v") ∧ ¬ s.Online (str "u") := by
  have heval : (Transition.run (step presenceEnv) (init presenceEnv) twoUsers).map (fun s =>
      decide ((∀ c < s.nconns, s.connecting c = false ∧ s.terminating c = false) ∧
        s.presence (str "v") = true ∧ s.presence (str "u") = false)) = some true := by
    decide +kernel
  obtain ⟨s, hrun, h⟩ := Option.map_eq_some_iff.1 heval
  obtain ⟨hidle, hv, hu⟩ := of_decide_eq_true h
  have hsafe : Transition.Guarded (step presenceEnv) (PresenceSafe · ·) (init presenceEnv)
      twoUsers := by
    decide +kernel
  have hs := Reachable.settled ⟨_, hrun⟩ hidle
  refine ⟨s, hrun, hs, ?_, ?_⟩
  · exact (presence_iff_online rfl hrun hsafe hs (by decide +kernel)).1 hv
  · rw [← presence_iff_online rfl hrun hsafe hs (by decide +kernel), hu]
    nofun

/-- Of two connections of one user, one is closed. -/
def oneUser : List BrokerAction :=
  logsIn 0 (str "a") (str "u") ++ logsIn 1 (str "b") (str "u") ++ hangsUp 0

theorem online_without_record :
    ∃ s, Transition.run (step presenceEnv) (init presenceEnv) oneUser = some s ∧
      s.Settled ∧ s.Online (str "u") ∧ s.presence (str "u") = false := by
  have heval : (Transition.run (step presenceEnv) (init presenceEnv) oneUser).map (fun s =>
      decide ((∀ c < s.nconns, s.connecting c = false ∧ s.terminating c = false) ∧
        [.received 1 (.connect (.asUser (str "b") (str "u"))),
          .connectReturned 1 .accepted].Sublist s.trace ∧
        s.code (.inbound 1) ≠ [] ∧ s.presence (str "u") = false)) = some true := by
    decide +kernel
  obtain ⟨s, hrun, h⟩ := Option.map_eq_some_iff.1 heval
  obtain ⟨hidle, hacc, hcode, hu⟩ := of_decide_eq_true h
  exact ⟨s, hrun, Reachable.settled ⟨_, hrun⟩ hidle, ⟨1, ⟨_, rfl, hacc⟩, hcode⟩, hu⟩
