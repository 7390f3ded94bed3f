-- SUMMARY: The outbound side of a peer (`endpoint.go`): `submit`, and the loop of `start` over `runSession`, as one state machine; when its channel is safe.
import Mathlib.Data.Fintype.Basic
import Mhub.Base.Transition
import Mhub.Proto

/-!
# Endpoints

An endpoint has one `jobs` channel for its whole life. `start` runs one session after
the other, and every session closes the channel when it ends. So the second session
that ends closes a closed channel. `submit` looks at `alive` and then sends, so a
session that ends in between makes it send on a closed channel.

`Orderly` excludes the two: no session is begun on a closed channel, and a session
closes the channel only when no `submit` is about to send. The first leaves one session
for the whole life of the endpoint.

What an endpoint has accepted is what it has encoded, followed by what is pending, across
sessions too. But from the end of the first session on nothing is accepted: a second one
can only send what that has left.
-/

/-- What an endpoint reads of `config.PeersConfig`. -/
structure PeersConfig where
  queueLen : Nat := 1000
  buffOverflowStrategy : GoString := bufferOverflowBlock
  deriving DecidableEq, Repr

inductive ChanPanic where
  | closeOfClosed
  | sendOnClosed
  deriving DecidableEq, Repr

/-- Where `start` is. -/
inductive Session (M : Type) where
  /-- At the test of the loop in `start`. -/
  | loop
  | dial
  | connected
  /-- At the next turn of `range this.jobs`. -/
  | recv
  | encode (m : M)
  -- the deferred function of `runSession`
  | setDead
  | close
  /-- `start` has returned. -/
  | returned
  deriving DecidableEq, Repr

/-- An endpoint, for messages of type `M` that goroutines `ι` submit. -/
structure Endpoint (ι M : Type) where
  jobs : List M := []
  jobsClosed : Bool := false
  alive : Bool := true
  running : Bool := true
  session : Session M := .loop
  /-- The calls of `submit` that have found the endpoint alive and have yet to send. -/
  senders : ι → Option M := fun _ => none
  panicked : Option ChanPanic := none

namespace Endpoint

/-- What a step of a session finds: whether `net.Dial` and `Encode` succeed. -/
inductive Choice where
  | go
  | dial (ok : Bool)
  | encode (ok : Bool)
  deriving DecidableEq, Repr

inductive Action (ι M : Type) where
  /-- A goroutine calls `submit`, which looks at `alive`. -/
  | submit (i : ι) (m : M)
  /-- The `submit` of a goroutine sends. -/
  | send (i : ι)
  | session (ch : Choice)
  | stop
  deriving DecidableEq, Repr

variable {ι M : Type} [DecidableEq ι]

/-- Send on the channel. `none` when the sender has to wait. -/
def enqueue (cf : PeersConfig) (e : Endpoint ι M) (m : M) : Option (Endpoint ι M) :=
  if e.jobsClosed then some { e with panicked := some .sendOnClosed }
  else if e.jobs.length < cf.queueLen then some { e with jobs := e.jobs ++ [m] }
  else
    match cf.queueLen, e.session with
    -- an unbuffered channel hands over to a session that waits
    | 0, .recv => some { e with session := .encode m }
    | _, _ =>
      if cf.buffOverflowStrategy = bufferOverflowBlock then none
      else some e

/-- One step of `start`. -/
def runSession (e : Endpoint ι M) : Session M → Choice → Option (Endpoint ι M)
  | .loop, .go => some { e with session := if e.running then .dial else .returned }
  | .dial, .dial ok => some { e with session := if ok then .connected else .setDead }
  | .connected, .go => some { e with alive := true, session := .recv }
  | .recv, .go =>
    match e.jobs with
    | m :: ms => some { e with jobs := ms, session := .encode m }
    | [] => if e.jobsClosed then some { e with session := .setDead } else none
  | .encode _, .encode ok => some { e with session := if ok then .recv else .setDead }
  | .setDead, .go => some { e with alive := false, session := .close }
  | .close, .go =>
    if e.jobsClosed then some { e with panicked := some .closeOfClosed }
    else some { e with jobsClosed := true, session := .loop }
  | _, _ => none

def step (cf : PeersConfig) (e : Endpoint ι M) (a : Action ι M) : Option (Endpoint ι M) :=
  if e.panicked.isSome then none
  else
    match a with
    | .submit i m =>
      if (e.senders i).isSome then none
      else if e.alive then some { e with senders := Function.update e.senders i (some m) }
      else some e
    | .send i =>
      match e.senders i with
      | none => none
      | some m => { e with senders := Function.update e.senders i none }.enqueue cf m
    | .session ch => e.runSession e.session ch
    | .stop => some { e with running := false }

/-- `newEndpoint`. -/
def init : Endpoint ι M := {}

/-! ## The messages of an endpoint -/

/-- The endpoint has the message and has yet to encode it. -/
def Holds (e : Endpoint ι M) (m : M) : Prop :=
  m ∈ e.jobs ∨ e.session = .encode m ∨ ∃ i, e.senders i = some m

omit [DecidableEq ι] in
theorem holds_enqueue {cf : PeersConfig} {e e' : Endpoint ι M} {m m' : M}
    (hstep : e.enqueue cf m' = some e') (h : e'.Holds m) : e.Holds m ∨ m = m' := by
  unfold enqueue at hstep
  repeat' split at hstep
  all_goals cases hstep
  · exact .inl h
  · obtain hjobs | hrest := h
    · obtain hjobs | hnew := List.mem_append.1 hjobs
      · exact .inl (.inl hjobs)
      · exact .inr (List.mem_singleton.1 hnew)
    · exact .inl (.inr hrest)
  · obtain hjobs | hsession | hsender := h
    · exact .inl (.inl hjobs)
    · exact .inr (Session.encode.inj hsession).symm
    · exact .inl (.inr (.inr hsender))
  · exact .inl h

omit [DecidableEq ι] in
theorem holds_runSession {e e' : Endpoint ι M} {m : M} {ch : Choice}
    (hstep : e.runSession e.session ch = some e') (h : e'.Holds m) : e.Holds m := by
  generalize hsession : e.session = session at hstep
  cases session with
  | recv =>
    cases ch <;> simp only [runSession, reduceCtorEq] at hstep
    repeat' split at hstep
    all_goals cases hstep
    · next m' ms hjobs =>
      obtain hms | henc | hsender := h
      · exact .inl (hjobs ▸ List.mem_cons_of_mem _ hms)
      · exact .inl (hjobs ▸ Session.encode.inj henc ▸ List.mem_cons_self ..)
      · exact .inr (.inr hsender)
    · exact h.imp_right fun h => .inr (h.resolve_left nofun)
  | close =>
    cases ch <;> simp only [runSession, reduceCtorEq] at hstep
    split at hstep <;> cases hstep
    · exact h
    · exact h.imp_right fun h => .inr (h.resolve_left nofun)
  | loop =>
    cases ch <;> cases hstep
    exact h.imp_right fun h => .inr (h.resolve_left (by cases e.running <;> nofun))
  | dial | encode m' =>
    cases ch <;> cases hstep
    next ok => exact h.imp_right fun h => .inr (h.resolve_left (by cases ok <;> nofun))
  | connected | setDead =>
    cases ch <;> cases hstep
    exact h.imp_right fun h => .inr (h.resolve_left nofun)
  | returned => cases ch <;> cases hstep

/-- An endpoint gets its messages from `submit`. -/
theorem holds_step {cf : PeersConfig} {e e' : Endpoint ι M} {m : M} {a : Action ι M}
    (hstep : step cf e a = some e') (h : e'.Holds m) : e.Holds m ∨ ∃ i, a = .submit i m := by
  unfold step at hstep
  split at hstep
  · cases hstep
  cases a with
  | submit i m' =>
    simp only at hstep
    repeat' split at hstep
    all_goals cases hstep
    · obtain hjobs | hsession | ⟨i', hsender⟩ := h
      · exact .inl (.inl hjobs)
      · exact .inl (.inr (.inl hsession))
      · by_cases hi : i' = i
        · subst hi
          obtain rfl : m' = m := by simpa using hsender
          exact .inr ⟨i', rfl⟩
        · exact .inl (.inr (.inr ⟨i', by simpa [hi] using hsender⟩))
    · exact .inl h
  | send i =>
    simp only at hstep
    split at hstep
    · cases hstep
    next m' hm' =>
    refine .inl ?_
    obtain h | rfl := holds_enqueue hstep h
    · obtain hjobs | hsession | ⟨i', hsender⟩ := h
      · exact .inl hjobs
      · exact .inr (.inl hsession)
      · by_cases hi : i' = i
        · simp [hi] at hsender
        · exact .inr (.inr ⟨i', by simpa [hi] using hsender⟩)
    · exact .inr (.inr ⟨i, hm'⟩)
  | session ch => exact .inl (holds_runSession hstep h)
  | stop =>
    cases hstep
    exact .inl h

/-! ## When the channel is safe -/

/-- A session is begun on an open channel, and closes it when no `submit` is about to
send. -/
def Orderly (e : Endpoint ι M) : Action ι M → Prop
  | .session _ => (e.session = .loop → e.running = true → e.jobsClosed = false) ∧
    (e.session = .close → ∀ i, e.senders i = none)
  | _ => True

/-- The open channel is closed only behind `alive`. Once it is closed, no session runs
and nobody sends. -/
structure Safe (e : Endpoint ι M) : Prop where
  panicked : e.panicked = none
  dead : e.session = .close → e.alive = false
  closed : e.jobsClosed = true →
    (e.session = .loop ∨ e.session = .returned) ∧ e.alive = false ∧ ∀ i, e.senders i = none

instance [Fintype ι] [DecidableEq M] (e : Endpoint ι M) (a : Action ι M) :
    Decidable (e.Orderly a) := by
  unfold Orderly
  split <;> infer_instance

variable {cf : PeersConfig} {e e' : Endpoint ι M}

omit [DecidableEq ι] in
theorem safe_init : (init : Endpoint ι M).Safe := ⟨rfl, nofun, nofun⟩

theorem Safe.submit {i : ι} {m : M} (h : e.Safe)
    (hstep : step cf e (.submit i m) = some e') : e'.Safe := by
  rw [step, if_neg (by simp [h.panicked])] at hstep
  repeat' split at hstep
  all_goals cases hstep
  · next halive =>
    refine ⟨h.panicked, h.dead, fun hclosed => ?_⟩
    simp [(h.closed hclosed).2.1] at halive
  · exact h

theorem Safe.send {i : ι} (h : e.Safe) (hstep : step cf e (.send i) = some e') : e'.Safe := by
  rw [step, if_neg (by simp [h.panicked])] at hstep
  split at hstep
  · cases hstep
  next m hm =>
  -- somebody is about to send, so the channel is open
  have hopen : e.jobsClosed = false := by
    by_contra hclosed
    simp [(h.closed (by simpa using hclosed)).2.2 i] at hm
  rw [enqueue, if_neg (by simp [hopen])] at hstep
  repeat' split at hstep
  all_goals cases hstep
  · exact ⟨h.panicked, h.dead, by simp [hopen]⟩
  · exact ⟨h.panicked, nofun, by simp [hopen]⟩
  · exact ⟨h.panicked, h.dead, by simp [hopen]⟩

omit [DecidableEq ι] in
theorem Safe.runSession {ch : Choice} (h : e.Safe) (hg : e.Orderly (.session ch))
    (hstep : e.runSession e.session ch = some e') : e'.Safe := by
  obtain ⟨hbegin, hclose⟩ := hg
  have hdead := h.dead
  -- while a session runs the channel is open
  have hopen : e.session ≠ .loop → e.session ≠ .returned → e.jobsClosed = false := by
    intro hloop hreturned
    by_contra hclosed
    exact ((h.closed (by simpa using hclosed)).1).elim hloop hreturned
  generalize e.session = session at hstep hbegin hclose hopen hdead
  cases session with
  | loop =>
    cases ch <;> cases hstep
    cases hrun : e.running with
    | true =>
      refine ⟨h.panicked, by simp, fun hclosed => ?_⟩
      simp [hbegin rfl hrun] at hclosed
    | false => exact ⟨h.panicked, by simp, fun hclosed => ⟨.inr (by simp), (h.closed hclosed).2⟩⟩
  | dial =>
    have hopen := hopen nofun nofun
    cases ch <;> cases hstep
    next ok => exact ⟨h.panicked, by cases ok <;> nofun, by simp [hopen]⟩
  | connected =>
    have hopen := hopen nofun nofun
    cases ch <;> cases hstep
    exact ⟨h.panicked, nofun, by simp [hopen]⟩
  | recv =>
    have hopen := hopen nofun nofun
    cases ch <;> simp only [Endpoint.runSession, reduceCtorEq] at hstep
    repeat' split at hstep
    all_goals cases hstep
    all_goals exact ⟨h.panicked, nofun, by simp [hopen]⟩
  | encode m =>
    have hopen := hopen nofun nofun
    cases ch <;> cases hstep
    next ok => exact ⟨h.panicked, by cases ok <;> nofun, by simp [hopen]⟩
  | setDead =>
    have hopen := hopen nofun nofun
    cases ch <;> cases hstep
    exact ⟨h.panicked, fun _ => rfl, by simp [hopen]⟩
  | close =>
    cases ch <;> simp only [Endpoint.runSession, reduceCtorEq] at hstep
    rw [if_neg (by simp [hopen nofun nofun])] at hstep
    cases hstep
    exact ⟨h.panicked, nofun, fun _ => ⟨.inl rfl, hdead rfl, hclose rfl⟩⟩
  | returned => cases ch <;> cases hstep

theorem Safe.step {a : Action ι M} (h : e.Safe) (hg : e.Orderly a)
    (hstep : step cf e a = some e') : e'.Safe := by
  cases a with
  | submit i m => exact h.submit hstep
  | send i => exact h.send hstep
  | session ch =>
    rw [Endpoint.step, if_neg (by simp [h.panicked])] at hstep
    exact h.runSession hg hstep
  | stop =>
    rw [Endpoint.step, if_neg (by simp [h.panicked])] at hstep
    cases hstep
    exact ⟨h.panicked, h.dead, h.closed⟩

/-- An endpoint that begins no session on a closed channel, and closes it only when no
`submit` is about to send, closes it at most once, and nobody sends on it afterwards. -/
theorem reconnect_safe {acts : List (Action ι M)}
    (hrun : Transition.run (step cf) init acts = some e)
    (hg : Transition.Guarded (step cf) Orderly init acts) : e.panicked = none :=
  (Transition.run_invariant (fun _ _ _ _ h hg hstep => Safe.step h hg hstep) safe_init hrun
    hg).panicked

/-- A session that sends one message, is stopped and fails on the next. A third message
comes too late. -/
def sessionRun : List (Action (Fin 2) Nat) :=
  [.session .go, .session (.dial true), .session .go, .submit 0 1, .submit 1 2, .send 1, .send 0,
    .session .go, .session (.encode true), .stop, .session .go, .session (.encode false),
    .session .go, .session .go, .session .go, .submit 0 3]

theorem reconnect_safe_sessionRun :
    ∃ e, Transition.run (step {}) init sessionRun = some e ∧ e.jobsClosed = true ∧
      e.session = .returned ∧ e.panicked = none := by
  have heval : (Transition.run (step {}) init sessionRun).map (fun e =>
      decide (e.jobsClosed = true ∧ e.session = .returned)) = some true := by decide +kernel
  obtain ⟨e, hrun, hdec⟩ := Option.map_eq_some_iff.1 heval
  obtain ⟨hclosed, hreturned⟩ := of_decide_eq_true hdec
  exact ⟨e, hrun, hclosed, hreturned, reconnect_safe hrun (by decide +kernel)⟩

/-- A session that cannot connect ends, and closes the channel. So does the next one. -/
theorem second_session :
    (Transition.run (step {}) (init : Endpoint (Fin 2) Nat)
      ((List.replicate 2 [.session .go, .session (.dial false), .session .go,
        .session .go]).flatten)).map (·.panicked) = some (some .closeOfClosed) := by
  decide +kernel

/-! ## What an endpoint sends -/

section Sends

variable {ι M : Type}

def inHand : Session M → List M
  | .encode m => [m]
  | _ => []

/-- What the endpoint has accepted and has still to encode. -/
def pending (e : Endpoint ι M) : List M := inHand e.session ++ e.jobs

def waits : Session M → Bool
  | .recv => true
  | _ => false

/-- The channel takes the next message: it has room, or a session waits for it. -/
def accepts (cf : PeersConfig) (e : Endpoint ι M) : Bool :=
  !e.jobsClosed && (e.jobs.length < cf.queueLen || cf.queueLen = 0 && waits e.session)

inductive Event (ι M : Type) where
  | accepted (i : ι) (m : M)
  | encoded (m : M) (ok : Bool)
  deriving DecidableEq, Repr

def Event.taken : Event ι M → Option M
  | .accepted _ m => some m
  | .encoded .. => none

def Event.written : Event ι M → Option M
  | .accepted .. => none
  | .encoded m _ => some m

/-- What was encoded without an error. -/
def Event.sent : Event ι M → Option M
  | .accepted .. => none
  | .encoded m ok => if ok then some m else none

/-- What the goroutine `i` has got accepted. -/
def Event.takenFrom [DecidableEq ι] (i : ι) : Event ι M → Option M
  | .accepted i' m => if i' = i then some m else none
  | .encoded .. => none

def observe (cf : PeersConfig) (e : Endpoint ι M) (a : Action ι M) (_ : Endpoint ι M) :
    Option (Event ι M) :=
  match a with
  | .send i => if e.accepts cf then (e.senders i).map (.accepted i) else none
  | .session (.encode ok) =>
    match e.session with
    | .encode m => some (.encoded m ok)
    | _ => none
  | _ => none

variable {cf : PeersConfig} {e e' : Endpoint ι M}

theorem enqueue_pending {m : M} (hb : e.jobs.length ≤ cf.queueLen)
    (hstep : e.enqueue cf m = some e') :
    e'.pending = e.pending ++ (if e.accepts cf then [m] else []) ∧
      e'.jobs.length ≤ cf.queueLen := by
  unfold enqueue at hstep
  split at hstep
  · next hclosed =>
    cases hstep
    exact ⟨by simp [accepts, hclosed, pending], hb⟩
  next hclosed =>
  split at hstep
  · next hlt =>
    cases hstep
    exact ⟨by simp [accepts, hclosed, hlt, pending], by simpa using Nat.succ_le_of_lt hlt⟩
  next hfull =>
  split at hstep
  · next hlen hsession =>
    cases hstep
    have hjobs : e.jobs = [] := by
      rw [hlen] at hb
      exact List.length_eq_zero_iff.1 (Nat.le_zero.1 hb)
    exact ⟨by simp [accepts, hclosed, hsession, hlen, pending, inHand, waits, hjobs], hb⟩
  · next hnot =>
    split at hstep <;> cases hstep
    have hwaits : cf.queueLen = 0 → waits e.session = false := by
      intro hlen
      cases hsession : e.session with
      | recv => exact (hnot hlen hsession).elim
      | _ => rfl
    refine ⟨?_, hb⟩
    by_cases hlen : cf.queueLen = 0
    · simp [accepts, hlen, hwaits hlen]
    · simp [accepts, hfull, hlen]

/-- What a step of a session encodes was the first thing pending. -/
theorem runSession_pending {ch : Choice} (hb : e.jobs.length ≤ cf.queueLen)
    (hstep : e.runSession e.session ch = some e') :
    e.pending = (observe cf e (.session ch) e').toList.filterMap Event.written ++ e'.pending ∧
      e'.jobs.length ≤ cf.queueLen := by
  unfold pending observe
  generalize hsession : e.session = session at hstep
  cases session with
  | recv =>
    cases ch <;> simp only [runSession, reduceCtorEq] at hstep
    repeat' split at hstep
    all_goals cases hstep
    · next m ms hjobs =>
      rw [hjobs] at hb
      exact ⟨by simp [inHand, hjobs], Nat.le_of_succ_le hb⟩
    · next hjobs _ => exact ⟨by simp [inHand, hjobs], hb⟩
  | close =>
    cases ch <;> simp only [runSession, reduceCtorEq] at hstep
    split at hstep <;> cases hstep
    · exact ⟨by simp [inHand, hsession], hb⟩
    · exact ⟨by simp [inHand], hb⟩
  | loop =>
    cases ch <;> cases hstep
    exact ⟨by cases e.running <;> rfl, hb⟩
  | dial =>
    cases ch <;> cases hstep
    next ok => exact ⟨by cases ok <;> rfl, hb⟩
  | encode m =>
    cases ch <;> cases hstep
    next ok => exact ⟨by cases ok <;> simp [inHand, Event.written], hb⟩
  | connected | setDead =>
    cases ch <;> cases hstep
    exact ⟨rfl, hb⟩
  | returned => cases ch <;> cases hstep

variable [DecidableEq ι]

/-- What an endpoint has pending after a step. -/
theorem step_pending {a : Action ι M} (hb : e.jobs.length ≤ cf.queueLen)
    (hstep : step cf e a = some e') :
    e.pending ++ (observe cf e a e').toList.filterMap Event.taken =
        (observe cf e a e').toList.filterMap Event.written ++ e'.pending ∧
      e'.jobs.length ≤ cf.queueLen := by
  unfold step at hstep
  split at hstep
  · cases hstep
  cases a with
  | submit i m =>
    simp only at hstep
    repeat' split at hstep
    all_goals cases hstep
    all_goals exact ⟨by simp [observe, pending], hb⟩
  | send i =>
    simp only at hstep
    split at hstep
    · cases hstep
    next m hm =>
    obtain ⟨hpending, hb'⟩ := enqueue_pending
      (e := { e with senders := Function.update e.senders i none }) hb hstep
    change e'.pending = e.pending ++ (if e.accepts cf then [m] else []) at hpending
    refine ⟨?_, hb'⟩
    rw [hpending]
    cases haccepts : e.accepts cf <;> simp [observe, haccepts, hm, Event.taken, Event.written]
  | session ch =>
    obtain ⟨hpending, hb'⟩ := runSession_pending hb hstep
    refine ⟨?_, hb'⟩
    have htaken : (observe cf e (.session ch) e').toList.filterMap Event.taken = [] := by
      cases ch with
      | encode ok => cases hs : e.session <;> simp [observe, hs, Event.taken]
      | _ => rfl
    rw [htaken, List.append_nil, hpending]
  | stop =>
    cases hstep
    exact ⟨by simp [observe, pending], hb⟩

/-- Who is about to send after a step. -/
theorem senders_step {a : Action ι M} (hstep : step cf e a = some e') :
    e'.senders = match a with
      | .submit i m => if e.alive then Function.update e.senders i (some m) else e.senders
      | .send i => Function.update e.senders i none
      | _ => e.senders := by
  unfold step at hstep
  split at hstep
  · cases hstep
  cases a with
  | submit i m =>
    simp only at hstep ⊢
    repeat' split at hstep
    all_goals cases hstep
    all_goals simp_all
  | send i =>
    simp only at hstep
    split at hstep
    · cases hstep
    unfold enqueue at hstep
    repeat' split at hstep
    all_goals cases hstep
    all_goals rfl
  | session ch =>
    simp only at hstep
    generalize e.session = session at hstep
    cases session <;> cases ch <;> simp only [runSession, reduceCtorEq] at hstep
    all_goals repeat' split at hstep
    all_goals cases hstep
    all_goals rfl
  | stop =>
    cases hstep
    rfl

/-- The events of an endpoint in a run. -/
def events (cf : PeersConfig) (e : Endpoint ι M) (acts : List (Action ι M)) : List (Event ι M) :=
  Transition.observed (step cf) (observe cf) e acts

/-- The channel stays closed. -/
theorem closed_step {a : Action ι M} (hstep : step cf e a = some e') (h : e.jobsClosed = true) :
    e'.jobsClosed = true := by
  unfold step at hstep
  split at hstep
  · cases hstep
  cases a with
  | submit i m =>
    simp only at hstep
    repeat' split at hstep
    all_goals cases hstep
    all_goals exact h
  | send i =>
    simp only at hstep
    split at hstep
    · cases hstep
    rw [enqueue, if_pos (by exact h)] at hstep
    cases hstep
    exact h
  | session ch =>
    simp only at hstep
    generalize e.session = session at hstep
    cases session <;> cases ch <;> simp only [runSession, reduceCtorEq] at hstep
    all_goals repeat' split at hstep
    all_goals cases hstep
    all_goals exact h
  | stop =>
    cases hstep
    exact h

theorem events_pending {acts : List (Action ι M)} (hb : e.jobs.length ≤ cf.queueLen)
    (hrun : Transition.run (step cf) e acts = some e') :
    e.pending ++ (events cf e acts).filterMap Event.taken =
      (events cf e acts).filterMap Event.written ++ e'.pending := by
  refine (Transition.run_history (I := fun h u => e.pending ++ h.filterMap Event.taken =
    h.filterMap Event.written ++ u.pending ∧ u.jobs.length ≤ cf.queueLen) (G := fun _ _ => True)
    ?_ ?_ hrun (Transition.Guarded.of_forall (fun _ _ => trivial) _ _)).1
  · rintro h u a u' - ⟨heq, hb⟩ - hstep
    obtain ⟨hpending, hb'⟩ := step_pending hb hstep
    refine ⟨?_, hb'⟩
    rw [List.filterMap_append, List.filterMap_append, ← List.append_assoc, heq, List.append_assoc,
      hpending, List.append_assoc]
  · exact ⟨by simp, hb⟩

theorem events_closed {acts : List (Action ι M)} (hclosed : e.jobsClosed = true)
    (hrun : Transition.run (step cf) e acts = some e') :
    (events cf e acts).filterMap Event.taken = [] := by
  refine (Transition.run_history (I := fun h u => h.filterMap Event.taken = [] ∧
    u.jobsClosed = true) (G := fun _ _ => True) ?_ ⟨rfl, hclosed⟩ hrun
    (Transition.Guarded.of_forall (fun _ _ => trivial) _ _)).1
  rintro h u a u' - ⟨hnone, hclosed⟩ - hstep
  refine ⟨?_, closed_step hstep hclosed⟩
  have hobs : (observe cf u a u').toList.filterMap Event.taken = [] := by
    cases a with
    | send i => simp [observe, accepts, hclosed]
    | session ch =>
      cases ch with
      | encode ok => cases hs : u.session <;> simp [observe, hs, Event.taken]
      | _ => rfl
    | _ => rfl
  rw [List.filterMap_append, hnone, hobs, List.nil_append]

theorem bounded {acts : List (Action ι M)} (hrun : Transition.run (step cf) init acts = some e) :
    e.jobs.length ≤ cf.queueLen :=
  Transition.Reachable.invariant (I := fun e => e.jobs.length ≤ cf.queueLen)
    (fun _ _ _ _ hb hstep => (step_pending hb hstep).2) (Nat.zero_le _) ⟨_, hrun⟩

/-- An endpoint encodes what it has accepted, in order and once. Once a session has ended
it accepts nothing: however it goes on, it sends at most what was left then. -/
theorem endpoint_order {acts acts' : List (Action ι M)}
    (hrun : Transition.run (step cf) init acts = some e)
    (hrun' : Transition.run (step cf) e acts' = some e') :
    (events cf init acts).filterMap Event.taken =
        (events cf init acts).filterMap Event.written ++ e.pending ∧
      (e.jobsClosed = true →
        e.pending = (events cf e acts').filterMap Event.written ++ e'.pending) := by
  refine ⟨?_, fun hclosed => ?_⟩
  · have hall := events_pending (e := init) (Nat.zero_le _) hrun
    rwa [show (init : Endpoint ι M).pending = [] from rfl, List.nil_append] at hall
  · have hall := events_pending (bounded hrun) hrun'
    rwa [events_closed hclosed hrun', List.append_nil] at hall

/-- A session that fails on its second message, with a third one in the queue. -/
def leftRun : List (Action (Fin 2) Nat) :=
  [.session .go, .session (.dial true), .session .go, .submit 0 1, .send 0, .submit 0 2, .send 0,
    .submit 0 3, .send 0, .session .go, .session (.encode true), .session .go,
    .session (.encode false), .session .go, .session .go]

/-- A second session. A fourth message comes before it has begun. -/
def againRun : List (Action (Fin 2) Nat) :=
  [.submit 0 4, .session .go, .session (.dial true), .session .go, .session .go,
    .session (.encode true)]

theorem endpoint_order_leftRun :
    ∃ e e', Transition.run (step {}) init leftRun = some e ∧
      Transition.run (step {}) e againRun = some e' ∧ e.jobsClosed = true ∧
      e.pending = [3] ∧ e'.pending = [] := by
  have heval : (Transition.run (step {}) init leftRun).bind (fun e =>
      (Transition.run (step {}) e againRun).map fun _ => decide (e.jobsClosed = true ∧
        e.pending = [3] ∧ (events {} e againRun).filterMap Event.written = [3])) =
      some true := by decide +kernel
  obtain ⟨e, hrun, heval⟩ := Option.bind_eq_some_iff.1 heval
  obtain ⟨e', hrun', heval⟩ := Option.map_eq_some_iff.1 heval
  obtain ⟨hclosed, hleft, hwritten⟩ := of_decide_eq_true heval
  have hend := (endpoint_order hrun hrun').2 hclosed
  rw [hleft, hwritten] at hend
  exact ⟨e, e', hrun, hrun', hclosed, hleft, by simpa using hend.symm⟩

/-! ### While it is up -/

/-- The endpoint takes messages, and no session has failed. A `runSession` that is about
to return, because `Dial` or `Encode` has failed, has not reset `alive` yet. -/
def Up (e : Endpoint ι M) : Prop :=
  e.alive = true ∧ e.jobsClosed = false ∧ e.session ≠ .setDead

/-- An endpoint that is not alive has closed its channel, or is about to. -/
def Down (e : Endpoint ι M) : Prop :=
  e.alive = false → e.jobsClosed = true ∨ e.session = .close

/-- An endpoint does not come up again. -/
theorem Down.step {a : Action ι M} (h : e.Down) (hstep : step cf e a = some e') :
    e'.Down ∧ (e'.Up → e.Up) := by
  unfold Endpoint.step at hstep
  split at hstep
  · cases hstep
  cases a with
  | submit i m =>
    simp only at hstep
    repeat' split at hstep
    all_goals cases hstep
    all_goals exact ⟨h, id⟩
  | send i =>
    simp only at hstep
    split at hstep
    · cases hstep
    unfold enqueue at hstep
    repeat' split at hstep
    all_goals cases hstep
    · exact ⟨h, id⟩
    · exact ⟨h, id⟩
    · next hsession =>
      have hsession : e.session = .recv := hsession
      refine ⟨fun hdead => ?_, fun hup => ⟨hup.1, hup.2.1, by simp [hsession]⟩⟩
      obtain hclosed | hclose := h hdead
      · exact .inl hclosed
      · cases hclose.symm.trans hsession
    · exact ⟨h, id⟩
  | session ch =>
    simp only at hstep
    -- outside of the deferred function, an endpoint that is dead has closed the channel
    have hclosed : e.session ≠ .close → e.alive = false → e.jobsClosed = true :=
      fun hne hdead => (h hdead).resolve_right hne
    generalize hsession : e.session = session at hstep hclosed
    have hstays : session ≠ .setDead → e'.alive = e.alive → e'.jobsClosed = e.jobsClosed →
        e'.Up → e.Up :=
      fun hne halive hopen hup => ⟨halive ▸ hup.1, hopen ▸ hup.2.1, hsession ▸ hne⟩
    cases session with
    | recv =>
      cases ch <;> simp only [runSession, reduceCtorEq] at hstep
      repeat' split at hstep
      all_goals cases hstep
      all_goals exact ⟨fun hdead => .inl (hclosed (by simp) hdead), hstays (by simp) rfl rfl⟩
    | close =>
      cases ch <;> simp only [runSession, reduceCtorEq] at hstep
      split at hstep <;> cases hstep
      · exact ⟨fun _ => .inr hsession, hstays (by simp) rfl rfl⟩
      · exact ⟨fun _ => .inl rfl, fun hup => by cases hup.2.1⟩
    | connected =>
      cases ch <;> cases hstep
      refine ⟨fun hdead => (by cases hdead), fun hup => ⟨?_, hup.2.1, by simp [hsession]⟩⟩
      by_contra hdead
      have := (hclosed (by simp) (by simpa using hdead)).symm.trans hup.2.1
      cases this
    | setDead =>
      cases ch <;> cases hstep
      exact ⟨fun _ => .inr rfl, fun hup => by cases hup.1⟩
    | returned => cases ch <;> cases hstep
    | _ =>
      cases ch <;> cases hstep
      exact ⟨fun hdead => .inl (hclosed (by simp) hdead), hstays (by simp) rfl rfl⟩
  | stop =>
    cases hstep
    exact ⟨h, id⟩

/-- An endpoint on which `Encode` fails is not up any more. -/
theorem not_up_of_failed {a : Action ι M} {m : M} (hstep : step cf e a = some e')
    (hobs : observe cf e a e' = some (.encoded m false)) : ¬ e'.Up := by
  cases a with
  | send i =>
    simp only [observe] at hobs
    split at hobs
    · obtain ⟨m', -, hm'⟩ := Option.map_eq_some_iff.1 hobs
      cases hm'
    · cases hobs
  | session ch =>
    cases ch with
    | encode ok =>
      simp only [observe] at hobs
      split at hobs
      · next m' hsession =>
        obtain ⟨rfl, rfl⟩ : m' = m ∧ ok = false := by simpa using hobs
        unfold step at hstep
        split at hstep
        · cases hstep
        simp only [hsession, runSession] at hstep
        cases hstep
        exact fun hup => hup.2.2 rfl
      · cases hobs
    | _ => cases hobs
  | _ => cases hobs

/-- With the block strategy an endpoint that is up accepts what is sent. -/
theorem accepts_of_up {i : ι} (h : e.Up) (hblock : cf.buffOverflowStrategy = bufferOverflowBlock)
    (hstep : step cf e (.send i) = some e') : e.accepts cf = true := by
  unfold step at hstep
  split at hstep
  · cases hstep
  simp only at hstep
  split at hstep
  · cases hstep
  rw [enqueue, if_neg (by simp [h.2.1])] at hstep
  split at hstep
  · next hlt => simp [accepts, h.2.1, show e.jobs.length < cf.queueLen from hlt]
  split at hstep
  · next hlen hsession => simp [accepts, h.2.1, hlen, waits, show e.session = .recv from hsession]
  · cases hstep

end Sends

end Endpoint
