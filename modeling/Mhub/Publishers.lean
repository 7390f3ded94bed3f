-- SUMMARY: Many goroutines that publish over one `ClientConn`: which PubAck a `Publish` returns on, and when it is its own.
import Mhub.Client

/-!
# Concurrent publishers

`Client` has one goroutine that uses a `ClientConn`; here there are many. All their calls
of `Publish` wait on the one channel `puback`. `inboundLoop` hands a PubAck to one of
them, whatever the message id is, and when it closes the channel it releases them all.

`InTurn` says when that goes well: there is one such call at a time, the server
acknowledges what was published, and the channel is closed when nobody waits.
-/

namespace ClientConn

inductive Event where
  /-- `Publish` is called with a QoS 1 message. -/
  | published (messageId : UInt16)
  /-- `inboundLoop` has received a PubAck. -/
  | acked (messageId : UInt16)
  /-- The `Publish` of a QoS 1 message returns. -/
  | returned (messageId : UInt16)
  deriving DecidableEq, Repr

/-- What is to be noted of a step. `arg` is the message that the goroutine publishes. -/
def event (this this' : ClientConn) (arg : Option Publish) : Action → Option Event
  | .call (.publish _ m) =>
    if m.qosLevel = .atLeastOnce then some (.published m.messageId) else none
  | .inbound (.recv (.pubAck a)) =>
    if this.inbound = .read then some (.acked a.messageId) else none
  | _ =>
    -- `Publish` waits for a PubAck last
    if .recvPuback ∈ this.user ∧ .recvPuback ∉ this'.user then
      arg.map fun m => .returned m.messageId
    else none

end ClientConn

/-- A `ClientConn` and the goroutines that use it. -/
structure ClientConn.Callers (n : Nat) where
  /-- Its `user` is the goroutine that was the last to move. -/
  conn : ClientConn
  /-- What each goroutine has left to do of its call. -/
  users : Fin n → List ClientConn.Instr := fun _ => []
  /-- The argument of the last `Publish` of each goroutine. -/
  arg : Fin n → Option Publish := fun _ => none
  trace : List ClientConn.Event := []

namespace ClientConn.Callers

variable {n : Nat}

/-- The connection as one goroutine has it for itself. -/
def load (this : Callers n) (g : Fin n) : ClientConn := { this.conn with user := this.users g }

/-- The goroutine `g` is done with a step, and what it has is shared again. -/
def after (this : Callers n) (g : Fin n) (a : Action) (conn : ClientConn) : Callers n where
  conn
  users := Function.update this.users g conn.user
  arg :=
    match a with
    | .call (.publish _ m) => Function.update this.arg g (some m)
    | _ => this.arg
  trace := this.trace ++ (event (this.load g) conn (this.arg g) a).toList

/-- One step. The label names the goroutine that moves, or the one to which `inboundLoop`
hands something over. -/
def step (this : Callers n) (a : Fin n × Action) : Option (Callers n) :=
  ((this.load a.1).step a.2).map (this.after a.1 a.2)

def newCallers (n queueLength : Nat) (keepAlive : UInt16) (clientId : GoString) : Callers n where
  conn := newClientConn queueLength keepAlive clientId

end ClientConn.Callers

/-! ## What one goroutine sees of a step -/

namespace ClientConn

/-- `inboundLoop` has closed `out`. -/
def Inbound.closing : Inbound → Bool
  | .closeIncoming | .closeConnack | .closeSuback | .closePuback | .returned => true
  | _ => false

/-- A step that no call has to do with. -/
structure Aside (this this' : ClientConn) : Prop where
  user : this'.user = this.user
  inbound : this'.inbound = this.inbound ∨
    this.inbound ≠ .returned ∧ ∀ a, this'.inbound ≠ .deliver (.pubAck a)
  closing : (this.inbound.closing = true → this.outClosed = true) →
    this'.inbound.closing = true → this'.outClosed = true
  puback : this'.pubackClosed = this.pubackClosed

/-- The calls do not change where `inboundLoop` is. -/
structure SameInbound (this this' : ClientConn) : Prop where
  inbound : this'.inbound = this.inbound
  out : this'.outClosed = this.outClosed
  puback : this'.pubackClosed = this.pubackClosed

/-- What a step can be, as far as it matters to who waits for a PubAck. -/
inductive Moves (this this' : ClientConn) : Action → Prop where
  | call {c : Call} : this.user = [] → this'.user = (this.call c).user → SameInbound this this' →
    Moves this this' (.call c)
  | next {i : Instr} : this.user = i :: this'.user → i ≠ .recvPuback →
    (this.outClosed = true → ∀ j, i ≠ .send j) → SameInbound this this' → Moves this this' .user
  /-- `puback` is closed. -/
  | released : this.user = .recvPuback :: this'.user → this.pubackClosed = true →
    SameInbound this this' → Moves this this' .user
  | acked {a : PubAck} : this.inbound = .read → this'.inbound = .deliver (.pubAck a) →
    this'.user = this.user → this'.pubackClosed = this.pubackClosed →
    Moves this this' (.inbound (.recv (.pubAck a)))
  | handed {m : Message} {i : Instr} : this.inbound = .deliver m → this'.inbound = .read →
    this.user = i :: this'.user → (i = .recvPuback → ∃ a, m = .pubAck a) →
    this'.pubackClosed = this.pubackClosed → Moves this this' (.inbound .go)
  | closes : this.inbound = .closePuback → this'.inbound = .returned →
    this'.outClosed = this.outClosed → this'.user = this.user → Moves this this' (.inbound .go)
  | aside {a : Action} : (∀ c, a ≠ .call c) →
    (∀ m, a = .inbound (.recv (.pubAck m)) → this.inbound ≠ .read) → Aside this this' →
    Moves this this' a
  | panics {a : Action} : (∀ c, a ≠ .call c) → (∀ ch, a ≠ .inbound ch) →
    this'.panicked.isSome = true → (.recvPuback ∈ this.user → .recvPuback ∈ this'.user) →
    Moves this this' a

variable {this this' : ClientConn} {a : Action}

theorem Aside.refl (huser : this'.user = this.user) (hin : this'.inbound = this.inbound)
    (hout : this'.outClosed = this.outClosed) (hpub : this'.pubackClosed = this.pubackClosed) :
    Aside this this' :=
  ⟨huser, .inl hin, by rw [hin, hout]; exact id, hpub⟩

theorem sendOut_moves {j : Job} (h : this.sendOut j = some this') :
    this'.panicked.isSome = true ∧ this'.user = this.user ∨
      this.outClosed = false ∧ this'.user = this.user ∧ SameInbound this this' := by
  unfold sendOut at h
  split at h
  · cases h
    exact .inl ⟨rfl, rfl⟩
  · next hopen =>
    repeat' split at h
    all_goals cases h
    all_goals exact .inr ⟨by simpa using hopen, rfl, rfl, rfl, rfl⟩

theorem call_moves {c : Call} (h : this.user = []) : Moves this (this.call c) (.call c) := by
  refine .call h rfl ?_
  cases c with
  | connect user pass fresh =>
    simp only [ClientConn.call, sync]
    split <;> split <;> exact ⟨rfl, rfl, rfl⟩
  | _ => exact ⟨rfl, rfl, rfl⟩

theorem runUser_moves (h : this.runUser = some this') : Moves this this' .user := by
  unfold runUser at h
  split at h
  · cases h
  · next j k hcode =>
    obtain ⟨hpanic, huser⟩ | ⟨hopen, huser, hkeeps⟩ := sendOut_moves h
    · refine .panics (by simp) (by simp) hpanic fun hmem => ?_
      rw [huser]
      simpa [hcode] using hmem
    · exact .next (hcode.trans (by rw [huser])) (by simp) (by simp_all)
        ⟨hkeeps.inbound, hkeeps.out, hkeeps.puback⟩
  · next r k hcode =>
    split at h <;> cases h
    exact .next hcode (by simp) (by simp) ⟨rfl, rfl, rfl⟩
  · next k hcode =>
    split at h <;> cases h
    exact .panics (by simp) (by simp) rfl id
  · next k hcode =>
    split at h <;> cases h
    exact .next hcode (by simp) (by simp) ⟨rfl, rfl, rfl⟩
  · next k hcode =>
    split at h <;> cases h
    exact .released hcode ‹_› ⟨rfl, rfl, rfl⟩
  · next k hcode =>
    split at h <;> cases h
    exact .next hcode (by simp) (by simp) ⟨rfl, rfl, rfl⟩
  · cases h
    exact .panics (by simp) (by simp) rfl id

theorem handOver_moves {m : Message} {i : Instr} (hin : this.inbound = .deliver m)
    (hi : i = .recvPuback → ∃ a, m = .pubAck a) (h : this.handOver i = some this') :
    Moves this this' (.inbound .go) := by
  unfold handOver at h
  split at h
  · next j k hcode =>
    split at h <;> cases h
    next hj => exact .handed hin rfl (hcode.trans (by rw [hj])) hi rfl
  · cases h

theorem runInbound_moves {ch : Choice} (h : this.runInbound this.inbound ch = some this') :
    Moves this this' (.inbound ch) := by
  generalize hin : this.inbound = loc at h
  cases loc with
  | read =>
    cases ch with
    | recv m =>
      simp only [runInbound] at h
      split at h <;> cases h
      cases m with
      | pubAck a => exact .acked hin rfl rfl rfl
      | _ =>
        exact .aside (by simp) (by simp)
          ⟨rfl, .inr (by simp [hin, handle]), by simp [handle, Inbound.closing], rfl⟩
    | recvOther =>
      simp only [runInbound] at h
      split at h <;> cases h
      exact .aside (by simp) (by simp) (.refl rfl rfl rfl rfl)
    | recvErr =>
      cases h
      exact .aside (by simp) (by simp) ⟨rfl, .inr (by simp [hin]), by simp [Inbound.closing], rfl⟩
    | _ => cases h
  | deliver m =>
    cases m with
    | publish m =>
      simp only [runInbound] at h
      repeat' split at h
      all_goals cases h
      all_goals
        exact .aside (by simp) (by simp [hin])
          ⟨rfl, .inr (by simp [hin]), by simp [Inbound.closing], rfl⟩
    | pubAck a =>
      cases ch with
      | go => exact handOver_moves hin (fun _ => ⟨a, rfl⟩) h
      | _ => cases h
    | connAck rc | subAck id qos =>
      cases ch with
      | go => exact handOver_moves hin (by simp) h
      | _ => cases h
    | _ => cases h
  | closeOut | closeIncoming | closeConnack | closeSuback =>
    cases ch <;> cases h
    exact .aside (by simp) (by simp) ⟨rfl, .inr (by simp [hin]), by simp_all [Inbound.closing], rfl⟩
  | closePuback =>
    cases ch <;> cases h
    exact .closes hin rfl rfl rfl
  | returned => cases h

theorem runOutbound_aside {loc : Outbound} {ch : Choice}
    (h : this.runOutbound loc ch = some this') : Aside this this' := by
  cases loc with
  | recv =>
    cases ch <;> simp only [runOutbound, reduceCtorEq] at h
    repeat' split at h
    all_goals cases h
    all_goals exact .refl rfl rfl rfl rfl
  | encoded j ok =>
    cases ch <;> cases h
    cases hr : j.r <;> exact .refl rfl rfl rfl rfl
  | encode j | closeConn | closeDone =>
    cases ch <;> cases h
    exact .refl rfl rfl rfl rfl
  | returned => cases h

theorem runKeepAlive_moves {n : Nat} {k : KeepAlive} {ch : Choice}
    (h : this.runKeepAlive n k ch = some this') : Moves this this' (.keepAlive n ch) := by
  have haside (haside : Aside this this') : Moves this this' (.keepAlive n ch) :=
    .aside (by simp) (by simp) haside
  cases k with
  | sleep =>
    cases ch <;> cases h
    exact haside (.refl rfl rfl rfl rfl)
  | select =>
    cases ch <;> simp only [runKeepAlive, reduceCtorEq] at h
    · cases h
      exact haside (.refl rfl rfl rfl rfl)
    · split at h <;> cases h
      exact haside (.refl rfl rfl rfl rfl)
  | ping =>
    cases ch <;> simp only [runKeepAlive, reduceCtorEq] at h
    obtain ⟨hpanic, huser⟩ | ⟨-, huser, hkeeps⟩ := sendOut_moves h
    · exact .panics (by simp) (by simp) hpanic fun hmem => by rwa [huser]
    · exact haside (.refl huser hkeeps.inbound hkeeps.out hkeeps.puback)
  | returned => cases h

theorem step_moves (h : this.step a = some this') : this.panicked = none ∧ Moves this this' a := by
  unfold step at h
  split at h
  · cases h
  next hp =>
  refine ⟨by simpa using hp, ?_⟩
  cases a with
  | call c =>
    simp only at h
    split at h <;> cases h
    exact call_moves ‹_›
  | user => exact runUser_moves h
  | inbound ch => exact runInbound_moves h
  | outbound ch => exact .aside (by simp) (by simp) (runOutbound_aside h)
  | keepAlive n ch =>
    simp only at h
    split at h
    · exact runKeepAlive_moves h
    · cases h
  | consume =>
    simp only at h
    split at h <;> cases h
    exact .aside (by simp) (by simp) (.refl rfl rfl rfl rfl)

end ClientConn

/-! ## Who waits -/

namespace ClientConn

theorem event_eq_none {this this' : ClientConn} {arg : Option Publish} {a : Action}
    (hcall : ∀ c, a ≠ .call c) (hack : ∀ m, a = .inbound (.recv (.pubAck m)) → this.inbound ≠ .read)
    (huser : .recvPuback ∈ this.user → .recvPuback ∈ this'.user) :
    event this this' arg a = none := by
  unfold event
  split
  · exact absurd rfl (hcall _)
  · rw [if_neg (hack _ rfl)]
  · rw [if_neg fun h => h.2 (huser h.1)]

end ClientConn

namespace ClientConn.Callers

variable {n : Nat} {this this' : Callers n} {g : Fin n} {a : Action} {conn : ClientConn}

/-- The goroutine waits, or is going to wait, for the PubAck of a message with this id. -/
structure Waits (this : Callers n) (g : Fin n) (messageId : UInt16) : Prop where
  code : .recvPuback ∈ this.users g
  arg : ∃ m, this.arg g = some m ∧ m.messageId = messageId

/-- No `Publish` of a QoS 1 message is under way. -/
def Quiet (this : Callers n) : Prop := ∀ g, .recvPuback ∉ this.users g

instance : Decidable this.Quiet := inferInstanceAs (Decidable (∀ _, _))

/-- QoS 1 messages have different ids. -/
def Distinct (this : Callers n) : Fin n × Action → Bool
  | (_, .call (.publish _ m)) =>
    m.qosLevel = .atLeastOnce → .published m.messageId ∉ this.trace
  | _ => true

/-- The calls do not overlap, the server acknowledges what was published, and once, and
`puback` is closed between the calls. -/
def InTurn (this : Callers n) : Fin n × Action → Bool
  | (_, .call (.publish _ m)) => m.qosLevel = .atLeastOnce → this.Quiet
  | (_, .inbound (.recv (.pubAck a))) =>
    .published a.messageId ∈ this.trace ∧ .acked a.messageId ∉ this.trace
  | (_, .inbound .go) => this.conn.inbound = .closePuback → this.Quiet
  | _ => true

/-- One goroutine waits at most. Apart from the message it waits for, all are
acknowledged, and the PubAck that `inboundLoop` is about to hand over is for it. -/
structure Matched (this : Callers n) : Prop where
  shape : ∀ g, .recvPuback ∈ this.users g →
    this.users g = [.recvPuback] ∨ ∃ j, this.users g = [.send j, .recvPuback]
  sole : ∀ g g', .recvPuback ∈ this.users g → .recvPuback ∈ this.users g' → g = g'
  published : ∀ id, .published id ∈ this.trace → .acked id ∈ this.trace ∨ ∃ g, this.Waits g id
  delivers : ∀ a, this.conn.inbound = .deliver (.pubAck a) →
    .acked a.messageId ∈ this.trace ∧ ∃ g, this.Waits g a.messageId
  closing : this.conn.inbound.closing = true → this.conn.outClosed = true
  closed : this.conn.pubackClosed = true →
    this.conn.inbound = .returned ∧ ∀ g, this.users g ≠ [.recvPuback]

namespace Matched

theorem newCallers {queueLength : Nat} {keepAlive : UInt16} {clientId : GoString} :
    (newCallers n queueLength keepAlive clientId).Matched where
  shape g hg := by cases hg
  sole g g' hg := by cases hg
  published id h := by cases h
  delivers a h := by cases h
  closing h := by cases h
  closed h := by cases h

/-- A step after which the same goroutines wait for the same messages. -/
theorem frame (h : this.Matched)
    (hcode : ∀ g, .recvPuback ∈ this'.users g ↔ .recvPuback ∈ this.users g)
    (harg : ∀ g, .recvPuback ∈ this.users g → this'.arg g = this.arg g)
    (htrace : this'.trace = this.trace)
    (hshape : ∀ g, .recvPuback ∈ this'.users g →
      this'.users g = [.recvPuback] ∨ ∃ j, this'.users g = [.send j, .recvPuback])
    (hdeliver : this'.conn.inbound = this.conn.inbound ∨
      ∀ a, this'.conn.inbound ≠ .deliver (.pubAck a))
    (hclosing : this'.conn.inbound.closing = true → this'.conn.outClosed = true)
    (hclosed : this'.conn.pubackClosed = true →
      this'.conn.inbound = .returned ∧ ∀ g, this'.users g ≠ [.recvPuback]) : this'.Matched := by
  have hwaits {g id} (hg : this.Waits g id) : this'.Waits g id :=
    ⟨(hcode g).2 hg.code, by rw [harg g hg.code]; exact hg.arg⟩
  refine ⟨hshape, fun g g' hg hg' => h.sole g g' ((hcode g).1 hg) ((hcode g').1 hg'), ?_, ?_,
    hclosing, hclosed⟩
  · intro id hid
    rw [htrace] at hid ⊢
    exact (h.published id hid).imp_right (Exists.imp fun _ => hwaits)
  · intro a ha
    obtain hsame | hother := hdeliver
    · rw [htrace]
      exact (h.delivers a (hsame ▸ ha)).imp_right (Exists.imp fun _ => hwaits)
    · exact absurd ha (hother a)

end Matched

theorem after_users_self : (this.after g a conn).users g = conn.user := Function.update_self ..

theorem after_users_of_ne {g' : Fin n} (hg : g' ≠ g) :
    (this.after g a conn).users g' = this.users g' := Function.update_of_ne hg ..

theorem after_users_eq (huser : conn.user = this.users g) :
    (this.after g a conn).users = this.users := by
  simp [after, huser]

/-- Only `Publish` has an argument to remember. -/
theorem after_arg (hcall : ∀ c, a ≠ .call c) : (this.after g a conn).arg = this.arg := by
  cases a with
  | call c => exact absurd rfl (hcall c)
  | _ => rfl

theorem after_trace (hevent : event (this.load g) conn (this.arg g) a = none) :
    (this.after g a conn).trace = this.trace := by
  simp [after, hevent]

namespace Matched

theorem aside (h : this.Matched) (hcall : ∀ c, a ≠ .call c)
    (hevent : event (this.load g) conn (this.arg g) a = none) (haside : Aside (this.load g) conn) :
    (this.after g a conn).Matched := by
  have husers : (this.after g a conn).users = this.users := after_users_eq haside.user
  refine h.frame (by simp [husers]) (by simp [after_arg hcall]) (after_trace hevent)
    (by rw [husers]; exact h.shape) (haside.inbound.imp_right And.right)
    (haside.closing h.closing) ?_
  intro hpub
  obtain ⟨hret, husers'⟩ := h.closed (haside.puback ▸ hpub)
  obtain hsame | ⟨hne, -⟩ := haside.inbound
  · exact ⟨hsame.trans hret, by rwa [husers]⟩
  · exact absurd hret hne

/-- A call goes on, and it was not at the channel `puback`. -/
theorem next {i : Instr} (h : this.Matched) (hcall : ∀ c, a ≠ .call c)
    (hevent : event (this.load g) conn (this.arg g) a = none) (huser : this.users g = i :: conn.user)
    (hi : i ≠ .recvPuback)
    (hdeliver : conn.inbound = this.conn.inbound ∨ ∀ a, conn.inbound ≠ .deliver (.pubAck a))
    (hclosing : conn.inbound.closing = true → conn.outClosed = true)
    (hclosed : conn.pubackClosed = true → conn.inbound = .returned ∧
      this.conn.pubackClosed = true ∧ ∀ j, i ≠ .send j) :
    (this.after g a conn).Matched := by
  -- behind `i` there is the wait for a PubAck, or none
  have hself : .recvPuback ∈ conn.user →
      conn.user = [.recvPuback] ∧ ∃ j, this.users g = [.send j, .recvPuback] := by
    intro hmem
    obtain hone | ⟨j, htwo⟩ := h.shape g (huser ▸ List.mem_cons_of_mem _ hmem)
    · rw [huser] at hone
      exact absurd (List.cons.inj hone).1 hi
    · refine ⟨?_, j, htwo⟩
      rw [huser] at htwo
      exact (List.cons.inj htwo).2
  refine h.frame ?_ (by simp [after_arg hcall]) (after_trace hevent) ?_ hdeliver hclosing ?_
  · intro g'
    by_cases hg : g' = g
    · subst hg
      rw [after_users_self, huser, List.mem_cons, or_iff_right hi.symm]
    · rw [after_users_of_ne hg]
  · intro g' hmem
    by_cases hg : g' = g
    · subst hg
      rw [after_users_self] at hmem ⊢
      exact .inl (hself hmem).1
    · rw [after_users_of_ne hg] at hmem ⊢
      exact h.shape g' hmem
  · intro hpub
    obtain ⟨hret, hpub, hsend⟩ := hclosed hpub
    refine ⟨hret, fun g' => ?_⟩
    by_cases hg : g' = g
    · subst hg
      rw [after_users_self]
      intro hone
      obtain ⟨-, j, htwo⟩ := hself (by simp [hone])
      rw [huser] at htwo
      exact hsend j (List.cons.inj htwo).1
    · rw [after_users_of_ne hg]
      exact (h.closed hpub).2 g'

/-- A PubAck is received: it is for the goroutine that waits. -/
theorem acked {m : PubAck} (h : this.Matched)
    (hevent : event (this.load g) conn (this.arg g) a = some (.acked m.messageId))
    (hcall : ∀ c, a ≠ .call c) (huser : conn.user = this.users g)
    (hread : this.conn.inbound = .read) (hdeliver : conn.inbound = .deliver (.pubAck m))
    (hpub : conn.pubackClosed = this.conn.pubackClosed)
    (hknown : .published m.messageId ∈ this.trace) (hnew : Event.acked m.messageId ∉ this.trace) :
    (this.after g a conn).Matched := by
  have husers : (this.after g a conn).users = this.users := after_users_eq huser
  have htrace : (this.after g a conn).trace = this.trace ++ [Event.acked m.messageId] := by
    simp [after, hevent]
  have hwaits {g' id} (hg : this.Waits g' id) : (this.after g a conn).Waits g' id :=
    ⟨by rw [husers]; exact hg.code, by rw [after_arg hcall]; exact hg.arg⟩
  refine ⟨by rw [husers]; exact h.shape, by rw [husers]; exact h.sole, ?_, ?_, ?_, ?_⟩
  · intro id hid
    rw [htrace] at hid ⊢
    obtain hack | ⟨g', hg⟩ := h.published id (by simpa using hid)
    · exact .inl (List.mem_append_left _ hack)
    · exact .inr ⟨g', hwaits hg⟩
  · intro m' hm
    obtain ⟨⟩ := hdeliver.symm.trans hm
    obtain ⟨g', hg⟩ := (h.published _ hknown).resolve_left hnew
    exact ⟨by simp [htrace], g', hwaits hg⟩
  · intro hclosing
    rw [show (this.after g a conn).conn.inbound = _ from hdeliver] at hclosing
    cases hclosing
  · intro hclosed
    have hret := (h.closed (hpub ▸ hclosed)).1
    rw [hread] at hret
    cases hret

/-- Who receives a PubAck is the goroutine it is for. -/
theorem receiver {m : PubAck} {k : List Instr} (h : this.Matched)
    (hin : this.conn.inbound = .deliver (.pubAck m)) (huser : this.users g = .recvPuback :: k) :
    .acked m.messageId ∈ this.trace ∧ this.Waits g m.messageId ∧ k = [] := by
  have hmem : .recvPuback ∈ this.users g := by simp [huser]
  obtain ⟨hack, g', hg⟩ := h.delivers m hin
  obtain rfl := h.sole g g' hmem hg.code
  refine ⟨hack, hg, ?_⟩
  obtain hone | ⟨j, htwo⟩ := h.shape g hmem
  · rw [huser] at hone
    exact (List.cons.inj hone).2
  · rw [huser] at htwo
    cases htwo

/-- With its PubAck the goroutine stops waiting, and then nobody waits. -/
theorem handed {m : PubAck} (h : this.Matched)
    (hin : this.conn.inbound = .deliver (.pubAck m)) (hread : conn.inbound = .read)
    (huser : this.users g = .recvPuback :: conn.user)
    (hpub : conn.pubackClosed = this.conn.pubackClosed)
    (hevent : event (this.load g) conn (this.arg g) a = some (.returned m.messageId)) :
    (this.after g a conn).Matched := by
  obtain ⟨hack, hwaits, hdone⟩ := h.receiver hin huser
  have hquiet : (this.after g a conn).Quiet := by
    intro g' hmem
    by_cases hg : g' = g
    · subst hg
      simp [after_users_self, hdone] at hmem
    · rw [after_users_of_ne hg] at hmem
      exact hg (h.sole g' g hmem hwaits.code)
  have htrace : (this.after g a conn).trace = this.trace ++ [Event.returned m.messageId] := by
    simp [after, hevent]
  refine ⟨fun g' hg => absurd hg (hquiet g'), fun g' _ hg => absurd hg (hquiet g'), ?_, ?_, ?_, ?_⟩
  · intro id hid
    rw [htrace] at hid ⊢
    refine .inl (List.mem_append_left _ ?_)
    obtain hold | ⟨g', hg⟩ := h.published id (by simpa using hid)
    · exact hold
    · -- the message it waited for is the one that was acknowledged
      obtain rfl := h.sole g' g hg.code hwaits.code
      obtain ⟨p, hp, rfl⟩ := hg.arg
      obtain ⟨p', hp', hid'⟩ := hwaits.arg
      obtain rfl := Option.some.inj (hp.symm.trans hp')
      rwa [hid']
  · intro m' hm
    cases hread.symm.trans hm
  · intro hclosing
    rw [show (this.after g a conn).conn.inbound = _ from hread] at hclosing
    cases hclosing
  · intro hclosed
    have hret := (h.closed (hpub ▸ hclosed)).1
    rw [hin] at hret
    cases hret

/-- `puback` is closed when nobody waits. -/
theorem closes (h : this.Matched) (hcall : ∀ c, a ≠ .call c)
    (hevent : event (this.load g) conn (this.arg g) a = none) (huser : conn.user = this.users g)
    (hin : this.conn.inbound = .closePuback) (hret : conn.inbound = .returned)
    (hout : conn.outClosed = this.conn.outClosed) (hquiet : this.Quiet) :
    (this.after g a conn).Matched := by
  have husers : (this.after g a conn).users = this.users := after_users_eq huser
  refine h.frame (by simp [husers]) (by simp [after_arg hcall]) (after_trace hevent)
    (by rw [husers]; exact h.shape) (.inr fun m hm => by cases hret.symm.trans hm) ?_ ?_
  · exact fun _ => hout.trans (h.closing (by rw [hin]; rfl))
  · refine fun _ => ⟨hret, fun g' hone => hquiet g' ?_⟩
    rw [husers] at hone
    simp [hone]

/-- Another call than the `Publish` of a QoS 1 message. -/
theorem otherCall {c : Call} (h : this.Matched) (hidle : this.users g = [])
    (hcode : .recvPuback ∉ conn.user)
    (hevent : event (this.load g) conn (this.arg g) (.call c) = none)
    (hkeeps : SameInbound (this.load g) conn) : (this.after g (.call c) conn).Matched := by
  have hself : .recvPuback ∉ this.users g := by simp [hidle]
  refine h.frame ?_ ?_ (after_trace hevent) ?_ (.inl hkeeps.inbound) ?_ ?_
  · intro g'
    by_cases hg : g' = g
    · subst hg
      rw [after_users_self]
      exact iff_of_false hcode hself
    · rw [after_users_of_ne hg]
  · intro g' hmem
    have hg : g' ≠ g := by
      rintro rfl
      exact hself hmem
    cases c <;> simp [after, hg]
  · intro g' hmem
    by_cases hg : g' = g
    · subst hg
      rw [after_users_self] at hmem
      exact absurd hmem hcode
    · rw [after_users_of_ne hg] at hmem ⊢
      exact h.shape g' hmem
  · intro hclosing
    exact hkeeps.out.trans (h.closing (hkeeps.inbound ▸ hclosing))
  · intro hpub
    obtain ⟨hret, husers⟩ := h.closed (hkeeps.puback ▸ hpub)
    refine ⟨hkeeps.inbound.trans hret, fun g' hone => ?_⟩
    by_cases hg : g' = g
    · subst hg
      rw [after_users_self] at hone
      exact hcode (by simp [hone])
    · rw [after_users_of_ne hg] at hone
      exact husers g' hone

/-- `Publish` is called with a QoS 1 message when nobody waits. -/
theorem publishes {retain : Bool} {m : Publish} {j : Job} (h : this.Matched) (hquiet : this.Quiet)
    (hcode : conn.user = [.send j, .recvPuback])
    (hevent : event (this.load g) conn (this.arg g) (.call (.publish retain m)) =
      some (.published m.messageId))
    (hkeeps : SameInbound (this.load g) conn) :
    (this.after g (.call (.publish retain m)) conn).Matched := by
  have hsole {g'} (hmem : .recvPuback ∈ (this.after g (.call (.publish retain m)) conn).users g') :
      g' = g := by
    by_contra hg
    rw [after_users_of_ne hg] at hmem
    exact hquiet g' hmem
  refine ⟨?_, fun g' g'' hg hg' => (hsole hg).trans (hsole hg').symm, ?_, ?_, ?_, ?_⟩
  · intro g' hmem
    obtain rfl := hsole hmem
    rw [after_users_self]
    exact .inr ⟨j, hcode⟩
  · intro id hid
    simp only [after, hevent, Option.toList_some, List.mem_append, List.mem_singleton,
      Event.published.injEq] at hid
    obtain hold | rfl := hid
    · obtain hack | ⟨g', hg⟩ := h.published id hold
      · exact .inl (List.mem_append_left _ hack)
      · exact absurd hg.code (hquiet g')
    · exact .inr ⟨g, by simp [after_users_self, hcode], m, by simp [after], rfl⟩
  · intro a ha
    obtain ⟨-, g', hg⟩ := h.delivers a (hkeeps.inbound ▸ ha)
    exact absurd hg.code (hquiet g')
  · intro hclosing
    exact hkeeps.out.trans (h.closing (hkeeps.inbound ▸ hclosing))
  · intro hpub
    obtain ⟨hret, husers⟩ := h.closed (hkeeps.puback ▸ hpub)
    refine ⟨hkeeps.inbound.trans hret, fun g' hone => ?_⟩
    have hmem : .recvPuback ∈ (this.after g (.call (.publish retain m)) conn).users g' := by
      simp [hone]
    obtain rfl := hsole hmem
    rw [after_users_self, hcode] at hone
    cases hone

end Matched

/-- Every `Publish` that has returned did so after its PubAck was received. -/
def AckedFirst (trace : List Event) : Prop :=
  ∀ pre id, pre ++ [Event.returned id] <+: trace → Event.acked id ∈ pre

theorem AckedFirst.concat {trace : List Event} {e : Event} (h : AckedFirst trace)
    (he : ∀ id, e = .returned id → .acked id ∈ trace) : AckedFirst (trace ++ [e]) := by
  intro pre id hpre
  obtain heq | hpre := List.prefix_concat_iff.1 hpre
  · obtain ⟨rfl, hlast⟩ := List.append_inj' heq rfl
    exact he id (List.cons.inj hlast).1.symm
  · exact h pre id hpre

theorem AckedFirst.after (h : AckedFirst this.trace)
    (hevent : ∀ id, event (this.load g) conn (this.arg g) a = some (.returned id) →
      .acked id ∈ this.trace) : AckedFirst (this.after g a conn).trace := by
  cases he : event (this.load g) conn (this.arg g) a with
  | none => rwa [after_trace he]
  | some e =>
    have htrace : (this.after g a conn).trace = this.trace ++ [e] := by simp [Callers.after, he]
    rw [htrace]
    exact h.concat fun id hid => hevent id (he.trans (congrArg some hid))

/-- A call begins. -/
theorem Matched.call {c : Call} (h : this.Matched) (hturn : this.InTurn (g, .call c) = true)
    (hidle : this.users g = []) (huser : conn.user = ((this.load g).call c).user)
    (hkeeps : SameInbound (this.load g) conn) :
    (∀ id, event (this.load g) conn (this.arg g) (.call c) ≠ some (.returned id)) ∧
      (this.after g (.call c) conn).Matched := by
  have hload : (this.load g).user = [] := hidle
  cases c with
  | publish retain m =>
    by_cases hq : m.qosLevel = .atLeastOnce
    · have hquiet : this.Quiet := by simpa [InTurn, hq] using hturn
      have hevent : event (this.load g) conn (this.arg g) (.call (.publish retain m)) =
          some (.published m.messageId) := by simp [event, hq]
      rw [ClientConn.call, hq] at huser
      exact ⟨by simp [hevent], h.publishes hquiet huser hevent hkeeps⟩
    · have hevent : event (this.load g) conn (this.arg g) (.call (.publish retain m)) = none := by
        simp [event, hq]
      have hcode : .recvPuback ∉ conn.user := by
        rw [huser, ClientConn.call]
        cases hlevel : m.qosLevel <;> simp_all [afterPublish]
      exact ⟨by simp [hevent], h.otherCall hidle hcode hevent hkeeps⟩
  | connect user pass fresh | disconnect | subscribe topics | unsubscribe m =>
    have hcode : .recvPuback ∉ conn.user := by
      rw [huser]
      simp [ClientConn.call, sync]
    exact ⟨by simp [event, hload], h.otherCall hidle hcode (by simp [event, hload]) hkeeps⟩

/-- One step of a run in which the calls take turns. -/
theorem Matched.step (h : this.Matched) (hfirst : AckedFirst this.trace)
    (hturn : this.InTurn (g, a) = true) (hstep : this.step (g, a) = some this') :
    AckedFirst this'.trace ∧ (this'.conn.panicked = none → this'.Matched) := by
  obtain ⟨conn, hconn, rfl⟩ := Option.map_eq_some_iff.1 hstep
  obtain ⟨-, hmoves⟩ := step_moves hconn
  have hsilent (hcall : ∀ c, a ≠ .call c)
      (hack : ∀ m, a = .inbound (.recv (.pubAck m)) → this.conn.inbound ≠ .read)
      (hmem : .recvPuback ∈ this.users g → .recvPuback ∈ conn.user) :
      event (this.load g) conn (this.arg g) a = none ∧ AckedFirst (this.after g a conn).trace := by
    have hevent : event (this.load g) conn (this.arg g) a = none := event_eq_none hcall hack hmem
    exact ⟨hevent, hfirst.after (by simp [hevent])⟩
  cases hmoves with
  | call hidle huser hkeeps =>
    obtain ⟨hevent, hnew⟩ := h.call hturn hidle huser hkeeps
    exact ⟨hfirst.after fun id hid => absurd hid (hevent id), fun _ => hnew⟩
  | @next i huser hi hsend hkeeps =>
    have huser : this.users g = i :: conn.user := huser
    obtain ⟨hevent, htrace⟩ := hsilent (by simp) (by simp) (by simp [huser, hi.symm])
    have hclosing : conn.inbound.closing = true → conn.outClosed = true := fun hclosing =>
      hkeeps.out.trans (h.closing (hkeeps.inbound ▸ hclosing))
    refine ⟨htrace, fun _ => h.next (by simp) hevent huser hi (.inl hkeeps.inbound) hclosing ?_⟩
    intro hpub
    have hpub : this.conn.pubackClosed = true := hkeeps.puback ▸ hpub
    have hret := (h.closed hpub).1
    exact ⟨hkeeps.inbound.trans hret, hpub, hsend (h.closing (by rw [hret]; rfl))⟩
  | released huser hpub hkeeps =>
    -- `puback` is closed, and then nobody waits
    have huser : this.users g = .recvPuback :: conn.user := huser
    obtain hone | ⟨j, htwo⟩ := h.shape g (by simp [huser])
    · exact absurd hone ((h.closed hpub).2 g)
    · cases huser.symm.trans htwo
  | @acked m hread hdeliver huser hpub =>
    have hread : this.conn.inbound = .read := hread
    obtain ⟨hknown, hnew⟩ : .published m.messageId ∈ this.trace ∧
        .acked m.messageId ∉ this.trace := by simpa [InTurn] using hturn
    have hevent : event (this.load g) conn (this.arg g) (.inbound (.recv (.pubAck m))) =
        some (.acked m.messageId) := if_pos hread
    refine ⟨hfirst.after (by simp [hevent]), fun _ => ?_⟩
    exact h.acked hevent (by simp) huser hread hdeliver hpub hknown hnew
  | @handed m i hin hread huser hi hpub =>
    have huser : this.users g = i :: conn.user := huser
    by_cases hi' : i = .recvPuback
    · subst hi'
      obtain ⟨p, rfl⟩ := hi rfl
      obtain ⟨hack, hwaits, hdone⟩ := h.receiver hin huser
      obtain ⟨m, hm, hid⟩ := hwaits.arg
      have hevent : event (this.load g) conn (this.arg g) (.inbound .go) =
          some (.returned p.messageId) := by
        simp [event, load, huser, hdone, hm, hid]
      refine ⟨hfirst.after fun id h => ?_, fun _ => h.handed hin hread huser hpub hevent⟩
      obtain rfl : p.messageId = id := by simpa [hevent] using h
      exact hack
    · obtain ⟨hevent, htrace⟩ := hsilent (by simp) (by simp) (by simp [huser, Ne.symm hi'])
      refine ⟨htrace, fun _ => h.next (by simp) hevent huser hi' (.inr (by simp [hread]))
        (by simp [hread, Inbound.closing]) ?_⟩
      intro hclosed
      have hret := (h.closed (hpub ▸ hclosed)).1
      cases hret.symm.trans hin
  | closes hin hret hout huser =>
    have huser : conn.user = this.users g := huser
    obtain ⟨hevent, htrace⟩ := hsilent (by simp) (by simp) (by simp [huser])
    have hin : this.conn.inbound = .closePuback := hin
    have hquiet : this.Quiet := by simpa [InTurn, hin] using hturn
    exact ⟨htrace, fun _ => h.closes (by simp) hevent huser hin hret hout hquiet⟩
  | aside hcall hack haside =>
    obtain ⟨hevent, htrace⟩ := hsilent hcall hack fun hmem => by rwa [haside.user]
    exact ⟨htrace, fun _ => h.aside hcall hevent haside⟩
  | panics hcall hin hpanic hmem =>
    obtain ⟨-, htrace⟩ := hsilent hcall (fun m hm => absurd hm (hin _)) hmem
    refine ⟨htrace, fun hnone => ?_⟩
    have hnone : conn.panicked = none := hnone
    simp [hnone] at hpanic

/-- If the calls of `Publish` with QoS 1 messages do not overlap, the server acknowledges
what was published, and once, and `puback` is closed between the calls, every such call
returns after its own PubAck was received. -/
theorem publish_acked {queueLength : Nat} {keepAlive : UInt16} {clientId : GoString}
    {acts : List (Fin n × Action)}
    (hrun : Transition.run step (newCallers n queueLength keepAlive clientId) acts = some this)
    (hturn : Transition.Guarded step (InTurn · ·)
      (newCallers n queueLength keepAlive clientId) acts)
    {pre : List Event} {id : UInt16} (hpre : pre ++ [Event.returned id] <+: this.trace) :
    .acked id ∈ pre := by
  have hinit : AckedFirst (newCallers n queueLength keepAlive clientId).trace := by
    intro pre id hpre
    simp [newCallers] at hpre
  have hinv := Transition.run_invariant (G := (InTurn · ·))
    (I := fun this : Callers n => AckedFirst this.trace ∧ (this.conn.panicked = none → this.Matched))
    ?_ ⟨hinit, fun _ => .newCallers⟩ hrun hturn
  · exact hinv.1 pre id hpre
  · rintro this ⟨g, a⟩ this' - ⟨hfirst, hmatched⟩ hG hstep
    obtain ⟨conn, hconn, -⟩ := Option.map_eq_some_iff.1 hstep
    have hp : this.conn.panicked = none := (step_moves hconn).1
    exact (hmatched hp).step hfirst hG hstep

/-- The goroutine `g` publishes a QoS 1 message, which is sent to the server. -/
def publishes (g : Fin n) (messageId : UInt16) : List (Fin n × Action) :=
  (.call (.publish false ⟨0, .atLeastOnce, str "t", messageId, str "x"⟩) :: sendsJob).map (g, ·)

/-- The server acknowledges a message, and `g` receives the PubAck. -/
def receives (g : Fin n) (messageId : UInt16) : List (Fin n × Action) :=
  [(g, .inbound (.recv (.pubAck ⟨.atMostOnce, messageId⟩))), (g, .inbound .go)]

theorem publish_acked_inTurn :
    ∃ this : Callers 2, Transition.run step (newCallers 2 1 0 [])
      (publishes 0 1 ++ receives 0 1 ++ publishes 1 2 ++ receives 1 2) = some this ∧
      ∃ pre, pre ++ [Event.returned 2] <+: this.trace ∧ Event.acked 2 ∈ pre := by
  have heval : (Transition.run step (newCallers 2 1 0 [])
      (publishes 0 1 ++ receives 0 1 ++ publishes 1 2 ++ receives 1 2)).map (·.trace) =
      some [Event.published 1, .acked 1, .returned 1, .published 2, .acked 2, .returned 2] := by
    decide +kernel
  obtain ⟨this, hrun, htrace⟩ := Option.map_eq_some_iff.1 heval
  have hpre : [Event.published 1, .acked 1, .returned 1, .published 2, .acked 2] ++
      [Event.returned 2] <+: this.trace := htrace ▸ List.prefix_refl _
  exact ⟨this, hrun, _, hpre, publish_acked hrun (by decide +kernel) hpre⟩

/-- Two goroutines publish, and the server acknowledges the second message first. The
goroutine of the first message gets the PubAck, and returns. -/
theorem wrong_puback :
    ¬ ∀ (n queueLength : Nat) (keepAlive : UInt16) (clientId : GoString)
      (acts : List (Fin n × Action)) (this : Callers n),
      Transition.run step (newCallers n queueLength keepAlive clientId) acts = some this →
      Transition.Guarded step (Distinct · ·) (newCallers n queueLength keepAlive clientId) acts →
      AckedFirst this.trace := by
  intro h
  have heval : (Transition.run step (newCallers 2 1 0 [])
      (publishes 0 1 ++ publishes 1 2 ++ receives 0 2)).map (·.trace) =
      some [Event.published 1, .published 2, .acked 2, .returned 1] := by
    decide +kernel
  obtain ⟨this, hrun, htrace⟩ := Option.map_eq_some_iff.1 heval
  have hpre : [Event.published 1, .published 2, .acked 2] ++ [Event.returned 1] <+: this.trace :=
    htrace ▸ List.prefix_refl _
  have hack := h 2 1 0 [] _ this hrun (by decide +kernel) _ _ hpre
  simp at hack

end ClientConn.Callers
