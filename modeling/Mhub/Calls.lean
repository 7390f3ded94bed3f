-- SUMMARY: The calls of a client (`api.go`): their requests are written in order, and the replies are handed to them in order, one at a time.
import Mhub.Broker.Replies
import Mhub.Client

/-!
# The calls of a client

The library pairs requests and replies by their order alone: a call does not look at the
message id of the reply that it is given, and `inboundLoop` hands a PUBACK to whoever waits
for one. What speaks for it on the side of the client is proved here. The requests are
written in the order of the calls (`step_unsent`), what is read is handed over in order
(`step_inHand`), and as long as `inboundLoop` reads, every call but the last one has its
reply (`Waits`).

Both loops can fail at any time. After a message that could not be written `outboundLoop`
writes nothing (`Works`), and once `inboundLoop` has left its loop, calls return without a
reply.
-/

/-! ## What a call waits for -/

/-- Where a call that sends this packet gets its reply. -/
def Packet.reply : Packet → Option ClientConn.Instr
  | .connect _ => some .recvConnack
  | .subscribe _ => some .recvSuback
  | .publish _ m => if m.qosLevel = .atLeastOnce then some .recvPuback else none
  | _ => none

theorem Packet.isSome_reply {p : Packet} : p.reply.isSome = p.awaits := by
  cases p with
  | publish retain m =>
    simp only [Packet.reply, Packet.awaits]
    split <;> simp [*]
  | _ => rfl

/-- The packet without the reference to a PUBLISH, which is not written. -/
def Packet.content (p : Packet) : Packet := p.at 0

@[simp] theorem Packet.content_at {p : Packet} {obj : Nat} : (p.at obj).content = p.content := by
  cases p <;> rfl

@[simp] theorem Packet.awaits_at {p : Packet} {obj : Nat} : (p.at obj).awaits = p.awaits := by
  cases p <;> rfl

namespace ClientConn

variable {this this' : ClientConn} {a : Action} {j : Job}

def Instr.packet : Instr → Option Packet
  | .send j => some j.m
  | _ => none

def Instr.awaits : Instr → Bool
  | .recvConnack | .recvSuback | .recvPuback => true
  | _ => false

/-- `inboundLoop` has not left its loop. -/
def Inbound.reads : Inbound → Bool
  | .read | .deliver _ => true
  | _ => false

/-- `outboundLoop` has not left its loop, and is not about to after an error. -/
def Outbound.writes : Outbound → Bool
  | .recv | .encode _ | .encoded _ true => true
  | _ => false

/-- The message that `inboundLoop` has read and not handed over yet. -/
def Inbound.inHand : Inbound → Option Message
  | .deliver m => some m
  | _ => none

/-- The message that `outboundLoop` has taken and not written yet. -/
def Outbound.inHand : Outbound → Option Packet
  | .encode j => some j.m
  | _ => none

theorem packet_of_awaits {i : Instr} (h : i.awaits = true) : i.packet = none := by
  cases i <;> first | rfl | cases h

/-! ## What a step does -/

/-- The request that a call begins with, if it waits for a reply to it. -/
def calls (this : ClientConn) : Action → Option Packet
  | .call c => ((this.call c).user.head?.bind Instr.packet).filter Packet.awaits
  | _ => none

/-- The reply that is handed to a call. -/
def answers (this : ClientConn) : Action → Option Message
  | .inbound .go => this.inbound.inHand.filter Message.isAwaited
  | _ => none

def reads (this : ClientConn) : Action → Option Message
  | .inbound (.recv m) => if this.inbound = .read then some m else none
  | _ => none

def writes (this : ClientConn) : Action → Option Packet
  | .outbound (.encode true) => this.outbound.inHand
  | _ => none

/-- The requests that were not written yet and whose reply is waited for, in order. -/
def unsent (this : ClientConn) : List Packet :=
  (this.outbound.inHand.toList ++ this.out.map Job.m ++
    this.user.filterMap Instr.packet).filter Packet.awaits

/-- Nothing was lost: the goroutines go on, and every message was written. -/
def Works (this : ClientConn) : Prop := this.panicked = none ∧ this.outbound.writes = true

theorem sendOut_cases (h : this.sendOut j = some this') :
    this' = { this with panicked := some .sendOnClosed } ∨
    this' = { this with out := this.out ++ [j] } ∧ this.out.length < this.queueLength ∨
    this' = { this with outbound := .encode j } ∧ this.queueLength = 0 ∧ this.outbound = .recv := by
  unfold sendOut at h
  split at h
  · cases h
    exact .inl rfl
  · split at h
    · next hlen =>
      cases h
      exact .inr (.inl ⟨rfl, hlen⟩)
    · split at h
      · next hq ho =>
        cases h
        exact .inr (.inr ⟨rfl, hq, ho⟩)
      · cases h

/-- What is sent gets behind what is waiting, also if `outboundLoop` takes it at once. -/
theorem sendOut_unsent (h : this.sendOut j = some this')
    (hlen : this.out.length ≤ this.queueLength) (hworks : this'.Works) :
    this.outbound.writes = true ∧
      this'.outbound.inHand.toList ++ this'.out.map Job.m =
        this.outbound.inHand.toList ++ this.out.map Job.m ++ [j.m] := by
  obtain rfl | ⟨rfl, -⟩ | ⟨rfl, hq, ho⟩ := sendOut_cases h
  · cases hworks.1
  · exact ⟨hworks.2, by simp⟩
  · have hout : this.out = [] := List.eq_nil_of_length_eq_zero (by omega)
    exact ⟨by rw [ho]; rfl, by simp [ho, hout, Outbound.inHand]⟩

/-- A call that begins touches neither the channels nor the loops. -/
theorem call_frame {c : Call} :
    (this.call c).outbound = this.outbound ∧ (this.call c).out = this.out ∧
      (this.call c).inbound = this.inbound ∧ (this.call c).queueLength = this.queueLength ∧
      (this.call c).subackClosed = this.subackClosed ∧
      (this.call c).pubackClosed = this.pubackClosed := by
  cases c with
  | connect user pass fresh =>
    unfold call sync
    dsimp only
    split <;> split <;> exact ⟨rfl, rfl, rfl, rfl, rfl, rfl⟩
  | _ => exact ⟨rfl, rfl, rfl, rfl, rfl, rfl⟩

/-- A call begins with its request, and receives the reply later. -/
theorem call_user {c : Call} : ∃ j k, (this.call c).user = .send j :: k ∧
    k.filterMap Instr.packet = [] ∧ k.filter Instr.awaits = j.m.reply.toList := by
  cases c with
  | connect user pass fresh => exact ⟨_, _, rfl, rfl, rfl⟩
  | publish retain m =>
    refine ⟨_, _, rfl, ?_, ?_⟩
    · cases m.qosLevel <;> rfl
    · simp only [Packet.reply]
      cases m.qosLevel <;> rfl
  | _ => exact ⟨_, _, rfl, rfl, rfl⟩

/-- What a step of the goroutine of the user does. -/
inductive UserStep (this : ClientConn) : ClientConn → Prop where
  | sends {j : Job} {k : List Instr} {this' : ClientConn} (hu : this.user = .send j :: k)
    (h : { this with user := k }.sendOut j = some this') : UserStep this this'
  /-- It does not have to wait, or finds a channel closed. -/
  | passes {i : Instr} {k : List Instr} (hu : this.user = i :: k) (hi : i.packet = none)
    (hclosed : i.awaits = true → this.subackClosed = true ∨ this.pubackClosed = true) :
    UserStep this { this with user := k }
  | panics {p : Panic} : UserStep this { this with panicked := some p }

theorem runUser_cases (h : this.runUser = some this') : UserStep this this' := by
  unfold runUser at h
  split at h
  · cases h
  · next j k hu => exact .sends hu h
  · next r k hu =>
    split at h <;> cases h
    exact .passes hu rfl (fun h => by cases h)
  · split at h <;> cases h
    exact .panics
  · next k hu =>
    split at h <;> cases h
    next hclosed => exact .passes hu rfl fun _ => .inl hclosed
  · next k hu =>
    split at h <;> cases h
    next hclosed => exact .passes hu rfl fun _ => .inr hclosed
  · next k hu =>
    split at h <;> cases h
    exact .passes hu rfl (fun h => by cases h)
  · cases h
    exact .panics

/-- What a step of `inboundLoop` does. -/
inductive InboundStep (this : ClientConn) : Choice → ClientConn → Prop where
  | reads {m : Message} (hloc : this.inbound = .read) :
    InboundStep this (.recv m) { this with inbound := handle m }
  | ignores (hloc : this.inbound = .read) : InboundStep this .recvOther this
  | delivers {m : Publish} {ch : Choice} {incoming : List Publish}
    (hloc : this.inbound = .deliver (.publish m)) :
    InboundStep this ch { this with incoming, inbound := .read }
  | answers {m : Message} {i : Instr} {k : List Instr} (hloc : this.inbound = .deliver m)
    (hm : m.isAwaited = true) (hi : i.awaits = true) (hu : this.user = i :: k) :
    InboundStep this .go { this with user := k, inbound := .read }
  /-- The loop is left, or is over. -/
  | leaves {ch : Choice} {this' : ClientConn} (hloc : this.inbound.inHand = none)
    (hch : ∀ m, ch ≠ .recv m) (hleft : this'.inbound.reads = false) (hu : this'.user = this.user)
    (hout : this'.out = this.out) (hlen : this'.queueLength = this.queueLength)
    (houtbound : this'.outbound = this.outbound) : InboundStep this ch this'

theorem handOver_cases {m : Message} {i : Instr} (hloc : this.inbound = .deliver m)
    (hm : m.isAwaited = true) (hi : i.awaits = true) (h : this.handOver i = some this') :
    InboundStep this .go this' := by
  unfold handOver at h
  split at h
  · next j k hu =>
    split at h <;> cases h
    next hij => exact .answers hloc hm hi (hij ▸ hu)
  · cases h

theorem runInbound_cases {ch : Choice} (h : this.runInbound this.inbound ch = some this') :
    InboundStep this ch this' := by
  generalize hloc : this.inbound = loc at h
  unfold runInbound at h
  split at h
  · split at h <;> cases h
    exact .reads hloc
  · split at h <;> cases h
    exact .ignores hloc
  · cases h
    exact .leaves (by rw [hloc]; rfl) (fun _ h => by cases h) rfl rfl rfl rfl rfl
  · repeat' split at h
    all_goals cases h
    · exact .delivers hloc
    · exact .delivers hloc
  · exact handOver_cases hloc rfl rfl h
  · exact handOver_cases hloc rfl rfl h
  · exact handOver_cases hloc rfl rfl h
  all_goals cases h
  all_goals exact .leaves (by rw [hloc]; rfl) (fun _ h => by cases h) rfl rfl rfl rfl rfl

/-- The goroutine of the user and `inboundLoop` do not notice the step. -/
structure OutOfSight (this this' : ClientConn) : Prop where
  user : this'.user = this.user
  inbound : this'.inbound = this.inbound
  suback : this'.subackClosed = this.subackClosed
  puback : this'.pubackClosed = this.pubackClosed

theorem sendOut_outOfSight (h : this.sendOut j = some this') : OutOfSight this this' := by
  obtain rfl | ⟨rfl, -⟩ | ⟨rfl, -⟩ := sendOut_cases h <;> exact ⟨rfl, rfl, rfl, rfl⟩

/-- What a step of `outboundLoop` does. -/
inductive OutboundStep (this : ClientConn) : Choice → ClientConn → Prop where
  | takes {j : Job} {js : List Job} (hloc : this.outbound = .recv) (hout : this.out = j :: js) :
    OutboundStep this .go { this with out := js, outbound := .encode j }
  | encodes {j : Job} {ok : Bool} (hloc : this.outbound = .encode j) :
    OutboundStep this (.encode ok) { this with outbound := .encoded j ok }
  | goesOn {j : Job} {receipts : Nat → Bool} (hloc : this.outbound = .encoded j true) :
    OutboundStep this .go { this with receipts, outbound := .recv }
  /-- The loop is left, or is over. -/
  | leaves {this' : ClientConn} (hleft : this'.outbound.writes = false)
    (hun : OutOfSight this this') (hout : this'.out = this.out)
    (hlen : this'.queueLength = this.queueLength) : OutboundStep this .go this'

theorem closeReceipt_eq (r : Option Nat) :
    ∃ receipts, this.closeReceipt r = { this with receipts } := by
  cases r with
  | none => exact ⟨_, rfl⟩
  | some r => exact ⟨_, rfl⟩

theorem runOutbound_cases {ch : Choice} (h : this.runOutbound this.outbound ch = some this') :
    OutboundStep this ch this' := by
  generalize hloc : this.outbound = loc at h
  unfold runOutbound at h
  split at h
  · split at h
    · next j js hout =>
      cases h
      exact .takes hloc hout
    · split at h <;> cases h
      exact .leaves rfl ⟨rfl, rfl, rfl, rfl⟩ rfl rfl
  · cases h
    exact .encodes hloc
  · next j ok =>
    obtain ⟨receipts, hr⟩ := this.closeReceipt_eq j.r
    rw [hr] at h
    cases h
    by_cases hend : (!ok || j.m = .disconnect) = true
    · rw [if_pos hend]
      exact .leaves rfl ⟨rfl, rfl, rfl, rfl⟩ rfl rfl
    · rw [if_neg hend]
      obtain rfl : ok = true := by
        cases ok
        · exact absurd rfl hend
        · rfl
      exact .goesOn hloc
  all_goals cases h
  all_goals exact .leaves rfl ⟨rfl, rfl, rfl, rfl⟩ rfl rfl

/-- What a step does. -/
inductive Steps (this : ClientConn) : Action → ClientConn → Prop where
  | call {c : Call} (hu : this.user = []) : Steps this (.call c) (this.call c)
  | user {this' : ClientConn} (h : UserStep this this') : Steps this .user this'
  | inbound {ch : Choice} {this' : ClientConn} (h : InboundStep this ch this') :
    Steps this (.inbound ch) this'
  | outbound {ch : Choice} {this' : ClientConn} (h : OutboundStep this ch this') :
    Steps this (.outbound ch) this'
  | waits {n : Nat} {ch : Choice} {keepAlives : List KeepAlive} :
    Steps this (.keepAlive n ch) { this with keepAlives }
  | pings {n : Nat} {ch : Choice} {keepAlives : List KeepAlive} {this' : ClientConn}
    (h : { this with keepAlives }.sendOut ⟨.pingReq, none⟩ = some this') :
    Steps this (.keepAlive n ch) this'
  | consumes {incoming : List Publish} : Steps this .consume { this with incoming }

theorem runKeepAlive_cases {n : Nat} {k : KeepAlive} {ch : Choice}
    (h : this.runKeepAlive n k ch = some this') : Steps this (.keepAlive n ch) this' := by
  unfold runKeepAlive at h
  split at h
  · cases h
    exact .waits
  · cases h
    exact .waits
  · split at h <;> cases h
    exact .waits
  · exact .pings h
  · cases h

theorem step_cases (hstep : this.step a = some this') :
    this.panicked = none ∧ Steps this a this' := by
  unfold step at hstep
  split at hstep
  · cases hstep
  next hp =>
  refine ⟨Option.not_isSome_iff_eq_none.1 hp, ?_⟩
  cases a with
  | call c =>
    obtain ⟨hu, hstep⟩ := Option.ite_none_right_eq_some.1 hstep
    cases hstep
    exact .call hu
  | user => exact .user (runUser_cases hstep)
  | inbound ch => exact .inbound (runInbound_cases hstep)
  | outbound ch => exact .outbound (runOutbound_cases hstep)
  | keepAlive n ch =>
    simp only at hstep
    split at hstep
    · exact runKeepAlive_cases hstep
    · cases hstep
  | consume =>
    simp only at hstep
    split at hstep <;> cases hstep
    exact .consumes

/-! ## Requests -/

theorem sendOut_room (h : this.sendOut j = some this')
    (hlen : this.out.length ≤ this.queueLength) : this'.out.length ≤ this'.queueLength := by
  obtain rfl | ⟨rfl, hlt⟩ | ⟨rfl, -⟩ := sendOut_cases h
  · exact hlen
  · rw [List.length_append]
    exact hlt
  · exact hlen

/-- The channel holds what it has room for. -/
theorem step_room (hstep : this.step a = some this')
    (hlen : this.out.length ≤ this.queueLength) : this'.out.length ≤ this'.queueLength := by
  obtain ⟨-, h⟩ := step_cases hstep
  cases h with
  | @call c =>
    obtain ⟨-, hout, -, hq, -⟩ := this.call_frame (c := c)
    rwa [hout, hq]
  | user h =>
    cases h with
    | sends hu h => exact sendOut_room h hlen
    | passes hu hi hclosed => exact hlen
    | panics => exact hlen
  | inbound h =>
    cases h with
    | leaves _ _ _ _ hout hq => rwa [hout, hq]
    | _ => exact hlen
  | outbound h =>
    cases h with
    | takes hloc hout =>
      rw [hout, List.length_cons] at hlen
      exact Nat.le_of_succ_le hlen
    | leaves _ _ hout hq => rwa [hout, hq]
    | _ => exact hlen
  | waits => exact hlen
  | pings h => exact sendOut_room h hlen
  | consumes => exact hlen

/-- The requests are written in the order of the calls. -/
theorem step_unsent (hstep : this.step a = some this')
    (hlen : this.out.length ≤ this.queueLength) (hworks : this'.Works) :
    this.Works ∧ this.unsent ++ (this.calls a).toList =
      (this.writes a).toList.filter Packet.awaits ++ this'.unsent := by
  obtain ⟨hp, h⟩ := step_cases hstep
  cases h with
  | @call c hu =>
    obtain ⟨j, k, hnew, hk, -⟩ := this.call_user (c := c)
    obtain ⟨hout, houtq, -⟩ := this.call_frame (c := c)
    refine ⟨⟨hp, hout ▸ hworks.2⟩, ?_⟩
    cases hj : j.m.awaits <;>
      simp [unsent, calls, writes, hu, hnew, hk, hout, houtq, Instr.packet, hj]
  | user h =>
    cases h with
    | @sends j k this' hu h =>
      obtain ⟨hwrites, hqueue⟩ := sendOut_unsent h hlen hworks
      refine ⟨⟨hp, hwrites⟩, ?_⟩
      simp [unsent, calls, writes, hqueue, hu, (sendOut_outOfSight h).user, Instr.packet]
    | passes hu hi hclosed =>
      exact ⟨⟨hp, hworks.2⟩, by simp [unsent, calls, writes, hu, hi]⟩
    | panics => cases hworks.1
  | inbound h =>
    cases h with
    | answers hloc hm hi hu =>
      exact ⟨⟨hp, hworks.2⟩, by simp [unsent, calls, writes, hu, packet_of_awaits hi]⟩
    | leaves _ _ _ hu hout _ houtbound =>
      exact ⟨⟨hp, houtbound ▸ hworks.2⟩, by simp [unsent, calls, writes, hu, hout, houtbound]⟩
    | _ => exact ⟨⟨hp, hworks.2⟩, by simp [unsent, calls, writes]⟩
  | outbound h =>
    cases h with
    | takes hloc hout =>
      exact ⟨⟨hp, hloc ▸ rfl⟩, by simp [unsent, calls, writes, hloc, hout, Outbound.inHand]⟩
    | @encodes j ok hloc =>
      cases ok with
      | false => cases hworks.2
      | true =>
        refine ⟨⟨hp, hloc ▸ rfl⟩, ?_⟩
        cases hj : j.m.awaits <;> simp [unsent, calls, writes, hloc, Outbound.inHand, hj]
    | goesOn hloc =>
      exact ⟨⟨hp, hloc ▸ rfl⟩, by simp [unsent, calls, writes, hloc, Outbound.inHand]⟩
    | leaves hleft => simp [Works, hleft] at hworks
  | waits => exact ⟨⟨hp, hworks.2⟩, by simp [unsent, calls, writes]⟩
  | pings h =>
    obtain ⟨hwrites, hqueue⟩ := sendOut_unsent h hlen hworks
    refine ⟨⟨hp, hwrites⟩, ?_⟩
    simp [unsent, calls, writes, hqueue, (sendOut_outOfSight h).user, Packet.awaits]
  | consumes => exact ⟨⟨hp, hworks.2⟩, by simp [unsent, calls, writes]⟩

theorem works_of_writes {p : Packet} (hstep : this.step a = some this')
    (hw : this.writes a = some p) : this'.Works := by
  obtain ⟨hp, h⟩ := step_cases hstep
  cases h with
  | outbound h =>
    cases h with
    | @encodes j ok hloc =>
      cases ok with
      | false => cases hw
      | true => exact ⟨hp, rfl⟩
    | _ => cases hw
  | _ => cases hw

/-! ## Replies -/

theorem OutboundStep.outOfSight {ch : Choice} (h : OutboundStep this ch this') :
    OutOfSight this this' := by
  cases h with
  | leaves _ hun => exact hun
  | _ => exact ⟨rfl, rfl, rfl, rfl⟩

/-- Only `inboundLoop` moves on, and closes the channels of the replies. -/
theorem Steps.inbound_eq (h : Steps this a this') (ha : ∀ ch, a ≠ .inbound ch) :
    this'.inbound = this.inbound ∧ this'.subackClosed = this.subackClosed ∧
      this'.pubackClosed = this.pubackClosed := by
  have hun : OutOfSight { this with user := this'.user } this' := by
    cases h with
    | @call c =>
      obtain ⟨-, -, hin, -, hsub, hpub⟩ := this.call_frame (c := c)
      exact ⟨rfl, hin, hsub, hpub⟩
    | user h =>
      cases h with
      | sends hu h =>
        have hun := sendOut_outOfSight h
        exact ⟨rfl, hun.inbound, hun.suback, hun.puback⟩
      | _ => exact ⟨rfl, rfl, rfl, rfl⟩
    | @inbound ch => exact absurd rfl (ha ch)
    | outbound h => exact { h.outOfSight with user := rfl }
    | pings h => exact { sendOut_outOfSight h with user := rfl }
    | _ => exact ⟨rfl, rfl, rfl, rfl⟩
  exact ⟨hun.inbound, hun.suback, hun.puback⟩

theorem reads_of_ne {ch : Choice} (h : this.inbound ≠ .read) : this.reads (.inbound ch) = none := by
  cases ch with
  | recv m => exact if_neg h
  | _ => rfl

/-- What is read is handed over, in order. -/
theorem step_inHand (hstep : this.step a = some this') :
    (this.inbound.inHand.toList ++ (this.reads a).toList).filter Message.isAwaited =
      (this.answers a).toList ++ this'.inbound.inHand.toList.filter Message.isAwaited := by
  obtain ⟨-, h⟩ := step_cases hstep
  cases a with
  | inbound ch =>
    cases h with
    | inbound h =>
      cases h with
      | @reads m hloc =>
        cases m <;> simp [hloc, ClientConn.reads, ClientConn.answers, handle, Inbound.inHand,
          Message.isAwaited]
      | ignores hloc => simp [hloc, ClientConn.reads, ClientConn.answers, Inbound.inHand]
      | delivers hloc =>
        rw [reads_of_ne (by simp [hloc])]
        cases ch <;> simp [hloc, ClientConn.answers, Inbound.inHand, Message.isAwaited]
      | answers hloc hm hi hu =>
        simp [hloc, ClientConn.reads, ClientConn.answers, Inbound.inHand, hm, Option.filter]
      | leaves hloc hch hleft =>
        have hhand : this'.inbound.inHand = none := by
          cases h : this'.inbound <;> first | rfl | simp [h, Inbound.reads] at hleft
        cases ch with
        | recv m => exact absurd rfl (hch m)
        | _ => simp [hloc, hhand, ClientConn.reads, ClientConn.answers]
  | _ =>
    obtain ⟨hin, -⟩ := h.inbound_eq (fun _ ha => by cases ha)
    simp [hin, reads, answers]

/-- The goroutine of the user is in at most one call, and the library has handed it the
replies to all calls but this one. -/
structure Waits (calls : List Packet) (answers : List Message) (this : ClientConn) : Prop where
  opened : this.inbound.reads = true → this.subackClosed = false ∧ this.pubackClosed = false
  count : this.inbound.reads = true →
    calls.length = answers.length + this.user.countP Instr.awaits
  call : ∀ i ∈ this.user, i.awaits = true → ∃ p ∈ calls.getLast?, p.reply = some i
  single : this.user.countP Instr.awaits ≤ 1

section

variable {ps : List Packet} {ms : List Message}

/-- `inboundLoop` goes on reading only if it did before. -/
def StillReads (this this' : ClientConn) : Prop :=
  this'.inbound.reads = true → this.inbound.reads = true ∧
    this'.subackClosed = this.subackClosed ∧ this'.pubackClosed = this.pubackClosed

theorem StillReads.of_eq (h : this'.inbound = this.inbound ∧
    this'.subackClosed = this.subackClosed ∧ this'.pubackClosed = this.pubackClosed) :
    StillReads this this' :=
  fun hr => ⟨h.1 ▸ hr, h.2⟩

theorem StillReads.opened (hreads : StillReads this this') (h : Waits ps ms this)
    (hr : this'.inbound.reads = true) :
    this'.subackClosed = false ∧ this'.pubackClosed = false := by
  obtain ⟨hr, hsub, hpub⟩ := hreads hr
  rw [hsub, hpub]
  exact h.opened hr

theorem Waits.congr (h : Waits ps ms this) (hu : this'.user = this.user)
    (hreads : StillReads this this') : Waits ps ms this' where
  opened := hreads.opened h
  count hr := hu ▸ h.count (hreads hr).1
  call := hu ▸ h.call
  single := hu ▸ h.single

theorem Waits.outOfSight (h : Waits ps ms this) (hun : OutOfSight this this') : Waits ps ms this' :=
  h.congr hun.user (.of_eq ⟨hun.inbound, hun.suback, hun.puback⟩)

/-- A call goes on to its next instruction. -/
theorem Waits.next {i : Instr} {k : List Instr} (h : Waits ps ms this) (hu : this.user = i :: k)
    (hu' : this'.user = k) (hreads : StillReads this this')
    (hi : this.inbound.reads = true → i.awaits = false) : Waits ps ms this' where
  opened := hreads.opened h
  count hr := by
    have hcount := h.count (hreads hr).1
    rwa [hu, List.countP_cons_of_neg (by simp [hi (hreads hr).1]), ← hu'] at hcount
  call i hmem := h.call i (hu ▸ List.mem_cons_of_mem _ (hu' ▸ hmem))
  single := by
    rw [hu']
    exact Nat.le_trans (by simp [hu, List.countP_cons]) h.single

/-- A call begins. -/
theorem Waits.begin {c : Call} (h : Waits ps ms this) (hu : this.user = []) :
    Waits (ps ++ (this.calls (.call c)).toList) ms (this.call c) := by
  obtain ⟨j, k, hnew, -, hk⟩ := this.call_user (c := c)
  obtain ⟨-, -, hin, -, hsub, hpub⟩ := this.call_frame (c := c)
  have hlen : (this.call c).user.countP Instr.awaits = (this.calls (.call c)).toList.length := by
    rw [hnew, List.countP_cons_of_neg (by simp [Instr.awaits]), List.countP_eq_length_filter, hk,
      calls, hnew]
    have hreply : j.m.awaits = j.m.reply.isSome := Packet.isSome_reply.symm
    cases hr : j.m.reply <;> rw [hr] at hreply <;> simp [Instr.packet, hreply, Option.filter]
  refine ⟨?_, fun hr => ?_, ?_, ?_⟩
  · rw [hin, hsub, hpub]
    exact h.opened
  · have hcount := h.count (hin ▸ hr)
    rw [hu] at hcount
    rw [List.length_append, hlen, hcount]
    rfl
  · intro i hi haw
    have hmem : i ∈ k.filter Instr.awaits := by
      rw [hnew] at hi
      obtain rfl | hi := List.mem_cons.1 hi
      · cases haw
      · exact List.mem_filter.2 ⟨hi, haw⟩
    rw [hk, Option.mem_toList] at hmem
    have hsome : j.m.awaits = true := by
      rw [← Packet.isSome_reply, hmem]
      rfl
    exact ⟨j.m, by simp [calls, hnew, Instr.packet, hsome, Option.filter], hmem⟩
  · rw [hlen]
    cases this.calls (.call c) <;> simp

/-- `inboundLoop` hands the call its reply. -/
theorem Waits.inbound {ch : Choice} (h : Waits ps ms this) (hs : InboundStep this ch this') :
    Waits ps (ms ++ (this.answers (.inbound ch)).toList) this' := by
  cases hs with
  | reads hloc =>
    simp only [ClientConn.answers, Option.toList_none, List.append_nil]
    exact h.congr rfl fun _ => ⟨by rw [hloc]; rfl, rfl, rfl⟩
  | ignores hloc => simpa [ClientConn.answers] using h
  | delivers hloc =>
    have hnone : this.answers (.inbound ch) = none := by
      cases ch <;> simp [ClientConn.answers, hloc, Inbound.inHand, Message.isAwaited, Option.filter]
    simp only [hnone, Option.toList_none, List.append_nil]
    exact h.congr rfl fun _ => ⟨by rw [hloc]; rfl, rfl, rfl⟩
  | @answers m i k hloc hm hi hu =>
    have hreads : this.inbound.reads = true := by
      rw [hloc]
      rfl
    have hsome : this.answers (.inbound .go) = some m := by
      simp [ClientConn.answers, hloc, Inbound.inHand, hm, Option.filter]
    rw [hsome]
    refine ⟨fun _ => h.opened hreads, fun _ => ?_, fun i hmem => ?_, ?_⟩
    · have hcount := h.count hreads
      rw [hu, List.countP_cons_of_pos hi] at hcount
      simp only [List.length_append, Option.toList_some, List.length_singleton]
      omega
    · exact h.call i (hu ▸ List.mem_cons_of_mem _ hmem)
    · exact Nat.le_trans (by simp [hu, List.countP_cons]) h.single
  | leaves hloc hch hleft hu =>
    have hnone : this.answers (.inbound ch) = none := by
      cases ch <;> simp [ClientConn.answers, hloc]
    simp only [hnone, Option.toList_none, List.append_nil]
    exact h.congr hu fun hr => by simp [hleft] at hr

theorem Waits.step (h : Waits ps ms this) (hstep : this.step a = some this') :
    Waits (ps ++ (this.calls a).toList) (ms ++ (this.answers a).toList) this' := by
  obtain ⟨-, hs⟩ := step_cases hstep
  cases a with
  | call c =>
    cases hs with
    | call hu => simpa [answers] using h.begin hu
  | inbound ch =>
    simp only [calls, Option.toList_none, List.append_nil]
    cases hs with
    | inbound hs => exact h.inbound hs
  | user =>
    have hreads : StillReads this this' := .of_eq (hs.inbound_eq fun _ ha => by cases ha)
    simp only [calls, answers, Option.toList_none, List.append_nil]
    cases hs with
    | user hs =>
      cases hs with
      | sends hu hsend => exact h.next hu (sendOut_outOfSight hsend).user hreads fun _ => rfl
      | @passes i k hu hi hclosed =>
        refine h.next hu rfl hreads fun hr => ?_
        obtain ⟨hsub, hpub⟩ := h.opened hr
        exact Bool.eq_false_iff.2 fun haw => by simp [hsub, hpub] at hclosed; simp [hclosed] at haw
      | panics => exact h.congr rfl hreads
  | outbound ch =>
    simp only [calls, answers, Option.toList_none, List.append_nil]
    cases hs with
    | outbound hs => exact h.outOfSight hs.outOfSight
  | keepAlive n ch =>
    simp only [calls, answers, Option.toList_none, List.append_nil]
    cases hs with
    | waits => exact h.outOfSight ⟨rfl, rfl, rfl, rfl⟩
    | pings hs =>
      have hun := sendOut_outOfSight hs
      exact h.outOfSight ⟨hun.user, hun.inbound, hun.suback, hun.puback⟩
  | consume =>
    simp only [calls, answers, Option.toList_none, List.append_nil]
    cases hs with
    | consumes => exact h.outOfSight ⟨rfl, rfl, rfl, rfl⟩

end

end ClientConn
