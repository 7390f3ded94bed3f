-- SUMMARY: The client library (`api.go`): a `ClientConn` with its two loops, its keep-alives and the goroutine that uses it, as one state machine; when its calls are safe.
import Mhub.Base.Transition
import Mhub.Proto

/-!
# The client library

The calls of a `ClientConn` send on its channel `out`, and so do its keep-alives. It is
`inboundLoop` that closes this channel, and those on which it hands over the answers,
as soon as it cannot read from the server any more. Nobody looks for that before a
send. And `Connect` reads the answer it was given, also when that is the nil of a closed
channel.

`Calm` excludes the two: the channel is closed between the calls, or late enough in
them, and nothing is sent later.
-/

namespace ClientConn

/-- A message for the server, and the receipt of who waits until it was sent. -/
structure Job where
  m : Packet
  r : Option Nat
  deriving DecidableEq, Repr

/-- Where `inboundLoop` is. -/
inductive Inbound where
  | read
  /-- At the send of a message on its channel. -/
  | deliver (m : Message)
  -- the deferred function
  | closeOut
  | closeIncoming
  | closeConnack
  | closeSuback
  | closePuback
  | returned
  deriving DecidableEq, Repr

/-- Where `outboundLoop` is. -/
inductive Outbound where
  /-- At the next turn of `range this.out`. -/
  | recv
  | encode (j : Job)
  | encoded (j : Job) (ok : Bool)
  -- the deferred function
  | closeConn
  | closeDone
  | returned
  deriving DecidableEq, Repr

/-- Where a `runKeepAlive` is. -/
inductive KeepAlive where
  | sleep
  | select
  /-- At the send of a PINGREQ. -/
  | ping
  | returned
  deriving DecidableEq, Repr

/-- What a call has left to do. -/
inductive Instr where
  | send (j : Job)
  | wait (r : Nat)
  /-- Receive from `connack`, and read the return code. -/
  | recvConnack
  | recvSuback
  | recvPuback
  | recvDone
  | unsupportedQos
  deriving DecidableEq, Repr

inductive Panic where
  | sendOnClosed
  | nilDeref
  | unsupportedQos
  deriving DecidableEq, Repr

end ClientConn

/-- A `ClientConn` together with the goroutines that use it. -/
structure ClientConn where
  clientId : GoString
  keepAlive : UInt16
  queueLength : Nat
  connClosed : Bool := false
  out : List ClientConn.Job := []
  outClosed : Bool := false
  incoming : List Publish := []
  incomingClosed : Bool := false
  connackClosed : Bool := false
  subackClosed : Bool := false
  pubackClosed : Bool := false
  doneClosed : Bool := false
  inbound : ClientConn.Inbound := .read
  outbound : ClientConn.Outbound := .recv
  keepAlives : List ClientConn.KeepAlive := []
  /-- What the goroutine of the user has left to do. -/
  user : List ClientConn.Instr := []
  receipts : Nat → Bool := fun _ => false
  nextReceipt : Nat := 0
  panicked : Option ClientConn.Panic := none

namespace ClientConn

/-! ## Calls -/

inductive Call where
  /-- `fresh` is the client id that is made up if there is none. -/
  | connect (user pass fresh : GoString)
  | disconnect
  | subscribe (topics : List (GoString × QosLevel))
  | unsubscribe (m : Unsubscribe)
  | publish (retain : Bool) (m : Publish)
  deriving DecidableEq, Repr

variable (this : ClientConn)

/-- Send a message and wait until it was actually sent; then go on with `k`. -/
def sync (m : Packet) (k : List Instr) : ClientConn :=
  let r := this.nextReceipt
  { this with nextReceipt := r + 1, user := .send ⟨m, some r⟩ :: .wait r :: k }

/-- The CONNECT that `Connect` sends. -/
def request (user pass : GoString) : Connect :=
  { protocolName
    protocolVersion
    clientId := this.clientId
    cleanSession := true
    keepAliveTimer := this.keepAlive
    usernameFlag := user ≠ []
    passwordFlag := user ≠ []
    username := user
    password := if user ≠ [] then pass else [] }

/-- What `Publish` does after its send. -/
def afterPublish : QosLevel → List Instr
  | .atMostOnce => []
  | .atLeastOnce => [.recvPuback]
  | .exactlyOnce => [.unsupportedQos]

/-- Begin a call. -/
def call : Call → ClientConn
  | .connect user pass fresh =>
    let this := if this.clientId = [] then { this with clientId := fresh } else this
    let req := this.request user pass
    let this :=
      if this.keepAlive > 0 then { this with keepAlives := this.keepAlives ++ [.sleep] } else this
    this.sync (.connect req) [.recvConnack]
  | .disconnect => this.sync .disconnect [.recvDone]
  | .subscribe topics => this.sync (.subscribe ⟨0, topics⟩) [.recvSuback]
  | .unsubscribe m => { this with user := [.send ⟨.unsubscribe m, none⟩] }
  | .publish retain m =>
    { this with user := .send ⟨.publish retain m, none⟩ :: afterPublish m.qosLevel }

/-- Send on `out`. `none` when the sender has to wait. -/
def sendOut (j : Job) : Option ClientConn :=
  if this.outClosed then some { this with panicked := some .sendOnClosed }
  else if this.out.length < this.queueLength then some { this with out := this.out ++ [j] }
  else
    match this.queueLength, this.outbound with
    -- an unbuffered channel hands over to a loop that waits
    | 0, .recv => some { this with outbound := .encode j }
    | _, _ => none

/-- One step of a call. What it receives from `inboundLoop` is given to it by a step of
that; here it meets a closed channel. -/
def runUser : Option ClientConn :=
  match this.user with
  | [] => none
  | .send j :: k => { this with user := k }.sendOut j
  | .wait r :: k => if this.receipts r then some { this with user := k } else none
  | .recvConnack :: _ =>
    if this.connackClosed then some { this with panicked := some .nilDeref } else none
  | .recvSuback :: k => if this.subackClosed then some { this with user := k } else none
  | .recvPuback :: k => if this.pubackClosed then some { this with user := k } else none
  | .recvDone :: k => if this.doneClosed then some { this with user := k } else none
  | .unsupportedQos :: _ => some { this with panicked := some .unsupportedQos }

/-! ## Loops -/

/-- What a step finds: what is read from the server, whether `Encode` succeeds, and
which case of a `select` is taken. -/
inductive Choice where
  | go
  | recv (m : Message)
  /-- A message of a type that the `switch` of `inboundLoop` does not name. -/
  | recvOther
  | recvErr
  /-- Somebody waits for a message on an unbuffered `Incoming`. -/
  | consumed
  | encode (ok : Bool)
  | tick
  | done
  deriving DecidableEq, Repr

/-- The `switch` of `inboundLoop`. -/
def handle : Message → Inbound
  | .publish m => .deliver (.publish m)
  | .pubAck m => .deliver (.pubAck m)
  | .connAck rc => .deliver (.connAck rc)
  | .subAck id qos => .deliver (.subAck id qos)
  | .disconnect => .closeOut
  | .pingResp => .read
  | .unsubAck _ => .read

/-- Hand the goroutine of the user what it waits for. -/
def handOver (i : Instr) : Option ClientConn :=
  match this.user with
  | j :: k => if j = i then some { this with user := k, inbound := .read } else none
  | [] => none

/-- One step of `inboundLoop`. -/
def runInbound : Inbound → Choice → Option ClientConn
  | .read, .recv m => if this.connClosed then none else some { this with inbound := handle m }
  | .read, .recvOther => if this.connClosed then none else some this
  | .read, .recvErr => some { this with inbound := .closeOut }
  | .deliver (.publish m), ch =>
    if this.incoming.length < this.queueLength then
      some { this with incoming := this.incoming ++ [m], inbound := .read }
    else if this.queueLength = 0 ∧ ch = .consumed then some { this with inbound := .read }
    else none
  | .deliver (.pubAck _), .go => this.handOver .recvPuback
  | .deliver (.connAck _), .go => this.handOver .recvConnack
  | .deliver (.subAck ..), .go => this.handOver .recvSuback
  | .closeOut, .go => some { this with outClosed := true, inbound := .closeIncoming }
  | .closeIncoming, .go => some { this with incomingClosed := true, inbound := .closeConnack }
  | .closeConnack, .go => some { this with connackClosed := true, inbound := .closeSuback }
  | .closeSuback, .go => some { this with subackClosed := true, inbound := .closePuback }
  | .closePuback, .go => some { this with pubackClosed := true, inbound := .returned }
  | _, _ => none

/-- Close the receipt of a job. -/
def closeReceipt : Option Nat → ClientConn
  | some r => { this with receipts := Function.update this.receipts r true }
  | none => this

/-- One step of `outboundLoop`. -/
def runOutbound : Outbound → Choice → Option ClientConn
  | .recv, .go =>
    match this.out with
    | j :: js => some { this with out := js, outbound := .encode j }
    | [] => if this.outClosed then some { this with outbound := .closeConn } else none
  | .encode j, .encode ok => some { this with outbound := .encoded j ok }
  | .encoded j ok, .go =>
    some { this.closeReceipt j.r with
      outbound := if !ok || j.m = .disconnect then .closeConn else .recv }
  | .closeConn, .go => some { this with connClosed := true, outbound := .closeDone }
  | .closeDone, .go => some { this with doneClosed := true, outbound := .returned }
  | _, _ => none

/-- One step of a `runKeepAlive`. -/
def runKeepAlive (n : Nat) : KeepAlive → Choice → Option ClientConn
  | .sleep, .go => some { this with keepAlives := this.keepAlives.set n .select }
  | .select, .tick => some { this with keepAlives := this.keepAlives.set n .ping }
  | .select, .done =>
    if this.doneClosed then some { this with keepAlives := this.keepAlives.set n .returned }
    else none
  | .ping, .go => { this with keepAlives := this.keepAlives.set n .sleep }.sendOut ⟨.pingReq, none⟩
  | _, _ => none

/-! ## The system -/

inductive Action where
  | call (c : Call)
  | user
  | inbound (ch : Choice)
  | outbound (ch : Choice)
  | keepAlive (n : Nat) (ch : Choice)
  /-- A message is taken out of `Incoming`. -/
  | consume
  deriving DecidableEq, Repr

def step (this : ClientConn) (a : Action) : Option ClientConn :=
  if this.panicked.isSome then none
  else
    match a with
    | .call c => if this.user = [] then some (this.call c) else none
    | .user => this.runUser
    | .inbound ch => this.runInbound this.inbound ch
    | .outbound ch => this.runOutbound this.outbound ch
    | .keepAlive n ch =>
      match this.keepAlives[n]? with
      | some k => this.runKeepAlive n k ch
      | none => none
    | .consume =>
      match this.incoming with
      | _ :: ms => some { this with incoming := ms }
      | [] => none

/-- `NewClientConn`, with the fields that the user sets. -/
def newClientConn (queueLength : Nat) (keepAlive : UInt16) (clientId : GoString) : ClientConn where
  clientId
  keepAlive
  queueLength

/-! ## When the calls are safe -/

/-- The instruction crashes if it comes to a closed channel. -/
def Instr.relies : Instr → Bool
  | .send _ | .recvConnack => true
  | _ => false

/-- `out` is closed when nobody is about to send on it or to receive a ConnAck. After
that no call is begun, and no keep-alive takes a tick. -/
def Calm (this : ClientConn) : Action → Bool
  | .inbound _ =>
    this.inbound = .closeOut →
      (∀ i ∈ this.user, i.relies = false) ∧ ∀ k ∈ this.keepAlives, k ≠ .ping
  | .call _ => !this.outClosed
  | .keepAlive _ ch => ch = .tick → this.outClosed = false
  | _ => true

/-- Once `out` is closed nobody relies on it or on `connack`, which is closed later. -/
structure Safe (this : ClientConn) : Prop where
  sends : this.panicked ≠ some .sendOnClosed
  derefs : this.panicked ≠ some .nilDeref
  connack : this.connackClosed = true → this.outClosed = true
  closing : this.inbound = .closeIncoming ∨ this.inbound = .closeConnack → this.outClosed = true
  user : this.outClosed = true → ∀ i ∈ this.user, i.relies = false
  pings : this.outClosed = true → ∀ k ∈ this.keepAlives, k ≠ .ping

variable {this : ClientConn} {this' : ClientConn} {ch : Choice} {j : Job}

theorem safe_newClientConn {queueLength : Nat} {keepAlive : UInt16} {clientId : GoString} :
    (newClientConn queueLength keepAlive clientId).Safe :=
  ⟨nofun, nofun, nofun, by simp [newClientConn], nofun, nofun⟩

/-- A send on the open channel. -/
theorem Safe.sendOut (h : this.Safe) (hopen : this.outClosed = false)
    (hstep : this.sendOut j = some this') : this'.Safe := by
  rw [ClientConn.sendOut, if_neg (by simp [hopen])] at hstep
  repeat' split at hstep
  all_goals cases hstep
  · exact ⟨h.sends, h.derefs, h.connack, h.closing, h.user, h.pings⟩
  · exact ⟨h.sends, h.derefs, h.connack, h.closing, h.user, h.pings⟩

/-- A call goes on to its next instruction. -/
theorem Safe.next {i : Instr} {k : List Instr} (h : this.Safe) (hcode : this.user = i :: k) :
    { this with user := k }.Safe :=
  ⟨h.sends, h.derefs, h.connack, h.closing,
    fun hclosed i hi => h.user hclosed i (hcode ▸ List.mem_cons_of_mem _ hi), h.pings⟩

theorem Safe.runUser (h : this.Safe) (hstep : this.runUser = some this') : this'.Safe := by
  -- what relies on `out` finds it open
  have hopen : ∀ i k, this.user = i :: k → i.relies = true → this.outClosed = false := by
    intro i k hcode hi
    by_contra hclosed
    have := h.user (by simpa using hclosed) i (hcode ▸ List.mem_cons_self ..)
    simp [hi] at this
  unfold ClientConn.runUser at hstep
  split at hstep
  · cases hstep
  · next j k hcode => exact (h.next hcode).sendOut (hopen _ k hcode rfl) hstep
  · next r k hcode =>
    split at hstep <;> cases hstep
    exact h.next hcode
  · next k hcode =>
    -- `connack` is closed after `out`
    split at hstep
    · next hclosed =>
      have hout := h.connack hclosed
      rw [hopen _ k hcode rfl] at hout
      cases hout
    · cases hstep
  · next k hcode =>
    split at hstep <;> cases hstep
    exact h.next hcode
  · next k hcode =>
    split at hstep <;> cases hstep
    exact h.next hcode
  · next k hcode =>
    split at hstep <;> cases hstep
    exact h.next hcode
  · cases hstep
    exact ⟨nofun, nofun, h.connack, h.closing, h.user, h.pings⟩

theorem Safe.call {c : Call} (h : this.Safe) (hopen : this.outClosed = false) :
    (this.call c).Safe := by
  have huser : this.outClosed = true → ∀ {l : List Instr}, ∀ i ∈ l, i.relies = false := by
    simp [hopen]
  have hpings : this.outClosed = true → ∀ {l : List KeepAlive}, ∀ k ∈ l, k ≠ .ping := by
    simp [hopen]
  cases c with
  | connect user pass fresh =>
    simp only [ClientConn.call, sync]
    split <;> split <;>
      exact ⟨h.sends, h.derefs, h.connack, h.closing, fun hc => huser hc, fun hc => hpings hc⟩
  | _ => exact ⟨h.sends, h.derefs, h.connack, h.closing, fun hc => huser hc, h.pings⟩

theorem Safe.handOver {i : Instr} (h : this.Safe) (hstep : this.handOver i = some this') :
    this'.Safe := by
  unfold ClientConn.handOver at hstep
  split at hstep
  · next j k hcode =>
    split at hstep <;> cases hstep
    have hnext := h.next hcode
    exact ⟨hnext.sends, hnext.derefs, hnext.connack, nofun, hnext.user, hnext.pings⟩
  · cases hstep

/-- `out` is closed when the calls and the keep-alives allow it. -/
theorem Safe.runInbound (h : this.Safe) (hcalm : this.Calm (.inbound ch) = true)
    (hstep : this.runInbound this.inbound ch = some this') : this'.Safe := by
  have hclosing := h.closing
  simp only [Calm, decide_eq_true_eq] at hcalm
  generalize this.inbound = loc at hstep hcalm hclosing
  cases loc with
  | read =>
    cases ch with
    | recv m =>
      simp only [ClientConn.runInbound] at hstep
      split at hstep <;> cases hstep
      exact ⟨h.sends, h.derefs, h.connack, by cases m <;> nofun, h.user, h.pings⟩
    | recvOther =>
      simp only [ClientConn.runInbound] at hstep
      split at hstep <;> cases hstep
      exact h
    | recvErr =>
      cases hstep
      exact ⟨h.sends, h.derefs, h.connack, nofun, h.user, h.pings⟩
    | _ => cases hstep
  | deliver m =>
    cases m with
    | publish m =>
      simp only [ClientConn.runInbound] at hstep
      repeat' split at hstep
      all_goals cases hstep
      all_goals exact ⟨h.sends, h.derefs, h.connack, nofun, h.user, h.pings⟩
    | pubAck m | connAck rc | subAck id qos =>
      cases ch with
      | go => exact h.handOver hstep
      | _ => cases hstep
    | _ => cases hstep
  | closeOut =>
    cases ch <;> cases hstep
    obtain ⟨huser, hpings⟩ := hcalm rfl
    exact ⟨h.sends, h.derefs, fun _ => rfl, fun _ => rfl, fun _ => huser, fun _ => hpings⟩
  | closeIncoming =>
    cases ch <;> cases hstep
    exact ⟨h.sends, h.derefs, h.connack, fun _ => hclosing (.inl rfl), h.user, h.pings⟩
  | closeConnack =>
    cases ch <;> cases hstep
    exact ⟨h.sends, h.derefs, fun _ => hclosing (.inr rfl), nofun, h.user, h.pings⟩
  | closeSuback | closePuback =>
    cases ch <;> cases hstep
    exact ⟨h.sends, h.derefs, h.connack, nofun, h.user, h.pings⟩
  | returned => cases hstep

theorem Safe.runOutbound {loc : Outbound} (h : this.Safe)
    (hstep : this.runOutbound loc ch = some this') : this'.Safe := by
  cases loc with
  | recv =>
    cases ch <;> simp only [ClientConn.runOutbound, reduceCtorEq] at hstep
    repeat' split at hstep
    all_goals cases hstep
    all_goals exact ⟨h.sends, h.derefs, h.connack, h.closing, h.user, h.pings⟩
  | encoded j ok =>
    cases ch <;> cases hstep
    cases hr : j.r <;> exact ⟨h.sends, h.derefs, h.connack, h.closing, h.user, h.pings⟩
  | encode j | closeConn | closeDone =>
    cases ch <;> cases hstep
    exact ⟨h.sends, h.derefs, h.connack, h.closing, h.user, h.pings⟩
  | returned => cases hstep

/-- A keep-alive moves on, and not to its send once `out` is closed. -/
theorem Safe.setKeepAlive {n : Nat} {k : KeepAlive} (h : this.Safe)
    (hk : this.outClosed = true → k ≠ .ping) :
    { this with keepAlives := this.keepAlives.set n k }.Safe := by
  refine ⟨h.sends, h.derefs, h.connack, h.closing, h.user, fun hclosed k' hk' => ?_⟩
  obtain hold | rfl := List.mem_or_eq_of_mem_set hk'
  · exact h.pings hclosed k' hold
  · exact hk hclosed

theorem Safe.runKeepAlive {n : Nat} {k : KeepAlive} (h : this.Safe)
    (hcalm : this.Calm (.keepAlive n ch) = true) (hk : this.keepAlives[n]? = some k)
    (hstep : this.runKeepAlive n k ch = some this') : this'.Safe := by
  cases k with
  | sleep =>
    cases ch <;> cases hstep
    exact h.setKeepAlive nofun
  | select =>
    cases ch <;> simp only [ClientConn.runKeepAlive, reduceCtorEq] at hstep
    · cases hstep
      have hopen : this.outClosed = false := by simpa [Calm] using hcalm
      exact h.setKeepAlive (by simp [hopen])
    · split at hstep <;> cases hstep
      exact h.setKeepAlive nofun
  | ping =>
    cases ch <;> simp only [ClientConn.runKeepAlive, reduceCtorEq] at hstep
    have hopen : this.outClosed = false := by
      by_contra hclosed
      exact h.pings (by simpa using hclosed) .ping (List.mem_of_getElem? hk) rfl
    have hnext : { this with keepAlives := this.keepAlives.set n .sleep }.Safe :=
      h.setKeepAlive nofun
    exact hnext.sendOut hopen hstep
  | returned => cases hstep

theorem Safe.step {a : Action} (h : this.Safe) (hcalm : this.Calm a = true)
    (hstep : this.step a = some this') : this'.Safe := by
  unfold ClientConn.step at hstep
  split at hstep
  · cases hstep
  cases a with
  | call c =>
    simp only at hstep
    split at hstep <;> cases hstep
    exact h.call (by simpa [Calm] using hcalm)
  | user => exact h.runUser hstep
  | inbound ch => exact h.runInbound hcalm hstep
  | outbound ch => exact h.runOutbound hstep
  | keepAlive n ch =>
    simp only at hstep
    split at hstep
    · next k hk => exact h.runKeepAlive hcalm hk hstep
    · cases hstep
  | consume =>
    simp only at hstep
    split at hstep <;> cases hstep
    exact ⟨h.sends, h.derefs, h.connack, h.closing, h.user, h.pings⟩

/-- If `out` is closed when no call and no keep-alive is about to send on it or to read a
ConnAck, and no call is begun and no tick taken later, nobody sends on the closed
channel, and `Connect` has a ConnAck to read. -/
theorem calls_safe {queueLength : Nat} {keepAlive : UInt16} {clientId : GoString}
    {acts : List Action}
    (hrun : Transition.run step (newClientConn queueLength keepAlive clientId) acts = some this)
    (hcalm : Transition.Guarded step (Calm · ·)
      (newClientConn queueLength keepAlive clientId) acts) :
    this.panicked ≠ some .sendOnClosed ∧ this.panicked ≠ some .nilDeref := by
  have hsafe : this.Safe :=
    Transition.run_invariant (fun _ _ _ _ h hg hstep => Safe.step h hg hstep) safe_newClientConn
      hrun hcalm
  exact ⟨hsafe.sends, hsafe.derefs⟩

/-- The goroutine of the user sends, and `outboundLoop` sends that to the server. -/
def sendsJob : List Action :=
  [.user, .outbound .go, .outbound (.encode true), .outbound .go]

/-- A client with a keep-alive connects, publishes and disconnects. Then the loops and
the keep-alive come to their ends. -/
def disconnects : List Action :=
  .call (.connect [] [] (str "a")) :: sendsJob ++
  [.user, .inbound (.recv (.connAck .accepted)), .inbound .go,
    .call (.publish false ⟨0, .atLeastOnce, str "t", 1, str "x"⟩)] ++ sendsJob ++
  [.inbound (.recv (.pubAck ⟨.atMostOnce, 1⟩)), .inbound .go, .call .disconnect] ++ sendsJob ++
  [.user, .outbound .go, .outbound .go, .user, .inbound .recvErr] ++
  List.replicate 5 (.inbound .go) ++ [.keepAlive 0 .go, .keepAlive 0 .done]

theorem calls_safe_disconnects :
    ∃ this, Transition.run step (newClientConn 1 60 []) disconnects = some this ∧
      this.outClosed = true ∧ this.user = [] ∧ this.keepAlives = [.returned] ∧
      this.panicked ≠ some .sendOnClosed ∧ this.panicked ≠ some .nilDeref := by
  have heval : (Transition.run step (newClientConn 1 60 []) disconnects).map (fun this =>
      decide (this.outClosed = true ∧ this.user = [] ∧ this.keepAlives = [.returned])) =
      some true := by decide +kernel
  obtain ⟨this, hrun, h⟩ := Option.map_eq_some_iff.1 heval
  obtain ⟨hclosed, huser, hkeep⟩ := of_decide_eq_true h
  exact ⟨this, hrun, hclosed, huser, hkeep, calls_safe hrun (by decide +kernel)⟩

/-- The server closes the connection: before a `Publish`, and while a `Connect` waits for
its answer. -/
theorem calls_crash :
    (Transition.run step (newClientConn 1 0 [])
      [.inbound .recvErr, .inbound .go,
        .call (.publish false ⟨0, .atMostOnce, str "t", 0, str "x"⟩), .user]).map (·.panicked) =
      some (some .sendOnClosed) ∧
    (Transition.run step (newClientConn 1 0 [])
      (.call (.connect [] [] (str "a")) :: sendsJob ++ [.user, .inbound .recvErr] ++
        List.replicate 3 (.inbound .go) ++ [.user])).map (·.panicked) = some (some .nilDeref) := by
  decide +kernel

end ClientConn
