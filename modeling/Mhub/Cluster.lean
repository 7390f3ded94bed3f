-- SUMMARY: Brokers that replicate to each other (`peers.go`, `endpoint.go`): every PUBLISH is posted once at its own broker and once at each of its peers, in order.
import Mathlib.Data.List.Count
import Mathlib.Data.List.Nodup
import Mathlib.Order.Fin.Basic
import Mhub.Broker.Effects

/-!
# Cluster

A PUBLISH enters a cluster through `doPublish` of some broker, which posts it and
then submits it to the endpoint of every peer. A session of the endpoint writes it
to a TCP connection, and `replay` at the other end posts it there. Two paths lead to
the posts of a broker and only one of them replicates, so nothing is forwarded a
second time, whatever the peers of each broker are.

The model has one `runSession` and one `replay` for every endpoint, connected
throughout. The TCP connection is a lossless queue, and the overflow strategy is to
block. `posts` is everything the posts channel of a broker has received; that a full
channel makes the sender wait takes nothing away from what is proved for all
interleavings. The `obj` of a message is its number in the order of arrival in the
cluster, which a decoded copy shares with the original.
-/

/-! ## What a broker replicates -/

theorem brings_replicate {i : Instr} {m : Publish} (h : i.brings (.replicate m) = true) :
    ∃ c, i = .inboundLoop c := by
  cases Instr.brings_cases h with
  | replicate => exact ⟨_, rfl⟩

/-- Only what a client has sent is replicated, never what a peer has. -/
theorem Reachable.received_of_replicated {env : Env} {s : State} {m : Publish}
    (hr : Reachable env s) (h : (∃ t, .replicate m ∈ s.code t) ∨ .replicated m ∈ s.trace) :
    ∃ c retain, .received c (.publish retain m) ∈ s.trace := by
  refine hr.invariant (I := fun s =>
    ((∃ t, .replicate m ∈ s.code t) ∨ .replicated m ∈ s.trace) →
      ∃ c retain, .received c (.publish retain m) ∈ s.trace) ?_ ?_ h
  · intro s a s' hr hI hstep h
    have hloop : ∀ t : Tid, .replicate m ≠ t.loop := by
      intro t
      cases t <;> simp [Tid.loop]
    obtain ⟨-, ⟨-, rfl⟩ | ⟨-, rfl⟩ | ⟨t, ch, i, rest, nx, -, hx⟩⟩ := step_cases hstep
    · obtain ⟨c, retain, hrec⟩ := hI (h.imp
        (Exists.imp fun t ht => (State.mem_code_accept ht).resolve_right (hloop t))
        (by simp [State.accept, State.log, State.setCode]))
      exact ⟨c, retain, List.mem_append_left _ hrec⟩
    · exact hI (h.imp_left
        (Exists.imp fun t ht => (State.mem_code_acceptPeer ht).resolve_right (hloop t)))
    · have hold : ((∃ t, .replicate m ∈ s.code t) ∨ .replicated m ∈ s.trace) →
          ∃ c retain, .received c (.publish retain m) ∈ s'.trace := by
        intro h
        obtain ⟨c, retain, hrec⟩ := hI h
        exact ⟨c, retain, hx.trace_mono hrec⟩
      obtain ⟨t', ht'⟩ | htr := h
      · obtain hmem | ⟨rfl, hnew⟩ | hgets := hx.mem_code ht'
        · exact hold (.inl ⟨t', hmem⟩)
        · -- the message was just read
          obtain ⟨c, rfl⟩ := brings_replicate (hx.follows.brings hnew)
          obtain ⟨p, -, rfl, htr⟩ | ⟨-, rfl⟩ := hx.inboundLoop
          · obtain ⟨retain, hp⟩ :=
              eq_publish_of_mem_handle (.inr ((List.mem_append.1 hnew).resolve_right (by simp)))
            exact ⟨c, retain, by simp [htr, hp]⟩
          · simp [Next.instrs] at hnew
        · cases t' <;> cases hgets
      · obtain hmem | rfl := hx.mem_trace htr
        · exact hold (.inr hmem)
        · exact hold (.inl ⟨t, by rw [hx.code]; exact List.mem_cons_self ..⟩)
  · rintro (⟨t, ht⟩ | htr)
    · cases t <;> simp [init] at ht
    · cases htr

/-! ## The cluster -/

/-- The keys of `peers.nodes` at every broker: other brokers. -/
structure Peers (B : Type) where
  nodes : B → List B
  nodup : ∀ b, (nodes b).Nodup
  irrefl : ∀ b, b ∉ nodes b

/-- What a PUBLISH passes on its way. An endpoint is the pair of its broker and the
peer it leads to. -/
structure Cluster (B : Type) where
  /-- What is left of `doPublish` in the `inboundLoop` of a connection. -/
  handler : B × ConnId → List Instr := fun _ => []
  /-- What the `replicate` of a handler has still to submit. -/
  todo : B × ConnId → List (B × Publish) := fun _ => []
  jobs : B × B → List Publish := fun _ => []
  /-- The job that `runSession` has taken and not yet written. -/
  sending : B × B → Option Publish := fun _ => none
  link : B × B → List Publish := fun _ => []
  /-- The message that `replay` has decoded and not yet posted. -/
  replaying : B × B → Option Publish := fun _ => none
  posts : B → List Publish := fun _ => []
  /-- Everything that was submitted to an endpoint. -/
  submitted : B × B → List Publish := fun _ => []
  /-- The messages the clients have published, at which broker and connection. -/
  published : List (B × ConnId × Publish) := []

namespace Cluster

inductive Action (B : Type) where
  /-- `inboundLoop` reads a PUBLISH. -/
  | publish (b : B) (c : ConnId) (m : Publish)
  /-- `doPublish` goes on; `order` is how Go ranges over the nodes. -/
  | handle (b : B) (c : ConnId) (order : List B)
  /-- `replicate` submits to the next endpoint. -/
  | submit (b : B) (c : ConnId)
  /-- `runSession` takes a job. -/
  | take (b b' : B)
  /-- `runSession` writes the job to the connection. -/
  | encode (b b' : B)
  /-- `replay` reads a message from the connection. -/
  | decode (b b' : B)
  /-- `replay` posts it. -/
  | replay (b b' : B)

variable {B : Type} [DecidableEq B]

def step (ps : Peers B) (queueLen : Nat) (s : Cluster B) : Action B → Option (Cluster B)
  | .publish b c m =>
    match s.handler (b, c), s.todo (b, c) with
    | [], [] =>
      let m := { m with obj := s.published.length }
      some { s with
        handler := Function.update s.handler (b, c) (doPublish c m)
        published := s.published ++ [(b, c, m)] }
    | _, _ => none
  | .handle b c order =>
    match s.handler (b, c), s.todo (b, c) with
    | .post m :: rest, [] =>
      some { s with
        handler := Function.update s.handler (b, c) rest
        posts := Function.update s.posts b (s.posts b ++ [m]) }
    | .replicate m :: rest, [] =>
      if order.Perm (ps.nodes b) then
        some { s with
          handler := Function.update s.handler (b, c) rest
          todo := Function.update s.todo (b, c) (order.map (·, m)) }
      else none
    -- the rest of `doPublish` touches neither the posts nor the endpoints
    | _ :: rest, [] => some { s with handler := Function.update s.handler (b, c) rest }
    | _, _ => none
  | .submit b c =>
    match s.todo (b, c) with
    | (b', m) :: rest =>
      let s' := { s with
        todo := Function.update s.todo (b, c) rest
        submitted := Function.update s.submitted (b, b') (s.submitted (b, b') ++ [m]) }
      if (s.jobs (b, b')).length < queueLen then
        some { s' with jobs := Function.update s.jobs (b, b') (s.jobs (b, b') ++ [m]) }
      -- an unbuffered channel hands over to a session that waits
      else if s.jobs (b, b') = [] ∧ s.sending (b, b') = none then
        some { s' with sending := Function.update s.sending (b, b') (some m) }
      else none
    | [] => none
  | .take b b' =>
    match s.sending (b, b'), s.jobs (b, b') with
    | none, m :: ms =>
      some { s with
        jobs := Function.update s.jobs (b, b') ms
        sending := Function.update s.sending (b, b') (some m) }
    | _, _ => none
  | .encode b b' =>
    match s.sending (b, b') with
    | some m =>
      some { s with
        sending := Function.update s.sending (b, b') none
        link := Function.update s.link (b, b') (s.link (b, b') ++ [m]) }
    | none => none
  | .decode b b' =>
    match s.replaying (b, b'), s.link (b, b') with
    | none, m :: ms =>
      some { s with
        link := Function.update s.link (b, b') ms
        replaying := Function.update s.replaying (b, b') (some m) }
    | _, _ => none
  | .replay b b' =>
    match s.replaying (b, b') with
    | some m =>
      some { s with
        replaying := Function.update s.replaying (b, b') none
        posts := Function.update s.posts b' (s.posts b' ++ [m]) }
    | none => none

/-- No PUBLISH has come yet. -/
def init : Cluster B := {}

end Cluster

/-! ## Endpoints as queues

From the submit at one broker to the post at the other, a message goes through four
places one after the other. Together they are one queue. -/

/-- A cluster in which an endpoint is a queue between two brokers. -/
@[ext] structure Net (B : Type) where
  handler : B × ConnId → List Instr
  todo : B × ConnId → List (B × Publish)
  flight : B × B → List Publish
  posts : B → List Publish
  submitted : B × B → List Publish
  published : List (B × ConnId × Publish)

/-- What the endpoint and the connection hold, the oldest message first. -/
def Cluster.flight {B : Type} (s : Cluster B) (e : B × B) : List Publish :=
  (s.replaying e).toList ++ s.link e ++ (s.sending e).toList ++ s.jobs e

def Cluster.net {B : Type} (s : Cluster B) : Net B where
  handler := s.handler
  todo := s.todo
  flight := s.flight
  posts := s.posts
  submitted := s.submitted
  published := s.published

namespace Net

variable {B : Type} [DecidableEq B]

inductive Step (ps : Peers B) (n : Net B) : Net B → Prop where
  | publish {b : B} {c : ConnId} {m : Publish} : n.handler (b, c) = [] →
    m.obj = n.published.length →
    Step ps n { n with
      handler := Function.update n.handler (b, c) (doPublish c m)
      published := n.published ++ [(b, c, m)] }
  | post {b c m rest} : n.handler (b, c) = .post m :: rest →
    Step ps n { n with
      handler := Function.update n.handler (b, c) rest
      posts := Function.update n.posts b (n.posts b ++ [m]) }
  | replicate {b c m rest} {order : List B} : n.handler (b, c) = .replicate m :: rest →
    n.todo (b, c) = [] → order.Perm (ps.nodes b) →
    Step ps n { n with
      handler := Function.update n.handler (b, c) rest
      todo := Function.update n.todo (b, c) (order.map (·, m)) }
  | skip {b c i rest} : n.handler (b, c) = i :: rest → (∀ m, i ≠ .post m) →
    (∀ m, i ≠ .replicate m) →
    Step ps n { n with handler := Function.update n.handler (b, c) rest }
  | submit {b c b' m rest} : n.todo (b, c) = (b', m) :: rest →
    Step ps n { n with
      todo := Function.update n.todo (b, c) rest
      flight := Function.update n.flight (b, b') (n.flight (b, b') ++ [m])
      submitted := Function.update n.submitted (b, b') (n.submitted (b, b') ++ [m]) }
  | replay {b b' m ms} : n.flight (b, b') = m :: ms →
    Step ps n { n with
      flight := Function.update n.flight (b, b') ms
      posts := Function.update n.posts b' (n.posts b' ++ [m]) }

end Net

namespace Cluster

variable {B : Type} [DecidableEq B] {ps : Peers B} {queueLen : Nat} {s s' : Cluster B}

/-- What a step at one endpoint makes of the queues. -/
theorem flight_eq_update {e : B × B} {l : List Publish} (he : s'.flight e = l)
    (h : ∀ e', e' ≠ e → s'.replaying e' = s.replaying e' ∧ s'.link e' = s.link e' ∧
      s'.sending e' = s.sending e' ∧ s'.jobs e' = s.jobs e') :
    s'.flight = Function.update s.flight e l := by
  funext e'
  by_cases heq : e' = e
  · subst heq
    simpa using he
  · obtain ⟨h₁, h₂, h₃, h₄⟩ := h e' heq
    simp [flight, heq, h₁, h₂, h₃, h₄]

/-- A message that moves on inside an endpoint keeps its place in the queue. -/
theorem flight_eq {e : B × B} (he : s'.flight e = s.flight e)
    (h : ∀ e', e' ≠ e → s'.replaying e' = s.replaying e' ∧ s'.link e' = s.link e' ∧
      s'.sending e' = s.sending e' ∧ s'.jobs e' = s.jobs e') : s'.flight = s.flight := by
  rw [flight_eq_update he h, Function.update_eq_self]

/-- A step of the cluster is a step of the queues, or happens inside an endpoint. -/
theorem step_net {a : Action B} (h : step ps queueLen s a = some s') :
    s'.net = s.net ∨ Net.Step ps s.net s'.net := by
  cases a with
  | publish b c m =>
    simp only [step] at h
    split at h <;> cases h
    next hhandler _ => exact .inr (.publish hhandler rfl)
  | handle b c order =>
    simp only [step] at h
    repeat' split at h
    all_goals cases h
    · next hhandler _ => exact .inr (.post hhandler)
    · next hhandler htodo hperm => exact .inr (.replicate hhandler htodo hperm)
    · next hpost hrep hhandler _ => exact .inr (.skip hhandler hpost hrep)
  | submit b c =>
    simp only [step] at h
    split at h
    next b' m rest htodo =>
      refine .inr ?_
      split at h
      · cases h
        convert Net.Step.submit (n := s.net) htodo using 1
        refine Net.ext rfl rfl (flight_eq_update ?_ fun e' he => ?_) rfl rfl rfl
        · simp [flight, net]
        · simp [Function.update_of_ne he]
      next hfull =>
      split at h
      next hfree =>
        cases h
        convert Net.Step.submit (n := s.net) htodo using 1
        refine Net.ext rfl rfl (flight_eq_update ?_ fun e' he => ?_) rfl rfl rfl
        · simp [flight, net, hfree]
        · simp [Function.update_of_ne he]
      · cases h
    · cases h
  | take b b' =>
    simp only [step] at h
    split at h <;> cases h
    next m ms hsending hjobs =>
    refine .inl (Net.ext rfl rfl (flight_eq (e := (b, b')) ?_ fun e' he => ?_) rfl rfl rfl)
    · simp [flight, hsending, hjobs]
    · simp [Function.update_of_ne he]
  | encode b b' =>
    simp only [step] at h
    split at h <;> cases h
    next m hsending =>
    refine .inl (Net.ext rfl rfl (flight_eq (e := (b, b')) ?_ fun e' he => ?_) rfl rfl rfl)
    · simp [flight, hsending]
    · simp [Function.update_of_ne he]
  | decode b b' =>
    simp only [step] at h
    split at h <;> cases h
    next m ms hreplaying hlink =>
    refine .inl (Net.ext rfl rfl (flight_eq (e := (b, b')) ?_ fun e' he => ?_) rfl rfl rfl)
    · simp [flight, hreplaying, hlink]
    · simp [Function.update_of_ne he]
  | replay b b' =>
    simp only [step] at h
    split at h <;> cases h
    next m hreplaying =>
    have hflight : s.net.flight (b, b') =
        m :: (s.link (b, b') ++ (s.sending (b, b')).toList ++ s.jobs (b, b')) := by
      simp [net, flight, hreplaying]
    refine .inr ?_
    convert Net.Step.replay hflight using 1
    refine Net.ext rfl rfl (flight_eq_update ?_ fun e' he => ?_) rfl rfl rfl
    · simp [flight]
    · simp [Function.update_of_ne he]

end Cluster

/-! ## Where a message can be -/

namespace Net

variable {B : Type} [DecidableEq B] {ps : Peers B} {n : Net B} {b b' : B} {c : ConnId}
  {m : Publish}

/-- A client of `b` has published the message. -/
def sentBy (published : List (B × ConnId × Publish)) (b : B) (m : Publish) : Bool :=
  published.any fun p => p.1 = b && p.2.2 = m

theorem sentBy_iff : sentBy n.published b m = true ↔ ∃ c, (b, c, m) ∈ n.published := by
  simp only [sentBy, List.any_eq_true, Bool.and_eq_true, decide_eq_true_eq]
  constructor
  · rintro ⟨⟨_, c, _⟩, hp, rfl, rfl⟩
    exact ⟨c, hp⟩
  · rintro ⟨c, hp⟩
    exact ⟨_, hp, rfl, rfl⟩

theorem count_post_doPublish {m' : Publish} :
    (doPublish c m).count (.post m') = if m = m' then 1 else 0 := by
  simp only [doPublish]
  split <;> simp [List.count_cons]

theorem count_replicate_doPublish {m' : Publish} :
    (doPublish c m).count (.replicate m') = if m = m' then 1 else 0 := by
  simp only [doPublish]
  split <;> simp [List.count_cons]

/-- What is left of a handler was in it. -/
theorem mem_of_mem_rest {i i' : Instr} {rest : List Instr} {k k' : B × ConnId}
    (hhead : n.handler k = i :: rest) (h : i' ∈ Function.update n.handler k rest k') :
    i' ∈ n.handler k' := by
  rw [Function.update_apply] at h
  split at h
  · next heq =>
    rw [heq, hhead]
    exact List.mem_cons_of_mem _ h
  · exact h

/-- Every message is in one place of its own broker, and in one place on the way to
each peer. -/
structure Inv (ps : Peers B) (n : Net B) : Prop where
  number : ∀ {k : Nat} {p : B × ConnId × Publish}, n.published[k]? = some p → p.2.2.obj = k
  handler : ∀ {b c m}, (.post m ∈ n.handler (b, c) ∨ .replicate m ∈ n.handler (b, c) ∨
    ∃ b', (b', m) ∈ n.todo (b, c)) → (b, c, m) ∈ n.published
  submitted : ∀ {b b' m}, m ∈ n.submitted (b, b') → ∃ c, (b, c, m) ∈ n.published
  posts : ∀ {b m}, m ∈ n.posts b → ∃ b' c, (b', c, m) ∈ n.published
  posted : ∀ {b c m}, (b, c, m) ∈ n.published →
    (n.handler (b, c)).count (.post m) + (n.posts b).count m = 1
  replicated : ∀ {b c m}, (b, c, m) ∈ n.published → ∀ b',
    (if b' ∈ ps.nodes b then (n.handler (b, c)).count (.replicate m) else 0) +
      (n.todo (b, c)).count (b', m) + (n.submitted (b, b')).count m =
    if b' ∈ ps.nodes b then 1 else 0
  queue : ∀ b b', ∃ arrived, n.submitted (b, b') = arrived ++ n.flight (b, b') ∧
    (b ≠ b' → arrived = (n.posts b').filter (sentBy n.published b))

namespace Inv

variable (hI : Inv ps n)

include hI

theorem getElem?_published {p : B × ConnId × Publish} (h : p ∈ n.published) :
    n.published[p.2.2.obj]? = some p := by
  obtain ⟨k, hk⟩ := List.mem_iff_getElem?.1 h
  rwa [hI.number hk]

theorem lt {p : B × ConnId × Publish} (h : p ∈ n.published) :
    p.2.2.obj < n.published.length :=
  (List.getElem?_eq_some_iff.1 (hI.getElem?_published h)).1

theorem unique {c' : ConnId} (h : (b, c, m) ∈ n.published) (h' : (b', c', m) ∈ n.published) :
    b = b' ∧ c = c' := by
  have heq : some (b, c, m) = some (b', c', m) :=
    (hI.getElem?_published h).symm.trans (hI.getElem?_published h')
  simpa using heq

theorem sentBy_eq_false (h : (b, c, m) ∈ n.published) (hne : b' ≠ b) :
    sentBy n.published b' m = false := by
  by_contra hsent
  obtain ⟨c', h'⟩ := sentBy_iff.1 (Bool.eq_true_of_not_eq_false hsent)
  exact hne (hI.unique h' h).1

/-- A message is submitted only to peers. -/
theorem mem_nodes (h : m ∈ n.submitted (b, b')) : b' ∈ ps.nodes b := by
  obtain ⟨c, hp⟩ := hI.submitted h
  by_contra hnot
  have hcount := hI.replicated hp b'
  have hpos := List.count_pos_iff.2 h
  simp only [hnot, if_false] at hcount
  omega

theorem mem_submitted (h : m ∈ n.flight (b, b')) : m ∈ n.submitted (b, b') := by
  obtain ⟨arrived, heq, -⟩ := hI.queue b b'
  rw [heq]
  exact List.mem_append_right _ h

/-- What is on the way to a broker comes from another one. -/
theorem ne_of_mem_flight (h : m ∈ n.flight (b, b')) : b ≠ b' := by
  rintro rfl
  exact ps.irrefl b (hI.mem_nodes (hI.mem_submitted h))

/-! ### One step -/

theorem publish (hidle : n.handler (b, c) = []) (hobj : m.obj = n.published.length) :
    Inv ps { n with
      handler := Function.update n.handler (b, c) (doPublish c m)
      published := n.published ++ [(b, c, m)] } := by
  -- the number of the message is new
  have hne : ∀ {b' c' m'}, (b', c', m') ∈ n.published → m' ≠ m := by
    rintro b' c' m' h rfl
    exact Nat.ne_of_lt (hI.lt h) hobj
  have hold : ∀ {p}, p ∈ n.published ++ [(b, c, m)] → p ∈ n.published ∨ p = (b, c, m) := by
    intro p hp
    simpa using hp
  refine ⟨?_, ?_, ?_, ?_, ?_, ?_, ?_⟩
  · intro k p hp
    obtain hk | hk := Nat.lt_or_ge k n.published.length
    · exact hI.number (by rwa [List.getElem?_append_left hk] at hp)
    · rw [List.getElem?_append_right hk, List.getElem?_singleton] at hp
      split at hp <;> cases hp
      rw [hobj]
      omega
  · intro b₁ c₁ m₁ h
    simp only [Function.update_apply] at h
    split at h
    · next heq =>
      obtain ⟨rfl, rfl⟩ := Prod.mk.inj heq
      obtain h | h | h := h
      · simp_all [doPublish]
      · simp_all [doPublish]
      · exact List.mem_append_left _ (hI.handler (.inr (.inr h)))
    · exact List.mem_append_left _ (hI.handler h)
  · intro b₁ b₂ m₁ h
    obtain ⟨c₁, h⟩ := hI.submitted h
    exact ⟨c₁, List.mem_append_left _ h⟩
  · intro b₁ m₁ h
    obtain ⟨b₂, c₁, h⟩ := hI.posts h
    exact ⟨b₂, c₁, List.mem_append_left _ h⟩
  · intro b₁ c₁ m₁ h
    obtain h | heq := hold h
    · have hcount := hI.posted h
      by_cases hk : (b₁, c₁) = (b, c)
      · rw [hk, hidle] at hcount
        simpa [hk, count_post_doPublish, (hne h).symm] using hcount
      · simpa [hk] using hcount
    · obtain ⟨rfl, rfl, rfl⟩ : b₁ = b ∧ c₁ = c ∧ m₁ = m := by simpa using heq
      have hnot : m₁ ∉ n.posts b₁ := by
        intro hmem
        obtain ⟨b₂, c₂, hp⟩ := hI.posts hmem
        exact hne hp rfl
      simp [count_post_doPublish, List.count_eq_zero_of_not_mem hnot]
  · intro b₁ c₁ m₁ h b₂
    obtain h | heq := hold h
    · have hcount := hI.replicated h b₂
      by_cases hk : (b₁, c₁) = (b, c)
      · rw [hk, hidle] at hcount
        simpa [hk, count_replicate_doPublish, (hne h).symm] using hcount
      · simpa [hk] using hcount
    · obtain ⟨rfl, rfl, rfl⟩ : b₁ = b ∧ c₁ = c ∧ m₁ = m := by simpa using heq
      have htodo : (b₂, m₁) ∉ n.todo (b₁, c₁) := fun hmem =>
        hne (hI.handler (.inr (.inr ⟨b₂, hmem⟩))) rfl
      have hsub : m₁ ∉ n.submitted (b₁, b₂) := by
        intro hmem
        obtain ⟨c₂, hp⟩ := hI.submitted hmem
        exact hne hp rfl
      simp [count_replicate_doPublish, List.count_eq_zero_of_not_mem htodo,
        List.count_eq_zero_of_not_mem hsub]
  · intro b₁ b₂
    obtain ⟨arrived, heq, harr⟩ := hI.queue b₁ b₂
    refine ⟨arrived, heq, fun hne' => (harr hne').trans (List.filter_congr fun m₁ hm₁ => ?_)⟩
    obtain ⟨b₃, c₁, hp⟩ := hI.posts hm₁
    simp [sentBy, (hne hp).symm]

theorem post {rest : List Instr} (hhead : n.handler (b, c) = .post m :: rest) :
    Inv ps { n with
      handler := Function.update n.handler (b, c) rest
      posts := Function.update n.posts b (n.posts b ++ [m]) } := by
  have hp : (b, c, m) ∈ n.published := hI.handler (.inl (by simp [hhead]))
  refine ⟨hI.number, ?_, hI.submitted, ?_, ?_, ?_, ?_⟩
  · intro b₁ c₁ m₁ h
    exact hI.handler (h.imp (mem_of_mem_rest hhead) (Or.imp_left (mem_of_mem_rest hhead)))
  · intro b₁ m₁ h
    simp only [Function.update_apply] at h
    split at h
    · obtain h | h := List.mem_append.1 h
      · exact hI.posts h
      · obtain rfl := List.mem_singleton.1 h
        exact ⟨b, c, hp⟩
    · exact hI.posts h
  · intro b₁ c₁ m₁ h
    have hcount := hI.posted h
    by_cases hb : b₁ = b
    · subst hb
      by_cases hc : c₁ = c
      · subst hc
        rw [hhead, List.count_cons] at hcount
        by_cases hm : m = m₁
        · subst hm
          simp only [beq_self_eq_true, if_true] at hcount
          simp only [Function.update_self, List.count_append, List.count_singleton_self]
          omega
        · simpa [hm, List.count_append, List.count_cons] using hcount
      · have hm : m ≠ m₁ := by
          rintro rfl
          exact hc (hI.unique h hp).2
        simpa [hc, hm, List.count_append, List.count_cons] using hcount
    · simpa [hb] using hcount
  · intro b₁ c₁ m₁ h b₂
    have hcount := hI.replicated h b₂
    by_cases hk : (b₁, c₁) = (b, c)
    · rw [hk, hhead] at hcount
      simpa [hk, List.count_cons] using hcount
    · simpa [hk] using hcount
  · intro b₁ b₂
    obtain ⟨arrived, heq, harr⟩ := hI.queue b₁ b₂
    refine ⟨arrived, heq, fun hne => ?_⟩
    rw [harr hne]
    by_cases hb : b₂ = b
    · subst hb
      simp [hI.sentBy_eq_false hp hne]
    · simp [hb]

theorem replicate {rest : List Instr} {order : List B}
    (hhead : n.handler (b, c) = .replicate m :: rest) (htodo : n.todo (b, c) = [])
    (hperm : order.Perm (ps.nodes b)) :
    Inv ps { n with
      handler := Function.update n.handler (b, c) rest
      todo := Function.update n.todo (b, c) (order.map (·, m)) } := by
  have hp : (b, c, m) ∈ n.published := hI.handler (.inr (.inl (by simp [hhead])))
  refine ⟨hI.number, ?_, hI.submitted, hI.posts, ?_, ?_, hI.queue⟩
  · intro b₁ c₁ m₁ h
    obtain h | h | ⟨b₂, h⟩ := h
    · exact hI.handler (.inl (mem_of_mem_rest hhead h))
    · exact hI.handler (.inr (.inl (mem_of_mem_rest hhead h)))
    · simp only [Function.update_apply] at h
      split at h
      · next heq =>
        obtain ⟨-, -, hm⟩ := List.mem_map.1 h
        simp_all
      · exact hI.handler (.inr (.inr ⟨b₂, h⟩))
  · intro b₁ c₁ m₁ h
    have hcount := hI.posted h
    by_cases hk : (b₁, c₁) = (b, c)
    · rw [hk, hhead] at hcount
      simpa [hk, List.count_cons] using hcount
    · simpa [hk] using hcount
  · intro b₁ c₁ m₁ h b₂
    have hcount := hI.replicated h b₂
    by_cases hk : (b₁, c₁) = (b, c)
    · obtain ⟨rfl, rfl⟩ := Prod.mk.inj hk
      -- each peer comes up once
      have hmap : (order.map (·, m)).count (b₂, m₁) =
          if m = m₁ ∧ b₂ ∈ ps.nodes b₁ then 1 else 0 := by
        by_cases hm : m = m₁
        · subst hm
          rw [List.count_map_of_injective _ _ (fun _ _ h => (Prod.mk.inj h).1),
            hperm.count_eq, (ps.nodup b₁).count]
          simp
        · rw [List.count_eq_zero_of_not_mem (by simp [hm])]
          simp [hm]
      rw [hhead, htodo, List.count_cons, List.count_nil] at hcount
      simp only [Function.update_self, hmap]
      by_cases hm : m = m₁ <;> by_cases hb : b₂ ∈ ps.nodes b₁ <;> simp_all
    · simpa [hk] using hcount

theorem skip {i : Instr} {rest : List Instr} (hhead : n.handler (b, c) = i :: rest)
    (hpost : ∀ m, i ≠ .post m) (hrep : ∀ m, i ≠ .replicate m) :
    Inv ps { n with handler := Function.update n.handler (b, c) rest } := by
  refine ⟨hI.number, ?_, hI.submitted, hI.posts, ?_, ?_, hI.queue⟩
  · intro b₁ c₁ m₁ h
    exact hI.handler (h.imp (mem_of_mem_rest hhead) (Or.imp_left (mem_of_mem_rest hhead)))
  · intro b₁ c₁ m₁ h
    have hcount := hI.posted h
    by_cases hk : (b₁, c₁) = (b, c)
    · rw [hk, hhead] at hcount
      simpa [hk, List.count_cons, hpost] using hcount
    · simpa [hk] using hcount
  · intro b₁ c₁ m₁ h b₂
    have hcount := hI.replicated h b₂
    by_cases hk : (b₁, c₁) = (b, c)
    · rw [hk, hhead] at hcount
      simpa [hk, List.count_cons, hrep] using hcount
    · simpa [hk] using hcount

theorem submit {rest : List (B × Publish)} (hhead : n.todo (b, c) = (b', m) :: rest) :
    Inv ps { n with
      todo := Function.update n.todo (b, c) rest
      flight := Function.update n.flight (b, b') (n.flight (b, b') ++ [m])
      submitted := Function.update n.submitted (b, b') (n.submitted (b, b') ++ [m]) } := by
  have hp : (b, c, m) ∈ n.published := hI.handler (.inr (.inr ⟨b', by simp [hhead]⟩))
  refine ⟨hI.number, ?_, ?_, hI.posts, hI.posted, ?_, ?_⟩
  · intro b₁ c₁ m₁ h
    refine hI.handler (h.imp_right (Or.imp_right fun ⟨b₂, h⟩ => ⟨b₂, ?_⟩))
    simp only [Function.update_apply] at h
    split at h
    · next heq =>
      rw [heq, hhead]
      exact List.mem_cons_of_mem _ h
    · exact h
  · intro b₁ b₂ m₁ h
    simp only [Function.update_apply] at h
    split at h
    · next heq =>
      obtain ⟨rfl, rfl⟩ := Prod.mk.inj heq
      obtain h | h := List.mem_append.1 h
      · exact hI.submitted h
      · obtain rfl := List.mem_singleton.1 h
        exact ⟨c, hp⟩
    · exact hI.submitted h
  · intro b₁ c₁ m₁ h b₂
    have hcount := hI.replicated h b₂
    by_cases hm : m₁ = m
    · subst hm
      obtain ⟨rfl, rfl⟩ := hI.unique hp h
      rw [hhead, List.count_cons] at hcount
      by_cases hb : b₂ = b'
      · subst hb
        simp only [beq_self_eq_true, if_true] at hcount
        simp only [Function.update_self, List.count_append, List.count_singleton_self]
        omega
      · simpa [hb, Ne.symm hb] using hcount
    · by_cases hk : (b₁, c₁) = (b, c) <;> by_cases he : (b₁, b₂) = (b, b') <;>
        simp_all [List.count_append, Ne.symm hm]
  · intro b₁ b₂
    obtain ⟨arrived, heq, harr⟩ := hI.queue b₁ b₂
    refine ⟨arrived, ?_, harr⟩
    by_cases he : (b₁, b₂) = (b, b')
    · simp only [he, Function.update_self]
      rw [← List.append_assoc, ← he, heq]
    · simpa [he] using heq

theorem replay {ms : List Publish} (hhead : n.flight (b, b') = m :: ms) :
    Inv ps { n with
      flight := Function.update n.flight (b, b') ms
      posts := Function.update n.posts b' (n.posts b' ++ [m]) } := by
  have hmem : m ∈ n.flight (b, b') := by simp [hhead]
  have hne : b ≠ b' := hI.ne_of_mem_flight hmem
  obtain ⟨c, hp⟩ := hI.submitted (hI.mem_submitted hmem)
  refine ⟨hI.number, hI.handler, hI.submitted, ?_, ?_, hI.replicated, ?_⟩
  · intro b₁ m₁ h
    simp only [Function.update_apply] at h
    split at h
    · obtain h | h := List.mem_append.1 h
      · exact hI.posts h
      · obtain rfl := List.mem_singleton.1 h
        exact ⟨b, c, hp⟩
    · exact hI.posts h
  · intro b₁ c₁ m₁ h
    have hcount := hI.posted h
    by_cases hb : b₁ = b'
    · subst hb
      -- the message is not one of this broker's own
      have hm : m ≠ m₁ := by
        rintro rfl
        exact hne (hI.unique hp h).1
      simpa [hm, List.count_append, List.count_cons] using hcount
    · simpa [hb] using hcount
  · intro b₁ b₂
    obtain ⟨arrived, heq, harr⟩ := hI.queue b₁ b₂
    by_cases hb : b₂ = b'
    · subst hb
      by_cases hb₁ : b₁ = b
      · subst hb₁
        have hsent : sentBy n.published b₁ m = true := sentBy_iff.2 ⟨c, hp⟩
        refine ⟨arrived ++ [m], ?_, fun _ => ?_⟩
        · simp [heq, hhead]
        · simp [harr hne, hsent]
      · refine ⟨arrived, by simpa [hb₁] using heq, fun hne' => ?_⟩
        simp [harr hne', hI.sentBy_eq_false hp hb₁]
    · exact ⟨arrived, by simpa [hb] using heq, fun hne' => by simpa [hb] using harr hne'⟩

theorem step {n' : Net B} (h : Step ps n n') : Inv ps n' := by
  cases h with
  | publish hidle hobj => exact hI.publish hidle hobj
  | post hhead => exact hI.post hhead
  | replicate hhead htodo hperm => exact hI.replicate hhead htodo hperm
  | skip hhead hpost hrep => exact hI.skip hhead hpost hrep
  | submit hhead => exact hI.submit hhead
  | replay hhead => exact hI.replay hhead

end Inv

end Net

/-! ## Every interleaving -/

namespace Cluster

variable {B : Type} [DecidableEq B] {ps : Peers B} {queueLen : Nat} {s : Cluster B}

theorem inv_init : Net.Inv ps (init : Cluster B).net := by
  constructor <;> simp [init, net, flight]

theorem inv (hr : Transition.Reachable (step ps queueLen) init s) : Net.Inv ps s.net := by
  refine hr.invariant (I := fun s => Net.Inv ps s.net) ?_ inv_init
  intro s a s' _ hI hstep
  obtain heq | hnet := step_net hstep
  · rwa [heq]
  · exact hI.step hnet

/-- A handler, an endpoint or a `replay` has still something to do with the message. -/
def InFlight (s : Cluster B) (m : Publish) : Prop :=
  (∃ b c, .post m ∈ s.handler (b, c) ∨ .replicate m ∈ s.handler (b, c) ∨
    ∃ b', (b', m) ∈ s.todo (b, c)) ∨
  ∃ e, m ∈ s.jobs e ∨ s.sending e = some m ∨ m ∈ s.link e ∨ s.replaying e = some m

omit [DecidableEq B] in
theorem mem_flight {e : B × B} {m : Publish} : m ∈ s.flight e ↔
    m ∈ s.jobs e ∨ s.sending e = some m ∨ m ∈ s.link e ∨ s.replaying e = some m := by
  simp only [flight, List.mem_append, Option.mem_toList]
  tauto

end Cluster

namespace Net.Inv

variable {B : Type} [DecidableEq B] {ps : Peers B} {n : Net B} (hI : Inv ps n) {b b₀ : B}
  {c : ConnId} {m : Publish}

include hI

theorem map_obj : (n.published.map fun p => p.2.2.obj) = List.range n.published.length := by
  refine List.ext_getElem (by simp) fun k hk _ => ?_
  simpa using hI.number (List.getElem?_eq_getElem (by simpa using hk))

/-- What was submitted to a peer has arrived or is in the queue. -/
theorem count_posts_of_ne (hp : (b₀, c, m) ∈ n.published) (hne : b₀ ≠ b) :
    (n.submitted (b₀, b)).count m = (n.posts b).count m + (n.flight (b₀, b)).count m := by
  obtain ⟨arrived, heq, harr⟩ := hI.queue b₀ b
  have hsent : sentBy n.published b₀ m = true := sentBy_iff.2 ⟨c, hp⟩
  rw [heq, List.count_append, harr hne, List.count_filter hsent]

theorem count_posts_le (hp : (b₀, c, m) ∈ n.published) : (n.posts b).count m ≤ 1 := by
  by_cases hne : b₀ = b
  · subst hne
    have hcount := hI.posted hp
    omega
  · have hposts := hI.count_posts_of_ne hp hne
    have hcount := hI.replicated hp b
    split at hcount <;> omega

theorem count_posts_eq_zero (hp : (b₀, c, m) ∈ n.published)
    (hnot : ¬ (b = b₀ ∨ b ∈ ps.nodes b₀)) : (n.posts b).count m = 0 := by
  obtain ⟨hne, hpeer⟩ := not_or.1 hnot
  have hposts := hI.count_posts_of_ne hp (Ne.symm hne)
  have hcount := hI.replicated hp b
  simp only [hpeer, if_false] at hcount
  omega

theorem count_posts_eq_one (hp : (b₀, c, m) ∈ n.published)
    (hdone : .post m ∉ n.handler (b₀, c) ∧ .replicate m ∉ n.handler (b₀, c) ∧
      (b, m) ∉ n.todo (b₀, c) ∧ m ∉ n.flight (b₀, b))
    (h : b = b₀ ∨ b ∈ ps.nodes b₀) : (n.posts b).count m = 1 := by
  obtain ⟨hpost, hrep, htodo, hflight⟩ := hdone
  obtain rfl | hpeer := h
  · have hcount := hI.posted hp
    rwa [List.count_eq_zero_of_not_mem hpost, Nat.zero_add] at hcount
  · have hne : b₀ ≠ b := by
      rintro rfl
      exact ps.irrefl b₀ hpeer
    have hposts := hI.count_posts_of_ne hp hne
    have hcount := hI.replicated hp b
    rw [List.count_eq_zero_of_not_mem hflight] at hposts
    rw [List.count_eq_zero_of_not_mem hrep, List.count_eq_zero_of_not_mem htodo] at hcount
    simp only [hpeer, if_true] at hcount
    omega

end Net.Inv

section

variable {B : Type} [DecidableEq B] {ps : Peers B} {queueLen : Nat} {s : Cluster B}

/-- Whatever the peers of each broker are, and in every interleaving: no broker gets a
PUBLISH twice, only its own broker and the peers of that one ever get it, all of them
have it once it is nowhere on the way, and what comes from one broker is posted in the
order in which it was submitted. -/
theorem replicated_once
    (hr : Transition.Reachable (Cluster.step ps queueLen) Cluster.init s) :
    (s.published.map fun p => p.2.2.obj).Nodup ∧
    (∀ b, (s.posts b).Nodup) ∧
    (∀ b₀ c m, (b₀, c, m) ∈ s.published → ∀ b,
      (¬ (b = b₀ ∨ b ∈ ps.nodes b₀) → m ∉ s.posts b) ∧
      (¬ s.InFlight m → (s.posts b).count m = if b = b₀ ∨ b ∈ ps.nodes b₀ then 1 else 0)) ∧
    ∀ b₀ b, b₀ ≠ b →
      (s.posts b).filter (Net.sentBy s.published b₀) <+: s.submitted (b₀, b) := by
  have hI := Cluster.inv hr
  refine ⟨?_, ?_, ?_, ?_⟩
  · exact hI.map_obj ▸ List.nodup_range
  · intro b
    refine List.nodup_iff_count_le_one.2 fun m => ?_
    by_cases hm : m ∈ s.posts b
    · obtain ⟨b₀, c, hp⟩ := hI.posts hm
      exact hI.count_posts_le hp
    · rw [List.count_eq_zero_of_not_mem hm]
      exact Nat.zero_le 1
  · intro b₀ c m hp b
    refine ⟨fun hnot => List.count_eq_zero.1 (hI.count_posts_eq_zero hp hnot), fun hdone => ?_⟩
    obtain ⟨hhandler, hflight⟩ := not_or.1 hdone
    split
    next h =>
      refine hI.count_posts_eq_one hp ⟨fun h => ?_, fun h => ?_, fun h => ?_, fun h => ?_⟩ h
      · exact hhandler ⟨b₀, c, .inl h⟩
      · exact hhandler ⟨b₀, c, .inr (.inl h)⟩
      · exact hhandler ⟨b₀, c, .inr (.inr ⟨b, h⟩)⟩
      · exact hflight ⟨_, Cluster.mem_flight.1 h⟩
    next hnot => exact hI.count_posts_eq_zero hp hnot
  · intro b₀ b hne
    obtain ⟨arrived, heq, harr⟩ := hI.queue b₀ b
    exact ⟨s.flight (b₀, b), (harr hne ▸ heq).symm⟩

/-! ### Two brokers that name each other, and a third that names nobody -/

def triangle : Peers (Fin 3) where
  nodes
    | 0 => [1]
    | 1 => [0, 2]
    | 2 => []
  nodup := by decide
  irrefl := by decide

/-- The way of a message through an endpoint. -/
def relay (b b' : Fin 3) : List (Cluster.Action (Fin 3)) :=
  [.take b b', .encode b b', .decode b b', .replay b b']

/-- Connection 0 of each of the first two brokers publishes the message. -/
def exchange (m : Publish) : List (Cluster.Action (Fin 3)) :=
  [.publish 0 0 m, .publish 1 0 m] ++ List.replicate 5 (.handle 0 0 [1]) ++
    List.replicate 5 (.handle 1 0 [2, 0]) ++ [.submit 0 0, .submit 1 0, .submit 1 0] ++
    relay 1 0 ++ relay 0 1 ++ relay 1 2

def hello (obj : Nat) : Publish := ⟨obj, .atMostOnce, str "t", 0, str "x"⟩

theorem replicated_once_exchange :
    ∃ s, Transition.Reachable (Cluster.step triangle 1) Cluster.init s ∧
      s.published = [(0, 0, hello 0), (1, 0, hello 1)] ∧
      ¬ s.InFlight (hello 1) ∧
      ∀ b, (s.posts b).count (hello 1) =
        if b = 1 ∨ b ∈ triangle.nodes 1 then 1 else 0 := by
  have hrun : (Transition.run (Cluster.step triangle 1) Cluster.init (exchange (hello 0))).map
      (fun s => decide (s.published = [(0, 0, hello 0), (1, 0, hello 1)] ∧
        s.handler (1, 0) = [] ∧ s.todo (1, 0) = [] ∧ ∀ b b', s.flight (b, b') = [])) =
      some true := by
    decide +kernel
  obtain ⟨s, hs, heq⟩ := Option.map_eq_some_iff.1 hrun
  obtain ⟨hpub, hhandler, htodo, hflight⟩ := of_decide_eq_true heq
  have hr : Transition.Reachable (Cluster.step triangle 1) Cluster.init s := ⟨_, hs⟩
  have hdone : ¬ s.InFlight (hello 1) := by
    rintro (⟨b, c, h⟩ | ⟨⟨b, b'⟩, h⟩)
    · -- only the handler that got the message can still hold it
      have hmem : (b, c, hello 1) ∈ s.published := (Cluster.inv hr).handler h
      rw [hpub] at hmem
      simp only [List.mem_cons, List.not_mem_nil, Prod.mk.injEq, hello, Publish.mk.injEq] at hmem
      obtain ⟨-, -, h, -⟩ | ⟨rfl, rfl, -⟩ | h := hmem
      · cases h
      · simp [hhandler, htodo] at h
      · cases h
    · have hmem := Cluster.mem_flight.2 h
      simp [hflight] at hmem
  have hall := (replicated_once hr).2.2.1 1 0 (hello 1) (by simp [hpub])
  exact ⟨s, hr, hpub, hdone, fun b => (hall b).2 hdone⟩

end
