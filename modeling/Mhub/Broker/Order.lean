-- SUMMARY: The order of messages: a client's PUBLISH messages are posted in the order they were received, and what a single worker queues for a subscriber keeps it.
import Mhub.Broker.Single

/-!
# Order

The handler of a connection is done with one message before it reads the next. So what a
client has published is, in order, what was posted for it, and the one message that its
handler has still to post.

Behind the channel the order depends on the number of workers. With a single worker, what
it queues of one publisher for a subscriber is in the order in which it was sent. That is
not all the subscriber gets: `sendRetain`, in the handler of its own SUBSCRIBE, can queue
an older message behind a newer one.
-/

variable {env : Env} {s s' : State} {t : Tid} {ch : Choice} {i j : Instr} {rest : List Instr}
  {nx : Next} {c p : ConnId} {m : Publish}

/-! ## Into the channel -/

def Event.published (c : ConnId) : Event → Option Publish
  | .received c' (.publish _ m) => if c' = c then some m else none
  | _ => none

/-- What the client of `c` has published. -/
def State.published (s : State) (c : ConnId) : List Publish :=
  s.trace.filterMap (·.published c)

/-- Of the posts, those that the client of `c` has published. -/
def State.postedBy (s : State) (c : ConnId) : List Publish :=
  s.posted.filter (· ∈ s.published c)

theorem State.mem_published :
    m ∈ s.published c ↔ ∃ retain, .received c (.publish retain m) ∈ s.trace := by
  simp only [State.published, List.mem_filterMap]
  constructor
  · rintro ⟨e, he, hm⟩
    cases e with
    | received c' pk =>
      cases pk with
      | publish retain m' =>
        simp only [Event.published, Option.ite_none_right_eq_some, Option.some.injEq] at hm
        obtain ⟨rfl, rfl⟩ := hm
        exact ⟨retain, he⟩
      | _ => cases hm
    | _ => cases hm
  · rintro ⟨retain, h⟩
    exact ⟨_, h, by simp [Event.published]⟩

/-- Nobody else posts what the client of `c` has published. -/
theorem Executes.post_published (hr : Reachable env s)
    (hx : Executes env s t ch (.post m) rest nx s') (h : m ∈ s.published c) : t = .inbound c := by
  obtain ⟨retain, hrecv⟩ := State.mem_published.1 h
  refine (hr.post_unique hx.mem_self ?_ rfl).symm
  exact (hr.received_posted hrecv).resolve_right fun h => hr.not_posted hx.mem_self h rfl

theorem Executes.published (hx : Executes env s t ch i rest nx s') (hi : i ≠ .inboundLoop c) :
    s'.published c = s.published c := by
  refine hx.filterMap_trace fun e hlog => ?_
  cases e with
  | received c' pk =>
    have hne : c' ≠ c := fun h => hi (h ▸ hlog)
    cases pk <;> simp [Event.published, hne]
  | _ => rfl

/-- What a handler has to post changes when it reads a message, and when it posts. -/
theorem Executes.toPost_inbound (hr : Reachable env s) (hx : Executes env s t ch i rest nx s')
    (hi : t = .inbound c → i ≠ .inboundLoop c ∧ ∀ m, i ≠ .post m) :
    s'.toPost (.inbound c) = s.toPost (.inbound c) := by
  by_cases ht : t = .inbound c
  · subst ht
    obtain ⟨hloop, hpost⟩ := hi rfl
    have hself : i.toPost = none := by
      cases i with
      | post m => exact absurd rfl (hpost m)
      | _ => rfl
    have hnext : nx.instrs.filterMap Instr.toPost = [] := by
      refine List.eq_nil_iff_forall_not_mem.2 fun m hm => ?_
      obtain ⟨c', rfl⟩ | rfl := brings_post (hx.follows.brings (mem_toPost.1 hm))
      · cases hx.home hr rfl
        exact hloop rfl
      · have hshape := hr.shaped (.inbound c)
        rw [hx.code] at hshape
        obtain h | h | h := hshape.inbound
        · cases h
        · cases h
        · simp [inboundDefer] at h
    rw [State.toPost, State.toPost, hx.code_self, hx.code, List.filterMap_cons_none hself]
    cases nx with
    | push is =>
      rw [Next.instrs] at hnext
      rw [Next.apply, List.filterMap_append, hnext, List.nil_append]
    | jump l =>
      rw [hx.inbound_jump hr]
      exact hnext
  · rw [State.toPost, State.toPost, hx.code_inbound (Ne.symm ht)]

/-- A step that neither reads a message of the client nor posts one. -/
theorem State.postedBy_congr (hpub : s'.published c = s.published c) (hp : s'.posted = s.posted) :
    s'.postedBy c = s.postedBy c := by
  rw [State.postedBy, State.postedBy, hpub, hp]

def Packet.published : Packet → List Publish
  | .publish _ m => [m]
  | _ => []

theorem toPost_handle {pk : Packet} :
    (handle c pk ++ [Instr.inboundLoop c]).filterMap Instr.toPost = pk.published := by
  rw [List.filterMap_append]
  cases pk with
  | publish retain m =>
    simp only [handle, doPublish]
    split <;> rfl
  | subscribe sub =>
    simp [handle, doSubscribe, List.filterMap_flatMap, List.filterMap_map, List.filterMap_cons,
      Function.comp_def, Instr.toPost, Packet.published]
  | unsubscribe u =>
    simp [handle, doUnsubscribe, List.filterMap_flatMap, List.filterMap_cons, Instr.toPost,
      Packet.published]
  | _ => rfl

/-- The handler reads the next message. -/
theorem Executes.published_next (hr : Reachable env s)
    (hx : Executes env s t ch (.inboundLoop c) rest nx s')
    (h : s.published c = s.postedBy c ++ s.toPost (.inbound c)) :
    s'.published c = s'.postedBy c ++ s'.toPost (.inbound c) := by
  obtain rfl := hx.home hr rfl
  obtain rfl : rest = [] := (hx.code ▸ hr.shaped (.inbound c)).rest_of_loop
  have hposted : s'.posted = s.posted := hx.posted_eq (by simp)
  have hold : s.published c = s.postedBy c := by
    have hto : s.toPost (.inbound c) = [] := by
      rw [State.toPost, hx.code]
      rfl
    rw [h, hto, List.append_nil]
  obtain ⟨pk, -, rfl, htr⟩ | ⟨rfl, rfl⟩ := hx.inboundLoop
  · have hpub : s'.published c = s.published c ++ (pk.at s.nextObj).published := by
      cases pk <;> simp [State.published, htr, Packet.at, Packet.published, Event.published]
    have hto : s'.toPost (.inbound c) = (pk.at s.nextObj).published := by
      rw [State.toPost, hx.code_self, Next.apply, List.append_nil, toPost_handle]
    -- a new object was not posted yet
    have hnew : ∀ m ∈ (pk.at s.nextObj).published, m ∉ s.posted := by
      intro m hm hposted
      have hlt := hr.addressed_lt (.inr ⟨m, State.mem_posted.1 hposted, rfl⟩)
      cases pk <;> simp [Packet.at, Packet.published] at hm
      simp [hm] at hlt
    have hby : s'.postedBy c = s.postedBy c := by
      rw [State.postedBy, State.postedBy, hposted]
      refine List.filter_congr fun m hm => ?_
      have : m ∉ (pk.at s.nextObj).published := fun h => hnew m h hm
      simp [hpub, this]
    rw [hpub, hby, hto, hold]
  · have hpub : s'.published c = s.published c := by
      obtain ⟨-, s₁, hexec, rfl⟩ := hx
      cases hexec
      rfl
    have hto : s'.toPost (.inbound c) = [] := by
      rw [State.toPost, hx.code_self]
      rfl
    rw [State.postedBy_congr hpub hposted, hpub, hto, hold, List.append_nil]

/-- Some goroutine posts a message. -/
theorem Executes.published_post (hr : Reachable env s)
    (hx : Executes env s t ch (.post m) rest nx s')
    (h : s.published c = s.postedBy c ++ s.toPost (.inbound c)) :
    s'.published c = s'.postedBy c ++ s'.toPost (.inbound c) := by
  have hpub : s'.published c = s.published c := hx.published (by simp)
  have hposted : s'.posted = s.posted ++ [m] := hx.post_cases.1
  by_cases ht : t = .inbound c
  · subst ht
    have hto : s.toPost (.inbound c) = m :: s'.toPost (.inbound c) := by
      obtain rfl : nx = .push [] := by
        have hf := hx.follows
        cases hf
        rfl
      rw [State.toPost, State.toPost, hx.code_self, hx.code]
      rfl
    have hm : m ∈ s.published c := by
      rw [h, hto]
      simp
    have hby : s'.postedBy c = s.postedBy c ++ [m] := by
      simp [State.postedBy, hpub, hposted, hm]
    rw [hpub, h, hby, hto]
    simp
  · have hm : m ∉ s.published c := fun hm => ht (hx.post_published hr hm)
    have hby : s'.postedBy c = s.postedBy c := by
      simp [State.postedBy, hpub, hposted, hm]
    rw [hpub, hby, hx.toPost_inbound hr fun h => absurd h ht, h]

/-- What a client has published is what was posted for it, in order, and what its handler
has still to post. -/
theorem Reachable.published_eq (hr : Reachable env s) (c : ConnId) :
    s.published c = s.postedBy c ++ s.toPost (.inbound c) := by
  refine hr.invariant
    (I := fun s => s.published c = s.postedBy c ++ s.toPost (.inbound c)) ?_ rfl
  intro s a s' hr hI hstep
  obtain ⟨-, ⟨-, rfl⟩ | ⟨-, rfl⟩ | ⟨t, ch, i, rest, nx, -, hx⟩⟩ := step_cases hstep
  · have hpub : s.accept.published c = s.published c := by
      simp [State.published, State.accept, State.log, State.setCode, Event.published]
    have hto : s.accept.toPost (.inbound c) = s.toPost (.inbound c) := by
      by_cases hne : s.code (.inbound c) = []
      · obtain hcode | hcode := s.code_accept (.inbound c)
        · rw [State.toPost, State.toPost, hcode]
        · rw [State.toPost, State.toPost, hcode, hne]
          rfl
      · rw [State.toPost, State.toPost, Reachable.accept_code hr hne]
    rw [State.postedBy_congr hpub (State.posted_accept s), hpub, hto, hI]
  · exact hI
  · by_cases hloop : i = .inboundLoop c
    · subst hloop
      exact hx.published_next hr hI
    · by_cases hpost : ∃ m, i = .post m
      · obtain ⟨m, rfl⟩ := hpost
        exact hx.published_post hr hI
      · have hno : ∀ m, i ≠ .post m := fun m h => hpost ⟨m, h⟩
        have hpub := hx.published hloop
        rw [State.postedBy_congr hpub (hx.posted_eq hno), hpub,
          hx.toPost_inbound hr fun _ => ⟨hloop, hno⟩, hI]

/-! ## Out of a single worker -/

/-- Of the posts that were taken, those that `p` has published are the first ones it has
published. -/
theorem Reachable.takenPosts_published (hr : Reachable env s) (p : ConnId) :
    s.takenPosts.filter (· ∈ s.published p) <+: s.published p := by
  have hby : s.takenPosts.filter (· ∈ s.published p) <+: s.postedBy p := by
    rw [State.postedBy, hr.posted_eq, List.filter_append]
    exact List.prefix_append ..
  refine hby.trans ?_
  conv_rhs => rw [hr.published_eq p]
  exact List.prefix_append ..

/-- What a client has published was posted in the order in which it was received, apart
from what its handler has still to post. With a single worker, what the worker queues of
it for any subscriber are copies in this order. -/
theorem publisher_order (hr : Reachable env s) (p : ConnId) :
    s.published p = s.postedBy p ++ s.toPost (.inbound p) ∧
    (env.cf.subscriptionsWorkers ≤ 1 → ∀ c,
      Copies (s.published p) ((s.liveFor c).filter (· ∈ s.published p))) := by
  refine ⟨hr.published_eq p, fun hn c => ?_⟩
  obtain ⟨ms, hms⟩ := hr.takenPosts_published p
  have hcopies := ((hr.liveFor_copies hn c).filter (· ∈ s.published p)).append_right ms
  rwa [hms] at hcopies

/-- A client that is subscribed to `t` publishes twice on it. -/
def twiceRun : List BrokerAction :=
  subscribeRun ++ publishRun false [1] ++ publishRun false [2]

theorem publisher_order_twiceRun :
    ∃ s m₁ m₂, Transition.run (step workerEnv) (init workerEnv)
        (twiceRun ++ List.replicate 14 (.run (.worker 0) .go)) = some s ∧
      s.published 0 = [m₁, m₂] ∧ s.liveFor 0 = [m₁, m₂] ∧ m₁ ≠ m₂ ∧
      Copies (s.published 0) ((s.liveFor 0).filter (· ∈ s.published 0)) := by
  have heval : (Transition.run (step workerEnv) (init workerEnv)
      (twiceRun ++ List.replicate 14 (.run (.worker 0) .go))).map
        (fun s => (s.published 0, s.liveFor 0)) =
      some ([⟨2, .atMostOnce, str "t", 1, [1]⟩, ⟨3, .atMostOnce, str "t", 1, [2]⟩],
        [⟨2, .atMostOnce, str "t", 1, [1]⟩, ⟨3, .atMostOnce, str "t", 1, [2]⟩]) := by
    decide +kernel
  obtain ⟨s, hrun, hs⟩ := Option.map_eq_some_iff.1 heval
  obtain ⟨hpub, hlive⟩ := Prod.mk.inj hs
  exact ⟨s, _, _, hrun, hpub, hlive, by decide,
    (publisher_order ⟨_, hrun⟩ 0).2 (by decide) 0⟩

-- With a second worker the second message can overtake the first one.
example :
    (Transition.run (step { workerEnv with cf.subscriptionsWorkers := 2 })
      (init { workerEnv with cf.subscriptionsWorkers := 2 })
      (twiceRun ++ .run (.worker 0) .go :: List.replicate 7 (.run (.worker 1) .go) ++
        List.replicate 6 (.run (.worker 0) .go))).map
      (fun s => (s.liveFor 0).map (·.payload)) = some [[2], [1]] := by
  decide +kernel
