-- SUMMARY: Discovery over time (`discovery.go`): processes that start, fail and start again, requests that are lost, keys that expire; who leads, and who is listed.
import Mhub.Discovery

/-!
# Registration

`Do` is called whenever a process starts, and a node can start many processes one after
the other. The key of a node expires after `defaultTTL`, so each process sets it again
and again in a goroutine of its own. The state key is created without a TTL and stays.

A request can fail in two ways. Either etcd has not carried it out, or it has and the
answer was lost. The error is any error: a client that has sent the request a second time
can be told that a key exists which it has created itself.

There is one leader in the whole life of a discovery. What the others get are addresses of
other nodes. A node is listed as long as a process of it sets the key, even if it fails to
do so six times in a row. What is listed was set in the week before.
-/

namespace Registration

open Discovery (Etcd Error Node Pc Discoverer)

/-- One week, in seconds. -/
def defaultTTL : Nat := 604800

/-- In case of errors we should attempt to heartbeat fairly frequently. -/
def heartbeatInterval : Nat := defaultTTL / 8

/-- What becomes of a request. -/
inductive Reply where
  | done
  /-- It was carried out, and the answer was lost. -/
  | lost (e : Error)
  | refused (e : Error)
  deriving DecidableEq, Repr

def Reply.carriedOut : Reply → Bool
  | .done | .lost _ => true
  | .refused _ => false

def Reply.error : Reply → Option Error
  | .done => none
  | .lost e | .refused e => some e

/-- The processes `P` of the nodes `N`, and the etcd they use. -/
structure State (P N : Type) where
  now : Nat := 0
  etcd : Etcd
  /-- When the keys that have a TTL expire. -/
  expires : List GoString → Option Nat := fun _ => none
  pc : P → Pc := fun _ => .start
  gone : P → Bool := fun _ => false
  /-- When the ticker of `startHeartbeat` fires next. -/
  ticker : P → Option Nat := fun _ => none
  /-- The last heartbeats that were not carried out. -/
  missed : P → Nat := fun _ => 0
  /-- When the key of a node was set last. -/
  lastSet : N → Option Nat := fun _ => none

inductive Action (P : Type) where
  /-- The first `heartbeat` of `Do`. -/
  | register (p : P) (r : Reply)
  | create (p : P) (r : Reply)
  | get (p : P) (r : Reply) (order : List Node)
  | heartbeat (p : P) (r : Reply)
  | die (p : P)
  | wait (seconds : Nat)

/-- Drop the keys that have expired. -/
def expire (e : Etcd) (dead : List GoString → Bool) : Etcd :=
  ⟨e.entries.filter fun kv => !dead kv.1, e.nodupKeys.sublist List.filter_sublist⟩

theorem lookup_expire {e : Etcd} {dead : List GoString → Bool} (k : List GoString) :
    (expire e dead).lookup k = if dead k then none else e.lookup k := by
  ext v
  rw [← Option.mem_def, AList.mem_lookup_iff]
  simp only [expire, List.mem_filter, Bool.not_eq_true', ← AList.mem_lookup_iff]
  cases dead k <;> simp

/-! ## Keys -/

variable {P N : Type} (d : Discovery N)

/-- The key of a node. -/
def key (n : N) : List GoString := d.dir ++ [d.name n]

/-- The key that all share. -/
def leaderKey : List GoString := d.dir ++ [Discovery.stateKey]

variable {d}

theorem key_injective : Function.Injective (key d) := by
  intro n m h
  exact d.name_injective (by simpa [key] using h)

theorem key_ne_leaderKey (n : N) : key d n ≠ leaderKey d := by
  simpa [key, leaderKey] using d.name_ne_stateKey n

/-! ## Processes -/

variable [DecidableEq P] [DecidableEq N] (d) (node : P → N)

def init : State P N where
  etcd := d.etcd

/-- `heartbeat`. -/
def State.heartbeat (s : State P N) (n : N) (r : Reply) : State P N :=
  if r.carriedOut then
    let key := d.locate (d.discoverer n).ownKey
    { s with
      etcd := s.etcd.set key (d.discoverer n).peer
      expires := Function.update s.expires key (some (s.now + defaultTTL))
      lastSet := Function.update s.lastSet n (some s.now) }
  else s

def State.goto (s : State P N) (p : P) (pc : Pc) : State P N :=
  { s with pc := Function.update s.pc p pc }

def State.setTicker (s : State P N) (p : P) (t : Nat) : State P N :=
  { s with ticker := Function.update s.ticker p (some t) }

/-- The `Create` of `Do`: the new etcd, and what it is told. -/
def tryCreate (e : Etcd) (key : List GoString) (r : Reply) : Etcd × Option GoString × Option Error :=
  let res := if r.carriedOut then e.create key Discovery.startedState else (e, none, none)
  match r.error with
  | none => res
  | some err => (res.1, none, some err)

def step (s : State P N) : Action P → Option (State P N)
  | .register p r =>
    if s.gone p ∨ s.pc p ≠ .start then none
    else
      let s' := s.heartbeat d (node p) r
      match r.error with
      | some e => some (s'.goto p (.done (.error e)))
      | none => some ((s'.setTicker p (s.now + heartbeatInterval)).goto p .create)
  | .create p r =>
    if s.gone p ∨ s.pc p ≠ .create then none
    else
      let res := tryCreate s.etcd (d.locate (d.discoverer (node p)).leaderKey) r
      some ({ s with etcd := res.1 }.goto p
        (match Discoverer.created res.2.1 res.2.2 with
          | some result => .done result
          | none => .get))
  | .get p r order =>
    if s.gone p ∨ s.pc p ≠ .get ∨ ¬ order.Perm (s.etcd.children d.dir) then none
    else
      let resp := match r.error with
        | none => s.etcd.get d.dir order
        | some e => .error e
      some (s.goto p (.done ((d.discoverer (node p)).findPeers resp)))
  | .heartbeat p r =>
    match s.ticker p with
    | some t =>
      if s.gone p ∨ s.now < t then none
      else
        let s' := (s.heartbeat d (node p) r).setTicker p (t + heartbeatInterval)
        some { s' with
          missed := Function.update s.missed p (if r.carriedOut then 0 else s.missed p + 1) }
    | none => none
  | .die p => some { s with gone := Function.update s.gone p true }
  | .wait n =>
    some { s with
      now := s.now + n
      etcd := expire s.etcd fun k => (s.expires k).any (· ≤ s.now + n) }

variable {d node} {s s' : State P N} {p : P} {n : N}

omit [DecidableEq P] in
theorem State.etcd_heartbeat {r : Reply} :
    (s.heartbeat d n r).etcd =
      if r.carriedOut then s.etcd.insert (key d n) (d.peer n) else s.etcd := by
  rw [key, ← d.locate_ownKey]
  cases r <;> rfl

omit [DecidableEq P] in
theorem State.expires_heartbeat {r : Reply} :
    (s.heartbeat d n r).expires = if r.carriedOut then
      Function.update s.expires (key d n) (some (s.now + defaultTTL)) else s.expires := by
  rw [key, ← d.locate_ownKey]
  cases r <;> rfl

/-! ## Steps -/

/-- What a step does. -/
inductive Moves (d : Discovery N) (node : P → N) (s : State P N) : Action P → State P N → Prop where
  | registered {p : P} : s.gone p = false → s.pc p = .start →
    Moves d node s (.register p .done)
      (((s.heartbeat d (node p) .done).setTicker p (s.now + heartbeatInterval)).goto p .create)
  | unregistered {p : P} {r : Reply} {e : Error} : s.gone p = false → s.pc p = .start →
    r.error = some e →
    Moves d node s (.register p r) ((s.heartbeat d (node p) r).goto p (.done (.error e)))
  | led {p : P} : s.gone p = false → leaderKey d ∉ s.etcd →
    Moves d node s (.create p .done)
      ({ s with etcd := s.etcd.insert (leaderKey d) Discovery.startedState }.goto p (.done (.ok [])))
  | followed {p : P} {r : Reply} {pc : Pc} {e : Etcd} : s.gone p = false →
    (∀ peers, pc ≠ .done (.ok peers)) →
    e = s.etcd ∨ e = s.etcd.insert (leaderKey d) Discovery.startedState →
    Moves d node s (.create p r) ({ s with etcd := e }.goto p pc)
  | listed {p : P} {r : Reply} {order : List Node} {resp : Except Error (Option (List Node))} :
    s.gone p = false → order.Perm (s.etcd.children d.dir) →
    resp = .ok (some order) ∨ (∃ e, resp = .error e) →
    Moves d node s (.get p r order) (s.goto p (.done ((d.discoverer (node p)).findPeers resp)))
  | beat {p : P} {r : Reply} {t : Nat} : s.gone p = false → s.ticker p = some t → t ≤ s.now →
    Moves d node s (.heartbeat p r)
      { (s.heartbeat d (node p) r).setTicker p (t + heartbeatInterval) with
        missed := Function.update s.missed p (if r.carriedOut then 0 else s.missed p + 1) }
  | died {p : P} : Moves d node s (.die p) { s with gone := Function.update s.gone p true }
  | waited {n : Nat} : Moves d node s (.wait n) { s with
      now := s.now + n
      etcd := expire s.etcd fun k => (s.expires k).any (· ≤ s.now + n) }

/-- What `Do` makes of the answer to `Create`. -/
theorem created_tryCreate {e : Etcd} {k : List GoString} {r : Reply} :
    (r = .done ∧ k ∉ e ∧ tryCreate e k r =
      (e.insert k Discovery.startedState, some Discovery.startedState, none)) ∨
    (∀ peers, Discoverer.created (tryCreate e k r).2.1 (tryCreate e k r).2.2 ≠ some (.ok peers)) ∧
      ((tryCreate e k r).1 = e ∨ (tryCreate e k r).1 = e.insert k Discovery.startedState) := by
  have hfails : ∀ err peers, Discoverer.created none (some err) ≠ some (.ok peers) := by
    intro err peers
    by_cases herr : err = .etcd Discovery.ecodeNodeExist <;>
      simp [Discoverer.created, Option.filter, herr]
  by_cases hk : k ∈ e
  · refine .inr ?_
    cases r <;> simp [tryCreate, Reply.carriedOut, Reply.error, Etcd.create, hk, hfails]
  · cases r with
    | done =>
      exact .inl ⟨rfl, hk, by simp [tryCreate, Reply.carriedOut, Reply.error, Etcd.create, hk]⟩
    | _ =>
      refine .inr ?_
      simp [tryCreate, Reply.carriedOut, Reply.error, Etcd.create, hk, hfails]

theorem step_moves {a : Action P} (h : step d node s a = some s') : Moves d node s a s' := by
  cases a with
  | register p r =>
    simp only [step] at h
    split at h
    · cases h
    next hidle =>
    simp only [not_or, Bool.not_eq_true, not_not] at hidle
    cases r <;> cases h
    · exact .registered hidle.1 hidle.2
    · exact .unregistered hidle.1 hidle.2 rfl
    · exact .unregistered hidle.1 hidle.2 rfl
  | create p r =>
    simp only [step] at h
    split at h
    · cases h
    next hidle =>
    simp only [not_or, Bool.not_eq_true, not_not] at hidle
    cases h
    rw [d.locate_leaderKey]
    obtain ⟨rfl, hfree, heq⟩ | ⟨hcreated, hetcd⟩ := created_tryCreate (e := s.etcd)
      (k := leaderKey d) (r := r)
    · rw [← leaderKey, heq]
      simp only [Discovery.created_started]
      exact .led hidle.1 hfree
    · refine .followed hidle.1 (fun peers => ?_) hetcd
      split
      · next result hresult =>
        intro h
        cases h
        exact hcreated peers hresult
      · simp
  | get p r order =>
    simp only [step] at h
    split at h
    · cases h
    next hidle =>
    simp only [not_or, Bool.not_eq_true, not_not] at hidle
    cases h
    refine .listed hidle.1 hidle.2.2 ?_
    cases r with
    | done =>
      simp only [Reply.error, Etcd.get]
      split
      · exact .inl rfl
      · exact .inr ⟨_, rfl⟩
    | _ => exact .inr ⟨_, rfl⟩
  | heartbeat p r =>
    simp only [step] at h
    split at h
    · next t ht =>
      split at h
      · cases h
      next hidle =>
      simp only [not_or, Bool.not_eq_true, Nat.not_lt] at hidle
      cases h
      exact .beat hidle.1 ht hidle.2
    · cases h
  | die p =>
    cases h
    exact .died
  | wait n =>
    cases h
    exact .waited

/-! ## Who leads -/

/-- The one process that was told it leads has created the state key, which stays. What
the keys hold are addresses of the nodes, and so is what was listed. -/
structure Elected (d : Discovery N) (node : P → N) (s : State P N) : Prop where
  kept : s.expires (leaderKey d) = none
  led : ∀ {p}, s.pc p = .done (.ok []) → leaderKey d ∈ s.etcd
  unique : ∀ {p q}, s.pc p = .done (.ok []) → s.pc q = .done (.ok []) → p = q
  values : ∀ {k v}, s.etcd.lookup k = some v → d.dir <+: k →
    k = leaderKey d ∨ ∃ n, k = key d n ∧ v = d.peer n
  listed : ∀ {p peers}, s.pc p = .done (.ok peers) → ∀ a ∈ peers, ∃ n, n ≠ node p ∧ a = d.peer n

omit [DecidableEq N] in
/-- A process goes on without becoming the leader. -/
theorem Elected.goto {pc : Pc} (h : Elected d node s) (hne : pc ≠ .done (.ok []))
    (hlisted : ∀ peers, pc = .done (.ok peers) → ∀ a ∈ peers, ∃ n, n ≠ node p ∧ a = d.peer n) :
    Elected d node (s.goto p pc) := by
  have hother : ∀ {q}, (s.goto p pc).pc q = .done (.ok []) → q ≠ p ∧ s.pc q = .done (.ok []) := by
    intro q hq
    by_cases hqp : q = p
    · subst hqp
      exact absurd (by simpa [State.goto] using hq) hne
    · exact ⟨hqp, by simpa [State.goto, hqp] using hq⟩
  refine ⟨h.kept, fun hq => h.led (hother hq).2, fun hq hq' => h.unique (hother hq).2 (hother hq').2,
    h.values, fun {q peers} hq => ?_⟩
  by_cases hqp : q = p
  · subst hqp
    exact hlisted peers (by simpa [State.goto] using hq)
  · exact h.listed (by simpa [State.goto, hqp] using hq)

omit [DecidableEq P] in
/-- The key of a node is set. -/
theorem Elected.heartbeat (h : Elected d node s) (n : N) (r : Reply) :
    Elected d node (s.heartbeat d n r) := by
  have hkept : (s.heartbeat d n r).expires (leaderKey d) = none := by
    rw [State.expires_heartbeat]
    split
    · rw [Function.update_of_ne (key_ne_leaderKey n).symm, h.kept]
    · exact h.kept
  have hpc : (s.heartbeat d n r).pc = s.pc := by cases r <;> rfl
  refine ⟨hkept, fun hp => ?_, fun hp hq => ?_, fun {k v} hk hdir => ?_, fun hp => ?_⟩
  · rw [State.etcd_heartbeat]
    split
    · exact (AList.mem_insert _).2 (.inr (h.led (hpc ▸ hp)))
    · exact h.led (hpc ▸ hp)
  · exact h.unique (hpc ▸ hp) (hpc ▸ hq)
  · rw [State.etcd_heartbeat] at hk
    split at hk
    · by_cases hkey : k = key d n
      · subst hkey
        rw [AList.lookup_insert] at hk
        exact .inr ⟨n, rfl, (Option.some.inj hk).symm⟩
      · exact h.values (by rwa [AList.lookup_insert_ne hkey] at hk) hdir
    · exact h.values hk hdir
  · exact h.listed (hpc ▸ hp)

omit [DecidableEq N] in
theorem Elected.setTicker {t : Nat} (h : Elected d node s) : Elected d node (s.setTicker p t) :=
  ⟨h.kept, h.led, h.unique, h.values, h.listed⟩

omit [DecidableEq P] [DecidableEq N] in
/-- The state key is made. -/
theorem Elected.insert (h : Elected d node s) : Elected d node
    { s with etcd := s.etcd.insert (leaderKey d) Discovery.startedState } := by
  refine ⟨h.kept, fun hp => (AList.mem_insert _).2 (.inr (h.led hp)), h.unique,
    fun {k v} hk hdir => ?_, h.listed⟩
  by_cases hkey : k = leaderKey d
  · exact .inl hkey
  · exact h.values (by rwa [AList.lookup_insert_ne hkey] at hk) hdir

omit [DecidableEq P] [DecidableEq N] in
/-- What a listing shows of others. -/
theorem Elected.findPeers {order : List Node} {peers : List GoString} (h : Elected d node s)
    (horder : order.Perm (s.etcd.children d.dir))
    (hpeers : (d.discoverer n).findPeers (.ok (some order)) = .ok peers) :
    ∀ a ∈ peers, ∃ m, m ≠ n ∧ a = d.peer m := by
  have heq : peers =
      (order.filter fun m => !(slash :: d.name n).isSuffixOf m.key).map (·.value) := by
    simp only [Discoverer.findPeers] at hpeers
    split at hpeers
    · cases hpeers
    · exact (Except.ok.inj hpeers).symm
  intro a ha
  rw [heq] at ha
  obtain ⟨nd, hnd, rfl⟩ := List.mem_map.1 ha
  obtain ⟨hmem, hown⟩ := List.mem_filter.1 hnd
  obtain ⟨⟨k, v⟩, hkv, rfl⟩ := List.mem_map.1 (horder.mem_iff.1 hmem)
  obtain ⟨hentry, hshows⟩ := List.mem_filter.1 hkv
  have hdir : d.dir <+: k := by
    simp only [Etcd.shows, Bool.and_eq_true] at hshows
    exact List.isPrefixOf_iff_prefix.1 hshows.1.1
  obtain rfl | ⟨m, rfl, rfl⟩ := h.values (AList.mem_lookup_iff.2 hentry) hdir
  · rw [leaderKey, Discovery.shows_stateKey] at hshows
    cases hshows
  · refine ⟨m, ?_, rfl⟩
    rintro rfl
    have hsuffix : slash :: d.name m <:+ Path.absolute slash (key d m) :=
      (Path.suffix_absolute_iff (d.name_plain m).2.1 (d.name_plain m).2.1).2 rfl
    simp [List.isSuffixOf_iff_suffix.2 hsuffix] at hown

theorem Elected.step {a : Action P} (h : Elected d node s) (hstep : step d node s a = some s') :
    Elected d node s' := by
  cases step_moves hstep with
  | registered hgone hpc => exact (h.heartbeat _ _).setTicker.goto (by simp) (by simp)
  | unregistered hgone hpc herror => exact (h.heartbeat _ _).goto (by simp) (by simp)
  | @led p hgone hfree =>
    -- nobody leads where the state key is not there
    have hnone : ∀ q, s.pc q ≠ .done (.ok []) := fun q hq => hfree (h.led hq)
    have hself : ∀ {q}, Function.update s.pc p (.done (.ok [])) q = .done (.ok []) → q = p := by
      intro q hq
      by_contra hqp
      exact hnone q (by simpa [hqp] using hq)
    refine ⟨h.kept, fun _ => (AList.mem_insert _).2 (.inl rfl), fun hq hq' => ?_, h.insert.values,
      fun {q peers} hq => ?_⟩
    · rw [hself hq, hself hq']
    · by_cases hqp : q = p
      · subst hqp
        obtain rfl : [] = peers := by simpa [State.goto] using hq
        simp
      · exact h.listed (by simpa [State.goto, hqp] using hq)
  | @followed p r pc e hgone hpeers hetcd =>
    have h' : Elected d node { s with etcd := e } := by
      obtain rfl | rfl := hetcd
      · exact h
      · exact h.insert
    exact h'.goto (hpeers []) fun peers hpc => absurd hpc (hpeers peers)
  | @listed p r order resp hgone horder hresp =>
    refine h.goto (fun hpc => Discovery.findPeers_ne_nil _ _ (Pc.done.inj hpc))
      fun peers hpeers => ?_
    obtain rfl | ⟨e, rfl⟩ := hresp
    · exact h.findPeers horder (Pc.done.inj hpeers)
    · cases hpeers
  | @beat p r t hgone ht hnow =>
    have h' := h.heartbeat (node p) r
    exact ⟨h'.kept, h'.led, h'.unique, h'.values, h'.listed⟩
  | died => exact ⟨h.kept, h.led, h.unique, h.values, h.listed⟩
  | @waited n =>
    refine ⟨h.kept, fun hp => ?_, h.unique, fun hk hdir => ?_, h.listed⟩
    · rw [← AList.lookup_isSome, lookup_expire]
      simpa [h.kept] using AList.lookup_isSome.2 (h.led hp)
    · rw [lookup_expire] at hk
      split at hk
      · cases hk
      · exact h.values hk hdir

omit [DecidableEq P] [DecidableEq N] in
theorem elected_init : Elected d node (init d) := by
  refine ⟨rfl, fun hp => ?_, fun hp => ?_, fun {k v} hk hdir => ?_, fun hp => ?_⟩
  · cases hp
  · cases hp
  · have hmem : k ∈ d.etcd := AList.lookup_isSome.1 (Option.isSome_of_mem hk)
    exact absurd hdir (d.etcd_empty k hmem)
  · cases hp

/-- In the whole life of a discovery, with all the processes that start and die and all the
requests that fail, at most one call of `Do` returns as the leader. Whatever the others
return are addresses of other nodes. -/
theorem leader_once {acts : List (Action P)}
    (hrun : Transition.run (step d node) (init d) acts = some s) :
    (∀ p q, s.pc p = .done (.ok []) → s.pc q = .done (.ok []) → p = q) ∧
    ∀ p peers, s.pc p = .done (.ok peers) → ∀ a ∈ peers, ∃ n, n ≠ node p ∧ a = d.peer n := by
  have h : Elected d node s := Transition.Reachable.invariant
    (fun _ _ _ _ h hstep => Elected.step h hstep) elected_init ⟨_, hrun⟩
  exact ⟨fun _ _ => h.unique, fun _ _ => h.listed⟩

/-- Four processes, two of each node of `Discovery.pair`. -/
def pairNode (p : Fin 4) : Bool := p < 2

/-- The first process leads and dies. A week later the second one comes, which is told
that the state key is there, and so does the third. -/
def againRun : List (Action (Fin 4)) :=
  [.register 0 .done, .create 0 .done, .die 0, .wait defaultTTL, .register 1 .done,
    .create 1 .done, .register 2 .done, .create 2 (.lost (.etcd Discovery.ecodeNodeExist)),
    .get 1 .done [⟨str "/cluster/v2/keys/cluster/1", str "10.0.0.2"⟩,
      ⟨str "/cluster/v2/keys/cluster/hub-1", str "10.0.0.1"⟩]]

theorem leader_once_againRun :
    ∃ s, Transition.run (step .pair pairNode) (init .pair) againRun = some s ∧
      s.pc 1 = .done (.ok [str "10.0.0.2"]) ∧ ∀ q, s.pc q = .done (.ok []) → q = 0 := by
  have heval : (Transition.run (step .pair pairNode) (init .pair) againRun).map (fun s =>
      decide (s.pc 0 = .done (.ok []) ∧ s.pc 1 = .done (.ok [str "10.0.0.2"]))) = some true := by
    decide +kernel
  obtain ⟨s, hrun, heval⟩ := Option.map_eq_some_iff.1 heval
  obtain ⟨hled, hlisted⟩ := of_decide_eq_true heval
  exact ⟨s, hrun, hlisted, fun q hq => (leader_once hrun).1 q 0 hq hled⟩

-- The node that has led comes back alone. It is not told that it leads, and finds nobody.
example :
    (Transition.run (step .pair pairNode) (init .pair) [.register 0 .done, .create 0 .done, .die 0,
      .register 1 .done, .create 1 .done, .get 1 .done [⟨str "/cluster/v2/keys/cluster/hub-1",
        str "10.0.0.1"⟩]]).map (·.pc 1) = some (.done (.error (.text (str
      "Discovery found an initialized cluster but no peers are registered.")))) := by
  decide +kernel

/-! ## Who is listed -/

/-- Time does not pass by a ticker that fires, and no process fails to set its key seven
times in a row. -/
def Punctual (s : State P N) : Action P → Prop
  | .wait n => ∀ p, s.gone p = false → (s.ticker p).all (s.now + n ≤ ·)
  | .heartbeat p r => r.carriedOut ∨ s.missed p < 6
  | _ => True

instance [Fintype P] (s : State P N) (a : Action P) : Decidable (Punctual s a) := by
  unfold Punctual
  split <;> infer_instance

/-- A key that was set last at that time is there now. -/
def fresh (ttl now : Nat) (lastSet : Option Nat) : Bool := lastSet.any (now < · + ttl)

theorem fresh_some {ttl now t : Nat} : fresh ttl now (some t) = true ↔ now < t + ttl := by
  simp [fresh]

/-- A key stays fresh until it expires. -/
theorem fresh_add {ttl now n : Nat} (o : Option Nat) : fresh ttl (now + n) o =
    (!(o.map (· + ttl)).any (· ≤ now + n) && fresh ttl now o) := by
  cases o with
  | none => rfl
  | some t =>
    rw [Bool.eq_iff_iff, Bool.and_eq_true, fresh_some, fresh_some]
    simp only [Option.map_some, Option.any_some, Bool.not_eq_true', decide_eq_false_iff_not]
    omega

/-- A key is there for one TTL from when it was set last. A process has set the key of its
node not longer ago than its ticker and the heartbeats it has missed tell. -/
structure Registered (d : Discovery N) (node : P → N) (s : State P N) : Prop where
  own : ∀ n, s.etcd.lookup (key d n) =
    if fresh defaultTTL s.now (s.lastSet n) then some (d.peer n) else none
  expires : ∀ n, s.expires (key d n) = (s.lastSet n).map (· + defaultTTL)
  past : ∀ {n t}, s.lastSet n = some t → t ≤ s.now
  missed : ∀ p, s.missed p ≤ 6
  ticking : ∀ {p t}, s.gone p = false → s.ticker p = some t → s.now ≤ t ∧
    ∃ t₀, s.lastSet (node p) = some t₀ ∧ t ≤ t₀ + heartbeatInterval * (s.missed p + 1)

omit [DecidableEq P] in
/-- The key of a node is set. -/
theorem Registered.set (h : Registered d node s) (n : N) {r : Reply} (hr : r.carriedOut = true) :
    Registered d node (s.heartbeat d n r) ∧ (s.heartbeat d n r).lastSet n = some s.now := by
  have hlast : (s.heartbeat d n r).lastSet = Function.update s.lastSet n (some s.now) := by
    simp [State.heartbeat, hr]
  have hframe : (s.heartbeat d n r).now = s.now ∧ (s.heartbeat d n r).missed = s.missed ∧
      (s.heartbeat d n r).gone = s.gone ∧ (s.heartbeat d n r).ticker = s.ticker := by
    simp [State.heartbeat, hr]
  obtain ⟨hnow, hmissed, hgone, hticker⟩ := hframe
  refine ⟨⟨fun m => ?_, fun m => ?_, fun {m t} ht => ?_, fun p => ?_, fun {p t} hp ht => ?_⟩, ?_⟩
  · rw [State.etcd_heartbeat, if_pos hr, hlast, hnow]
    by_cases hm : m = n
    · subst hm
      rw [AList.lookup_insert, Function.update_self,
        if_pos (fresh_some.2 (Nat.lt_add_of_pos_right (by decide)))]
    · rw [AList.lookup_insert_ne (key_injective.ne hm), h.own m]
      simp [hm]
  · rw [State.expires_heartbeat, if_pos hr, hlast]
    by_cases hm : m = n
    · subst hm
      simp
    · simp [hm, key_injective.ne hm, h.expires m]
  · rw [hlast] at ht
    rw [hnow]
    by_cases hm : m = n
    · subst hm
      simp at ht
      omega
    · exact h.past (by simpa [hm] using ht)
  · rw [hmissed]
    exact h.missed p
  · rw [hgone] at hp
    rw [hticker] at ht
    obtain ⟨hle, t₀, ht₀, hbound⟩ := h.ticking hp ht
    rw [hnow, hmissed, hlast]
    refine ⟨hle, ?_⟩
    by_cases hm : node p = n
    · subst hm
      have hpast := h.past ht₀
      exact ⟨s.now, by simp, hbound.trans (Nat.add_le_add_right hpast _)⟩
    · exact ⟨t₀, by simpa [hm] using ht₀, hbound⟩
  · simp [hlast]

omit [DecidableEq P] in
theorem Registered.heartbeat (h : Registered d node s) (n : N) (r : Reply) :
    Registered d node (s.heartbeat d n r) := by
  by_cases hr : r.carriedOut = true
  · exact (h.set n hr).1
  · simpa [State.heartbeat, hr] using h

omit [DecidableEq N] in
/-- The ticker of a process is set. -/
theorem Registered.setTicker {t k : Nat} (h : Registered d node s) (hnow : s.now ≤ t) (hk : k ≤ 6)
    (hlast : ∃ t₀, s.lastSet (node p) = some t₀ ∧ t ≤ t₀ + heartbeatInterval * (k + 1)) :
    Registered d node { s.setTicker p t with missed := Function.update s.missed p k } := by
  refine ⟨h.own, h.expires, h.past, fun q => ?_, fun {q t'} hq ht' => ?_⟩
  · by_cases hqp : q = p
    · subst hqp
      simpa using hk
    · simpa [hqp] using h.missed q
  · by_cases hqp : q = p
    · subst hqp
      obtain rfl : t = t' := by simpa [State.setTicker] using ht'
      exact ⟨hnow, by simpa [State.setTicker] using hlast⟩
    · simpa [State.setTicker, hqp] using h.ticking hq (by simpa [State.setTicker, hqp] using ht')

omit [DecidableEq P] [DecidableEq N] in
theorem Registered.wait {k : Nat} (h : Registered d node s)
    (hg : ∀ p, s.gone p = false → (s.ticker p).all (s.now + k ≤ ·)) :
    Registered d node { s with
      now := s.now + k
      etcd := expire s.etcd fun k' => (s.expires k').any (· ≤ s.now + k) } := by
  refine ⟨fun n => ?_, h.expires, fun ht => (h.past ht).trans (Nat.le_add_right _ _), h.missed,
    fun {p t} hp ht => ⟨?_, (h.ticking hp ht).2⟩⟩
  · rw [lookup_expire, h.expires n, h.own n, fresh_add]
    cases ((s.lastSet n).map (· + defaultTTL)).any (· ≤ s.now + k) <;> rfl
  · have hall := hg p hp
    rw [ht] at hall
    simpa using hall

theorem Registered.step {a : Action P} (h : Registered d node s) (hg : Punctual s a)
    (hstep : step d node s a = some s') : Registered d node s' := by
  cases step_moves hstep with
  | @registered p hgone hpc =>
    obtain ⟨h', hlast⟩ := h.set (node p) (r := .done) rfl
    have hticks := h'.setTicker (p := p) (t := s.now + heartbeatInterval) (Nat.le_add_right _ _)
      (h'.missed p) ⟨s.now, hlast, by rw [Nat.mul_add]; omega⟩
    rw [Function.update_eq_self] at hticks
    exact ⟨hticks.own, hticks.expires, hticks.past, hticks.missed, hticks.ticking⟩
  | @unregistered p r e hgone hpc herror =>
    have h' := h.heartbeat (node p) r
    exact ⟨h'.own, h'.expires, h'.past, h'.missed, h'.ticking⟩
  | @led p hgone hfree =>
    refine ⟨fun n => ?_, h.expires, h.past, h.missed, h.ticking⟩
    exact (AList.lookup_insert_ne (key_ne_leaderKey n)).trans (h.own n)
  | @followed p r pc e hgone hpeers hetcd =>
    refine ⟨fun n => ?_, h.expires, h.past, h.missed, h.ticking⟩
    obtain rfl | rfl := hetcd
    · exact h.own n
    · exact (AList.lookup_insert_ne (key_ne_leaderKey n)).trans (h.own n)
  | listed hgone horder hresp => exact ⟨h.own, h.expires, h.past, h.missed, h.ticking⟩
  | @beat p r t hgone ht hnow =>
    obtain ⟨hle, t₀, ht₀, hbound⟩ := h.ticking hgone ht
    by_cases hr : r.carriedOut = true
    · obtain ⟨h', hlast⟩ := h.set (node p) hr
      have hframe : (s.heartbeat d (node p) r).missed = s.missed ∧
          (s.heartbeat d (node p) r).now = s.now := by simp [State.heartbeat, hr]
      rw [if_pos hr, ← hframe.1]
      exact h'.setTicker (by omega) (Nat.zero_le _) ⟨s.now, hlast, by omega⟩
    · have hsame : s.heartbeat d (node p) r = s := by simp [State.heartbeat, hr]
      rw [if_neg hr, hsame]
      have hmissed : s.missed p < 6 := hg.resolve_left hr
      exact h.setTicker (by omega) hmissed ⟨t₀, ht₀, by rw [Nat.mul_add]; omega⟩
  | @died p =>
    refine ⟨h.own, h.expires, h.past, h.missed, fun {q t} hgone ht => h.ticking ?_ ht⟩
    by_cases hqp : q = p
    · simp [hqp] at hgone
    · simpa [hqp] using hgone
  | waited => exact h.wait hg

omit [DecidableEq P] [DecidableEq N] in
theorem registered_init : Registered d node (init d) := by
  refine ⟨fun n => ?_, fun n => rfl, fun ht => ?_, fun p => Nat.zero_le _, fun _ ht => ?_⟩
  · have hfree : key d n ∉ d.etcd := fun hmem => d.etcd_empty _ hmem (List.prefix_append ..)
    simpa [init, fresh] using AList.lookup_eq_none.2 hfree
  · cases ht
  · cases ht

/-- The first process registers and misses six heartbeats. -/
def missedRun : List (Action (Fin 4)) :=
  .register 0 .done :: (List.replicate 6 [.wait heartbeatInterval,
    .heartbeat 0 (.refused (.etcd Discovery.ecodeKeyNotFound))]).flatten ++
  [.wait heartbeatInterval]

-- After a seventh the key is gone when the ticker fires.
example :
    (Transition.run (step .pair pairNode) (init .pair) (missedRun ++
      [.heartbeat 0 (.refused (.etcd Discovery.ecodeKeyNotFound)), .wait heartbeatInterval])).map
      (fun s => decide (s.ticker 0 = some s.now ∧ key .pair true ∉ s.etcd)) = some true := by
  decide +kernel

end Registration
