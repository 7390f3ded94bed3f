-- SUMMARY: Discovery over etcd (`discovery.go`): register, try to create the state key, list the others; one node leads and the rest learn of it.
import Mathlib.Data.List.AList
import Mathlib.Data.Finset.Image
import Mathlib.Data.Fintype.Basic
import Mhub.Base.Path
import Mhub.Base.Transition
import Mhub.Proto

/-!
# Discovery

Every node that starts runs `Discoverer.Do`: it sets its own key, tries to create the
state key that all share, and if that was there already it lists the keys of the
others. The requests of the nodes interleave in any order; each is one step of an etcd
that is a map from node paths to values.

Requests name their keys by text, which the client and the server turn into a path.
`Do` hands the whole discovery URL to the client, not only its scheme and host, and the
client puts `/v2/keys/` and the key behind it. So what the server looks up is a path
under `base`, which comes from the path of the URL; it is the same for all nodes, which
use one discovery URL. A listing has the children of a directory in any order
and hides those whose name starts with an underscore. All keys under the directory of
the discovery are its children.
-/

namespace Discovery

def keyPrefix : GoString := str "/v2/keys/"
def stateKey : GoString := str "_state"
def startedState : GoString := str "started"

/-- The byte of the dot in paths. -/
def dot : UInt8 := 0x2E

/-- The byte that starts the name of a hidden key. -/
def underscore : UInt8 := 0x5F

/-- `strings.TrimPrefix`. -/
def trimPrefix (s t : GoString) : GoString := if t.isPrefixOf s then s.drop t.length else s

abbrev join : List GoString → GoString := Path.join slash dot

/-! ## etcd -/

/-- The errors of the client and of `findPeers`. -/
inductive Error where
  | etcd (errorCode : Nat)
  | text (msg : GoString)
  deriving DecidableEq, Repr

def ecodeKeyNotFound : Nat := 100
def ecodeNodeExist : Nat := 105

/-- A node of a listing: its key and its value. -/
structure Node where
  key : GoString
  value : GoString
  deriving DecidableEq, Repr

abbrev Etcd := AList fun _ : List GoString => GoString

namespace Etcd

variable (e : Etcd)

def set (k : List GoString) (v : GoString) : Etcd := e.insert k v

/-- Make a key that is not there. The value of the new node is the response; if the
key exists the response is nil. -/
def create (k : List GoString) (v : GoString) : Etcd × Option GoString × Option Error :=
  if k ∈ e then (e, none, some (.etcd ecodeNodeExist)) else (e.insert k v, some v, none)

/-- A listing of `dir` shows the key `k`. -/
def shows (dir k : List GoString) : Bool :=
  dir.isPrefixOf k && k.length == dir.length + 1 &&
    (k.getLast?.bind List.head?) != some underscore

def children (dir : List GoString) : List Node :=
  (e.entries.filter fun kv => shows dir kv.1).map fun kv => ⟨Path.absolute slash kv.1, kv.2⟩

/-- List a directory; `order` is the order of the listing. -/
def get (dir : List GoString) (order : List Node) : Except Error (Option (List Node)) :=
  if e.keys.any dir.isPrefixOf then .ok (some order) else .error (.etcd ecodeKeyNotFound)

end Etcd

/-! ## `Discoverer` -/

structure Discoverer where
  name : GoString
  peer : GoString
  keysPrefix : GoString
  deriving DecidableEq, Repr

/-- What `Do` sets up from the path of the discovery URL. -/
def Discoverer.new (path name peer : GoString) : Discoverer :=
  -- this is put before all keys of this discovery
  ⟨name, peer, trimPrefix path keyPrefix⟩

namespace Discoverer

variable (this : Discoverer)

/-- The key that `heartbeat` sets. -/
def ownKey : GoString := join [this.keysPrefix, this.name]

/-- The key that `Do` creates. -/
def leaderKey : GoString := join [this.keysPrefix, stateKey]

/-- What `Do` returns on the answer to `Create`, if it does not fall through to
`findPeers`. -/
def created (resp : Option GoString) (err : Option Error) :
    Option (Except Error (List GoString)) :=
  match err.filter (· ≠ .etcd ecodeNodeExist) with
  -- bail out on unexpected errors
  | some e => some (.error e)
  -- if we got a response then the CAS was successful, we are leader
  | none => if resp = some startedState then some (.ok []) else none

/-- `findPeers`, on the answer to `Get`. -/
def findPeers (resp : Except Error (Option (List Node))) : Except Error (List GoString) :=
  match resp with
  | .error e => .error e
  | .ok none => .error (.text (this.keysPrefix ++ str " key doesn't exist."))
  | .ok (some nodes) =>
    -- skip our own entry in the list, there is no point
    let peers := (nodes.filter fun n => !(slash :: this.name).isSuffixOf n.key).map (·.value)
    if peers.length = 0 then
      .error (.text (str "Discovery found an initialized cluster but no peers are registered."))
    else .ok peers

end Discoverer

end Discovery

/-! ## The nodes -/

/-- A discovery: nodes with their names and peer addresses, one discovery URL, and an
etcd with nothing under its prefix. -/
structure Discovery (N : Type) where
  base : List GoString
  /-- The path of the discovery URL. -/
  path : GoString
  name : N → GoString
  peer : N → GoString
  etcd : Discovery.Etcd
  name_injective : Function.Injective name
  name_plain : ∀ n, Path.Plain slash Discovery.dot (name n)
  name_shown : ∀ n, (name n).head? ≠ some Discovery.underscore
  etcd_empty : ∀ k ∈ etcd, ¬ Path.resolve slash Discovery.dot base
    (Discovery.join [Discovery.trimPrefix path Discovery.keyPrefix]) <+: k

namespace Discovery

/-- Where a call of `Do` stands. -/
inductive Pc where
  | start
  | create
  | get
  | done (result : Except Error (List GoString))
  deriving DecidableEq

structure State (N : Type) where
  etcd : Etcd
  pc : N → Pc
  /-- The node whose `Create` succeeded. -/
  creator : Option N := none

inductive Action (N : Type) where
  /-- The first `heartbeat`. -/
  | register (n : N)
  | create (n : N)
  | get (n : N) (order : List Node)
  /-- A `heartbeat` of the goroutine that `Do` starts. -/
  | heartbeat (n : N)

variable {N : Type} (d : Discovery N)

def discoverer (n : N) : Discoverer := .new d.path (d.name n) (d.peer n)

/-- The node of etcd that a key of a request means. -/
def locate (key : GoString) : List GoString := Path.resolve slash dot d.base key

/-- The directory that `findPeers` lists. -/
def dir : List GoString := d.locate (join [trimPrefix d.path keyPrefix])

theorem locate_ownKey (n : N) : d.locate (d.discoverer n).ownKey = d.dir ++ [d.name n] :=
  Path.resolve_join _ _ (d.name_plain n)

theorem stateKey_plain : Path.Plain slash dot stateKey := by decide +kernel

theorem locate_leaderKey (n : N) : d.locate (d.discoverer n).leaderKey = d.dir ++ [stateKey] :=
  Path.resolve_join _ _ stateKey_plain

theorem name_ne_stateKey (n : N) : d.name n ≠ stateKey := by
  intro h
  exact d.name_shown n (by rw [h]; decide +kernel)

theorem shows_name (n : N) : Etcd.shows d.dir (d.dir ++ [d.name n]) = true := by
  simp [Etcd.shows, d.name_shown n]

theorem shows_stateKey (k : List GoString) : Etcd.shows k (k ++ [stateKey]) = false := by
  have h : stateKey.head? = some underscore := by decide +kernel
  simp [Etcd.shows, h]

/-! ## Runs -/

variable [DecidableEq N]

def init : State N where
  etcd := d.etcd
  pc := fun _ => .start

def State.heartbeat (s : State N) (n : N) : State N :=
  { s with etcd := s.etcd.set (d.locate (d.discoverer n).ownKey) (d.discoverer n).peer }

def State.goto (s : State N) (n : N) (pc : Pc) : State N :=
  { s with pc := Function.update s.pc n pc }

def step (s : State N) : Action N → Option (State N)
  | .register n => if s.pc n = .start then some ((s.heartbeat d n).goto n .create) else none
  | .create n =>
    if s.pc n = .create then
      let r := s.etcd.create (d.locate (d.discoverer n).leaderKey) startedState
      some ({ s with
        etcd := r.1
        creator := if r.2.2 = none then some n else s.creator }.goto n
          (match Discoverer.created r.2.1 r.2.2 with
            | some result => .done result
            | none => .get))
    else none
  | .get n order =>
    if s.pc n = .get ∧ order.Perm (s.etcd.children d.dir) then
      some (s.goto n (.done ((d.discoverer n).findPeers (s.etcd.get d.dir order))))
    else none
  | .heartbeat n => if s.pc n = .start then none else some (s.heartbeat d n)

theorem created_started : Discoverer.created (some startedState) none = some (.ok []) := by
  simp [Discoverer.created]

/-- Only a leader gets no peers without an error. -/
theorem findPeers_ne_nil (this : Discoverer) (resp : Except Error (Option (List Node))) :
    this.findPeers resp ≠ .ok [] := by
  unfold Discoverer.findPeers
  split
  · nofun
  · nofun
  · dsimp only
    split
    · nofun
    · next hlen =>
      intro h
      exact hlen (by rw [Except.ok.inj h]; rfl)

/-! ## The invariant -/

/-- Who leads and who looks for the others. -/
structure Roles (pc : N → Pc) (creator : Option N) : Prop where
  leader : ∀ n, pc n = .done (.ok []) ↔ creator = some n
  looking : ∀ n, pc n = .get → creator ≠ none

structure Inv (s : State N) : Prop where
  own : ∀ n, s.etcd.lookup (d.dir ++ [d.name n]) =
    if s.pc n = .start then none else some (d.peer n)
  state : s.etcd.lookup (d.dir ++ [stateKey]) = s.creator.map fun _ => startedState
  keys : ∀ k ∈ s.etcd, d.dir <+: k → k = d.dir ++ [stateKey] ∨ ∃ n, k = d.dir ++ [d.name n]
  roles : Roles s.pc s.creator

variable {d} {s s' : State N} {n : N}

omit [DecidableEq N] in
theorem inv_init : Inv d d.init where
  own n := by
    have hnot : d.dir ++ [d.name n] ∉ d.etcd := fun h => d.etcd_empty _ h (List.prefix_append ..)
    simpa [init, AList.lookup_eq_none] using hnot
  state := by
    have hnot : d.dir ++ [stateKey] ∉ d.etcd := fun h => d.etcd_empty _ h (List.prefix_append ..)
    simpa [init, AList.lookup_eq_none] using hnot
  keys k hk hpre := absurd hpre (d.etcd_empty k hk)
  roles := ⟨fun n => by simp [init], fun n => by simp [init]⟩

/-! ### Steps -/

theorem step_cases {a : Action N} (h : d.step s a = some s') :
    (∃ n, a = .register n ∧ s.pc n = .start ∧
      s' = State.goto { s with etcd := s.etcd.insert (d.dir ++ [d.name n]) (d.peer n) } n .create) ∨
    (∃ n, a = .create n ∧ s.pc n = .create ∧ d.dir ++ [stateKey] ∉ s.etcd ∧
      s' = State.goto { s with
        etcd := s.etcd.insert (d.dir ++ [stateKey]) startedState
        creator := some n } n (.done (.ok []))) ∨
    (∃ n, a = .create n ∧ s.pc n = .create ∧ d.dir ++ [stateKey] ∈ s.etcd ∧
      s' = s.goto n .get) ∨
    (∃ n order, a = .get n order ∧ s.pc n = .get ∧ order.Perm (s.etcd.children d.dir) ∧
      s' = s.goto n (.done ((d.discoverer n).findPeers (s.etcd.get d.dir order)))) ∨
    ∃ n, a = .heartbeat n ∧ s.pc n ≠ .start ∧
      s' = { s with etcd := s.etcd.insert (d.dir ++ [d.name n]) (d.peer n) } := by
  cases a with
  | register n =>
    simp only [step, State.heartbeat, locate_ownKey, Etcd.set] at h
    split at h <;> cases h
    exact .inl ⟨n, rfl, ‹_›, rfl⟩
  | create n =>
    simp only [step, locate_leaderKey, Etcd.create] at h
    split at h
    · by_cases hmem : d.dir ++ [stateKey] ∈ s.etcd
      · simp only [if_pos hmem] at h
        cases h
        exact .inr (.inr (.inl ⟨n, rfl, ‹_›, hmem, rfl⟩))
      · simp only [if_neg hmem, created_started, ↓reduceIte] at h
        cases h
        exact .inr (.inl ⟨n, rfl, ‹_›, hmem, rfl⟩)
    · cases h
  | get n order =>
    simp only [step] at h
    split at h
    · next hget =>
      cases h
      exact .inr (.inr (.inr (.inl ⟨n, order, rfl, hget.1, hget.2, rfl⟩)))
    · cases h
  | heartbeat n =>
    simp only [step, State.heartbeat, locate_ownKey, Etcd.set] at h
    split at h <;> cases h
    exact .inr (.inr (.inr (.inr ⟨n, rfl, ‹_›, rfl⟩)))

section Roles

variable {pc : N → Pc} {creator : Option N} {p : Pc}

/-- A node goes on without becoming the leader. -/
theorem Roles.goto (h : Roles pc creator) (hn : pc n ≠ .done (.ok [])) (hp : p ≠ .done (.ok []))
    (hget : p = .get → creator ≠ none) : Roles (Function.update pc n p) creator where
  leader m := by
    by_cases hm : m = n
    · subst hm
      simpa [hp] using (h.leader m).not.1 hn
    · rw [Function.update_of_ne hm]
      exact h.leader m
  looking m hm := by
    by_cases hmn : m = n
    · subst hmn
      exact hget (by simpa using hm)
    · rw [Function.update_of_ne hmn] at hm
      exact h.looking m hm

/-- A node becomes the leader where there was none. -/
theorem Roles.lead (h : Roles pc none) (n : N) :
    Roles (Function.update pc n (.done (.ok []))) (some n) where
  leader m := by
    by_cases hm : m = n
    · simp [hm]
    · rw [Function.update_of_ne hm, h.leader m]
      simp [Ne.symm hm]
  looking := by simp

end Roles

/-- What a `heartbeat` sets is right for a node that is registered then. -/
theorem Inv.insert_own {pc : N → Pc} (h : Inv d s) (hn : pc n ≠ .start)
    (hpc : ∀ m, m ≠ n → pc m = s.pc m) (m : N) :
    (s.etcd.insert (d.dir ++ [d.name n]) (d.peer n)).lookup (d.dir ++ [d.name m]) =
      if pc m = .start then none else some (d.peer m) := by
  by_cases hm : m = n
  · subst hm
    simp [hn]
  · have hne : d.dir ++ [d.name m] ≠ d.dir ++ [d.name n] := by
      simpa using fun h => hm (d.name_injective h)
    rw [AList.lookup_insert_ne hne, h.own, hpc m hm]

omit [DecidableEq N] in
theorem Inv.insert_keys {k : List GoString} {v : GoString} (h : Inv d s)
    (hk : k = d.dir ++ [stateKey] ∨ ∃ n, k = d.dir ++ [d.name n]) :
    ∀ k' ∈ s.etcd.insert k v, d.dir <+: k' →
      k' = d.dir ++ [stateKey] ∨ ∃ n, k' = d.dir ++ [d.name n] := by
  intro k' hmem hpre
  obtain rfl | hmem := (AList.mem_insert _).1 hmem
  · exact hk
  · exact h.keys k' hmem hpre

/-- A node that is past its registration and goes on changes nothing in the map. -/
theorem Inv.own_goto {p : Pc} (h : Inv d s) (hn : s.pc n ≠ .start) (hp : p ≠ .start) (m : N) :
    s.etcd.lookup (d.dir ++ [d.name m]) =
      if Function.update s.pc n p m = .start then none else some (d.peer m) := by
  rw [h.own]
  by_cases hm : m = n
  · subst hm
    simp [hn, hp]
  · rw [Function.update_of_ne hm]

omit [DecidableEq N] in
theorem stateKey_ne (n : N) : d.dir ++ [stateKey] ≠ d.dir ++ [d.name n] := by
  simpa using (d.name_ne_stateKey n).symm

theorem Inv.step {a : Action N} (h : Inv d s) (hs : d.step s a = some s') : Inv d s' := by
  obtain ⟨n, -, hpc, rfl⟩ | ⟨n, -, hpc, hnew, rfl⟩ | ⟨n, -, hpc, hold, rfl⟩ |
    ⟨n, order, -, hpc, -, rfl⟩ | ⟨n, -, hpc, rfl⟩ := step_cases hs
  · -- `Set`
    refine ⟨h.insert_own (by simp [State.goto]) fun m hm => Function.update_of_ne hm .., ?_,
      h.insert_keys (.inr ⟨n, rfl⟩), h.roles.goto (by simp [hpc]) nofun nofun⟩
    exact (AList.lookup_insert_ne (stateKey_ne n)).trans h.state
  · -- `Create` of the first
    have hnone : s.creator = none := by
      have hlook := h.state
      rw [AList.lookup_eq_none.2 hnew] at hlook
      simpa using hlook.symm
    refine ⟨fun m => ?_, AList.lookup_insert _, h.insert_keys (.inl rfl), ?_⟩
    · refine (AList.lookup_insert_ne (stateKey_ne m).symm).trans ?_
      exact h.own_goto (n := n) (p := .done (.ok [])) (by simp [hpc]) nofun m
    · exact Roles.lead (hnone ▸ h.roles) n
  · -- `Create` of a later one
    refine ⟨h.own_goto (by simp [hpc]) nofun, h.state, h.keys,
      h.roles.goto (by simp [hpc]) nofun fun _ hnone => ?_⟩
    have hlook := h.state
    rw [hnone] at hlook
    exact AList.lookup_eq_none.1 hlook hold
  · -- `Get`
    exact ⟨h.own_goto (by simp [hpc]) nofun, h.state, h.keys,
      h.roles.goto (by simp [hpc]) (fun h => findPeers_ne_nil _ _ (Pc.done.inj h)) nofun⟩
  · -- a later `Set`
    refine ⟨h.insert_own hpc fun m hm => rfl, ?_, h.insert_keys (.inr ⟨n, rfl⟩), h.roles⟩
    exact (AList.lookup_insert_ne (stateKey_ne n)).trans h.state

theorem inv_of_reachable (hr : Transition.Reachable d.step d.init s) : Inv d s :=
  hr.invariant (I := Inv d) (fun _ _ _ _ h hs => h.step hs) inv_init

/-- The node whose `Create` succeeded stays that. -/
theorem creator_of_run {as : List (Action N)} (hr : Transition.Reachable d.step d.init s)
    (hrun : Transition.run d.step s as = some s') (hc : s.creator = some n) :
    s'.creator = some n := by
  refine hr.run_invariant (I := fun s => s.creator = some n) (G := fun _ _ => True) ?_ hc hrun
    (.of_forall (fun _ _ => trivial) _ _)
  intro s a s' hr hc _ hs
  obtain ⟨m, -, -, rfl⟩ | ⟨m, -, -, hnew, rfl⟩ | ⟨m, -, -, -, rfl⟩ | ⟨m, order, -, -, -, rfl⟩ |
    ⟨m, -, -, rfl⟩ := step_cases hs
  · exact hc
  · have hlook := (inv_of_reachable hr).state
    rw [AList.lookup_eq_none.2 hnew, hc] at hlook
    cases hlook
  · exact hc
  · exact hc
  · exact hc

/-! ## What a listing finds -/

variable [Fintype N]

/-- The nodes other than `n` that have set their keys. -/
def State.others (s : State N) (n : N) : Finset N := {m | m ≠ n ∧ s.pc m ≠ .start}

omit [DecidableEq N] [Fintype N] in
theorem Inv.mem_entries_iff (h : Inv d s) {k : List GoString} {v : GoString} :
    ⟨k, v⟩ ∈ s.etcd.entries ∧ Etcd.shows d.dir k = true ↔
      ∃ m, s.pc m ≠ .start ∧ k = d.dir ++ [d.name m] ∧ v = d.peer m := by
  rw [← AList.mem_lookup_iff]
  constructor
  · rintro ⟨hlook, hshows⟩
    have hpre : d.dir <+: k := by
      simp only [Etcd.shows, Bool.and_eq_true] at hshows
      exact List.isPrefixOf_iff_prefix.1 hshows.1.1
    have hmem : k ∈ s.etcd := AList.lookup_isSome.1 (Option.isSome_of_mem hlook)
    obtain rfl | ⟨m, rfl⟩ := h.keys k hmem hpre
    · rw [shows_stateKey] at hshows
      cases hshows
    · rw [h.own, Option.mem_def] at hlook
      split at hlook
      · cases hlook
      · cases hlook
        exact ⟨m, ‹_›, rfl, rfl⟩
  · rintro ⟨m, hm, rfl, rfl⟩
    rw [h.own, if_neg hm]
    exact ⟨rfl, d.shows_name m⟩

omit [DecidableEq N] in
/-- A listing has the registered nodes, each once. -/
theorem Inv.children_eq (h : Inv d s) :
    (s.etcd.children d.dir : Multiset Node) =
      (Finset.univ.filter fun m => s.pc m ≠ .start).val.map fun m =>
        ⟨Path.absolute slash (d.dir ++ [d.name m]), d.peer m⟩ := by
  have hentries : ((s.etcd.entries.filter fun kv => Etcd.shows d.dir kv.1 : List _) : Multiset _) =
      (Finset.univ.filter fun m => s.pc m ≠ .start).val.map fun m =>
        (⟨d.dir ++ [d.name m], d.peer m⟩ : Sigma fun _ : List GoString => GoString) := by
    refine (Multiset.Nodup.ext ?_ ?_).2 ?_
    · exact Multiset.coe_nodup.2 ((List.NodupKeys.nodup s.etcd.nodupKeys).filter _)
    · refine Multiset.Nodup.map ?_ (Finset.nodup _)
      intro m m' hmm
      simp only [Sigma.mk.injEq, List.append_cancel_left_eq, List.cons.injEq, and_true] at hmm
      exact d.name_injective hmm.1
    · rintro ⟨k, v⟩
      rw [Multiset.mem_coe, List.mem_filter, h.mem_entries_iff, Multiset.mem_map]
      simp [eq_comm]
  rw [Etcd.children, ← Multiset.map_coe, hentries, Multiset.map_map]
  rfl

/-- `findPeers` drops the own entry of the node and no other. -/
theorem Inv.others_eq {order : List Node} (h : Inv d s)
    (horder : order.Perm (s.etcd.children d.dir)) :
    (((order.filter fun m => !(slash :: (d.discoverer n).name).isSuffixOf m.key).map (·.value) :
      List GoString) : Multiset GoString) = (s.others n).val.map d.peer := by
  have hown : ∀ m, slash :: d.name n <:+ Path.absolute slash (d.dir ++ [d.name m]) ↔ m = n := by
    intro m
    rw [Path.suffix_absolute_iff (d.name_plain m).2.1 (d.name_plain n).2.1]
    exact ⟨fun h => (d.name_injective h).symm, fun h => by rw [h]⟩
  have hfilter : (order.filter fun m => !(slash :: (d.discoverer n).name).isSuffixOf m.key) =
      order.filter fun m => ¬ slash :: d.name n <:+ m.key := by
    congr 1
    funext m
    rw [Bool.eq_iff_iff, Bool.not_eq_true', decide_eq_true_iff, ← List.isSuffixOf_iff_suffix,
      Bool.not_eq_true]
    rfl
  rw [hfilter, ← Multiset.map_coe, ← Multiset.filter_coe, Multiset.coe_eq_coe.2 horder,
    h.children_eq, Multiset.filter_map, Multiset.map_map, ← Finset.filter_val, Finset.filter_filter]
  simp only [Function.comp_def, hown, State.others, and_comm]

/-- The creator of the state key has registered, and it is none of those who list. -/
theorem Inv.creator_mem (h : Inv d s) (hn : s.pc n = .get) :
    ∃ k, s.creator = some k ∧ k ≠ n ∧ k ∈ s.others n := by
  obtain ⟨k, hk⟩ := Option.ne_none_iff_exists'.1 (h.roles.looking n hn)
  have hlead := (h.roles.leader k).2 hk
  have hkn : k ≠ n := by
    rintro rfl
    simp [hn] at hlead
  exact ⟨k, hk, hkn, by simp [State.others, hkn, hlead]⟩

theorem Inv.findPeers_eq {order : List Node} (h : Inv d s) (hn : s.pc n = .get)
    (horder : order.Perm (s.etcd.children d.dir)) :
    ∃ peers : List GoString,
      (d.discoverer n).findPeers (s.etcd.get d.dir order) = .ok peers ∧
      (peers : Multiset GoString) = (s.others n).val.map d.peer := by
  have hget : s.etcd.get d.dir order = .ok (some order) := by
    have hlook : s.etcd.lookup (d.dir ++ [d.name n]) = some (d.peer n) := by
      rw [h.own, hn]
      rfl
    have hmem : d.dir ++ [d.name n] ∈ s.etcd := AList.lookup_isSome.1 (by simp [hlook])
    exact if_pos (List.any_eq_true.2 ⟨_, hmem, by simp⟩)
  have heq := h.others_eq (n := n) horder
  refine ⟨_, ?_, heq⟩
  rw [hget]
  refine if_neg fun hlen => ?_
  obtain ⟨k, -, -, hk⟩ := h.creator_mem hn
  rw [List.eq_nil_of_length_eq_zero hlen] at heq
  have hmem : d.peer k ∈ (([] : List GoString) : Multiset GoString) := by
    rw [heq]
    exact Multiset.mem_map_of_mem _ hk
  simp at hmem

omit [Fintype N] in
/-- A call of `Do` that has returned is that of the creator, or it has listed the
others. -/
theorem returned_cases {as : List (Action N)} {r : Except Error (List GoString)}
    (hrun : Transition.run d.step d.init as = some s) (hn : s.pc n = .done r) :
    r = .ok [] ∨ ∃ as₁ order as₂ s₁, as = as₁ ++ .get n order :: as₂ ∧
      Transition.run d.step d.init as₁ = some s₁ ∧ s₁.pc n = .get ∧
      order.Perm (s₁.etcd.children d.dir) ∧
      r = (d.discoverer n).findPeers (s₁.etcd.get d.dir order) ∧
      ∀ k, s₁.creator = some k → s.creator = some k := by
  obtain ⟨as₁, a, as₂, u, v, rfl, hu, hstep, hend, hbefore, hafter⟩ :=
    Transition.exists_step_of_run (P := fun s => s.pc n = .done r) (by simp [init]) hrun hn
  have hcreator : ∀ k, u.creator = some k → s.creator = some k := fun k hk =>
    creator_of_run ⟨as₁, hu⟩ (Transition.run_cons_eq_some.2 ⟨v, hstep, hend⟩) hk
  -- the step has changed where the call of `n` stands, so it is a step of `n`
  have hself : ∀ {m : N} {t : State N} {pc : Pc}, t.pc = u.pc → (t.goto m pc).pc n = .done r →
      m = n ∧ pc = .done r := by
    intro m t pc ht hgoto
    simp only [State.goto, ht] at hgoto
    by_cases hm : n = m
    · subst hm
      exact ⟨rfl, by simpa using hgoto⟩
    · rw [Function.update_of_ne hm] at hgoto
      exact absurd hgoto hbefore
  obtain ⟨m, -, -, rfl⟩ | ⟨m, -, -, -, rfl⟩ | ⟨m, -, -, -, rfl⟩ |
    ⟨m, order, rfl, hget, horder, rfl⟩ | ⟨m, -, -, rfl⟩ := step_cases hstep
  · cases (hself rfl hafter).2
  · exact .inl (Pc.done.inj (hself rfl hafter).2).symm
  · cases (hself rfl hafter).2
  · obtain ⟨rfl, hr⟩ := hself rfl hafter
    exact .inr ⟨as₁, order, as₂, u, rfl, hu, hget, horder, (Pc.done.inj hr).symm, hcreator⟩
  · exact absurd hafter hbefore

/-- At most one call of `Do` returns as the leader. Every other one that returns yields
the peer addresses of all other nodes that were registered when it listed them, the
creator of the state key among them. -/
theorem initial_leader (d : Discovery N) (as : List (Action N)) (s : State N)
    (hrun : Transition.run d.step d.init as = some s) :
    (∀ n m, s.pc n = .done (.ok []) → s.pc m = .done (.ok []) → n = m) ∧
    ∀ n r, s.pc n = .done r → r ≠ .ok [] →
      ∃ as₁ order as₂ s₁ peers k, as = as₁ ++ .get n order :: as₂ ∧
        Transition.run d.step d.init as₁ = some s₁ ∧ r = .ok peers ∧
        (peers : Multiset GoString) = (s₁.others n).val.map d.peer ∧
        s.creator = some k ∧ k ≠ n ∧ d.peer k ∈ peers := by
  have hinv := inv_of_reachable ⟨as, hrun⟩
  constructor
  · intro n m hn hm
    exact Option.some.inj (((hinv.roles.leader n).1 hn).symm.trans ((hinv.roles.leader m).1 hm))
  · intro n r hn hne
    obtain rfl | ⟨as₁, order, as₂, s₁, rfl, hs₁, hget, horder, rfl, hcreator⟩ :=
      returned_cases hrun hn
    · exact absurd rfl hne
    · have hinv₁ := inv_of_reachable ⟨as₁, hs₁⟩
      obtain ⟨peers, hpeers, heq⟩ := hinv₁.findPeers_eq hget horder
      obtain ⟨k, hk, hkn, hmem⟩ := hinv₁.creator_mem hget
      refine ⟨as₁, order, as₂, s₁, peers, k, rfl, hs₁, hpeers, heq, hcreator k hk, hkn, ?_⟩
      rw [← Multiset.mem_coe, heq]
      exact Multiset.mem_map_of_mem _ hmem

/-- Two nodes, the name of one a suffix of the name of the other. -/
def pair : Discovery Bool where
  base := [str "cluster", str "v2", str "keys"]
  path := str "/v2/keys/cluster"
  name b := if b then str "hub-1" else str "1"
  peer b := if b then str "10.0.0.1" else str "10.0.0.2"
  etcd := ∅
  name_injective := by unfold Function.Injective; decide +kernel
  name_plain := by decide +kernel
  name_shown := by decide +kernel
  etcd_empty := by simp

def pairRun : List (Action Bool) :=
  [.register false, .register true, .create true, .create false, .heartbeat true,
    .get false [⟨str "/cluster/v2/keys/cluster/1", str "10.0.0.2"⟩,
      ⟨str "/cluster/v2/keys/cluster/hub-1", str "10.0.0.1"⟩]]

theorem initial_leader_pair :
    ∃ s, Transition.run pair.step pair.init pairRun = some s ∧
      s.pc true = .done (.ok []) ∧ s.pc false = .done (.ok [str "10.0.0.1"]) ∧
      ∃ k, s.creator = some k ∧ k ≠ false ∧ pair.peer k ∈ [str "10.0.0.1"] := by
  have hrun : (Transition.run pair.step pair.init pairRun).map (fun s => (s.pc true, s.pc false)) =
      some (.done (.ok []), .done (.ok [str "10.0.0.1"])) := by decide +kernel
  obtain ⟨s, hs, hpc⟩ := Option.map_eq_some_iff.1 hrun
  obtain ⟨ht, hf⟩ := Prod.mk.inj hpc
  obtain ⟨-, -, -, -, peers, k, -, -, hpeers, -, hk, hne, hmem⟩ :=
    (initial_leader pair pairRun s hs).2 false _ hf (by simp)
  exact ⟨s, hs, ht, hf, k, hk, hne, Except.ok.inj hpeers ▸ hmem⟩

end Discovery
