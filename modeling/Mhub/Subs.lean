-- SUMMARY: The subscription index (`subs.go`) over explicit slices, its representation invariant, and one specification lemma per operation.
import Mathlib.Data.List.AList
import Mathlib.Data.List.ReduceOption
import Mhub.Base.Slice
import Mhub.Wild

/-!
# The subscription index

`subs` maps a topic to a slice of connections in which cancelled entries are left
behind as nil slots; `wildcards` is a list of its own. `subscribers` appends the
matching wildcard connections to the stored slice itself, so a lookup may write
into the spare capacity of the array behind the index. The specification lemmas
are stated on `slots`, the contents of the slice stored for a topic.

`retain` keeps copies of messages, so it is a map from topics to message values.
-/

/-- A retained message: a copy of a `Publish`, with the `Retain` bit of the copy. -/
structure Retained where
  m : Publish
  retain : Bool
  deriving DecidableEq, Repr

structure Subscriptions where
  heap : Heap (Option ConnId)
  subs : AList (fun _ : GoString => Slice)
  wildcards : List Wild
  retain : GoString → Option Retained

namespace Subscriptions

/-! ## Operations -/

def empty : Subscriptions := ⟨Heap.empty, ∅, [], fun _ => none⟩

/-- `this.subs[topic]`, the nil slice when the key is absent. -/
def lookup (this : Subscriptions) (topic : GoString) : Slice :=
  (this.subs.lookup topic).getD Slice.nil

def add (g : Nat → Nat) (this : Subscriptions) (topic : GoString) (c : ConnId) : Subscriptions :=
  if isWildcard topic then
    let w := newWild topic c
    if w.valid then { this with wildcards := this.wildcards ++ [w] } else this
  else
    let r := this.heap.append g none (this.lookup topic) (some c)
    { this with heap := r.1, subs := this.subs.insert topic r.2 }

/-- The wildcard connections `subscribers` appends for a topic, in list order. -/
def wildMatches (this : Subscriptions) (topic : GoString) : List (Option ConnId) :=
  (this.wildcards.filter fun w => w.matches (levels topic)).map fun w => some w.c

/-- Find all connections that are subscribed to this topic. -/
def subscribers (g : Nat → Nat) (this : Subscriptions) (topic : GoString) :
    Subscriptions × Slice :=
  -- non-wildcard subscribers first, then the wildcards appended to that slice
  let r := this.heap.appendAll g none (this.lookup topic) (this.wildMatches topic)
  ({ this with heap := r.1 }, r.2)

/-- Replace a reference to `c` by nil. -/
def dropConn (c : ConnId) (slot : Option ConnId) : Option ConnId :=
  if slot = some c then none else slot

/-- Remove all subscriptions that refer to a connection. -/
def unsubAll (this : Subscriptions) (c : ConnId) : Subscriptions :=
  { this with
    heap := this.heap.mapAllInPlace (this.subs.entries.map (·.2)) (dropConn c)
    wildcards := this.wildcards.filter fun w => w.c ≠ c }

/-- Remove the subscription to topic for a given connection. -/
def unsub (this : Subscriptions) (topic : GoString) (c : ConnId) : Subscriptions :=
  match this.subs.lookup topic with
  | none => this
  | some sl =>
    let heap := this.heap.mapInPlace sl (dropConn c)
    let nils := (heap.contents sl).countP Option.isNone
    if nils = sl.len then { this with heap := heap, subs := this.subs.erase topic }
    else { this with heap := heap }

/-- The slots stored for a topic, nil ones included. -/
def slots (this : Subscriptions) (topic : GoString) : List (Option ConnId) :=
  this.heap.contents (this.lookup topic)

/-! ## The representation invariant -/

/-- Every stored slice lies in an array of its own, which is not the one of the nil
slice. -/
structure Valid (this : Subscriptions) : Prop where
  slice : ∀ {t sl}, this.subs.lookup t = some sl → this.heap.Valid sl
  disjoint : ∀ {t t' sl sl'}, this.subs.lookup t = some sl → this.subs.lookup t' = some sl' →
    sl.arr = sl'.arr → t = t'
  pos : ∀ {t sl}, this.subs.lookup t = some sl → 0 < sl.arr
  heap : this.heap.Wf

theorem valid_empty : empty.Valid where
  slice h := by simp [empty] at h
  disjoint h := by simp [empty] at h
  pos h := by simp [empty] at h
  heap := Heap.wf_empty

namespace Valid

variable {this : Subscriptions}

/-- The slice looked up for a topic is valid, also when the key is absent. -/
theorem lookup (hv : this.Valid) (t : GoString) : this.heap.Valid (this.lookup t) := by
  cases h : this.subs.lookup t with
  | none => simpa [Subscriptions.lookup, h] using hv.heap.valid_nil
  | some sl => simpa [Subscriptions.lookup, h] using hv.slice h

/-- A stored slice does not share its array with what is looked up for another
topic. -/
theorem lookup_arr_ne (hv : this.Valid) {t t' : GoString} {sl : Slice}
    (h : this.subs.lookup t' = some sl) (hne : t' ≠ t) : sl.arr ≠ (this.lookup t).arr := by
  intro harr
  cases h' : this.subs.lookup t with
  | none =>
      have := hv.pos h
      simp only [Subscriptions.lookup, h', Option.getD_none, Slice.nil] at harr
      omega
  | some sl' =>
      simp only [Subscriptions.lookup, h', Option.getD_some] at harr
      exact hne (hv.disjoint h h' harr)

end Valid

/-! ## `add` -/

variable {g : Nat → Nat} {this : Subscriptions}

/-- Where the slice that `add` stores lives: in the array it had, or in a new one. -/
private theorem append_lookup_arr (hv : this.Valid) (t : GoString) (c : ConnId) :
    ((∃ sl, this.subs.lookup t = some sl ∧
        (this.heap.append g none (this.lookup t) (some c)).2.arr = sl.arr) ∨
      (this.heap.append g none (this.lookup t) (some c)).2.arr = this.heap.next) := by
  cases h : this.subs.lookup t with
  | none =>
      refine .inr ?_
      simpa [Subscriptions.lookup, h] using hv.heap.append_nil_arr (some c)
  | some sl =>
      rcases Heap.append_arr (g := g) (z := none) this.heap sl (some c) with harr | harr
      · exact .inl ⟨sl, rfl, by simpa [Subscriptions.lookup, h] using harr⟩
      · exact .inr (by simpa [Subscriptions.lookup, h] using harr)

theorem valid_add (hv : this.Valid) (t : GoString) (c : ConnId) : (this.add g t c).Valid := by
  simp only [add]
  split
  · split
    · exact ⟨hv.slice, hv.disjoint, hv.pos, hv.heap⟩
    · exact hv
  · refine ⟨?_, ?_, ?_, hv.heap.append _ _⟩
    · intro t' sl h
      by_cases ht : t' = t
      · subst ht
        rw [AList.lookup_insert] at h
        cases h
        exact (hv.lookup t').append_self _
      · rw [AList.lookup_insert_ne ht] at h
        exact (hv.slice h).append _
    · -- a stored slice of another topic is neither in the old array nor in the new one
      have hother : ∀ {t' sl}, t' ≠ t → this.subs.lookup t' = some sl →
          sl.arr ≠ (this.heap.append g none (this.lookup t) (some c)).2.arr := by
        intro t' sl hne h
        rcases append_lookup_arr hv t c (g := g) with ⟨sl₀, h₀, harr⟩ | harr
        · rw [harr]
          exact fun heq => hne (hv.disjoint h h₀ heq)
        · rw [harr]
          exact Nat.ne_of_lt (hv.slice h).arr_lt
      intro t₁ t₂ sl₁ sl₂ h₁ h₂ harr
      by_cases ht₁ : t₁ = t <;> by_cases ht₂ : t₂ = t
      · rw [ht₁, ht₂]
      · subst ht₁
        rw [AList.lookup_insert] at h₁
        cases h₁
        rw [AList.lookup_insert_ne ht₂] at h₂
        exact absurd harr.symm (hother ht₂ h₂)
      · subst ht₂
        rw [AList.lookup_insert] at h₂
        cases h₂
        rw [AList.lookup_insert_ne ht₁] at h₁
        exact absurd harr (hother ht₁ h₁)
      · rw [AList.lookup_insert_ne ht₁] at h₁
        rw [AList.lookup_insert_ne ht₂] at h₂
        exact hv.disjoint h₁ h₂ harr
    · intro t' sl h
      by_cases ht : t' = t
      · subst ht
        rw [AList.lookup_insert] at h
        cases h
        rcases append_lookup_arr hv t' c (g := g) with ⟨sl₀, h₀, harr⟩ | harr
        · rw [harr]; exact hv.pos h₀
        · rw [harr]; exact hv.heap.next_pos
      · rw [AList.lookup_insert_ne ht] at h
        exact hv.pos h

/-- `add` of a wildcard-free filter appends one slot under it and touches no other
topic; `add` of a wildcard filter touches none. -/
theorem slots_add (hv : this.Valid) (t : GoString) (c : ConnId) (t' : GoString) :
    (this.add g t c).slots t' =
      if isWildcard t = false ∧ t' = t then this.slots t' ++ [some c] else this.slots t' := by
  simp only [add]
  split
  · next hw =>
      simp only [hw, Bool.true_eq_false, false_and, if_false]
      split <;> rfl
  · next hw =>
      have hw : isWildcard t = false := by simpa using hw
      by_cases ht : t' = t
      · subst ht
        simp only [slots, lookup, AList.lookup_insert, Option.getD_some, hw, true_and, if_true]
        exact Heap.contents_append_self (hv.lookup t') (some c)
      · simp only [slots, lookup, AList.lookup_insert_ne ht, ht, and_false, if_false]
        cases h : this.subs.lookup t' with
        | none => simp
        | some sl =>
            exact Heap.contents_append (hv.slice h)
              fun harr => absurd harr (hv.lookup_arr_ne h ht)

/-- `add` of a wildcard filter appends it to the list if it is valid. -/
theorem wildcards_add (this : Subscriptions) (t : GoString) (c : ConnId) :
    (this.add g t c).wildcards =
      if isWildcard t = true ∧ (newWild t c).valid = true then this.wildcards ++ [newWild t c]
      else this.wildcards := by
  simp only [add]
  split
  · next hw => by_cases hvalid : (newWild t c).valid = true <;> simp [hw, hvalid]
  · next hw => simp [hw]

/-! ## `subscribers` -/

theorem valid_subscribers (hv : this.Valid) (t : GoString) : (this.subscribers g t).1.Valid where
  slice h := (hv.slice h).appendAll _
  disjoint h h' := hv.disjoint h h'
  pos h := hv.pos h
  heap := hv.heap.appendAll _ _

/-- The list `subscribers` returns: the slots of the topic, then the matching
wildcard connections. -/
theorem contents_subscribers (hv : this.Valid) (t : GoString) :
    (this.subscribers g t).1.heap.contents (this.subscribers g t).2 =
      this.slots t ++ this.wildMatches t :=
  (Heap.appendAll_spec (hv.lookup t) _).1

/-- A lookup changes no list of the index: it writes only past the stored length. -/
theorem slots_subscribers (hv : this.Valid) (t t' : GoString) :
    (this.subscribers g t).1.slots t' = this.slots t' := by
  simp only [slots, subscribers, lookup]
  cases h : this.subs.lookup t' with
  | none => simp
  | some sl =>
      apply Heap.contents_appendAll (hv.lookup t) (hv.slice h)
      intro harr i hi
      by_cases ht : t' = t
      · subst ht
        simp only [lookup, h, Option.getD_some] at hi
        omega
      · exact absurd harr (hv.lookup_arr_ne h ht)

@[simp] theorem wildcards_subscribers (t : GoString) :
    (this.subscribers g t).1.wildcards = this.wildcards := rfl

@[simp] theorem lookup_subscribers (t t' : GoString) :
    (this.subscribers g t).1.lookup t' = this.lookup t' := rfl

@[simp] theorem wildMatches_subscribers (t t' : GoString) :
    (this.subscribers g t).1.wildMatches t' = this.wildMatches t' := rfl

/-- The slice `sl` is a list that `subscribers` returned for `t`, and still what it
would return. It may share its array with the slots of `t` and with other such lists,
but not with other topics. -/
structure Snapshot (this : Subscriptions) (t : GoString) (sl : Slice) : Prop where
  valid : this.heap.Valid sl
  contents : this.heap.contents sl = this.slots t ++ this.wildMatches t
  own : 0 < sl.len → ∀ t', (this.lookup t').arr = sl.arr → t' = t

theorem snapshot_subscribers (hv : this.Valid) (t : GoString) :
    (this.subscribers g t).1.Snapshot t (this.subscribers g t).2 where
  valid := (Heap.appendAll_spec (hv.lookup t) _).2
  contents := by
    rw [contents_subscribers hv, slots_subscribers hv]
    rfl
  own := by
    intro hlen t' harr
    rw [lookup_subscribers] at harr
    have hlt := (hv.lookup t').arr_lt
    cases h : this.subs.lookup t with
    | none =>
        -- there are no slots, so a non-empty list is in a new array
        have hnil : this.lookup t = Slice.nil := by simp [lookup, h]
        simp only [subscribers, hnil] at hlen harr
        have hne : this.wildMatches t ≠ [] := by
          intro hnone
          simp [hnone, Heap.appendAll, Slice.nil] at hlen
        have := hv.heap.appendAll_nil_arr (g := g) (z := none) hne
        omega
    | some sl =>
        have hsl : this.lookup t = sl := by simp [lookup, h]
        simp only [subscribers, hsl] at harr
        rcases Heap.appendAll_arr (g := g) (z := none) this.heap sl (this.wildMatches t)
          with hold | hnew
        · by_contra hne
          exact hv.lookup_arr_ne h (Ne.symm hne) (harr.trans hold).symm
        · omega

/-- Looking up any topic writes nothing new into a list that is still being read. -/
theorem Snapshot.subscribers {t : GoString} {sl : Slice} (h : this.Snapshot t sl)
    (hv : this.Valid) (t' : GoString) : (this.subscribers g t').1.Snapshot t sl where
  valid := h.valid.appendAll _
  contents := by
    rw [slots_subscribers hv, wildMatches_subscribers, ← h.contents]
    apply Heap.contents_appendAll (hv.lookup t') h.valid
    intro harr i hi hlt
    obtain rfl : t' = t := h.own (by omega) t' harr.symm
    -- the same topic: what is appended is what the list has there
    have hlen : (this.slots t').length = (this.lookup t').len := (hv.lookup t').length_contents
    rw [h.contents, ← hlen, List.getElem?_append_right (Nat.le_add_right _ _)]
    simp
  own := h.own

/-! ## `unsubAll` and `unsub` -/

theorem dropConn_dropConn (c : ConnId) (x : Option ConnId) :
    dropConn c (dropConn c x) = dropConn c x := by
  unfold dropConn
  split <;> simp_all

/-- What is left of a list of slots once `c` is dropped from it. -/
theorem reduceOption_map_dropConn (c : ConnId) (l : List (Option ConnId)) :
    (l.map (dropConn c)).reduceOption = l.reduceOption.filter (· ≠ c) := by
  induction l with
  | nil => rfl
  | cons x l ih =>
      cases x with
      | none => simpa [dropConn] using ih
      | some d =>
          by_cases hd : d = c
          · simpa [dropConn, hd] using ih
          · simpa [dropConn, hd] using ih

theorem valid_unsubAll (hv : this.Valid) (c : ConnId) : (this.unsubAll c).Valid where
  slice h := (hv.slice h).mapAllInPlace _ _
  disjoint h h' := hv.disjoint h h'
  pos h := hv.pos h
  heap := hv.heap.mapAllInPlace _ _

/-- `unsubAll` turns every slot of the connection into nil, for every topic. -/
theorem slots_unsubAll (hv : this.Valid) (c : ConnId) (t : GoString) :
    (this.unsubAll c).slots t = (this.slots t).map (dropConn c) := by
  simp only [slots, unsubAll, lookup]
  cases h : this.subs.lookup t with
  | none => simp
  | some sl =>
      have hmem : (⟨t, sl⟩ : Sigma fun _ : GoString => Slice) ∈ this.subs.entries :=
        AList.mem_lookup_iff.mp h
      simp only [Option.getD_some]
      rw [Heap.contents_mapAllInPlace (hv.slice h) (dropConn_dropConn c),
        if_pos (List.mem_map_of_mem hmem)]
      intro sl' hsl' harr
      obtain ⟨⟨t', sl''⟩, he, rfl⟩ := List.mem_map.mp hsl'
      have h' : this.subs.lookup t' = some sl'' := AList.mem_lookup_iff.mpr he
      obtain rfl : t' = t := hv.disjoint h' h harr
      exact Option.some.inj (h'.symm.trans h)

theorem wildcards_unsubAll (c : ConnId) :
    (this.unsubAll c).wildcards = this.wildcards.filter fun w => w.c ≠ c := rfl

theorem valid_unsub (hv : this.Valid) (t : GoString) (c : ConnId) : (this.unsub t c).Valid := by
  unfold unsub
  split
  · exact hv
  · next sl h =>
      simp only
      split
      · -- the key is deleted: what is still stored was stored before
        have hold : ∀ {t' sl'}, (this.subs.erase t).lookup t' = some sl' →
            this.subs.lookup t' = some sl' := by
          intro t' sl' h'
          by_cases ht : t' = t
          · subst ht
            simp at h'
          · rwa [AList.lookup_erase_ne ht] at h'
        exact ⟨fun h' => (hv.slice (hold h')).mapInPlace _ _,
          fun h₁ h₂ => hv.disjoint (hold h₁) (hold h₂), fun h' => hv.pos (hold h'),
          hv.heap.mapInPlace _ _⟩
      · exact ⟨fun h' => (hv.slice h').mapInPlace _ _, hv.disjoint, hv.pos, hv.heap.mapInPlace _ _⟩

/-- `unsub` leaves the other topics alone. -/
theorem slots_unsub_of_ne (hv : this.Valid) {t t' : GoString} (c : ConnId) (hne : t' ≠ t) :
    (this.unsub t c).slots t' = this.slots t' := by
  unfold unsub
  split
  · rfl
  · next sl h =>
      have hkeep : (this.heap.mapInPlace sl (dropConn c)).contents (this.lookup t')
          = this.heap.contents (this.lookup t') :=
        Heap.contents_mapInPlace_of_ne (hv.lookup_arr_ne h hne.symm).symm _
      simp only
      split
      · simpa only [slots, lookup, AList.lookup_erase_ne hne] using hkeep
      · exact hkeep

/-- `unsub` drops the connection from the slots of the topic. When only nil slots
are left the key goes too, which nobody can see in the non-nil ones. -/
theorem reduceOption_slots_unsub (hv : this.Valid) (t : GoString) (c : ConnId) :
    ((this.unsub t c).slots t).reduceOption = (this.slots t).reduceOption.filter (· ≠ c) := by
  rw [← reduceOption_map_dropConn]
  unfold unsub
  split
  · next h => simp [slots, lookup, h]
  · next sl h =>
      have hself : (this.heap.mapInPlace sl (dropConn c)).contents sl
          = (this.slots t).map (dropConn c) := by
        rw [Heap.contents_mapInPlace_self (hv.slice h)]
        simp [slots, lookup, h]
      simp only
      split
      · next hnils =>
          have hall : ∀ x ∈ (this.slots t).map (dropConn c), x = none := by
            rw [← hself]
            have hlen := ((hv.slice h).mapInPlace sl (dropConn c)).length_contents
            rw [← hlen, List.countP_eq_length] at hnils
            simpa using hnils
          have hnone : ((this.slots t).map (dropConn c)).reduceOption = [] := by
            rw [List.reduceOption, List.filterMap_eq_nil_iff]
            simpa using hall
          rw [hnone]
          simp [slots, lookup]
      · rw [← hself]
        simp [slots, lookup, h]

@[simp] theorem wildcards_unsub (t : GoString) (c : ConnId) :
    (this.unsub t c).wildcards = this.wildcards := by
  unfold unsub
  split
  · rfl
  · simp only
    split <;> rfl

/-! ## A slot that is being read

The array of a list that `subscribers` returned may go on to serve the index, or be
left behind when the index moves to a larger one. Either way nothing but a
cancellation touches the part of it that was slots of the topic. -/

/-- Cell `k` of the array refers to `c`. If the array is in use, it is by the slots of
`t`, of which the cell is one. -/
structure Pinned (this : Subscriptions) (t : GoString) (arr k : Nat) (c : ConnId) : Prop where
  cell : this.heap.At arr k (some c)
  own : ∀ {t' sl}, this.subs.lookup t' = some sl → sl.arr = arr → t' = t ∧ k < sl.len

variable {t : GoString} {arr k : Nat} {c : ConnId}

theorem Pinned.lookup_len (h : this.Pinned t arr k c) (hv : this.Valid) {t' : GoString}
    (harr : (this.lookup t').arr = arr) : k < (this.lookup t').len := by
  cases hl : this.subs.lookup t' with
  | none =>
      -- the array of the nil slice has no cells
      have hcell := h.cell.cell
      simp only [lookup, hl, Option.getD_none, Slice.nil] at harr
      rw [← harr, hv.heap.nil_cells] at hcell
      cases hcell
  | some sl =>
      simp only [lookup, hl, Option.getD_some] at harr ⊢
      exact (h.own hl harr).2

theorem Pinned.add (h : this.Pinned t arr k c) (hv : this.Valid) (t' : GoString) (c' : ConnId) :
    (this.add g t' c').Pinned t arr k c := by
  unfold Subscriptions.add
  split
  · simp only
    split
    · exact ⟨h.cell, h.own⟩
    · exact h
  · refine ⟨h.cell.append (h.lookup_len hv), fun {t₁ sl} hl harr => ?_⟩
    by_cases ht : t₁ = t'
    · subst ht
      rw [AList.lookup_insert] at hl
      cases hl
      rcases append_lookup_arr (g := g) hv t₁ c' with ⟨sl₀, h₀, harr₀⟩ | harr₀
      · obtain ⟨rfl, hk⟩ := h.own h₀ (harr₀.symm.trans harr)
        refine ⟨rfl, ?_⟩
        simpa [lookup, h₀] using Nat.lt_succ_of_lt hk
      · have := h.cell.arr_lt
        omega
    · rw [AList.lookup_insert_ne ht] at hl
      exact h.own hl harr

theorem Pinned.subscribers (h : this.Pinned t arr k c) (hv : this.Valid) (t' : GoString) :
    (this.subscribers g t').1.Pinned t arr k c :=
  ⟨h.cell.appendAll (h.lookup_len hv), h.own⟩

theorem Pinned.unsubAll (h : this.Pinned t arr k c) {c' : ConnId} (hc : c' ≠ c) :
    (this.unsubAll c').Pinned t arr k c :=
  ⟨h.cell.mapAllInPlace (by simp [dropConn, Ne.symm hc]), h.own⟩

theorem Pinned.unsub (h : this.Pinned t arr k c) {t' : GoString} {c' : ConnId}
    (hne : ¬ (t' = t ∧ c' = c)) : (this.unsub t' c').Pinned t arr k c := by
  unfold Subscriptions.unsub
  split
  · exact h
  · next sl hl =>
      have hcell : (this.heap.mapInPlace sl (dropConn c')).At arr k (some c) := by
        refine h.cell.mapInPlace fun harr _ => ?_
        have hc : c ≠ c' := fun hc => hne ⟨(h.own hl harr).1, hc.symm⟩
        simp [dropConn, hc]
      simp only
      split
      · refine ⟨hcell, fun {t₁ sl₁} hl₁ harr => ?_⟩
        by_cases ht : t₁ = t'
        · subst ht
          simp at hl₁
        · rw [AList.lookup_erase_ne ht] at hl₁
          exact h.own hl₁ harr
      · exact ⟨hcell, h.own⟩

/-- The slots of the topic are pinned in the list that `subscribers` returns. -/
theorem pinned_subscribers (hv : this.Valid) (hk : (this.slots t)[k]? = some (some c)) :
    (this.subscribers g t).1.Pinned t (this.subscribers g t).2.arr k c ∧
      k < (this.subscribers g t).2.len := by
  have hvalid := (Heap.appendAll_spec (g := g) (z := none) (hv.lookup t) (this.wildMatches t)).2
  have hcontents : ((this.subscribers g t).1.heap.contents (this.subscribers g t).2)[k]? =
      some (some c) := by
    rw [contents_subscribers hv, List.getElem?_append_left (List.getElem?_eq_some_iff.1 hk).1, hk]
  refine ⟨⟨hvalid.at_contents hcontents, fun {t' sl} hl harr => ?_⟩, ?_⟩
  · change this.subs.lookup t' = some sl at hl
    have hlt := (hv.slice hl).arr_lt
    rcases Heap.appendAll_arr (g := g) (z := none) this.heap (this.lookup t) (this.wildMatches t)
      with hold | hnew
    · have ht : t' = t := by
        by_contra hne
        exact hv.lookup_arr_ne hl hne (harr.trans hold)
      subst ht
      refine ⟨rfl, ?_⟩
      have hlookup : this.lookup t' = sl := by simp [lookup, hl]
      have hk := (List.getElem?_eq_some_iff.1 hk).1
      rwa [slots, hlookup, (hv.slice hl).length_contents] at hk
    · have harr : sl.arr = (this.heap.appendAll g none (this.lookup t) (this.wildMatches t)).2.arr :=
        harr
      omega
  · have hlen := hvalid.length_contents
    have hk := (List.getElem?_eq_some_iff.1 hcontents).1
    exact hlen ▸ hk

/-! ## A list that is being read -/

/-- The slice is a list that `subscribers` returned for `t`: its array serves no other
topic. -/
structure Handed (this : Subscriptions) (t : GoString) (sl : Slice) : Prop where
  valid : this.heap.Valid sl
  own : ∀ {t' st}, this.subs.lookup t' = some st → st.arr = sl.arr → t' = t

/-- The list goes on where the slots of the topic end: its wildcard connections lie in
the spare capacity of the array of the index. -/
def Overhangs (this : Subscriptions) (t : GoString) (sl : Slice) : Prop :=
  sl.arr = (this.lookup t).arr ∧ (this.lookup t).len < sl.len

instance (this : Subscriptions) (t : GoString) (sl : Slice) : Decidable (this.Overhangs t sl) :=
  inferInstanceAs (Decidable (_ ∧ _))

variable {sl : Slice}

theorem handed_subscribers (hv : this.Valid) (t : GoString) :
    (this.subscribers g t).1.Handed t (this.subscribers g t).2 where
  valid := (Heap.appendAll_spec (hv.lookup t) _).2
  own {t' st} h harr := by
    have hst : this.subs.lookup t' = some st := h
    by_contra hne
    rcases Heap.appendAll_arr (g := g) (z := none) this.heap (this.lookup t) (this.wildMatches t)
      with hold | hnew
    · exact hv.lookup_arr_ne hst hne (harr.trans hold)
    · have hlt := (hv.slice hst).arr_lt
      simp only [Subscriptions.subscribers] at harr
      omega

/-- The list shares the array of what is looked up for a topic only if it is its own. -/
theorem Handed.eq_of_arr (h : this.Handed t sl) (hv : this.Valid) {t' : GoString}
    (harr : sl.arr = (this.lookup t').arr) (hlen : 0 < sl.len) : t' = t := by
  cases hl : this.subs.lookup t' with
  | none =>
      -- the array of the nil slice has no cells
      have hle := h.valid.len_le
      simp only [lookup, hl, Option.getD_none, Slice.nil] at harr
      simp only [Heap.cap, harr, hv.heap.nil_cells, List.length_nil] at hle
      omega
  | some st => exact h.own hl (by simpa [lookup, hl] using harr.symm)

theorem Handed.add (h : this.Handed t sl) (hv : this.Valid) (t' : GoString) (c : ConnId) :
    (this.add g t' c).Handed t sl := by
  unfold Subscriptions.add
  split
  · simp only
    split
    · exact ⟨h.valid, h.own⟩
    · exact h
  · refine ⟨h.valid.append _, fun {t₁ st} hl harr => ?_⟩
    by_cases ht : t₁ = t'
    · subst ht
      rw [AList.lookup_insert] at hl
      cases hl
      rcases append_lookup_arr (g := g) hv t₁ c with ⟨st₀, h₀, harr₀⟩ | harr₀
      · exact h.own h₀ (harr₀.symm.trans harr)
      · have := h.valid.arr_lt
        omega
    · rw [AList.lookup_insert_ne ht] at hl
      exact h.own hl harr

/-- `add` writes into the list only where it goes on behind the slots of its topic. -/
theorem Handed.contents_add (h : this.Handed t sl) (hv : this.Valid) {t' : GoString} {c : ConnId}
    (hno : isWildcard t' = false → t' = t → ¬ this.Overhangs t sl) :
    (this.add g t' c).heap.contents sl = this.heap.contents sl := by
  unfold Subscriptions.add
  split
  · simp only
    split <;> rfl
  · next hwild =>
      refine Heap.contents_append h.valid fun harr hlt => ?_
      obtain rfl := h.eq_of_arr hv harr (by omega)
      exact absurd ⟨harr, hlt⟩ (hno (by simpa using hwild) rfl)

theorem Handed.subscribers (h : this.Handed t sl) (t' : GoString) :
    (this.subscribers g t').1.Handed t sl :=
  ⟨h.valid.appendAll _, h.own⟩

/-- A lookup leaves the list as it is if it finds the wildcards the list has. -/
theorem Handed.contents_subscribers (h : this.Handed t sl) (hv : this.Valid) {t' : GoString}
    (hsame : t' = t → this.Overhangs t sl →
      (this.heap.contents sl).drop (this.lookup t).len = this.wildMatches t) :
    (this.subscribers g t').1.heap.contents sl = this.heap.contents sl := by
  refine Heap.contents_appendAll (hv.lookup t') h.valid fun harr i hi _ => ?_
  obtain rfl := h.eq_of_arr hv harr (by omega)
  rw [← hsame rfl ⟨harr, by omega⟩, List.getElem?_drop]

theorem Handed.unsub (h : this.Handed t sl) (t' : GoString) (c : ConnId) :
    (this.unsub t' c).Handed t sl := by
  unfold Subscriptions.unsub
  split
  · exact h
  · simp only
    split
    · refine ⟨h.valid.mapInPlace _ _, fun {t₁ st} hl harr => ?_⟩
      by_cases ht : t₁ = t'
      · subst ht
        simp at hl
      · rw [AList.lookup_erase_ne ht] at hl
        exact h.own hl harr
    · exact ⟨h.valid.mapInPlace _ _, h.own⟩

/-- `unsub` for the topic of the list may turn the connection into nil. -/
theorem Handed.getElem?_unsub (h : this.Handed t sl) (t' : GoString) (c : ConnId) (k : Nat) :
    ((this.unsub t' c).heap.contents sl)[k]? = (this.heap.contents sl)[k]? ∨
      t' = t ∧ ((this.unsub t' c).heap.contents sl)[k]? =
        (this.heap.contents sl)[k]?.map (dropConn c) := by
  unfold Subscriptions.unsub
  split
  · exact .inl rfl
  · next st hl =>
      have hone := Heap.getElem?_contents_mapInPlace this.heap st sl (dropConn c) k
      have hres := hone.imp_right (And.imp_left fun harr => h.own hl harr.symm)
      simp only
      split
      · exact hres
      · exact hres

theorem Handed.unsubAll (h : this.Handed t sl) (c : ConnId) : (this.unsubAll c).Handed t sl :=
  ⟨h.valid.mapAllInPlace _ _, h.own⟩

theorem getElem?_unsubAll (this : Subscriptions) (sl : Slice) (c : ConnId) (k : Nat) :
    ((this.unsubAll c).heap.contents sl)[k]? = (this.heap.contents sl)[k]? ∨
      ((this.unsubAll c).heap.contents sl)[k]? = (this.heap.contents sl)[k]?.map (dropConn c) :=
  Heap.getElem?_contents_mapAllInPlace _ _ _ (dropConn_dropConn c) k

/-! ## The connections an index refers to -/

/-- Some cell of the slots, or some wildcard, refers to `c`. -/
def Mentions (this : Subscriptions) (c : ConnId) : Prop :=
  this.heap.Holds (some c) ∨ ∃ w ∈ this.wildcards, w.c = c

theorem not_mentions_empty (c : ConnId) : ¬ empty.Mentions c := by
  rintro (⟨_, h⟩ | ⟨_, h, -⟩) <;> cases h

theorem Mentions.of_add {c c' : ConnId} {t : GoString} (h : (this.add g t c').Mentions c) :
    this.Mentions c ∨ c' = c := by
  unfold add at h
  split at h
  · simp only at h
    split at h
    · obtain h | ⟨w, hw, hc⟩ := h
      · exact .inl (.inl h)
      · obtain hw | hw := List.mem_append.1 hw
        · exact .inl (.inr ⟨w, hw, hc⟩)
        · obtain rfl := List.mem_singleton.1 hw
          exact .inr hc
    · exact .inl h
  · obtain h | h := h
    · obtain h | h | h := h.of_append
      · exact .inl (.inl h)
      · exact .inr (Option.some.inj h).symm
      · cases h
    · exact .inl (.inr h)

theorem eq_of_dropConn_eq_some {c c' : ConnId} {x : Option ConnId} (h : dropConn c' x = some c) :
    x = some c := by
  unfold dropConn at h
  split at h
  · cases h
  · exact h

theorem Mentions.of_unsub {c c' : ConnId} {t : GoString} (h : (this.unsub t c').Mentions c) :
    this.Mentions c := by
  have hw := @wildcards_unsub this t c'
  obtain h | h := h
  · unfold unsub at h
    split at h
    · exact .inl h
    · simp only at h
      split at h
      all_goals exact .inl (h.of_mapInPlace fun _ => eq_of_dropConn_eq_some)
  · exact .inr (hw ▸ h)

theorem Mentions.of_unsubAll {c c' : ConnId} (h : (this.unsubAll c').Mentions c) :
    this.Mentions c := by
  obtain h | ⟨w, hw, hc⟩ := h
  · exact .inl (h.of_mapAllInPlace fun _ => eq_of_dropConn_eq_some)
  · exact .inr ⟨w, List.mem_of_mem_filter hw, hc⟩

theorem Mentions.of_subscribers {c : ConnId} {t : GoString}
    (h : (this.subscribers g t).1.Mentions c) : this.Mentions c := by
  obtain h | h := h
  · obtain h | h | h := h.of_appendAll
    · exact .inl h
    · obtain ⟨w, hw, hc⟩ := List.mem_map.1 h
      exact .inr ⟨w, List.mem_of_mem_filter hw, Option.some.inj hc⟩
    · cases h
  · exact .inr h

end Subscriptions
