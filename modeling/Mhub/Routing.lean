-- SUMMARY: Histories of index calls: which adds are live, and what `subscribers` returns after any history.
import Mathlib.Algebra.GroupWithZero.Nat
import Mathlib.Data.List.Induction
import Mhub.Subs

/-!
# Routing over whole histories

The index is used through three calls. This module says what the index is for in
terms of the calls alone: an `add` is live as long as nothing cancels it, and
`subscribers` returns one connection per live `add` that selects the topic.

The code cancels a wildcard filter only through `unsubAll`, so being live
(`Live`, what the code does) and being held (`Held`, added and not cancelled
since) come apart exactly on the stale filters of the last section.
-/

/-! ## Deciding the matching relation -/

private theorem exists_hash_iff {F T : List GoString} :
    (∃ G, F = G ++ [hashLevel] ∧ ∃ T₁ T₂, T = T₁ ++ T₂ ∧ List.Forall₂ LevelMatches G T₁) ↔
      F.getLast? = some hashLevel ∧
        List.Forall₂ LevelMatches F.dropLast (T.take (F.length - 1)) := by
  constructor
  · rintro ⟨G, rfl, T₁, T₂, rfl, h⟩
    have hlen : G.length = T₁.length := h.length_eq
    simp [hlen, h]
  · rintro ⟨hlast, h⟩
    refine ⟨F.dropLast, (List.dropLast_append_getLast? _ hlast).symm, T.take (F.length - 1),
      T.drop (F.length - 1), (List.take_append_drop _ _).symm, h⟩

instance forall₂LevelMatchesDecidable :
    ∀ F T : List GoString, Decidable (List.Forall₂ LevelMatches F T)
  | [], [] => isTrue .nil
  | [], _ :: _ => isFalse nofun
  | _ :: _, [] => isFalse nofun
  | _ :: F, _ :: T =>
    have := forall₂LevelMatchesDecidable F T
    decidable_of_iff _ List.forall₂_cons.symm

instance (F T : List GoString) : Decidable (MqttMatches F T) :=
  decidable_of_iff
    ((hashLevel ∉ F ∧ List.Forall₂ LevelMatches F T) ∨
      F.getLast? = some hashLevel ∧
        List.Forall₂ LevelMatches F.dropLast (T.take (F.length - 1)))
    (or_congr_right exists_hash_iff.symm)

/-! ## Histories -/

/-- The calls that change the index. -/
inductive Call where
  | add (f : GoString) (c : ConnId)
  | unsub (f : GoString) (c : ConnId)
  | unsubAll (c : ConnId)
  deriving DecidableEq, Repr

namespace Subscriptions

def call (g : Nat → Nat) (this : Subscriptions) : Call → Subscriptions
  | .add f c => this.add g f c
  | .unsub f c => this.unsub f c
  | .unsubAll c => this.unsubAll c

def calls (g : Nat → Nat) (this : Subscriptions) (hist : List Call) : Subscriptions :=
  hist.foldl (call g) this

theorem calls_concat (g : Nat → Nat) (this : Subscriptions) (hist : List Call) (k : Call) :
    this.calls g (hist ++ [k]) = (this.calls g hist).call g k := List.foldl_concat ..

theorem call_retain (g : Nat → Nat) (this : Subscriptions) (k : Call) :
    (this.call g k).retain = this.retain := by
  cases k <;> simp only [call, add, unsub, unsubAll]
  all_goals repeat' split
  all_goals rfl

theorem Mentions.of_call {g : Nat → Nat} {this : Subscriptions} {c : ConnId} {k : Call}
    (h : (this.call g k).Mentions c) : this.Mentions c ∨ ∃ f, k = .add f c := by
  cases k with
  | add f c' =>
    obtain h | rfl := h.of_add
    · exact .inl h
    · exact .inr ⟨f, rfl⟩
  | unsub f c' => exact .inl h.of_unsub
  | unsubAll c' => exact .inl h.of_unsubAll

/-- A slot is let go of by cancelling the subscription it stands for. -/
theorem Pinned.call {g : Nat → Nat} {this : Subscriptions} {t : GoString} {arr n : Nat} {c : ConnId}
    (h : this.Pinned t arr n c) (hv : this.Valid) {k : Call} (hunsub : k ≠ .unsub t c)
    (hall : k ≠ .unsubAll c) : (this.call g k).Pinned t arr n c := by
  cases k with
  | add t' c' => exact h.add hv t' c'
  | unsub t' c' => exact h.unsub fun ⟨ht, hc⟩ => hunsub (ht ▸ hc ▸ rfl)
  | unsubAll c' => exact h.unsubAll fun hc => hall (hc ▸ rfl)

/-- What `subscribers(t)` returns, with nil slots removed. -/
def recipients (g : Nat → Nat) (this : Subscriptions) (t : GoString) : List ConnId :=
  ((this.subscribers g t).1.heap.contents (this.subscribers g t).2).reduceOption

end Subscriptions

/-- A filter that `add` records: without wildcards, or valid. -/
def Accepts (f : GoString) : Prop := isWildcard f = false ∨ (newWild f 0).valid = true

instance (f : GoString) : Decidable (Accepts f) := inferInstanceAs (Decidable (_ ∨ _))

/-- A filter selects a topic: by equality, or by the matching relation if it has a
wildcard. -/
def Selects (f t : GoString) : Prop :=
  (isWildcard f = false ∧ f = t) ∨ (isWildcard f = true ∧ MqttMatches (levels f) (levels t))

/-- An `add(f, c)` is live when it is followed by the calls `post`. -/
def Live (f : GoString) (c : ConnId) (post : List Call) : Prop :=
  (isWildcard f = false ∧ Call.unsub f c ∉ post ∧ Call.unsubAll c ∉ post) ∨
  (isWildcard f = true ∧ (newWild f c).valid = true ∧ Call.unsubAll c ∉ post)

instance (f : GoString) (c : ConnId) (post : List Call) : Decidable (Live f c post) :=
  inferInstanceAs (Decidable (_ ∨ _))

/-- The live adds of a history, in call order. -/
def liveAdds : List Call → List (GoString × ConnId)
  | [] => []
  | .add f c :: post => if Live f c post then (f, c) :: liveAdds post else liveAdds post
  | _ :: post => liveAdds post

/-! ### One more call -/

theorem live_concat_add {f f' : GoString} {c c' : ConnId} {post : List Call} :
    Live f c (post ++ [Call.add f' c']) ↔ Live f c post := by
  simp [Live]

theorem live_concat_unsub {f f' : GoString} {c c' : ConnId} {post : List Call} :
    Live f c (post ++ [Call.unsub f' c']) ↔
      Live f c post ∧ ¬ (isWildcard f' = false ∧ (f, c) = (f', c')) := by
  cases hw : isWildcard f with
  | true =>
      have hne : ¬ (isWildcard f' = false ∧ (f, c) = (f', c')) := by
        rintro ⟨h, heq⟩
        obtain ⟨rfl, -⟩ := Prod.mk.inj heq
        simp [hw] at h
      rw [and_iff_left hne]
      simp [Live, hw]
  | false =>
      by_cases heq : f = f' ∧ c = c'
      · obtain ⟨rfl, rfl⟩ := heq
        simp [Live, hw]
      · simp [Live, hw, heq]

theorem live_concat_unsubAll {f : GoString} {c c' : ConnId} {post : List Call} :
    Live f c (post ++ [Call.unsubAll c']) ↔ Live f c post ∧ c ≠ c' := by
  by_cases hc : c = c' <;> simp [Live, hc]

/-- What a new call does to the live adds: it keeps those that stay live and adds
what is live on its own. -/
private theorem liveAdds_concat (hist : List Call) (k : Call) (keep : GoString × ConnId → Bool)
    (hkeep : ∀ f c post, Live f c (post ++ [k]) ↔ Live f c post ∧ keep (f, c) = true) :
    liveAdds (hist ++ [k]) = (liveAdds hist).filter keep ++ liveAdds [k] := by
  induction hist with
  | nil => rfl
  | cons h hist ih =>
      cases h with
      | add f c =>
          simp only [List.cons_append, liveAdds, hkeep]
          by_cases hl : Live f c hist <;> by_cases hk : keep (f, c) = true <;> simp [hl, hk, ih]
      | unsub f c => simpa [liveAdds] using ih
      | unsubAll c => simpa [liveAdds] using ih

theorem liveAdds_concat_add (hist : List Call) (f : GoString) (c : ConnId) :
    liveAdds (hist ++ [Call.add f c]) =
      liveAdds hist ++ if Accepts f then [(f, c)] else [] := by
  rw [liveAdds_concat hist (.add f c) (fun _ => true) (by simp [live_concat_add])]
  have hlive : Live f c [] ↔ Accepts f := by
    cases hw : isWildcard f <;> simp [Live, Accepts, hw, newWild, Wild.valid]
  simp [liveAdds, hlive]

theorem liveAdds_concat_unsub (hist : List Call) (f : GoString) (c : ConnId) :
    liveAdds (hist ++ [Call.unsub f c]) =
      (liveAdds hist).filter fun p => ¬ (isWildcard f = false ∧ p = (f, c)) := by
  rw [liveAdds_concat hist (.unsub f c) (fun p => ¬ (isWildcard f = false ∧ p = (f, c)))
    fun f' c' post => by rw [live_concat_unsub, decide_eq_true_eq]]
  simp [liveAdds]

theorem liveAdds_concat_unsubAll (hist : List Call) (c : ConnId) :
    liveAdds (hist ++ [Call.unsubAll c]) = (liveAdds hist).filter fun p => p.2 ≠ c := by
  rw [liveAdds_concat hist (.unsubAll c) (fun p => p.2 ≠ c) (by simp [live_concat_unsubAll])]
  simp [liveAdds]

/-! ### Membership -/

theorem mem_liveAdds {f : GoString} {c : ConnId} {hist : List Call} :
    (f, c) ∈ liveAdds hist ↔
      ∃ pre post, hist = pre ++ .add f c :: post ∧ Live f c post := by
  induction hist with
  | nil => simp [liveAdds]
  | cons k hist ih =>
      have hsplit : (∃ pre post, k :: hist = pre ++ .add f c :: post ∧ Live f c post) ↔
          (k = .add f c ∧ Live f c hist) ∨
            ∃ pre post, hist = pre ++ .add f c :: post ∧ Live f c post := by
        constructor
        · rintro ⟨_ | ⟨k', pre⟩, post, heq, hl⟩
          · obtain ⟨rfl, rfl⟩ := List.cons.inj heq
            exact .inl ⟨rfl, hl⟩
          · obtain ⟨rfl, rfl⟩ := List.cons.inj heq
            exact .inr ⟨pre, post, rfl, hl⟩
        · rintro (⟨rfl, hl⟩ | ⟨pre, post, rfl, hl⟩)
          · exact ⟨[], hist, rfl, hl⟩
          · exact ⟨k :: pre, post, rfl, hl⟩
      rw [hsplit, ← ih]
      cases k with
      | add f' c' =>
          by_cases hl : Live f' c' hist
          · simp only [liveAdds, hl, if_true, List.mem_cons, Prod.mk.injEq, Call.add.injEq]
            constructor
            · rintro (⟨rfl, rfl⟩ | h)
              · exact .inl ⟨⟨rfl, rfl⟩, hl⟩
              · exact .inr h
            · rintro (⟨⟨rfl, rfl⟩, -⟩ | h)
              · exact .inl ⟨rfl, rfl⟩
              · exact .inr h
          · simp only [liveAdds, hl, if_false, Call.add.injEq]
            constructor
            · exact .inr
            · rintro (⟨⟨rfl, rfl⟩, hl'⟩ | h)
              · exact absurd hl' hl
              · exact h
      | unsub f' c' => simp [liveAdds]
      | unsubAll c' => simp [liveAdds]

/-- One more call adds one live add at most, and `unsubAll` leaves none of its
connection. -/
theorem mem_liveAdds_concat {f : GoString} {c : ConnId} {hist : List Call} {k : Call}
    (h : (f, c) ∈ liveAdds (hist ++ [k])) :
    (f, c) ∈ liveAdds hist ∧ k ≠ .unsubAll c ∨ k = .add f c ∧ Accepts f := by
  cases k with
  | add f' c' =>
      rw [liveAdds_concat_add] at h
      obtain h | h := List.mem_append.1 h
      · exact .inl ⟨h, nofun⟩
      · split at h
        · next hacc =>
          obtain ⟨rfl, rfl⟩ := Prod.mk.inj (List.mem_singleton.1 h)
          exact .inr ⟨rfl, hacc⟩
        · cases h
  | unsub f' c' =>
      rw [liveAdds_concat_unsub] at h
      exact .inl ⟨List.mem_of_mem_filter h, nofun⟩
  | unsubAll c' =>
      rw [liveAdds_concat_unsubAll, List.mem_filter] at h
      refine .inl ⟨h.1, ?_⟩
      rintro ⟨rfl⟩
      simp at h

theorem valid_of_mem_liveAdds {f : GoString} {c : ConnId} {hist : List Call}
    (hmem : (f, c) ∈ liveAdds hist) (hw : isWildcard f = true) : (newWild f c).valid = true := by
  obtain ⟨_, _, _, hl⟩ := mem_liveAdds.mp hmem
  rcases hl with ⟨hf, -⟩ | ⟨-, hv, -⟩
  · simp [hw] at hf
  · exact hv

section

variable {f : GoString} {c : ConnId} {hist l : List Call}

/-- A subscription that nothing cancels stays live. -/
theorem mem_liveAdds_append (h : (f, c) ∈ liveAdds hist) (hunsub : Call.unsub f c ∉ l)
    (hall : Call.unsubAll c ∉ l) : (f, c) ∈ liveAdds (hist ++ l) := by
  obtain ⟨l₁, l₂, rfl, hlive⟩ := mem_liveAdds.1 h
  refine mem_liveAdds.2 ⟨l₁, l₂ ++ l, by simp, ?_⟩
  obtain ⟨hw, hunsub', hall'⟩ | ⟨hw, hv, hall'⟩ := hlive
  · exact .inl ⟨hw, by simp [hunsub, hunsub'], by simp [hall, hall']⟩
  · exact .inr ⟨hw, hv, by simp [hall, hall']⟩

/-- A filter that was added, is accepted and was not cancelled, is live. -/
theorem mem_liveAdds_of_add (hacc : Accepts f) (hadd : Call.add f c ∈ l)
    (hunsub : Call.unsub f c ∉ l) (hall : Call.unsubAll c ∉ l) :
    (f, c) ∈ liveAdds (hist ++ l) := by
  obtain ⟨l₁, l₂, rfl⟩ := List.append_of_mem hadd
  simp only [List.mem_append, List.mem_cons, not_or] at hunsub hall
  have hlive : (f, c) ∈ liveAdds (hist ++ l₁ ++ [.add f c]) := by
    rw [liveAdds_concat_add, if_pos hacc]
    exact List.mem_append_right _ (List.mem_singleton_self _)
  simpa using mem_liveAdds_append hlive hunsub.2.2 hall.2.2

/-- A topic that was cancelled by its name and not added again is not live. -/
theorem not_mem_liveAdds_of_unsub (hwild : isWildcard f = false) (hunsub : Call.unsub f c ∈ l)
    (hadd : Call.add f c ∉ l) : (f, c) ∉ liveAdds (hist ++ l) := by
  intro h
  obtain ⟨pre, post, heq, hlive⟩ := mem_liveAdds.1 h
  obtain ⟨-, hpost, -⟩ := hlive.resolve_right (by simp [hwild])
  obtain ⟨mid, -, rfl⟩ | ⟨mid, -, hmid⟩ := List.append_eq_append_iff.1 heq
  · simp at hadd
  · -- the add is in the old history, and all the new calls are behind it
    cases mid with
    | nil =>
      obtain rfl : .add f c :: post = l := hmid
      simp at hadd
    | cons k mid =>
      obtain ⟨-, rfl⟩ := List.cons.inj hmid
      exact hpost (List.mem_append_right _ hunsub)

end

/-! ## The index after a history -/

/-- The index agrees with a history: the non-nil slots of a topic are the live adds
of that filter, and the wildcard list is the live wildcard adds. -/
structure Refines (this : Subscriptions) (hist : List Call) : Prop where
  valid : this.Valid
  slots : ∀ t, (this.slots t).reduceOption =
    ((liveAdds hist).filter fun p => isWildcard p.1 = false ∧ p.1 = t).map Prod.snd
  wildcards : this.wildcards =
    ((liveAdds hist).filter fun p => isWildcard p.1 = true).map fun p => newWild p.1 p.2

theorem refines_empty : Refines Subscriptions.empty [] where
  valid := Subscriptions.valid_empty
  slots t := by simp [Subscriptions.slots, Subscriptions.lookup, Subscriptions.empty, liveAdds]
  wildcards := rfl

variable {g : Nat → Nat} {this : Subscriptions} {hist : List Call}

theorem Refines.add (h : Refines this hist) (f : GoString) (c : ConnId) :
    Refines (this.add g f c) (hist ++ [Call.add f c]) where
  valid := Subscriptions.valid_add h.valid f c
  slots t := by
    rw [Subscriptions.slots_add h.valid, liveAdds_concat_add]
    cases hw : isWildcard f with
    | true =>
        -- a wildcard filter leaves the map alone
        have hnone : (if Accepts f then [(f, c)] else []).filter
            (fun p => decide (isWildcard p.1 = false ∧ p.1 = t)) = [] := by
          split <;> simp [hw]
        rw [List.filter_append, hnone, List.append_nil, if_neg (by simp), h.slots t]
    | false =>
        by_cases ht : t = f
        · simp [ht, h.slots f, Accepts, hw, List.reduceOption_append]
        · simp [ht, Ne.symm ht, h.slots t, Accepts, hw]
  wildcards := by
    rw [Subscriptions.wildcards_add, liveAdds_concat_add, h.wildcards]
    cases hw : isWildcard f with
    | true =>
        have hvalid : (newWild f c).valid = (newWild f 0).valid := rfl
        by_cases ha : (newWild f 0).valid = true <;> simp [Accepts, hw, hvalid, ha]
    | false => simp [Accepts, hw]

theorem Refines.unsub (h : Refines this hist) (f : GoString) (c : ConnId) :
    Refines (this.unsub f c) (hist ++ [Call.unsub f c]) where
  valid := Subscriptions.valid_unsub h.valid f c
  slots t := by
    rw [liveAdds_concat_unsub]
    by_cases ht : t = f
    · subst ht
      rw [Subscriptions.reduceOption_slots_unsub h.valid, h.slots t, List.filter_filter,
        List.filter_map, List.filter_filter]
      congr 1
      apply List.filter_congr
      rintro ⟨f', c'⟩ -
      by_cases hf : f' = t
      · subst hf
        by_cases hc : c' = c <;> cases isWildcard f' <;> simp [hc]
      · simp [hf]
    · rw [Subscriptions.slots_unsub_of_ne h.valid c ht, h.slots t, List.filter_filter]
      congr 1
      apply List.filter_congr
      rintro ⟨f', c'⟩ -
      by_cases hf : f' = t
      · subst hf
        simp [ht]
      · simp [hf]
  wildcards := by
    rw [liveAdds_concat_unsub, Subscriptions.wildcards_unsub, h.wildcards, List.filter_filter]
    congr 1
    apply List.filter_congr
    rintro ⟨f', c'⟩ -
    cases hw : isWildcard f' with
    | false => simp
    | true =>
        have hne : ¬ (isWildcard f = false ∧ (f', c') = (f, c)) := by
          rintro ⟨hf, heq⟩
          obtain ⟨rfl, -⟩ := Prod.mk.inj heq
          simp [hw] at hf
        simp only [hne, not_false_eq_true, decide_true, Bool.and_self]

theorem Refines.unsubAll (h : Refines this hist) (c : ConnId) :
    Refines (this.unsubAll c) (hist ++ [Call.unsubAll c]) where
  valid := Subscriptions.valid_unsubAll h.valid c
  slots t := by
    rw [Subscriptions.slots_unsubAll h.valid, Subscriptions.reduceOption_map_dropConn, h.slots t,
      liveAdds_concat_unsubAll, List.filter_filter, List.filter_map, List.filter_filter]
    congr 1
    apply List.filter_congr
    rintro ⟨f', c'⟩ -
    simp [Bool.and_comm]
  wildcards := by
    rw [Subscriptions.wildcards_unsubAll, h.wildcards, liveAdds_concat_unsubAll,
      List.filter_filter, List.filter_map, List.filter_filter]
    congr 1
    apply List.filter_congr
    rintro ⟨f', c'⟩ -
    simp [newWild, Bool.and_comm]

theorem Refines.call (h : Refines this hist) (k : Call) :
    Refines (this.call g k) (hist ++ [k]) := by
  cases k with
  | add f c => exact h.add f c
  | unsub f c => exact h.unsub f c
  | unsubAll c => exact h.unsubAll c

/-- Every history leads from the empty index to one that agrees with it. -/
theorem refines_calls (g : Nat → Nat) (hist : List Call) :
    Refines (Subscriptions.empty.calls g hist) hist := by
  induction hist using List.reverseRecOn with
  | nil => exact refines_empty
  | append_singleton hist k ih =>
      rw [Subscriptions.calls_concat]
      exact ih.call k

/-- Looking up the subscribers leaves the index in agreement. -/
theorem Refines.subscribers (h : Refines this hist) (t : GoString) :
    Refines (this.subscribers g t).1 hist where
  valid := Subscriptions.valid_subscribers h.valid t
  slots t' := by rw [Subscriptions.slots_subscribers h.valid, h.slots]
  wildcards := h.wildcards

theorem Refines.setRetain (h : Refines this hist) (retain : GoString → Option Retained) :
    Refines { this with retain } hist where
  valid := ⟨h.valid.slice, h.valid.disjoint, h.valid.pos, h.valid.heap⟩
  slots := h.slots
  wildcards := h.wildcards

/-- A live add of a topic without wildcards has a slot. -/
theorem Refines.slot (h : Refines this hist) {t : GoString} {c : ConnId}
    (hwild : isWildcard t = false) (hlive : (t, c) ∈ liveAdds hist) :
    ∃ k : Nat, (this.slots t)[k]? = some (some c) := by
  have hmem : c ∈ (this.slots t).reduceOption := by
    rw [h.slots]
    exact List.mem_map.2 ⟨(t, c), List.mem_filter.2 ⟨hlive, by simp [hwild]⟩, rfl⟩
  exact List.mem_iff_getElem?.1 (List.reduceOption_mem_iff.1 hmem)

/-- Some slot of a topic, or some wildcard, refers to `c`. -/
def Subscriptions.Refers (this : Subscriptions) (c : ConnId) : Prop :=
  (∃ t, some c ∈ this.slots t) ∨ ∃ w ∈ this.wildcards, w.c = c

/-- The index refers to the connections of the live adds. -/
theorem Refines.refers_iff (h : Refines this hist) {c : ConnId} :
    this.Refers c ↔ ∃ f, (f, c) ∈ liveAdds hist := by
  constructor
  · rintro (⟨t, hslot⟩ | ⟨w, hw, rfl⟩)
    · have hmem := List.reduceOption_mem_iff.2 hslot
      rw [h.slots] at hmem
      obtain ⟨⟨f, c'⟩, hf, rfl⟩ := List.mem_map.1 hmem
      exact ⟨f, List.mem_of_mem_filter hf⟩
    · rw [h.wildcards] at hw
      obtain ⟨⟨f, c'⟩, hf, rfl⟩ := List.mem_map.1 hw
      exact ⟨f, List.mem_of_mem_filter hf⟩
  · rintro ⟨f, hlive⟩
    cases hwild : isWildcard f with
    | false =>
        obtain ⟨k, hk⟩ := h.slot hwild hlive
        exact .inl ⟨f, List.mem_of_getElem? hk⟩
    | true =>
        refine .inr ⟨newWild f c, ?_, rfl⟩
        rw [h.wildcards]
        exact List.mem_map.2 ⟨(f, c), List.mem_filter.2 ⟨hlive, by simp [hwild]⟩, rfl⟩

/-! ## How often the index refers to a connection -/

theorem countP_add_countP {α : Type} {p q : α → Bool} (hpq : ∀ a, p a = true → q a = false)
    (l : List α) : l.countP p + l.countP q = l.countP fun a => p a || q a := by
  induction l with
  | nil => rfl
  | cons a l ih =>
    have ha := hpq a
    cases hp : p a <;> cases hq : q a <;> simp_all <;> omega

/-- Elements counted key by key. -/
theorem sum_map_countP {α κ : Type} [DecidableEq κ] {keys : List κ} (hkeys : keys.Nodup)
    (key : α → κ) (p : α → Bool) (l : List α) :
    (keys.map fun k => l.countP fun a => p a && key a = k).sum =
      l.countP fun a => p a && key a ∈ keys := by
  induction keys with
  | nil => simp
  | cons k keys ih =>
    obtain ⟨hk, hkeys⟩ := List.nodup_cons.1 hkeys
    rw [List.map_cons, List.sum_cons, ih hkeys, countP_add_countP]
    · refine List.countP_congr fun a _ => ?_
      simp [← and_or_left]
    · intro a ha
      simp only [Bool.and_eq_true, decide_eq_true_eq] at ha
      simp [ha.1, ha.2, hk]

/-- The number of slots and of wildcards that refer to `c`. -/
def Subscriptions.refCount (this : Subscriptions) (c : ConnId) : Nat :=
  (this.subs.keys.map fun t => (this.slots t).count (some c)).sum +
    this.wildcards.countP (·.c = c)

theorem Refines.count_slots (h : Refines this hist) (t : GoString) (c : ConnId) :
    (this.slots t).count (some c) =
      (liveAdds hist).countP fun p => (p.2 = c && !isWildcard p.1) && p.1 = t := by
  have hcount : (this.slots t).count (some c) = (this.slots t).reduceOption.count c := by
    rw [List.reduceOption, List.count_filterMap, List.count]
    rfl
  rw [hcount, h.slots, List.count, List.countP_map, List.countP_filter]
  refine List.countP_congr fun p _ => ?_
  simp [and_assoc]

/-- A topic with a live add has a key. -/
theorem Refines.mem_keys (h : Refines this hist) {t : GoString} {c : ConnId}
    (hwild : isWildcard t = false) (hlive : (t, c) ∈ liveAdds hist) : t ∈ this.subs.keys := by
  obtain ⟨k, hk⟩ := h.slot hwild hlive
  cases hl : this.subs.lookup t with
  | none => simp [Subscriptions.slots, Subscriptions.lookup, hl] at hk
  | some sl => exact AList.lookup_isSome.1 (by simp [hl])

/-- The index refers to a connection once for every live add. -/
theorem Refines.refCount (h : Refines this hist) (c : ConnId) :
    this.refCount c = (liveAdds hist).countP (·.2 = c) := by
  have hslots : (this.subs.keys.map fun t => (this.slots t).count (some c)).sum =
      (liveAdds hist).countP fun p => p.2 = c && !isWildcard p.1 := by
    simp only [h.count_slots]
    rw [sum_map_countP this.subs.keys_nodup Prod.fst fun p => p.2 = c && !isWildcard p.1]
    refine List.countP_congr fun p hp => ?_
    simp only [Bool.and_eq_true, decide_eq_true_eq, Bool.not_eq_true', and_iff_left_iff_imp]
    exact fun hc => h.mem_keys hc.2 hp
  have hwilds : this.wildcards.countP (·.c = c) =
      (liveAdds hist).countP fun p => p.2 = c && isWildcard p.1 := by
    rw [h.wildcards, List.countP_map, List.countP_filter]
    simp [newWild]
  rw [Subscriptions.refCount, hslots, hwilds, countP_add_countP]
  · refine List.countP_congr fun p _ => ?_
    cases isWildcard p.1 <;> simp
  · intro p hp
    simp only [Bool.and_eq_true, Bool.not_eq_true'] at hp
    simp [hp.2]

/-- One more call adds at most one live add, of its own connection. -/
theorem countP_liveAdds_concat (hist : List Call) (k : Call) (c : ConnId) :
    (liveAdds (hist ++ [k])).countP (·.2 = c) ≤ (liveAdds hist).countP (·.2 = c) ∨
      (∃ f, k = .add f c) ∧
        (liveAdds (hist ++ [k])).countP (·.2 = c) ≤ (liveAdds hist).countP (·.2 = c) + 1 := by
  cases k with
  | add f c' =>
      rw [liveAdds_concat_add, List.countP_append]
      by_cases hc : c' = c
      · subst hc
        refine .inr ⟨⟨f, rfl⟩, ?_⟩
        split <;> simp
      · refine .inl ?_
        split <;> simp [hc]
  | unsub f c' =>
      rw [liveAdds_concat_unsub]
      exact .inl List.filter_sublist.countP_le
  | unsubAll c' =>
      rw [liveAdds_concat_unsubAll]
      exact .inl List.filter_sublist.countP_le

/-- A call that cancels a live add leaves at least one less. -/
theorem countP_liveAdds_unsub_lt {f : GoString} {c : ConnId} (hwild : isWildcard f = false)
    (hlive : (f, c) ∈ liveAdds hist) :
    (liveAdds (hist ++ [Call.unsub f c])).countP (·.2 = c) < (liveAdds hist).countP (·.2 = c) := by
  rw [liveAdds_concat_unsub, List.countP_eq_countP_filter_add (liveAdds hist) _
    fun p => ¬ (isWildcard f = false ∧ p = (f, c))]
  refine Nat.lt_add_of_pos_right (List.countP_pos_iff.2 ⟨(f, c), ?_, by simp⟩)
  exact List.mem_filter.2 ⟨hlive, by simp [hwild]⟩

/-! ## What `subscribers` returns -/

/-- What `subscribers` returns on an index that agrees with a history. -/
theorem Refines.recipients (h : Refines this hist) (t : GoString) :
    this.recipients g t =
      ((liveAdds hist).filter fun p => isWildcard p.1 = false ∧ p.1 = t).map Prod.snd ++
      ((liveAdds hist).filter fun p =>
        isWildcard p.1 = true ∧ MqttMatches (levels p.1) (levels t)).map Prod.snd := by
  rw [Subscriptions.recipients, Subscriptions.contents_subscribers h.valid,
    List.reduceOption_append, h.slots t]
  congr 1
  have hsome : ∀ l : List Wild, (l.map fun w => some w.c).reduceOption = l.map (·.c) := by
    intro l
    induction l with
    | nil => rfl
    | cons w l ih => simpa using ih
  rw [Subscriptions.wildMatches, hsome, h.wildcards, List.filter_map, List.map_map,
    List.filter_filter]
  have hsnd : ((fun w : Wild => w.c) ∘ fun p : GoString × ConnId => newWild p.1 p.2) = Prod.snd :=
    rfl
  rw [hsnd]
  congr 1
  apply List.filter_congr
  rintro ⟨f, c⟩ hmem
  cases hw : isWildcard f with
  | false => simp
  | true =>
      -- a live wildcard add is valid, so `matches` decides the relation
      have hdec : (newWild f c).matches (levels t) =
          decide (MqttMatches (levels f) (levels t)) := by
        rw [Bool.eq_iff_iff, decide_eq_true_eq]
        exact Wild.matches_iff (valid_of_mem_liveAdds hmem hw) (levels t)
      simp [hdec]

/-- After any history of calls on an empty index, `subscribers` returns the
connections of the live wildcard-free adds of the topic, then those of the live
wildcard adds that match it, each in call order and once per add. -/
theorem subscribers_eq_liveAdds (g : Nat → Nat) (hist : List Call) (t : GoString) :
    (Subscriptions.empty.calls g hist).recipients g t =
      ((liveAdds hist).filter fun p => isWildcard p.1 = false ∧ p.1 = t).map Prod.snd ++
      ((liveAdds hist).filter fun p =>
        isWildcard p.1 = true ∧ MqttMatches (levels p.1) (levels t)).map Prod.snd :=
  (refines_calls g hist).recipients t

/-! ## Cancelled filters

`unsub` looks only into the map of wildcard-free filters. A wildcard filter that is
unsubscribed stays in the wildcard list until `unsubAll`. -/

/-- `c` holds `f`: the filter was accepted for `c` and not cancelled since. -/
def Held (hist : List Call) (f : GoString) (c : ConnId) : Prop :=
  Accepts f ∧ ∃ pre post, hist = pre ++ .add f c :: post ∧
    Call.unsub f c ∉ post ∧ Call.unsubAll c ∉ post

/-- A wildcard filter of `c` is stale: it was unsubscribed after its last `add`, and
no `unsubAll` has come since. -/
def Stale (hist : List Call) (f : GoString) (c : ConnId) : Prop :=
  isWildcard f = true ∧ Accepts f ∧ ¬ Held hist f c ∧
    ∃ pre post, hist = pre ++ .add f c :: post ∧ Call.unsubAll c ∉ post

theorem mem_recipients {t : GoString} {c : ConnId} (h : Refines this hist) :
    c ∈ this.recipients g t ↔ ∃ f, (f, c) ∈ liveAdds hist ∧ Selects f t := by
  rw [h.recipients]
  simp only [List.mem_append, List.mem_map, List.mem_filter, decide_eq_true_eq, Prod.exists,
    exists_eq_right, Selects]
  constructor
  · rintro (⟨f, hmem, hs⟩ | ⟨f, hmem, hs⟩)
    · exact ⟨f, hmem, .inl hs⟩
    · exact ⟨f, hmem, .inr hs⟩
  · rintro ⟨f, hmem, hs | hs⟩
    · exact .inl ⟨f, hmem, hs⟩
    · exact .inr ⟨f, hmem, hs⟩

/-- The filters the code still routes for `c` are those it holds and the stale ones. -/
theorem mem_liveAdds_iff_held_or_stale {f : GoString} {c : ConnId} :
    (f, c) ∈ liveAdds hist ↔ Held hist f c ∨ Stale hist f c := by
  rw [mem_liveAdds]
  constructor
  · rintro ⟨pre, post, heq, ⟨hw, hu, hall⟩ | ⟨hw, hv, hall⟩⟩
    · exact .inl ⟨.inl hw, pre, post, heq, hu, hall⟩
    · by_cases hheld : Held hist f c
      · exact .inl hheld
      · exact .inr ⟨hw, .inr hv, hheld, pre, post, heq, hall⟩
  · rintro (⟨hacc, pre, post, heq, hu, hall⟩ | ⟨hw, hacc, -, pre, post, heq, hall⟩)
    · refine ⟨pre, post, heq, ?_⟩
      cases hw : isWildcard f with
      | false => exact .inl ⟨hw, hu, hall⟩
      | true =>
          rcases hacc with hf | hv
          · simp [hw] at hf
          · exact .inr ⟨hw, hv, hall⟩
    · refine ⟨pre, post, heq, ?_⟩
      rcases hacc with hf | hv
      · simp [hw] at hf
      · exact .inr ⟨hw, hv, hall⟩

/-- A filter that was unsubscribed and not added again is not held. -/
theorem not_held_of_unsub {f : GoString} {c : ConnId} {pre post : List Call}
    (hadd : Call.add f c ∉ post) : ¬ Held (pre ++ .unsub f c :: post) f c := by
  rintro ⟨-, pre', post', heq, hu, -⟩
  rcases List.append_eq_append_iff.mp heq with ⟨l, rfl, hl⟩ | ⟨l, rfl, hl⟩
  · -- the `add` stands at or after the `unsub`
    cases l with
    | nil => simp at hl
    | cons k l =>
        obtain ⟨rfl, rfl⟩ := List.cons.inj hl
        simp at hadd
  · cases l with
    | nil => simp at hl
    | cons k l =>
        obtain ⟨rfl, rfl⟩ := List.cons.inj hl
        simp at hu

/-- A valid wildcard filter selects the topic that is spelled like it. -/
theorem selects_self {f : GoString} (hw : isWildcard f = true) (hv : (newWild f 0).valid = true) :
    Selects f f := by
  refine .inr ⟨hw, ?_⟩
  have hrefl : ∀ l : List GoString, List.Forall₂ LevelMatches l l := fun l =>
    List.forall₂_same.mpr fun _ _ => .inr rfl
  by_cases hm : hashLevel ∈ levels f
  · have hne : levels f ≠ [] := List.ne_nil_of_mem hm
    have hsplit := List.dropLast_append_getLast hne
    have hlast : (levels f).getLast hne = hashLevel := by
      rw [← hsplit, List.mem_append, List.mem_singleton] at hm
      rcases hm with hm | hm
      · exact absurd hm ((newWild f 0).valid_iff.mp hv).2
      · exact hm.symm
    rw [hlast] at hsplit
    exact .inr ⟨_, hsplit.symm, _, [hashLevel], hsplit.symm, hrefl _⟩
  · exact .inl ⟨hm, hrefl _⟩

/-- `unsub(f, c)` takes effect exactly when no stale filter shows: every topic that
a stale filter of `c` selects is selected by a filter other than `f` that `c` holds.
When `f` was the only filter of `c`, this means that `f` has no wildcard or that an
`unsubAll` has wiped it. -/
theorem unsub_takes_effect_iff (g : Nat → Nat) {hist pre post : List Call} {f : GoString}
    {c : ConnId} (hacc : Accepts f) (hhist : hist = pre ++ .unsub f c :: post)
    (hadd : Call.add f c ∉ post) :
    ((∀ t, c ∈ (Subscriptions.empty.calls g hist).recipients g t →
        ∃ f', f' ≠ f ∧ Held hist f' c ∧ Selects f' t) ↔
      ∀ f', Stale hist f' c → ∀ t, Selects f' t →
        ∃ f'', f'' ≠ f ∧ Held hist f'' c ∧ Selects f'' t) ∧
    ((∀ f', Call.add f' c ∈ hist → f' = f) →
      ((∀ t, c ∉ (Subscriptions.empty.calls g hist).recipients g t) ↔
        isWildcard f = false ∨
          ∀ pre' post', hist = pre' ++ .add f c :: post' → Call.unsubAll c ∈ post')) := by
  have hnot : ¬ Held hist f c := hhist ▸ not_held_of_unsub hadd
  have hmem := fun t => mem_recipients (g := g) (t := t) (c := c) (refines_calls g hist)
  refine ⟨⟨?_, ?_⟩, ?_⟩
  · intro heffect f' hstale t hsel
    exact heffect t ((hmem t).mpr ⟨f', mem_liveAdds_iff_held_or_stale.mpr (.inr hstale), hsel⟩)
  · intro hcover t hin
    obtain ⟨f', hlive, hsel⟩ := (hmem t).mp hin
    rcases mem_liveAdds_iff_held_or_stale.mp hlive with hheld | hstale
    · exact ⟨f', fun heq => hnot (heq ▸ hheld), hheld, hsel⟩
    · exact hcover f' hstale t hsel
  · intro honly
    constructor
    · intro hnone
      by_contra hbad
      push Not at hbad
      obtain ⟨hw, pre', post', heq, hall⟩ := hbad
      have hw : isWildcard f = true := by simpa using hw
      have hv : (newWild f 0).valid = true := by
        rcases hacc with hf | hv
        · simp [hw] at hf
        · exact hv
      refine hnone f ((hmem f).mpr ⟨f, mem_liveAdds_iff_held_or_stale.mpr (.inr ?_),
        selects_self hw hv⟩)
      exact ⟨hw, hacc, hnot, pre', post', heq, hall⟩
    · intro hcond t hin
      obtain ⟨f', hlive, -⟩ := (hmem t).mp hin
      obtain ⟨_, _, hsplit, -⟩ := mem_liveAdds.mp hlive
      obtain rfl : f' = f := honly f' (by rw [hsplit]; simp)
      rcases mem_liveAdds_iff_held_or_stale.mp hlive with hheld | ⟨hw, -, -, pre', post', heq, hall⟩
      · exact hnot hheld
      · rcases hcond with hf | hcond
        · simp [hw] at hf
        · exact hall (hcond pre' post' heq)

/-- The history in which connection `0` subscribes to `a/+` and unsubscribes again. -/
def staleHistory : List Call := [.add (str "a/+") 0, .unsub (str "a/+") 0]

theorem unsub_takes_effect_iff_staleHistory :
    Accepts (str "a/+") ∧ staleHistory = [.add (str "a/+") 0] ++ .unsub (str "a/+") 0 :: [] ∧
    Call.add (str "a/+") 0 ∉ ([] : List Call) ∧
    ((∀ t, 0 ∈ (Subscriptions.empty.calls id staleHistory).recipients id t →
        ∃ f', f' ≠ str "a/+" ∧ Held staleHistory f' 0 ∧ Selects f' t) ↔
      ∀ f', Stale staleHistory f' 0 → ∀ t, Selects f' t →
        ∃ f'', f'' ≠ str "a/+" ∧ Held staleHistory f'' 0 ∧ Selects f'' t) :=
  ⟨by decide +kernel, rfl, by simp,
    (@unsub_takes_effect_iff id staleHistory [.add (str "a/+") 0] [] (str "a/+") 0
      (by decide +kernel) rfl (by simp)).1⟩

/-- Unsubscribing from `a/+` does not stop the delivery of `a/b`, although no other
filter of the connection accounts for it. -/
theorem unsub_misses_wildcard :
    ¬ ∀ (g : Nat → Nat) (hist pre post : List Call) (f : GoString) (c : ConnId),
      Accepts f → hist = pre ++ .unsub f c :: post → Call.add f c ∉ post →
      ∀ t, c ∈ (Subscriptions.empty.calls g hist).recipients g t →
        ∃ f', f' ≠ f ∧ Held hist f' c ∧ Selects f' t := by
  intro h
  have hin : 0 ∈ (Subscriptions.empty.calls id staleHistory).recipients id (str "a/b") := by
    decide +kernel
  obtain ⟨f', hne, ⟨-, pre, post, heq, -⟩, -⟩ :=
    h id staleHistory [.add (str "a/+") 0] [] (str "a/+") 0 (by decide +kernel) rfl (by simp) _ hin
  have hmem : Call.add f' 0 ∈ staleHistory := by rw [heq]; simp
  simp [staleHistory] at hmem
  exact hne hmem
