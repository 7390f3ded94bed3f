-- SUMMARY: The subscription index as a whole: which filters it takes, what its exact-topic map is worth against the general matcher, and when a list of it is dead.
import Mhub.Base.Path
import Mhub.Routing

/-!
# The index and its filters

`add` decides by a test on the whole filter, a split and a loop over the levels.
`WellFormed` is the rule of the protocol on neighbouring characters, and the two are the
same.

A filter without wildcards is kept in a map instead of the wildcard list. `WildIndex` is
the index without that map; both find the same connections.

`unsub` deletes a list in which it leaves only nil slots. `unsubAll` does not, so the
last section says when it may be called.
-/

/-! ## The filters that `add` takes -/

/-- The byte of `+`. -/
def plusByte : UInt8 := 0x2B

/-- The byte of `#`. -/
def hashByte : UInt8 := 0x23

/-- Every `+` takes a whole level, and so does every `#`, of which there is one at most,
at the very end. -/
structure WellFormed (f : GoString) : Prop where
  plus_left : ∀ {pre post}, f = pre ++ plusByte :: post → pre = [] ∨ pre.getLast? = some slash
  plus_right : ∀ {pre post}, f = pre ++ plusByte :: post → post = [] ∨ post.head? = some slash
  hash_left : ∀ {pre post}, f = pre ++ hashByte :: post → pre = [] ∨ pre.getLast? = some slash
  hash_right : ∀ {pre post}, f = pre ++ hashByte :: post → post = []

theorem isWildcard_iff {f : GoString} : isWildcard f = true ↔ hashByte ∈ f ∨ plusByte ∈ f := by
  simp [isWildcard, hashByte, plusByte]

variable {f : GoString} {pre post : List UInt8} {a : UInt8}

/-- A wildcard character of a valid filter is a level by itself. -/
theorem piece_of_valid {c : ConnId} (hv : (newWild f c).valid = true)
    (ha : a = plusByte ∨ a = hashByte)
    (hf : f = pre ++ a :: post) : Path.Piece slash f pre [a] post := by
  have hne : a ≠ slash := by
    rintro rfl
    revert ha
    decide
  obtain ⟨A, l, r, B, rfl, rfl, hpiece⟩ := Path.exists_piece_of_letter pre post hne
  rw [← hf] at hpiece
  obtain ⟨cs, ds, hsplit, -⟩ := hpiece.splitOn
  have hmem : l ++ a :: r ∈ levels f := by
    rw [levels, hsplit]
    simp
  have hwild : isWildcard (l ++ a :: r) = true := by
    rw [isWildcard_iff]
    obtain rfl | rfl := ha <;> simp
  have hlen := ((newWild f c).valid_iff.1 hv).1 _ hmem hwild
  obtain ⟨rfl, rfl⟩ : l = [] ∧ r = [] := by
    simp only [List.length_append, List.length_cons] at hlen
    exact ⟨List.eq_nil_of_length_eq_zero (by omega), List.eq_nil_of_length_eq_zero (by omega)⟩
  simpa using hpiece

/-- A valid filter keeps to the rule of the protocol. -/
theorem wellFormed_of_valid {c : ConnId} (hv : (newWild f c).valid = true) : WellFormed f where
  plus_left hf := (piece_of_valid hv (.inl rfl) hf).left
  plus_right hf := (piece_of_valid hv (.inl rfl) hf).right
  hash_left hf := (piece_of_valid hv (.inr rfl) hf).left
  hash_right hf := by
    obtain ⟨cs, ds, hsplit, hds⟩ := (piece_of_valid hv (.inr rfl) hf).splitOn
    refine hds.1 (by_contra fun hne => ((newWild f c).valid_iff.1 hv).2 ?_)
    rw [newWild, levels, hsplit, List.dropLast_append_cons]
    exact List.mem_append_right _ (by cases ds <;> simp_all [hashLevel, hashByte])

/-- In a well-formed filter a level with a wildcard character has no other one. -/
theorem WellFormed.level (h : WellFormed f) {A l r B : List UInt8}
    (ha : a = plusByte ∨ a = hashByte)
    (hpiece : Path.Piece slash f A (l ++ a :: r) B) : l = [] ∧ r = [] := by
  have hf : f = (A ++ l) ++ a :: (r ++ B) := by simp [hpiece.text]
  have hleft : A ++ l = [] ∨ (A ++ l).getLast? = some slash := by
    obtain rfl | rfl := ha
    · exact h.plus_left hf
    · exact h.hash_left hf
  have hright : r ++ B = [] ∨ (r ++ B).head? = some slash := by
    obtain rfl | rfl := ha
    · exact h.plus_right hf
    · exact .inl (h.hash_right hf)
  have hwhole := hpiece.whole
  constructor
  · cases l using List.reverseRecOn with
    | nil => rfl
    | append_singleton l b =>
      obtain hnil | hlast := hleft
      · simp at hnil
      · obtain rfl : b = slash := by simpa [← List.append_assoc] using hlast
        simp at hwhole
  · cases r with
    | nil => rfl
    | cons b r =>
      obtain hnil | hhead := hright
      · simp at hnil
      · obtain rfl : b = slash := by simpa using hhead
        simp at hwhole

theorem WellFormed.valid (h : WellFormed f) (c : ConnId) : (newWild f c).valid = true := by
  refine (newWild f c).valid_iff.2 ⟨?_, ?_⟩
  · intro part hmem hwild
    obtain ⟨cs, ds, hsplit⟩ := List.append_of_mem hmem
    obtain ⟨A, B, hpiece, -⟩ := Path.exists_piece hsplit
    obtain ⟨a, ha, l, r, rfl⟩ : ∃ a, (a = plusByte ∨ a = hashByte) ∧ ∃ l r, part = l ++ a :: r := by
      obtain hmem | hmem := isWildcard_iff.1 hwild
      · exact ⟨hashByte, .inr rfl, List.append_of_mem hmem⟩
      · exact ⟨plusByte, .inl rfl, List.append_of_mem hmem⟩
    obtain ⟨rfl, rfl⟩ := h.level ha hpiece
    rfl
  · intro hmem
    obtain ⟨cs, ds, hdrop⟩ := List.append_of_mem hmem
    have hne : levels f ≠ [] := List.splitOn_ne_nil _ _
    have hsplit : levels f = cs ++ hashLevel :: (ds ++ [(levels f).getLast hne]) := by
      rw [← List.cons_append, ← List.append_assoc, ← hdrop]
      exact (List.dropLast_append_getLast hne).symm
    obtain ⟨A, B, hpiece, hB⟩ := Path.exists_piece hsplit
    have htext : f = A ++ hashByte :: B := by simp [hpiece.text, hashLevel, hashByte]
    simp at hB
    exact hB (h.hash_right htext)

/-- What `add` takes is what the protocol allows. -/
theorem accepts_iff_wellFormed : Accepts f ↔ WellFormed f := by
  constructor
  · rintro (hwild | hv)
    · have hnone : ¬ (hashByte ∈ f ∨ plusByte ∈ f) := fun h => by simp [isWildcard_iff.2 h] at hwild
      push Not at hnone
      constructor <;> rintro pre post rfl <;> simp at hnone
    · exact wellFormed_of_valid hv
  · exact fun h => .inr (h.valid 0)

variable {g : Nat → Nat} {this : Subscriptions} {hist : List Call}

namespace Subscriptions

/-- `this'` has one more slot than `this` for `f`, of `c`. -/
def GainsSlot (this this' : Subscriptions) (f : GoString) (c : ConnId) : Prop :=
  this'.slots f = this.slots f ++ [some c]

/-- `this'` has one more wildcard than `this`, for `f` of `c`. -/
def GainsWild (this this' : Subscriptions) (f : GoString) (c : ConnId) : Prop :=
  this'.wildcards = this.wildcards ++ [newWild f c]

theorem gainsSlot_add_iff (hv : this.Valid) (c : ConnId) :
    this.GainsSlot (this.add g f c) f c ↔ isWildcard f = false := by
  rw [GainsSlot, slots_add hv]
  cases isWildcard f <;> simp

theorem gainsWild_add_iff (c : ConnId) :
    this.GainsWild (this.add g f c) f c ↔ isWildcard f = true ∧ (newWild f c).valid = true := by
  rw [GainsWild, wildcards_add]
  split <;> simp_all

end Subscriptions

/-- `add` records a subscription exactly for the well-formed filters, and it does so in
the wildcard list exactly for those with a wildcard. -/
theorem add_records_iff (hv : this.Valid) (f : GoString) (c : ConnId) :
    (this.GainsSlot (this.add g f c) f c ∨ this.GainsWild (this.add g f c) f c ↔ WellFormed f) ∧
      (this.GainsWild (this.add g f c) f c ↔
        WellFormed f ∧ (plusByte ∈ f ∨ hashByte ∈ f)) := by
  have hvalid : (newWild f c).valid = (newWild f 0).valid := rfl
  rw [Subscriptions.gainsSlot_add_iff hv, Subscriptions.gainsWild_add_iff, hvalid,
    or_comm (a := plusByte ∈ f), ← isWildcard_iff, ← accepts_iff_wellFormed, Accepts]
  cases isWildcard f <;> simp

theorem add_records_iff_empty :
    Subscriptions.empty.Valid ∧
      (Subscriptions.empty.GainsWild (Subscriptions.empty.add id (str "a/+") 0) (str "a/+") 0 ↔
        WellFormed (str "a/+") ∧ (plusByte ∈ str "a/+" ∨ hashByte ∈ str "a/+")) :=
  ⟨Subscriptions.valid_empty, (add_records_iff Subscriptions.valid_empty (str "a/+") 0).2⟩

/-! ## The map of exact topics -/

theorem levels_injective : Function.Injective levels := by
  intro f t h
  have hjoin (p : GoString) : [slash].intercalate (levels p) = p := List.intercalate_splitOn slash
  rw [← hjoin f, h, hjoin t]

/-- A level of a filter without wildcards is not one. -/
theorem not_isWildcard_of_mem_levels (hf : isWildcard f = false) {part : GoString}
    (hmem : part ∈ levels f) : isWildcard part = false := by
  obtain ⟨cs, ds, hsplit⟩ := List.append_of_mem hmem
  obtain ⟨A, B, hpiece, -⟩ := Path.exists_piece hsplit
  rw [Bool.eq_false_iff, ne_eq, isWildcard_iff] at hf ⊢
  intro h
  apply hf
  simp only [hpiece.text, List.mem_append]
  exact h.imp (fun h => .inl (.inr h)) fun h => .inl (.inr h)

theorem valid_of_not_isWildcard (hf : isWildcard f = false) (c : ConnId) :
    (newWild f c).valid = true :=
  (accepts_iff_wellFormed.1 (.inl hf)).valid c

/-- On a filter without wildcards the matcher tests for equality. -/
theorem matches_iff_eq (hf : isWildcard f = false) (t : GoString) (c : ConnId) :
    (newWild f c).matches (levels t) = true ↔ f = t := by
  have hplain : ∀ part ∈ levels f, part ≠ plusLevel ∧ part ≠ hashLevel := by
    intro part hmem
    have hpart := not_isWildcard_of_mem_levels hf hmem
    constructor <;> rintro rfl
    · simp [isWildcard_plusLevel] at hpart
    · simp [isWildcard_hashLevel] at hpart
  have hhash : hashLevel ∉ levels f := fun h => (hplain _ h).2 rfl
  rw [Wild.matches_iff (valid_of_not_isWildcard hf c), mqttMatches_iff_getElem]
  change hashLevel ∉ levels f ∧ _ ∨ _ ↔ _
  constructor
  · rintro (⟨-, hlen, hlevel⟩ | ⟨G, hG, -⟩)
    · refine levels_injective (List.ext_getElem hlen fun i hi ht => ?_)
      exact (hlevel i hi ht).resolve_left (hplain _ (List.getElem_mem hi)).1
    · refine absurd ?_ hhash
      rw [show levels f = _ from hG]
      simp
  · rintro rfl
    exact .inl ⟨hhash, rfl, fun _ _ _ => .inr rfl⟩

/-- The index in which every filter is kept in the wildcard list. -/
structure WildIndex where
  wildcards : List Wild

namespace WildIndex

def empty : WildIndex := ⟨[]⟩

/-- The calls of the index. As there, a filter with wildcards is cancelled by `unsubAll`
only. -/
def call (this : WildIndex) : Call → WildIndex
  | .add f c =>
    let w := newWild f c
    if w.valid then ⟨this.wildcards ++ [w]⟩ else this
  | .unsub f c => if isWildcard f then this else ⟨this.wildcards.filter (· ≠ newWild f c)⟩
  | .unsubAll c => ⟨this.wildcards.filter (·.c ≠ c)⟩

def calls (this : WildIndex) (hist : List Call) : WildIndex := hist.foldl call this

def subscribers (this : WildIndex) (t : GoString) : List ConnId :=
  (this.wildcards.filter fun w => w.matches (levels t)).map (·.c)

end WildIndex

theorem newWild_inj {f' : GoString} {c c' : ConnId} :
    newWild f c = newWild f' c' ↔ f = f' ∧ c = c' := by
  simp [newWild, levels_injective.eq_iff]

theorem WildIndex.call_wildcards {ws : WildIndex} (k : Call)
    (h : ws.wildcards = (liveAdds hist).map fun p => newWild p.1 p.2) :
    (ws.call k).wildcards = (liveAdds (hist ++ [k])).map fun p => newWild p.1 p.2 := by
  cases k with
  | add f c =>
    have hacc : (newWild f c).valid = true ↔ Accepts f :=
      ⟨.inr, fun h => (accepts_iff_wellFormed.1 h).valid c⟩
    rw [liveAdds_concat_add, List.map_append, ← h]
    by_cases hv : (newWild f c).valid = true
    · simp [WildIndex.call, hv, hacc.1 hv]
    · simp [WildIndex.call, hv, mt hacc.2 hv]
  | unsub f c =>
    rw [liveAdds_concat_unsub]
    cases hf : isWildcard f with
    | true => simp [WildIndex.call, hf, h]
    | false =>
      simp only [WildIndex.call, hf, h, List.filter_map, Bool.false_eq_true, if_false]
      refine congrArg _ (List.filter_congr fun p _ => ?_)
      simp [newWild_inj, Prod.ext_iff]
  | unsubAll c =>
    rw [liveAdds_concat_unsubAll]
    simp only [WildIndex.call, h, List.filter_map]
    rfl

theorem wildIndex_calls (hist : List Call) :
    (WildIndex.empty.calls hist).wildcards = (liveAdds hist).map fun p => newWild p.1 p.2 := by
  induction hist using List.reverseRecOn with
  | nil => rfl
  | append_singleton hist k ih =>
    rw [WildIndex.calls, List.foldl_concat]
    exact WildIndex.call_wildcards k ih

/-- Looking a topic up under an exact filter answers what the matcher would. So the index
without the map of exact topics finds the same connections, each as often. -/
theorem exact_path_agrees (g : Nat → Nat) :
    (∀ (f t : GoString) (c : ConnId), isWildcard f = false →
      (f = t ↔ (newWild f c).matches (levels t) = true)) ∧
    ∀ (hist : List Call) (t : GoString),
      ((Subscriptions.empty.calls g hist).recipients g t).Perm
        ((WildIndex.empty.calls hist).subscribers t) := by
  refine ⟨fun f t c hf => (matches_iff_eq hf t c).symm, fun hist t => ?_⟩
  have hsnd : ((fun w : Wild => w.c) ∘ fun p : GoString × ConnId => newWild p.1 p.2) = Prod.snd :=
    rfl
  rw [(refines_calls g hist).recipients, WildIndex.subscribers, wildIndex_calls, List.filter_map,
    List.map_map, hsnd, ← List.map_append]
  -- the two halves of the answer are those of the live adds that match
  refine List.Perm.map _ ?_
  refine .trans (.of_eq ?_) (List.filter_append_perm (fun p => !isWildcard p.1) _)
  rw [List.filter_filter, List.filter_filter]
  congr 1 <;> refine List.filter_congr fun p hp => ?_
  · cases hf : isWildcard p.1 with
    | true => simp
    | false => simp [← matches_iff_eq hf t p.2]
  · cases hf : isWildcard p.1 with
    | true =>
      have hmatch := Wild.matches_iff (valid_of_mem_liveAdds hp hf) (levels t)
      have hdec : (newWild p.1 p.2).matches (levels t) =
          decide (MqttMatches (levels p.1) (levels t)) := by
        rw [Bool.eq_iff_iff, decide_eq_true_eq]
        exact hmatch
      simp [hdec]
    | false => simp

/-! ## Lists without a subscriber -/

namespace Subscriptions

/-- The list of every topic has a slot that is not nil. -/
def NoDeadList (this : Subscriptions) : Prop := ∀ t ∈ this.subs.keys, ∃ c, some c ∈ this.slots t

/-- The list of every topic refers to a connection other than `c`. -/
def Spares (this : Subscriptions) (c : ConnId) : Prop :=
  ∀ t ∈ this.subs.keys, ∃ d, d ≠ c ∧ some d ∈ this.slots t

theorem NoDeadList.add (h : this.NoDeadList) (hv : this.Valid) (f : GoString) (c : ConnId) :
    (this.add g f c).NoDeadList := by
  intro t ht
  rw [slots_add hv]
  split
  · exact ⟨c, by simp⟩
  · next hne =>
    refine h t ?_
    cases hf : isWildcard f with
    | true =>
      simp only [Subscriptions.add, hf, if_true] at ht
      split at ht <;> exact ht
    | false =>
      have hne : t ≠ f := fun heq => hne ⟨hf, heq⟩
      simpa [Subscriptions.add, hf, hne] using ht

/-- A topic that `unsub` keeps was there before. -/
theorem mem_keys_of_unsub {t : GoString} {c : ConnId} (ht : t ∈ (this.unsub f c).subs.keys) :
    t ∈ this.subs.keys := by
  unfold Subscriptions.unsub at ht
  split at ht
  · exact ht
  · simp only at ht
    split at ht
    · exact AList.mem_keys.1 (AList.mem_erase.1 (AList.mem_keys.2 ht)).2
    · exact ht

/-- `unsub` keeps the list of its topic only with a slot that is not nil. -/
theorem exists_slot_unsub (hv : this.Valid) {c : ConnId} (hf : f ∈ (this.unsub f c).subs.keys) :
    ∃ d, some d ∈ (this.unsub f c).slots f := by
  cases hl : this.subs.lookup f with
  | none => exact absurd (mem_keys_of_unsub hf) (AList.lookup_eq_none.1 hl)
  | some sl =>
    have hlen := ((hv.slice hl).mapInPlace sl (dropConn c)).length_contents
    simp only [Subscriptions.unsub, hl] at hf ⊢
    split at hf
    · exact absurd rfl (AList.mem_erase.1 (AList.mem_keys.2 hf)).1
    · next hnils =>
      rw [if_neg hnils]
      rw [← hlen, List.countP_eq_length] at hnils
      push Not at hnils
      obtain ⟨x, hx, hsome⟩ := hnils
      obtain ⟨d, rfl⟩ := Option.ne_none_iff_exists'.1 (by simpa using hsome)
      exact ⟨d, by simpa [slots, lookup, hl] using hx⟩

theorem NoDeadList.unsub (h : this.NoDeadList) (hv : this.Valid) (f : GoString) (c : ConnId) :
    (this.unsub f c).NoDeadList := by
  intro t ht
  by_cases htf : t = f
  · subst htf
    exact exists_slot_unsub hv ht
  · rw [slots_unsub_of_ne hv c htf]
    exact h t (mem_keys_of_unsub ht)

/-- `unsubAll` leaves the lists in which it finds another connection. -/
theorem noDeadList_unsubAll_iff (hv : this.Valid) (c : ConnId) :
    (this.unsubAll c).NoDeadList ↔ this.Spares c := by
  have hkeys : (this.unsubAll c).subs.keys = this.subs.keys := rfl
  rw [NoDeadList, Spares, hkeys]
  refine forall₂_congr fun t _ => exists_congr fun d => ?_
  rw [slots_unsubAll hv, List.mem_map]
  constructor
  · rintro ⟨x, hx, hd⟩
    unfold dropConn at hd
    split at hd
    · cases hd
    · next hne => exact ⟨fun heq => hne (heq ▸ hd), hd ▸ hx⟩
  · rintro ⟨hne, hd⟩
    exact ⟨some d, hd, by simp [dropConn, hne]⟩

/-- Only `unsubAll` can leave a dead list. -/
theorem noDeadList_call_iff (h : this.NoDeadList) (hv : this.Valid) (k : Call) :
    (this.call g k).NoDeadList ↔ ∀ c, k = .unsubAll c → this.Spares c := by
  cases k with
  | add f c => exact iff_of_true (h.add hv f c) (by simp)
  | unsub f c => exact iff_of_true (h.unsub hv f c) (by simp)
  | unsubAll c => simpa [call] using noDeadList_unsubAll_iff hv c

end Subscriptions

/-- No list is dead in any state of a history exactly if every `unsubAll(c)` in it finds
another connection than `c` in the list of every topic. -/
theorem no_dead_list_iff (g : Nat → Nat) (hist : List Call) :
    (∀ pre, pre <+: hist → (Subscriptions.empty.calls g pre).NoDeadList) ↔
      ∀ pre c, pre ++ [Call.unsubAll c] <+: hist → (Subscriptions.empty.calls g pre).Spares c := by
  have hvalid pre := (refines_calls g pre).valid
  constructor
  · intro h pre c hpre
    have hnow := h _ hpre
    rw [Subscriptions.calls_concat] at hnow
    have hbefore := h pre ((List.prefix_append ..).trans hpre)
    exact (Subscriptions.noDeadList_call_iff hbefore (hvalid pre) _).1 hnow c rfl
  · intro h pre
    induction pre using List.reverseRecOn with
    | nil =>
      intro _ t ht
      simp [Subscriptions.calls, Subscriptions.empty] at ht
    | append_singleton pre k ih =>
      intro hpre
      have hbefore := ih ((List.prefix_append ..).trans hpre)
      rw [Subscriptions.calls_concat, Subscriptions.noDeadList_call_iff hbefore (hvalid pre)]
      rintro c rfl
      exact h pre c hpre

/-- A connection subscribes to a topic, and ends. -/
def comeAndGo : List Call := [.add (str "a") 0, .unsubAll 0]

/-- The list of the topic stays, with a nil slot and nothing else. -/
theorem dead_list :
    ¬ ∀ (g : Nat → Nat) (hist : List Call), (Subscriptions.empty.calls g hist).NoDeadList := by
  intro h
  have hkey : str "a" ∈ (Subscriptions.empty.calls id comeAndGo).subs.keys := by decide +kernel
  obtain ⟨c, hc⟩ := h id comeAndGo _ hkey
  have hslots : (Subscriptions.empty.calls id comeAndGo).slots (str "a") = [none] := by
    decide +kernel
  simp [hslots] at hc
