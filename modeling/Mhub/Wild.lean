-- SUMMARY: Wildcard filters (`wild.go`): the code's tests and the MQTT matching relation they implement.
import Mathlib.Data.List.Forall2
import Mhub.Proto

/-!
# Wildcard filters

`newWild` splits a filter into its levels; `valid` and `matches` walk over them by
index. `MqttMatches` is the relation of the protocol, stated on the two level
lists, and `Wild.matches_iff` says that the code decides it on every valid filter.
-/

structure Wild where
  wild : List GoString
  c : ConnId
  deriving DecidableEq, Repr

/-- The level `#`. -/
def hashLevel : GoString := [0x23]

/-- The level `+`. -/
def plusLevel : GoString := [0x2B]

/-- `strings.Split(topic, SLASH)`. -/
def levels (topic : GoString) : List GoString := topic.splitOn slash

def newWild (topic : GoString) (c : ConnId) : Wild := ⟨levels topic, c⟩

/-- Whether the topic contains a `#` or a `+`. -/
def isWildcard (topic : GoString) : Bool :=
  topic.contains 0x23 || topic.contains 0x2B

namespace Wild

def valid (w : Wild) : Bool :=
  w.wild.zipIdx.all fun (part, i) =>
    -- catch things like finance#
    !(isWildcard part && part.length != 1) &&
    -- # can only occur as the last part
    !(part == hashLevel && i != w.wild.length - 1)

/-- The loop of `matches` at index `i`, with the parts that are left. -/
def matchesFrom (wild : List GoString) : List GoString → Nat → Bool
  | part :: parts, i =>
    match wild[i]? with
    -- topic is longer, no match
    | none => false
    | some level =>
      -- matched up to here, and now the wildcard says "all others will match"
      if level = hashLevel then true
      -- text does not match, and there wasn't a + to excuse it
      else if part ≠ level ∧ level ≠ plusLevel then false
      else matchesFrom wild parts (i + 1)
  | [], i =>
    -- make finance/stock/ibm/# match finance/stock/ibm
    if i + 1 = wild.length ∧ wild.getLast? = some hashLevel then true
    else i = wild.length

def «matches» (w : Wild) (parts : List GoString) : Bool := matchesFrom w.wild parts 0

end Wild

/-! ## The matching relation of the protocol -/

/-- A filter level matches a topic level: `+` matches any one level. -/
def LevelMatches (f t : GoString) : Prop := f = plusLevel ∨ f = t

instance (f t : GoString) : Decidable (LevelMatches f t) :=
  inferInstanceAs (Decidable (_ ∨ _))

/-- The levels `F` of a filter match the levels `T` of a topic. Without `#` the two
agree level by level; a final `#` stands for the parent and any number of further
levels. -/
def MqttMatches (F T : List GoString) : Prop :=
  (hashLevel ∉ F ∧ List.Forall₂ LevelMatches F T) ∨
  ∃ G, F = G ++ [hashLevel] ∧ ∃ T₁ T₂, T = T₁ ++ T₂ ∧ List.Forall₂ LevelMatches G T₁

theorem mqttMatches_nil {T : List GoString} : MqttMatches [] T ↔ T = [] := by
  simp [MqttMatches, List.forall₂_nil_left_iff]

theorem mqttMatches_hash (T : List GoString) : MqttMatches [hashLevel] T :=
  .inr ⟨[], rfl, [], T, rfl, .nil⟩

theorem mqttMatches_cons_nil {f : GoString} {F : List GoString} :
    MqttMatches (f :: F) [] ↔ f = hashLevel ∧ F = [] := by
  constructor
  · rintro (⟨-, h⟩ | ⟨G, hG, T₁, T₂, hT, h⟩)
    · cases h
    · obtain ⟨rfl, rfl⟩ := List.append_eq_nil_iff.mp hT.symm
      cases h
      simpa using hG
  · rintro ⟨rfl, rfl⟩
    exact mqttMatches_hash []

/-- One level of a filter that is not `#` is matched against one level of the topic. -/
theorem mqttMatches_cons_cons {f t : GoString} {F T : List GoString} (hf : f ≠ hashLevel) :
    MqttMatches (f :: F) (t :: T) ↔ LevelMatches f t ∧ MqttMatches F T := by
  constructor
  · rintro (⟨hno, h⟩ | ⟨G, hG, T₁, T₂, hT, h⟩)
    · obtain ⟨hl, hrest⟩ := List.forall₂_cons.mp h
      exact ⟨hl, .inl ⟨fun hm => hno (List.mem_cons_of_mem _ hm), hrest⟩⟩
    · cases G with
      | nil => exact absurd (List.cons.inj hG).1 hf
      | cons g G =>
          obtain ⟨rfl, rfl⟩ := List.cons.inj hG
          cases h with
          | cons hl hrest =>
              obtain ⟨rfl, rfl⟩ := List.cons.inj hT
              exact ⟨hl, .inr ⟨G, rfl, _, T₂, rfl, hrest⟩⟩
  · rintro ⟨hl, ⟨hno, h⟩ | ⟨G, rfl, T₁, T₂, rfl, h⟩⟩
    · refine .inl ⟨?_, .cons hl h⟩
      simpa [hno] using hf.symm
    · exact .inr ⟨f :: G, rfl, t :: T₁, T₂, rfl, .cons hl h⟩

/-! ## What the code decides -/

theorem isWildcard_plusLevel : isWildcard plusLevel = true := by decide

theorem isWildcard_hashLevel : isWildcard hashLevel = true := by decide

/-- What `valid` decides: a wildcard character stands alone in its level, and the
level `#` is the last one. -/
theorem Wild.valid_iff (w : Wild) :
    w.valid = true ↔
      (∀ part ∈ w.wild, isWildcard part = true → part.length = 1) ∧
        hashLevel ∉ w.wild.dropLast := by
  simp only [Wild.valid, List.all_eq_true, Prod.forall, List.mem_zipIdx_iff_getElem?,
    Bool.and_eq_true, Bool.not_eq_true', Bool.and_eq_false_iff, bne_eq_false_iff_eq,
    beq_eq_false_iff_ne]
  constructor
  · intro h
    refine ⟨?_, ?_⟩
    · intro part hmem hw
      obtain ⟨i, hi⟩ := List.mem_iff_getElem?.mp hmem
      simpa [hw] using (h part i hi).1
    · intro hmem
      obtain ⟨i, hi⟩ := List.mem_iff_getElem?.mp hmem
      rw [List.getElem?_dropLast] at hi
      split at hi
      · next hlt => have := (h hashLevel i hi).2; simp at this; omega
      · cases hi
  · rintro ⟨hw, hlast⟩ part i hi
    refine ⟨?_, ?_⟩
    · by_cases hp : isWildcard part = true
      · exact .inr (hw part (List.mem_of_getElem? hi) hp)
      · exact .inl (by simpa using hp)
    · by_cases hp : part = hashLevel
      · refine .inr ?_
        have hlt := (List.getElem?_eq_some_iff.mp hi).1
        by_contra hne
        apply hlast
        refine List.mem_iff_getElem?.mpr ⟨i, ?_⟩
        rw [List.getElem?_dropLast, if_pos (by omega), hi, hp]
      · exact .inl hp

/-- The loop at index `i` decides the relation on the levels from `i` on. -/
theorem Wild.matchesFrom_iff {wild : List GoString} (hlast : hashLevel ∉ wild.dropLast)
    (parts : List GoString) (i : Nat) (hi : i ≤ wild.length) :
    matchesFrom wild parts i = true ↔ MqttMatches (wild.drop i) parts := by
  induction parts generalizing i with
  | nil =>
      rcases Nat.lt_or_eq_of_le hi with hlt | rfl
      · rw [List.drop_eq_getElem_cons hlt, mqttMatches_cons_nil, matchesFrom, List.drop_eq_nil_iff,
          List.getLast?_eq_getElem?]
        by_cases hend : i + 1 = wild.length
        · have hidx : wild.length - 1 = i := by omega
          simp [hend, hidx, hlt, Nat.ne_of_lt hlt]
        · simp only [hend, false_and, if_false, decide_eq_true_eq]
          omega
      · simp [matchesFrom, mqttMatches_nil]
  | cons part parts ih =>
      rcases Nat.lt_or_eq_of_le hi with hlt | rfl
      · rw [List.drop_eq_getElem_cons hlt, matchesFrom, List.getElem?_eq_getElem hlt]
        simp only
        by_cases hhash : wild[i] = hashLevel
        · -- a `#` in the middle is excluded, so nothing follows this level
          have hend : wild.length ≤ i + 1 := by
            by_contra hmid
            apply hlast
            refine List.mem_iff_getElem?.mpr ⟨i, ?_⟩
            rw [List.getElem?_dropLast, if_pos (by omega), List.getElem?_eq_getElem hlt, hhash]
          rw [List.drop_eq_nil_of_le hend, hhash]
          simp [mqttMatches_hash]
        · rw [mqttMatches_cons_cons hhash, ← ih (i + 1) hlt]
          by_cases hl : LevelMatches wild[i] part
          · have : ¬ (part ≠ wild[i] ∧ wild[i] ≠ plusLevel) := by
              rintro ⟨h1, h2⟩
              rcases hl with h | h
              · exact h2 h
              · exact h1 h.symm
            simp [hhash, this, hl]
          · have : part ≠ wild[i] ∧ wild[i] ≠ plusLevel :=
              ⟨fun h => hl (.inr h.symm), fun h => hl (.inl h)⟩
            simp [hhash, this, hl]
      · simp [matchesFrom, mqttMatches_nil]

/-- On a valid filter `matches` decides the relation of the protocol. -/
theorem Wild.matches_iff {w : Wild} (hv : w.valid = true) (parts : List GoString) :
    w.matches parts = true ↔ MqttMatches w.wild parts := by
  have := matchesFrom_iff (w.valid_iff.mp hv).2 parts 0 (Nat.zero_le _)
  simpa [Wild.matches] using this

/-- The relation of the protocol, level by level. -/
theorem mqttMatches_iff_getElem {F T : List GoString} :
    MqttMatches F T ↔
      (hashLevel ∉ F ∧ F.length = T.length ∧
        ∀ i (_ : i < F.length) (_ : i < T.length), F[i] = plusLevel ∨ F[i] = T[i]) ∨
      ∃ G, F = G ++ [hashLevel] ∧ G.length ≤ T.length ∧
        ∀ i (_ : i < G.length) (_ : i < T.length), G[i] = plusLevel ∨ G[i] = T[i] := by
  refine or_congr ?_ (exists_congr fun G => and_congr_right' ?_)
  · rw [List.forall₂_iff_get]
    rfl
  · constructor
    · rintro ⟨T₁, T₂, rfl, h⟩
      obtain ⟨hlen, hlevel⟩ := List.forall₂_iff_get.1 h
      refine ⟨by simp [hlen], fun i hG _ => ?_⟩
      rw [List.getElem_append_left (hlen ▸ hG)]
      exact hlevel i hG (hlen ▸ hG)
    · rintro ⟨hlen, hlevel⟩
      refine ⟨T.take G.length, T.drop G.length, (List.take_append_drop ..).symm, ?_⟩
      refine List.forall₂_iff_get.2 ⟨by simp [hlen], fun i hG hT => ?_⟩
      have := hlevel i hG (by omega)
      simpa [LevelMatches] using this

/-- On the levels of a valid filter and of a topic, `matches` decides the relation of the
protocol: without `#` the filter and the topic agree level by level, and what stands
before a final `#` agrees with the first levels of the topic. -/
theorem matches_iff_levels {f : GoString} {c : ConnId} (hv : (newWild f c).valid = true)
    (t : GoString) :
    (newWild f c).matches (levels t) = true ↔
      (hashLevel ∉ levels f ∧ (levels f).length = (levels t).length ∧
        ∀ i (_ : i < (levels f).length) (_ : i < (levels t).length),
          (levels f)[i] = plusLevel ∨ (levels f)[i] = (levels t)[i]) ∨
      ∃ G, levels f = G ++ [hashLevel] ∧ G.length ≤ (levels t).length ∧
        ∀ i (_ : i < G.length) (_ : i < (levels t).length),
          G[i] = plusLevel ∨ G[i] = (levels t)[i] :=
  (Wild.matches_iff hv (levels t)).trans mqttMatches_iff_getElem

/-- The filter `a/b/#` also matches its parent `a/b`. -/
theorem matches_iff_levels_parent :
    (newWild (str "a/b/#") 0).valid = true ∧
      (newWild (str "a/b/#") 0).matches (levels (str "a/b")) = true := by
  have hv : (newWild (str "a/b/#") 0).valid = true := by decide +kernel
  have hsplit : levels (str "a/b/#") = levels (str "a/b") ++ [hashLevel] := by decide +kernel
  exact ⟨hv, (matches_iff_levels hv (str "a/b")).2
    (.inr ⟨_, hsplit, Nat.le_refl _, fun _ _ _ => .inr rfl⟩)⟩
