-- SUMMARY: Slash-separated paths as Go's `path` package treats them: `Clean`, `Join`, and the node a rooted tree has under a path.
import Mathlib.Data.List.Basic
import Mathlib.Data.List.Infix

/-!
# Paths

A path is a list over any alphabet with two distinguished letters, the separator and
the dot. `clean` and `join` compute on the text; `components` is what they compute
on the list of components. The lemmas below say what a plain last component does to
each of them: it stays the last component. `Piece` says where a component stands in the
text.
-/

namespace Path

variable {α : Type*} [DecidableEq α] (sep dot : α)

/-! ## `Clean` and `Join` -/

/-- Take one more component: empty ones and `.` are dropped, and `..` removes the one
before it, if there is one to remove. -/
def push (rooted : Bool) (acc : List (List α)) (c : List α) : List (List α) :=
  if c = [] ∨ c = [dot] then acc
  else if c = [dot, dot] then
    match acc.getLast? with
    | none => if rooted then [] else [c]
    | some d => if d = [dot, dot] then acc ++ [c] else acc.dropLast
  else acc ++ [c]

def components (rooted : Bool) (cs : List (List α)) : List (List α) := cs.foldl (push dot rooted) []

def clean (p : List α) : List α :=
  let rooted := p.head? == some sep
  let cs := components dot rooted (p.splitOn sep)
  if rooted then sep :: [sep].intercalate cs
  else if cs = [] then [dot]
  else [sep].intercalate cs

def join (elem : List (List α)) : List α :=
  match elem.dropWhile (· == []) with
  | [] => []
  | es => clean sep dot ([sep].intercalate es)

/-- The text of a rooted path. -/
def absolute (cs : List (List α)) : List α := sep :: [sep].intercalate cs

/-- The node that the path `p` leads to in a tree that is entered at `base`. -/
def resolve (base : List (List α)) (p : List α) : List (List α) :=
  components dot true (base ++ p.splitOn sep)

/-- A component that stands for itself. -/
def Plain (c : List α) : Prop := c ≠ [] ∧ sep ∉ c ∧ c ≠ [dot] ∧ c ≠ [dot, dot]

instance (c : List α) : Decidable (Plain sep dot c) := inferInstanceAs (Decidable (_ ∧ _ ∧ _ ∧ _))

/-! ## Splitting and joining text -/

variable {sep dot} {c : List α} {cs ds : List (List α)} {rooted : Bool}

omit [DecidableEq α] in
theorem intercalate_append (hcs : cs ≠ []) (hds : ds ≠ []) :
    [sep].intercalate (cs ++ ds) = [sep].intercalate cs ++ sep :: [sep].intercalate ds := by
  induction cs with
  | nil => exact absurd rfl hcs
  | cons c cs ih =>
    cases cs with
    | nil =>
      cases ds with
      | nil => exact absurd rfl hds
      | cons d ds => simp
    | cons c' cs => simpa using ih (by simp)

theorem notMem_of_mem_splitOn {p : List α} (hc : c ∈ p.splitOn sep) : sep ∉ c := by
  induction p generalizing c with
  | nil =>
    simp only [List.splitOn_nil, List.mem_singleton] at hc
    simp [hc]
  | cons a p ih =>
    simp only [List.splitOn, List.splitOnP_cons_eq_if_modifyHead] at hc ih
    split at hc
    · obtain rfl | hc := List.mem_cons.1 hc
      · simp
      · exact ih hc
    · next ha =>
      cases hp : List.splitOnP (· == sep) p with
      | nil => simp [hp] at hc
      | cons d ds =>
        rw [hp, List.modifyHead_cons] at hc
        obtain rfl | hc := List.mem_cons.1 hc
        · have hd : sep ∉ d := ih (by simp [hp])
          have hne : sep ≠ a := fun h => ha (by simp [h])
          simp [hne, hd]
        · exact ih (by simp [hp, hc])

theorem splitOn_append (p q : List α) :
    (p ++ sep :: q).splitOn sep = p.splitOn sep ++ q.splitOn sep := by
  have hp : p.splitOn sep ≠ [] := List.splitOnP_ne_nil _ _
  have hq : q.splitOn sep ≠ [] := List.splitOnP_ne_nil _ _
  have hcat : p ++ sep :: q = [sep].intercalate (p.splitOn sep ++ q.splitOn sep) := by
    rw [intercalate_append hp hq, List.intercalate_splitOn, List.intercalate_splitOn]
  rw [hcat, List.splitOn_intercalate sep ?_ (by simp [hp])]
  intro c hc
  exact (List.mem_append.1 hc).elim notMem_of_mem_splitOn notMem_of_mem_splitOn

theorem splitOn_of_notMem (h : sep ∉ c) : c.splitOn sep = [c] := by
  have hcat : c = [sep].intercalate [c] := by simp
  conv_lhs => rw [hcat]
  exact List.splitOn_intercalate sep (by simpa) (by simp)

/-! ## Where a component stands in the text -/

/-- The text is `A ++ c ++ B`, with `c` a whole component of it. -/
structure Piece (sep : α) (p A c B : List α) : Prop where
  text : p = A ++ c ++ B
  whole : sep ∉ c
  left : A = [] ∨ A.getLast? = some sep
  right : B = [] ∨ B.head? = some sep

variable {p A B : List α}

theorem Piece.splitOn (h : Piece sep p A c B) :
    ∃ cs ds, p.splitOn sep = cs ++ c :: ds ∧ (ds = [] ↔ B = []) := by
  have hright : ∀ A, (∃ cs, A.splitOn sep = cs ++ [c]) →
      ∃ cs ds, (A ++ B).splitOn sep = cs ++ c :: ds ∧ (ds = [] ↔ B = []) := by
    rintro A ⟨cs, hA⟩
    cases B with
    | nil => exact ⟨cs, [], by simpa using hA, by simp⟩
    | cons b B =>
      obtain rfl : b = sep := by simpa using h.right
      exact ⟨cs, B.splitOn b, by simp [splitOn_append, hA], by simp [List.splitOn_ne_nil]⟩
  rw [h.text]
  refine hright _ ?_
  obtain rfl | hA := h.left
  · exact ⟨[], by simp [splitOn_of_notMem h.whole]⟩
  · obtain ⟨A, rfl⟩ := List.getLast?_eq_some_iff.1 hA
    exact ⟨A.splitOn sep, by simp [splitOn_append, splitOn_of_notMem h.whole]⟩

omit [DecidableEq α] in
/-- Text after a separator. -/
theorem Piece.after (h : Piece sep p A c B) (q : List α) :
    Piece sep (q ++ sep :: p) (q ++ sep :: A) c B where
  text := by simp [h.text]
  whole := h.whole
  left := by
    obtain rfl | hA := h.left
    · simp
    · simp [List.getLast?_cons, hA]
  right := h.right

/-- Every component stands somewhere. The last one stands at the end. -/
theorem exists_piece (hp : p.splitOn sep = cs ++ c :: ds) :
    ∃ A B, Piece sep p A c B ∧ (B = [] ↔ ds = []) := by
  induction cs generalizing p with
  | nil =>
    by_cases hsep : sep ∈ p
    · obtain ⟨q, p, rfl, hq⟩ := List.eq_append_cons_of_mem hsep
      rw [splitOn_append, splitOn_of_notMem hq] at hp
      obtain ⟨rfl, rfl⟩ := List.cons.inj hp
      exact ⟨[], sep :: p, ⟨by simp, hq, by simp, by simp⟩, by simp [List.splitOn_ne_nil]⟩
    · rw [splitOn_of_notMem hsep] at hp
      obtain ⟨rfl, rfl⟩ := List.cons.inj hp
      exact ⟨[], [], ⟨by simp, hsep, by simp, by simp⟩, by simp⟩
  | cons d cs ih =>
    by_cases hsep : sep ∈ p
    · obtain ⟨q, p, rfl, hq⟩ := List.eq_append_cons_of_mem hsep
      rw [splitOn_append, splitOn_of_notMem hq] at hp
      obtain ⟨A, B, h, hB⟩ := ih (List.cons.inj hp).2
      exact ⟨_, B, h.after q, hB⟩
    · rw [splitOn_of_notMem hsep] at hp
      simpa using (List.cons.inj hp).2

/-- Every letter but the separator stands in a component. -/
theorem exists_piece_of_letter (pre post : List α) {a : α} (ha : a ≠ sep) :
    ∃ A l r B, pre = A ++ l ∧ post = r ++ B ∧ Piece sep (pre ++ a :: post) A (l ++ a :: r) B := by
  have hpost : ∃ r B, post = r ++ B ∧ sep ∉ r ∧ (B = [] ∨ B.head? = some sep) := by
    by_cases hsep : sep ∈ post
    · obtain ⟨r, B, rfl, hr⟩ := List.eq_append_cons_of_mem hsep
      exact ⟨r, sep :: B, rfl, hr, by simp⟩
    · exact ⟨post, [], by simp, hsep, by simp⟩
  have hpre : ∃ A l, pre = A ++ l ∧ sep ∉ l ∧ (A = [] ∨ A.getLast? = some sep) := by
    by_cases hsep : sep ∈ pre.reverse
    · obtain ⟨l, A, hpre, hl⟩ := List.eq_append_cons_of_mem hsep
      refine ⟨A.reverse ++ [sep], l.reverse, ?_, by simpa using hl, by simp⟩
      rw [← List.reverse_reverse pre, hpre]
      simp
    · exact ⟨[], pre, by simp, by simpa using hsep, by simp⟩
  obtain ⟨A, l, rfl, hl, hA⟩ := hpre
  obtain ⟨r, B, rfl, hr, hB⟩ := hpost
  exact ⟨A, l, r, B, rfl, rfl, by simp, by simp [hl, hr, ha.symm], hA, hB⟩

/-! ## Plain components -/

theorem mem_components_of_mem (hc : c ∈ components dot rooted cs) : c ∈ cs ∧ c ≠ [] := by
  have hpush : ∀ (acc : List (List α)) (d : List α), c ∈ push dot rooted acc d →
      c ∈ acc ∨ c = d ∧ c ≠ [] := by
    intro acc d hmem
    simp only [push] at hmem
    split at hmem
    · exact .inl hmem
    · next hd =>
      have hne : d ≠ [] := fun h => hd (.inl h)
      repeat' split at hmem
      · simp at hmem
      · simp only [List.mem_singleton] at hmem
        exact .inr ⟨hmem, hmem ▸ hne⟩
      · rw [List.mem_append, List.mem_singleton] at hmem
        exact hmem.imp_right fun h => ⟨h, h ▸ hne⟩
      · exact .inl (List.dropLast_subset _ hmem)
      · rw [List.mem_append, List.mem_singleton] at hmem
        exact hmem.imp_right fun h => ⟨h, h ▸ hne⟩
  -- whatever the fold has kept was there at the start or is one of the components
  have hfold : ∀ acc : List (List α), c ∈ cs.foldl (push dot rooted) acc →
      c ∈ acc ∨ c ∈ cs ∧ c ≠ [] := by
    clear hc
    induction cs with
    | nil => exact fun acc h => .inl h
    | cons d cs ih =>
      intro acc h
      obtain h | ⟨h, hne⟩ := ih _ h
      · exact (hpush acc d h).imp_right fun ⟨h, hne⟩ => ⟨by simp [h], hne⟩
      · exact .inr ⟨List.mem_cons_of_mem _ h, hne⟩
  exact (hfold [] hc).resolve_left (by simp)

theorem components_append_plain (hc : Plain sep dot c) :
    components dot rooted (cs ++ [c]) = components dot rooted cs ++ [c] := by
  obtain ⟨hne, -, hdot, hdots⟩ := hc
  simp [components, push, hne, hdot, hdots]

theorem components_append_nil (rooted : Bool) (cs : List (List α)) :
    components dot rooted (cs ++ [[]]) = components dot rooted cs := by
  simp [components, push]

theorem components_append_dot (rooted : Bool) (cs : List (List α)) :
    components dot rooted (cs ++ [[dot]]) = components dot rooted cs := by
  simp [components, push]

theorem splitOn_components (p : List α) (h : components dot rooted (p.splitOn sep) ≠ []) :
    ([sep].intercalate (components dot rooted (p.splitOn sep))).splitOn sep =
      components dot rooted (p.splitOn sep) :=
  List.splitOn_intercalate sep
    (fun _ hc => notMem_of_mem_splitOn (mem_components_of_mem hc).1) h

theorem resolve_clean (base : List (List α)) (p : List α) :
    resolve sep dot base (clean sep dot p) =
      components dot true (base ++ components dot (p.head? == some sep) (p.splitOn sep)) := by
  -- an empty component and a dot, which the text has and the list has not, are dropped
  have hskip : ∀ ds : List (List α),
      components dot true (base ++ [] :: ds) = components dot true (base ++ ds) := by
    intro ds
    simp [components, push]
  simp only [resolve, clean]
  have hcons : ∀ q : List α, (sep :: q).splitOn sep = [] :: q.splitOn sep := by
    intro q
    simpa using splitOn_append [] q
  by_cases hcs : components dot (p.head? == some sep) (p.splitOn sep) = []
  · rw [if_pos hcs]
    split
    · rw [hcons, hcs, hskip]
      simpa using components_append_nil true base
    · rw [hcs]
      by_cases hsd : sep = dot
      · subst hsd
        rw [show [sep] = sep :: [] from rfl, hcons, hskip]
        simpa using components_append_nil true base
      · rw [splitOn_of_notMem (by simpa using hsd), components_append_dot, List.append_nil]
  · rw [if_neg hcs]
    split
    · rw [hcons, splitOn_components p hcs, hskip]
    · rw [splitOn_components p hcs]

/-- A plain component leads one level down. -/
theorem resolve_join (base : List (List α)) (p : List α) (hc : Plain sep dot c) :
    resolve sep dot base (join sep dot [p, c]) =
      resolve sep dot base (join sep dot [p]) ++ [c] := by
  have hne : (c == []) = false := by simpa using hc.1
  cases p with
  | nil =>
    have hcs : components dot (c.head? == some sep) (c.splitOn sep) = [c] := by
      have hone : components dot (c.head? == some sep) ([] ++ [c]) = [] ++ [c] :=
        components_append_plain hc
      rw [splitOn_of_notMem hc.2.1]
      exact hone
    simp only [join, List.dropWhile_cons, hne, List.dropWhile_nil, beq_self_eq_true, ↓reduceIte,
      Bool.false_eq_true]
    rw [show [sep].intercalate [c] = c by simp, resolve_clean, hcs, components_append_plain hc]
    exact congrArg (· ++ [c]) (components_append_nil true base).symm
  | cons a p =>
    have hp : ((a :: p) == []) = false := rfl
    simp only [join, List.dropWhile_cons, hp, Bool.false_eq_true, ↓reduceIte]
    rw [show [sep].intercalate [a :: p, c] = (a :: p) ++ sep :: c by simp,
      show [sep].intercalate [a :: p] = a :: p by simp, resolve_clean, resolve_clean,
      splitOn_append, splitOn_of_notMem hc.2.1, components_append_plain hc, ← List.append_assoc,
      components_append_plain hc]
    rfl

/-! ## The last component of a rooted path -/

omit [DecidableEq α] in
theorem absolute_append (cs : List (List α)) (c : List α) :
    ∃ p, absolute sep (cs ++ [c]) = p ++ sep :: c := by
  cases cs with
  | nil => exact ⟨[], by simp [absolute]⟩
  | cons d cs =>
    refine ⟨sep :: [sep].intercalate (d :: cs), ?_⟩
    rw [absolute, intercalate_append (by simp) (by simp)]
    simp

omit [DecidableEq α] in
/-- A separator and a name end the text of a path if and only if the name is its last
component. -/
theorem suffix_absolute_iff {d : List α} (hc : sep ∉ c) (hd : sep ∉ d) :
    sep :: d <:+ absolute sep (cs ++ [c]) ↔ d = c := by
  obtain ⟨p, hp⟩ : ∃ p, absolute sep (cs ++ [c]) = p ++ sep :: c := absolute_append cs c
  rw [hp]
  constructor
  · rintro ⟨q, hq⟩
    -- the last separator of both texts stands at one place
    obtain ⟨e, -, he⟩ | ⟨e, -, he⟩ := List.append_eq_append_iff.1 hq
    · cases e with
      | nil => simpa using he
      | cons x e =>
        simp only [List.cons_append, List.cons.injEq] at he
        exact absurd (he.2 ▸ by simp) hd
    · cases e with
      | nil => simpa using he.symm
      | cons x e =>
        simp only [List.cons_append, List.cons.injEq] at he
        exact absurd (he.2 ▸ by simp) hc
  · rintro rfl
    exact ⟨p, rfl⟩

end Path
