-- SUMMARY: Logs that grow at their end: what every event has in front of it, and what came since the last event of a kind.
import Mathlib.Data.List.Induction
import Mhub.Base.Transition

/-!
# Logs

A system that logs what happens makes its past part of its state, so that a property of
a whole run can be read off the log at its end. Two kinds of properties are proved here
from what one step may log: that every event has its reason in front of it
(`Justified`), and what has happened since the last event of some kind (`sinceLast`).
-/

variable {ε β : Type*} {log pre post : List ε} {e e' : ε}

/-- Where an event stands in a list that has grown by one. -/
theorem concat_eq_append_cons_cases (h : log ++ [e'] = pre ++ e :: post) :
    post = [] ∧ log = pre ∧ e' = e ∨ ∃ post₀, post = post₀ ++ [e'] ∧ log = pre ++ e :: post₀ := by
  obtain rfl | ⟨post₀, x, rfl⟩ := List.eq_nil_or_concat' post
  · obtain ⟨rfl, he⟩ := List.append_inj' h rfl
    exact .inl ⟨rfl, rfl, List.singleton_inj.1 he⟩
  · have h : log ++ [e'] = (pre ++ e :: post₀) ++ [x] := by simpa using h
    obtain ⟨rfl, he⟩ := List.append_inj' h rfl
    obtain rfl := List.singleton_inj.1 he
    exact .inr ⟨post₀, rfl, rfl⟩

/-- The first part of a list that was cut in front of the first element with a
property. -/
theorem append_eq_append_cons {p : ε → Prop} {through pend : List ε} {x : ε}
    (h : through ++ pend = pre ++ x :: post) (hthrough : ∀ y ∈ through, ¬ p y)
    (hpend : ∀ y ∈ pend, p y) (hpre : ∀ y ∈ pre, ¬ p y) (hx : p x) :
    through = pre ∧ pend = x :: post := by
  obtain ⟨l, rfl, rfl⟩ | ⟨l, rfl, hl⟩ := List.append_eq_append_iff.1 h
  · cases l with
    | nil => simp
    | cons y l => exact absurd (hpend y (by simp)) (hpre y (by simp))
  · cases l with
    | nil => exact ⟨by simp, by simpa using hl.symm⟩
    | cons y l =>
      obtain ⟨rfl, -⟩ := List.cons.inj hl
      exact absurd hx (hthrough x (by simp))

/-! ## Reasons -/

section

variable {P : List ε → ε → Prop}

/-- What `P` says of an event and of what was logged before it holds for every event. -/
def Justified (P : List ε → ε → Prop) (log : List ε) : Prop :=
  ∀ pre e post, log = pre ++ e :: post → P pre e

theorem justified_nil : Justified P [] := by
  rintro pre e post h
  simp at h

theorem Justified.concat (h : Justified P log) (he : P log e) : Justified P (log ++ [e]) := by
  intro pre e' post heq
  obtain ⟨-, rfl, rfl⟩ | ⟨post₀, -, hlog⟩ := concat_eq_append_cons_cases heq
  · exact he
  · exact h pre e' post₀ hlog

/-- The rule for a system that logs at most one event in a step: it is enough to look at
the step that logs an event. -/
theorem Transition.Reachable.justified {σ α : Type*} {step : σ → α → Option σ} {s₀ s : σ}
    (log : σ → List ε) (h0 : log s₀ = [])
    (hstep : ∀ s a s', Transition.Reachable step s₀ s → step s a = some s' →
      log s' = log s ∨ ∃ e, log s' = log s ++ [e] ∧ P (log s) e)
    (hr : Transition.Reachable step s₀ s) : Justified P (log s) := by
  refine hr.invariant (I := fun s => Justified P (log s)) ?_ (h0 ▸ justified_nil)
  intro s a s' hr hI hs
  obtain heq | ⟨e, heq, he⟩ := hstep s a s' hr hs
  · rwa [heq]
  · rw [heq]
    exact hI.concat he

end

/-! ## Since the last event of a kind -/

variable {f : ε → Option β} {b : β}

/-- What `f` makes of the last event it recognizes, and the events after it. -/
def sinceLast (f : ε → Option β) (log : List ε) : Option β × List ε :=
  log.foldl (fun acc e =>
    match f e with
    | some b => (some b, [])
    | none => (acc.1, acc.2 ++ [e])) (none, [])

theorem sinceLast_concat_of_some (h : f e = some b) : sinceLast f (log ++ [e]) = (some b, []) := by
  simp [sinceLast, h]

theorem sinceLast_concat_of_none (h : f e = none) :
    sinceLast f (log ++ [e]) = ((sinceLast f log).1, (sinceLast f log).2 ++ [e]) := by
  simp [sinceLast, h]

theorem sinceLast_fst : (sinceLast f log).1 = (log.filterMap f).getLast? := by
  induction log using List.reverseRecOn with
  | nil => rfl
  | append_singleton log x ih =>
    cases hx : f x with
    | some b => simp [sinceLast_concat_of_some hx, hx]
    | none => simp [sinceLast_concat_of_none hx, hx, ih]

theorem sinceLast_snd_subset : (sinceLast f log).2 ⊆ log := by
  induction log using List.reverseRecOn with
  | nil => exact List.Subset.refl _
  | append_singleton log x ih =>
    cases hx : f x with
    | some b => simp [sinceLast_concat_of_some hx]
    | none =>
      rw [sinceLast_concat_of_none hx]
      exact List.append_subset.2
        ⟨List.subset_append_of_subset_left _ ih, List.subset_append_right ..⟩

theorem eq_append_of_sinceLast (h : (sinceLast f log).1 = some b) :
    ∃ pre e, log = pre ++ e :: (sinceLast f log).2 ∧ f e = some b ∧
      ∀ x ∈ (sinceLast f log).2, f x = none := by
  induction log using List.reverseRecOn with
  | nil => cases h
  | append_singleton log x ih =>
    cases hx : f x with
    | some b' =>
      rw [sinceLast_concat_of_some hx] at h ⊢
      cases h
      exact ⟨log, x, rfl, hx, by simp⟩
    | none =>
      rw [sinceLast_concat_of_none hx] at h ⊢
      obtain ⟨pre, e, hlog, he, hnone⟩ := ih h
      refine ⟨pre, e, by rw [← List.cons_append, ← List.append_assoc, ← hlog], he, fun y hy => ?_⟩
      obtain hy | hy := List.mem_append.1 hy
      · exact hnone y hy
      · rwa [List.mem_singleton.1 hy]

/-! ## Copies in order -/

section

variable {α : Type*} {xs ys l : List α} {x : α}

/-- `l` has copies of some of the `xs`, in the order of the `xs`, the copies of each one
together. -/
inductive Copies : List α → List α → Prop where
  | nil : Copies [] []
  | skip {x : α} {xs l : List α} : Copies xs l → Copies (x :: xs) l
  | copy {x : α} {xs l : List α} : Copies (x :: xs) l → Copies (x :: xs) (x :: l)

theorem Copies.append_right (h : Copies xs l) (ys : List α) : Copies (xs ++ ys) l := by
  induction h with
  | nil =>
    induction ys with
    | nil => exact .nil
    | cons y ys ih => exact ih.skip
  | skip _ ih => exact ih.skip
  | copy _ ih => exact ih.copy

/-- The last one of the `xs` can be copied again. -/
theorem Copies.again (h : Copies (xs ++ [x]) l) : Copies (xs ++ [x]) (l ++ [x]) := by
  induction xs generalizing l with
  | nil =>
    generalize hys : [] ++ [x] = ys at h
    induction h with
    | nil => cases hys
    | skip h ih =>
      cases hys
      cases h
      exact Copies.nil.skip.copy
    | copy _ ih =>
      cases hys
      exact (ih rfl).copy
  | cons y xs ih =>
    generalize hys : y :: xs ++ [x] = ys at h
    induction h with
    | nil => cases hys
    | skip h =>
      cases hys
      exact (ih h).skip
    | copy _ ih =>
      cases hys
      exact (ih rfl).copy

theorem Copies.filter (h : Copies xs l) (p : α → Bool) : Copies (xs.filter p) (l.filter p) := by
  induction h with
  | nil => exact .nil
  | @skip x xs l _ ih =>
    rw [List.filter_cons]
    split
    · exact ih.skip
    · exact ih
  | @copy x xs l _ ih =>
    cases hx : p x with
    | true =>
      rw [List.filter_cons_of_pos hx] at ih ⊢
      rw [List.filter_cons_of_pos hx]
      exact ih.copy
    | false => rwa [List.filter_cons_of_neg (a := x) (l := l) (by simp [hx])]

end
