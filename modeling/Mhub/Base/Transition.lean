-- SUMMARY: Deterministic-by-label transition systems: runs, guarded runs, and the invariant rules used by every state-machine result.
import Mathlib.Logic.Function.Basic
import Mathlib.Data.List.Basic

/-!
# Transition systems

A system is given by a partial step function `step : σ → α → Option σ`: the label
`a : α` names who moves and resolves every nondeterministic choice, and `none`
says that the move is not possible. A *run* is a list of labels. Guards restrict
the runs under consideration without changing the system: `Guarded step G s as`
says that every step of the run `as` from `s` satisfies `G` in the state it is
taken from.
-/

namespace Transition

variable {σ α : Type*}

/-! ## Runs -/

/-- Execute a list of labels, failing as soon as one of them is not possible. -/
def run (step : σ → α → Option σ) : σ → List α → Option σ
  | s, [] => some s
  | s, a :: as =>
    match step s a with
    | none => none
    | some s' => run step s' as

variable {step : σ → α → Option σ}

@[simp] theorem run_nil (s : σ) : run step s [] = some s := rfl

theorem run_cons_eq_some {s s'' : σ} {a : α} {as : List α} :
    run step s (a :: as) = some s'' ↔ ∃ s', step s a = some s' ∧ run step s' as = some s'' := by
  cases h : step s a <;> simp [run, h]

theorem run_append {s s' s'' : σ} {as bs : List α}
    (h : run step s as = some s') (h' : run step s' bs = some s'') :
    run step s (as ++ bs) = some s'' := by
  induction as generalizing s with
  | nil => cases h; exact h'
  | cons a as ih =>
      obtain ⟨u, hu, hrest⟩ := run_cons_eq_some.mp h
      exact run_cons_eq_some.mpr ⟨u, hu, ih hrest⟩

/-- Some run leads from `s₀` to `s`. -/
def Reachable (step : σ → α → Option σ) (s₀ s : σ) : Prop := ∃ as, run step s₀ as = some s

variable {s₀ s s' : σ} {a : α} {as : List α}

theorem Reachable.refl : Reachable step s₀ s₀ := ⟨[], rfl⟩

theorem Reachable.tail (h : Reachable step s₀ s) (hs : step s a = some s') :
    Reachable step s₀ s' := by
  obtain ⟨as, has⟩ := h
  exact ⟨as ++ [a], run_append has (run_cons_eq_some.mpr ⟨s', hs, rfl⟩)⟩

/-! ## Guards -/

/-- Every step of the run `as` from `s` satisfies `G` where it is taken. -/
def Guarded (step : σ → α → Option σ) (G : σ → α → Prop) : σ → List α → Prop
  | _, [] => True
  | s, a :: as =>
    G s a ∧
      match step s a with
      | none => True
      | some s' => Guarded step G s' as

instance Guarded.decidable {G : σ → α → Prop} [∀ s a, Decidable (G s a)] :
    ∀ (s : σ) (as : List α), Decidable (Guarded step G s as)
  | _, [] => isTrue trivial
  | s, a :: as =>
    match h : step s a with
    | none => decidable_of_iff (G s a) (by simp [Guarded, h])
    | some s' =>
      have := Guarded.decidable (G := G) s' as
      decidable_of_iff (G s a ∧ Guarded step G s' as) (by simp [Guarded, h])

variable {G G' : σ → α → Prop} {I : σ → Prop}

theorem Guarded.cons (h : Guarded step G s (a :: as)) (hs : step s a = some s') :
    G s a ∧ Guarded step G s' as := by
  simpa [Guarded, hs] using h

/-- A run without restrictions is guarded by any guard that always holds. -/
theorem Guarded.of_forall (hG : ∀ s a, G s a) (s : σ) (as : List α) : Guarded step G s as := by
  induction as generalizing s with
  | nil => trivial
  | cons a as ih =>
      refine ⟨hG s a, ?_⟩
      split
      · trivial
      · exact ih _

theorem Guarded.and (h : Guarded step G s as) (h' : Guarded step G' s as) :
    Guarded step (fun s a => G s a ∧ G' s a) s as := by
  induction as generalizing s with
  | nil => trivial
  | cons a as ih =>
      refine ⟨⟨h.1, h'.1⟩, ?_⟩
      split
      · trivial
      · next s' hs => exact ih (h.cons hs).2 (h'.cons hs).2

/-! ## Invariants -/

/-- What the guarded steps preserve is still there after the rest of a guarded run. -/
theorem Reachable.run_invariant
    (hstep : ∀ s a s', Reachable step s₀ s → I s → G s a → step s a = some s' → I s')
    (hr : Reachable step s₀ s) (hI : I s) (hrun : run step s as = some s')
    (hg : Guarded step G s as) : I s' := by
  induction as generalizing s with
  | nil => cases hrun; exact hI
  | cons a as ih =>
      obtain ⟨u, hu, hrest⟩ := run_cons_eq_some.mp hrun
      obtain ⟨hga, hgrest⟩ := hg.cons hu
      exact ih (hr.tail hu) (hstep s a u hr hI hga hu) hrest hgrest

/-- The invariant rule for guarded runs. A step may use what is known of every
reachable state. Every initial part of a guarded run is one, so the invariant holds
in every state the run reaches. -/
theorem run_invariant
    (hstep : ∀ s a s', Reachable step s₀ s → I s → G s a → step s a = some s' → I s')
    (h0 : I s₀) (hrun : run step s₀ as = some s) (hg : Guarded step G s₀ as) : I s :=
  Reachable.refl.run_invariant hstep h0 hrun hg

/-- The invariant rule for runs without restrictions. -/
theorem Reachable.invariant
    (hstep : ∀ s a s', Reachable step s₀ s → I s → step s a = some s' → I s')
    (h0 : I s₀) (h : Reachable step s₀ s) : I s := by
  obtain ⟨as, has⟩ := h
  exact @Transition.run_invariant σ α step s₀ s as (fun _ _ => True) I
    (fun s a s' hr hI _ hs => hstep s a s' hr hI hs) h0 has
    (Guarded.of_forall (fun _ _ => trivial) _ _)

/-- What does not hold at first and holds in the end came about in some step. -/
theorem exists_step_of_run {P : σ → Prop} (h0 : ¬ P s) (hrun : run step s as = some s')
    (h : P s') :
    ∃ as₁ a as₂ u v, as = as₁ ++ a :: as₂ ∧ run step s as₁ = some u ∧ step u a = some v ∧
      run step v as₂ = some s' ∧ ¬ P u ∧ P v := by
  induction as generalizing s with
  | nil => cases hrun; exact absurd h h0
  | cons a as ih =>
      obtain ⟨u, hu, hrest⟩ := run_cons_eq_some.mp hrun
      by_cases hPu : P u
      · exact ⟨[], a, as, s, u, rfl, rfl, hu, hrest, h0, hPu⟩
      · obtain ⟨as₁, b, as₂, v, w, rfl, hv, hw, hend, hPv, hPw⟩ := ih hPu hrest
        exact ⟨a :: as₁, b, as₂, v, w, rfl, run_cons_eq_some.mpr ⟨u, hu, hv⟩, hw, hend, hPv, hPw⟩

/-! ## Histories -/

section

variable {ε : Type*} {obs : σ → α → σ → Option ε}

/-- What `obs` makes of the steps of the run `as` from `s`, in order. -/
def observed (step : σ → α → Option σ) (obs : σ → α → σ → Option ε) : σ → List α → List ε
  | _, [] => []
  | s, a :: as =>
    match step s a with
    | none => []
    | some s' => (obs s a s').toList ++ observed step obs s' as

/-- The invariant rule for a state together with its history, from any point of a run. -/
theorem Reachable.run_history {I : List ε → σ → Prop} {h : List ε}
    (hstep : ∀ h s a s', Reachable step s₀ s → I h s → G s a → step s a = some s' →
      I (h ++ (obs s a s').toList) s')
    (hr : Reachable step s₀ s) (hI : I h s) (hrun : run step s as = some s')
    (hg : Guarded step G s as) : I (h ++ observed step obs s as) s' := by
  induction as generalizing s h with
  | nil =>
      cases hrun
      simpa [observed] using hI
  | cons a as ih =>
      obtain ⟨u, hu, hrest⟩ := run_cons_eq_some.mp hrun
      obtain ⟨hga, hgrest⟩ := hg.cons hu
      have hend := ih (hr.tail hu) (hstep h s a u hr hI hga hu) hrest hgrest
      simpa [observed, hu] using hend

/-- The invariant rule for a state together with its history. -/
theorem run_history {I : List ε → σ → Prop}
    (hstep : ∀ h s a s', Reachable step s₀ s → I h s → G s a → step s a = some s' →
      I (h ++ (obs s a s').toList) s')
    (h0 : I [] s₀) (hrun : run step s₀ as = some s) (hg : Guarded step G s₀ as) :
    I (observed step obs s₀ as) s := by
  simpa using Reachable.refl.run_history hstep h0 hrun hg

end

/-! ## Counting steps -/

/-- The number of steps of the run `as` from `s` that satisfy `P` where they are
taken. -/
def count (step : σ → α → Option σ) (P : σ → α → Bool) : σ → List α → Nat
  | _, [] => 0
  | s, a :: as =>
    (P s a).toNat +
      match step s a with
      | none => 0
      | some s' => count step P s' as

/-- A measure that only the counted steps raise, and by one, is bounded by the
count. -/
theorem Reachable.run_measure {P : σ → α → Bool} {f : σ → Nat}
    (hstep : ∀ s a s', Reachable step s₀ s → step s a = some s' → f s' ≤ f s + (P s a).toNat)
    (hr : Reachable step s₀ s) (hrun : run step s as = some s') :
    f s' ≤ f s + count step P s as := by
  induction as generalizing s with
  | nil => cases hrun; exact Nat.le_refl _
  | cons a as ih =>
      obtain ⟨u, hu, hrest⟩ := run_cons_eq_some.mp hrun
      have hone := hstep s a u hr hu
      have hmany := ih (hr.tail hu) hrest
      simp only [count, hu]
      omega

/-! ## Progress -/

/-- The rule for what a system can always get done: as long as it is not, some step of
the kind `A` brings the system closer. -/
theorem exists_run {r : σ → σ → Prop} (hwf : WellFounded r) {A : α → Prop} {D : σ → Prop}
    (hstep : ∀ s, I s → ¬ D s → ∃ a s', A a ∧ step s a = some s' ∧ I s' ∧ r s' s) (s : σ)
    (hI : I s) : ∃ as s', (∀ a ∈ as, A a) ∧ run step s as = some s' ∧ I s' ∧ D s' := by
  induction s using hwf.induction with
  | _ s ih =>
    by_cases hD : D s
    · exact ⟨[], s, by simp, rfl, hI, hD⟩
    · obtain ⟨a, s₁, ha, hs, hI₁, hlt⟩ := hstep s hI hD
      obtain ⟨as, s', has, hrun, hI', hD'⟩ := ih s₁ hlt hI₁
      exact ⟨a :: as, s', by simpa [ha] using has, run_cons_eq_some.2 ⟨s₁, hs, hrun⟩, hI', hD'⟩

/-! ## Tokens -/

/-- A token is in at most one place: `w` counts it in each. -/
structure Lone {ι : Type*} (w : ι → Nat) : Prop where
  le_one : ∀ q, w q ≤ 1
  eq_of_pos : ∀ {q q'}, 0 < w q → 0 < w q' → q = q'

section Lone

variable {ι : Type*} {w w' : ι → Nat} {p q : ι}

theorem Lone.mono (h : Lone w) (hle : ∀ q, w' q ≤ w q) : Lone w' where
  le_one q := Nat.le_trans (hle q) (h.le_one q)
  eq_of_pos hq hq' := h.eq_of_pos (Nat.lt_of_lt_of_le hq (hle _)) (Nat.lt_of_lt_of_le hq' (hle _))

theorem Lone.eq_zero (h : Lone w) (hp : 0 < w p) (hq : q ≠ p) : w q = 0 := by
  by_contra hpos
  exact hq (h.eq_of_pos (Nat.pos_of_ne_zero hpos) hp)

/-- The token goes from one place to another. -/
theorem Lone.move (h : Lone w) (hne : p ≠ q) (hle : ∀ x, x ≠ p → x ≠ q → w' x ≤ w x)
    (hsum : w' p + w' q ≤ w p + w q) : Lone w' := by
  have htotal : w p + w q ≤ 1 := by
    by_cases hp : 0 < w p
    · have hone := h.le_one p
      have hzero := h.eq_zero hp hne.symm
      omega
    · have hone := h.le_one q
      omega
  -- where it is at `p` or `q`, it is nowhere else
  have helse : ∀ x, x ≠ p → x ≠ q → 0 < w p + w q → w' x = 0 := by
    intro x hxp hxq hpos
    have hlex := hle x hxp hxq
    by_cases hp : 0 < w p
    · have hzero := h.eq_zero hp hxp
      omega
    · have hzero := h.eq_zero (show 0 < w q by omega) hxq
      omega
  refine ⟨fun x => ?_, fun {x y} hx hy => ?_⟩
  · by_cases hxp : x = p
    · subst hxp; omega
    · by_cases hxq : x = q
      · subst hxq; omega
      · exact Nat.le_trans (hle x hxp hxq) (h.le_one x)
  · by_contra hxy
    by_cases hmoved : 0 < w p + w q
    · have hat : ∀ z, 0 < w' z → z = p ∨ z = q := by
        intro z hz
        by_contra hz'
        rw [not_or] at hz'
        exact Nat.ne_of_gt hz (helse z hz'.1 hz'.2 hmoved)
      obtain rfl | rfl := hat x hx <;> obtain rfl | rfl := hat y hy
      all_goals first | exact hxy rfl | omega
    · have hnot : ∀ z, 0 < w' z → z ≠ p ∧ z ≠ q := by
        rintro z hz
        constructor <;> rintro rfl <;> omega
      obtain ⟨hxp, hxq⟩ := hnot x hx
      obtain ⟨hyp, hyq⟩ := hnot y hy
      exact hxy (h.eq_of_pos (Nat.lt_of_lt_of_le hx (hle x hxp hxq))
        (Nat.lt_of_lt_of_le hy (hle y hyp hyq)))

end Lone

end Transition
