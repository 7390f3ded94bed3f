-- SUMMARY: Proof outlines for straight-line code: preconditions checked along an instruction list, in any ordered domain of facts.
import Mathlib.Order.Basic

/-!
# Proof outlines

A goroutine that is about to run an instruction list owes the precondition of each
instruction at the point where it is reached. What is known there is what is known
now, carried over the instructions in between. An outline fixes the preconditions
and the effect on what is known; `Outline.Ok` is the check of a list.

Facts are ordered by strength: `a ≤ b` says that `b` knows at least as much. Both
parts of an outline are monotone, so that other threads may add to what is known,
and no instruction takes anything away.
-/

structure Outline (ι α : Type) [Preorder α] where
  pre : ι → α → Prop
  post : ι → α → α
  pre_mono : ∀ {i a b}, a ≤ b → pre i a → pre i b
  post_mono : ∀ {i a b}, a ≤ b → post i a ≤ post i b
  le_post : ∀ {i a}, a ≤ post i a

namespace Outline

variable {ι α : Type} [Preorder α] (o : Outline ι α)

/-- What is known after a list of instructions. -/
def after (a : α) : List ι → α
  | [] => a
  | i :: is => after (o.post i a) is

/-- Every instruction of the list finds its precondition. -/
def Ok (a : α) : List ι → Prop
  | [] => True
  | i :: is => o.pre i a ∧ Ok (o.post i a) is

variable {o} {a b : α} {i : ι} {is js : List ι}

theorem le_after (o : Outline ι α) : a ≤ o.after a is := by
  induction is generalizing a with
  | nil => exact le_refl a
  | cons i is ih => exact o.le_post.trans ih

/-- What is known now is known later. -/
theorem after_of {o : Outline ι Prop} {a : Prop} (h : a) : o.after a is :=
  o.le_after h

theorem Ok.mono (h : a ≤ b) (hok : o.Ok a is) : o.Ok b is := by
  induction is generalizing a b with
  | nil => exact hok
  | cons i is ih => exact ⟨o.pre_mono h hok.1, ih (o.post_mono h) hok.2⟩

theorem ok_append : o.Ok a (is ++ js) ↔ o.Ok a is ∧ o.Ok (o.after a is) js := by
  induction is generalizing a with
  | nil => simp [Ok, after]
  | cons i is ih => simp [Ok, after, ih, and_assoc]

theorem ok_of_forall (h : ∀ i ∈ is, ∀ a, o.pre i a) : o.Ok a is := by
  induction is generalizing a with
  | nil => trivial
  | cons i is ih =>
    exact ⟨h i (List.mem_cons_self ..) a, ih fun j hj => h j (List.mem_cons_of_mem _ hj)⟩

/-- A list is in order if every precondition is met now. -/
theorem ok_of_pre (h : ∀ i ∈ is, o.pre i a) : o.Ok a is := by
  induction is generalizing a with
  | nil => trivial
  | cons i is ih =>
    refine ⟨h i (List.mem_cons_self ..), ih fun j hj => ?_⟩
    exact o.pre_mono o.le_post (h j (List.mem_cons_of_mem _ hj))

/-- Executing the first instruction: what takes its place has to be in order, and
to establish at least what the instruction promises. -/
theorem Ok.replace (hok : o.Ok a (i :: js)) (his : o.Ok b is) (hpost : o.post i a ≤ o.after b is) :
    o.Ok b (is ++ js) :=
  ok_append.2 ⟨his, hok.2.mono hpost⟩

/-- What is known is a single fact. Some instructions give it, others need it. -/
def once (needs gives : ι → Prop) : Outline ι Prop where
  pre i known := needs i → known
  post i known := known ∨ gives i
  pre_mono h hpre hi := h (hpre hi)
  post_mono h := Or.imp_left h
  le_post := .inl

theorem ok_once_of_not {needs gives : ι → Prop} {known : Prop} (h : ∀ i ∈ is, ¬ needs i) :
    (once needs gives).Ok known is :=
  ok_of_forall fun i hi _ hneeds => absurd hneeds (h i hi)

end Outline
