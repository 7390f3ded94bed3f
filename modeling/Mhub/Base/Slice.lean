-- SUMMARY: Go slices over a heap of backing arrays: contents, append with spare capacity, and in-place update.
import Mathlib.Logic.Function.Basic
import Mathlib.Data.List.Basic

/-!
# Slices

A slice is a window on a backing array, and the length of the array is the
capacity of the slice. `append` writes into the array while there is spare
capacity and moves to a new array otherwise, so two slices may share memory and
an append through one of them can be visible through the other. The lemmas say
when it is not.

All slices here start at the first cell of their array, and array `0` is the
array without cells that the nil slice points to.
-/

/-- The backing arrays allocated so far. -/
structure Heap (α : Type*) where
  cells : Nat → List α
  next : Nat

structure Slice where
  arr : Nat
  len : Nat
  deriving DecidableEq, Repr

namespace Slice

/-- The nil slice, of length and capacity zero. -/
def nil : Slice := ⟨0, 0⟩

end Slice

namespace Heap

variable {α : Type*}

def empty : Heap α := ⟨fun _ => [], 1⟩

def cap (h : Heap α) (sl : Slice) : Nat := (h.cells sl.arr).length

/-- What the slice holds. -/
def contents (h : Heap α) (sl : Slice) : List α := (h.cells sl.arr).take sl.len

/-- The slice lies inside an allocated array. -/
structure Valid (h : Heap α) (sl : Slice) : Prop where
  len_le : sl.len ≤ h.cap sl
  arr_lt : sl.arr < h.next

/-- The array of the nil slice is allocated and has no cells. -/
structure Wf (h : Heap α) : Prop where
  next_pos : 0 < h.next
  nil_cells : h.cells 0 = []

/-- `append(sl, x)`. The capacity of a new array is what `g` asks for, and at
least what is needed; its unused cells hold the zero value `z`. -/
def append (g : Nat → Nat) (z : α) (h : Heap α) (sl : Slice) (x : α) : Heap α × Slice :=
  if sl.len < h.cap sl then
    ({ h with cells := Function.update h.cells sl.arr ((h.cells sl.arr).set sl.len x) },
      ⟨sl.arr, sl.len + 1⟩)
  else
    let spare := max (sl.len + 1) (g (h.cap sl)) - (sl.len + 1)
    ({ cells := Function.update h.cells h.next
        (h.contents sl ++ x :: List.replicate spare z)
       next := h.next + 1 },
      ⟨h.next, sl.len + 1⟩)

/-- `append` of several elements, one after the other. -/
def appendAll (g : Nat → Nat) (z : α) : Heap α → Slice → List α → Heap α × Slice
  | h, sl, [] => (h, sl)
  | h, sl, x :: xs => let r := append g z h sl x; appendAll g z r.1 r.2 xs

/-- Rewrite the elements of a slice in place. -/
def mapInPlace (h : Heap α) (sl : Slice) (f : α → α) : Heap α :=
  let cells := (h.contents sl).map f ++ (h.cells sl.arr).drop sl.len
  { h with cells := Function.update h.cells sl.arr cells }

/-- Rewrite the elements of several slices in place. -/
def mapAllInPlace (h : Heap α) (sls : List Slice) (f : α → α) : Heap α :=
  sls.foldl (fun h sl => h.mapInPlace sl f) h

/-! ## Contents and validity -/

theorem Valid.length_contents {h : Heap α} {sl : Slice} (hv : h.Valid sl) :
    (h.contents sl).length = sl.len := by
  have := hv.len_le
  simp only [cap] at this
  simp [contents, this]

theorem wf_empty : (empty : Heap α).Wf := ⟨Nat.one_pos, rfl⟩

theorem Wf.valid_nil {h : Heap α} (hw : h.Wf) : h.Valid Slice.nil :=
  ⟨Nat.zero_le _, hw.next_pos⟩

@[simp] theorem contents_nil (h : Heap α) : h.contents Slice.nil = [] := by
  simp [contents, Slice.nil]

/-! ## Append -/

variable {g : Nat → Nat} {z : α}

theorem append_next_le (h : Heap α) (sl : Slice) (x : α) :
    h.next ≤ (append g z h sl x).1.next := by
  unfold append
  split <;> simp

theorem Wf.append {h : Heap α} (hw : h.Wf) (sl : Slice) (x : α) : (append g z h sl x).1.Wf := by
  refine ⟨Nat.lt_of_lt_of_le hw.next_pos (append_next_le h sl x), ?_⟩
  unfold Heap.append
  split
  · next hlt =>
      have hne : 0 ≠ sl.arr := by
        intro h0
        simp [cap, ← h0, hw.nil_cells] at hlt
      simp [Function.update_of_ne hne, hw.nil_cells]
  · simp [Function.update_of_ne (Nat.ne_of_lt hw.next_pos), hw.nil_cells]

/-- A nil slice has no capacity, so appending to it always allocates. -/
theorem Wf.append_nil_arr {h : Heap α} (hw : h.Wf) (x : α) :
    (Heap.append g z h Slice.nil x).2.arr = h.next := by
  simp [Heap.append, cap, Slice.nil, hw.nil_cells]

theorem contents_append_self {h : Heap α} {sl : Slice} (hv : h.Valid sl) (x : α) :
    (append g z h sl x).1.contents (append g z h sl x).2 = h.contents sl ++ [x] := by
  have hlen := hv.length_contents
  unfold append
  split
  · next hlt =>
      simp only [cap] at hlt
      have hset : (List.take sl.len (h.cells sl.arr)).set sl.len x
          = List.take sl.len (h.cells sl.arr) :=
        List.set_eq_of_length_le (List.length_take_le _ _)
      simp [contents, List.take_add_one, List.take_set, hlt, hset]
  · simp only [contents, Function.update_self]
    rw [List.take_append, show (List.take sl.len (h.cells sl.arr)).length = sl.len from hlen]
    simp [List.take_take]

theorem Valid.append_self {h : Heap α} {sl : Slice} (hv : h.Valid sl) (x : α) :
    (append g z h sl x).1.Valid (append g z h sl x).2 := by
  have hlen := hv.length_contents
  unfold append
  split
  · next hlt =>
      refine ⟨?_, hv.arr_lt⟩
      simp only [cap, Function.update_self, List.length_set] at hlt ⊢
      exact hlt
  · refine ⟨?_, Nat.lt_succ_self _⟩
    simp [cap, hlen]

/-- Appending keeps another slice as it is when the two do not share an array, or
when the other slice does not see the cell that is written, or already holds the
value there. -/
theorem contents_append {h : Heap α} {sl sl' : Slice} {x : α} (hv : h.Valid sl')
    (hx : sl'.arr = sl.arr → sl.len < sl'.len → (h.contents sl')[sl.len]? = some x) :
    (append g z h sl x).1.contents sl' = h.contents sl' := by
  unfold append
  split
  · next hlt =>
      by_cases harr : sl'.arr = sl.arr
      · simp only [contents, harr, Function.update_self, List.take_set]
        by_cases hle : sl'.len ≤ sl.len
        · rw [List.set_eq_of_length_le]
          simp only [List.length_take]
          omega
        · have hx := hx harr (by omega)
          simp only [contents, harr] at hx
          rw [List.getElem?_eq_some_iff] at hx
          obtain ⟨hlt', rfl⟩ := hx
          exact List.set_getElem_self hlt'
      · simp [contents, Function.update_of_ne harr]
  · simp only [contents]
    rw [Function.update_of_ne (Nat.ne_of_lt hv.arr_lt)]

theorem Valid.append {h : Heap α} {sl sl' : Slice} (hv : h.Valid sl') (x : α) :
    (append g z h sl x).1.Valid sl' := by
  obtain ⟨hle, hlt⟩ := hv
  unfold Heap.append
  split
  · refine ⟨?_, hlt⟩
    simp only [cap, Function.update_apply] at hle ⊢
    split
    · next harr => simpa [harr] using hle
    · exact hle
  · refine ⟨?_, Nat.lt_succ_of_lt hlt⟩
    simp only [cap]
    rw [Function.update_of_ne (Nat.ne_of_lt hlt)]
    exact hle

/-- The result of an append lives in the array of the slice or in a new one. -/
theorem append_arr (h : Heap α) (sl : Slice) (x : α) :
    (append g z h sl x).2.arr = sl.arr ∨ (append g z h sl x).2.arr = h.next := by
  unfold append
  split <;> simp

@[simp] theorem append_len (h : Heap α) (sl : Slice) (x : α) :
    (append g z h sl x).2.len = sl.len + 1 := by
  unfold append
  split <;> rfl

/-! ## Appending several elements -/

theorem appendAll_spec {h : Heap α} {sl : Slice} (hv : h.Valid sl) (xs : List α) :
    (appendAll g z h sl xs).1.contents (appendAll g z h sl xs).2
        = h.contents sl ++ xs ∧
      (appendAll g z h sl xs).1.Valid (appendAll g z h sl xs).2 := by
  induction xs generalizing h sl with
  | nil => simpa [appendAll] using hv
  | cons x xs ih =>
      have := ih (hv.append_self (g := g) (z := z) x)
      rw [contents_append_self hv] at this
      simpa [appendAll] using this

theorem Wf.appendAll {h : Heap α} (hw : h.Wf) (sl : Slice) (xs : List α) :
    (appendAll g z h sl xs).1.Wf := by
  induction xs generalizing h sl with
  | nil => exact hw
  | cons x xs ih => exact ih (hw.append sl x) _

theorem Valid.appendAll {h : Heap α} {sl sl' : Slice} (hv : h.Valid sl') (xs : List α) :
    (appendAll g z h sl xs).1.Valid sl' := by
  induction xs generalizing h sl with
  | nil => exact hv
  | cons x xs ih => exact ih (hv.append x)

/-- The result lives in the array of the slice or in a new one. -/
theorem appendAll_arr (h : Heap α) (sl : Slice) (xs : List α) :
    (appendAll g z h sl xs).2.arr = sl.arr ∨ h.next ≤ (appendAll g z h sl xs).2.arr := by
  induction xs generalizing h sl with
  | nil => exact .inl rfl
  | cons x xs ih =>
      rcases ih (append g z h sl x).1 (append g z h sl x).2 with hrest | hrest
      · rcases append_arr (g := g) (z := z) h sl x with hone | hone
        · exact .inl (hrest.trans hone)
        · exact .inr (Nat.le_of_eq (hrest.trans hone).symm)
      · exact .inr (Nat.le_trans (append_next_le h sl x) hrest)

theorem Wf.appendAll_nil_arr {h : Heap α} (hw : h.Wf) {xs : List α} (hne : xs ≠ []) :
    h.next ≤ (Heap.appendAll g z h Slice.nil xs).2.arr := by
  cases xs with
  | nil => exact absurd rfl hne
  | cons x xs =>
      rcases appendAll_arr (g := g) (z := z) (Heap.append g z h Slice.nil x).1
        (Heap.append g z h Slice.nil x).2 xs with hrest | hrest
      · exact Nat.le_of_eq (hrest.trans (hw.append_nil_arr x)).symm
      · exact Nat.le_trans (append_next_le h Slice.nil x) hrest

/-- Appending `xs` keeps another slice as it is when that slice, should it share
the array, already holds `xs` where they are written. -/
theorem contents_appendAll {h : Heap α} {sl sl' : Slice} {xs : List α}
    (hv : h.Valid sl) (hv' : h.Valid sl')
    (hx : sl'.arr = sl.arr → ∀ i, sl.len + i < sl'.len → i < xs.length →
      (h.contents sl')[sl.len + i]? = xs[i]?) :
    (appendAll g z h sl xs).1.contents sl' = h.contents sl' := by
  induction xs generalizing h sl with
  | nil => rfl
  | cons x xs ih =>
      have hkeep : (append g z h sl x).1.contents sl' = h.contents sl' := by
        apply contents_append hv'
        intro harr hlt
        simpa using hx harr 0 hlt (by simp)
      rw [← hkeep]
      apply ih (hv.append_self x) (hv'.append x)
      intro harr i hi hlt
      rw [append_len] at hi ⊢
      rw [hkeep]
      rcases append_arr (g := g) (z := z) h sl x with h1 | h1
      · have := hx (harr.trans h1) (i + 1) (by omega) (by simpa using hlt)
        rw [show sl.len + 1 + i = sl.len + (i + 1) by omega, this]
        simp
      · -- a slice that existed before cannot live in the new array
        have := hv'.arr_lt
        omega

/-! ## In-place update -/

theorem contents_mapInPlace_self {h : Heap α} {sl : Slice} (hv : h.Valid sl) (f : α → α) :
    (h.mapInPlace sl f).contents sl = (h.contents sl).map f := by
  have hlen : ((h.contents sl).map f).length = sl.len := by
    rw [List.length_map, hv.length_contents]
  have htake := @List.take_left _ ((h.contents sl).map f) ((h.cells sl.arr).drop sl.len)
  rw [hlen] at htake
  simpa only [mapInPlace, contents, Function.update_self] using htake

theorem contents_mapInPlace_of_ne {h : Heap α} {sl sl' : Slice} (hne : sl'.arr ≠ sl.arr)
    (f : α → α) : (h.mapInPlace sl f).contents sl' = h.contents sl' := by
  simp [mapInPlace, contents, Function.update_of_ne hne]

theorem Wf.mapInPlace {h : Heap α} (hw : h.Wf) (sl : Slice) (f : α → α) :
    (h.mapInPlace sl f).Wf := by
  refine ⟨hw.next_pos, ?_⟩
  simp only [Heap.mapInPlace, Function.update_apply]
  split
  · next h0 => simp [contents, ← h0, hw.nil_cells]
  · exact hw.nil_cells

theorem Valid.mapInPlace {h : Heap α} {sl' : Slice} (hv : h.Valid sl') (sl : Slice) (f : α → α) :
    (h.mapInPlace sl f).Valid sl' := by
  refine ⟨?_, hv.arr_lt⟩
  have := hv.len_le
  simp only [cap, Heap.mapInPlace, Function.update_apply] at this ⊢
  split
  · next harr =>
      rw [harr] at this
      simp [contents]
      omega
  · exact this

theorem Wf.mapAllInPlace {h : Heap α} (hw : h.Wf) (sls : List Slice) (f : α → α) :
    (h.mapAllInPlace sls f).Wf := by
  induction sls generalizing h with
  | nil => exact hw
  | cons sl sls ih => exact ih (hw.mapInPlace sl f)

theorem Valid.mapAllInPlace {h : Heap α} {sl' : Slice} (hv : h.Valid sl') (sls : List Slice)
    (f : α → α) : (h.mapAllInPlace sls f).Valid sl' := by
  induction sls generalizing h with
  | nil => exact hv
  | cons sl sls ih => exact ih (hv.mapInPlace sl f)

/-- Rewriting slices that only share an array when they are equal rewrites each of
them, however often it is visited, if rewriting twice is rewriting once. -/
theorem contents_mapAllInPlace {h : Heap α} {sl : Slice} {sls : List Slice} {f : α → α}
    (hv : h.Valid sl) (hf : ∀ x, f (f x) = f x) (hsep : ∀ sl' ∈ sls, sl'.arr = sl.arr → sl' = sl) :
    (h.mapAllInPlace sls f).contents sl =
      if sl ∈ sls then (h.contents sl).map f else h.contents sl := by
  induction sls generalizing h with
  | nil => rfl
  | cons sl' sls ih =>
      have hrest := ih (hv.mapInPlace sl' f) fun s hs => hsep s (List.mem_cons_of_mem _ hs)
      rw [show h.mapAllInPlace (sl' :: sls) f = (h.mapInPlace sl' f).mapAllInPlace sls f from rfl,
        hrest]
      by_cases heq : sl' = sl
      · subst heq
        rw [contents_mapInPlace_self hv]
        simp [hf]
      · have hne : sl.arr ≠ sl'.arr := fun harr =>
          heq (hsep sl' List.mem_cons_self harr.symm)
        rw [contents_mapInPlace_of_ne hne]
        simp [Ne.symm heq]

/-! ## Single cells -/

/-- Cell `k` of an allocated array holds the value. -/
structure At (h : Heap α) (arr k : Nat) (x : α) : Prop where
  cell : (h.cells arr)[k]? = some x
  arr_lt : arr < h.next

theorem At.contents {h : Heap α} {sl : Slice} {k : Nat} {x : α} (hat : h.At sl.arr k x)
    (hk : k < sl.len) : (h.contents sl)[k]? = some x := by
  rw [Heap.contents, List.getElem?_take_of_lt hk, hat.cell]

theorem Valid.at_contents {h : Heap α} {sl : Slice} {k : Nat} {x : α} (hv : h.Valid sl)
    (hx : (h.contents sl)[k]? = some x) : h.At sl.arr k x := by
  refine ⟨?_, hv.arr_lt⟩
  rw [Heap.contents, List.getElem?_take] at hx
  split at hx
  · exact hx
  · cases hx

/-- Appending writes behind the slice. -/
theorem At.append {h : Heap α} {sl : Slice} {arr k : Nat} {x y : α} (hat : h.At arr k x)
    (hk : sl.arr = arr → k < sl.len) : (append g z h sl y).1.At arr k x := by
  obtain ⟨hcell, hlt⟩ := hat
  unfold Heap.append
  split
  · refine ⟨?_, hlt⟩
    by_cases harr : arr = sl.arr
    · subst harr
      simp only [Function.update_self]
      rw [List.getElem?_set_ne (Nat.ne_of_gt (hk rfl)), hcell]
    · simp only [Function.update_of_ne harr, hcell]
  · refine ⟨?_, Nat.lt_succ_of_lt hlt⟩
    simp only [Function.update_of_ne (Nat.ne_of_lt hlt), hcell]

theorem At.appendAll {h : Heap α} {sl : Slice} {arr k : Nat} {x : α} {ys : List α}
    (hat : h.At arr k x) (hk : sl.arr = arr → k < sl.len) :
    (appendAll g z h sl ys).1.At arr k x := by
  induction ys generalizing h sl with
  | nil => exact hat
  | cons y ys ih =>
    refine ih (hat.append hk) fun harr => ?_
    rw [append_len]
    obtain h' | h' := append_arr (g := g) (z := z) h sl y
    · exact Nat.lt_succ_of_lt (hk (h'.symm.trans harr))
    · have := hat.arr_lt
      omega

/-- Rewriting in place changes the cells of the slice. -/
theorem getElem?_cells_mapInPlace (h : Heap α) (sl : Slice) (f : α → α) (arr k : Nat) :
    ((h.mapInPlace sl f).cells arr)[k]? =
      if arr = sl.arr ∧ k < sl.len then (h.cells arr)[k]?.map f else (h.cells arr)[k]? := by
  by_cases harr : arr = sl.arr
  · subst harr
    simp only [Heap.mapInPlace, Heap.contents, Function.update_self, true_and]
    split
    · next hk =>
      by_cases hlen : k < (h.cells sl.arr).length
      · rw [List.getElem?_append_left (by simp; omega), List.getElem?_map,
          List.getElem?_take_of_lt hk]
      · rw [List.getElem?_eq_none (by simp; omega), List.getElem?_eq_none (by omega)]
        rfl
    · next hk =>
      by_cases hlen : sl.len ≤ (h.cells sl.arr).length
      · have hlen' : ((List.take sl.len (h.cells sl.arr)).map f).length = sl.len := by simp [hlen]
        rw [List.getElem?_append_right (by omega), hlen', List.getElem?_drop,
          Nat.add_sub_cancel' (by omega)]
      · rw [List.getElem?_eq_none (by simp; omega), List.getElem?_eq_none (by omega)]
  · simp [Heap.mapInPlace, harr]

/-- Rewriting in place keeps the values that are rewritten to themselves. -/
theorem At.mapInPlace {h : Heap α} {sl : Slice} {arr k : Nat} {x : α} {f : α → α}
    (hat : h.At arr k x) (hf : sl.arr = arr → k < sl.len → f x = x) :
    (h.mapInPlace sl f).At arr k x := by
  refine ⟨?_, hat.arr_lt⟩
  rw [getElem?_cells_mapInPlace, hat.cell]
  split
  · next hin => rw [Option.map_some, hf hin.1.symm hin.2]
  · rfl

theorem At.mapAllInPlace {h : Heap α} {sls : List Slice} {arr k : Nat} {x : α} {f : α → α}
    (hat : h.At arr k x) (hf : f x = x) : (h.mapAllInPlace sls f).At arr k x := by
  induction sls generalizing h with
  | nil => exact hat
  | cons sl sls ih => exact ih (hat.mapInPlace fun _ _ => hf)

/-- What another slice sees of a rewriting: each of its elements is as it was, or is
rewritten. -/
theorem getElem?_contents_mapInPlace (h : Heap α) (sl sl' : Slice) (f : α → α) (k : Nat) :
    ((h.mapInPlace sl f).contents sl')[k]? = (h.contents sl')[k]? ∨
      sl'.arr = sl.arr ∧ ((h.mapInPlace sl f).contents sl')[k]? = (h.contents sl')[k]?.map f := by
  simp only [Heap.contents, List.getElem?_take, getElem?_cells_mapInPlace]
  split
  · split
    · next hin => exact .inr ⟨hin.1, rfl⟩
    · exact .inl rfl
  · exact .inl rfl

theorem getElem?_contents_mapAllInPlace (h : Heap α) (sls : List Slice) (sl' : Slice) {f : α → α}
    (hf : ∀ x, f (f x) = f x) (k : Nat) :
    ((h.mapAllInPlace sls f).contents sl')[k]? = (h.contents sl')[k]? ∨
      ((h.mapAllInPlace sls f).contents sl')[k]? = (h.contents sl')[k]?.map f := by
  induction sls generalizing h with
  | nil => exact .inl rfl
  | cons sl sls ih =>
    have hone := getElem?_contents_mapInPlace h sl sl' f k
    have hmany := ih (h.mapInPlace sl f)
    obtain hone | ⟨-, hone⟩ := hone <;> rw [hone] at hmany
    · exact hmany
    · refine .inr (hmany.elim id fun h => h.trans ?_)
      simp [Function.comp_def, hf]

/-! ## The values an array holds -/

/-- Some cell holds the value, inside or outside the slices in use. -/
def Holds (h : Heap α) (x : α) : Prop := ∃ arr, x ∈ h.cells arr

theorem holds_of_mem_contents {h : Heap α} {sl : Slice} {x : α} (hx : x ∈ h.contents sl) :
    h.Holds x :=
  ⟨sl.arr, List.mem_of_mem_take hx⟩

theorem holds_of_update {h : Heap α} {arr next : Nat} {l : List α} {x : α}
    (hx : (⟨Function.update h.cells arr l, next⟩ : Heap α).Holds x) : h.Holds x ∨ x ∈ l := by
  obtain ⟨arr', hx⟩ := hx
  simp only [Function.update_apply] at hx
  split at hx
  · exact .inr hx
  · exact .inl ⟨arr', hx⟩

theorem Holds.of_append {h : Heap α} {sl : Slice} {x y : α} (hy : (append g z h sl x).1.Holds y) :
    h.Holds y ∨ y = x ∨ y = z := by
  unfold append at hy
  split at hy
  · obtain hy | hy := holds_of_update hy
    · exact .inl hy
    · obtain hy | hy := List.mem_or_eq_of_mem_set hy
      · exact .inl ⟨sl.arr, hy⟩
      · exact .inr (.inl hy)
  · obtain hy | hy := holds_of_update hy
    · exact .inl hy
    · simp only [List.mem_append, List.mem_cons, List.mem_replicate] at hy
      obtain hy | hy | ⟨-, hy⟩ := hy
      · exact .inl (holds_of_mem_contents hy)
      · exact .inr (.inl hy)
      · exact .inr (.inr hy)

theorem Holds.of_appendAll {h : Heap α} {sl : Slice} {xs : List α} {y : α}
    (hy : (appendAll g z h sl xs).1.Holds y) : h.Holds y ∨ y ∈ xs ∨ y = z := by
  induction xs generalizing h sl with
  | nil => exact .inl hy
  | cons x xs ih =>
      obtain hy | hy | hy := ih hy
      · obtain hy | rfl | hy := hy.of_append
        · exact .inl hy
        · exact .inr (.inl (List.mem_cons_self ..))
        · exact .inr (.inr hy)
      · exact .inr (.inl (List.mem_cons_of_mem _ hy))
      · exact .inr (.inr hy)

theorem Holds.of_mapInPlace {h : Heap α} {sl : Slice} {f : α → α} {y : α}
    (hf : ∀ x, f x = y → x = y) (hy : (h.mapInPlace sl f).Holds y) : h.Holds y := by
  obtain hy | hy := holds_of_update hy
  · exact hy
  · obtain hy | hy := List.mem_append.1 hy
    · obtain ⟨x, hx, hfx⟩ := List.mem_map.1 hy
      exact holds_of_mem_contents (hf x hfx ▸ hx)
    · exact ⟨sl.arr, List.mem_of_mem_drop hy⟩

theorem Holds.of_mapAllInPlace {h : Heap α} {sls : List Slice} {f : α → α} {y : α}
    (hf : ∀ x, f x = y → x = y) (hy : (h.mapAllInPlace sls f).Holds y) : h.Holds y := by
  induction sls generalizing h with
  | nil => exact hy
  | cons sl sls ih => exact (ih hy).of_mapInPlace hf

/-! ## What another slice comes to see -/

/-- An append through another slice shows its element, if the two share an array. -/
theorem mem_contents_append {h : Heap α} {sl sl' : Slice} {x y : α} (hv : h.Valid sl')
    (hy : y ∈ (append g z h sl x).1.contents sl') :
    y ∈ h.contents sl' ∨ sl'.arr = sl.arr ∧ y = x := by
  unfold append at hy
  split at hy
  · by_cases harr : sl'.arr = sl.arr
    · simp only [contents, harr, Function.update_self, List.take_set] at hy
      refine (List.mem_or_eq_of_mem_set hy).imp (fun hy => ?_) fun hy => ⟨harr, hy⟩
      simpa [contents, harr] using hy
    · exact .inl (by simpa [contents, Function.update_of_ne harr] using hy)
  · simp only [contents] at hy
    rw [Function.update_of_ne (Nat.ne_of_lt hv.arr_lt)] at hy
    exact .inl hy

theorem mem_contents_appendAll {h : Heap α} {sl sl' : Slice} {xs : List α} {y : α}
    (hv : h.Valid sl') (hy : y ∈ (appendAll g z h sl xs).1.contents sl') :
    y ∈ h.contents sl' ∨ sl'.arr = sl.arr ∧ y ∈ xs := by
  induction xs generalizing h sl with
  | nil => exact .inl hy
  | cons x xs ih =>
      obtain hy | ⟨harr, hy⟩ := ih (hv.append x) hy
      · obtain hy | ⟨harr, rfl⟩ := mem_contents_append hv hy
        · exact .inl hy
        · exact .inr ⟨harr, List.mem_cons_self ..⟩
      · -- a new array is none that another slice has
        obtain hold | hnew := append_arr (g := g) (z := z) h sl x
        · exact .inr ⟨harr.trans hold, List.mem_cons_of_mem _ hy⟩
        · exact absurd (harr.trans hnew) (Nat.ne_of_lt hv.arr_lt)

theorem mem_contents_mapInPlace {h : Heap α} {sl sl' : Slice} {f : α → α} {y : α}
    (hf : ∀ x, f x = y → x = y) (hy : y ∈ (h.mapInPlace sl f).contents sl') :
    y ∈ h.contents sl' := by
  obtain ⟨k, hk⟩ := List.mem_iff_getElem?.1 hy
  obtain heq | ⟨-, heq⟩ := getElem?_contents_mapInPlace h sl sl' f k <;> rw [heq] at hk
  · exact List.mem_iff_getElem?.2 ⟨k, hk⟩
  · obtain ⟨x, hx, hfx⟩ := Option.map_eq_some_iff.1 hk
    exact List.mem_iff_getElem?.2 ⟨k, hf x hfx ▸ hx⟩

theorem mem_contents_mapAllInPlace {h : Heap α} {sls : List Slice} {sl' : Slice} {f : α → α} {y : α}
    (hf : ∀ x, f x = y → x = y) (hy : y ∈ (h.mapAllInPlace sls f).contents sl') :
    y ∈ h.contents sl' := by
  induction sls generalizing h with
  | nil => exact hy
  | cons sl sls ih => exact mem_contents_mapInPlace hf (ih hy)

end Heap
