import Mathlib.Data.Fintype.Basic
import Mathlib.Data.Set.Insert
import Mathlib.Logic.Function.Basic

/-!
# Blocks that point to blocks

A memory of blocks of `n` words, in which a word may be the number of a block, 0 being none, and
some roots outside of it. A place for such a number is a `Thunix.BlockTree.Cell`: a root, or an
entry of the block that another cell names. `Thunix.BlockTree.Store.val` follows the cells, and is 0
where one on the way is.

The invariant is `Thunix.BlockTree.Tidy`: no two cells name the same block, and all the blocks
named are in use. Under it a fresh block that is put into an empty cell is seen in that cell and
nowhere else (`Thunix.BlockTree.Tidy.val_put`). `Thunix.BlockTree.Grows` says what such steps
add up to.
-/

namespace Thunix.BlockTree

/-- A place for the number of a block. -/
inductive Cell (ι : Type) (n : ℕ)
  /-- A root. -/
  | root (k : ι)
  /-- An entry of the block that a cell names. -/
  | entry (c : Cell ι n) (i : Fin n)
  deriving DecidableEq

/-- The cells on the way to a cell, and itself. -/
def Cell.path {ι : Type} {n : ℕ} : Cell ι n → Set (Cell ι n)
  | .root k => {.root k}
  | .entry c i => c.path ∪ {.entry c i}

theorem Cell.mem_path {ι : Type} {n : ℕ} (c : Cell ι n) : c ∈ c.path := by
  cases c with
  | root k => exact Set.mem_singleton _
  | entry c i => exact .inr (Set.mem_singleton _)

theorem root_ne_entry {ι : Type} {n : ℕ} (k : ι) (c : Cell ι n) (i : Fin n) :
    Cell.root k ≠ Cell.entry c i := by
  intro h
  cases h

/-- The roots and the words. -/
structure Store (ι : Type) where
  roots : ι → ℕ
  words : ℕ → ℕ

variable {ι : Type} {n : ℕ} {s s' s'' : Store ι} {used : List ℕ} {c c₀ : Cell ι n} {b : ℕ}

/-- What a cell holds. -/
def Store.val (s : Store ι) : Cell ι n → ℕ
  | .root k => s.roots k
  | .entry c i => if s.val c = 0 then 0 else s.words (n * s.val c + i)

/-- Whether there is a place for a cell. -/
def Store.Open (s : Store ι) : Cell ι n → Prop
  | .root _ => True
  | .entry c _ => s.val c ≠ 0

/-- A number is put into a cell. -/
def Store.put [DecidableEq ι] (s : Store ι) : Cell ι n → ℕ → Store ι
  | .root k, b => { s with roots := Function.update s.roots k b }
  | .entry c i, b => { s with words := Function.update s.words (n * s.val c + i) b }

/-- A word belongs to one block. -/
theorem word_inj {a b : ℕ} {i j : Fin n} (h : n * a + i = n * b + j) : a = b ∧ i = j := by
  have hn : 0 < n := i.pos
  have hdiv : (n * a + i) / n = (n * b + j) / n := by rw [h]
  rw [Nat.mul_add_div hn, Nat.mul_add_div hn, Nat.div_eq_of_lt i.2, Nat.div_eq_of_lt j.2] at hdiv
  have hab : a = b := hdiv
  subst hab
  exact ⟨rfl, Fin.ext (Nat.add_left_cancel h)⟩

theorem val_entry_of_zero {i : Fin n} (h : s.val c = 0) : s.val (.entry c i) = 0 := by
  rw [Store.val, if_pos h]

theorem val_entry {i : Fin n} (h : s.val c ≠ 0) :
    s.val (.entry c i) = s.words (n * s.val c + i) := by
  rw [Store.val, if_neg h]

/-- A cell in use has a place. -/
theorem open_of_val_ne_zero (h : s.val c ≠ 0) : s.Open c := by
  cases c with
  | root k => trivial
  | entry c i => exact fun h0 => h (val_entry_of_zero h0)

/-! ### The invariant -/

/-- No two cells name the same block, and what they name is in use. -/
structure Tidy (n : ℕ) (s : Store ι) (used : List ℕ) : Prop where
  distinct : ∀ c c' : Cell ι n, s.val c ≠ 0 → s.val c = s.val c' → c = c'
  owned : ∀ c : Cell ι n, s.val c ≠ 0 → s.val c ∈ used

/-- Without any roots there is nothing. -/
theorem val_of_roots (h : ∀ k, s.roots k = 0) (c : Cell ι n) : s.val c = 0 := by
  induction c with
  | root k => exact h k
  | entry c i ih => exact val_entry_of_zero ih

theorem Tidy.of_roots (h : ∀ k, s.roots k = 0) (used : List ℕ) : Tidy n s used :=
  ⟨fun c _ hc => absurd (val_of_roots h c) hc, fun c hc => absurd (val_of_roots h c) hc⟩

/-- Words of blocks that are not in use do not matter. -/
theorem Tidy.val_congr (h : Tidy n s used) (hroots : s'.roots = s.roots)
    (hwords : ∀ b ∈ used, ∀ i : Fin n, s'.words (n * b + i) = s.words (n * b + i))
    (c : Cell ι n) : s'.val c = s.val c := by
  induction c with
  | root k => exact congrFun hroots k
  | entry c i ih =>
    by_cases h0 : s.val c = 0
    · rw [val_entry_of_zero h0, val_entry_of_zero (ih.trans h0)]
    · rw [val_entry h0, val_entry (by rwa [ih]), ih, hwords _ (h.owned c h0)]

theorem Tidy.congr (h : Tidy n s used) (hval : ∀ c : Cell ι n, s'.val c = s.val c) :
    Tidy n s' used := by
  constructor
  · intro c c' hc hcc'
    rw [hval] at hc
    rw [hval, hval] at hcc'
    exact h.distinct c c' hc hcc'
  · intro c hc
    rw [hval] at hc ⊢
    exact h.owned c hc

/-- **A fresh block in an empty cell** is seen in that cell and nowhere else. -/
theorem Tidy.val_put [DecidableEq ι] (h : Tidy n s used) (hb : b ≠ 0) (hfresh : b ∉ used)
    (hzero : ∀ i : Fin n, s.words (n * b + i) = 0) (h0 : s.val c₀ = 0) (hopen : s.Open c₀)
    (c : Cell ι n) : (s.put c₀ b).val c = if c = c₀ then b else s.val c := by
  induction c with
  | root k =>
    cases c₀ with
    | root k₀ =>
      show Function.update s.roots k₀ b k = _
      rcases eq_or_ne k k₀ with rfl | hk
      · rw [Function.update_self, if_pos rfl]
      · rw [Function.update_of_ne hk, if_neg fun heq => hk (Cell.root.inj heq)]
        rfl
    | entry p i => rfl
  | entry q j ih =>
    -- what a block other than the cell's own holds is as before
    have hwords : ∀ v, (∀ p i, c₀ = .entry p i → n * v + j ≠ n * s.val p + i) →
        (s.put c₀ b).words (n * v + j) = s.words (n * v + j) := by
      intro v hv
      cases c₀ with
      | root k₀ => rfl
      | entry p i => exact Function.update_of_ne (hv p i rfl) _ _
    by_cases hq : q = c₀
    · -- an entry of the fresh block
      rw [if_pos hq] at ih
      have hne : Cell.entry q j ≠ c₀ := by
        intro heq
        have hsize := congrArg sizeOf (hq.trans heq.symm)
        rw [Cell.entry.sizeOf_spec] at hsize
        omega
      have hq0 : s.val q = 0 := hq ▸ h0
      rw [val_entry (by rwa [ih]), ih, if_neg hne, val_entry_of_zero hq0, hwords, hzero]
      rintro p i rfl heq
      have hp : s.val p ≠ 0 := hopen
      exact hfresh ((word_inj heq).1 ▸ h.owned p hp)
    · rw [if_neg hq] at ih
      by_cases hv : s.val q = 0
      · have hne : Cell.entry q j ≠ c₀ := by
          rintro rfl
          exact hopen hv
        rw [val_entry_of_zero (ih.trans hv), if_neg hne, val_entry_of_zero hv]
      · rw [val_entry (by rwa [ih]), ih]
        by_cases heq : Cell.entry q j = c₀
        · subst heq
          rw [if_pos rfl]
          exact Function.update_self _ _ _
        · rw [if_neg heq, val_entry hv, hwords]
          rintro p i rfl hword
          obtain ⟨hpq, rfl⟩ := word_inj hword
          exact heq (by rw [h.distinct q p hv hpq])

/-- **The invariant is kept.** -/
theorem Tidy.put [DecidableEq ι] (h : Tidy n s used) (hb : b ≠ 0) (hfresh : b ∉ used)
    (hzero : ∀ i : Fin n, s.words (n * b + i) = 0) (h0 : s.val c₀ = 0) (hopen : s.Open c₀) :
    Tidy n (s.put c₀ b) (b :: used) := by
  have hval := h.val_put hb hfresh hzero h0 hopen
  have hother : ∀ c, s.val c ≠ b := fun c hc =>
    hfresh (hc ▸ h.owned c (hc ▸ hb))
  constructor
  · intro c c' hc hcc'
    rw [hval] at hc
    rw [hval, hval] at hcc'
    by_cases h1 : c = c₀ <;> by_cases h2 : c' = c₀
    · rw [h1, h2]
    · rw [if_pos h1, if_neg h2] at hcc'
      exact absurd hcc'.symm (hother c')
    · rw [if_neg h1, if_pos h2] at hcc'
      exact absurd hcc' (hother c)
    · rw [if_neg h1] at hc
      rw [if_neg h1, if_neg h2] at hcc'
      exact h.distinct c c' hc hcc'
  · intro c hc
    rw [hval] at hc ⊢
    by_cases h1 : c = c₀
    · rw [if_pos h1]
      exact List.mem_cons_self
    · rw [if_neg h1] at hc ⊢
      exact List.mem_cons_of_mem _ (h.owned c hc)

/-! ### Growing -/

/-- The cells of `cs` are filled, and nothing that was there changes. -/
structure Grows (s s' : Store ι) (cs : Set (Cell ι n)) : Prop where
  filled : ∀ c ∈ cs, s'.val c ≠ 0
  kept : ∀ c : Cell ι n, s.val c ≠ 0 → s'.val c = s.val c
  others : ∀ c ∉ cs, s'.val c = s.val c

/-- Cells that are filled need not be. -/
theorem Grows.of_filled {cs : Set (Cell ι n)} (h : ∀ c ∈ cs, s.val c ≠ 0) : Grows s s cs :=
  ⟨h, fun _ _ => rfl, fun _ _ => rfl⟩

/-- What is added by one block. -/
theorem Grows.of_eq [DecidableEq ι] (h0 : s.val c₀ = 0) (hb : b ≠ 0)
    (hval : ∀ c, s'.val c = if c = c₀ then b else s.val c) : Grows s s' {c₀} := by
  refine ⟨fun c hc => ?_, fun c hc => ?_, fun c hc => ?_⟩
  · rw [hval, if_pos (Set.mem_singleton_iff.mp hc)]
    exact hb
  · rw [hval, if_neg]
    rintro rfl
    exact hc h0
  · rw [hval, if_neg fun heq => hc (Set.mem_singleton_iff.mpr heq)]

theorem Grows.trans {cs cs' : Set (Cell ι n)} (h : Grows s s' cs) (h' : Grows s' s'' cs') :
    Grows s s'' (cs ∪ cs') := by
  refine ⟨fun c hc => ?_, fun c hc => ?_, fun c hc => ?_⟩
  · rcases hc with hc | hc
    · rw [h'.kept c (h.filled c hc)]
      exact h.filled c hc
    · exact h'.filled c hc
  · have hc' := h.kept c hc
    rw [h'.kept c (hc' ▸ hc), hc']
  · rw [h'.others c fun hmem => hc (.inr hmem), h.others c fun hmem => hc (.inl hmem)]

end Thunix.BlockTree
