import Thunix.Mm.Layout

/-!
# The search for a free block

`malloc` searches from `next_start`, and `next_start` is not always a header of
the current list of blocks: `free` may leave it at a header that has just been
merged into the free block before it. Such a stale header is still read by the
search, which hops over it because its `free` word is 0 and its old size leads to
the next header. `Thunix.Mm.StalePath` is that chain of hops and
`Thunix.Mm.NextOk` lists the three things `next_start` can be.

`Thunix.Mm.exists_firstFit` is what the rest of the development uses: from any of
them the search ends, with the first free block large enough among those it gets
to or with none.
-/

namespace Thunix.Mm

/-- The block is free and holds `need` bytes. -/
def Blk.Fits (b : Blk) (need : ℤ) : Prop := b.inUse = false ∧ need ≤ b.size

section Search

variable {R : ℕ → ℕ → Prop} {m m' : Mem} {a p x e : ℕ} (need : ℤ)

/-- **The search over a segment that ends with the arena** finds its first
fitting block, or has seen that there is none. -/
theorem firstFit_seg {bs : List Blk} (fuel : ℕ) (h : Seg R m a p bs)
    (he : a + span bs = memEnd) (ha : 0 < a) (hf : memEnd < a + 16 * fuel) :
    ∃ r, firstFit m need fuel (if bs = [] then 0 else a) = some r ∧
      ((r = 0 ∧ ∀ b ∈ bs, ¬b.Fits need) ∨
        ∃ pre b post, bs = pre ++ b :: post ∧ r = a + span pre ∧ b.Fits need ∧
          ∀ c ∈ pre, ¬c.Fits need) := by
  have hend : memEnd = 0x900000 := rfl
  induction bs generalizing a p fuel with
  | nil =>
    obtain ⟨fuel, rfl⟩ : ∃ f, fuel = f + 1 := ⟨fuel - 1, by simp at he; omega⟩
    exact ⟨0, by simp [firstFit], Or.inl ⟨rfl, by simp⟩⟩
  | cons b bs ih =>
    rw [span_cons] at he
    have hb := b.min_le
    obtain ⟨fuel, rfl⟩ : ∃ f, fuel = f + 1 := ⟨fuel - 1, by omega⟩
    rw [if_neg (by simp), firstFit, if_neg (by omega), h.1.sizeOf_eq (by omega), h.1.free]
    have hiff : b.flag ≠ 0 ∧ need ≤ b.size ↔ b.Fits need := by
      rw [Blk.flag_ne_zero_iff, Blk.Fits]
    by_cases hfit : b.Fits need
    · exact ⟨a, if_pos (hiff.mpr hfit), Or.inr ⟨[], b, bs, rfl, by simp, hfit, by simp⟩⟩
    · rw [if_neg (mt hiff.mp hfit), h.getNext_eq (by rw [span_cons]; exact he)]
      obtain ⟨r, hr, hcase⟩ := ih fuel h.2 (by omega) (by omega) (by omega)
      refine ⟨r, hr, ?_⟩
      rcases hcase with ⟨rfl, hno⟩ | ⟨pre, c, post, rfl, rfl, hc, hpre⟩
      · exact Or.inl ⟨rfl, by simpa [hfit] using hno⟩
      · exact Or.inr ⟨b :: pre, c, post, rfl, by simp [Nat.add_assoc], hc, by
          simpa [hfit] using hpre⟩

/-! ### Stale headers -/

/-- Headers left over by merges lead from `x` to `e`, all with a `free` word of
0. -/
inductive StalePath (m : Mem) : ℕ → ℕ → Prop
  /-- Arrived. -/
  | here (e : ℕ) : StalePath m e e
  /-- One leftover header, whose size leads on. -/
  | hop {x n e : ℕ} : (m (x + 4)).toNat = n → 16 ≤ n → freeOf m x = 0 → StalePath m (x + n) e →
      StalePath m x e

theorem StalePath.le (h : StalePath m x e) : x ≤ e := by
  induction h with
  | here => exact le_refl _
  | hop _ _ _ _ ih => omega

theorem StalePath.trans {y : ℕ} (h : StalePath m x e) (h' : StalePath m e y) : StalePath m x y := by
  induction h with
  | here => exact h'
  | hop hn h16 h0 _ ih => exact .hop hn h16 h0 (ih h')

/-- A stale path only depends on the words it crosses. -/
theorem StalePath.congr (h : StalePath m x e) (hm : ∀ y, x ≤ y → y < e → m' y = m y) :
    StalePath m' x e := by
  induction h with
  | here => exact .here _
  | hop hn h16 h0 hrest ih =>
    have hle := hrest.le
    refine .hop ?_ h16 ?_ (ih fun y h1 h2 => hm y (by omega) h2)
    · rw [hm _ (by omega) (by omega)]
      exact hn
    · rw [freeOf, hm _ (by omega) (by omega)]
      exact h0

/-- The search hops over stale headers. -/
theorem firstFit_stale (fuel : ℕ) (h : StalePath m x e) (he : e ≤ memEnd) (hx : 0 < x)
    (hf : memEnd < x + 16 * fuel) :
    ∃ fuel', memEnd < e + 16 * fuel' ∧
      firstFit m need fuel (if x = memEnd then 0 else x) =
        firstFit m need fuel' (if e = memEnd then 0 else e) := by
  induction h generalizing fuel with
  | here => exact ⟨fuel, hf, rfl⟩
  | @hop x n e hn h16 h0 hrest ih =>
    have hle := hrest.le
    obtain ⟨fuel, rfl⟩ : ∃ f, fuel = f + 1 := ⟨fuel - 1, by omega⟩
    obtain ⟨fuel', hf', heq⟩ := ih fuel he (by omega) (by omega)
    refine ⟨fuel', hf', ?_⟩
    rw [if_neg (by omega), firstFit, if_neg (by omega), if_neg (by simp [h0]),
      getNext_of_toNat hn (by omega)]
    exact heq

end Search

/-! ### Where the search starts -/

/-- What `next_start` can be: `NULL`, the header of a block, or a stale header
inside a free block. -/
def NextOk (m : Mem) (bs : List Blk) (x : ℕ) : Prop :=
  x = 0 ∨ (∃ b, BlockAt bs x b) ∨
    ∃ a b, BlockAt bs a b ∧ b.inUse = false ∧ a + 16 ≤ x ∧ x < a + b.size ∧
      StalePath m x (a + b.size)

/-- **The search from `next_start` ends**, and what it finds is a free block large
enough. -/
theorem exists_firstFit {R : ℕ → ℕ → Prop} {m : Mem} {bs : List Blk} {x : ℕ} (need : ℤ)
    (h : Layout R m bs) (hx : NextOk m bs x) :
    ∃ r, firstFit m need walkFuel x = some r ∧
      (r = 0 ∨ ∃ b, BlockAt bs r b ∧ b.Fits need) := by
  have hw : walkFuel = 0x20000 := rfl
  have hend : memEnd = memory + memSize := rfl
  have hsz : memSize = 0x100000 := rfl
  have hmem : memory = 0x800000 := rfl
  -- from the header of the block after `pre`, or from the end of the arena
  have key : ∀ (pre post : List Blk) (fuel : ℕ), bs = pre ++ post →
      memEnd < memory + span pre + 16 * fuel →
      ∃ r, firstFit m need fuel (if post = [] then 0 else memory + span pre) = some r ∧
        (r = 0 ∨ ∃ b, BlockAt bs r b ∧ b.Fits need) := by
    rintro pre post fuel rfl hf
    have hs := h.span_eq
    rw [span_append] at hs
    obtain ⟨r, hr, hcase⟩ := firstFit_seg need fuel (seg_append.mp h.seg).2 (by omega)
      (by omega) hf
    refine ⟨r, hr, ?_⟩
    rcases hcase with ⟨hr0, -⟩ | ⟨pre', b, post', rfl, rfl, hb, -⟩
    · exact Or.inl hr0
    · exact Or.inr ⟨b, ⟨pre ++ pre', post', by simp, by simp [Nat.add_assoc]⟩, hb⟩
  rcases hx with rfl | ⟨b, pre, post, rfl, rfl⟩ | ⟨a, b, ⟨pre, post, rfl, rfl⟩, -, hlo, hhi, hpath⟩
  · exact ⟨0, by rw [hw]; simp [firstFit], Or.inl rfl⟩
  · have := key pre (b :: post) walkFuel rfl (by omega)
    rwa [if_neg (by simp)] at this
  · have hs := h.span_eq
    simp only [span_append, span_cons] at hs
    obtain ⟨fuel', hf', heq⟩ := firstFit_stale need walkFuel hpath (by omega) (by omega)
      (by omega)
    rw [if_neg (by omega)] at heq
    obtain ⟨r, hr, hcase⟩ := key (pre ++ [b]) post fuel' (by simp) (by simp; omega)
    refine ⟨r, ?_, hcase⟩
    rw [heq, ← hr]
    congr 1
    cases post with
    | nil => simp only [span_nil] at hs; rw [if_pos (by omega), if_pos rfl]
    | cons c cs =>
      have := c.min_le
      rw [span_cons] at hs
      rw [if_neg (by omega), if_neg (by simp)]
      simp [Nat.add_assoc]

end Thunix.Mm
