import Mathlib.Algebra.BigOperators.Group.List.Basic
import Mathlib.Tactic.SplitIfs
import Thunix.Mm.Malloc

/-!
# The blocks that tile the arena

What the words of the arena say when the allocator is healthy: from `memory` on
the headers describe a list of blocks, `Thunix.Mm.Blk`, that tile the arena. The
description is `Thunix.Mm.Seg`, a segment of consecutive blocks read off the
memory, and it splits at any point of the list (`Thunix.Mm.seg_append`) and only
depends on the words it covers (`Thunix.Mm.Seg.congr`), which is what lets every
operation be settled on the few blocks it touches.

The relation `R` between the `prev` word stored and the block really before is a
parameter. With equality a segment says that the back links are right; the weaker
relations allow a link that has been overlaid.
-/

namespace Thunix.Mm

/-! ### Loads after stores -/

theorem put_self (m : Mem) (a : ℕ) (w : UInt32) : put m a w a = w := Function.update_self ..

theorem put_ne {m : Mem} {a x : ℕ} {w : UInt32} (h : x ≠ a) : put m a w x = m x :=
  Function.update_of_ne h ..

theorem linkPrev_ne {m : Mem} {a x p : ℕ} (h : x ≠ a) : linkPrev m a p x = m x := by
  rw [linkPrev]
  split
  · exact put_ne h
  · rfl

theorem linkPrev_self {m : Mem} {a p : ℕ} (h : a ≠ 0) :
    linkPrev m a p a = UInt32.ofNat p := by
  rw [linkPrev, if_pos h, setPrev, put_self]

theorem toNat_ofNat_of_lt {n : ℕ} (h : n < 2 ^ 32) : (UInt32.ofNat n).toNat = n := by
  rw [UInt32.toNat_ofNat', Nat.mod_eq_of_lt h]

/-! ### Blocks -/

/-- A block of the arena: at least a header and one aligned word, in multiples of
4. -/
structure Blk where
  /-- The size in bytes, header included. -/
  size : ℕ
  /-- Whether the block is handed out. -/
  inUse : Bool
  /-- No block is smaller than a header and one word. -/
  min_le : 16 ≤ size
  /-- Sizes are multiples of 4. -/
  four_dvd : size % 4 = 0

/-- The `free` word of a block. -/
def Blk.flag (b : Blk) : UInt32 := if b.inUse then 0 else 1

/-- The block with its state changed. -/
def Blk.mark (b : Blk) (u : Bool) : Blk := { b with inUse := u }

/-- The free block made of two neighbours. -/
def Blk.join (b c : Blk) : Blk where
  size := b.size + c.size
  inUse := false
  min_le := by have := b.min_le; omega
  four_dvd := by have := b.four_dvd; have := c.four_dvd; omega

@[simp] theorem Blk.mark_size (b : Blk) (u : Bool) : (b.mark u).size = b.size := rfl

@[simp] theorem Blk.mark_inUse (b : Blk) (u : Bool) : (b.mark u).inUse = u := rfl

@[simp] theorem Blk.join_size (b c : Blk) : (b.join c).size = b.size + c.size := rfl

@[simp] theorem Blk.join_inUse (b c : Blk) : (b.join c).inUse = false := rfl

@[simp] theorem Blk.join_mark (b c : Blk) (u : Bool) : b.join (c.mark u) = b.join c := rfl

theorem Blk.flag_of_inUse {b : Blk} (h : b.inUse = true) : b.flag = 0 := by simp [Blk.flag, h]

theorem Blk.flag_of_not_inUse {b : Blk} (h : b.inUse = false) : b.flag = 1 := by
  simp [Blk.flag, h]

theorem Blk.flag_ne_zero_iff {b : Blk} : b.flag ≠ 0 ↔ b.inUse = false := by
  cases h : b.inUse <;> simp [Blk.flag, h]

/-- The bytes a list of blocks covers. -/
def span (bs : List Blk) : ℕ := (bs.map Blk.size).sum

@[simp] theorem span_nil : span [] = 0 := rfl

@[simp] theorem span_cons (b : Blk) (bs : List Blk) : span (b :: bs) = b.size + span bs := by
  simp [span]

@[simp] theorem span_append (xs ys : List Blk) : span (xs ++ ys) = span xs + span ys := by
  simp [span]

/-- The address of the last block of a list laid out from `a`, or `p` when there
is none. -/
def lastFrom : ℕ → ℕ → List Blk → ℕ
  | _, p, [] => p
  | a, _, b :: bs => lastFrom (a + b.size) a bs

@[simp] theorem lastFrom_nil (a p : ℕ) : lastFrom a p [] = p := rfl

@[simp] theorem lastFrom_cons (a p : ℕ) (b : Blk) (bs : List Blk) :
    lastFrom a p (b :: bs) = lastFrom (a + b.size) a bs := rfl

@[simp] theorem lastFrom_concat (a p : ℕ) (xs : List Blk) (b : Blk) :
    lastFrom a p (xs ++ [b]) = a + span xs := by
  induction xs generalizing a p with
  | nil => simp
  | cons x xs ih => simp [ih, Nat.add_assoc]

/-! ### A segment of the arena -/

section Seg

variable {R : ℕ → ℕ → Prop} {m m' : Mem} {a p : ℕ} {b : Blk}

/-- The header at `a` describes `b`, with `p` the block before it. -/
structure Hdr (R : ℕ → ℕ → Prop) (m : Mem) (a p : ℕ) (b : Blk) : Prop where
  /-- The back link. -/
  prev : R (prevOf m a) p
  /-- The size. -/
  size : (m (a + 4)).toNat = b.size
  /-- The free flag. -/
  free : freeOf m a = b.flag

/-- From `a` on the memory holds the headers of the blocks of the list, the first
of them after `p`. -/
def Seg (R : ℕ → ℕ → Prop) (m : Mem) : ℕ → ℕ → List Blk → Prop
  | _, _, [] => True
  | a, p, b :: bs => Hdr R m a p b ∧ Seg R m (a + b.size) a bs

@[simp] theorem seg_nil : Seg R m a p [] := trivial

theorem seg_cons {bs : List Blk} :
    Seg R m a p (b :: bs) ↔ Hdr R m a p b ∧ Seg R m (a + b.size) a bs := Iff.rfl

/-- **A segment splits at any point of its list.** -/
theorem seg_append {xs ys : List Blk} :
    Seg R m a p (xs ++ ys) ↔ Seg R m a p xs ∧ Seg R m (a + span xs) (lastFrom a p xs) ys := by
  induction xs generalizing a p with
  | nil => simp
  | cons x xs ih =>
    rw [List.cons_append, seg_cons, seg_cons, ih, lastFrom_cons, span_cons, Nat.add_assoc,
      and_assoc]

theorem Hdr.congr (h : Hdr R m a p b) (h0 : m' a = m a) (h4 : m' (a + 4) = m (a + 4))
    (h8 : m' (a + 8) = m (a + 8)) : Hdr R m' a p b where
  prev := by rw [prevOf, h0]; exact h.prev
  size := by rw [h4]; exact h.size
  free := by rw [freeOf, h8]; exact h.free

/-- **A segment only depends on the words it covers.** -/
theorem Seg.congr {bs : List Blk} (h : Seg R m a p bs)
    (hm : ∀ x, a ≤ x → x < a + span bs → m' x = m x) : Seg R m' a p bs := by
  induction bs generalizing a p with
  | nil => trivial
  | cons b bs ih =>
    have hb := b.min_le
    rw [span_cons] at hm
    refine ⟨h.1.congr (hm _ ?_ ?_) (hm _ ?_ ?_) (hm _ ?_ ?_),
      ih h.2 fun x h1 h2 => hm x ?_ ?_⟩ <;> omega

/-- Only the back link of its first block ties a segment to what comes before. -/
theorem Seg.relink {bs : List Blk} {q : ℕ} (h : Seg R m a p (b :: bs))
    (hm : ∀ x, a < x → x < a + span (b :: bs) → m' x = m x) (hq : R (prevOf m' a) q) :
    Seg R m' a q (b :: bs) := by
  have hb := b.min_le
  rw [span_cons] at hm
  refine ⟨⟨hq, ?_, ?_⟩, h.2.congr fun x h1 h2 => hm x ?_ ?_⟩
  · rw [hm _ (by omega) (by omega)]
    exact h.1.size
  · rw [freeOf, hm _ (by omega) (by omega)]
    exact h.1.free
  · omega
  · omega

theorem Hdr.sizeOf_eq (h : Hdr R m a p b) (hb : b.size < 2 ^ 31) : sizeOf m a = b.size := by
  rw [sizeOf, toInt_of_lt (by rw [h.size]; exact hb), h.size]

theorem getNext_of_toNat {n : ℕ} (hn : (m (a + 4)).toNat = n) (h : a + n ≤ memEnd) :
    getNext m a = if a + n = memEnd then 0 else a + n := by
  have : memEnd = 0x900000 := rfl
  rw [getNext, hn, Nat.mod_eq_of_lt (by omega)]
  split_ifs <;> first | rfl | omega

theorem Hdr.getNext_eq (h : Hdr R m a p b) (he : a + b.size ≤ memEnd) :
    getNext m a = if a + b.size = memEnd then 0 else a + b.size := getNext_of_toNat h.size he

/-- Where a segment that ends with the arena goes on after its first block. -/
theorem Seg.getNext_eq {bs : List Blk} (h : Seg R m a p (b :: bs))
    (he : a + span (b :: bs) = memEnd) :
    getNext m a = if bs = [] then 0 else a + b.size := by
  rw [span_cons] at he
  rw [h.1.getNext_eq (by omega)]
  cases bs with
  | nil => rw [if_pos (by simpa using he), if_pos rfl]
  | cons c cs =>
    have := c.min_le
    rw [span_cons] at he
    rw [if_neg (by omega), if_neg (by simp)]

end Seg

/-! ### The whole arena -/

/-- The blocks `bs` tile the arena. -/
structure Layout (R : ℕ → ℕ → Prop) (m : Mem) (bs : List Blk) : Prop where
  /-- The headers from `memory` on. -/
  seg : Seg R m memory 0 bs
  /-- They cover the arena. -/
  span_eq : span bs = memSize

/-- Block `b` of the list starts at address `a`. -/
def BlockAt (bs : List Blk) (a : ℕ) (b : Blk) : Prop :=
  ∃ pre post, bs = pre ++ b :: post ∧ a = memory + span pre

/-- The blocks of a list laid out from `base`, one by one. -/
def BlockIn : ℕ → List Blk → ℕ → Blk → Prop
  | _, [], _, _ => False
  | base, x :: xs, a, b => a = base ∧ b = x ∨ BlockIn (base + x.size) xs a b

@[simp] theorem blockIn_nil (base a : ℕ) (b : Blk) : BlockIn base [] a b ↔ False := Iff.rfl

@[simp] theorem blockIn_cons (base a : ℕ) (b x : Blk) (xs : List Blk) :
    BlockIn base (x :: xs) a b ↔ a = base ∧ b = x ∨ BlockIn (base + x.size) xs a b := Iff.rfl

theorem blockIn_append {base a : ℕ} {b : Blk} {xs ys : List Blk} :
    BlockIn base (xs ++ ys) a b ↔ BlockIn base xs a b ∨ BlockIn (base + span xs) ys a b := by
  induction xs generalizing base with
  | nil => simp
  | cons x xs ih => simp [ih, or_assoc, Nat.add_assoc]

theorem BlockIn.range {base a : ℕ} {b : Blk} {xs : List Blk} (h : BlockIn base xs a b) :
    base ≤ a ∧ a + b.size ≤ base + span xs := by
  induction xs generalizing base with
  | nil => exact h.elim
  | cons x xs ih =>
    rw [span_cons]
    rcases h with ⟨rfl, rfl⟩ | h
    · omega
    · have := ih h
      omega

theorem blockAt_iff_blockIn {bs : List Blk} {a : ℕ} {b : Blk} :
    BlockAt bs a b ↔ BlockIn memory bs a b := by
  have key : ∀ base, (∃ pre post, bs = pre ++ b :: post ∧ a = base + span pre) ↔
      BlockIn base bs a b := by
    intro base
    induction bs generalizing base with
    | nil => simp
    | cons x xs ih =>
      rw [blockIn_cons, ← ih]
      constructor
      · rintro ⟨pre, post, heq, rfl⟩
        cases pre with
        | nil => exact Or.inl (by simpa [eq_comm] using (List.cons.inj heq).1)
        | cons y pre =>
          obtain ⟨rfl, rfl⟩ := List.cons.inj heq
          exact Or.inr ⟨pre, post, rfl, by simp [Nat.add_assoc]⟩
      · rintro (⟨rfl, rfl⟩ | ⟨pre, post, rfl, rfl⟩)
        · exact ⟨[], xs, rfl, by simp⟩
        · exact ⟨x :: pre, post, rfl, by simp [Nat.add_assoc]⟩
  exact key memory

theorem BlockAt.bound {bs : List Blk} {a : ℕ} {b : Blk} (h : BlockAt bs a b)
    (hs : span bs = memSize) : memory ≤ a ∧ a + b.size ≤ memEnd := by
  obtain ⟨pre, post, rfl, rfl⟩ := h
  have : memEnd = memory + memSize := rfl
  simp only [span_append, span_cons] at hs
  omega

/-- Blocks at different addresses do not overlap. -/
theorem BlockAt.apart {bs : List Blk} {a a' : ℕ} {b b' : Blk} (h : BlockAt bs a b)
    (h' : BlockAt bs a' b') (hne : a ≠ a') : a + b.size ≤ a' ∨ a' + b'.size ≤ a := by
  obtain ⟨pre, post, rfl, rfl⟩ := h
  obtain ⟨pre', post', heq, rfl⟩ := h'
  rcases List.append_eq_append_iff.mp heq with ⟨t, rfl, ht⟩ | ⟨t, rfl, ht⟩
  · cases t with
    | nil => simp at hne
    | cons c t =>
      obtain ⟨rfl, -⟩ : b = c ∧ _ := by simpa using ht
      simp only [span_append, span_cons]
      omega
  · cases t with
    | nil => simp at hne
    | cons c t =>
      obtain ⟨rfl, -⟩ : b' = c ∧ _ := by simpa using ht
      simp only [span_append, span_cons]
      omega

theorem BlockAt.unique {bs : List Blk} {a : ℕ} {b b' : Blk} (h : BlockAt bs a b)
    (h' : BlockAt bs a b') : b = b' := by
  obtain ⟨pre, post, rfl, ha⟩ := h
  obtain ⟨pre', post', heq, ha'⟩ := h'
  rcases List.append_eq_append_iff.mp heq with ⟨t, rfl, ht⟩ | ⟨t, rfl, ht⟩
  · cases t with
    | nil => simpa using (List.cons.inj ht).1
    | cons c t =>
      have := c.min_le
      simp only [span_append, span_cons] at ha'
      omega
  · cases t with
    | nil => simpa using (List.cons.inj ht).1.symm
    | cons c t =>
      have := c.min_le
      simp only [span_append, span_cons] at ha
      omega

theorem Layout.hdr {R : ℕ → ℕ → Prop} {m : Mem} {bs : List Blk} (h : Layout R m bs) {a : ℕ}
    {b : Blk} (hb : BlockAt bs a b) : ∃ p, Hdr R m a p b := by
  obtain ⟨pre, post, rfl, rfl⟩ := hb
  exact ⟨_, (seg_append.mp h.seg).2.1⟩

end Thunix.Mm
