import Mathlib.Data.List.Chain
import Thunix.Mm.Release

/-!
# Tilings of the arena by blocks of any size

`Thunix.Mm.Seg` describes the heaps that the allocator itself builds, whose blocks
have at least 16 bytes, in multiples of 4. What a single call of `free` or of
`malloc` does is settled for every heap, and the description is relaxed to the one
thing that a block has to have, a header: the tiles of `Thunix.Mm.Tile` have any size
from 12 bytes on. Back links are exact here.

What a call writes is said by `Thunix.Mm.Replaced`, and `Thunix.Mm.Replaced.tiles` is
the rule for it: a stretch of neighbouring tiles becomes one.
-/

namespace Thunix.Mm

/-- A block of the arena, of any size that holds a header. -/
structure Tile where
  /-- The size in bytes, header included. -/
  size : ℕ
  /-- Whether the block is free. -/
  isFree : Bool
  /-- No block is smaller than its header. -/
  min_le : sizeofMemStruct ≤ size

/-- The `free` word of a block. -/
def Tile.flag (t : Tile) : UInt32 := if t.isFree then 1 else 0

theorem Tile.twelve_le (t : Tile) : 12 ≤ t.size := t.min_le

theorem Tile.flag_of_free {t : Tile} (h : t.isFree = true) : t.flag = 1 := if_pos h

theorem Tile.flag_of_inUse {t : Tile} (h : t.isFree = false) : t.flag = 0 :=
  if_neg (by rw [h]; exact Bool.false_ne_true)

theorem Tile.flag_ne_zero_iff {t : Tile} : t.flag ≠ 0 ↔ t.isFree = true := by
  cases h : t.isFree
  · exact iff_of_false (fun hne => hne (Tile.flag_of_inUse h)) Bool.false_ne_true
  · exact iff_of_true (by rw [Tile.flag_of_free h]; decide) rfl

/-- The bytes that a list of tiles covers. -/
def total (ts : List Tile) : ℕ := (ts.map Tile.size).sum

@[simp] theorem total_nil : total [] = 0 := rfl

@[simp] theorem total_cons (t : Tile) (ts : List Tile) : total (t :: ts) = t.size + total ts := by
  simp [total]

@[simp] theorem total_append (xs ys : List Tile) : total (xs ++ ys) = total xs + total ys := by
  simp [total]

/-- The address of the last of the tiles from `a` on, or `p` if there is none. -/
def lastAddr : ℕ → ℕ → List Tile → ℕ
  | _, p, [] => p
  | a, _, t :: ts => lastAddr (a + t.size) a ts

theorem lastAddr_concat (a p : ℕ) (xs : List Tile) (t : Tile) :
    lastAddr a p (xs ++ [t]) = a + total xs := by
  induction xs generalizing a p with
  | nil => rfl
  | cons x xs ih =>
    rw [List.cons_append, lastAddr, ih, total_cons, Nat.add_assoc]

/-! ### Tiles in memory -/

/-- The header at `a` is that of `t`, and the back link leads to `p`. -/
structure Header (m : Mem) (a p : ℕ) (t : Tile) : Prop where
  prev : prevOf m a = p
  size : (m (a + 4)).toNat = t.size
  free : freeOf m a = t.flag

/-- From `a` on the memory holds the headers of the tiles of the list, the first of
them after the block at `p`. -/
def Tiles (m : Mem) : ℕ → ℕ → List Tile → Prop
  | _, _, [] => True
  | a, p, t :: ts => Header m a p t ∧ Tiles m (a + t.size) a ts

/-- **A well-formed heap**: the tiles of the list cover the arena. -/
structure Tiled (m : Mem) (ts : List Tile) : Prop where
  tiles : Tiles m memory 0 ts
  total_eq : total ts = memSize

variable {m m' : Mem} {a p : ℕ} {t : Tile} {xs ys ts : List Tile}

theorem tiles_append : Tiles m a p (xs ++ ys) ↔
    Tiles m a p xs ∧ Tiles m (a + total xs) (lastAddr a p xs) ys := by
  induction xs generalizing a p with
  | nil => simp [Tiles, lastAddr]
  | cons x xs ih =>
    rw [List.cons_append, Tiles, Tiles, ih, lastAddr, total_cons, Nat.add_assoc, and_assoc]

theorem Header.congr (h : Header m a p t) (h0 : m' a = m a) (h4 : m' (a + 4) = m (a + 4))
    (h8 : m' (a + 8) = m (a + 8)) : Header m' a p t where
  prev := by rw [prevOf, h0]; exact h.prev
  size := by rw [h4]; exact h.size
  free := by rw [freeOf, h8]; exact h.free

/-- Tiles depend on the words they cover only. -/
theorem Tiles.congr (h : Tiles m a p ts) (hm : ∀ x, a ≤ x → x < a + total ts → m' x = m x) :
    Tiles m' a p ts := by
  induction ts generalizing a p with
  | nil => trivial
  | cons t ts ih =>
    have ht := t.twelve_le
    rw [total_cons] at hm
    refine ⟨h.1.congr (hm _ ?_ ?_) (hm _ ?_ ?_) (hm _ ?_ ?_),
      ih h.2 fun x h1 h2 => hm x ?_ ?_⟩ <;> omega

/-- The back link of the first tile is the only one that leads out. -/
theorem Tiles.relink {q : ℕ} (h : Tiles m a p ts) (hm : ∀ x, a < x → x < a + total ts → m' x = m x)
    (hq : ts ≠ [] → prevOf m' a = q) : Tiles m' a q ts := by
  cases ts with
  | nil => trivial
  | cons t ts =>
    have ht := t.twelve_le
    rw [total_cons] at hm
    refine ⟨⟨hq (List.cons_ne_nil _ _), ?_, ?_⟩, h.2.congr fun x h1 h2 => hm x ?_ ?_⟩
    · rw [hm _ (by omega) (by omega)]
      exact h.1.size
    · rw [freeOf, hm _ (by omega) (by omega)]
      exact h.1.free
    · omega
    · omega

theorem Header.getNext_eq (h : Header m a p t) (he : a + t.size ≤ memEnd) :
    getNext m a = if a + t.size = memEnd then 0 else a + t.size := getNext_of_toNat h.size he

/-- Where tiles that end with the arena go on behind the first one. -/
theorem Tiles.getNext_eq (h : Tiles m a p (t :: ts)) (he : a + total (t :: ts) = memEnd) :
    getNext m a = if ts = [] then 0 else a + t.size := by
  rw [total_cons] at he
  rw [h.1.getNext_eq (by omega)]
  cases ts with
  | nil => rw [if_pos (by simpa using he), if_pos rfl]
  | cons s ss =>
    have := s.twelve_le
    rw [total_cons] at he
    rw [if_neg (by omega), if_neg (List.cons_ne_nil _ _)]

/-! ### Where a tile lies -/

/-- The tiles laid out from `base`, one by one. -/
def TileIn : ℕ → List Tile → ℕ → Tile → Prop
  | _, [], _, _ => False
  | base, x :: xs, a, t => a = base ∧ t = x ∨ TileIn (base + x.size) xs a t

/-- The heap has the block `t` at the address `a`. -/
abbrev TileAt (ts : List Tile) (a : ℕ) (t : Tile) : Prop := TileIn memory ts a t

variable {base : ℕ}

theorem tileIn_append : TileIn base (xs ++ ys) a t ↔
    TileIn base xs a t ∨ TileIn (base + total xs) ys a t := by
  induction xs generalizing base with
  | nil => simp [TileIn]
  | cons x xs ih =>
    rw [List.cons_append, TileIn, TileIn, ih, or_assoc, total_cons, Nat.add_assoc]

theorem TileIn.range (h : TileIn base ts a t) : base ≤ a ∧ a + t.size ≤ base + total ts := by
  induction ts generalizing base with
  | nil => exact h.elim
  | cons x xs ih =>
    rw [total_cons]
    rcases h with ⟨rfl, rfl⟩ | h
    · omega
    · have := ih h
      omega

theorem TileIn.mem (h : TileIn base ts a t) : t ∈ ts := by
  induction ts generalizing base with
  | nil => exact h.elim
  | cons x xs ih =>
    rcases h with ⟨-, rfl⟩ | h
    · exact List.mem_cons_self
    · exact List.mem_cons_of_mem _ (ih h)

/-- The tiles before one and behind it. -/
theorem TileIn.split (h : TileIn base ts a t) :
    ∃ pre post, ts = pre ++ t :: post ∧ a = base + total pre := by
  induction ts generalizing base with
  | nil => exact h.elim
  | cons x xs ih =>
    rcases h with ⟨rfl, rfl⟩ | h
    · exact ⟨[], xs, rfl, rfl⟩
    · obtain ⟨pre, post, rfl, rfl⟩ := ih h
      exact ⟨x :: pre, post, rfl, by rw [total_cons, Nat.add_assoc]⟩

theorem tileIn_mid (pre post : List Tile) (t : Tile) :
    TileIn base (pre ++ t :: post) (base + total pre) t :=
  tileIn_append.mpr (.inr (.inl ⟨rfl, rfl⟩))

/-! ### A stretch of tiles becomes one -/

/-- The memory `m'` differs from `m` by a free block of `n` bytes at `S`, and by nothing
outside it except the back link of the next block. -/
structure Replaced (m m' : Mem) (S n : ℕ) : Prop where
  out : ∀ y, y ≤ S ∨ S + n < y → m' y = m y
  size : (m' (S + 4)).toNat = n
  free : m' (S + 8) = 1
  link : S + n ≠ memEnd → prevOf m' (S + n) = S

variable {pre mid post : List Tile} {S n : ℕ} {J : Tile}

theorem Merged.replaced (h : Merged Eq m m' S n) (hn : 12 ≤ n) : Replaced m m' S n where
  out y hy := h.out y (by omega) (by omega) (by omega)
  size := h.size
  free := h.free
  link := h.link

/-- A block that is marked free and then swallowed is not seen any more. -/
theorem Replaced.of_setFree (h : Replaced (setFree m a 1) m' S n) (hlo : S < a + 8)
    (hhi : a + 8 ≤ S + n) : Replaced m m' S n :=
  { h with out := fun y hy => (h.out y hy).trans (put_ne (by omega)) }

/-- **The heap stays well-formed** when a stretch of its tiles is replaced by one. -/
theorem Replaced.tiles (h : Replaced m m' S J.size)
    (hl : Tiles m memory 0 (pre ++ mid ++ post)) (hS : S = memory + total pre) (hmid : mid ≠ [])
    (hJ : total mid = J.size) (hfree : J.isFree = true)
    (hend : S + J.size + total post = memEnd) : Tiles m' memory 0 (pre ++ J :: post) := by
  obtain ⟨hpm, hpost⟩ := tiles_append.mp hl
  obtain ⟨hpre, hm⟩ := tiles_append.mp hpm
  rw [total_append, hJ, ← Nat.add_assoc, ← hS] at hpost
  refine tiles_append.mpr ⟨hpre.congr fun x _ hx => h.out x (.inl (by omega)),
    ⟨?_, hS ▸ h.size, ?_⟩, ?_⟩
  · rw [← hS, prevOf, h.out S (.inl le_rfl)]
    cases mid with
    | nil => exact absurd rfl hmid
    | cons x xs => exact hS ▸ hm.1.prev
  · rw [← hS, freeOf, h.free, Tile.flag_of_free hfree]
  · rw [← hS]
    refine hpost.relink (fun x h1 _ => h.out x (.inr h1)) fun hne => ?_
    cases post with
    | nil => exact absurd rfl hne
    | cons x xs =>
      have := x.twelve_le
      rw [total_cons] at hend
      exact h.link (by omega)

end Thunix.Mm
