import Thunix.Mm.Search

/-!
# What an allocation does to the blocks

`Thunix.Mm.Layout.replace` settles a local change once: a stretch of blocks is
replaced by another of the same length, and nothing outside of it is written but
the back link of the block after it. `Thunix.Mm.carve_layout` is the change that
`malloc` makes. The block it has settled on is handed out whole, or split when
the remainder is larger than a header.

A remainder of 4 bytes is where the word-level model matters. Its size has been
written by the time `malloc` finds it too small, and its size field is the `prev`
field of the following block. The hypothesis `hover` is the price: that link now
reads 4.
-/

namespace Thunix.Mm

variable {R : ℕ → ℕ → Prop} {m m' : Mem}

/-- **A local change of the list of blocks.** -/
theorem Layout.replace {pre mid mid' post : List Blk} {A : ℕ}
    (h : Layout R m (pre ++ mid ++ post)) (hA : A = memory + span pre)
    (hm : ∀ x, x < A ∨ A + span mid < x → m' x = m x) (hs : span mid' = span mid)
    (hmid : Seg R m' A (lastFrom memory 0 pre) mid')
    (hpost : post ≠ [] → R (prevOf m' (A + span mid)) (lastFrom A (lastFrom memory 0 pre) mid')) :
    Layout R m' (pre ++ mid' ++ post) := by
  have hseg := h.seg
  rw [seg_append, seg_append] at hseg
  obtain ⟨⟨hpre, -⟩, hpo⟩ := hseg
  have hlast : ∀ (xs ys : List Blk) (a p : ℕ),
      lastFrom a p (xs ++ ys) = lastFrom (a + span xs) (lastFrom a p xs) ys := by
    intro xs ys
    induction xs with
    | nil => simp
    | cons x xs ih => intro a p; simp [ih, Nat.add_assoc]
  refine ⟨?_, ?_⟩
  · rw [seg_append, seg_append]
    refine ⟨⟨hpre.congr fun x _ h2 => hm x (Or.inl (by omega)), hA ▸ hmid⟩, ?_⟩
    rw [hlast, span_append, hs, ← Nat.add_assoc, ← hA]
    rw [span_append, ← Nat.add_assoc, ← hA] at hpo
    cases post with
    | nil => trivial
    | cons c cs => exact hpo.relink (fun x h1 h2 => hm x (Or.inr h1)) (hpost (by simp))
  · have := h.span_eq
    simp only [span_append] at this ⊢
    omega

/-- The back link of the block after a stretch, as the segment has it. -/
theorem Layout.post_prev {pre mid post : List Blk} {A : ℕ}
    (h : Layout R m (pre ++ mid ++ post)) (hA : A = memory + span pre) (hne : post ≠ []) :
    R (prevOf m (A + span mid)) (lastFrom memory 0 (pre ++ mid)) := by
  have hseg := (seg_append.mp h.seg).2
  cases post with
  | nil => exact absurd rfl hne
  | cons c cs =>
    rw [span_append, ← Nat.add_assoc, ← hA] at hseg
    exact hseg.1.prev

/-- What a block becomes when `need` bytes of it are handed out. -/
inductive Carved (b : Blk) (need : ℕ) : List Blk → Prop
  /-- The block is handed out whole. -/
  | whole : b.size ≤ need + sizeofMemStruct → Carved b need [b.mark true]
  /-- The block is split, and its end stays free. -/
  | split (u v : Blk) : u.inUse = true → u.size = need → v.inUse = false →
      need + v.size = b.size → Carved b need [u, v]

theorem Carved.span_eq {b : Blk} {need : ℕ} {new : List Blk} (h : Carved b need new) :
    span new = b.size := by
  cases h with
  | whole => simp
  | split u v _ hu _ hv => simp only [span_cons, span_nil]; omega

/-- Where `next_start` is put when `need` bytes of the block `b` at `A` have been handed
out: at the remainder, or else behind the block. -/
def afterCarve (b : Blk) (A need : ℕ) : ℕ :=
  if need + sizeofMemStruct < b.size then A + need
  else if A + b.size = memEnd then 0 else A + b.size

theorem afterCarve_whole {b : Blk} {A need : ℕ} (h : b.size ≤ need + sizeofMemStruct) :
    afterCarve b A need = if A + b.size = memEnd then 0 else A + b.size := if_neg (not_lt.mpr h)

/-- The last block handed out whole leaves `NULL`. -/
theorem Carved.last {b : Blk} {need A : ℕ} {pre : List Blk} (h : Carved b need [b.mark true])
    (hs : span (pre ++ [b.mark true]) = memSize) (hA : A = memory + span pre) :
    afterCarve b A need = 0 := by
  have hend : memEnd = memory + memSize := rfl
  simp only [span_append, h.span_eq] at hs
  cases h with
  | whole hle => rw [afterCarve_whole hle, if_pos (by omega)]

/-- Otherwise it is a block header again. -/
theorem Carved.header {b : Blk} {need A : ℕ} {pre new post : List Blk} (h : Carved b need new)
    (hs : span (pre ++ new ++ post) = memSize) (hA : A = memory + span pre) :
    afterCarve b A need = 0 ∨ ∃ c, BlockAt (pre ++ new ++ post) (afterCarve b A need) c := by
  have hend : memEnd = memory + memSize := rfl
  simp only [span_append, h.span_eq] at hs
  cases h with
  | whole hle =>
    rw [afterCarve_whole hle]
    cases post with
    | nil =>
      rw [span_nil] at hs
      exact Or.inl (if_pos (by omega))
    | cons c cs =>
      have := c.min_le
      rw [span_cons] at hs
      rw [if_neg (by omega)]
      exact Or.inr ⟨c, pre ++ [b.mark true], cs, by simp, by simp [hA, Nat.add_assoc]⟩
  | split u v _ hu _ hv =>
    have hv16 := v.min_le
    rw [afterCarve, if_pos (by rw [sizeofMemStruct]; omega)]
    exact Or.inr ⟨v, pre ++ [u], post, by simp, by simp [hA, hu, Nat.add_assoc]⟩

/-! ### Carving -/

section Carving

variable {h : Heap} {pre post : List Blk} {b : Blk} {need A : ℕ}

/-- The back link of the block behind one. -/
theorem Layout.prev_next (hl : Layout R m (pre ++ [b] ++ post)) (hA : A = memory + span pre)
    (hne : post ≠ []) : R (prevOf m (A + b.size)) A := by
  have hlink := hl.post_prev hA hne
  rwa [lastFrom_concat, ← hA, span_cons, span_nil, Nat.add_zero] at hlink

theorem Layout.header (hl : Layout R m (pre ++ [b] ++ post)) (hA : A = memory + span pre) :
    Hdr R m A (lastFrom memory 0 pre) b := by
  have hseg := (seg_append.mp (seg_append.mp hl.seg).1).2
  rw [← hA] at hseg
  exact hseg.1

/-- A block handed out whole, in a memory that differs inside of it at most. -/
theorem Layout.handOut (hl : Layout R m (pre ++ [b] ++ post)) (hA : A = memory + span pre)
    (hout : ∀ x, x < A ∨ A + b.size < x → m' x = m x) (hprev : m' A = m A)
    (hsize : (m' (A + 4)).toNat = b.size) (hfree : m' (A + 8) = 0)
    (hpost : post ≠ [] → R (prevOf m' (A + b.size)) A) :
    Layout R m' (pre ++ [b.mark true] ++ post) := by
  refine hl.replace hA (by simpa using hout) (by simp) ⟨⟨?_, hsize, ?_⟩, trivial⟩ ?_
  · rw [prevOf, hprev]
    exact (hl.header hA).prev
  · rw [freeOf, hfree, Blk.flag_of_inUse rfl]
  · simpa using hpost

/-- A block that has become two. -/
theorem Layout.split {u v : Blk} (hl : Layout R m (pre ++ [b] ++ post))
    (hA : A = memory + span pre) (huv : u.size + v.size = b.size)
    (hout : ∀ x, x < A ∨ A + b.size < x → m' x = m x) (hprev : m' A = m A)
    (hsize : (m' (A + 4)).toNat = u.size) (hfree : freeOf m' A = u.flag)
    (hv : Hdr R m' (A + u.size) A v)
    (hpost : post ≠ [] → R (prevOf m' (A + b.size)) (A + u.size)) :
    Layout R m' (pre ++ [u, v] ++ post) := by
  refine hl.replace hA (by simpa using hout) (by simpa using huv)
    ⟨⟨?_, hsize, hfree⟩, hv, trivial⟩ (by simpa using hpost)
  rw [prevOf, hprev]
  exact (hl.header hA).prev

/-- An exact fit. -/
theorem carve_exact (hl : Layout R h.mem (pre ++ [b] ++ post)) (hA : A = memory + span pre)
    (hex : b.size = need) :
    Layout R (carve h A need).mem (pre ++ [b.mark true] ++ post) ∧
      (carve h A need).nextStart = afterCarve b A need := by
  have hsz : memSize = 0x100000 := rfl
  have hmem : memory = 0x800000 := rfl
  have hend : memEnd = memory + memSize := rfl
  have hb16 := b.min_le
  have hspan := hl.span_eq
  simp only [span_append, span_cons, span_nil] at hspan
  have hhdr := hl.header hA
  have hsize : (setFree h.mem A 0 (A + 4)).toNat = b.size := by
    rw [setFree, put_ne (by omega)]
    exact hhdr.size
  rw [carve, hhdr.sizeOf_eq (by omega), if_pos (by exact_mod_cast hex)]
  dsimp only
  refine ⟨hl.handOut hA (fun x hx => put_ne (by omega)) (put_ne (by omega)) hsize (put_self ..)
    fun hne => ?_, ?_⟩
  · rw [prevOf, setFree, put_ne (by omega)]
    exact hl.prev_next hA hne
  · rw [getNext_of_toNat hsize (by omega), afterCarve_whole (by omega)]

/-- The block that follows the part that is handed out. -/
theorem getNext_part (m : Mem) (hneed : A + need < memEnd) :
    getNext (setSize (setFree m A 0) A need) A = A + need := by
  have hend : memEnd = 0x900000 := rfl
  have hsize : (setSize (setFree m A 0) A need (A + 4)).toNat = need := by
    rw [setSize, put_self, toNat_ofInt_natCast (by omega)]
  rw [getNext_of_toNat hsize (by omega), if_neg (by omega)]

/-- The size of the remainder, as it is read back. -/
theorem sizeOf_remainder (m : Mem) (hlt : need < b.size) (hb : b.size < 2 ^ 31) :
    sizeOf (setSize (setSize (setFree m A 0) A need) (A + need) (b.size - need)) (A + need) =
      b.size - need := by
  rw [sizeOf, setSize, put_self, toInt_ofInt (by omega) (by omega)]

/-- A remainder that is too small is given back. When it has 4 bytes its size has overlaid the
back link of the next block. -/
theorem carve_whole (hl : Layout R h.mem (pre ++ [b] ++ post)) (hA : A = memory + span pre)
    (h16 : 16 ≤ need) (h4 : need % 4 = 0) (hlt : need < b.size) (hsmall : b.size ≤ need + 12)
    (hover : b.size = need + 4 → post ≠ [] → R 4 A) :
    Layout R (carve h A need).mem (pre ++ [b.mark true] ++ post) ∧
      (carve h A need).nextStart = afterCarve b A need := by
  have hsz : memSize = 0x100000 := rfl
  have hmem : memory = 0x800000 := rfl
  have hend : memEnd = memory + memSize := rfl
  have h12 : sizeofMemStruct = 12 := rfl
  have hb4 := b.four_dvd
  have hspan := hl.span_eq
  simp only [span_append, span_cons, span_nil] at hspan
  obtain ⟨m', hm'⟩ : ∃ m', m' = setSize (setSize (setSize (setFree h.mem A 0) A need) (A + need)
    (b.size - need)) A b.size := ⟨_, rfl⟩
  have hsize : (m' (A + 4)).toNat = b.size := by
    rw [hm', setSize, put_self, toNat_ofInt_natCast (by omega)]
  have hcarve : carve h A need = ⟨m', getNext m' A⟩ := by
    rw [carve, (hl.header hA).sizeOf_eq (by omega), if_neg (by omega), hm']
    simp only [getNext_part h.mem (show A + need < memEnd by omega),
      sizeOf_remainder h.mem hlt (by omega)]
    rw [if_neg (by omega), if_pos (by omega)]
  rw [hcarve]
  dsimp only
  refine ⟨hl.handOut hA (fun x hx => ?_) ?_ hsize ?_ fun hne => ?_, ?_⟩
  · rw [hm']
    simp (disch := omega) only [setSize, setFree, put_ne]
  · rw [hm']
    simp (disch := omega) only [setSize, setFree, put_ne]
  · rw [hm']
    simp (disch := omega) only [setSize, setFree, put_ne, put_self]
  · rw [prevOf, hm']
    by_cases h4r : b.size = need + 4
    · have hval : ((b.size : ℤ) - need) = ((4 : ℕ) : ℤ) := by omega
      rw [setSize, put_ne (by omega), setSize, h4r,
        show A + (need + 4) = A + need + 4 by omega, put_self, ← h4r, hval,
        toNat_ofInt_natCast (by omega)]
      exact hover h4r hne
    · simp (disch := omega) only [setSize, setFree, put_ne]
      exact hl.prev_next hA hne
  · rw [getNext_of_toNat hsize (by omega), afterCarve_whole (by omega)]

/-- The memory in which a block has been split, before the back link of the next one. -/
def splitMem (m : Mem) (A need size : ℕ) : Mem :=
  setFree (setPrev (setSize (setSize (setFree m A 0) A need) (A + need) ((size : ℤ) - need))
    (A + need) A) (A + need) 1

/-- A remainder that is larger than a header stays free. -/
theorem carve_split {u v : Blk} (hR : ∀ p, R p p) (hl : Layout R h.mem (pre ++ [b] ++ post))
    (hA : A = memory + span pre) (hu : u.inUse = true) (hsu : u.size = need)
    (hv : v.inUse = false) (hsv : need + v.size = b.size) :
    Layout R (carve h A need).mem (pre ++ [u, v] ++ post) ∧
      (carve h A need).nextStart = afterCarve b A need := by
  have hsz : memSize = 0x100000 := rfl
  have hmem : memory = 0x800000 := rfl
  have hend : memEnd = memory + memSize := rfl
  have h12 : sizeofMemStruct = 12 := rfl
  have hu16 := u.min_le
  have hv16 := v.min_le
  have hspan := hl.span_eq
  simp only [span_append, span_cons, span_nil] at hspan
  have hrest : ((b.size : ℤ) - need) = (v.size : ℤ) := by omega
  obtain ⟨n, hn⟩ : ∃ n, n = splitMem h.mem A need b.size := ⟨_, rfl⟩
  have hvsize : (n (A + need + 4)).toNat = v.size := by
    rw [hn, splitMem]
    simp (disch := omega) only [setPrev, setSize, setFree, put_ne, put_self]
    rw [hrest, toNat_ofInt_natCast (by omega)]
  have hgn : getNext n (A + need) = if A + b.size = memEnd then 0 else A + b.size := by
    rw [getNext_of_toNat hvsize (by omega), show A + need + v.size = A + b.size by omega]
  obtain ⟨m', hm'⟩ : ∃ m', m' = linkPrev n (getNext n (A + need)) (A + need) := ⟨_, rfl⟩
  have hcarve : carve h A need = ⟨m', A + need⟩ := by
    rw [carve, (hl.header hA).sizeOf_eq (by omega), if_neg (by omega), hm', hn, splitMem]
    simp only [getNext_part h.mem (show A + need < memEnd by omega),
      sizeOf_remainder h.mem (show need < b.size by omega) (by omega)]
    rw [if_neg (by omega), if_neg (by omega)]
  have hout : ∀ x, x ≠ A + b.size → m' x = n x := by
    intro x hx
    rw [hm', hgn]
    by_cases he : A + b.size = memEnd
    · rw [if_pos he, linkPrev, if_neg (by simp)]
    · rw [if_neg he, linkPrev_ne hx]
  have hafter : A + need = afterCarve b A need := by
    rw [afterCarve, if_pos (by omega)]
  rw [hcarve]
  dsimp only
  refine ⟨hl.split hA (by omega) (fun x hx => ?_) ?_ ?_ ?_ ⟨?_, ?_, ?_⟩ fun hne => ?_, hafter⟩
  · rcases eq_or_ne x (A + b.size) with rfl | hx'
    · omega
    rw [hout x hx', hn, splitMem]
    simp (disch := omega) only [setPrev, setSize, setFree, put_ne]
  · rw [hout A (by omega), hn, splitMem]
    simp (disch := omega) only [setPrev, setSize, setFree, put_ne]
  · rw [hout _ (by omega), hn, splitMem, hsu]
    simp (disch := omega) only [setPrev, setSize, setFree, put_ne, put_self]
    exact toNat_ofInt_natCast (by omega)
  · rw [freeOf, hout _ (by omega), hn, splitMem, Blk.flag_of_inUse hu]
    simp (disch := omega) only [setPrev, setSize, setFree, put_ne, put_self]
  · rw [prevOf, hsu, hout _ (by omega), hn, splitMem]
    simp (disch := omega) only [setPrev, setSize, setFree, put_ne, put_self]
    rw [toNat_ofNat_of_lt (by omega)]
    exact hR A
  · rw [hsu, hout _ (by omega)]
    exact hvsize
  · rw [freeOf, hsu, hout _ (by omega), hn, splitMem, Blk.flag_of_not_inUse hv, setFree, put_self]
  · have hpos : 0 < span post := by
      cases post with
      | nil => exact absurd rfl hne
      | cons c cs => have := c.min_le; rw [span_cons]; omega
    rw [hsu, prevOf, hm', hgn, if_neg (by omega), linkPrev_self (by omega),
      toNat_ofNat_of_lt (by omega)]
    exact hR _

/-- **The change an allocation makes**: the block settled on is carved. -/
theorem carve_layout (hR : ∀ p, R p p) (hl : Layout R h.mem (pre ++ [b] ++ post))
    (hA : A = memory + span pre) (h16 : 16 ≤ need) (h4 : need % 4 = 0) (hle : need ≤ b.size)
    (hover : b.size = need + 4 → post ≠ [] → R 4 A) :
    ∃ new, Carved b need new ∧ Layout R (carve h A need).mem (pre ++ new ++ post) ∧
      (carve h A need).nextStart = afterCarve b A need := by
  have h12 : sizeofMemStruct = 12 := rfl
  have hb4 := b.four_dvd
  rcases Nat.eq_or_lt_of_le hle with hex | hlt
  · exact ⟨_, .whole (by omega), carve_exact hl hA hex.symm⟩
  by_cases hsmall : b.size ≤ need + 12
  · exact ⟨_, .whole (by omega), carve_whole hl hA h16 h4 hlt hsmall hover⟩
  · -- the block is split
    let u : Blk := ⟨need, true, h16, h4⟩
    let v : Blk := ⟨b.size - need, false, by omega, by omega⟩
    have hsv : need + v.size = b.size := Nat.add_sub_cancel' hle
    exact ⟨[u, v], .split u v rfl rfl rfl hsv, carve_split hR hl hA rfl rfl rfl hsv⟩

end Carving

end Thunix.Mm
