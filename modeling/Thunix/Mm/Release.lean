import Thunix.Mm.Alloc

/-!
# What a release does to the blocks

Every branch of `free` turns a stretch of neighbouring blocks into one free
block: the freed block alone, with the free block after it, with the free block
before it, or with both (`Thunix.Mm.Freed`). The stretches differ, the effect on
the memory does not, and `Thunix.Mm.Merged` states it once: a size, a free flag
and the back link of the following block.

The delicate part is `next_start`. In the branches that merge to the front the
header of the freed block is left inside the block before it, and `next_start` may
be moved there. With one free neighbour this is a stale header the search can hop
over. With two, the second hop lands on the stale header of the following block,
whose `free` word is 1; `hboth` keeps clear of that.
-/

namespace Thunix.Mm

variable {R : ℕ → ℕ → Prop} {m m' : Mem}

/-! ### Blocks of a list and of its parts -/

theorem BlockAt.append_right {xs : List Blk} {a : ℕ} {b : Blk} (h : BlockAt xs a b)
    (ys : List Blk) : BlockAt (xs ++ ys) a b := by
  obtain ⟨pre, post, rfl, rfl⟩ := h
  exact ⟨pre, post ++ ys, by simp, rfl⟩

theorem BlockAt.end_le {xs : List Blk} {a : ℕ} {b : Blk} (h : BlockAt xs a b) :
    a + b.size ≤ memory + span xs := by
  obtain ⟨pre, post, rfl, rfl⟩ := h
  simp only [span_append, span_cons]
  omega

/-- A block that starts below a cut of the list lies in the part before it. -/
theorem BlockAt.of_lt {xs ys : List Blk} {a : ℕ} {b : Blk} (h : BlockAt (xs ++ ys) a b)
    (hlt : a < memory + span xs) : BlockAt xs a b := by
  obtain ⟨pre, post, heq, rfl⟩ := h
  rcases List.append_eq_append_iff.mp heq with ⟨t, rfl, -⟩ | ⟨t, rfl, ht⟩
  · simp only [span_append] at hlt
    omega
  · cases t with
    | nil => simp at hlt
    | cons c t =>
      obtain ⟨rfl, -⟩ : b = c ∧ _ := by simpa using ht
      exact ⟨pre, t, rfl, rfl⟩

/-- The block at the start of the second part. -/
theorem blockAt_mid (pre post : List Blk) (b : Blk) :
    BlockAt (pre ++ [b] ++ post) (memory + span pre) b := ⟨pre, post, by simp, rfl⟩

/-! ### One stretch becomes one free block -/

/-- The memory `m'` differs from `m` by a free block of `n` bytes at `S`, which
ends at `E`. -/
structure Merged (R : ℕ → ℕ → Prop) (m m' : Mem) (S n : ℕ) : Prop where
  /-- Nothing else is written. -/
  out : ∀ y, y ≠ S + 4 → y ≠ S + 8 → y ≠ S + n → m' y = m y
  /-- The size. -/
  size : (m' (S + 4)).toNat = n
  /-- The free flag. -/
  free : m' (S + 8) = 1
  /-- The back link of the block after it. -/
  link : S + n ≠ memEnd → R (prevOf m' (S + n)) S

variable {pre mid post : List Blk} {S : ℕ} {J : Blk}

/-- **A merge keeps the layout.** -/
theorem Merged.layout (h : Merged R m m' S J.size) (hl : Layout R m (pre ++ mid ++ post))
    (hS : S = memory + span pre) (hJ : span mid = J.size) (hfree : J.inUse = false) :
    Layout R m' (pre ++ [J] ++ post) := by
  have hend : memEnd = memory + memSize := rfl
  have hJ16 := J.min_le
  have hspan := hl.span_eq
  simp only [span_append] at hspan
  have hprev : R (prevOf m S) (lastFrom memory 0 pre) := by
    have hseg := (seg_append.mp (seg_append.mp hl.seg).1).2
    rw [← hS] at hseg
    cases mid with
    | nil => simp at hJ; omega
    | cons c cs => exact hseg.1.prev
  refine hl.replace hS (fun x hx => h.out x ?_ ?_ ?_) (by simpa using hJ.symm)
    ⟨⟨?_, h.size, ?_⟩, trivial⟩ fun hne => ?_
  · omega
  · omega
  · omega
  · rw [prevOf, h.out _ (by omega) (by omega) (by omega)]
    exact hprev
  · rw [freeOf, h.free, Blk.flag_of_not_inUse hfree]
  · have hpos : 0 < span post := by
      cases post with
      | nil => exact absurd rfl hne
      | cons c cs => have := c.min_le; rw [span_cons]; omega
    simpa [hJ] using h.link (by omega)

/-- A place for `next_start` up to the stretch stays one. -/
theorem Merged.nextOk (h : Merged R m m' S J.size) {x : ℕ}
    (hS : S = memory + span pre) (hx : NextOk m (pre ++ mid ++ post) x) (hle : x ≤ S) :
    NextOk m' (pre ++ [J] ++ post) x := by
  rw [List.append_assoc] at hx
  rcases hx with rfl | ⟨b, hb⟩ | ⟨a, b, hb, hfree, hlo, hhi, hpath⟩
  · exact Or.inl rfl
  · rcases Nat.lt_or_ge x S with hlt | hge
    · have := (hb.of_lt (by omega)).append_right ([J] ++ post)
      exact Or.inr (Or.inl ⟨b, by rwa [List.append_assoc]⟩)
    · obtain rfl : x = S := by omega
      exact Or.inr (Or.inl ⟨J, hS ▸ blockAt_mid pre post J⟩)
  · have hbpre := hb.of_lt (by omega)
    have hend := hbpre.end_le
    have hbnew := hbpre.append_right ([J] ++ post)
    rw [← List.append_assoc] at hbnew
    exact Or.inr (Or.inr ⟨a, b, hbnew, hfree, hlo, hhi,
      hpath.congr fun y h1 h2 => h.out y (by omega) (by omega) (by have := J.min_le; omega)⟩)

/-- The start of the stretch is a place for `next_start`. -/
theorem nextOk_start (hS : S = memory + span pre) : NextOk m' (pre ++ [J] ++ post) S :=
  Or.inr (Or.inl ⟨J, hS ▸ blockAt_mid pre post J⟩)

/-- So is a stale header inside the merged block. -/
theorem nextOk_stale {x : ℕ} (hS : S = memory + span pre) (hfree : J.inUse = false)
    (hlo : S + 16 ≤ x) (hhi : x < S + J.size) (hpath : StalePath m' x (S + J.size)) :
    NextOk m' (pre ++ [J] ++ post) x :=
  Or.inr (Or.inr ⟨S, J, hS ▸ blockAt_mid pre post J, hfree, hlo, hhi, hpath⟩)

/-! ### The branches of a release -/

/-- The lists a release of `b` may lead to. -/
inductive Freed (b : Blk) : List Blk → List Blk → List Blk → Prop
  /-- The block becomes free. -/
  | alone (pre post : List Blk) : Freed b pre post (pre ++ [b.mark false] ++ post)
  /-- It swallows the free block after it. -/
  | back (pre post : List Blk) (c : Blk) : c.inUse = false →
      Freed b pre (c :: post) (pre ++ [b.join c] ++ post)
  /-- The free block before it swallows it. -/
  | front (pre post : List Blk) (P : Blk) : P.inUse = false →
      Freed b (pre ++ [P]) post (pre ++ [P.join b] ++ post)
  /-- The free block before it swallows it and the free block after it. -/
  | both (pre post : List Blk) (P c : Blk) : P.inUse = false → c.inUse = false →
      Freed b (pre ++ [P]) (c :: post) (pre ++ [P.join (b.join c)] ++ post)

/-- A release leaves a free block. -/
theorem Freed.exists_free {b : Blk} {pre post new : List Blk} (h : Freed b pre post new) :
    ∃ d ∈ new, d.inUse = false := by
  cases h with
  | alone => exact ⟨b.mark false, by simp, rfl⟩
  | back _ _ c => exact ⟨b.join c, by simp, rfl⟩
  | front _ _ P => exact ⟨P.join b, by simp, rfl⟩
  | both _ _ P c => exact ⟨P.join (b.join c), by simp, rfl⟩

theorem toNat_add_of_lt {v w : UInt32} (h : v.toNat + w.toNat < 2 ^ 32) :
    (v + w).toNat = v.toNat + w.toNat := by
  rw [UInt32.toNat_add, Nat.mod_eq_of_lt h]

variable {A : ℕ} {b c P : Blk}

/-- A block that is marked free, from what the memory says of it. -/
theorem setFree_merged {n : ℕ} (hsize : (m (A + 4)).toNat = n) (hn : 12 ≤ n)
    (hlink : A + n ≠ memEnd → R (prevOf m (A + n)) A) : Merged R m (setFree m A 1) A n := by
  refine ⟨fun y _ h8 _ => put_ne h8, ?_, put_self .., fun hne => ?_⟩
  · rw [setFree, put_ne (by omega)]
    exact hsize
  · rw [prevOf, setFree, put_ne (by omega)]
    exact hlink hne

/-- The block alone. -/
theorem merged_alone (hl : Layout R m (pre ++ [b] ++ post)) (hA : A = memory + span pre) :
    Merged R m (setFree m A 1) A b.size := by
  have hend : memEnd = memory + memSize := rfl
  have hb := b.min_le
  have hhdr := (seg_append.mp (seg_append.mp hl.seg).1).2.1
  rw [← hA] at hhdr
  refine setFree_merged hhdr.size (by omega) fun hne => ?_
  have hspan := hl.span_eq
  simp only [span_append, span_cons, span_nil] at hspan
  have := hl.post_prev hA (by rintro rfl; simp at hspan; omega)
  rwa [lastFrom_concat, ← hA, span_cons, span_nil, Nat.add_zero] at this

/-- The back link of the block that ends the stretch, written by `linkPrev`. -/
theorem linkPrev_merged {n next : ℕ} (hR : ∀ p, R p p) (hn : S + n ≤ memEnd) (hpos : 0 < n)
    (hnext : next = if S + n = memEnd then 0 else S + n)
    (hout : ∀ y, y ≠ S + 4 → y ≠ S + 8 → y ≠ S + n → m' y = m y) (h8 : n ≠ 4) (h8' : n ≠ 8)
    (hsize : (m' (S + 4)).toNat = n) (hfree : m' (S + 8) = 1) :
    Merged R m (linkPrev m' next S) S n := by
  have hend : memEnd = 0x900000 := rfl
  by_cases he : S + n = memEnd
  · rw [if_pos he] at hnext
    rw [linkPrev, if_neg (by simp [hnext])]
    exact ⟨hout, hsize, hfree, fun h => absurd he h⟩
  · rw [if_neg he] at hnext
    subst hnext
    refine ⟨fun y h1 h2 h3 => ?_, ?_, ?_, fun _ => ?_⟩
    · rw [linkPrev_ne h3]
      exact hout y h1 h2 h3
    · rw [linkPrev_ne (by omega)]
      exact hsize
    · rw [linkPrev_ne (by omega)]
      exact hfree
    · rw [prevOf, linkPrev_self (by omega), toNat_ofNat_of_lt (by omega)]
      exact hR S

/-! Each merge is settled from the sizes that it reads, and then on a layout. -/

section Words

variable {i j k : ℕ}

theorem mergeBack_merged (hR : ∀ p, R p p) (hi : (m (A + 4)).toNat = i)
    (hj : (m (A + i + 4)).toNat = j) (hi12 : 12 ≤ i) (hj12 : 12 ≤ j) (hend : A + i + j ≤ memEnd) :
    Merged R m (mergeBack m A (A + i)).2 A (i + j) := by
  have hmem : memEnd = 0x900000 := rfl
  have hw : setFree m A 1 (A + i + 4) = m (A + i + 4) := put_ne (by omega)
  have hs : (setFree m A 1 (A + 4)).toNat + (m (A + i + 4)).toNat = i + j := by
    rw [setFree, put_ne (by omega), hi, hj]
  simp only [mergeBack, hw]
  refine linkPrev_merged hR (by omega) (by omega) ?_ (fun y h1 h2 _ => ?_)
    (by omega) (by omega) ?_ ?_
  · rw [getNext_of_toNat (show _ = j by rw [addSize, put_ne (by omega), hw]; exact hj) hend]
    simp only [Nat.add_assoc]
  · rw [addSize, put_ne h1, setFree, put_ne h2]
  · rw [addSize, put_self, toNat_add_of_lt (by omega), hs]
  · rw [addSize, put_ne (by omega), setFree, put_self]

theorem mergeFront_merged (hR : ∀ p, R p p) (hi : (m (S + 4)).toNat = i)
    (hj : (m (S + i + 4)).toNat = j) (hf : freeOf m S = 1) (hi12 : 12 ≤ i) (hj12 : 12 ≤ j)
    (hend : S + i + j ≤ memEnd) : Merged R m (mergeFront m (S + i) S).2 S (i + j) := by
  have hmem : memEnd = 0x900000 := rfl
  simp only [mergeFront]
  refine linkPrev_merged hR (by omega) (by omega) ?_ (fun y h1 _ _ => put_ne h1) (by omega)
    (by omega) ?_ ?_
  · rw [getNext_of_toNat hj hend]
    simp only [Nat.add_assoc]
  · rw [addSize, put_self, toNat_add_of_lt (by rw [hi, hj]; omega), hi, hj]
  · rw [addSize, put_ne (by omega)]
    exact hf

theorem mergeBoth_merged (hR : ∀ p, R p p) (hi : (m (S + 4)).toNat = i)
    (hj : (m (S + i + 4)).toNat = j) (hk : (m (S + i + j + 4)).toNat = k) (hf : freeOf m S = 1)
    (hi12 : 12 ≤ i) (hj12 : 12 ≤ j) (hk12 : 12 ≤ k) (hend : S + i + j + k ≤ memEnd) :
    Merged R m (mergeBoth m (S + i) S (S + i + j)).2 S (i + (j + k)) := by
  have hmem : memEnd = 0x900000 := rfl
  have hsum : (m (S + i + 4) + m (S + i + j + 4)).toNat = j + k := by
    rw [toNat_add_of_lt (by rw [hj, hk]; omega), hj, hk]
  simp only [mergeBoth]
  refine linkPrev_merged hR (by omega) (by omega) ?_ (fun y h1 _ _ => put_ne h1) (by omega)
    (by omega) ?_ ?_
  · rw [getNext_of_toNat (show _ = k by rw [addSize, put_ne (by omega)]; exact hk) hend]
    simp only [Nat.add_assoc]
  · rw [addSize, put_self, toNat_add_of_lt (by rw [hi, hsum]; omega), hi, hsum]
  · rw [addSize, put_ne (by omega)]
    exact hf

end Words

/-- `merge_back`: the block and the one after it. -/
theorem merged_back (hR : ∀ p, R p p) (hl : Layout R m (pre ++ [b, c] ++ post))
    (hA : A = memory + span pre) :
    Merged R m (mergeBack m A (A + b.size)).2 A (b.join c).size := by
  have hend : memEnd = memory + memSize := rfl
  have hb := b.min_le
  have hc := c.min_le
  have hspan := hl.span_eq
  simp only [span_append, span_cons, span_nil] at hspan
  obtain ⟨hhb, hhc, -⟩ := (seg_append.mp (seg_append.mp hl.seg).1).2
  rw [← hA] at hhb hhc
  exact mergeBack_merged hR hhb.size hhc.size (by omega) (by omega) (by omega)

/-- `merge_front`: the block before it and the block. -/
theorem merged_front (hR : ∀ p, R p p) (hl : Layout R m (pre ++ [P, b] ++ post))
    (hS : S = memory + span pre) (hP : P.inUse = false) :
    Merged R m (mergeFront m (S + P.size) S).2 S (P.join b).size := by
  have hend : memEnd = memory + memSize := rfl
  have hb := b.min_le
  have hP16 := P.min_le
  have hspan := hl.span_eq
  simp only [span_append, span_cons, span_nil] at hspan
  obtain ⟨hhP, hhb, -⟩ := (seg_append.mp (seg_append.mp hl.seg).1).2
  rw [← hS] at hhP hhb
  exact mergeFront_merged hR hhP.size hhb.size (hhP.free.trans (Blk.flag_of_not_inUse hP))
    (by omega) (by omega) (by omega)

/-- `merge_both`. -/
theorem merged_both (hR : ∀ p, R p p) (hl : Layout R m (pre ++ [P, b, c] ++ post))
    (hS : S = memory + span pre) (hP : P.inUse = false) :
    Merged R m (mergeBoth m (S + P.size) S (S + P.size + b.size)).2 S
      (P.join (b.join c)).size := by
  have hend : memEnd = memory + memSize := rfl
  have hb := b.min_le
  have hc := c.min_le
  have hP16 := P.min_le
  have hspan := hl.span_eq
  simp only [span_append, span_cons, span_nil] at hspan
  obtain ⟨hhP, hhb, hhc, -⟩ := (seg_append.mp (seg_append.mp hl.seg).1).2
  rw [← hS] at hhP hhb hhc
  exact mergeBoth_merged hR hhP.size hhb.size hhc.size (hhP.free.trans (Blk.flag_of_not_inUse hP))
    (by omega) (by omega) (by omega) (by omega)

/-! ### Where the next search starts -/

/-- Between the header of the block before and the header of the freed block,
`next_start` can only be the latter or a stale header that leads to it. -/
theorem stalePath_of_between {x : ℕ} (hb : b.inUse = true) (hS : S = memory + span pre)
    (hx : NextOk m (pre ++ [P, b] ++ post) x) (hlo : S < x) (hhi : x ≤ S + P.size) :
    S + 16 ≤ x ∧ StalePath m x (S + P.size) := by
  have hP := P.min_le
  have hcut : pre ++ [P, b] ++ post = (pre ++ [P]) ++ (b :: post) := by simp
  have hbat : BlockAt (pre ++ [P, b] ++ post) (S + P.size) b :=
    ⟨pre ++ [P], post, by simp, by simp [hS, Nat.add_assoc]⟩
  have hPat : BlockAt (pre ++ [P, b] ++ post) S P := ⟨pre, b :: post, by simp, hS⟩
  rcases hx with rfl | ⟨d, hd⟩ | ⟨a, d, hd, hfree, hlo', hhi', hpath⟩
  · omega
  · have hd16 := d.min_le
    rcases hd.apart hPat (by omega) with h | h
    · omega
    · obtain rfl : x = S + P.size := by omega
      exact ⟨by omega, .here _⟩
  · have hne : a ≠ S + P.size := fun he => by
      subst he
      rw [hd.unique hbat, hb] at hfree
      cases hfree
    by_cases haS : a = S
    · subst haS
      obtain rfl := hd.unique hPat
      exact ⟨hlo', hpath⟩
    · rcases hd.apart hPat haS with h | h
      · omega
      · rcases hd.apart hbat hne with h' | h'
        · omega
        · omega

/-- The end of `free`: `if (mm < next_start) next_start = mm`. -/
theorem nextOk_lower {bs : List Blk} {r x : ℕ} (hr : r < x → NextOk m bs r)
    (hx : x ≤ r → NextOk m bs x) : NextOk m bs (if r < x then r else x) := by
  by_cases h : r < x
  · rw [if_pos h]
    exact hr h
  · rw [if_neg h]
    exact hx (by omega)

/-- After a merge to the front that leaves `next_start` at the freed block or
where it was, it is a place for `next_start` still. -/
theorem Merged.nextOk_front {x n : ℕ} (h : Merged R m m' S (P.join b).size)
    (hx : NextOk m (pre ++ [P, b] ++ post) x) (hb : b.inUse = true) (hS : S = memory + span pre)
    (hl : Layout R m (pre ++ [P, b] ++ post)) (hn : n = S + P.size) :
    NextOk m' (pre ++ [P.join b] ++ post) (if n < x then n else x) := by
  have hb16 := b.min_le
  have hP16 := P.min_le
  obtain ⟨-, hhb, -⟩ := (seg_append.mp (seg_append.mp hl.seg).1).2
  rw [← hS] at hhb
  -- the header of the freed block has become a stale one
  have hstale : StalePath m' (S + P.size) (S + (P.join b).size) := by
    refine .hop (n := b.size) ?_ hb16 ?_ ?_
    · rw [h.out _ (by omega) (by omega) (by simp; omega)]
      exact hhb.size
    · rw [freeOf, h.out _ (by omega) (by omega) (by simp; omega)]
      exact hhb.free.trans (Blk.flag_of_inUse hb)
    · rw [Blk.join_size, Nat.add_assoc]
      exact .here _
  subst hn
  refine nextOk_lower (fun _ => ?_) fun hle => ?_
  · exact nextOk_stale hS rfl (by omega) (by simp; omega) hstale
  · rcases Nat.lt_or_ge S x with hlt | hge
    · obtain ⟨hlo, hpath⟩ := stalePath_of_between hb hS hx hlt hle
      refine nextOk_stale hS rfl hlo (by simp; omega) (StalePath.trans ?_ hstale)
      exact hpath.congr fun y h1 h2 => h.out y (by omega) (by omega) (by simp; omega)
    · exact h.nextOk hS hx hge

/-! ### The release -/

/-- The block that is freed may be marked first. -/
theorem Freed.of_mark {new : List Blk} (h : Freed (b.mark false) pre post new) :
    Freed b pre post new := by
  cases h with
  | alone => exact .alone _ _
  | back _ _ c hc => exact .back _ _ c hc
  | front _ _ P hP => exact .front _ _ P hP
  | both _ _ P c hP hc => exact .both _ _ P c hP hc

/-- What a release leaves that settles on the block `r.1` and the memory `r.2`: the block freed
and its free neighbours have become one free block, and the lower of `r.1` and the old
`next_start` is a place to search from. -/
def Leaves (R : ℕ → ℕ → Prop) (b : Blk) (pre post : List Blk) (x : ℕ) (r : ℕ × Mem) : Prop :=
  ∃ new, Freed b pre post new ∧ Layout R r.2 new ∧ NextOk r.2 new (if r.1 < x then r.1 else x)

/-- The block marked as free. -/
theorem merged_mark (hl : Layout R m (pre ++ [b] ++ post)) (hA : A = memory + span pre) :
    Merged R m (setFree m A 1) A (b.mark false).size := by
  rw [Blk.mark_size]
  exact merged_alone hl hA

section Branches

variable {x : ℕ}

/-- The stretch that is merged begins at the block settled on. -/
theorem Merged.leaves {r : ℕ × Mem} (h : Merged R m r.2 S J.size) (hr : r.1 = S)
    (hl : Layout R m (pre ++ mid ++ post)) (hS : S = memory + span pre) (hJ : span mid = J.size)
    (hfree : J.inUse = false) (hx : x ≤ S → NextOk m (pre ++ mid ++ post) x)
    {pre' post' : List Blk} (hf : Freed b pre' post' (pre ++ [J] ++ post)) :
    Leaves R b pre' post' x r := by
  refine ⟨_, hf, h.layout hl hS hJ hfree, ?_⟩
  rw [hr]
  exact nextOk_lower (fun _ => nextOk_start hS) fun hle => h.nextOk hS (hx hle) hle

theorem leaves_alone (hl : Layout R m (pre ++ [b] ++ post)) (hA : A = memory + span pre)
    (hx : NextOk m (pre ++ [b] ++ post) x) : Leaves R b pre post x (A, setFree m A 1) :=
  (merged_mark hl hA).leaves rfl hl hA (by simp) rfl (fun _ => hx) (.alone _ _)

theorem leaves_back (hR : ∀ p, R p p) (hl : Layout R m (pre ++ [b, c] ++ post))
    (hA : A = memory + span pre) (hc : c.inUse = false)
    (hx : x ≤ A → NextOk m (pre ++ [b, c] ++ post) x) :
    Leaves R b pre (c :: post) x (A, (mergeBack m A (A + b.size)).2) :=
  Merged.leaves (r := (A, _)) (merged_back hR hl hA) rfl hl hA (by simp) rfl hx (.back _ _ c hc)

/-- What follows the block. -/
theorem Layout.getNext_eq (hl : Layout R m (pre ++ [b] ++ post)) (hA : A = memory + span pre) :
    getNext m A = if post = [] then 0 else A + b.size := by
  have hend : memEnd = memory + memSize := rfl
  have hspan := hl.span_eq
  simp only [span_append, span_cons, span_nil] at hspan
  have hseg := (seg_append.mp (by simpa using hl.seg : Seg R m memory 0 (pre ++ b :: post))).2
  rw [← hA] at hseg
  exact hseg.getNext_eq (by rw [span_cons]; omega)

/-- The free flag of the block that follows. -/
theorem Layout.freeOf_next (hl : Layout R m (pre ++ [b] ++ c :: post))
    (hA : A = memory + span pre) : freeOf m (A + b.size) = c.flag := by
  have hhc := (seg_append.mp (by simpa using hl.seg :
    Seg R m memory 0 (pre ++ b :: c :: post))).2.2.1
  rw [← hA] at hhc
  exact hhc.free

/-- `try_merge_back`. Behind the last block it looks at the word at 8. -/
theorem leaves_tryMergeBack (hR : ∀ p, R p p) (hl : Layout R m (pre ++ [b] ++ post))
    (hA : A = memory + span pre) (h8 : post = [] → m 8 = 0)
    (hx : NextOk m (pre ++ [b] ++ post) x) : Leaves R b pre post x (tryMergeBack m A) := by
  have hb16 := b.min_le
  have hmem : memory = 0x800000 := rfl
  have halone := leaves_alone hl hA hx
  have hgn := hl.getNext_eq hA
  cases post with
  | nil =>
    rw [if_pos rfl] at hgn
    have hz : freeOf (setFree m A 1) 0 = 0 := by
      rw [freeOf, setFree, put_ne (by omega)]
      exact h8 rfl
    rw [tryMergeBack, hgn, if_neg (not_not.mpr hz)]
    exact halone
  | cons c post =>
    rw [if_neg (List.cons_ne_nil _ _)] at hgn
    have hfc : freeOf (setFree m A 1) (A + b.size) = c.flag := by
      rw [freeOf, setFree, put_ne (by omega)]
      exact hl.freeOf_next hA
    rw [tryMergeBack, hgn, hfc]
    by_cases hc : c.inUse = false
    · rw [if_pos (Blk.flag_ne_zero_iff.mpr hc)]
      -- the block is marked before the merge
      have hm := merged_mark hl hA
      have hl2 : Layout R (setFree m A 1) (pre ++ [b.mark false, c] ++ post) := by
        simpa using hm.layout hl hA (by simp) rfl
      obtain ⟨new, hf, hleaves⟩ := leaves_back hR hl2 hA hc fun hle => by
        simpa using hm.nextOk hA hx hle
      exact ⟨new, hf.of_mark, hleaves⟩
    · rw [if_neg (mt Blk.flag_ne_zero_iff.mp hc)]
      exact halone

/-- `try_merge_front` with a free block before the last one. -/
theorem leaves_tryMergeFront (hR : ∀ p, R p p) (hl : Layout R m (pre ++ [P, b] ++ []))
    (hS : S = memory + span pre) (hP : P.inUse = false) (hprev : prevOf m (S + P.size) = S)
    (hx : NextOk m (pre ++ [P, b] ++ []) x) :
    Leaves R b (pre ++ [P]) [] x (tryMergeFront m (S + P.size)) := by
  have hP16 := P.min_le
  have hA : S + P.size = memory + span (pre ++ [P]) := by simp [hS, Nat.add_assoc]
  have hl1 : Layout R m ((pre ++ [P]) ++ [b] ++ []) := by simpa using hl
  have hx1 : NextOk m ((pre ++ [P]) ++ [b] ++ []) x := by simpa using hx
  have hhP := (seg_append.mp (seg_append.mp hl.seg).1).2.1
  rw [← hS] at hhP
  have hp1 : prevOf (setFree m (S + P.size) 1) (S + P.size) = S := by
    rw [prevOf, setFree, put_ne (by omega)]
    exact hprev
  have hf1 : freeOf (setFree m (S + P.size) 1) S ≠ 0 := by
    rw [freeOf, setFree, put_ne (by omega)]
    exact fun h => Blk.flag_ne_zero_iff.mpr hP (hhP.free.symm.trans h)
  rw [tryMergeFront, hp1, if_pos hf1]
  -- the block is marked before the merge
  have hm := merged_mark hl1 hA
  have hl2 : Layout R (setFree m (S + P.size) 1) (pre ++ [P, b.mark false] ++ []) := by
    simpa using hm.layout hl1 hA (by simp) rfl
  refine (merged_front hR hl2 hS hP).leaves rfl hl2 hS (by simp) rfl (fun hle => ?_)
    (by simpa using Freed.front (b := b) pre [] P hP)
  simpa using hm.nextOk hA hx1 (by omega)

theorem leaves_front (hR : ∀ p, R p p) (hl : Layout R m (pre ++ [P, b] ++ post))
    (hS : S = memory + span pre) (hP : P.inUse = false) (hb : b.inUse = true)
    (hx : NextOk m (pre ++ [P, b] ++ post) x) :
    Leaves R b (pre ++ [P]) post x (S + P.size, (mergeFront m (S + P.size) S).2) := by
  have hm := merged_front hR hl hS hP
  exact ⟨_, .front pre post P hP, hm.layout hl hS (by simp) rfl, hm.nextOk_front hx hb hS hl rfl⟩

theorem leaves_both (hR : ∀ p, R p p) (hl : Layout R m (pre ++ [P, b, c] ++ post))
    (hS : S = memory + span pre) (hP : P.inUse = false) (hc : c.inUse = false)
    (hx : NextOk m (pre ++ [P, b, c] ++ post) x) (hle : x ≤ S) :
    Leaves R b (pre ++ [P]) (c :: post) x
      (S + P.size, (mergeBoth m (S + P.size) S (S + P.size + b.size)).2) := by
  have hm := merged_both hR hl hS hP
  refine ⟨_, .both pre post P c hP hc, hm.layout hl hS (by simp) rfl,
    nextOk_lower (fun h => ?_) fun _ => hm.nextOk hS hx hle⟩
  have hlt : S + P.size < x := h
  omega

end Branches

/-- **What `free` does to the blocks**: the block freed and its free neighbours
become one free block, and `next_start` stays a place to search from. -/
theorem free_layout {h : Heap} (hR : ∀ p, R p p) (hl : Layout R h.mem (pre ++ [b] ++ post))
    (hA : A = memory + span pre) (hb : b.inUse = true)
    (hrel : ∀ p, R (prevOf h.mem A) p → prevOf h.mem A = p ∨ prevOf h.mem A ≠ 0 ∧
      prevOf h.mem A < memory ∧ p ≠ 0 ∧ freeOf h.mem (prevOf h.mem A) = 0)
    (h8 : prevOf h.mem A = 0 → getNext h.mem A = 0 → h.mem 8 = 0)
    (hboth : prevOf h.mem A ≠ 0 → getNext h.mem A ≠ 0 → freeOf h.mem (prevOf h.mem A) ≠ 0 →
      freeOf h.mem (getNext h.mem A) ≠ 0 → h.nextStart ≤ prevOf h.mem A)
    (hx : NextOk h.mem (pre ++ [b] ++ post) h.nextStart) :
    ∃ new, Freed b pre post new ∧ Layout R (free h (A + sizeofMemStruct)).mem new ∧
      NextOk (free h (A + sizeofMemStruct)).mem new (free h (A + sizeofMemStruct)).nextStart := by
  obtain ⟨m, x⟩ := h
  simp only at hl hrel h8 hboth hx
  have hmem : memory = 0x800000 := rfl
  have hb16 := b.min_le
  have hhdr := (seg_append.mp (seg_append.mp hl.seg).1).2.1
  rw [← hA] at hhdr
  have hbusy : ¬freeOf m A = 1 := by rw [hhdr.free, Blk.flag_of_inUse hb]; decide
  have hgn := hl.getNext_eq hA
  have halone := leaves_alone hl hA hx
  simp only [free, Nat.add_sub_cancel, if_neg hbusy]
  rcases List.eq_nil_or_concat' pre with rfl | ⟨pre, P, rfl⟩
  · -- the first block
    have hp0 : prevOf m A = 0 := by
      rcases hrel _ hhdr.prev with hv | ⟨-, -, hp, -⟩
      · exact hv
      · exact absurd rfl hp
    rw [if_pos hp0]
    exact leaves_tryMergeBack hR hl hA (fun h => h8 hp0 (by rw [hgn, if_pos h])) hx
  -- there is a block before it
  obtain ⟨S, hS⟩ : ∃ S, S = memory + span pre := ⟨_, rfl⟩
  obtain ⟨v, hv⟩ : ∃ v, prevOf m A = v := ⟨_, rfl⟩
  have hP16 := P.min_le
  obtain rfl : A = S + P.size := by simp at hA; omega
  have hl1 : Layout R m (pre ++ [P, b] ++ post) := by simpa using hl
  have hx1 : NextOk m (pre ++ [P, b] ++ post) x := by simpa using hx
  have hhP := (seg_append.mp (seg_append.mp hl1.seg).1).2.1
  rw [← hS] at hhP
  have hrv : v = S ∨ v ≠ 0 ∧ v < memory ∧ freeOf m v = 0 := by
    rcases hrel _ hhdr.prev with h | ⟨h0, hlt, -, hf⟩
    · left
      rw [← hv, h, lastFrom_concat, hS]
    · exact .inr (hv ▸ ⟨h0, hlt, hf⟩)
  have hv0 : v ≠ 0 := by rcases hrv with h | h <;> omega
  rw [hv] at hboth ⊢
  rw [if_neg hv0]
  by_cases hfront : v = S ∧ P.inUse = false
  · -- and it is free
    obtain ⟨rfl, hPf⟩ := hfront
    have hfS : freeOf m v ≠ 0 := hhP.free ▸ Blk.flag_ne_zero_iff.mpr hPf
    cases post with
    | nil =>
      rw [hgn, if_pos rfl, if_pos rfl]
      exact leaves_tryMergeFront hR hl1 hS hPf hv hx1
    | cons c post =>
      rw [if_neg (List.cons_ne_nil _ _)] at hgn
      have hflag := hl.freeOf_next hA
      rw [hgn] at hboth ⊢
      rw [if_neg (by omega), hflag]
      rw [hflag] at hboth
      by_cases hc : c.inUse = false
      · have hfc := Blk.flag_ne_zero_iff.mpr hc
        have hle := hboth hv0 (by omega) hfS hfc
        rw [if_neg fun h => hfc h.2, if_neg fun h => hfS h.1, if_pos ⟨hfS, hfc⟩]
        exact leaves_both hR (by simpa using hl) hS hPf hc (by simpa using hx) hle
      · rw [if_pos ⟨hfS, Blk.flag_of_inUse (by simpa using hc)⟩]
        exact leaves_front hR hl1 hS hPf hb hx1
  · -- in use, or out of sight behind an overlaid link
    have hfv : freeOf m v = 0 := by
      rcases hrv with h | ⟨-, -, h⟩
      · rw [h, hhP.free]
        exact Blk.flag_of_inUse (by simpa [h] using hfront)
      · exact h
    cases post with
    | nil =>
      have hp1 : prevOf (setFree m (S + P.size) 1) (S + P.size) = v := by
        rw [prevOf, setFree, put_ne (by omega)]
        exact hv
      have hf1 : freeOf (setFree m (S + P.size) 1) v = 0 := by
        rw [freeOf, setFree, put_ne (by omega)]
        exact hfv
      rw [hgn, if_pos rfl, if_pos rfl, tryMergeFront, hp1, if_neg (not_not.mpr hf1)]
      exact halone
    | cons c post =>
      rw [if_neg (List.cons_ne_nil _ _)] at hgn
      rw [hgn, if_neg (by omega), hl.freeOf_next hA, if_neg fun h => h.1 hfv]
      by_cases hc : c.inUse = false
      · rw [if_pos ⟨hfv, Blk.flag_ne_zero_iff.mpr hc⟩]
        exact leaves_back hR (by simpa using hl) hA hc fun _ => by simpa using hx
      · rw [if_neg fun h => Blk.flag_ne_zero_iff.mp h.2 |> hc, if_neg fun h => h.1 hfv]
        exact halone

end Thunix.Mm
