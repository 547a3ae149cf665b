import Thunix.Mm.AnySize
import Thunix.Mm.NextStart

/-!
# Running out of memory

`malloc` searches from `next_start` to the end of the arena and never from its
beginning, so it finds every free block only while none lies before `next_start`. This is
the invariant, `Thunix.Mm.FitInv`, and there are two ways to lose it. A search that passes a
free block, because it is too small for the request, leaves it behind
(`Thunix.Mm.not_noFalseOom`). And when the last block is handed out whole, `next_start` becomes
`NULL`, which is below every block that is freed afterwards, so it stays `NULL` for good.

`Thunix.Mm.FindSafe` keeps clear of the two, and of what breaks the heap altogether: a size
that overflows, a block at `NULL`, and a back link that reads 4.
A block in use that is handed out again does not matter here, and neither does a
back link that reads 4 where it is not followed.
-/

namespace Thunix.Mm

/-- One call, by a caller that asks for any positive number of bytes and frees live
pointers. -/
def intStep (s : Sys) : HeapOp → Option Sys
  | .malloc size =>
    if 0 < size ∧ size < 2 ^ 31 then
      (malloc s.heap size).map fun r =>
        { heap := r.2, live := if r.1 = 0 then s.live else (r.1, size) :: s.live }
    else none
  | .free p => heapStep s (.free p)

/-- The steps of the system, as a relation. -/
abbrev IntStep : Sys → HeapOp → Sys → Prop := StepOf intStep

/-- **What is asked of `malloc`**: it does not return `NULL` while a block of the walk is free and
large enough. -/
def NoFalseOom (s : Sys) (size : ℤ) : Prop :=
  ∀ h', malloc s.heap size = some (0, h') → ∀ a ∈ walk s.heap.mem,
    ¬ (freeOf s.heap.mem a = 1 ∧ sizeNeeded size ≤ sizeOf s.heap.mem a)

/-- The condition on a call. A block that `malloc` finds is the first free one that the search
comes to, and with `next_start` at `NULL` the word read as the size of the block there
is too small. `free` is not called with `next_start` at `NULL`. -/
def FindSafe (s : Sys) : HeapOp → Prop
  | .malloc size =>
    size + 15 < 2 ^ 31 ∧
    (s.heap.nextStart = 0 → sizeOf s.heap.mem 0 < sizeNeeded size) ∧
    ∀ found ∈ firstFit s.heap.mem (sizeNeeded size) walkFuel s.heap.nextStart, found ≠ 0 →
      firstFit s.heap.mem 0 walkFuel s.heap.nextStart = some found
  | .free p =>
    let m := s.heap.mem
    s.heap.nextStart ≠ 0 ∧ (prevOf m (p - sizeofMemStruct) = 4 → freeOf m 4 = 0)

instance : ∀ s op, Decidable (FindSafe s op)
  | _, .malloc _ => inferInstanceAs (Decidable (_ ∧ _))
  | _, .free _ => inferInstanceAs (Decidable (_ ∧ _))

/-! ### No free block before `next_start` -/

/-- The search from `x` gets to every free block. -/
def Reaches (bs : List Blk) (x : ℕ) : Prop :=
  (x = 0 ∧ ∀ b ∈ bs, b.inUse = true) ∨
    (∃ b, BlockAt bs x b) ∧ ∀ a c, BlockAt bs a c → c.inUse = false → x ≤ a

variable {bs pre post new : List Blk} {b c : Blk} {a x A need : ℕ} {m : Mem}

theorem BlockIn.mem {base : ℕ} (h : BlockIn base bs a b) : b ∈ bs := by
  induction bs generalizing base with
  | nil => exact h.elim
  | cons x xs ih =>
    rcases h with ⟨-, rfl⟩ | h
    · exact List.mem_cons_self
    · exact List.mem_cons_of_mem _ (ih h)

/-- A block of three parts lies in one of them. -/
theorem blockAt_three (h : BlockAt (pre ++ new ++ post) a c) : c ∈ pre ∨
    BlockIn (memory + span pre) new a c ∨ memory + span pre + span new ≤ a ∧ c ∈ post := by
  rw [blockAt_iff_blockIn, blockIn_append, blockIn_append, span_append, ← Nat.add_assoc] at h
  rcases h with (h | h) | h
  · exact .inl h.mem
  · exact .inr (.inl h)
  · exact .inr (.inr ⟨h.range.1, h.mem⟩)

/-- **After a block has been handed out** before which none is free, the search gets to every free
block again. -/
theorem Carved.reaches (hc : Carved b need new) (hpre : ∀ c ∈ pre, c.inUse = true)
    (hspan : span (pre ++ new ++ post) = memSize) (hA : A = memory + span pre) :
    Reaches (pre ++ new ++ post) (afterCarve b A need) := by
  have hend : memEnd = memory + memSize := rfl
  have hnew := hc.span_eq
  simp only [span_append, hnew] at hspan
  -- A free block is the remainder, or lies behind the block.
  have hfree : ∀ a c, BlockAt (pre ++ new ++ post) a c → c.inUse = false →
      BlockIn A new a c ∨ A + b.size ≤ a := by
    intro a c hat hcf
    rcases blockAt_three hat with hmem | hat | hat
    · rw [hpre c hmem] at hcf
      cases hcf
    · exact .inl (hA ▸ hat)
    · rw [hnew, ← hA] at hat
      exact .inr hat.1
  cases hc with
  | whole hle =>
    rw [afterCarve_whole hle]
    cases post with
    | nil =>
      rw [span_nil] at hspan
      rw [if_pos (by omega)]
      refine .inl ⟨rfl, fun c hmem => ?_⟩
      simp only [List.append_nil, List.mem_append, List.mem_singleton] at hmem
      rcases hmem with hmem | rfl
      · exact hpre c hmem
      · rfl
    | cons d ds =>
      have := d.min_le
      rw [span_cons] at hspan
      rw [if_neg (by omega)]
      refine .inr ⟨⟨d, pre ++ [b.mark true], ds, by simp, by simp [hA, Nat.add_assoc]⟩,
        fun a c hat hcf => ?_⟩
      refine (hfree a c hat hcf).resolve_left fun hin => ?_
      obtain ⟨-, rfl⟩ : a = A ∧ c = b.mark true := by simpa using hin
      cases hcf
  | split u v hu hn hv _ =>
    have hv16 := v.min_le
    rw [afterCarve, if_pos (by rw [sizeofMemStruct]; omega)]
    refine .inr ⟨⟨v, pre ++ [u], post, by simp, by simp [hA, hn, Nat.add_assoc]⟩,
      fun a c hat hcf => ?_⟩
    rcases hfree a c hat hcf with hin | hle
    · rcases (by simpa using hin : a = A ∧ c = u ∨ a = A + u.size ∧ c = v) with ⟨-, rfl⟩ | ⟨rfl, -⟩
      · rw [hu] at hcf
        cases hcf
      · omega
    · omega

/-- The free blocks after a release: those before, and the one that starts at the block freed. -/
theorem Freed.free_at (hf : Freed b pre post new) (hat : BlockAt new a c) (hcf : c.inUse = false) :
    a = memory + span pre ∨ ∃ d, BlockAt (pre ++ [b] ++ post) a d ∧ d.inUse = false := by
  -- The parts of the list before and behind the block are still there.
  have hkeep : ∀ {xs ys : List Blk} (zs : List Blk) {J : Blk} {base : ℕ}, base = memory + span xs →
      BlockAt (xs ++ [J] ++ ys) a c → (xs ++ zs ++ ys = pre ++ [b] ++ post) →
      span zs = J.size → a = base ∨ ∃ d, BlockAt (pre ++ [b] ++ post) a d ∧ d.inUse = false := by
    intro xs ys zs J base hbase hat heq hspan
    rw [blockAt_iff_blockIn, blockIn_append, blockIn_append, span_append, span_cons, span_nil,
      Nat.add_zero, ← hspan, ← span_append] at hat
    rcases hat with (hat | hat) | hat
    · exact .inr ⟨c, heq ▸ blockAt_iff_blockIn.mpr (blockIn_append.mpr
        (.inl (blockIn_append.mpr (.inl hat)))), hcf⟩
    · obtain ⟨ha, -⟩ : a = memory + span xs ∧ c = J := by simpa using hat
      exact .inl (ha.trans hbase.symm)
    · exact .inr ⟨c, heq ▸ blockAt_iff_blockIn.mpr (blockIn_append.mpr (.inr hat)), hcf⟩
  cases hf with
  | alone => exact hkeep [b] rfl hat rfl (by simp)
  | back _ _ d => exact hkeep [b, d] rfl hat (by simp) (by simp)
  | front xs _ P hP =>
    rcases hkeep [P, b] rfl hat (by simp) (by simp) with rfl | hold
    · exact .inr ⟨P, ⟨xs, b :: post, by simp, rfl⟩, hP⟩
    · exact .inr hold
  | both xs ys P d hP =>
    rcases hkeep [P, b, d] rfl hat (by simp) (by simp) with rfl | hold
    · exact .inr ⟨P, ⟨xs, b :: d :: ys, by simp, rfl⟩, hP⟩
    · exact .inr hold

/-- A release leaves every free block at or behind `next_start`, which it lowers to the block
freed. -/
theorem Freed.reaches (hf : Freed b pre post new) (hx : BlockAt (pre ++ [b] ++ post) x c)
    (hlow : ∀ a d, BlockAt (pre ++ [b] ++ post) a d → d.inUse = false → x ≤ a)
    (hA : A = memory + span pre) : Reaches new (if A < x then A else x) := by
  -- With a free block before it, `next_start` is not behind that one.
  have hfirst : A ≤ x → ∀ pre' P, pre = pre' ++ [P] → P.inUse = true := by
    rintro hle pre' P rfl
    by_contra hP
    have hat : BlockAt (pre' ++ [P] ++ [b] ++ post) (memory + span pre') P :=
      ⟨pre', b :: post, by simp, rfl⟩
    have := hlow _ _ hat (by simpa using hP)
    have := P.min_le
    rw [span_append, span_cons] at hA
    omega
  refine .inr ⟨?_, fun a d hat hd => ?_⟩
  · by_cases hlt : A < x
    · rw [if_pos hlt, hA]
      exact hf.header_self (hfirst hlt.le)
    · rw [if_neg hlt]
      rcases Nat.lt_or_ge x A with hxA | hxA
      · exact hf.header_of_lt hx (hA ▸ hxA)
      · rw [show x = A by omega, hA]
        exact hf.header_self (hfirst hxA)
  · rcases hf.free_at hat hd with rfl | ⟨d', hat', hd'⟩
    · split <;> omega
    · have := hlow a d' hat' hd'
      split <;> omega

/-! ### The invariant -/

/-- The invariant: the blocks tile the arena, those in use are the live pointers, and the search
gets to every free one. A lone block in use is the last one. -/
structure FitInv (s : Sys) (bs : List Blk) : Prop where
  layout : Layout Overlaid s.heap.mem bs
  live : ∀ p, p ∈ s.live.map Prod.fst ↔ ∃ a, UsedAt memory bs a ∧ p = a + sizeofMemStruct
  reaches : Reaches bs s.heap.nextStart
  lone : ∀ b, bs = [b] → b.inUse = true → s.heap.nextStart = 0

theorem fitInv_start (m : Mem) : ∃ bs, FitInv (heapStart m) bs := by
  obtain ⟨b, hb, hl, -⟩ := layout_mallocInit (overlaid_refl 0) m
  refine ⟨[b], hl, fun p => ⟨fun hp => by simp [heapStart] at hp, ?_⟩,
    .inr ⟨⟨b, [], [], rfl, rfl⟩, fun a c hat _ => ?_⟩, ?_⟩
  · rintro ⟨a, ha, -⟩
    simp [usedAt_cons, usedAt_nil, hb] at ha
  · exact (hat.bound hl.span_eq).1
  · rintro c hc hcuse
    rw [← List.singleton_inj.mp hc, hb] at hcuse
    cases hcuse

/-- The search from a header: the block it finds and what lies before it, or that
nothing fits. -/
theorem firstFit_reaches (need : ℤ) (hl : Layout Overlaid m (pre ++ b :: post))
    (hx : x = memory + span pre) :
    ∃ r, firstFit m need walkFuel x = some r ∧
      (r = 0 ∧ (∀ c ∈ b :: post, ¬ c.Fits need) ∨
        ∃ mid c post', b :: post = mid ++ c :: post' ∧ r = x + span mid ∧ c.Fits need ∧
          ∀ d ∈ mid, ¬ d.Fits need) := by
  have hend : memEnd = memory + memSize := rfl
  have hsz : memSize = 0x100000 := rfl
  have hmem : memory = 0x800000 := rfl
  have hw : walkFuel = 0x20000 := rfl
  have hspan := hl.span_eq
  rw [span_append] at hspan
  have hseg := (seg_append.mp hl.seg).2
  rw [← hx] at hseg
  have hfound := firstFit_seg need walkFuel hseg (by omega) (by omega) (by omega)
  rwa [if_neg (List.cons_ne_nil _ _)] at hfound

/-- The size needed, as a natural number. -/
theorem sizeNeeded_eq_natCast {size : ℤ} (h0 : 0 < size) (h1 : size + 15 < 2 ^ 31) :
    ∃ n : ℕ, sizeNeeded size = n ∧ 16 ≤ n ∧ n % 4 = 0 := by
  refine ⟨(sizeNeeded size).toNat, ?_⟩
  rw [sizeNeeded_of_inRange h0.le h1]
  omega

/-- **A block that is handed out** keeps the invariant: none before it is free. -/
theorem FitInv.handout {s : Sys} {size : ℤ} (hs : FitInv s (pre ++ [b] ++ post))
    (hpre : ∀ c ∈ pre, c.inUse = true) (hA : A = memory + span pre) (h16 : 16 ≤ need)
    (h4 : need % 4 = 0) (hle : need ≤ b.size) :
    ∃ new, FitInv ⟨carve s.heap A need, (A + sizeofMemStruct, size) :: s.live⟩
      (pre ++ new ++ post) := by
  have hmem : memory = 0x800000 := rfl
  obtain ⟨new, hc, hlay, hstart⟩ := carve_layout overlaid_refl hs.layout hA h16 h4 hle
    fun _ _ => overlaid_four (by omega)
  refine ⟨new, hlay, fun q => ?_, ?_, fun d hd huse => ?_⟩
  · rw [List.map_cons, List.mem_cons, hs.live]
    simp only [hc.usedAt, ← hA, or_and_right, exists_or, exists_eq_left]
    exact or_comm
  · rw [hstart]
    exact hc.reaches hpre hlay.span_eq hA
  · -- A lone block is the one handed out, whole.
    have hlen := congrArg List.length hd
    simp only [List.length_append, List.length_singleton] at hlen
    rw [hstart]
    cases hc with
    | whole hw =>
      obtain rfl : post = [] := List.length_eq_zero_iff.mp (by simp at hlen; omega)
      rw [List.append_nil] at hlay
      exact (Carved.whole hw).last hlay.span_eq hA
    | split u v =>
      rw [show [u, v].length = 2 from rfl] at hlen
      omega

/-- **A call of `malloc`** keeps the invariant. -/
theorem FitInv.malloc {s s' : Sys} {bs : List Blk} {size : ℤ} (hs : FitInv s bs)
    (hok : FindSafe s (.malloc size)) (h : IntStep s (.malloc size) s') : ∃ bs', FitInv s' bs' := by
  have hmem : memory = 0x800000 := rfl
  have hend : memEnd = memory + memSize := rfl
  have hsz : memSize = 0x100000 := rfl
  obtain ⟨hhi, hnull, hfirst⟩ := hok
  rw [IntStep, StepOf, intStep] at h
  by_cases hsize : 0 < size ∧ size < 2 ^ 31
  swap
  · rw [if_neg hsize] at h
    cases h
  rw [if_pos hsize] at h
  obtain ⟨need, hneed, h16, h4⟩ := sizeNeeded_eq_natCast hsize.1 hhi
  obtain ⟨x, hxs⟩ : ∃ x, s.heap.nextStart = x := ⟨_, rfl⟩
  have hreach := hs.reaches
  rw [hxs] at hreach
  rcases hreach with ⟨h0, -⟩ | ⟨⟨b, pre, post, rfl, hx⟩, hlow⟩
  · rw [h0] at hxs
    -- `next_start` is `NULL`, and so is what is returned
    have hff : firstFit s.heap.mem (sizeNeeded size) walkFuel s.heap.nextStart = some 0 := by
      rw [hxs, show walkFuel = 0x1ffff + 1 from rfl, firstFit, if_pos rfl]
    rw [malloc_of_firstFit hff, goodOf, if_pos rfl, hxs, if_pos (hnull hxs)] at h
    obtain rfl := Option.some.inj h
    exact ⟨bs, hs⟩
  · have hspan := hs.layout.span_eq
    simp only [span_append, span_cons] at hspan
    -- before `next_start` no block is free
    have hpre : ∀ c ∈ pre, c.inUse = true := by
      intro c hc
      by_contra hcf
      obtain ⟨xs, ys, rfl⟩ := List.append_of_mem hc
      have := hlow _ c ⟨xs, ys ++ b :: post, by simp, rfl⟩ (by simpa using hcf)
      have := c.min_le
      simp only [span_append, span_cons] at hx
      omega
    -- whatever block is settled on, none before it is free
    have hcarve : ∀ (mid : List Blk) {post' : List Blk} {c : Blk} {r : ℕ},
        b :: post = mid ++ c :: post' → r = x + span mid → need ≤ c.size →
        (∀ d ∈ mid, d.inUse = true) →
        ∃ bs', FitInv ⟨carve s.heap r need, (r + sizeofMemStruct, size) :: s.live⟩ bs' := by
      rintro mid post' c r heq rfl hle hmid
      rw [heq] at hs
      have hs' : FitInv s ((pre ++ mid) ++ [c] ++ post') := by simpa using hs
      refine (hs'.handout (fun d hd => ?_) ?_ h16 h4 hle).imp' _ fun _ h => h
      · exact (List.mem_append.mp hd).elim (hpre d) (hmid d)
      · rw [span_append, hx, Nat.add_assoc]
    have hxat : BlockAt (pre ++ b :: post) x b := ⟨pre, post, rfl, hx⟩
    have hsizeOf : ∀ {a : ℕ} {c : Blk}, BlockAt (pre ++ b :: post) a c →
        sizeOf s.heap.mem a = c.size ∧ memory ≤ a := by
      intro a c hat
      obtain ⟨p, hp⟩ := hs.layout.hdr hat
      have := hat.bound hs.layout.span_eq
      exact ⟨hp.sizeOf_eq (by omega), this.1⟩
    obtain ⟨r, hr, hcase⟩ := firstFit_reaches (sizeNeeded size) hs.layout hx
    obtain ⟨r0, hr0, hcase0⟩ := firstFit_reaches 0 hs.layout hx
    rw [← hxs] at hr hr0
    rw [malloc_of_firstFit hr] at h
    rcases hcase with ⟨rfl, -⟩ | ⟨mid, c, post', heq, hrc, hfit, -⟩
    · rw [goodOf, if_pos rfl, hxs, (hsizeOf hxat).1, hneed] at h
      by_cases hlt : (b.size : ℤ) < need
      · rw [if_pos hlt] at h
        obtain rfl := Option.some.inj h
        exact ⟨_, hs⟩
      · rw [if_neg hlt, Option.map_some, if_neg (by simp only; omega)] at h
        obtain rfl := Option.some.inj h
        exact hcarve [] rfl rfl (by omega) (by simp)
    · have hrat : BlockAt (pre ++ b :: post) r c :=
        ⟨pre ++ mid, post', by rw [heq, List.append_assoc], by rw [hrc, hx, span_append]; omega⟩
      have hrne : r ≠ 0 := by have := (hsizeOf hrat).2; omega
      -- the block found is the first free one
      rw [hfirst r (by rw [hr]; rfl) hrne] at hr0
      obtain rfl := Option.some.inj hr0
      obtain ⟨mid', c', post'', heq', hrc', -, hmid⟩ := hcase0.resolve_left fun h => hrne h.1
      have hrat' : BlockAt (pre ++ b :: post) r c' :=
        ⟨pre ++ mid', post'', by rw [heq', List.append_assoc], by rw [hrc', hx, span_append]; omega⟩
      obtain rfl := hrat.unique hrat'
      rw [goodOf, if_neg hrne, (hsizeOf hrat).1, if_neg (not_lt.mpr hfit.2), hneed, Option.map_some,
        if_neg (by simp only; omega)] at h
      obtain rfl := Option.some.inj h
      refine hcarve _ heq' hrc' (by have := hfit.2; omega) fun d hd => ?_
      by_contra hdf
      exact hmid d hd ⟨by simpa using hdf, by omega⟩

/-- Where `free` leaves `next_start` when it is not behind a free block that is before. -/
theorem free_nextStart {h : Heap} (hbusy : freeOf h.mem A ≠ 1) (hlt : prevOf h.mem A < A)
    (hfront : prevOf h.mem A ≠ 0 → freeOf h.mem (prevOf h.mem A) ≠ 0 →
      h.nextStart ≤ prevOf h.mem A) :
    (free h (A + sizeofMemStruct)).nextStart = if A < h.nextStart then A else h.nextStart := by
  rw [free_eq h (Nat.add_sub_cancel ..).symm rfl, if_neg hbusy]
  simp only [release_fst rfl hlt.ne]
  by_cases hc : prevOf h.mem A ≠ 0 ∧ getNext h.mem A = 0 ∧ freeOf h.mem (prevOf h.mem A) ≠ 0
  · have := hfront hc.1 hc.2.2
    rw [if_pos hc, if_neg (by omega), if_neg (by omega)]
  · rw [if_neg hc]

/-- The back link of a block, where it is followed. -/
theorem Layout.prev_cases (hl : Layout Overlaid m (pre ++ [b] ++ post)) (hA : A = memory + span pre)
    (hfour : prevOf m A = 4 → freeOf m 4 = 0) : prevOf m A < A ∧
      (freeOf m (prevOf m A) = 0 ∨ prevOf m A = 0 ∨
        ∃ P, BlockAt (pre ++ [b] ++ post) (prevOf m A) P ∧ (freeOf m (prevOf m A) ≠ 0 →
          P.inUse = false)) := by
  have hmem : memory = 0x800000 := rfl
  have hhdr := (seg_append.mp (seg_append.mp hl.seg).1).2.1
  rw [← hA] at hhdr
  rcases hhdr.prev with hlast | ⟨h4, -⟩
  · rw [hlast]
    rcases List.eq_nil_or_concat pre with rfl | ⟨pre', P, rfl⟩
    · refine ⟨?_, .inr (.inl rfl)⟩
      rw [lastFrom_nil]
      omega
    · rw [List.concat_eq_append, span_append, span_cons, span_nil] at hA
      have hP16 := P.min_le
      have hat : BlockAt (pre'.concat P ++ [b] ++ post) (memory + span pre') P :=
        ⟨pre', b :: post, by simp, rfl⟩
      obtain ⟨p, hp⟩ := hl.hdr hat
      rw [List.concat_eq_append] at hat ⊢
      rw [lastFrom_concat]
      refine ⟨by omega, .inr (.inr ⟨P, hat, fun hne => ?_⟩)⟩
      rw [hp.free] at hne
      exact Blk.flag_ne_zero_iff.mp hne
  · rw [h4]
    exact ⟨by omega, .inl (hfour h4)⟩

/-- **A call of `free`** keeps the invariant. -/
theorem FitInv.free {s s' : Sys} {bs : List Blk} {p : ℕ} (hs : FitInv s bs)
    (hok : FindSafe s (.free p)) (h : IntStep s (.free p) s') : ∃ bs', FitInv s' bs' := by
  obtain ⟨hx0, hfour⟩ := hok
  rw [IntStep, StepOf, intStep, heapStep] at h
  by_cases hp : p ∈ s.live.map Prod.fst
  swap
  · rw [if_neg hp] at h
    cases h
  rw [if_pos hp] at h
  obtain rfl := Option.some.inj h
  obtain ⟨A, ⟨b, hin, hb⟩, rfl⟩ := (hs.live p).mp hp
  obtain ⟨pre, post, rfl, hA⟩ := blockAt_iff_blockIn.mpr hin
  rw [List.append_cons] at hs
  rw [Nat.add_sub_cancel] at hfour
  have hmem : memory = 0x800000 := rfl
  obtain ⟨hl, hlive, hreach, hlone⟩ := hs
  obtain ⟨⟨c, hxat⟩, hlow⟩ := hreach.resolve_left fun h => hx0 h.1
  have hhdr := (seg_append.mp (seg_append.mp hl.seg).1).2.1
  rw [← hA] at hhdr
  have hbusy : freeOf s.heap.mem A ≠ 1 := by
    rw [hhdr.free, Blk.flag_of_inUse hb]
    decide
  obtain ⟨hplt, hpcases⟩ := hl.prev_cases hA hfour
  have hfront : prevOf s.heap.mem A ≠ 0 → freeOf s.heap.mem (prevOf s.heap.mem A) ≠ 0 →
      s.heap.nextStart ≤ prevOf s.heap.mem A := by
    intro hp0 hpf
    obtain ⟨P, hat, hP⟩ := (hpcases.resolve_left hpf).resolve_left hp0
    exact hlow _ P hat (hP hpf)
  obtain ⟨new, hf, hlay, -⟩ := free_layout overlaid_refl hl hA hb
    (fun p hR => hR.imp id fun h => by
      rw [h.1]
      exact ⟨by omega, by decide, h.2, hfour h.1⟩)
    (fun hp0 hn0 => absurd (hlone b (hl.eq_singleton (hA ▸ hp0) (hA ▸ hn0)) hb) hx0)
    (fun hp0 _ hpf _ => hfront hp0 hpf) (.inr (.inl ⟨c, hxat⟩))
  refine ⟨new, hlay, fun q => ⟨fun hq => ?_, ?_⟩, ?_, fun d hd huse => ?_⟩
  · obtain ⟨q', hq', rfl⟩ := List.mem_map.mp hq
    obtain ⟨hmem', hne⟩ := List.mem_filter.mp hq'
    obtain ⟨a, ha, heq⟩ := (hlive q'.1).mp (List.mem_map_of_mem hmem')
    refine ⟨a, hf.usedAt.mpr ⟨ha, fun h => of_decide_eq_true hne ?_⟩, heq⟩
    rw [heq, h, hA]
  · rintro ⟨a, ha, rfl⟩
    obtain ⟨hold, hne⟩ := hf.usedAt.mp ha
    obtain ⟨q', hq', heq⟩ := List.mem_map.mp ((hlive _).mpr ⟨a, hold, rfl⟩)
    refine List.mem_map.mpr ⟨q', List.mem_filter.mpr ⟨hq', decide_eq_true fun h => hne ?_⟩, heq⟩
    omega
  · rw [free_nextStart hbusy hplt hfront]
    exact hf.reaches hxat hlow hA
  · obtain ⟨e, he, hefree⟩ := hf.exists_free
    rw [hd, List.mem_singleton] at he
    rw [← he, hefree] at huse
    cases huse

theorem exists_fitInv (m : Mem) {s : Sys} (hs : Reach IntStep FindSafe (heapStart m) s) :
    ∃ bs, FitInv s bs := by
  refine @Reach.invariant _ _ _ _ _ (fun s => ∃ bs, FitInv s bs) (fitInv_start m) ?_ _ hs
  rintro s op s' ⟨bs, hs⟩ hok hstep
  cases op with
  | malloc size => exact hs.malloc hok hstep
  | free p => exact hs.free hok hstep

/-! ### The property -/

/-- Where the search gets to every free block, `NULL` is returned only if none is large enough. -/
theorem FitInv.noFalseOom {s : Sys} {bs : List Blk} (hs : FitInv s bs) (size : ℤ) :
    NoFalseOom s size := by
  rintro h' hnull a ha ⟨hfree, hfit⟩
  have hsz : memSize = 0x100000 := rfl
  have hend : memEnd = memory + memSize := rfl
  have hmem : memory = 0x800000 := rfl
  have hhdr : ∀ {a : ℕ} {c : Blk}, BlockAt bs a c →
      sizeOf s.heap.mem a = c.size ∧ freeOf s.heap.mem a = c.flag ∧ memory ≤ a := by
    intro a c hat
    obtain ⟨p, hp⟩ := hs.layout.hdr hat
    have := hat.bound hs.layout.span_eq
    exact ⟨hp.sizeOf_eq (by omega), hp.free, this.1⟩
  obtain ⟨c, hat⟩ := (mem_walk_iff hs.layout).mp ha
  have hcf : c.inUse = false := by
    refine Blk.flag_ne_zero_iff.mp ?_
    rw [← (hhdr hat).2.1, hfree]
    decide
  rw [(hhdr hat).1] at hfit
  rcases hs.reaches with ⟨-, huse⟩ | ⟨⟨b, pre, post, rfl, hx⟩, hlow⟩
  · rw [huse c (blockAt_iff_blockIn.mp hat).mem] at hcf
    cases hcf
  · have hle := hlow a c hat hcf
    obtain ⟨r, hr, hcase⟩ := firstFit_reaches (sizeNeeded size) hs.layout hx
    rw [malloc_of_firstFit hr] at hnull
    rcases hcase with ⟨rfl, hnone⟩ | ⟨mid, d, post', heq, hrd, hdfit, -⟩
    · -- the block lies at `next_start` or behind it, so the search has come to it
      rw [blockAt_iff_blockIn, blockIn_append] at hat
      rcases hat with hat | hat
      · have := hat.range
        have := c.min_le
        omega
      · exact hnone c hat.mem ⟨hcf, hfit⟩
    · have hrat : BlockAt (pre ++ b :: post) r d :=
        ⟨pre ++ mid, post', by rw [heq, List.append_assoc], by rw [hrd, hx, span_append]; omega⟩
      obtain ⟨hsize, -, hrlo⟩ := hhdr hrat
      have hr0 : r ≠ 0 := by omega
      rw [goodOf, if_neg hr0, hsize, if_neg (not_lt.mpr hdfit.2)] at hnull
      have := congrArg Prod.fst (Option.some.inj hnull)
      simp only at this
      omega

/-- **No false out-of-memory**, in every run whose calls are `FindSafe`. -/
theorem noFalseOom_of_reach (m : Mem) {s : Sys} (hs : Reach IntStep FindSafe (heapStart m) s)
    (size : ℤ) : NoFalseOom s size := by
  obtain ⟨bs, hinv⟩ := exists_fitInv m hs
  exact hinv.noFalseOom size

/-- A run that splits, merges and refills blocks. -/
theorem noFalseOom_of_reach_refill : ∃ s, Reach IntStep FindSafe (heapStart fun _ => 0) s ∧
    s.live.length = 2 ∧ NoFalseOom s 500000 := by
  have h : ((runOf intStep FindSafe [.malloc 100, .malloc 100, .malloc 60, .free 8388620,
      .free 8388732, .malloc 40] (heapStart fun _ => 0)).map fun s => s.live.length) = some 2 := by
    decide +kernel
  obtain ⟨s, hrun, hs⟩ := Option.map_eq_some_iff.mp h
  have hreach := reach_of_runOf .start hrun
  exact ⟨s, hreach, hs, noFalseOom_of_reach _ hreach 500000⟩

/-- **A free block is left behind.** After `a = malloc(300000)`, `malloc(100)`, `free(a)` and
`malloc(500000)`, which passes the block of `a`, a request for 300000 bytes fails, though that
block has the room. -/
theorem not_noFalseOom : ¬ ∀ (m : Mem) (s : Sys),
    Reach IntStep (fun _ _ => True) (heapStart m) s → ∀ size : ℤ, 0 < size → size < 2 ^ 31 →
      NoFalseOom s size := by
  intro hall
  have hbad : ((runOf intStep (fun _ _ => True) [.malloc 300000, .malloc 100, .free 8388620,
      .malloc 500000] (heapStart fun _ => 0)).bind fun s =>
        (malloc s.heap 300000).map fun r => (r.1, decide (memory ∈ walk s.heap.mem ∧
          freeOf s.heap.mem memory = 1 ∧ sizeNeeded 300000 ≤ sizeOf s.heap.mem memory))) =
      some (0, true) := by
    decide +kernel
  obtain ⟨s, hrun, hs⟩ := Option.bind_eq_some_iff.mp hbad
  obtain ⟨⟨p, h'⟩, hr, heq⟩ := Option.map_eq_some_iff.mp hs
  obtain ⟨rfl, hblock⟩ := Prod.mk.inj heq
  obtain ⟨hwalk, hfree, hfit⟩ := of_decide_eq_true hblock
  exact hall _ s (reach_of_runOf .start hrun) 300000 (by decide) (by decide) h' hr memory hwalk
    ⟨hfree, hfit⟩

/-- The whole arena is lost when it has been handed out in one block. -/
example : ((runOf intStep (fun _ _ => True) [.malloc 1048564, .free 8388620]
    (heapStart fun _ => 0)).bind fun s => (malloc s.heap 100).map Prod.fst) = some 0 := by
  decide +kernel

end Thunix.Mm
