import Thunix.Mm.Accesses
import Thunix.Mm.WalkInvariant

/-!
# Where the search starts

`next_start` is meant to be a block header, and no call is meant to go through any other
address. `malloc` breaks this when it hands out the last block whole, which leaves
`next_start` at `NULL` for the next search to load from
(`Thunix.Mm.not_nextStart`), and when the remainder is too small for a header and its
size is written all the same. `free` breaks it when the block before is free and there is
a block after: `mm` is not moved to the front there, and `next_start` is left at, or put
at, a header that has just been merged away. It also loads the `free` word of `NULL` when
it releases the only block.

`Thunix.Mm.NextSafe` is the condition that keeps clear of these, and nothing else: a
`malloc` that falls through to a block in use is allowed, for what it does to the
callers it does not do to the headers.
-/

namespace Thunix.Mm

open Logged

/-- The headers a call touches, in order. -/
def accesses (s : Sys) : HeapOp → List ℕ
  | .malloc size => touched (mallocL size) s.heap
  | .free p => touched (freeL p) s.heap

/-- The caller keeps to the contract. -/
def Contract (s : Sys) : HeapOp → Prop
  | .malloc size => 0 < size ∧ size ≤ memSize
  | .free p => p ∈ s.live.map Prod.fst

/-- **What is asked of a call**: it returns, and every header it touches is one of the
walk before it or, where it makes a new one, of the walk after it. -/
def HeadersOnly (s : Sys) (op : HeapOp) : Prop :=
  ∃ s', HeapStep s op s' ∧
    ∀ a ∈ accesses s op, a ∈ walk s.heap.mem ∨ a ∈ walk s'.heap.mem

/-- The condition on a call. A block that `malloc` settles on fits the request exactly
and is not the last, or has room for a header and more behind it. `free` is not called on
the only block, and where it would merge with the block before, `next_start` lies below
the block freed unless that is the last one. -/
def NextSafe (s : Sys) : HeapOp → Prop
  | .malloc size =>
    ∀ found ∈ firstFit s.heap.mem (sizeNeeded size) walkFuel s.heap.nextStart,
      let good := goodOf s.heap found
      sizeNeeded size ≤ sizeOf s.heap.mem good →
        sizeNeeded size + sizeofMemStruct < sizeOf s.heap.mem good ∨
          sizeOf s.heap.mem good = sizeNeeded size ∧ getNext s.heap.mem good ≠ 0
  | .free p =>
    let m := s.heap.mem
    let mm := p - sizeofMemStruct
    (prevOf m mm = 0 → getNext m mm ≠ 0) ∧
    (prevOf m mm ≠ 0 → getNext m mm ≠ 0 → freeOf m (prevOf m mm) ≠ 0 → s.heap.nextStart < mm)

instance : ∀ s op, Decidable (NextSafe s op)
  | _, .malloc _ => inferInstanceAs (Decidable (∀ _ ∈ (_ : Option ℕ), _))
  | _, .free _ => inferInstanceAs (Decidable (_ ∧ _))

/-! ### From header to header -/

section Headers

variable {m : Mem} {bs pre post new : List Blk} {a x : ℕ} {b c : Blk}

/-- `get_next` leads from a header to a header, or to `NULL`. -/
theorem Layout.getNext_header {R : ℕ → ℕ → Prop} (hl : Layout R m bs) (hb : BlockAt bs a b)
    (hne : getNext m a ≠ 0) : ∃ c, BlockAt bs (getNext m a) c := by
  obtain ⟨pre, post, rfl, rfl⟩ := hb
  have hend : memEnd = memory + memSize := rfl
  have hspan := hl.span_eq
  rw [span_append] at hspan
  have hgn := (seg_append.mp hl.seg).2.getNext_eq (by omega)
  cases post with
  | nil => exact absurd (by rw [hgn, if_pos rfl]) hne
  | cons c cs =>
    rw [hgn, if_neg (by simp)]
    exact ⟨c, pre ++ [b], cs, by simp, by simp [Nat.add_assoc]⟩

/-- The back link of a header is the header before. -/
theorem Layout.prevOf_eq (hl : Layout Eq m (pre ++ [b] ++ post)) (hA : a = memory + span pre) :
    prevOf m a = lastFrom memory 0 pre := by
  rw [hA]
  exact (seg_append.mp (seg_append.mp hl.seg).1).2.1.prev

theorem Layout.prevOf_header (hl : Layout Eq m (pre ++ [b] ++ post)) (hA : a = memory + span pre)
    (hne : prevOf m a ≠ 0) : ∃ pre' P, pre = pre' ++ [P] ∧ prevOf m a = memory + span pre' := by
  have hprev := hl.prevOf_eq hA
  rcases List.eq_nil_or_concat pre with rfl | ⟨pre', P, rfl⟩
  · exact absurd hprev hne
  · rw [List.concat_eq_append, lastFrom_concat] at hprev
    exact ⟨pre', P, List.concat_eq_append, hprev⟩

theorem getNext_congr {m' : Mem} (h : m' (a + 4) = m (a + 4)) : getNext m' a = getNext m a := by
  rw [getNext, h, getNext]

/-- A header below the block freed is one afterwards. -/
theorem Freed.header_of_lt (h : Freed b pre post new) (hx : BlockAt (pre ++ [b] ++ post) x c)
    (hlt : x < memory + span pre) : ∃ d, BlockAt new x d := by
  rw [List.append_assoc] at hx
  have hpre := hx.of_lt hlt
  -- the block before the one freed stays where it is, however large it becomes
  have hlast : ∀ (xs ys : List Blk) (P J : Blk), BlockAt (xs ++ [P]) x c →
      ∃ d, BlockAt (xs ++ [J] ++ ys) x d := by
    intro xs ys P J hat
    rw [blockAt_iff_blockIn, blockIn_append] at hat
    rcases hat with hat | hat
    · rw [List.append_assoc]
      exact ⟨c, (blockAt_iff_blockIn.mpr hat).append_right _⟩
    · rw [blockIn_cons, blockIn_nil, or_false] at hat
      exact ⟨J, hat.1 ▸ blockAt_mid xs ys J⟩
  cases h with
  | alone =>
    rw [List.append_assoc]
    exact ⟨c, hpre.append_right _⟩
  | back =>
    rw [List.append_assoc]
    exact ⟨c, hpre.append_right _⟩
  | front _ _ P => exact hlast _ _ P _ hpre
  | both _ _ P => exact hlast _ _ P _ hpre

/-- So is the block freed, when there is no free block before it. -/
theorem Freed.header_self (h : Freed b pre post new)
    (hfirst : ∀ pre' P, pre = pre' ++ [P] → P.inUse = true) :
    ∃ d, BlockAt new (memory + span pre) d := by
  cases h with
  | alone => exact ⟨_, blockAt_mid ..⟩
  | back => exact ⟨_, blockAt_mid ..⟩
  | front _ _ P hP => simp [hfirst _ P rfl] at hP
  | both _ _ P c hP => simp [hfirst _ P rfl] at hP

end Headers

/-! ### The blocks in use -/

section Used

variable {pre post new : List Blk} {a base : ℕ} {b : Blk}

/-- A block in use starts at `a`. -/
def UsedAt (base : ℕ) (bs : List Blk) (a : ℕ) : Prop := ∃ b, BlockIn base bs a b ∧ b.inUse = true

theorem usedAt_nil : UsedAt base [] a ↔ False := by simp [UsedAt]

theorem usedAt_cons {bs : List Blk} :
    UsedAt base (b :: bs) a ↔ a = base ∧ b.inUse = true ∨ UsedAt (base + b.size) bs a := by
  simp only [UsedAt, blockIn_cons, or_and_right, exists_or]
  refine or_congr ⟨?_, ?_⟩ Iff.rfl
  · rintro ⟨c, ⟨ha, rfl⟩, hc⟩
    exact ⟨ha, hc⟩
  · rintro ⟨ha, hb⟩
    exact ⟨b, ⟨ha, rfl⟩, hb⟩

theorem usedAt_append {xs ys : List Blk} :
    UsedAt base (xs ++ ys) a ↔ UsedAt base xs a ∨ UsedAt (base + span xs) ys a := by
  simp only [UsedAt, blockIn_append, or_and_right, exists_or]

/-- After a block has been handed out, it is in use too; it may have been before. -/
theorem Carved.usedAt {need : ℕ} (h : Carved b need new) :
    UsedAt base (pre ++ new ++ post) a ↔
      UsedAt base (pre ++ [b] ++ post) a ∨ a = base + span pre := by
  simp only [usedAt_append, span_append, h.span_eq, span_cons, span_nil, Nat.add_zero]
  cases h with
  | whole =>
    simp only [usedAt_cons, usedAt_nil, Blk.mark_inUse, or_false, and_true]
    tauto
  | split u v hu _ hv =>
    simp only [usedAt_cons, usedAt_nil, hu, hv, or_false, and_true, Bool.false_eq_true, and_false]
    tauto

theorem Freed.usedAt (h : Freed b pre post new) :
    UsedAt memory new a ↔ UsedAt memory (pre ++ [b] ++ post) a ∧ a ≠ memory + span pre := by
  simp only [UsedAt, ← blockAt_iff_blockIn]
  constructor
  · rintro ⟨c, hc, huse⟩
    obtain ⟨hold, hne⟩ := (h.inUse_iff huse).mp hc
    exact ⟨⟨c, hold, huse⟩, hne⟩
  · rintro ⟨⟨c, hc, huse⟩, hne⟩
    exact ⟨c, (h.inUse_iff huse).mpr ⟨hc, hne⟩, huse⟩

end Used

/-! ### The invariant -/

/-- The invariant: the blocks tile the arena with the right back links, `next_start` is
one of them, and those in use are the live pointers. -/
def NextInv (s : Sys) : Prop :=
  ∃ bs, Layout Eq s.heap.mem bs ∧ (∃ b, BlockAt bs s.heap.nextStart b) ∧
    ∀ p, p ∈ s.live.map Prod.fst ↔ ∃ a, UsedAt memory bs a ∧ p = a + sizeofMemStruct

theorem nextInv_start (m : Mem) : NextInv (heapStart m) := by
  obtain ⟨b, hb, hl, -⟩ := layout_mallocInit (R := Eq) rfl m
  refine ⟨[b], hl, ⟨b, [], [], rfl, rfl⟩, fun p => ⟨fun hp => by simp [heapStart] at hp, ?_⟩⟩
  rintro ⟨a, ha, -⟩
  simp [usedAt_cons, usedAt_nil, hb] at ha

section Step

variable {h : Heap} {pre post : List Blk} {b : Blk} {A need : ℕ}

/-- The search goes from header to header. -/
theorem search_headers {bs : List Blk} {need : ℤ} {fuel x : ℕ} {W : ℕ → Prop}
    (hl : Layout Eq h.mem bs) (hx : BlockAt bs x b) (hW : ∀ a ∈ walk h.mem, W a) :
    Runs W (firstFitL need fuel x) h (firstFit h.mem need fuel x) h := by
  refine runs_firstFitL (P := fun x => x ≠ 0 → x ∈ walk h.mem)
    (fun y hy hy0 => ⟨hW y (hy hy0), fun hne => ?_⟩) fun _ => (mem_walk_iff hl).mpr ⟨b, hx⟩
  obtain ⟨c, hc⟩ := (mem_walk_iff hl).mp (hy hy0)
  exact (mem_walk_iff hl).mpr (hl.getNext_header hc hne)

/-- What `malloc` touches once it has settled on a block, by the layout before and after. -/
theorem carveIn_headers {new : List Blk} {m' : Mem} (hl : Layout Eq h.mem (pre ++ [b] ++ post))
    (hl' : Layout Eq m' (pre ++ new ++ post)) (hc : Carved b need new) (hA : A = memory + span pre)
    (hfit : need + sizeofMemStruct < b.size ∨ b.size = need) :
    CarveIn (fun a => a ∈ walk h.mem ∨ a ∈ walk m') h.mem A need
      (getNext (setSize (setFree h.mem A 0) A need) A) := by
  have hend : memEnd = memory + memSize := rfl
  have hmem : memory = 0x800000 := rfl
  have hsz : memSize = 0x100000 := rfl
  have h12 : sizeofMemStruct = 12 := rfl
  have hspan := hl.span_eq
  simp only [span_append, span_cons, span_nil] at hspan
  have hat : BlockAt (pre ++ [b] ++ post) A b := hA ▸ blockAt_mid pre post b
  obtain ⟨p, hp⟩ := hl.hdr hat
  have hsize : sizeOf h.mem A = b.size := hp.sizeOf_eq (by omega)
  rcases hfit with hlt | heq
  · -- a split: the remainder is a header of the walk after the call
    have hnext : getNext (setSize (setFree h.mem A 0) A need) A = A + need := by
      rw [getNext_of_toNat (show _ = need by rw [setSize, put_self, toNat_ofInt_natCast (by omega)])
        (by omega), if_neg (by omega)]
    rw [hnext]
    cases hc with
    | whole hle => omega
    | split u v _ hu _ hv =>
      refine ⟨fun _ _ => Or.inr ((mem_walk_iff hl').mpr ?_), fun m'' hw _ hne => Or.inl ?_⟩
      · exact ⟨v, pre ++ [u], post, by simp, by simp [hA, hu, Nat.add_assoc]⟩
      · have hword : (m'' (A + need + 4)).toNat = b.size - need := by
          rw [hw, hsize, show (b.size : ℤ) - need = ((b.size - need : ℕ) : ℤ) by omega,
            toNat_ofInt_natCast (by omega)]
        have hsame : getNext m'' (A + need) = getNext h.mem A := by
          rw [getNext_of_toNat hword (by omega), hp.getNext_eq (by omega),
            show A + need + (b.size - need) = A + b.size by omega]
        rw [hsame] at hne ⊢
        exact (mem_walk_iff hl).mpr (hl.getNext_header hat hne)
  · -- an exact fit: nothing is touched behind the block
    refine ⟨fun hne => absurd (by omega) hne, fun _ _ hlt => absurd hlt ?_⟩
    rw [show sizeOf h.mem A - need = 0 by omega]
    decide

/-- The header `next_start` is put at by an allocation that fits. -/
theorem afterCarve_header {new : List Blk} {m' : Mem} (hl : Layout Eq h.mem (pre ++ [b] ++ post))
    (hl' : Layout Eq m' (pre ++ new ++ post)) (hc : Carved b need new) (hA : A = memory + span pre)
    (hfit : need + sizeofMemStruct < b.size ∨ b.size = need ∧ getNext h.mem A ≠ 0) :
    ∃ c, BlockAt (pre ++ new ++ post) (afterCarve b A need) c := by
  refine (hc.header hl'.span_eq hA).resolve_left fun h0 => ?_
  have hmem : memory = 0x800000 := rfl
  rcases hfit with hlt | ⟨heq, hne⟩
  · rw [afterCarve, if_pos hlt] at h0
    omega
  · obtain ⟨p, hp⟩ := hl.hdr (hA ▸ blockAt_mid pre post b)
    have hbound := (hA ▸ blockAt_mid pre post b : BlockAt _ A b).bound hl.span_eq
    rw [afterCarve_whole (by omega), ← hp.getNext_eq hbound.2] at h0
    exact hne h0

end Step

/-- **A call of `malloc`** that meets the condition returns, keeps the invariant, and
touches headers only. -/
theorem NextInv.malloc {s : Sys} {size : ℤ} (hs : NextInv s) (h0 : 0 < size)
    (hle : size ≤ memSize) (hok : NextSafe s (.malloc size)) :
    ∃ s', HeapStep s (.malloc size) s' ∧ NextInv s' ∧
      ∀ a ∈ accesses s (.malloc size), a ∈ walk s.heap.mem ∨ a ∈ walk s'.heap.mem := by
  obtain ⟨bs, hl, ⟨d, hd⟩, hlive⟩ := hs
  have h12 : sizeofMemStruct = 12 := rfl
  have hmem : memory = 0x800000 := rfl
  have hend : memEnd = memory + memSize := rfl
  have hsz : memSize = 0x100000 := rfl
  obtain ⟨need, hneed, -, h16, h4⟩ := sizeNeeded_eq h0 hle
  obtain ⟨found, hff, hcase⟩ := exists_firstFit (need : ℤ) hl (Or.inr (Or.inl ⟨d, hd⟩))
  -- whatever the search found, the block settled on is one of the walk
  obtain ⟨A, hA⟩ : ∃ A, A = goodOf s.heap found := ⟨_, rfl⟩
  obtain ⟨b, pre, post, rfl, hAp⟩ : ∃ b, BlockAt bs A b := by
    rw [hA, goodOf]
    by_cases hf0 : found = 0
    · rw [if_pos hf0]
      exact ⟨d, hd⟩
    · rw [if_neg hf0]
      exact (hcase.resolve_left hf0).imp fun _ h => h.1
  have hl' : Layout Eq s.heap.mem (pre ++ [b] ++ post) := by simpa using hl
  have hat : BlockAt (pre ++ b :: post) A b := ⟨pre, post, rfl, hAp⟩
  have hbound := hat.bound hl.span_eq
  obtain ⟨p, hp⟩ := hl.hdr hat
  have hsize : sizeOf s.heap.mem A = b.size := hp.sizeOf_eq (by omega)
  have hsearch : ∀ W : ℕ → Prop, (∀ a ∈ walk s.heap.mem, W a) →
      Runs W (firstFitL need walkFuel s.heap.nextStart) s.heap (some found) s.heap :=
    fun W hW => hff ▸ search_headers hl hd hW
  have hAw : A ∈ walk s.heap.mem := (mem_walk_iff hl).mpr ⟨b, hat⟩
  have hmalloc : Mm.malloc s.heap size = if sizeOf s.heap.mem A < need then some (0, s.heap)
      else some (A + sizeofMemStruct, carve s.heap A need) := by
    simp only [Mm.malloc, hneed, hff, Option.bind_eq_bind, Option.bind_some, ← hA]
    split <;> rfl
  by_cases hsmall : sizeOf s.heap.mem A < need
  · rw [if_pos hsmall] at hmalloc
    refine ⟨s, ?_, ⟨_, hl, ⟨d, hd⟩, hlive⟩, fun a ha => Or.inl ?_⟩
    · rw [HeapStep, StepOf, heapStep, if_pos ⟨h0, hle⟩, hmalloc]
      simp
    · exact (runs_mallocL hneed.symm hff hA (hsearch _ fun _ h => h) hAw
        (fun h => absurd h (not_le.mpr hsmall)) hmalloc).touched a ha
  · rw [if_neg hsmall] at hmalloc
    have hfit := hok found (by rw [hneed, hff]; rfl)
    simp only [hneed, ← hA, hsize] at hfit
    replace hfit : need + sizeofMemStruct < b.size ∨
        b.size = need ∧ getNext s.heap.mem A ≠ 0 := by
      refine (hfit (by omega)).imp (fun h => ?_) fun h => ⟨?_, h.2⟩
      · omega
      · omega
    obtain ⟨new, hc, hlay, hstart⟩ := carve_layout (fun _ => rfl) hl' hAp h16 h4 (by omega)
      fun h => by omega
    have hptr : A + sizeofMemStruct ≠ 0 := by omega
    refine ⟨{ heap := carve s.heap A need, live := (A + sizeofMemStruct, size) :: s.live }, ?_,
      ⟨_, hlay, ?_, fun q => ?_⟩, fun a ha => ?_⟩
    · rw [HeapStep, StepOf, heapStep, if_pos ⟨h0, hle⟩, hmalloc, Option.map_some, if_neg hptr]
    · rw [hstart]
      exact afterCarve_header hl' hlay hc hAp hfit
    · rw [List.map_cons, List.mem_cons, hlive]
      simp only [hc.usedAt, List.append_cons pre b post, ← hAp, or_and_right, exists_or,
        exists_eq_left]
      exact or_comm
    · exact (runs_mallocL hneed.symm hff hA (hsearch _ fun _ h => Or.inl h) (Or.inl hAw)
        (fun _ => carveIn_headers hl' hlay hc hAp (hfit.imp id fun h => h.1)) hmalloc).touched a ha

/-- The back link of a block leads to below it. -/
theorem prevOf_lt {m : Mem} {pre post : List Blk} {b : Blk} {A : ℕ}
    (hl : Layout Eq m (pre ++ [b] ++ post)) (hA : A = memory + span pre) : prevOf m A < A := by
  have hmem : memory = 0x800000 := rfl
  by_cases h0 : prevOf m A = 0
  · omega
  · obtain ⟨pre', P, rfl, hp⟩ := hl.prevOf_header hA h0
    have hP := P.min_le
    rw [span_append, span_cons] at hA
    omega

/-- The headers a release goes through are those of the walk. -/
theorem releaseIn_headers {m : Mem} {pre post : List Blk} {b : Blk} {A : ℕ}
    (hl : Layout Eq m (pre ++ [b] ++ post)) (hA : A = memory + span pre)
    (hlone : prevOf m A = 0 → getNext m A ≠ 0) :
    ReleaseIn (· ∈ walk m) m A (prevOf m A) (getNext m A) := by
  have hat : BlockAt (pre ++ [b] ++ post) A b := hA ▸ blockAt_mid pre post b
  have hnext : getNext m A ≠ 0 ∨ prevOf m A = 0 →
      ∃ c, BlockAt (pre ++ [b] ++ post) (getNext m A) c :=
    fun h => hl.getNext_header hat (h.elim id hlone)
  refine ⟨(mem_walk_iff hl).mpr ⟨b, hat⟩, fun hne => ?_, fun h => (mem_walk_iff hl).mpr (hnext h),
    fun h m' hm' hne => ?_⟩
  · obtain ⟨pre', P, rfl, hp⟩ := hl.prevOf_header hA hne
    rw [hp]
    exact (mem_walk_iff hl).mpr ⟨P, pre', b :: post, by simp, rfl⟩
  · -- the size of the next block is not among the words the merge has changed by then
    obtain ⟨c, hc⟩ := hnext h
    have hb16 := b.min_le
    have hbehind : getNext m A = A + b.size := by
      obtain ⟨p, hp⟩ := hl.hdr hat
      have hgn := hp.getNext_eq (hat.bound hl.span_eq).2
      have hn0 := h.elim id hlone
      rw [hgn] at hn0 ⊢
      exact if_neg fun he => hn0 (if_pos he)
    have hlt := prevOf_lt hl hA
    have hsame := getNext_congr (hm' (by omega) (by omega))
    rw [hsame] at hne ⊢
    exact (mem_walk_iff hl).mpr (hl.getNext_header hc hne)

/-- The block that `free` ends up with. -/
theorem release_fst {m : Mem} {mm prev next : ℕ} (hp : prev = prevOf m mm) (hne : prev ≠ mm) :
    (release m mm prev next).1 =
      if prev ≠ 0 ∧ next = 0 ∧ freeOf m prev ≠ 0 then prev else mm := by
  rw [release]
  by_cases hp0 : prev = 0
  · rw [if_pos hp0, if_neg fun h => h.1 hp0, tryMergeBack]
    split <;> rfl
  by_cases hn0 : next = 0
  · have hlink : prevOf (setFree m mm 1) mm = prev := by
      rw [hp, prevOf, setFree, put_ne (by omega), prevOf]
    have hflag : freeOf (setFree m mm 1) prev = freeOf m prev := put_ne (by omega)
    rw [if_neg hp0, if_pos hn0, tryMergeFront, hlink, hflag]
    by_cases hf : freeOf m prev ≠ 0
    · rw [if_pos hf, if_pos ⟨hp0, hn0, hf⟩]
      rfl
    · rw [if_neg hf, if_neg fun h => hf h.2.2]
  · have hmid : ¬(prev ≠ 0 ∧ next = 0 ∧ freeOf m prev ≠ 0) := fun h => hn0 h.2.1
    rw [if_neg hp0, if_neg hn0, if_neg hmid]
    split_ifs <;> rfl

/-- Where `free` leaves `next_start`: at a header still. -/
theorem free_header {h : Heap} {pre post new : List Blk} {b c : Blk} {A : ℕ}
    (hl : Layout Eq h.mem (pre ++ [b] ++ post)) (hA : A = memory + span pre) (hb : b.inUse = true)
    (hf : Freed b pre post new) (hx : BlockAt (pre ++ [b] ++ post) h.nextStart c)
    (hfront : prevOf h.mem A ≠ 0 → getNext h.mem A ≠ 0 → freeOf h.mem (prevOf h.mem A) ≠ 0 →
      h.nextStart < A) : ∃ d, BlockAt new (free h (A + sizeofMemStruct)).nextStart d := by
  obtain ⟨p, hp⟩ := hl.hdr (hA ▸ blockAt_mid pre post b)
  have hbusy : ¬freeOf h.mem A = 1 := by
    rw [hp.free, Blk.flag_of_inUse hb]
    decide
  have hlt := prevOf_lt hl hA
  have hkeep : ∀ {x : ℕ} {d : Blk}, BlockAt (pre ++ [b] ++ post) x d → x < A →
      ∃ d, BlockAt new x d := fun hat hxA => hf.header_of_lt hat (hA ▸ hxA)
  rw [free_eq h (Nat.add_sub_cancel ..).symm rfl, if_neg hbusy]
  simp only [release_fst rfl hlt.ne]
  by_cases hfree : prevOf h.mem A ≠ 0 ∧ freeOf h.mem (prevOf h.mem A) ≠ 0
  · -- the block before is free: `next_start` ends up below the block freed
    obtain ⟨hp0, hpf⟩ := hfree
    by_cases hn0 : getNext h.mem A = 0
    · simp only [if_pos (And.intro hp0 (And.intro hn0 hpf))]
      split
      · obtain ⟨pre', P, rfl, hprev⟩ := hl.prevOf_header hA hp0
        have hat : BlockAt (pre' ++ [P] ++ [b] ++ post) (prevOf h.mem A) P :=
          ⟨pre', b :: post, by simp, hprev⟩
        exact hkeep hat hlt
      · exact hkeep hx (by omega)
    · have hlow := hfront hp0 hn0 hpf
      have hmid : ¬(prevOf h.mem A ≠ 0 ∧ getNext h.mem A = 0 ∧ freeOf h.mem (prevOf h.mem A) ≠ 0) :=
        fun h => hn0 h.2.1
      rw [if_neg hmid, if_neg (by omega)]
      exact hkeep hx hlow
  · -- it is not, and the block freed keeps its header
    have hself : ∃ d, BlockAt new A d := by
      rw [hA]
      refine hf.header_self fun pre' P heq => ?_
      subst heq
      have hprev := hl.prevOf_eq hA
      rw [lastFrom_concat] at hprev
      have hat : BlockAt (pre' ++ [P] ++ [b] ++ post) (prevOf h.mem A) P :=
        ⟨pre', b :: post, by simp, hprev⟩
      obtain ⟨q, hP⟩ := hl.hdr hat
      by_contra hfreeP
      refine hfree ⟨by rw [hprev, memory]; omega, ?_⟩
      rw [hP.free]
      exact Blk.flag_ne_zero_iff.mpr (by simpa using hfreeP)
    have hmid : ¬(prevOf h.mem A ≠ 0 ∧ getNext h.mem A = 0 ∧ freeOf h.mem (prevOf h.mem A) ≠ 0) :=
      fun h => hfree ⟨h.1, h.2.2⟩
    rw [if_neg hmid]
    split
    · exact hself
    · rcases Nat.lt_or_ge h.nextStart A with hlo | hhi
      · exact hkeep hx hlo
      · rwa [show h.nextStart = A by omega]

/-- A header below a block is not above the header before it. -/
theorem BlockAt.le_prevOf {m : Mem} {pre post : List Blk} {b c : Blk} {A x : ℕ}
    (hx : BlockAt (pre ++ [b] ++ post) x c) (hl : Layout Eq m (pre ++ [b] ++ post))
    (hA : A = memory + span pre) (hp0 : prevOf m A ≠ 0) (hlt : x < A) : x ≤ prevOf m A := by
  obtain ⟨pre', P, rfl, hprev⟩ := hl.prevOf_header hA hp0
  rw [span_append, span_cons, span_nil] at hA
  have hat : BlockAt (pre' ++ [P] ++ [b] ++ post) (prevOf m A) P :=
    ⟨pre', b :: post, by simp, hprev⟩
  by_contra hgt
  rcases hx.apart hat (by omega) with h | h
  · omega
  · omega

/-- **A call of `free`** that meets the condition keeps the invariant and touches headers
only. -/
theorem NextInv.free {s : Sys} {p : ℕ} (hs : NextInv s) (hp : p ∈ s.live.map Prod.fst)
    (hok : NextSafe s (.free p)) :
    ∃ s', HeapStep s (.free p) s' ∧ NextInv s' ∧ ∀ a ∈ accesses s (.free p),
      a ∈ walk s.heap.mem := by
  obtain ⟨bs, hl, ⟨d, hd⟩, hlive⟩ := hs
  obtain ⟨A, ⟨b, hat, hb⟩, rfl⟩ := (hlive p).mp hp
  obtain ⟨pre, post, rfl, hA⟩ := blockAt_iff_blockIn.mpr hat
  rw [List.append_cons] at hl hd
  simp only [List.append_cons pre b post] at hlive
  simp only [NextSafe, Nat.add_sub_cancel] at hok
  obtain ⟨new, hf, hlay, -⟩ := free_layout (fun _ => rfl) hl hA hb (fun _ => Or.inl)
    (fun hp0 hn0 => absurd hn0 (hok.1 hp0))
    (fun hp0 hn0 hpf _ => hd.le_prevOf hl hA hp0 (hok.2 hp0 hn0 hpf)) (Or.inr (Or.inl ⟨d, hd⟩))
  refine ⟨_, by rw [HeapStep, StepOf, heapStep, if_pos hp], ⟨new, hlay, ?_, fun q => ?_⟩,
    fun a ha => ?_⟩
  · exact free_header hl hA hb hf hd hok.2
  · have hfilter : q ∈ (s.live.filter fun r => r.1 ≠ A + sizeofMemStruct).map Prod.fst ↔
        q ∈ s.live.map Prod.fst ∧ q ≠ A + sizeofMemStruct := by
      simp only [List.mem_map, List.mem_filter, decide_eq_true_eq]
      constructor
      · rintro ⟨r, ⟨hr, hne⟩, rfl⟩
        exact ⟨⟨r, hr, rfl⟩, hne⟩
      · rintro ⟨⟨r, hr, rfl⟩, hne⟩
        exact ⟨r, ⟨hr, hne⟩, rfl⟩
    rw [hfilter, hlive]
    simp only [hf.usedAt, ← hA]
    constructor
    · rintro ⟨⟨a, ha, rfl⟩, hne⟩
      exact ⟨a, ⟨ha, fun h => hne (by rw [h])⟩, rfl⟩
    · rintro ⟨a, ⟨ha, hne⟩, rfl⟩
      exact ⟨⟨a, ha, rfl⟩, fun h => hne (Nat.add_right_cancel h)⟩
  · exact (runs_freeL (Nat.add_sub_cancel ..).symm (releaseIn_headers hl hA hok.1)).touched a ha

/-! ### Runs -/

/-- **One call keeps the invariant, and touches headers only.** -/
theorem NextInv.call {s : Sys} {op : HeapOp} (hs : NextInv s) (hc : Contract s op)
    (hok : NextSafe s op) : ∃ s', HeapStep s op s' ∧ NextInv s' ∧
      ∀ a ∈ accesses s op, a ∈ walk s.heap.mem ∨ a ∈ walk s'.heap.mem := by
  cases op with
  | malloc size => exact hs.malloc hc.1 hc.2 hok
  | free p =>
    obtain ⟨s', hstep, hinv, htouch⟩ := hs.free hc hok
    exact ⟨s', hstep, hinv, fun a ha => Or.inl (htouch a ha)⟩

/-- A step is a call that keeps to the contract. -/
theorem contract_of_step {s s' : Sys} {op : HeapOp} (h : HeapStep s op s') : Contract s op := by
  cases op with
  | malloc size =>
    rw [HeapStep, StepOf, heapStep] at h
    by_contra hc
    rw [if_neg (show ¬(0 < size ∧ size ≤ memSize) from hc)] at h
    cases h
  | free p =>
    rw [HeapStep, StepOf, heapStep] at h
    by_contra hc
    rw [if_neg (show ¬p ∈ s.live.map Prod.fst from hc)] at h
    cases h

theorem NextInv.step {s s' : Sys} {op : HeapOp} (hs : NextInv s) (hok : NextSafe s op)
    (h : HeapStep s op s') : NextInv s' := by
  obtain ⟨t, ht, hinv, -⟩ := hs.call (contract_of_step h) hok
  rwa [Option.some.inj (ht.symm.trans h)] at hinv

/-- **Searches start at a block header**: in every run whose calls are `NextSafe`, in every
state reached `next_start` is a header of the walk, and the next such call returns and
touches headers only. -/
theorem nextStart_of_reach (m : Mem) {s : Sys} (hs : Reach HeapStep NextSafe (heapStart m) s) :
    s.heap.nextStart ∈ walk s.heap.mem ∧
      ∀ op, Contract s op → NextSafe s op → HeadersOnly s op := by
  have hinv : NextInv s := hs.invariant (nextInv_start m) fun _ _ _ h hok hstep => h.step hok hstep
  refine ⟨?_, fun op hc hok => ?_⟩
  · obtain ⟨bs, hl, hx, -⟩ := hinv
    exact (mem_walk_iff hl).mpr hx
  · obtain ⟨s', hstep, -, htouch⟩ := hinv.call hc hok
    exact ⟨s', hstep, htouch⟩

/-- A run that splits, refills a block exactly and merges with both neighbours. -/
theorem nextStart_of_reach_merge : ∃ s, Reach HeapStep NextSafe (heapStart fun _ => 0) s ∧
    s.live.length = 1 ∧ s.heap.nextStart ∈ walk s.heap.mem ∧ HeadersOnly s (.malloc 1) := by
  have h : ((runOf heapStep NextSafe [.malloc 100, .malloc 100, .malloc 60, .free 8388620,
      .malloc 100, .free 8388620, .free 8388732, .malloc 1, .free 8388620]
      (heapStart fun _ => 0)).map fun s => (s.live.length, decide (NextSafe s (.malloc 1)))) =
        some (1, true) := by
    decide +kernel
  obtain ⟨s, hrun, hs⟩ := Option.map_eq_some_iff.mp h
  obtain ⟨hlen, hok⟩ := Prod.mk.inj hs
  have hreach := reach_of_runOf .start hrun
  obtain ⟨hstart, hcall⟩ := nextStart_of_reach _ hreach
  exact ⟨s, hreach, hlen, hstart, hcall (.malloc 1) ⟨by decide, by decide⟩ (of_decide_eq_true hok)⟩

/-- **The whole arena leaves no place to search from.** `malloc(MEM_SIZE - 12)` hands out
the only block and puts `next_start` at `NULL`; the next `malloc` loads the size of the
block there. -/
theorem not_nextStart : ¬∀ (m : Mem) (s : Sys),
    Reach HeapStep (fun _ _ => True) (heapStart m) s → s.heap.nextStart ∈ walk s.heap.mem ∧
      ∀ op, Contract s op → HeadersOnly s op := by
  intro hall
  have hbad : ((runOf heapStep (fun _ _ => True) [.malloc 1048564] (heapStart fun _ => 0)).map
      fun s => (s.heap.nextStart, walk s.heap.mem, accesses s (.malloc 1))) =
        some (0, [8388608], [0]) := by
    decide +kernel
  obtain ⟨s, hrun, hs⟩ := Option.map_eq_some_iff.mp hbad
  obtain ⟨hstart, hrest⟩ := Prod.mk.inj hs
  have hmem := (hall _ s (reach_of_runOf .start hrun)).1
  rw [hstart, (Prod.mk.inj hrest).1] at hmem
  exact absurd hmem (by decide)

end Thunix.Mm
