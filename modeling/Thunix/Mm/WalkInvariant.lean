import Thunix.Mm.NoOverlap

/-!
# The walk over the heap

The representation invariant of the heap, stated by the walk the allocator itself
makes: follow `get_next` from `memory` and look at the headers on the way.
`Thunix.Mm.WalkOk` says that their sizes are right and add up to the arena, that
each back link names the header visited before, and that the blocks whose `free`
word is 0 are the live pointers.

The invariant is broken by `malloc` itself when the block found is 4 bytes larger
than needed and another block follows: the size of the remainder is written before
it is found too small, and its size field is the back link of that block
(`Thunix.Mm.not_walkOk`). It is also broken where live blocks come to overlap, and
by a release of the only block of the heap, which reads the `free` word of `NULL`.
`Thunix.Mm.WalkSafe` is the condition that keeps clear of these.
-/

namespace Thunix.Mm

/-- The headers `get_next` visits from `a` on. -/
def walkFrom (m : Mem) : ℕ → ℕ → List ℕ
  | 0, _ => []
  | fuel + 1, a => if a = 0 then [] else a :: walkFrom m fuel (getNext m a)

/-- The headers of the heap. -/
def walk (m : Mem) : List ℕ := walkFrom m walkFuel memory

/-- **The representation invariant.** -/
structure WalkOk (s : Sys) : Prop where
  /-- Sizes are multiples of 4 and hold a header. -/
  sizes : ∀ a ∈ walk s.heap.mem, (sizeofMemStruct : ℤ) ≤ sizeOf s.heap.mem a ∧
    sizeOf s.heap.mem a % 4 = 0
  /-- They add up to the arena. -/
  total : ((walk s.heap.mem).map (sizeOf s.heap.mem)).sum = memSize
  /-- Each back link is the header visited just before, `NULL` for the first. -/
  links : (walk s.heap.mem).map (prevOf s.heap.mem) = 0 :: (walk s.heap.mem).dropLast
  /-- The blocks in use are the live pointers. -/
  inUse : ∀ a, a ∈ walk s.heap.mem ∧ freeOf s.heap.mem a = 0 ↔
    a + sizeofMemStruct ∈ s.live.map Prod.fst

/-- The condition on a call. Beyond `OverlapSafe`, a block that `malloc` finds is not
exactly 4 bytes too large unless it is the last, and `free` is not called on the
only block of the heap while the word at address 8 is not 0. -/
def WalkSafe (s : Sys) : HeapOp → Prop
  | .malloc size => NoFallThrough s.heap size ∧
      ∀ g ∈ firstFit s.heap.mem (sizeNeeded size) walkFuel s.heap.nextStart,
        g ≠ 0 → sizeOf s.heap.mem g = sizeNeeded size + 4 → getNext s.heap.mem g = 0
  | .free p =>
    let m := s.heap.mem
    let mm := p - sizeofMemStruct
    (prevOf m mm ≠ 0 → getNext m mm ≠ 0 → freeOf m (prevOf m mm) ≠ 0 →
      freeOf m (getNext m mm) ≠ 0 → s.heap.nextStart ≤ prevOf m mm) ∧
    (prevOf m mm = 0 → getNext m mm = 0 → m 8 = 0)

instance : ∀ s op, Decidable (WalkSafe s op)
  | _, .malloc _ => inferInstanceAs (Decidable (_ ∧ _))
  | _, .free _ => inferInstanceAs (Decidable (_ ∧ _))

/-! ### The invariant on the blocks -/

/-- The invariant: the blocks tile the arena, with the right back links. -/
def WalkInv (s : Sys) : Prop :=
  ∃ bs, Layout Eq s.heap.mem bs ∧ NextOk s.heap.mem bs s.heap.nextStart ∧ LiveOk bs s.live

theorem walkInv_start (m : Mem) : WalkInv (heapStart m) := by
  obtain ⟨b, hb, hl, hx⟩ := layout_mallocInit (R := Eq) rfl m
  refine ⟨[b], hl, hx, by simp [heapStart], fun a c hc huse => ?_⟩
  rw [blockAt_iff_blockIn] at hc
  simp only [blockIn_cons, blockIn_nil, or_false] at hc
  rw [hc.2, hb] at huse
  cases huse

/-- **One call keeps the invariant.** -/
theorem WalkInv.step {s s' : Sys} {op : HeapOp} (hs : WalkInv s) (hok : WalkSafe s op)
    (h : HeapStep s op s') : WalkInv s' := by
  obtain ⟨bs, hl, hx, hlive⟩ := hs
  cases op with
  | malloc size =>
    rw [HeapStep, StepOf, heapStep] at h
    by_cases hsize : 0 < size ∧ size ≤ memSize
    · obtain ⟨r, hr, hcase⟩ := malloc_blocks (fun _ => rfl) hl hx hsize.1 hsize.2 hok.1
        fun g hg hg0 h4 hn => absurd (hok.2 g hg hg0 h4) hn
      rw [if_pos hsize, hr] at h
      obtain rfl := Option.some.inj h
      rcases hcase with rfl | ⟨pre, b, post, new, need, hh⟩
      · exact ⟨bs, hl, hx, by simpa using hlive⟩
      · have hr0 : r.1 ≠ 0 := by rw [hh.ptr, sizeofMemStruct]; omega
        simp only [if_neg hr0]
        exact ⟨_, hh.layout, hh.next,
          hh.ptr ▸ (hh.blocks ▸ hlive).malloc hh.carved hh.free hh.fits hh.room rfl⟩
    · rw [if_neg hsize] at h
      cases h
  | free p =>
    rw [HeapStep, StepOf, heapStep] at h
    by_cases hp : p ∈ s.live.map Prod.fst
    · rw [if_pos hp] at h
      obtain rfl := Option.some.inj h
      obtain ⟨pre, b, post, rfl, hb, rfl⟩ := hlive.split hp
      simp only [WalkSafe, Nat.add_sub_cancel] at hok
      obtain ⟨new, hf, hlay, hnext⟩ := free_layout (fun _ => rfl) hl rfl hb (fun _ => Or.inl) hok.2
        hok.1 hx
      exact ⟨new, hlay, hnext, hlive.free hf rfl⟩
    · rw [if_neg hp] at h
      cases h

/-! ### Reading the walk off the blocks -/

/-- The addresses of the blocks of a list laid out from `a`. -/
def addrs : ℕ → List Blk → List ℕ
  | _, [] => []
  | a, b :: bs => a :: addrs (a + b.size) bs

theorem mem_addrs {a base : ℕ} {bs : List Blk} :
    a ∈ addrs base bs ↔ ∃ b, BlockIn base bs a b := by
  induction bs generalizing base with
  | nil => simp [addrs]
  | cons b bs ih =>
    rw [addrs, List.mem_cons, ih]
    constructor
    · rintro (rfl | ⟨c, hc⟩)
      · exact ⟨b, Or.inl ⟨rfl, rfl⟩⟩
      · exact ⟨c, Or.inr hc⟩
    · rintro ⟨c, ⟨rfl, -⟩ | hc⟩
      · exact Or.inl rfl
      · exact Or.inr ⟨c, hc⟩

variable {m : Mem} {a p : ℕ} {bs : List Blk}

/-- **The walk visits the blocks.** -/
theorem walkFrom_seg {R : ℕ → ℕ → Prop} {fuel : ℕ} (h : Seg R m a p bs)
    (he : a + span bs = memEnd) (ha : 0 < a) (hf : memEnd < a + 16 * fuel) :
    walkFrom m fuel (if bs = [] then 0 else a) = addrs a bs := by
  induction bs generalizing a p fuel with
  | nil =>
    obtain ⟨fuel, rfl⟩ : ∃ f, fuel = f + 1 := ⟨fuel - 1, by simp at he; omega⟩
    rw [if_pos rfl, walkFrom, if_pos rfl, addrs]
  | cons b bs ih =>
    rw [span_cons] at he
    have hb := b.min_le
    obtain ⟨fuel, rfl⟩ : ∃ f, fuel = f + 1 := ⟨fuel - 1, by omega⟩
    rw [if_neg (by simp), walkFrom, if_neg (by omega), addrs,
      h.getNext_eq (by rw [span_cons]; exact he),
      ih h.2 (by omega) (by omega) (by omega)]

theorem sum_sizeOf (h : Seg Eq m a p bs) (he : a + span bs = memEnd) :
    ((addrs a bs).map (sizeOf m)).sum = span bs := by
  have hend : memEnd = 0x900000 := rfl
  induction bs generalizing a p with
  | nil => simp [addrs]
  | cons b bs ih =>
    rw [span_cons] at he
    rw [addrs, List.map_cons, List.sum_cons, ih h.2 (by omega), h.1.sizeOf_eq (by omega), span_cons,
      Nat.cast_add]

/-- The back links of a segment are the header before, then those of the segment
but the last. -/
theorem map_prevOf (h : Seg Eq m a p bs) (hne : bs ≠ []) :
    (addrs a bs).map (prevOf m) = p :: (addrs a bs).dropLast := by
  induction bs generalizing a p with
  | nil => exact absurd rfl hne
  | cons b bs ih =>
    rw [addrs, List.map_cons, h.1.prev]
    cases bs with
    | nil => simp [addrs]
    | cons c cs =>
      rw [ih h.2 (by simp)]
      simp [addrs]

theorem Layout.ne_nil {R : ℕ → ℕ → Prop} (hl : Layout R m bs) : bs ≠ [] := by
  rintro rfl
  have hsz : memSize = 0x100000 := rfl
  have := hl.span_eq
  rw [span_nil] at this
  omega

theorem walk_eq {R : ℕ → ℕ → Prop} (hl : Layout R m bs) : walk m = addrs memory bs := by
  have hend : memEnd = memory + memSize := rfl
  have hsz : memSize = 0x100000 := rfl
  have hmem : memory = 0x800000 := rfl
  have hwalk := walkFrom_seg hl.seg (by rw [hl.span_eq, hend]) (by omega)
    (show memEnd < memory + 16 * walkFuel by rw [walkFuel]; omega)
  rwa [if_neg hl.ne_nil] at hwalk

/-- **The headers of the walk are those of the blocks.** -/
theorem mem_walk_iff {R : ℕ → ℕ → Prop} (hl : Layout R m bs) :
    a ∈ walk m ↔ ∃ b, BlockAt bs a b := by
  rw [walk_eq hl, mem_addrs]
  simp only [blockAt_iff_blockIn]

/-- The invariant on the blocks is the invariant on the walk. -/
theorem WalkInv.walkOk {s : Sys} (hs : WalkInv s) : WalkOk s := by
  obtain ⟨bs, hl, -, hlive⟩ := hs
  have hend : memEnd = memory + memSize := rfl
  have hsz : memSize = 0x100000 := rfl
  have hmem : memory = 0x800000 := rfl
  have h12 : sizeofMemStruct = 12 := rfl
  have htot : memory + span bs = memEnd := by rw [hl.span_eq, hend]
  refine ⟨fun a ha => ?_, ?_, ?_, fun a => ⟨?_, ?_⟩⟩
  · obtain ⟨b, hb⟩ := (mem_walk_iff hl).mp ha
    obtain ⟨p, hp⟩ := hl.hdr hb
    have hbound := hb.bound hl.span_eq
    have h16 := b.min_le
    have h4 := b.four_dvd
    rw [hp.sizeOf_eq (by omega)]
    omega
  · rw [walk_eq hl, sum_sizeOf hl.seg htot, hl.span_eq]
  · rw [walk_eq hl, map_prevOf hl.seg hl.ne_nil]
  · rintro ⟨ha, hfree⟩
    obtain ⟨b, hb⟩ := (mem_walk_iff hl).mp ha
    obtain ⟨p, hp⟩ := hl.hdr hb
    have hbuse : b.inUse = true := by
      by_contra hc
      rw [hp.free, Blk.flag_of_not_inUse (by simpa using hc)] at hfree
      exact absurd hfree (by decide)
    obtain ⟨q, hq, heq⟩ := hlive.live a b hb hbuse
    exact List.mem_map.mpr ⟨q, hq, heq⟩
  · intro ha
    obtain ⟨q, hq, heq⟩ := List.mem_map.mp ha
    obtain ⟨b, hb, hbuse, -, -⟩ := hlive.block q hq
    rw [heq, Nat.add_sub_cancel] at hb
    obtain ⟨p, hp⟩ := hl.hdr hb
    exact ⟨(mem_walk_iff hl).mpr ⟨b, hb⟩, by rw [hp.free, Blk.flag_of_inUse hbuse]⟩

/-- **The representation invariant**: in every run whose calls are `WalkSafe`, every
state reached satisfies it. -/
theorem walkOk_of_reach (m : Mem) {s : Sys} (hs : Reach HeapStep WalkSafe (heapStart m) s) :
    WalkOk s :=
  (hs.invariant (walkInv_start m) fun _ _ _ h hok hstep => h.step hok hstep).walkOk

/-- The invariant in a state that has split, merged and refilled blocks. -/
theorem walkOk_of_reach_refill : ∃ s, Reach HeapStep WalkSafe (heapStart fun _ => 0) s ∧
    s.live.length = 2 ∧ WalkOk s := by
  have h : ((runOf heapStep WalkSafe [.malloc 100, .malloc 100, .malloc 60, .free 8388620,
      .free 8388732, .malloc 40] (heapStart fun _ => 0)).map fun s => s.live.length) = some 2 := by
    decide +kernel
  obtain ⟨s, hrun, hs⟩ := Option.map_eq_some_iff.mp h
  have hreach := reach_of_runOf .start hrun
  exact ⟨s, hreach, hs, walkOk_of_reach _ hreach⟩

/-- **A remainder of 4 bytes overlays a back link.** After `a = malloc(100)`,
`malloc(100)`, `free(a)` and `malloc(96)` the header of the second block says that
the block before it is at address 4. -/
theorem not_walkOk : ¬∀ (m : Mem) (s : Sys), Reach HeapStep (fun _ _ => True) (heapStart m) s →
    WalkOk s := by
  intro hall
  have hbad : ((runOf heapStep (fun _ _ => True) [.malloc 100, .malloc 100, .free 8388620,
      .malloc 96] (heapStart fun _ => 0)).map fun s =>
        ((walk s.heap.mem).map (prevOf s.heap.mem), walk s.heap.mem)) =
      some ([0, 4, 8388720], [8388608, 8388720, 8388832]) := by
    decide +kernel
  obtain ⟨s, hrun, hs⟩ := Option.map_eq_some_iff.mp hbad
  obtain ⟨hprev, hwalk⟩ := Prod.mk.inj hs
  have hlinks := (hall _ s (reach_of_runOf .start hrun)).links
  rw [hprev, hwalk] at hlinks
  exact absurd hlinks (by decide)

end Thunix.Mm
