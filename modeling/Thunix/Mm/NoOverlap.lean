import Thunix.Mm.System

/-!
# Live blocks do not overlap

The safety property of the heap: whatever `malloc` returns is room for the
request, inside the arena, and apart from the header and the payload of every
live block. It fails in two ways, both through `next_start`:

* the search finds nothing, `good` is still `next_start`, and `next_start` is a
  block in use that happens to be large enough – it is handed out a second time
  (`Thunix.Mm.not_noOverlap`);
* `free` merges a block with both its neighbours and leaves `next_start` at one of
  the headers that have disappeared, and the search later hands out a block that
  lies inside a free one.

`Thunix.Mm.OverlapSafe` is the condition on a call that keeps clear of both, and of
back links overlaid by the size of a 4-byte remainder. `Thunix.Mm.malloc_noOverlap`
is the property in every run of such calls.
-/

namespace Thunix.Mm

/-- The payload bytes of the block whose payload starts at `p`. -/
def capacity (h : Heap) (p : ℕ) : ℤ := sizeOf h.mem (p - sizeofMemStruct) - sizeofMemStruct

/-- A pointer just returned, for a request of `size` bytes in state `s`, with the
heap `h` after the call. -/
structure PayloadOk (s : Sys) (size : ℤ) (p : ℕ) (h : Heap) : Prop where
  /-- There is room for the request. -/
  room : size ≤ capacity h p
  /-- The header is inside the arena. -/
  lo : memory + sizeofMemStruct ≤ p
  /-- So is the payload. -/
  hi : p + capacity h p ≤ memEnd
  /-- The payload is apart from the header and the payload of every live block. -/
  apart : ∀ q ∈ s.live, p + capacity h p ≤ q.1 - sizeofMemStruct ∨ q.1 + capacity h q.1 ≤ p
  /-- Live blocks have kept their room. -/
  kept : ∀ q ∈ s.live, q.2 ≤ capacity h q.1

/-- The condition on a call. `malloc` does not fall through to `next_start`; `free`
does not merge with both neighbours when `next_start` lies beyond the block before,
and does not follow a back link that reads 4 to a word that is not 0. -/
def OverlapSafe (s : Sys) : HeapOp → Prop
  | .malloc size => NoFallThrough s.heap size
  | .free p =>
    let m := s.heap.mem
    let mm := p - sizeofMemStruct
    (prevOf m mm ≠ 0 → getNext m mm ≠ 0 → freeOf m (prevOf m mm) ≠ 0 →
      freeOf m (getNext m mm) ≠ 0 → s.heap.nextStart ≤ prevOf m mm) ∧
    (prevOf m mm = 4 → freeOf m 4 = 0)

instance : ∀ s op, Decidable (OverlapSafe s op)
  | s, .malloc size => inferInstanceAs (Decidable (NoFallThrough s.heap size))
  | _, .free _ => inferInstanceAs (Decidable (_ ∧ _))

/-! ### The invariant -/

/-- The back link stored is right, or has been overlaid by a remainder of 4. -/
def Overlaid (v p : ℕ) : Prop := v = p ∨ v = 4 ∧ p ≠ 0

/-- The invariant: the allocator has given up, or its blocks tile the arena. A lone
block in use is one the allocator gave up on. -/
def OverlapInv (s : Sys) : Prop :=
  s.heap.nextStart = 0 ∨ ∃ bs, Layout Overlaid s.heap.mem bs ∧
    NextOk s.heap.mem bs s.heap.nextStart ∧ LiveOk bs s.live ∧
    ∀ b, bs = [b] → b.inUse = false

theorem overlaid_refl (p : ℕ) : Overlaid p p := Or.inl rfl

theorem overlaid_four {p : ℕ} (h : p ≠ 0) : Overlaid 4 p := Or.inr ⟨rfl, h⟩

/-- With `next_start` at `NULL`, a `malloc` that does not fall through returns
`NULL`. -/
theorem malloc_of_nextStart_eq_zero {h : Heap} {size : ℤ} (hx : h.nextStart = 0)
    (hfall : NoFallThrough h size) : malloc h size = some (0, h) := by
  have hff : firstFit h.mem (sizeNeeded size) walkFuel h.nextStart = some 0 := by
    rw [hx, show walkFuel = 0x20000 from rfl]
    simp [firstFit]
  have hsmall := hfall hff
  simp only [malloc, hff, Option.bind_eq_bind, Option.bind_some, goodOf, if_pos, if_pos hsmall]
  rfl

theorem free_nextStart_eq_zero {h : Heap} {p : ℕ} (hx : h.nextStart = 0) :
    (free h p).nextStart = 0 := by
  rw [free]
  split
  · exact hx
  · simp [hx]

/-- A block with neither a back link nor a next block is the only one. -/
theorem Layout.eq_singleton {m : Mem} {pre post : List Blk} {b : Blk}
    (h : Layout Overlaid m (pre ++ [b] ++ post)) (hp : prevOf m (memory + span pre) = 0)
    (hn : getNext m (memory + span pre) = 0) : pre ++ [b] ++ post = [b] := by
  have hend : memEnd = memory + memSize := rfl
  have hmem : memory = 0x800000 := rfl
  have hspan := h.span_eq
  simp only [span_append, span_cons, span_nil] at hspan
  have hseg : Seg Overlaid m (memory + span pre) (lastFrom memory 0 pre) (b :: post) :=
    (seg_append.mp (by simpa using h.seg : Seg Overlaid m memory 0 (pre ++ b :: post))).2
  have hpost : post = [] := by
    by_contra hne
    rw [hseg.getNext_eq (by rw [span_cons]; omega), if_neg hne] at hn
    omega
  have hpre : pre = [] := by
    rcases List.eq_nil_or_concat pre with h | ⟨pre', P, rfl⟩
    · exact h
    · rcases hseg.1.prev with hv | ⟨hv, -⟩
      · rw [hp, List.concat_eq_append, lastFrom_concat] at hv
        omega
      · rw [hp] at hv
        cases hv
  rw [hpost, hpre]
  rfl

/-- What a call of `malloc` does to a state that satisfies the invariant. -/
theorem OverlapInv.malloc {s : Sys} {size : ℤ} (hs : OverlapInv s) (h0 : 0 < size)
    (hle : size ≤ memSize) (hok : OverlapSafe s (.malloc size)) :
    ∃ r, Mm.malloc s.heap size = some r ∧ (r = (0, s.heap) ∨
      ∃ bs pre b post new need, Handout Overlaid bs size r pre b post new need ∧
        LiveOk bs s.live) := by
  rcases hs with hx | ⟨bs, hl, hx, hlive, -⟩
  · exact ⟨_, malloc_of_nextStart_eq_zero hx hok, Or.inl rfl⟩
  · obtain ⟨r, hr, hcase⟩ := malloc_blocks overlaid_refl hl hx h0 hle hok
      fun g _ hg _ _ => overlaid_four hg
    exact ⟨r, hr, hcase.imp id fun ⟨pre, b, post, new, need, hh⟩ =>
      ⟨bs, pre, b, post, new, need, hh, hlive⟩⟩

/-- **One call keeps the invariant.** -/
theorem OverlapInv.step {s s' : Sys} {op : HeapOp} (hs : OverlapInv s) (hok : OverlapSafe s op)
    (h : HeapStep s op s') : OverlapInv s' := by
  cases op with
  | malloc size =>
    rw [HeapStep, StepOf, heapStep] at h
    by_cases hsize : 0 < size ∧ size ≤ memSize
    · obtain ⟨r, hr, hcase⟩ := hs.malloc hsize.1 hsize.2 hok
      rw [if_pos hsize, hr] at h
      obtain rfl := Option.some.inj h
      rcases hcase with rfl | ⟨bs, pre, b, post, new, need, hh, hlive⟩
      · simpa using hs
      · have hlive' := (hh.blocks ▸ hlive).malloc hh.carved hh.free hh.fits hh.room rfl
        have hr0 : r.1 ≠ 0 := by rw [hh.ptr, sizeofMemStruct]; omega
        simp only [if_neg hr0]
        by_cases hz : r.2.nextStart = 0
        · exact Or.inl hz
        · refine Or.inr ⟨_, hh.layout, hh.next, hh.ptr ▸ hlive', fun c hc => ?_⟩
          rcases hh.carved with _ | ⟨u, v, -, -, -, -⟩
          · have hnil : post = [] := by
              have := congrArg List.length hc
              simp only [List.length_append, List.length_cons, List.length_nil] at this
              exact List.length_eq_zero_iff.mp (by omega)
            exact absurd (hh.last rfl hnil) hz
          · have := congrArg List.length hc
            simp only [List.length_append, List.length_cons, List.length_nil] at this
            omega
    · rw [if_neg hsize] at h
      cases h
  | free p =>
    rw [HeapStep, StepOf, heapStep] at h
    by_cases hp : p ∈ s.live.map Prod.fst
    · rw [if_pos hp] at h
      obtain rfl := Option.some.inj h
      rcases hs with hx | ⟨bs, hl, hx, hlive, hone⟩
      · exact Or.inl (free_nextStart_eq_zero hx)
      · obtain ⟨pre, b, post, rfl, hb, rfl⟩ := hlive.split hp
        simp only [OverlapSafe, Nat.add_sub_cancel] at hok
        obtain ⟨new, hf, hlay, hnext⟩ := free_layout overlaid_refl hl rfl hb
          (fun p hR => hR.imp id fun ⟨h4, hp0⟩ => by
            rw [h4]; exact ⟨by omega, by decide, hp0, hok.2 h4⟩)
          (fun hp0 hn0 => absurd (hone b (hl.eq_singleton hp0 hn0)) (by simp [hb])) hok.1 hx
        refine Or.inr ⟨new, hlay, hnext, hlive.free hf rfl, ?_⟩
        rintro c rfl
        obtain ⟨d, hd, hfree⟩ := hf.exists_free
        rwa [List.mem_singleton.mp hd] at hfree
    · rw [if_neg hp] at h
      cases h

theorem overlapInv_start (m : Mem) : OverlapInv (heapStart m) := by
  obtain ⟨b, hb, hl, hx⟩ := layout_mallocInit (overlaid_refl 0) m
  refine Or.inr ⟨[b], hl, hx, ⟨by simp [heapStart], fun a c hc huse => ?_⟩, by simp [hb]⟩
  rw [blockAt_iff_blockIn] at hc
  simp only [blockIn_cons, blockIn_nil, or_false] at hc
  rw [hc.2, hb] at huse
  cases huse

/-! ### The property -/

/-- The capacity of a block in use. -/
theorem Layout.capacity_eq {R : ℕ → ℕ → Prop} {h : Heap} {bs : List Blk} {a : ℕ} {b : Blk}
    (hl : Layout R h.mem bs) (hb : BlockAt bs a b) :
    capacity h (a + sizeofMemStruct) = b.size - sizeofMemStruct := by
  have hsz : memSize = 0x100000 := rfl
  have hend : memEnd = memory + memSize := rfl
  obtain ⟨p, hp⟩ := hl.hdr hb
  have := hb.bound hl.span_eq
  rw [capacity, Nat.add_sub_cancel, hp.sizeOf_eq (by omega)]

/-- A block that has been handed out is as it should be. -/
theorem Handout.payloadOk {R : ℕ → ℕ → Prop} {s : Sys} {size : ℤ} {r : ℕ × Heap} {need : ℕ}
    {b : Blk} {bs pre post new : List Blk} (h : Handout R bs size r pre b post new need)
    (hlive : LiveOk bs s.live) : PayloadOk s size r.1 r.2 := by
  have h12 : sizeofMemStruct = 12 := rfl
  obtain ⟨u, hu, huse, hneed⟩ := h.carved.head h.fits
  have huat : BlockAt (pre ++ new ++ post) (memory + span pre) u :=
    (h.carved.inUse_iff h.free huse).mpr (Or.inr ⟨rfl, hu⟩)
  have hcap := h.layout.capacity_eq huat
  rw [← h.ptr] at hcap
  have hroom := h.room
  have hbound := huat.bound h.layout.span_eq
  have hptr := h.ptr
  -- a live block is still there, apart from the new one
  have hold : ∀ q ∈ s.live, ∃ c, BlockAt (pre ++ new ++ post) (q.1 - sizeofMemStruct) c ∧
      q.2 + sizeofMemStruct ≤ c.size ∧ memory + sizeofMemStruct ≤ q.1 ∧
      q.1 - sizeofMemStruct ≠ memory + span pre := by
    intro q hq
    obtain ⟨c, hc, hcuse, hlo, hcroom⟩ := hlive.block q hq
    rw [h.blocks] at hc
    refine ⟨c, (h.carved.inUse_iff h.free hcuse).mpr (Or.inl hc), hcroom, hlo, fun he => ?_⟩
    have hbat := blockAt_mid pre post b
    rw [← he] at hbat
    rw [hc.unique hbat, h.free] at hcuse
    cases hcuse
  have hcapq : ∀ q ∈ s.live, ∀ c, BlockAt (pre ++ new ++ post) (q.1 - sizeofMemStruct) c →
      memory + sizeofMemStruct ≤ q.1 → capacity r.2 q.1 = c.size - sizeofMemStruct := by
    intro q _ c hc hlo
    have := h.layout.capacity_eq hc
    rwa [Nat.sub_add_cancel (by omega)] at this
  refine ⟨by omega, by omega, by omega, fun q hq => ?_, fun q hq => ?_⟩
  · obtain ⟨c, hc, hcroom, hlo, hne⟩ := hold q hq
    rw [hcap, hcapq q hq c hc hlo]
    rcases hc.apart huat hne with h1 | h1 <;> omega
  · obtain ⟨c, hc, hcroom, hlo, -⟩ := hold q hq
    rw [hcapq q hq c hc hlo]
    omega

/-- **Live blocks do not overlap**: in every run whose calls are `OverlapSafe`,
`malloc` returns, with `NULL` or with a pointer to enough room inside the arena
and apart from every live block. -/
theorem malloc_noOverlap (m : Mem) {s : Sys} (hs : Reach HeapStep OverlapSafe (heapStart m) s)
    {size : ℤ} (h0 : 0 < size) (hle : size ≤ memSize) (hok : OverlapSafe s (.malloc size)) :
    ∃ r, malloc s.heap size = some r ∧ (r.1 ≠ 0 → PayloadOk s size r.1 r.2) := by
  have hinv : OverlapInv s := hs.invariant (overlapInv_start m) fun _ _ _ h hok hstep =>
    h.step hok hstep
  obtain ⟨r, hr, hcase⟩ := hinv.malloc h0 hle hok
  refine ⟨r, hr, fun hr0 => ?_⟩
  rcases hcase with rfl | ⟨bs, pre, b, post, new, need, hh, hlive⟩
  · exact absurd rfl hr0
  · exact hh.payloadOk hlive

/-- A run with a request that leaves a remainder of 4 bytes: the pointer returned
is right all the same. -/
theorem malloc_noOverlap_remainder : ∃ s r,
    Reach HeapStep OverlapSafe (heapStart fun _ => 0) s ∧ s.live ≠ [] ∧
      malloc s.heap 96 = some r ∧ r.1 ≠ 0 ∧ PayloadOk s 96 r.1 r.2 := by
  have h : ((runOf heapStep OverlapSafe [.malloc 100, .malloc 100, .free 8388620]
      (heapStart fun _ => 0)).bind fun s => if OverlapSafe s (.malloc 96) ∧ s.live ≠ [] then
        (malloc s.heap 96).map Prod.fst else none) = some 8388620 := by decide +kernel
  obtain ⟨s, hrun, hs⟩ := Option.bind_eq_some_iff.mp h
  by_cases hok : OverlapSafe s (.malloc 96) ∧ s.live ≠ []
  · rw [if_pos hok] at hs
    have hreach := reach_of_runOf .start hrun
    obtain ⟨r, hr, hpay⟩ := malloc_noOverlap (fun _ => 0) hreach (by decide) (by decide) hok.1
    rw [hr] at hs
    have hr0 : r.1 ≠ 0 := by
      rw [Option.some.inj hs]
      decide
    exact ⟨s, r, hreach, hok.2, hr, hr0, hpay hr0⟩
  · rw [if_neg hok] at hs
    cases hs

/-- **A block is handed out twice.** With no condition on the calls: after
`a = malloc(100)`, `b = malloc(500000)`, `malloc(300000)`, `free(a)` and
`malloc(100)` the search for 400000 bytes finds nothing from `next_start` on, and
`next_start` is the block of `b`. -/
theorem not_noOverlap : ¬∀ (m : Mem) (s : Sys), Reach HeapStep (fun _ _ => True) (heapStart m) s →
    ∀ (size : ℤ) (p : ℕ) (h : Heap), 0 < size → size ≤ memSize → malloc s.heap size = some (p, h) →
      p ≠ 0 → PayloadOk s size p h := by
  intro hall
  have hbad : ((runOf heapStep (fun _ _ => True)
      [.malloc 100, .malloc 500000, .malloc 300000, .free 8388620, .malloc 100]
      (heapStart fun _ => 0)).bind fun s => (malloc s.heap 400000).map fun r =>
        (r.1, s.live)) = some (8388732,
          [(8388620, 100), (8888744, 300000), (8388732, 500000)]) := by
    decide +kernel
  obtain ⟨s, hrun, hs⟩ := Option.bind_eq_some_iff.mp hbad
  obtain ⟨⟨p, h⟩, hr, heq⟩ := Option.map_eq_some_iff.mp hs
  obtain ⟨rfl, hlive⟩ := Prod.mk.inj heq
  have hpay := hall _ s (reach_of_runOf .start hrun) 400000 _ h (by decide) (by decide) hr
    (by decide)
  have h12 : sizeofMemStruct = 12 := rfl
  have hroom := hpay.room
  rcases hpay.apart (8388732, 500000) (by rw [hlive]; simp) with h1 | h1 <;>
    simp only at h1 <;> omega

end Thunix.Mm
