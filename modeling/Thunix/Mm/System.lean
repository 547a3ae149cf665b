import Thunix.Lib.Run
import Thunix.Mm.Release

/-!
# Runs of the kernel heap

The heap together with what its callers know: the pointers handed out and not
yet freed, each with the size that was asked for. A caller may ask for any size
up to `MEM_SIZE` and free any pointer that is live. `Thunix.Mm.heapStep` is one
call, and it has no result when the caller breaks this contract or `malloc` does
not return.

`Thunix.Mm.LiveOk` is the tie between the two sides: live pointers and blocks in
use are the same thing. The two lemmas
`Thunix.Mm.LiveOk.malloc` and `Thunix.Mm.LiveOk.free` carry it through the changes
of the list of blocks.
-/

namespace Thunix.Mm

/-- The heap and the live pointers, with the sizes asked for. -/
structure Sys where
  /-- The allocator. -/
  heap : Heap
  /-- The pointers handed out and not yet freed. -/
  live : List (ℕ × ℤ)

/-- A call of the allocator. -/
inductive HeapOp
  /-- `malloc(size)`. -/
  | malloc (size : ℤ)
  /-- `free(p)`. -/
  | free (p : ℕ)

/-- One call, by a caller that keeps to the contract. -/
def heapStep (s : Sys) : HeapOp → Option Sys
  | .malloc size =>
    if 0 < size ∧ size ≤ memSize then
      (malloc s.heap size).map fun r =>
        { heap := r.2, live := if r.1 = 0 then s.live else (r.1, size) :: s.live }
    else none
  | .free p =>
    if p ∈ s.live.map Prod.fst then
      some { heap := free s.heap p, live := s.live.filter fun q => q.1 ≠ p }
    else none

/-- After `malloc_init`, over a memory that held `m`. -/
def heapStart (m : Mem) : Sys := { heap := mallocInit m, live := [] }

/-- The steps of the system, as a relation. -/
abbrev HeapStep : Sys → HeapOp → Sys → Prop := StepOf heapStep

/-! ### The size of a request -/

theorem sizeNeeded_eq {size : ℤ} (h0 : 0 < size) (h : size ≤ memSize) :
    ∃ n : ℕ, sizeNeeded size = n ∧ size + sizeofMemStruct ≤ n ∧ 16 ≤ n ∧ n % 4 = 0 := by
  have hsz : memSize = 0x100000 := rfl
  have h12 : sizeofMemStruct = 12 := rfl
  refine ⟨(size.toNat + 15) / 4 * 4, ?_, by omega, by omega, by omega⟩
  have hu : ((size % 2 ^ 32).toNat + sizeofMemStruct + 3) % 2 ^ 32 = size.toNat + 15 := by
    rw [h12]
    omega
  rw [sizeNeeded]
  simp only [hu]
  rw [toInt_of_lt (by rw [toNat_ofNat_of_lt] <;> omega), toNat_ofNat_of_lt (by omega)]

/-! ### Live pointers and blocks in use -/

/-- The live pointers are those of the blocks in use, which hold what was asked
for. -/
structure LiveOk (bs : List Blk) (live : List (ℕ × ℤ)) : Prop where
  /-- A live pointer is the payload of a block in use. -/
  block : ∀ q ∈ live, ∃ b, BlockAt bs (q.1 - sizeofMemStruct) b ∧ b.inUse = true ∧
    memory + sizeofMemStruct ≤ q.1 ∧ q.2 + sizeofMemStruct ≤ b.size
  /-- A block in use belongs to a live pointer. -/
  live : ∀ a b, BlockAt bs a b → b.inUse = true → ∃ q ∈ live, q.1 = a + sizeofMemStruct

variable {bs pre post new : List Blk} {b : Blk} {live : List (ℕ × ℤ)} {A : ℕ}

/-- The blocks in use after a free block has been carved: those before and the
one handed out. -/
theorem Carved.inUse_iff {need : ℕ} (h : Carved b need new) (hb : b.inUse = false) {a : ℕ}
    {c : Blk} (hc : c.inUse = true) :
    BlockAt (pre ++ new ++ post) a c ↔ BlockAt (pre ++ [b] ++ post) a c ∨
      a = memory + span pre ∧ new.head? = some c := by
  have hspan := h.span_eq
  simp only [blockAt_iff_blockIn, blockIn_append, span_append, hspan]
  cases h with
  | whole _ =>
    simp only [blockIn_cons, blockIn_nil, or_false, List.head?_cons, Option.some.injEq, span_cons,
      span_nil, Nat.add_zero]
    have : c ≠ b := fun h => by rw [h, hb] at hc; cases hc
    simp only [this, and_false, or_false, eq_comm]
    tauto
  | split u v hu _ hv _ =>
    have hcb : c ≠ b := fun h => by rw [h, hb] at hc; cases hc
    have hcv : c ≠ v := fun h => by rw [h, hv] at hc; cases hc
    simp only [blockIn_cons, blockIn_nil, or_false, List.head?_cons, Option.some.injEq, span_cons,
      span_nil, Nat.add_zero, hcb, hcv, and_false, eq_comm]
    tauto

/-- The block handed out. -/
theorem Carved.head {need : ℕ} (h : Carved b need new) (hle : need ≤ b.size) :
    ∃ u, new.head? = some u ∧ u.inUse = true ∧ need ≤ u.size := by
  cases h with
  | whole _ => exact ⟨_, rfl, rfl, hle⟩
  | split u v hu hn _ _ => exact ⟨u, rfl, hu, hn.ge⟩

/-- The blocks in use after a release: those before but the one freed. -/
theorem Freed.inUse_iff (h : Freed b pre post new) {a : ℕ} {c : Blk} (hc : c.inUse = true) :
    BlockAt new a c ↔ BlockAt (pre ++ [b] ++ post) a c ∧ a ≠ memory + span pre := by
  have hsplit : BlockAt (pre ++ [b] ++ post) a c ∧ a ≠ memory + span pre ↔
      BlockIn memory pre a c ∨ BlockIn (memory + span pre + b.size) post a c := by
    have hc16 := c.min_le
    have hb16 := b.min_le
    rw [blockAt_iff_blockIn, blockIn_append, blockIn_append, span_append, span_cons, span_nil,
      Nat.add_zero, ← Nat.add_assoc]
    constructor
    · rintro ⟨(h | h) | h, hne⟩
      · exact Or.inl h
      · simp only [blockIn_cons, blockIn_nil, or_false] at h
        exact absurd h.1 hne
      · exact Or.inr h
    · rintro (h | h)
      · have := h.range
        exact ⟨Or.inl (Or.inl h), by omega⟩
      · have := h.range
        exact ⟨Or.inr h, by omega⟩
  rw [hsplit]
  have hfree : ∀ {d : Blk}, d.inUse = false → c ≠ d := fun hd h => by rw [h, hd] at hc; cases hc
  cases h with
  | alone =>
    simp only [blockAt_iff_blockIn, blockIn_append, blockIn_cons, blockIn_nil, span_append,
      span_cons, span_nil, hfree (Blk.mark_inUse b false), and_false, or_false, Blk.mark_size,
      Nat.add_zero, Nat.add_assoc]
  | back _ _ d hd =>
    simp only [blockAt_iff_blockIn, blockIn_append, blockIn_cons, blockIn_nil, span_append,
      span_cons, span_nil, hfree (Blk.join_inUse b d), hfree hd, and_false, or_false, false_or,
      Blk.join_size, Nat.add_zero, Nat.add_assoc]
  | front _ _ P hP =>
    simp only [blockAt_iff_blockIn, blockIn_append, blockIn_cons, blockIn_nil, span_append,
      span_cons, span_nil, hfree (Blk.join_inUse P b), hfree hP, and_false, or_false,
      Blk.join_size, Nat.add_zero, Nat.add_assoc]
  | both _ _ P d hP hd =>
    simp only [blockAt_iff_blockIn, blockIn_append, blockIn_cons, blockIn_nil, span_append,
      span_cons, span_nil, hfree (Blk.join_inUse P (b.join d)), hfree hP, hfree hd, and_false,
      or_false, false_or, Blk.join_size, Nat.add_zero, Nat.add_assoc]

/-- **Handing out a block.** -/
theorem LiveOk.malloc {need : ℕ} {size : ℤ} (h : LiveOk (pre ++ [b] ++ post) live)
    (hc : Carved b need new) (hb : b.inUse = false) (hle : need ≤ b.size)
    (hsize : size + sizeofMemStruct ≤ need) (hA : A = memory + span pre) :
    LiveOk (pre ++ new ++ post) ((A + sizeofMemStruct, size) :: live) := by
  obtain ⟨u, hu, huse, hneed⟩ := hc.head hle
  constructor
  · intro q hq
    rcases List.mem_cons.mp hq with rfl | hq
    · refine ⟨u, (hc.inUse_iff hb huse).mpr (Or.inr ⟨by simp [hA], hu⟩), huse, ?_, ?_⟩
      · simp only
        omega
      · simp only
        omega
    · obtain ⟨c, hcat, hcuse, hlo, hroom⟩ := h.block q hq
      exact ⟨c, (hc.inUse_iff hb hcuse).mpr (Or.inl hcat), hcuse, hlo, hroom⟩
  · intro a c hcat hcuse
    rcases (hc.inUse_iff hb hcuse).mp hcat with hold | ⟨rfl, -⟩
    · obtain ⟨q, hq, heq⟩ := h.live a c hold hcuse
      exact ⟨q, List.mem_cons_of_mem _ hq, heq⟩
    · exact ⟨_, List.mem_cons_self, by simp [hA]⟩

/-- **Taking a block back.** -/
theorem LiveOk.free (h : LiveOk (pre ++ [b] ++ post) live) (hf : Freed b pre post new)
    (hA : A = memory + span pre) :
    LiveOk new (live.filter fun q => q.1 ≠ A + sizeofMemStruct) := by
  have h12 : sizeofMemStruct = 12 := rfl
  constructor
  · intro q hq
    obtain ⟨hq, hne⟩ := List.mem_filter.mp hq
    obtain ⟨c, hcat, hcuse, hlo, hroom⟩ := h.block q hq
    refine ⟨c, (hf.inUse_iff hcuse).mpr ⟨hcat, fun he => ?_⟩, hcuse, hlo, hroom⟩
    simp only [decide_not, Bool.not_eq_eq_eq_not, Bool.not_true, decide_eq_false_iff_not] at hne
    omega
  · intro a c hcat hcuse
    obtain ⟨hold, hne⟩ := (hf.inUse_iff hcuse).mp hcat
    obtain ⟨q, hq, heq⟩ := h.live a c hold hcuse
    refine ⟨q, List.mem_filter.mpr ⟨hq, ?_⟩, heq⟩
    simp only [decide_not, Bool.not_eq_eq_eq_not, Bool.not_true, decide_eq_false_iff_not]
    omega

/-- A live pointer, and the place of its block in the list. -/
theorem LiveOk.split {p : ℕ} (h : LiveOk bs live) (hp : p ∈ live.map Prod.fst) :
    ∃ pre b post, bs = pre ++ [b] ++ post ∧ b.inUse = true ∧
      p = memory + span pre + sizeofMemStruct := by
  obtain ⟨q, hq, rfl⟩ := List.mem_map.mp hp
  obtain ⟨b, ⟨pre, post, rfl, ha⟩, hb, hlo, -⟩ := h.block q hq
  exact ⟨pre, b, post, by simp, hb, by omega⟩

/-! ### The two calls, on the blocks -/

/-- What a call of `malloc` that hands out a block has done: the block `b` between
`pre` and `post` has been carved into `new`. -/
structure Handout (R : ℕ → ℕ → Prop) (bs : List Blk) (size : ℤ) (r : ℕ × Heap)
    (pre : List Blk) (b : Blk) (post new : List Blk) (need : ℕ) : Prop where
  /-- The list of blocks before the call. -/
  blocks : bs = pre ++ [b] ++ post
  /-- The block was free. -/
  free : b.inUse = false
  /-- The pointer returned. -/
  ptr : r.1 = memory + span pre + sizeofMemStruct
  /-- The request fits what is handed out. -/
  room : size + sizeofMemStruct ≤ need
  /-- What is handed out fits the block. -/
  fits : need ≤ b.size
  /-- The block is split or handed out whole. -/
  carved : Carved b need new
  /-- The blocks after the call. -/
  layout : Layout R r.2.mem (pre ++ new ++ post)
  /-- Where the next search starts. -/
  next : NextOk r.2.mem (pre ++ new ++ post) r.2.nextStart
  /-- The last block handed out whole leaves nothing to search. -/
  last : new = [b.mark true] → post = [] → r.2.nextStart = 0

/-- `malloc` settles on a block only if the search found one. -/
def NoFallThrough (h : Heap) (size : ℤ) : Prop :=
  firstFit h.mem (sizeNeeded size) walkFuel h.nextStart = some 0 →
    sizeOf h.mem h.nextStart < sizeNeeded size

instance (h : Heap) (size : ℤ) : Decidable (NoFallThrough h size) :=
  inferInstanceAs (Decidable (_ → _))

/-- **What `malloc` does** when it does not fall through: it returns `NULL` and
leaves the heap alone, or it hands out a block. -/
theorem malloc_blocks {R : ℕ → ℕ → Prop} {h : Heap} {size : ℤ} (hR : ∀ p, R p p)
    (hl : Layout R h.mem bs) (hx : NextOk h.mem bs h.nextStart) (h0 : 0 < size)
    (hle : size ≤ memSize) (hfall : NoFallThrough h size)
    (hover : ∀ g, firstFit h.mem (sizeNeeded size) walkFuel h.nextStart = some g → g ≠ 0 →
      sizeOf h.mem g = sizeNeeded size + 4 → getNext h.mem g ≠ 0 → R 4 g) :
    ∃ r, malloc h size = some r ∧
      (r = (0, h) ∨ ∃ pre b post new need, Handout R bs size r pre b post new need) := by
  have hend : memEnd = memory + memSize := rfl
  have hsz : memSize = 0x100000 := rfl
  have hmem : memory = 0x800000 := rfl
  obtain ⟨need, hneed, hroom, h16, h4⟩ := sizeNeeded_eq h0 hle
  obtain ⟨g, hg, hcase⟩ := exists_firstFit (need : ℤ) hl hx
  rw [NoFallThrough, hneed] at hfall
  rw [hneed] at hover
  simp only [malloc, hneed, hg, Option.bind_eq_bind, Option.bind_some, goodOf]
  by_cases hg0 : g = 0
  · -- the search has ended at `NULL`
    subst hg0
    rw [if_pos rfl, if_pos (hfall hg)]
    exact ⟨_, rfl, Or.inl rfl⟩
  · obtain ⟨b, ⟨pre, post, rfl, hgA⟩, hfree, hfit⟩ := hcase.resolve_left hg0
    have hl' : Layout R h.mem (pre ++ [b] ++ post) := by simpa using hl
    have hhdr := (seg_append.mp (seg_append.mp hl'.seg).1).2.1
    have hspan := hl'.span_eq
    simp only [span_append, span_cons, span_nil] at hspan
    have hsize : sizeOf h.mem g = b.size := by
      rw [hgA]
      exact hhdr.sizeOf_eq (by omega)
    have hovl : b.size = need + 4 → post ≠ [] → R 4 g := by
      intro hb hne
      refine hover g hg hg0 (by rw [hsize]; omega) ?_
      have hseg := (seg_append.mp hl.seg).2
      rw [← hgA] at hseg
      rw [hseg.getNext_eq (by rw [span_cons]; omega), if_neg hne]
      omega
    obtain ⟨new, hc, hlay, hstart⟩ := carve_layout hR hl' hgA h16 h4 (by omega) hovl
    rw [if_neg hg0, if_neg (by omega)]
    refine ⟨_, rfl, Or.inr ⟨pre, b, post, new, need, by simp, hfree, by simp [hgA], hroom,
      by omega, hc, hlay, ?_, ?_⟩⟩
    · rw [hstart]
      exact (hc.header hlay.span_eq hgA).imp id Or.inl
    · rintro rfl rfl
      rw [hstart]
      exact hc.last (by simpa using hlay.span_eq) hgA

/-- After `malloc_init` the arena is one free block. -/
theorem layout_mallocInit {R : ℕ → ℕ → Prop} (hR : R 0 0) (m : Mem) :
    ∃ b : Blk, b.inUse = false ∧ Layout R (mallocInit m).mem [b] ∧
      NextOk (mallocInit m).mem [b] (mallocInit m).nextStart := by
  have hsz : memSize = 0x100000 := rfl
  let b : Blk := ⟨memSize, false, by omega, by omega⟩
  refine ⟨b, rfl, ⟨⟨⟨?_, ?_, ?_⟩, trivial⟩, by simp [b]⟩, Or.inr (Or.inl ⟨b, [], [], rfl, rfl⟩)⟩
  · simp only [mallocInit, prevOf]
    simp (disch := omega) only [setFree, setSize, setPrev, put_ne, put_self]
    exact hR
  · simp only [mallocInit]
    simp (disch := omega) only [setFree, setSize, setPrev, put_ne, put_self]
    exact toNat_ofInt_natCast (by omega)
  · simp only [mallocInit, freeOf]
    simp (disch := omega) only [setFree, put_self]
    rfl

end Thunix.Mm
