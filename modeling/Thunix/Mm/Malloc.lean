import Mathlib.Logic.Function.Basic
import Thunix.Lib.Word

/-!
# The kernel heap

The allocator of `mm/malloc.c` over a memory of addressed 32-bit words. A block
starts with a header of three words, `prev`, `size` and `free` at offsets 0, 4
and 8, and headers are read and written wherever a pointer says, so a field
written near the end of a block may overlay the header of the next one.

The search of `malloc` is a loop over `Thunix.Mm.getNext`. Its length is bounded
here by `Thunix.Mm.walkFuel`; running out of it stands for a search that does not
end, and `Thunix.Mm.malloc` is `none` then.
-/

namespace Thunix.Mm

/-- The kernel's memory, as 32-bit words at byte addresses. -/
abbrev Mem := ℕ → UInt32

/-- `MEM_SIZE`. -/
def memSize : ℕ := 0x100000

/-- `memory`, the address of the arena. -/
def memory : ℕ := 0x800000

/-- `mem_end`. -/
def memEnd : ℕ := memory + memSize

/-- `sizeof(struct mem_struct)`. -/
def sizeofMemStruct : ℕ := 12

/-- Store one word. -/
def put (m : Mem) (a : ℕ) (w : UInt32) : Mem := Function.update m a w

/-! ### The fields of a header -/

/-- `mm->prev`. -/
def prevOf (m : Mem) (mm : ℕ) : ℕ := (m mm).toNat

/-- `mm->size`. -/
def sizeOf (m : Mem) (mm : ℕ) : ℤ := toInt (m (mm + 4))

/-- `mm->free`. -/
def freeOf (m : Mem) (mm : ℕ) : UInt32 := m (mm + 8)

/-- `mm->prev = p`. -/
def setPrev (m : Mem) (mm p : ℕ) : Mem := put m mm (UInt32.ofNat p)

/-- `mm->size = n`. -/
def setSize (m : Mem) (mm : ℕ) (n : ℤ) : Mem := put m (mm + 4) (ofInt n)

/-- `mm->size += n`, with the wrapping of an `int`. -/
def addSize (m : Mem) (mm : ℕ) (n : UInt32) : Mem := put m (mm + 4) (m (mm + 4) + n)

/-- `mm->free = f`. -/
def setFree (m : Mem) (mm : ℕ) (f : UInt32) : Mem := put m (mm + 8) f

/-- `if (mm) mm->prev = p`. -/
def linkPrev (m : Mem) (mm p : ℕ) : Mem := if mm ≠ 0 then setPrev m mm p else m

/-- `get_next`: the header after `mm`, or `NULL` at the end of the arena. -/
def getNext (m : Mem) (mm : ℕ) : ℕ :=
  let next := (mm + (m (mm + 4)).toNat) % 2 ^ 32
  if memEnd ≤ next then 0 else next

/-! ### The merges -/

/-- `merge_front`: `prev` swallows `mm`. -/
def mergeFront (m : Mem) (mm prev : ℕ) : ℕ × Mem :=
  let next := getNext m mm
  let m := addSize m prev (m (mm + 4))
  (prev, linkPrev m next prev)

/-- `merge_back`: `mm` swallows `next`. -/
def mergeBack (m : Mem) (mm next : ℕ) : ℕ × Mem :=
  let m := setFree m mm 1
  let m := addSize m mm (m (next + 4))
  (mm, linkPrev m (getNext m next) mm)

/-- `merge_both`: `prev` swallows `mm` and `next`. -/
def mergeBoth (m : Mem) (mm prev next : ℕ) : ℕ × Mem :=
  let m := addSize m prev (m (mm + 4) + m (next + 4))
  (prev, linkPrev m (getNext m next) prev)

/-- `try_merge_front`. -/
def tryMergeFront (m : Mem) (mm : ℕ) : ℕ × Mem :=
  let m := setFree m mm 1
  if freeOf m (prevOf m mm) ≠ 0 then mergeFront m mm (prevOf m mm) else (mm, m)

/-- `try_merge_back`, which does not ask whether there is a next block. -/
def tryMergeBack (m : Mem) (mm : ℕ) : ℕ × Mem :=
  let next := getNext m mm
  let m := setFree m mm 1
  if freeOf m next ≠ 0 then (mm, (mergeBack m mm next).2) else (mm, m)

/-! ### Allocation and release -/

/-- The allocator: the memory and `next_start`. -/
structure Heap where
  /-- The words of the memory. -/
  mem : Mem
  /-- `next_start`, where the next search begins. -/
  nextStart : ℕ

/-- `size_needed`: the request and a header, rounded up to a multiple of 4. The
sum is unsigned, the result an `int` again. -/
def sizeNeeded (size : ℤ) : ℤ :=
  let u := ((size % 2 ^ 32).toNat + sizeofMemStruct + 3) % 2 ^ 32
  toInt (UInt32.ofNat (u / 4 * 4))

/-- A bound on the headers a search visits. -/
def walkFuel : ℕ := 0x20000

/-- The search loop of `malloc`: the first free block from `next` on that holds
`need` bytes. `some 0` is the loop ending at `NULL`, `none` running out of fuel. -/
def firstFit (m : Mem) (need : ℤ) : ℕ → ℕ → Option ℕ
  | 0, _ => none
  | fuel + 1, next =>
    if next = 0 then some 0
    else if freeOf m next ≠ 0 ∧ need ≤ sizeOf m next then some next
    else firstFit m need fuel (getNext m next)

/-- The part of `malloc` after a block `good` with enough room has been settled
on. -/
def carve (h : Heap) (good : ℕ) (need : ℤ) : Heap :=
  let total := sizeOf h.mem good
  let m := setFree h.mem good 0
  if total = need then { mem := m, nextStart := getNext m good }
  else
    let m := setSize m good need
    let next := getNext m good
    if next = 0 then { mem := m, nextStart := memory }
    else
      let m := setSize m next (total - need)
      if sizeOf m next ≤ sizeofMemStruct then
        -- too small a remainder is given back, after its size has been written
        let m := setSize m good total
        { mem := m, nextStart := getNext m good }
      else
        let m := setPrev m next good
        let m := setFree m next 1
        { mem := linkPrev m (getNext m next) next, nextStart := next }

/-- The block `malloc` settles on: the one the search found, or else `next_start`,
which `good` was initialised with. -/
def goodOf (h : Heap) (found : ℕ) : ℕ := if found = 0 then h.nextStart else found

/-- `malloc`: the pointer returned (`0` for `NULL`) and the heap after the call. -/
def malloc (h : Heap) (size : ℤ) : Option (ℕ × Heap) := do
  let need := sizeNeeded size
  let found ← firstFit h.mem need walkFuel h.nextStart
  let good := goodOf h found
  if sizeOf h.mem good < need then pure (0, h)
  else pure (good + sizeofMemStruct, carve h good need)

/-- `free`. The result of `merge_front`, `merge_back` and `merge_both` is dropped
in the three middle branches, so `mm` stays what it was there. -/
def free (h : Heap) (ptr : ℕ) : Heap :=
  let m := h.mem
  let mm := ptr - sizeofMemStruct
  let prev := prevOf m mm
  let next := getNext m mm
  if freeOf m mm = 1 then h
  else
    let r : ℕ × Mem :=
      if prev = 0 then tryMergeBack m mm
      else if next = 0 then tryMergeFront m mm
      else if freeOf m prev ≠ 0 ∧ freeOf m next = 0 then (mm, (mergeFront m mm prev).2)
      else if freeOf m prev = 0 ∧ freeOf m next ≠ 0 then (mm, (mergeBack m mm next).2)
      else if freeOf m prev ≠ 0 ∧ freeOf m next ≠ 0 then (mm, (mergeBoth m mm prev next).2)
      else (mm, setFree m mm 1)
    { mem := r.2, nextStart := if r.1 < h.nextStart then r.1 else h.nextStart }

/-- `malloc_init`, over whatever the memory held before. -/
def mallocInit (m : Mem) : Heap :=
  { mem := setFree (setSize (setPrev m memory 0) memory memSize) memory 1, nextStart := memory }

end Thunix.Mm
