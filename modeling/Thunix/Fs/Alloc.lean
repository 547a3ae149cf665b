import Thunix.Fs.Bitops
import Thunix.Fs.Device

/-!
# The two bitmaps

`fs/tfs/balloc.c` and `fs/tfs/ialloc.c`. Both ask the cache for their bitmap through
`container_of((void *)sbi, struct fs, sb)`, which takes the address of the record itself
for that of a pointer to it: the `struct fs` so found has the word `s_inodes_count`
for its `sb`. It is only used to read the bitmap from the disk, when the cache does
not hold it; writes go through the mounted record.
-/

namespace Thunix.Fs

/-- `set_bit` on a bitmap, recorded. -/
def setBitAt (bitmap nr : ℕ) : DevM ℕ := fun d =>
  let (old, m) := setBit d.cacheData bitmap nr
  (old, { d with cacheData := m, log := d.log ++ [.flip nr] })

/-- `clear_bit` on a bitmap, recorded. -/
def clearBitAt (bitmap nr : ℕ) : DevM ℕ := fun d =>
  let (old, m) := clearBit d.cacheData bitmap nr
  (old, { d with cacheData := m, log := d.log ++ [.flip nr] })

variable (e : Env)

/-- `tfs_read_block_bitmap`. -/
def tfsReadBlockBitmap : DevM (Option CacheRef) :=
  getCacheBlock e e.straySbi e.sbi.sBlockBitmap

/-- `tfs_free_block`. -/
def tfsFreeBlock (block : ℕ) : DevM ℤ := do
  match ← tfsReadBlockBitmap e with
  | none => pure (- EIO)
  | some cs => do
    let bitmap ← dataPtr cs
    if (← clearBitAt bitmap block) = 0 then pure 0
    else tfsBwrite e e.sbi e.sbi.sBlockBitmap bitmap

/-- The bit an allocator settles on: the target, unless it is taken. -/
def findTarget (taken : Bool) (bitmap target : ℕ) : DevM ℕ :=
  if taken then readMem fun m => findFirstZero m bitmap e.sbi.sBlockSize else pure target

/-- `tfs_alloc_block`. -/
def tfsAllocBlock (block : ℕ) : DevM ℤ := do
  match ← tfsReadBlockBitmap e with
  | none => pure (- EIO)
  | some cs => do
    let bitmap ← dataPtr cs
    -- try the target first
    let taken ← readMem fun m => decide (testBit m bitmap block ≠ 0)
    let block ← findTarget e taken bitmap block
    if block ≠ minusOne then do
      let _ ← setBitAt bitmap block
      let res ← tfsBwrite e e.sbi e.sbi.sBlockBitmap bitmap
      if res < 0 then pure res else pure (toS32 block)
    else pure (-ENOSPC)

/-- `tfs_read_inode_bitmap`. -/
def tfsReadInodeBitmap : DevM (Option CacheRef) :=
  getCacheBlock e e.straySbi e.sbi.sInodeBitmap

/-- `tfs_free_inode`. -/
def tfsFreeInode (inr : ℤ) : DevM ℤ := do
  match ← tfsReadInodeBitmap e with
  | none => pure (- EIO)
  | some cs => do
    let bitmap ← dataPtr cs
    -- inode numbers count from 1
    if (← clearBitAt bitmap (toU32 (inr - 1))) = 0 then pure 0
    else tfsBwrite e e.sbi e.sbi.sInodeBitmap bitmap

/-- `tfs_alloc_inode`. The test for the target compares the masked byte with 1. -/
def tfsAllocInode (inr : ℤ) : DevM ℤ := do
  if inr < 1 then pure (-EINVAL)
  else
    match ← tfsReadInodeBitmap e with
    | none => pure (- EIO)
    | some cs => do
      let bitmap ← dataPtr cs
      let taken ← readMem fun m => decide (testBit m bitmap (toU32 (inr - 1)) = 1)
      let inr := toS32 (← findTarget e taken bitmap (toU32 (inr - 1)))
      if 0 ≤ inr then do
        let old ← setBitAt bitmap (toU32 inr)
        let err ← tfsBwriteTagged (old = 0) e e.sbi e.sbi.sInodeBitmap bitmap
        if err ≠ 0 then do
          let _ ← clearBitAt bitmap (toU32 inr)
          pure err
        else pure (inr + 1)
      else pure (-ENOSPC)

end Thunix.Fs
