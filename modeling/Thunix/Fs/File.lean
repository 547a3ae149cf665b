import Thunix.Fs.Alloc
import Thunix.Fs.Inode

/-!
# Reading and writing files

`fs/tfs/file.c`. Both functions work on whole blocks, of the file from `offset` on and
of the caller's buffer from its start. Their loops count an `int` down to 0, so a
negative count goes round; `tfs_bmap` ends them at `TFS_N_BLOCKS`.
-/

namespace Thunix.Fs

variable (e : Env)

/-! ### Reading -/

/-- The loop of `tfs_read`, with `blocks` to go: the result and the caller's buffer. -/
def tfsReadLoop (inode : Inode) : ℕ → ℕ → ℕ → (ℕ → UInt8) → DevM (ℤ × (ℕ → UInt8))
  | 0, _, bytesRead, buf => pure (bytesRead, buf)
  | blocks + 1, index, bytesRead, buf => do
    let block := tfsBmap inode index
    if block = 0 then pure (bytesRead, buf)
    else
      match ← getCacheBlock e e.sbi block with
      | none => pure (- EIO, buf)
      | some cs => do
        let data ← dataPtr cs
        let bytes ← readMem fun m i => m (data + i)
        tfsReadLoop inode blocks (index + 1) (bytesRead + e.sbi.sBlockSize)
          (blit buf bytesRead e.sbi.sBlockSize bytes)

/-- `tfs_read`, of a file open at `offset`. -/
def tfsRead (inode : Inode) (offset : ℕ) (buf : ℕ → UInt8) (blocks : ℤ) :
    DevM (ℤ × (ℕ → UInt8)) :=
  if blocks = 0 then pure (0, buf)
  else if inode.iSize ≤ offset then pure (-1, buf)
  else tfsReadLoop e inode (toU32 blocks) (offset >>> e.sbi.sBlockShift) 0 buf

/-! ### Writing -/

/-- The block of a file at an index, allocated if there is none: the block, or the
error, and the inode after it. -/
def blockForWrite (inode : Inode) (index : ℕ) : DevM (Except ℤ ℕ × Inode) := do
  let block := tfsBmap inode index
  if block ≠ 0 then pure (.ok block, inode)
  else if index < TFS_N_BLOCKS then
    let block ← tfsAllocBlock e e.sbi.sDataArea
    if block < 0 then pure (.error (-ENOSPC), inode)
    else pure (.ok (toU32 block), inode.setData index (toU32 block))
  else pure (.error (-EFBIG), inode)

/-- `MAX(0, n)`, in which both sides are unsigned. -/
def max0 (n : ℕ) : ℕ := if 0 > n then 0 else n

/-- `inode->i_size += MAX(0, offset + bytes_written - inode->i_size)`. -/
def growSize (inode : Inode) (offset bytesWritten : ℕ) : Inode :=
  { inode with
    iSize := (inode.iSize + max0 (toU32 (offset + bytesWritten - inode.iSize))) % 2 ^ 32 }

/-- Bytes of the caller's buffer are copied into a block of the cache and written back. -/
def copyAndWrite (block : ℕ) (cs : CacheRef) (off count : ℕ) (buf : ℕ → UInt8) : DevM ℤ := do
  let data ← dataPtr cs
  copyIn (data + off) count buf
  tfsBwrite e e.sbi block data

/-- The loop of `tfs_write`, with `blocks` to go after `bytesWritten` bytes: the result
and the inode. -/
def tfsWriteLoop (offset : ℕ) (buf : ℕ → UInt8) :
    ℕ → ℕ → ℕ → Inode → DevM (ℤ × Inode)
  | 0, _, bytesWritten, inode => do
    if (← tfsIwrite e inode) ≠ 0 then pure (- EIO, inode) else pure (bytesWritten, inode)
  | blocks + 1, index, bytesWritten, inode => do
    let (block, inode) ← blockForWrite e inode index
    match block with
    | .error err => pure (err, inode)
    | .ok block =>
      match ← getCacheBlock e e.sbi block with
      | none => pure (- EIO, inode)
      | some cs => do
        let res ← copyAndWrite e block cs 0 e.sbi.sBlockSize fun i => buf (bytesWritten + i)
        let bytesWritten := bytesWritten + e.sbi.sBlockSize
        let inode := growSize inode offset bytesWritten
        if res ≠ 0 then pure (- EIO, inode)
        else tfsWriteLoop offset buf blocks (index + 1) bytesWritten inode

/-- `tfs_write`, to a file open at `offset`: the result, and the inode after it. -/
def tfsWrite (inode : Inode) (offset : ℕ) (buf : ℕ → UInt8) (blocks : ℤ) : DevM (ℤ × Inode) := do
  if blocks = 0 then pure (0, inode)
  else
    let index := offset >>> e.sbi.sBlockShift
    let bufoff := offset &&& (e.sbi.sBlockSize - 1)
    let (block, inode) ← blockForWrite e inode index
    match block with
    | .error err => pure (err, inode)
    | .ok block =>
      match ← getCacheBlock e e.sbi block with
      | none => pure (- EIO, inode)
      | some cs => do
        let bytesWritten := e.sbi.sBlockSize - bufoff
        let res ← copyAndWrite e block cs bufoff bytesWritten buf
        let inode := growSize inode offset bytesWritten
        if res ≠ 0 then pure (- EIO, inode)
        else tfsWriteLoop e offset buf (toU32 (blocks - 1)) (index + 1) bytesWritten inode

end Thunix.Fs
