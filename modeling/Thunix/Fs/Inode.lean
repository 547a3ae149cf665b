import Thunix.Fs.Bitops
import Thunix.Fs.Device

/-!
# Inodes in memory and on the disk

The parts of `fs/tfs/inode.c` that work on one inode: its record of 64 bytes in a
block of the inode table, and the `struct inode` made from it. The C code has the two
differ in layout only; what a record stores is cut to the width of its field.
-/

namespace Thunix.Fs

/-- `TFS_FILE`. -/
def TFS_FILE : ℤ := 1

/-- `TFS_DIR`. -/
def TFS_DIR : ℤ := 2

/-- `TFS_N_BLOCKS`. -/
def TFS_N_BLOCKS : ℕ := 8

/-- `TFS_ROOT_INODE`. -/
def TFS_ROOT_INODE : ℤ := 1

/-- `struct inode`, with the array `i_data` points to. -/
structure Inode where
  iMode : ℤ
  iSize : ℕ
  iIno : ℕ
  iAtime : ℕ
  iMtime : ℕ
  iCtime : ℕ
  iDtime : ℕ
  iData : List ℕ
  iFlags : ℕ
  iBlksize : ℤ
  /-- `i_data` has been allocated with `TFS_N_BLOCKS` words. -/
  iData_length : iData.length = TFS_N_BLOCKS
  deriving DecidableEq

/-- `inode->i_data[index] = block`. -/
def Inode.setData (inode : Inode) (index block : ℕ) : Inode :=
  { inode with
    iData := inode.iData.set index block
    iData_length := by rw [List.length_set, inode.iData_length] }

/-- The contents of `new_inode(mode, TFS_N_BLOCKS * sizeof(uint32_t *))`. -/
def newInodeValue (mode : ℤ) : Inode where
  iMode := mode
  iSize := 0
  iIno := 0
  iAtime := 0
  iMtime := 0
  iCtime := 0
  iDtime := 0
  iData := List.replicate TFS_N_BLOCKS 0
  iFlags := 0
  iBlksize := 0
  iData_length := List.length_replicate

/-! ### The record -/

/-- The little-endian half word at an address. -/
def le16 (m : ℕ → UInt8) (a : ℕ) : ℕ := (m a).toNat + 2 ^ 8 * (m (a + 1)).toNat

/-- Byte `k` of a little-endian number. -/
def byteOf (n k : ℕ) : UInt8 := UInt8.ofNat (n >>> (8 * k))

/-- `tfs_fill_inode`, from the bytes of a `struct tfs_inode`. -/
def tfsFillInode (inode : Inode) (tinode : ℕ → UInt8) : Inode :=
  { inode with
    iMode := le16 tinode 0
    iSize := le32 tinode 4
    iAtime := le32 tinode 8
    iCtime := le32 tinode 12
    iMtime := le32 tinode 16
    iDtime := le32 tinode 20
    iFlags := le32 tinode 56
    iData := (List.range TFS_N_BLOCKS).map fun k => le32 tinode (24 + 4 * k)
    iData_length := by rw [List.length_map, List.length_range] }

/-- The word of the record at offset `4 * w`, past the first. -/
def tinodeWord (inode : Inode) : ℕ → ℕ
  | 1 => inode.iSize
  | 2 => inode.iAtime
  | 3 => inode.iCtime
  | 4 => inode.iMtime
  | 5 => inode.iDtime
  | 14 => inode.iFlags
  | 15 => 0
  | w => inode.iData.getD (w - 6) 0

/-- `tfs_write_inode`: the bytes of the record, over the old ones, of which `i_uid`
stays. -/
def tfsWriteInode (tinode : ℕ → UInt8) (inode : Inode) : ℕ → UInt8 := fun k =>
  if k < 2 then byteOf (inode.iMode % 2 ^ 16).toNat k
  else if k < 4 then tinode k
  else byteOf (tinodeWord inode (k / 4)) (k % 4)

/-! ### The inode table -/

variable (e : Env)

/-- Bytes from nowhere. -/
def wildBytes : DevM (ℕ → UInt8) := fun d => (e.wild d.ticks, d.tick)

/-- Whether `malloc` finds memory this time. -/
def mallocOk : DevM Bool := fun d => (e.mallocOk d.ticks, d.tick)

/-- `tfs_read_inode`. The pointer from `get_cache_block` is tested with `IS_ERR`, which a
`NULL` passes; and a number below 1 leaves the block downwards. -/
def tfsReadInode (inr : ℤ) : DevM (ℕ → UInt8) := do
  let inodeBlock := toU32 (e.sbi.sInodeTable + (inr - 1).tdiv e.sbi.sInodesPerBlock)
  match ← getCacheBlock e e.sbi inodeBlock with
  | none => wildBytes e
  | some cs => do
    let k := (inr - 1).tmod e.sbi.sInodesPerBlock
    let data ← dataPtr cs
    if k < 0 then wildBytes e
    else readMem fun m i => m (data + k.toNat * sizeofTfsInode + i)

/-- The inode `tfs_iget_by_inr` makes of a record. -/
def igetValue (inr : ℤ) (tinode : ℕ → UInt8) : Inode :=
  { tfsFillInode (newInodeValue 0) tinode with
    iBlksize := 1 <<< e.sbi.sBlockShift
    iIno := toU32 inr }

/-- The end of `tfs_iwrite`: the record `k` of the block is written, and the block. -/
def storeRecord (inode : Inode) (inodeBlock k : ℕ) (cs : CacheRef) : DevM ℤ := do
  let data ← dataPtr cs
  let a := data + k * sizeofTfsInode
  let tinode ← readMem fun m => tfsWriteInode (fun i => m (a + i)) inode
  copyIn a sizeofTfsInode tinode
  tfsBwrite e e.sbi inodeBlock data

/-- `tfs_iwrite`. -/
def tfsIwrite (inode : Inode) : DevM ℤ := do
  let k := toU32 (inode.iIno - 1)
  let inodeBlock := (e.sbi.sInodeTable + k / e.sbi.sInodesPerBlock) % 2 ^ 32
  match ← getCacheBlock e e.sbi inodeBlock with
  | none => pure (- EIO)
  | some cs => storeRecord e inode inodeBlock (k % e.sbi.sInodesPerBlock) cs

/-- The block of the inode table that `tfs_iwrite` writes. -/
def iwriteBlock (inode : Inode) : ℕ :=
  (e.sbi.sInodeTable + toU32 (inode.iIno - 1) / e.sbi.sInodesPerBlock) % 2 ^ 32

/-- Where in the block the record is. -/
def iwritePlace (inode : Inode) : ℕ :=
  toU32 (inode.iIno - 1) % e.sbi.sInodesPerBlock * sizeofTfsInode

/-- `tfs_bmap`. -/
def tfsBmap (inode : Inode) (index : ℕ) : ℕ :=
  if TFS_N_BLOCKS ≤ index then 0 else inode.iData.getD index 0

end Thunix.Fs
