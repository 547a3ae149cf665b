import Mathlib.Logic.Function.Basic
import Thunix.Lib.Word

/-!
# The floppy disk and the block transfers

The state under the file system: the block cache with its buffers (`fs/cache.c`),
and the disk, an array of 512-byte sectors. A transfer of a block is a loop over
sectors (`floppy_reads` and `floppy_writes` of `kernel/fd.c`), and each sector may go
one of three ways, `Thunix.Fs.Transfer`: it is moved; the controller reports an error;
or the head cannot be positioned, in which case `floppy_rw` returns `FALSE`, which its
callers read as success.

What the program does not decide – how each sector transfer goes, whether `malloc`
finds memory, what an uninitialised variable holds, what lies behind an array – comes
from an environment `Thunix.Fs.Env`, asked in the order of a clock.

The block transfers, and the bits changed in the bitmaps, are recorded in a log, which no
function reads. Addresses of
buffers are offsets into `cache_data`.
-/

namespace Thunix.Fs

/-! ### Words -/

/-- A `uint32_t` read as an `int`. -/
def toS32 (n : ℕ) : ℤ := if n < 2 ^ 31 then n else n - 2 ^ 32

/-- An `int` stored in a `uint32_t`. -/
def toU32 (i : ℤ) : ℕ := (i % 2 ^ 32).toNat

/-! ### Error numbers -/

/-- `ENOENT`. -/
def ENOENT : ℤ := 2
/-- `EIO`. -/
def EIO : ℤ := 5
/-- `EBADF`. -/
def EBADF : ℤ := 9
/-- `ENOMEM`. -/
def ENOMEM : ℤ := 12
/-- `EEXIST`. -/
def EEXIST : ℤ := 17
/-- `ENOTDIR`. -/
def ENOTDIR : ℤ := 20
/-- `EINVAL`. -/
def EINVAL : ℤ := 22
/-- `EFBIG`. -/
def EFBIG : ℤ := 27
/-- `ENOSPC`. -/
def ENOSPC : ℤ := 28
/-- `ENAMETOOLONG`. -/
def ENAMETOOLONG : ℤ := 36
/-- `ENOSYS`. -/
def ENOSYS : ℤ := 38
/-- `ENOTEMPTY`. -/
def ENOTEMPTY : ℤ := 39

/-! ### The super block -/

/-- `struct tfs_super_block`, as far as it is used. -/
structure TfsSuperBlock where
  sInodesCount : ℕ
  sBlocksCount : ℕ
  sFreeBlocksCount : ℕ
  sFreeInodesCount : ℕ
  sMagic : ℕ
  sBlockShift : ℕ
  sInodeBitmap : ℕ
  sBlockBitmap : ℕ
  sInodeTable : ℕ
  sDataArea : ℕ
  sOffset : ℕ

/-- `struct tfs_sb_info`. -/
structure TfsSbInfo where
  sInodesCount : ℕ
  sBlocksCount : ℕ
  sFreeBlocksCount : ℕ
  sFreeInodesCount : ℕ
  sBlockShift : ℕ
  sBlockSize : ℕ
  sInodeBitmap : ℕ
  sInodeBitmapCount : ℕ
  sBlockBitmap : ℕ
  sBlockBitmapCount : ℕ
  sInodeTable : ℕ
  sInodeTableCount : ℕ
  sDataArea : ℕ
  sOffset : ℕ
  sInodesPerBlock : ℕ

/-- `TFS_MAGIC`. -/
def TFS_MAGIC : ℕ := 0x4c534654

/-- `sizeof(struct tfs_inode)`. -/
def sizeofTfsInode : ℕ := 64

/-- `tfs_mount`, from the super block it has read. -/
def tfsMount (sb : TfsSuperBlock) : Option TfsSbInfo :=
  if sb.sMagic ≠ TFS_MAGIC then none
  else
    let blockSize := (1 <<< sb.sBlockShift) % 2 ^ 32
    some {
      sBlockShift := sb.sBlockShift
      sBlockSize := blockSize
      sBlocksCount := sb.sBlocksCount
      sInodesCount := sb.sInodesCount
      sFreeBlocksCount := sb.sFreeBlocksCount
      sFreeInodesCount := sb.sFreeInodesCount
      sInodeBitmap := sb.sInodeBitmap
      sBlockBitmap := sb.sBlockBitmap
      sInodeTable := sb.sInodeTable
      sDataArea := sb.sDataArea
      sInodeBitmapCount := toU32 (sb.sBlockBitmap - sb.sInodeBitmap)
      sBlockBitmapCount := toU32 (sb.sInodeTable - sb.sBlockBitmap)
      sInodeTableCount := toU32 (sb.sDataArea - sb.sInodeTable)
      sOffset := sb.sOffset
      sInodesPerBlock := blockSize / sizeofTfsInode }

/-! ### The environment -/

/-- How the transfer of one sector goes. -/
inductive Transfer
  /-- The sector is moved. -/
  | done
  /-- The head does not reach the track: nothing is moved, and `FALSE` is returned. -/
  | seekError
  /-- The controller reports an error: nothing is moved, and `-EIO` is returned. -/
  | ioError
  deriving DecidableEq, Repr

/-- What the program finds but does not decide. Everything that may differ from one
time to the next is a function of the clock. -/
structure Env where
  /-- The mounted file system. -/
  sbi : TfsSbInfo
  /-- What lies at the address that `s_inodes_count` is as a pointer, read as a
  `struct tfs_sb_info`. -/
  straySbi : TfsSbInfo
  /-- How a sector transfer goes. -/
  transfer : ℕ → Transfer
  /-- Whether `malloc` finds memory. -/
  mallocOk : ℕ → Bool
  /-- The value of a variable that has not been set. -/
  junk : ℕ → ℤ
  /-- The words behind an `i_data` array; past those, memory reads as zero. -/
  beyond : ℕ → List ℕ
  /-- Bytes read through a pointer to no buffer. -/
  wild : ℕ → ℕ → UInt8
  /-- The string at address 0. -/
  nullString : List UInt8

/-! ### The state -/

/-- A pointer to a `struct cache_struct`: `&cache_head` or `&cache[i]`. -/
inductive CacheRef
  | head
  | entry (i : ℕ)
  deriving DecidableEq, Repr

/-- `struct cache_struct`. -/
structure CacheStruct where
  block : ℕ
  prev : CacheRef
  next : CacheRef
  data : ℕ

/-- A block transfer, as recorded. -/
structure Moved where
  /-- The block number asked for. -/
  block : ℕ
  /-- The first sector. -/
  sector : ℕ
  /-- How many sectors. -/
  sectors : ℕ
  /-- The time of the first of them. -/
  tick : ℕ
  /-- The result returned. -/
  res : ℤ
  /-- The buffer, after a read and before a write. -/
  data : ℕ → UInt8

/-- The entries of the log. -/
inductive Event
  /-- `get_cache_block` has filled the buffer of an entry, which had this label. -/
  | load (victim : ℕ) (m : Moved)
  /-- `tfs_bwrite` has written a buffer; the flag says that the caller takes the change
  to the buffer back if the write fails. -/
  | store (undone : Bool) (m : Moved)
  /-- A bit of a bitmap has been set or cleared in its buffer. -/
  | flip (nr : ℕ)

/-- The cache and the disk. -/
structure Dev where
  /-- `cache_head` and `cache[]`. -/
  cache : CacheRef → CacheStruct
  /-- `cache_entries`. -/
  cacheEntries : ℕ
  /-- The bytes of `cache_data`, and what lies behind it. -/
  cacheData : ℕ → UInt8
  /-- The disk, by sector and byte. -/
  disk : ℕ → ℕ → UInt8
  /-- The clock. -/
  ticks : ℕ
  /-- What has been transferred, in order. -/
  log : List Event

/-- Computations on the cache and the disk. -/
abbrev DevM := StateM Dev

theorem DevM.bind_apply {α β : Type} (x : DevM α) (f : α → DevM β) (d : Dev) :
    (x >>= f) d = f (x d).1 (x d).2 := rfl

theorem DevM.pure_apply {α : Type} (a : α) (d : Dev) : (pure a : DevM α) d = (a, d) := rfl

/-! ### Memory -/

/-- `count` bytes of `src` are copied to address `a`. -/
def blit (m : ℕ → UInt8) (a count : ℕ) (src : ℕ → UInt8) : ℕ → UInt8 :=
  fun x => if a ≤ x ∧ x < a + count then src (x - a) else m x

/-- The buffer at an address. -/
def Dev.buf (d : Dev) (a : ℕ) : ℕ → UInt8 := fun i => d.cacheData (a + i)

/-- Bytes are copied into `cache_data`. -/
def Dev.copyIn (d : Dev) (a count : ℕ) (src : ℕ → UInt8) : Dev :=
  { d with cacheData := blit d.cacheData a count src }

/-- The clock goes on. -/
def Dev.tick (d : Dev) : Dev := { d with ticks := d.ticks + 1 }

/-- `cs->data`. -/
def dataPtr (cs : CacheRef) : DevM ℕ := fun d => ((d.cache cs).data, d)

/-- What memory says. -/
def readMem {α : Type} (f : (ℕ → UInt8) → α) : DevM α := fun d => (f d.cacheData, d)

/-- `memcpy`, of `count` bytes to address `a`. -/
def copyIn (a count : ℕ) (src : ℕ → UInt8) : DevM Unit := fun d => ((), d.copyIn a count src)

/-! ### Sectors -/

/-- `floppy_read`: one sector into the memory at `buf`. -/
def floppyRead (e : Env) (sector buf : ℕ) : DevM ℤ := fun d =>
  match e.transfer d.ticks with
  | .done => (0, (d.copyIn buf 512 (d.disk sector)).tick)
  | .seekError => (0, d.tick)
  | .ioError => (- EIO, d.tick)

/-- `floppy_write`: one sector from the memory at `buf`. -/
def floppyWrite (e : Env) (sector buf : ℕ) : DevM ℤ := fun d =>
  match e.transfer d.ticks with
  | .done => (0, { d with disk := Function.update d.disk sector (d.buf buf) }.tick)
  | .seekError => (0, d.tick)
  | .ioError => (- EIO, d.tick)

/-- The loop of `floppy_reads`, with `sectors` to go and the last result. -/
def floppyReadsLoop (e : Env) : ℕ → ℕ → ℕ → ℤ → DevM ℤ
  | 0, _, _, res => pure res
  | sectors + 1, sector, buf, _ => do
    let res ← floppyRead e sector buf
    if res < 0 then pure res
    else floppyReadsLoop e sectors ((sector + 1) % 2 ^ 32) (buf + 512) res

/-- `floppy_reads`. -/
def floppyReads (e : Env) (sector buf sectors : ℕ) : DevM ℤ :=
  floppyReadsLoop e sectors sector buf 0

/-- The loop of `floppy_writes`. -/
def floppyWritesLoop (e : Env) : ℕ → ℕ → ℕ → ℤ → DevM ℤ
  | 0, _, _, res => pure res
  | sectors + 1, sector, buf, _ => do
    let res ← floppyWrite e sector buf
    if res < 0 then pure res
    else floppyWritesLoop e sectors ((sector + 1) % 2 ^ 32) (buf + 512) res

/-- `floppy_writes`. -/
def floppyWrites (e : Env) (sector buf sectors : ℕ) : DevM ℤ :=
  floppyWritesLoop e sectors sector buf 0

/-! ### Blocks -/

/-- `TFS_FS_SECTOR`. -/
def TFS_FS_SECTOR : ℕ := 832

/-- The sector a block starts at. -/
def sectorOf (sbi : TfsSbInfo) (block : ℕ) : ℕ :=
  (block <<< (sbi.sBlockShift - 9) + sbi.sOffset + TFS_FS_SECTOR) % 2 ^ 32

/-- The sectors of a block. -/
def sectorsPerBlock (sbi : TfsSbInfo) : ℕ := 1 <<< (sbi.sBlockShift - 9)

/-- `tfs_bread`. -/
def tfsBread (e : Env) (sbi : TfsSbInfo) (block buf : ℕ) : DevM ℤ :=
  floppyReads e (sectorOf sbi block) buf (sectorsPerBlock sbi)

/-- `tfs_bwrite`, recorded with the caller's `undone` flag. -/
def tfsBwriteTagged (undone : Bool) (e : Env) (sbi : TfsSbInfo) (block buf : ℕ) : DevM ℤ :=
  fun d =>
    let (res, d') := floppyWrites e (sectorOf sbi block) buf (sectorsPerBlock sbi) d
    (res, { d' with
      log := d'.log ++ [.store undone
        { block, sector := sectorOf sbi block, sectors := sectorsPerBlock sbi,
          tick := d.ticks, res, data := d.buf buf }] })

/-- `tfs_bwrite`. -/
def tfsBwrite : Env → TfsSbInfo → ℕ → ℕ → DevM ℤ := tfsBwriteTagged false

/-! ### The block cache -/

/-- `CACHE_SIZE`. -/
def CACHE_SIZE : ℕ := 32 <<< 10

/-- `MAX_CACHE_ENTRIES`. -/
def MAX_CACHE_ENTRIES : ℕ := 64

/-- The label `-1` of an entry that holds no block. -/
def emptyBlock : ℕ := 0xffffffff

/-- `cs->block = block`. -/
def Dev.setBlock (d : Dev) (cs : CacheRef) (block : ℕ) : Dev :=
  { d with cache := Function.update d.cache cs { d.cache cs with block } }

/-- `cs->prev = p`. -/
def Dev.setPrev (d : Dev) (cs p : CacheRef) : Dev :=
  { d with cache := Function.update d.cache cs { d.cache cs with prev := p } }

/-- `cs->next = n`. -/
def Dev.setNext (d : Dev) (cs n : CacheRef) : Dev :=
  { d with cache := Function.update d.cache cs { d.cache cs with next := n } }

/-- `cs->data = a`. -/
def Dev.setData (d : Dev) (cs : CacheRef) (a : ℕ) : Dev :=
  { d with cache := Function.update d.cache cs { d.cache cs with data := a } }

/-- The loop of `cache_init`, with `n` entries to go from `cache[i]` on. -/
def cacheInitLoop (blockSize : ℕ) : ℕ → ℕ → CacheRef → ℕ → Dev → Dev
  | 0, _, _, _, d => d
  | n + 1, i, prev, data, d =>
    let cur := CacheRef.entry i
    cacheInitLoop blockSize n (i + 1) cur (data + blockSize)
      ((((d.setBlock cur emptyBlock).setPrev cur prev).setNext prev cur).setData cur data)

/-- `cache_init`, for a file system with this block shift. -/
def cacheInit (blockShift : ℕ) (d : Dev) : Dev :=
  let entries := CACHE_SIZE >>> blockShift
  let entries := if entries > MAX_CACHE_ENTRIES then MAX_CACHE_ENTRIES else entries
  let d := { d with cacheEntries := entries }
  let d := d.setPrev .head (.entry (entries - 1))
  let d := d.setNext (d.cache .head).prev .head
  cacheInitLoop (1 <<< blockShift) entries 0 .head 0 d

/-- The scan of `get_cache_block`: from `cs` back, over at most `n` entries. -/
def findBlock (d : Dev) (block : ℕ) : ℕ → CacheRef → Option CacheRef
  | 0, _ => none
  | n + 1, cs =>
    if (d.cache cs).block = block then some cs else findBlock d block n (d.cache cs).prev

/-- Take an entry from its place in the list and add it just before the head. -/
def relink (last cs : CacheRef) (d : Dev) : Dev :=
  let d := d.setNext (d.cache cs).prev (d.cache cs).next
  let d := d.setPrev (d.cache cs).next (d.cache cs).prev
  let d := d.setNext last cs
  let d := d.setPrev cs last
  let d := d.setPrev .head cs
  d.setNext cs .head

/-- `get_cache_block`, for a `struct fs` whose `sb` is `sb`: `none` for `NULL`. The
number is unsigned, so the test for a negative one is never met. -/
def getCacheBlock (e : Env) (sb : TfsSbInfo) (block : ℕ) : DevM (Option CacheRef) := fun d =>
  let last := (d.cache .head).prev
  if (d.cache last).block = block then (some last, d)
  else
    match findBlock d block d.cacheEntries last with
    | some cs => (some cs, relink last cs d)
    | none =>
      let cs := (d.cache .head).next
      let (res, d') := tfsBread e sb block (d.cache cs).data d
      let d' := { d' with
        log := d'.log ++ [.load (d.cache cs).block
          { block, sector := sectorOf sb block, sectors := sectorsPerBlock sb,
            tick := d.ticks, res, data := d'.buf (d.cache cs).data }] }
      if res ≠ 0 then (none, d')
      else (some cs, relink last cs (d'.setBlock cs block))

/-! ### A small volume -/

/-- The environment in which nothing goes wrong. -/
def Env.quiet (sbi : TfsSbInfo) : Env where
  sbi := sbi
  straySbi := sbi
  transfer _ := .done
  mallocOk _ := true
  junk _ := 0
  beyond _ := []
  wild _ _ := 0
  nullString := []

/-- The memory before anything has run, with an empty disk. -/
def Dev.blank : Dev where
  cache _ := { block := 0, prev := .head, next := .head, data := 0 }
  cacheEntries := 0
  cacheData _ := 0
  disk _ _ := 0
  ticks := 0
  log := []

/-- The super block of a volume of 32 blocks of `2 ^ shift` bytes: the bitmaps in the
blocks 2 and 3, the inode table in 4 and 5, the data from 6 on. -/
def smallSuper (shift : ℕ) : TfsSuperBlock where
  sInodesCount := 16
  sBlocksCount := 32
  sFreeBlocksCount := 26
  sFreeInodesCount := 16
  sMagic := TFS_MAGIC
  sBlockShift := shift
  sInodeBitmap := 2
  sBlockBitmap := 3
  sInodeTable := 4
  sDataArea := 6
  sOffset := 0

/-- What `tfs_mount` makes of it. -/
def smallSbi (shift : ℕ) : TfsSbInfo where
  sInodesCount := 16
  sBlocksCount := 32
  sFreeBlocksCount := 26
  sFreeInodesCount := 16
  sBlockShift := shift
  sBlockSize := 1 <<< shift
  sInodeBitmap := 2
  sInodeBitmapCount := 1
  sBlockBitmap := 3
  sBlockBitmapCount := 1
  sInodeTable := 4
  sInodeTableCount := 2
  sDataArea := 6
  sOffset := 0
  sInodesPerBlock := (1 <<< shift) / sizeofTfsInode

end Thunix.Fs
