import Thunix.Fs.Alloc
import Thunix.Fs.Inode

/-!
# Directories

The parts of `fs/tfs/dir.c` that work on the blocks of one directory. An entry is 32
bytes, an inode number and a name of up to `TFS_NAME_LEN` characters, which has no
terminator when it has that length; an entry with number 0 is free. Strings are lists
of the characters before the terminator.

Both walks follow `i_data` by an index that is not compared with `TFS_N_BLOCKS`, so
the words behind the array (`Thunix.Fs.Env.beyond`) are part of what they follow.
-/

namespace Thunix.Fs

/-- `TFS_NAME_LEN`. -/
def TFS_NAME_LEN : ℕ := 28

/-- `sizeof(struct tfs_dir_entry)`. -/
def sizeofDirEntry : ℕ := 32

/-! ### Names -/

/-- Whether `strlen` of the string at `a` is `n`. -/
def strlenEq (m : ℕ → UInt8) (a n : ℕ) : Bool :=
  (List.range n).all (fun i => m (a + i) ≠ 0) && m (a + n) = 0

/-- `strncmp` of `lib/string.c`, of a string with the bytes at `a`. The count is
decremented before it is tested. -/
def strncmp (m : ℕ → UInt8) : List UInt8 → ℕ → ℤ → ℤ
  | [], a, _ => 0 - (m a).toNat
  | c :: s1, a, n =>
    if n - 1 ≠ 0 ∧ c = m a ∧ c ≠ 0 then strncmp m s1 (a + 1) (n - 1)
    else c.toNat - (m a).toNat

/-- `tfs_match_entry`. -/
def tfsMatchEntry (name : List UInt8) (m : ℕ → UInt8) (de : ℕ) : Bool :=
  if le32 m de = 0 then false
  else if ¬strlenEq m (de + 4) name.length ∧ name.length ≠ TFS_NAME_LEN then false
  else strncmp m name (de + 4) name.length = 0

/-! ### Looking up -/

/-- What `tfs_find_entry` returns: `NULL`, an error pointer, or a cache entry, with the
address of the directory entry in its buffer. -/
inductive Lookup
  | null
  | err (e : ℤ)
  | found (cs : CacheRef) (de : ℕ)
  deriving DecidableEq, Repr

/-- The walk over the entries of a block, with `n` to go from `de` on. -/
def findInBlock (name : List UInt8) (m : ℕ → UInt8) : ℕ → ℕ → Option ℕ
  | 0, _ => none
  | n + 1, de =>
    if le32 m de = 0 then findInBlock name m n (de + sizeofDirEntry)
    else if tfsMatchEntry name m de then some de
    else findInBlock name m n (de + sizeofDirEntry)

variable (e : Env)

/-- How many entries a block holds. -/
def entriesPerBlock : ℕ := e.sbi.sBlockSize / sizeofDirEntry

/-- The walk of `tfs_find_entry` over the blocks of a list of words of `i_data`. -/
def findEntryLoop (dname : List UInt8) : List ℕ → DevM Lookup
  | [] => pure .null
  | block :: rest => do
    match ← getCacheBlock e e.sbi block with
    | none => pure (.err (- EIO))
    | some cs => do
      let data ← dataPtr cs
      match ← readMem fun m => findInBlock dname m (entriesPerBlock e) data with
      | some de => pure (.found cs de)
      | none => if rest.headD 0 < e.sbi.sDataArea then pure .null else findEntryLoop dname rest

/-- The words from `i_data` on. -/
def dataWords (inode : Inode) : DevM (List ℕ) := fun d =>
  (inode.iData ++ e.beyond d.ticks, d.tick)

/-- `tfs_find_entry`. -/
def tfsFindEntry (inode : Inode) (dname : List UInt8) : DevM Lookup := do
  if inode.iData.getD 0 0 = 0 then pure .null
  else findEntryLoop e dname (← dataWords e inode)

/-! ### Adding -/

/-- The first free entry of a block. -/
def freeInBlock (m : ℕ → UInt8) : ℕ → ℕ → Option ℕ
  | 0, _ => none
  | n + 1, de => if le32 m de = 0 then some de else freeInBlock m n (de + sizeofDirEntry)

/-- Where the walk of `tfs_add_entry` ends: at a failed request, at a free entry of a
block, or at a zero word of `i_data`, the one before `index`. -/
inductive Place
  | fail
  | slot (block : ℕ) (cs : CacheRef) (de : ℕ)
  | full (index : ℕ)
  deriving DecidableEq, Repr

/-- The walk of `tfs_add_entry`. -/
def addEntryLoop : List ℕ → ℕ → DevM Place
  | [], index => pure (.full index)
  | block :: rest, index => do
    match ← getCacheBlock e e.sbi block with
    | none => pure .fail
    | some cs => do
      let data ← dataPtr cs
      match ← readMem fun m => freeInBlock m (entriesPerBlock e) data with
      | some de => pure (.slot block cs de)
      | none =>
        if rest.headD 0 = 0 then pure (.full (index + 1)) else addEntryLoop rest (index + 1)

/-- The bytes of a new entry. -/
def newEntry (inr : ℤ) (name : List UInt8) : ℕ → UInt8 := fun k =>
  if k < 4 then byteOf (toU32 inr) k else name.getD (k - 4) 0

/-- The end of `tfs_add_entry`: fill the entry and write its block. -/
def putEntry (dir : Inode) (name : List UInt8) (inr : ℤ) (block : ℕ) (cs : CacheRef) (de : ℕ) :
    DevM (ℤ × Inode × Bool) := do
  let dir := { dir with iSize := (dir.iSize + sizeofDirEntry) % 2 ^ 32 }
  copyIn de sizeofDirEntry (newEntry inr name)
  let data ← dataPtr cs
  if (← tfsBwrite e e.sbi block data) ≠ 0 then pure (- EIO, dir, true) else pure (0, dir, true)

/-- The first entry of a block just allocated, which is cleared. -/
def putFirstEntry (dir : Inode) (name : List UInt8) (inr : ℤ) (block : ℕ) (cs : CacheRef) :
    DevM (ℤ × Inode × Bool) := do
  let data ← dataPtr cs
  copyIn data e.sbi.sBlockSize fun _ => 0
  putEntry e dir name inr block cs data

/-- The walk of `tfs_add_entry`, if the directory has a block. -/
def findPlace (dir : Inode) : DevM Place :=
  if dir.iData.getD 0 0 = 0 then pure (.full 1)
  else do addEntryLoop e (← dataWords e dir) 1

/-- `tfs_add_entry`: the result, the directory inode and `*dirty` after it. The block
number from `tfs_alloc_block` is unsigned, so the test for an error is never met. -/
def tfsAddEntry (dir : Inode) (name : List UInt8) (inr : ℤ) (dirty : Bool) :
    DevM (ℤ × Inode × Bool) := do
  if name.length > TFS_NAME_LEN then pure (-ENAMETOOLONG, dir, dirty)
  else
    let place ← findPlace e dir
    match place with
    | .fail => pure (- EIO, dir, dirty)
    | .slot block cs de => putEntry e dir name inr block cs de
    | .full index => do
      let dirty := if dir.iData.getD 0 0 = 0 then dirty else false
      let block := toU32 (← tfsAllocBlock e e.sbi.sDataArea)
      if index > TFS_N_BLOCKS then pure (-EFBIG, dir, dirty)
      else
        let dir := dir.setData (index - 1) block
        match ← getCacheBlock e e.sbi block with
        | none => pure (- EIO, dir, dirty)
        | some cs => putFirstEntry e dir name inr block cs

/-! ### Listing -/

/-- `struct dirent`, as `tfs_readdir` fills it. -/
structure Dirent where
  dIno : ℕ
  dOff : ℕ
  dReclen : ℕ
  dType : ℕ
  dName : List UInt8

/-- The entry `tfs_readdir` looks at. A `NULL` from the cache is not tested for. -/
def entryAt (block offset : ℕ) : DevM (ℕ → UInt8) := do
  match ← getCacheBlock e e.sbi block with
  | none => wildBytes e
  | some cs => do
    let data ← dataPtr cs
    readMem fun m i => m (data + (offset &&& (e.sbi.sBlockSize - 1)) + i)

/-- `tfs_readdir`, with the calls it makes of itself bounded: the entry and the offset
after it. -/
def tfsReaddirLoop (inode : Inode) : ℕ → ℕ → DevM (Option Dirent × ℕ)
  | 0, offset => pure (none, offset)
  | fuel + 1, offset => do
    let block := tfsBmap inode (offset >>> e.sbi.sBlockShift)
    if block = 0 then pure (none, offset)
    else
      let de ← entryAt e block offset
      if !(← mallocOk e) then pure (none, offset)
      else
        let next := (offset + sizeofDirEntry) % 2 ^ 32
        -- skip the invalid one
        if le32 de 0 = 0 then tfsReaddirLoop inode fuel next
        else pure (some
          { dIno := le32 de 0
            dOff := offset
            dReclen := sizeofDirEntry
            dType := 0
            dName := (List.range TFS_NAME_LEN).map fun k => de (4 + k) }, next)

/-- `tfs_readdir`. It ends at the latest behind the last entry that `i_data` has room
for. -/
def tfsReaddir (inode : Inode) (offset : ℕ) : DevM (Option Dirent × ℕ) :=
  tfsReaddirLoop e inode (TFS_N_BLOCKS * entriesPerBlock e + 1) offset

end Thunix.Fs
