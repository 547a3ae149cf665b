import Thunix.Fs.Dir
import Thunix.Fs.File

/-!
# Inode objects

The layer of `struct inode` pointers. An object has a number, which is never used
again, and is alive from the `malloc` that makes it to the `free` that is given it.
Nothing keeps the program from using a pointer beyond that: an object keeps its last
contents, and every use of one that is not alive, and every second `free` of one, is
recorded as a fault. `Thunix.Fs.freeInode` is `free_inode`, which spares the object
that is the current directory at that moment.

The functions of `fs/tfs/inode.c` and `fs/tfs/dir.c` that make and free objects are
here, the system calls in `Thunix.Fs.Syscall`.
-/

namespace Thunix.Fs

/-! ### The state -/

/-- `struct file`, without its constant members. -/
structure File where
  inode : ℕ
  offset : ℕ

/-- A wrong use of a pointer. -/
inductive Fault
  /-- An object is used that has been freed. -/
  | dangling (obj : ℕ)
  /-- An object is freed that has been freed. -/
  | doubleFree (obj : ℕ)
  /-- A pointer is used that is an error number, or no pointer. -/
  | badPointer
  deriving DecidableEq, Repr

/-- The state of the file system. -/
structure Kernel where
  dev : Dev
  /-- The contents of the inode objects. -/
  objs : ℕ → Inode
  /-- Whether an object is allocated. -/
  alive : ℕ → Bool
  /-- The number of the next object. -/
  nextObj : ℕ
  /-- `root_fs()->root`. -/
  root : ℕ
  /-- `root_fs()->pwd`. -/
  pwd : ℕ
  /-- `root_fs()->cwd`. -/
  cwd : List UInt8
  /-- `fds`. -/
  fds : ℕ → Bool
  /-- `files`. -/
  files : ℕ → Option File
  /-- The open `DIR`s. -/
  dirs : ℕ → Option File
  /-- The number of the next `DIR`. -/
  nextDir : ℕ
  faults : List Fault

/-- Computations on the file system. -/
abbrev KernelM := StateM Kernel

theorem KernelM.bind_apply {α β : Type} (x : KernelM α) (f : α → KernelM β) (k : Kernel) :
    (x >>= f) k = f (x k).1 (x k).2 := rfl

theorem KernelM.pure_apply {α : Type} (a : α) (k : Kernel) : (pure a : KernelM α) k = (a, k) := rfl

/-- A computation on the cache and the disk. -/
def onDev {α : Type} (x : DevM α) : KernelM α := fun k =>
  ((x k.dev).1, { k with dev := (x k.dev).2 })

/-- A fault is recorded. -/
def fault (f : Fault) : KernelM Unit := fun k => ((), { k with faults := k.faults ++ [f] })

/-- An object is used. -/
def touch (obj : ℕ) : KernelM Unit := fun k =>
  if k.alive obj then ((), k) else fault (.dangling obj) k

/-- The contents of an object. -/
def inodeAt (obj : ℕ) : KernelM Inode := do
  touch obj
  fun k => (k.objs obj, k)

/-- The contents of an object change. -/
def setInode (obj : ℕ) (inode : Inode) : KernelM Unit := do
  touch obj
  fun k => ((), { k with objs := Function.update k.objs obj inode })

/-! ### Making and freeing objects -/

variable (e : Env)

/-- `new_inode`, with a `data_size` of `TFS_N_BLOCKS` words. -/
def newInode (mode : ℤ) : KernelM (Option ℕ) := do
  if !(← onDev (mallocOk e)) then pure none
  else if !(← onDev (mallocOk e)) then pure none
  else fun k => (some k.nextObj, { k with
    objs := Function.update k.objs k.nextObj (newInodeValue mode)
    alive := Function.update k.alive k.nextObj true
    nextObj := k.nextObj + 1 })

/-- `free`, of an object. -/
def freeObj (obj : ℕ) : KernelM Unit := fun k =>
  if k.alive obj then ((), { k with alive := Function.update k.alive obj false })
  else fault (.doubleFree obj) k

/-- `free_inode`. -/
def freeInode (obj : ℕ) : KernelM Unit := do
  touch obj
  fun k => if obj = k.pwd then ((), k) else freeObj obj k

/-- `tfs_new_inode`. On an error the object is freed without a look at `pwd`. -/
def tfsNewInode (dir : ℕ) (mode : ℤ) : KernelM (Except ℤ ℕ) := do
  match ← newInode e mode with
  | none => pure (.error (-ENOMEM))
  | some obj => do
    let dirInode ← inodeAt dir
    let inr ← onDev (tfsAllocInode e TFS_ROOT_INODE)
    if inr < 0 then do
      freeObj obj
      pure (.error inr)
    else do
      let inode ← inodeAt obj
      setInode obj { inode with iIno := toU32 inr, iBlksize := dirInode.iBlksize }
      pure (.ok obj)

/-- `tfs_iget_by_inr`. -/
def tfsIgetByInr (inr : ℤ) : KernelM (Except ℤ ℕ) := do
  let tinode ← onDev (tfsReadInode e inr)
  match ← newInode e 0 with
  | none => pure (.error (-ENOMEM))
  | some obj => do
    setInode obj (igetValue e inr tinode)
    pure (.ok obj)

/-- The inode number of a directory entry. -/
def entryInr (de : ℕ) : DevM ℤ := readMem fun m => toS32 (le32 m de)

/-- `tfs_iget`. -/
def tfsIget (dname : List UInt8) (dir : ℕ) : KernelM (Except ℤ ℕ) := do
  let inode ← inodeAt dir
  match ← onDev (tfsFindEntry e inode dname) with
  | .null => pure (.error (-ENOENT))
  | .err err => pure (.error err)
  | .found _ de => do
    touch dir
    tfsIgetByInr e (← onDev (entryInr de))

/-- The loop of `tfs_release_inode` over the blocks from `index` on, of which `n` are
left in `i_data`. -/
def releaseLoop (inode : Inode) : ℕ → ℕ → ℤ → DevM ℤ
  | 0, _, res => pure res
  | n + 1, index, res => do
    let block := tfsBmap inode index
    if block = 0 then pure res
    else
      let res ← tfsFreeBlock e block
      if res < 0 then pure res else releaseLoop inode n (index + 1) res

/-- `tfs_release_inode`. When the inode cannot be freed on the disk the object is left. -/
def tfsReleaseInode (obj : ℕ) : KernelM ℤ := do
  let inode ← inodeAt obj
  let res ← onDev (tfsFreeInode e (toS32 inode.iIno))
  if res < 0 then pure res
  else do
    let inode ← inodeAt obj
    let res ← onDev (releaseLoop e inode TFS_N_BLOCKS 0 res)
    freeInode obj
    pure res

/-- `tfs_iwrite`, of an object. -/
def iwriteObj (obj : ℕ) : KernelM ℤ := do
  let inode ← inodeAt obj
  onDev (tfsIwrite e inode)

/-- `tfs_add_entry`, to the directory of an object. -/
def addEntryObj (dir : ℕ) (name : List UInt8) (inr : ℕ) : KernelM (ℤ × Bool) := do
  let inode ← inodeAt dir
  let (err, inode, dirty) ← onDev (tfsAddEntry e inode name (toS32 inr) false)
  setInode dir inode
  pure (err, dirty)

/-! ### Making and removing entries -/

/-- The end of `tfs_mknod`: write the new inode, enter it, write the directory. -/
def enterInode (dir : ℕ) (dname : List UInt8) (obj : ℕ) : KernelM ℤ := do
  if (← iwriteObj e obj) ≠ 0 then pure (- EIO)
  else do
    let inode ← inodeAt obj
    let (err, dirty) ← addEntryObj e dir dname inode.iIno
    if err ≠ 0 then pure err
    else if dirty then do
      if (← iwriteObj e dir) ≠ 0 then pure (- EIO) else pure 0
    else pure 0

/-- `tfs_mknod`, when the name has not been found. -/
def makeEntry (dir : ℕ) (dname : List UInt8) (mode : ℤ) : KernelM (Except ℤ ℕ) := do
  match ← tfsNewInode e dir mode with
  | .error err => pure (.error err)
  | .ok obj => do
    let err ← enterInode e dir dname obj
    if err ≠ 0 then do
      freeInode obj
      pure (.error err)
    else pure (.ok obj)

/-- `tfs_mknod`. An error from the search is taken for a name that is not there. -/
def tfsMknod (dir : ℕ) (dname : List UInt8) (mode : ℤ) : KernelM (Except ℤ ℕ) := do
  let inode ← inodeAt dir
  match ← onDev (tfsFindEntry e inode dname) with
  | .found _ _ => pure (.error (-EEXIST))
  | _ => makeEntry e dir dname mode

/-- The name `"."`. -/
def dot : List UInt8 := [46]

/-- The entries of a new directory are added, and its inode is written. -/
def enterDots (dir parentDir : ℕ) : KernelM ℤ := do
  let inode ← inodeAt dir
  let (err, _) ← addEntryObj e dir dot inode.iIno
  if err ≠ 0 then pure err
  else do
    let parent ← inodeAt parentDir
    let (err, dirty) ← addEntryObj e dir (dot ++ dot) parent.iIno
    if err < 0 then pure err
    else if dirty then iwriteObj e dir
    else pure err

/-- `tfs_mkdir`. It frees the parent on every way out. -/
def tfsMkdir (parentDir : ℕ) (dname : List UInt8) : KernelM ℤ := do
  match ← tfsMknod e parentDir dname TFS_DIR with
  | .error err => do
    freeInode parentDir
    pure err
  | .ok dir => do
    let err ← enterDots e dir parentDir
    freeInode dir
    freeInode parentDir
    pure err

/-- `is_empty_dir`. -/
def isEmptyDir (dir : Inode) : ℤ :=
  if dir.iSize > 2 * sizeofDirEntry then 0
  else if dir.iSize < 2 * sizeofDirEntry then -1
  else 1

/-- `cs->block`. -/
def blockOf (cs : CacheRef) : DevM ℕ := fun d => ((d.cache cs).block, d)

/-- `de->d_inode = 0`, and the block of the entry is written. -/
def clearEntry (cs : CacheRef) (de : ℕ) : DevM ℤ := do
  copyIn de 4 fun _ => 0
  tfsBwrite e e.sbi (← blockOf cs) (← dataPtr cs)

/-- `free_inode(inode)`, and the result. -/
def giveUp (obj : ℕ) (err : ℤ) : KernelM ℤ := do
  freeInode obj
  pure err

/-- The common end of `tfs_rmdir` and `tfs_unlink`. -/
def removeEntry (dir obj : ℕ) (cs : CacheRef) (de : ℕ) : KernelM ℤ := do
  let inode ← inodeAt dir
  setInode dir { inode with iSize := toU32 (inode.iSize - sizeofDirEntry) }
  let err ← iwriteObj e dir
  if err ≠ 0 then giveUp obj err
  else do
    let err ← onDev (clearEntry e cs de)
    if err ≠ 0 then giveUp obj err
    else tfsReleaseInode e obj

/-- The common beginning of `tfs_rmdir` and `tfs_unlink`: a call on the inode of an entry,
and the entry. -/
def withEntry (dir : ℕ) (dname : List UInt8) (call : ℕ → CacheRef → ℕ → KernelM ℤ) :
    KernelM ℤ := do
  let inode ← inodeAt dir
  match ← onDev (tfsFindEntry e inode dname) with
  | .null => pure (-ENOENT)
  | .err err => pure err
  | .found cs de => do
    match ← tfsIgetByInr e (← onDev (entryInr de)) with
    | .error err => pure err
    | .ok obj => call obj cs de

/-- `tfs_rmdir`. -/
def tfsRmdir (dir : ℕ) (dname : List UInt8) : KernelM ℤ :=
  withEntry e dir dname fun obj cs de => do
    let inode ← inodeAt obj
    if inode.iMode ≠ TFS_DIR then giveUp obj (-ENOTDIR)
    else if isEmptyDir inode = 0 then giveUp obj (-ENOTEMPTY)
    else if isEmptyDir inode = -1 then giveUp obj (-EINVAL)
    else removeEntry e dir obj cs de

/-- The value of a variable that has not been set. -/
def uninitialised : DevM ℤ := fun d => (e.junk d.ticks, d.tick)

/-- `tfs_unlink`. Where the entry is not a file, `err` has not been set. -/
def tfsUnlink (dir : ℕ) (dname : List UInt8) : KernelM ℤ :=
  withEntry e dir dname fun obj cs de => do
    let inode ← inodeAt obj
    if inode.iMode ≠ TFS_FILE then do
      let err ← onDev (uninitialised e)
      giveUp obj err
    else removeEntry e dir obj cs de

end Thunix.Fs
