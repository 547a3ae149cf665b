import Thunix.Fs.Kernel

/-!
# Path lookup and system calls

`fs/namei.c`, `fs/inode.c`, `fs/file.c`, `fs/dir.c`, `fs/fslib.c` and `fs/super.c` over
inode objects. `namei` frees each directory it has walked past, through `free_inode`,
which spares the current directory and nothing else.

A path is walked character by character here as in the source, which lets the
recursion follow the string.
-/

namespace Thunix.Fs

/-- The character `'/'`. -/
def slash : UInt8 := 47

/-- `MAX_NAME_LEN`. -/
def MAX_NAME_LEN : ℕ := 255

/-- `MAX_FD`. -/
def MAX_FD : ℕ := 32

/-- `flag & LOOKUP_PARENT`. -/
def lookupParent (flag : ℕ) : Bool := flag.testBit 0

/-- `flag & LOOKUP_CREATE`. -/
def lookupCreate (flag : ℕ) : Bool := flag.testBit 1

/-! ### Strings -/

/-- The string behind the last `'/'`, if there is one. -/
def behindSlash : List UInt8 → Option (List UInt8)
  | [] => none
  | c :: s =>
    match behindSlash s with
    | some t => some t
    | none => if c = slash then some s else none

/-- `get_base_name`, with what `strdup` made of the path: `none` for `NULL`. In a copy
that ends in `'/'` the last component is cleared character by character, and what is
left of it returned. -/
def getBaseName (pathOrg path : List UInt8) : Option (List UInt8) :=
  match behindSlash path with
  | none => some pathOrg
  | some [] => if slash ∈ path.dropLast then some [] else none
  | some (c :: s) => some (c :: s)

variable (e : Env)

/-- The string the pointer from `get_base_name` is read as. There is some string at
`NULL`, too, which is also what `strdup` returns when it finds no memory. -/
def baseName (pathname : List UInt8) : DevM (List UInt8) := do
  let path := if ← mallocOk e then pathname else e.nullString
  pure ((getBaseName pathname path).getD e.nullString)

/-! ### `namei` -/

/-- Where the walk of `namei` ends: at an inode, or at an error, with the parent and
the component it is about. -/
inductive Walked
  | inode (obj : ℕ)
  | parent (obj : ℕ)
  | tooLong
  | missing (err : ℤ) (parent : ℕ) (part : List UInt8)

/-- One component of the walk, and what comes next with its inode. -/
def walkInto (part : List UInt8) (parent : ℕ) (next : ℕ → KernelM Walked) : KernelM Walked := do
  match ← tfsIget e part parent with
  | .error err => pure (.missing err parent part)
  | .ok obj => do
    freeInode parent
    next obj

/-- The walk of `namei` over the rest of the path, with the characters of the component
so far. -/
def nameiWalk (flag : ℕ) : List UInt8 → List UInt8 → ℕ → KernelM Walked
  | [], part, parent => do
    if part = [] then pure (.inode parent)
    else if lookupParent flag then pure (.parent parent)
    else walkInto e part parent fun obj => pure (.inode obj)
  | c :: name, part, parent => do
    if c ≠ slash then
      if MAX_NAME_LEN ≤ part.length then pure .tooLong
      else nameiWalk flag name (part ++ [c]) parent
    else if part = [] then nameiWalk flag name [] parent
    else if lookupParent flag ∧ name.all (· = slash) then pure (.parent parent)
    else walkInto e part parent fun obj => nameiWalk flag name [] obj

/-- The end of `namei` for a component that has not been found. -/
def nameiCreate (parent : ℕ) (part : List UInt8) : KernelM (Except ℤ ℕ) := do
  let made ← tfsMknod e parent part TFS_FILE
  freeInode parent
  match made with
  | .error err => pure (.error err)
  | .ok obj => do
    if (← iwriteObj e obj) ≠ 0 then do
      freeInode obj
      pure (.error (- EIO))
    else pure (.ok obj)

/-- `namei`. -/
def namei (name : List UInt8) (flag : ℕ) : KernelM (Except ℤ ℕ) := do
  let start ← fun k => (if name.head? = some slash then k.root else k.pwd, k)
  match ← nameiWalk e flag name [] start with
  | .inode obj => pure (.ok obj)
  | .parent obj => pure (.ok obj)
  | .tooLong => pure (.error (-ENAMETOOLONG))
  | .missing err parent part =>
    if err = -ENOENT ∧ lookupCreate flag then nameiCreate e parent part
    else pure (.error err)

/-- `namei_parent`. The test of the result is the wrong way round: an inode is returned
as it is, and an error is followed as if it were an inode. -/
def nameiParent (pathname : List UInt8) : KernelM (Except ℤ ℕ) := do
  match ← namei e pathname 1 with
  | .ok dir => pure (.ok dir)
  | .error err => do
    fault .badPointer
    -- `dir->i_mode`, and in `free_inode`, through the same pointer, `i_fs`
    if (← onDev (uninitialised e)) ≠ TFS_DIR then pure (.error (-ENOTDIR))
    else pure (.error err)

/-! ### Directories -/

/-- A call on the parent directory of a path, which is freed after it. -/
def withParent (call : ℕ → List UInt8 → KernelM ℤ) (pathname : List UInt8) : KernelM ℤ := do
  match ← nameiParent e pathname with
  | .error err => pure err
  | .ok dir => do
    touch dir
    let dname ← onDev (baseName e pathname)
    let err ← call dir dname
    freeInode dir
    pure err

/-- `sys_mkdir`. -/
def sysMkdir : List UInt8 → KernelM ℤ := withParent e (tfsMkdir e)

/-- `sys_rmdir`. -/
def sysRmdir : List UInt8 → KernelM ℤ := withParent e (tfsRmdir e)

/-- `sys_unlink`. -/
def sysUnlink : List UInt8 → KernelM ℤ := withParent e (tfsUnlink e)

/-- The call of `sys_mknod` on the parent. -/
def mknodIn (mode : ℤ) (dir : ℕ) (dname : List UInt8) : KernelM ℤ := do
  match ← tfsMknod e dir dname mode with
  | .error err => pure err
  | .ok obj => do
    freeInode obj
    pure (-ENOSYS)

/-- `sys_mknod`, which returns `-ENOSYS` when it has succeeded. -/
def sysMknod (mode : ℤ) : List UInt8 → KernelM ℤ := withParent e (mknodIn e mode)

/-- The path without the `"./"` it begins with. -/
def skipDots : List UInt8 → List UInt8
  | c :: c' :: s => if c = 46 ∧ c' = slash then skipDots s else c :: c' :: s
  | s => s

/-- The string before the last `'/'`. -/
def beforeSlash (s : List UInt8) : Option (List UInt8) :=
  (behindSlash s).map fun t => s.take (s.length - (t.length + 1))

/-- The change of `cwd` in `sys_chdir`, and the result. -/
def chdirCwd (pathname cwd : List UInt8) : List UInt8 × ℤ :=
  if pathname.head? = some slash then (pathname, 0)
  else if pathname = dot ++ dot then
    match beforeSlash cwd with
    | none => (cwd, -EINVAL)
    | some [] => ([slash], 0)
    | some s => (s, 0)
  else (cwd ++ pathname, 0)

/-- The end of `sys_chdir`. The object freed is `pwd`, which `free_inode` never frees. -/
def changeDir (pathname : List UInt8) (obj : ℕ) : KernelM ℤ := do
  freeInode (← fun k => (k.pwd, k))
  fun k => ((chdirCwd pathname k.cwd).2, { k with pwd := obj, cwd := (chdirCwd pathname k.cwd).1 })

/-- `sys_chdir`. -/
def sysChdir (pathname : List UInt8) : KernelM ℤ := do
  let pathname := skipDots pathname
  if pathname = dot then pure 0
  else
    match ← namei e pathname 0 with
    | .error err => pure err
    | .ok obj => do
      let inode ← inodeAt obj
      if inode.iMode ≠ TFS_DIR then giveUp obj (-ENOTDIR)
      else changeDir pathname obj

/-- `opendir`: the number of the `DIR`. -/
def opendir (path : List UInt8) : KernelM (Except ℤ ℕ) := do
  match ← namei e path 0 with
  | .error err => pure (.error err)
  | .ok obj => do
    if !(← onDev (mallocOk e)) then pure (.error (-ENOMEM))
    else if !(← onDev (mallocOk e)) then pure (.error (-ENOMEM))
    else do
      touch obj
      fun k => (.ok k.nextDir, { k with
        dirs := Function.update k.dirs k.nextDir (some { inode := obj, offset := 0 })
        nextDir := k.nextDir + 1 })

/-- `tfs_closedir`, of an open `DIR`. -/
def tfsClosedir (dir : ℕ) : KernelM Unit := fun k =>
  match k.dirs dir with
  | none => ((), k)
  | some file =>
    let k := (freeInode file.inode k).2
    ((), { k with dirs := Function.update k.dirs dir none })

/-! ### Files -/

/-- `get_unused_fd`. -/
def getUnusedFd : KernelM ℕ := fun k =>
  match (List.range MAX_FD).find? fun i => !k.fds i with
  | some i => (i, { k with fds := Function.update k.fds i true })
  | none => (MAX_FD, k)

/-- `sys_open`. -/
def sysOpen (pathname : List UInt8) (flags : ℕ) : KernelM ℤ := do
  match ← namei e pathname flags with
  | .error err => pure err
  | .ok obj => do
    if !(← onDev (mallocOk e)) then pure (-ENOMEM)
    else do
      touch obj
      let fd ← getUnusedFd
      if MAX_FD ≤ fd then pure (-EINVAL)
      else fun k => (fd, { k with
        files := Function.update k.files fd (some { inode := obj, offset := 0 }) })

/-- What `files[fd]` is: an open file, `NULL`, or, behind the array, a word that may be
neither. -/
inductive Fget
  | file (f : File)
  | null
  | bad

/-- The test of a descriptor, which lets `MAX_FD` pass, and `fget`. -/
def fget (fd : ℤ) : KernelM (Option Fget) := do
  if fd < 0 ∨ fd > MAX_FD then pure none
  else if fd = MAX_FD then do
    if (← onDev (uninitialised e)) = 0 then pure (some .null)
    else pure (some .bad)
  else fun k =>
    match k.files fd.toNat with
    | none => (some .null, k)
    | some f => (some (.file f), k)

/-- A call on an open file. -/
def withFile (fd : ℤ) (call : File → KernelM ℤ) : KernelM ℤ := do
  match ← fget e fd with
  | none => pure (-EBADF)
  | some .null => pure (-EBADF)
  | some .bad => do
    fault .badPointer
    onDev (uninitialised e)
  | some (.file f) => call f

/-- `file->offset = offset`. -/
def setOffset (fd offset : ℕ) : KernelM Unit := fun k =>
  ((), { k with
    files := Function.update k.files fd ((k.files fd).map fun f => { f with offset := offset }) })

/-- The number of blocks a call on `size` bytes asks for. -/
def blocksFor (size blksize : ℤ) : ℤ :=
  toS32 (toU32 (size + blksize - 1)) >>> e.sbi.sBlockShift

/-- `MIN`, of two `int`s. -/
def minInt (a b : ℤ) : ℤ := if a < b then a else b

/-- `sys_write`, of bytes at `buf`. -/
def sysWrite (fd : ℤ) (buf : ℕ → UInt8) (size : ℤ) : KernelM ℤ :=
  withFile e fd fun f => do
    let inode ← inodeAt f.inode
    let (bytesWritten, inode) ←
      onDev (tfsWrite e inode f.offset buf (blocksFor e size inode.iBlksize))
    setInode f.inode inode
    let bytesWritten := minInt size bytesWritten
    if bytesWritten > 0 then setOffset fd.toNat (toU32 (f.offset + bytesWritten))
    pure bytesWritten

/-- `sys_read`: the result, and the caller's buffer. What is needed is the smaller of two
unsigned numbers. -/
def sysRead (fd : ℤ) (buf : ℕ → UInt8) (size : ℤ) : KernelM (ℤ × (ℕ → UInt8)) := do
  match ← fget e fd with
  | none => pure (-EBADF, buf)
  | some .null => pure (-EBADF, buf)
  | some .bad => do
    fault .badPointer
    pure (← onDev (uninitialised e), buf)
  | some (.file f) => do
    let inode ← inodeAt f.inode
    let bytesNeed := toS32 (min (toU32 size) (toU32 (inode.iSize - f.offset)))
    let (bytesRead, buf) ←
      onDev (tfsRead e inode f.offset buf (blocksFor e bytesNeed inode.iBlksize))
    let bytesRead := minInt bytesNeed bytesRead
    if bytesRead > 0 then do
      let skip := f.offset &&& toU32 (inode.iBlksize - 1)
      setOffset fd.toNat (toU32 (f.offset + bytesRead))
      pure (bytesRead, blit buf 0 bytesRead.toNat fun i => buf (i + skip))
    else pure (bytesRead, buf)

/-- `sys_close`. -/
def sysClose (fd : ℤ) : KernelM ℤ :=
  withFile e fd fun f => do
    freeInode f.inode
    fun k => (0, { k with
      fds := Function.update k.fds fd.toNat false
      files := Function.update k.files fd.toNat none })

/-- `sys_lseek`. -/
def sysLseek (fd : ℤ) (off : ℤ) (mode : ℕ) : KernelM ℤ :=
  withFile e fd fun f => do
    if mode = 1 then do
      setOffset fd.toNat (toU32 (f.offset + off))
      pure (toS32 (toU32 (f.offset + off)))
    else if mode = 2 then do
      let inode ← inodeAt f.inode
      setOffset fd.toNat (toU32 (inode.iSize + off))
      pure (toS32 (toU32 (inode.iSize + off)))
    else if mode = 0 then do
      setOffset fd.toNat (toU32 off)
      pure (toS32 (toU32 off))
    else pure (-EINVAL)

/-! ### Start -/

/-- The file system before its root has been looked up. -/
def bootKernel (d : Dev) : Kernel where
  dev := cacheInit e.sbi.sBlockShift d
  objs _ := newInodeValue 0
  alive _ := false
  nextObj := 0
  root := 0
  pwd := 0
  cwd := [slash]
  fds _ := false
  files _ := none
  dirs _ := none
  nextDir := 0
  faults := []

/-- `fs_init`, of the file system mounted, when the root can be looked up. -/
def fsInit (d : Dev) : Option Kernel :=
  match tfsIgetByInr e TFS_ROOT_INODE (bootKernel e d) with
  | (.ok root, k) => some { k with root, pwd := root }
  | (.error _, _) => none

/-! ### A formatted volume -/

/-- The blocks of the small volume, with an empty root directory: inode 1 and the blocks
up to 6 are taken. -/
def formattedBlock : ℕ → ℕ → UInt8
  | 2 => fun i => if i = 0 then 1 else if i = 1 then 0 else 0xff
  | 3 => fun i => if i = 0 then 0x7f else if i < 4 then 0 else 0xff
  | 4 => fun i => if i = 0 then 2 else if i = 4 then 64 else if i = 24 then 6 else 0
  | 6 => fun i => if i = 0 ∨ i = 32 then 1 else if i = 4 ∨ i = 36 ∨ i = 37 then 46 else 0
  | _ => fun _ => 0

/-- The disk with blocks of one sector. -/
def formatted : Dev :=
  { Dev.blank with
    disk := fun sector => if TFS_FS_SECTOR ≤ sector then formattedBlock (sector - TFS_FS_SECTOR)
      else fun _ => 0 }

end Thunix.Fs
