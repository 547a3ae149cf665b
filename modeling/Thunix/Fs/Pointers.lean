import Thunix.Fs.FailedInsert
import Thunix.Fs.FailedWrite
import Thunix.Fs.Kernel

/-!
# The pointers that are dereferenced

If a block cannot be read, `get_cache_block` returns `NULL`. The operations of the file system
are written here a second time, with the pointers to cache entries that they dereference on the
side: a request touches nothing, and each use of what it has returned touches that pointer.

Most of the operations test for `NULL`. For these a run is shown to compute what the operation
of the model does and to touch no pointer that is `NULL`, in one derivation
(`Thunix.Fs.testedPtrs_runs`). `tfs_read_inode` tests with `IS_ERR`, which `NULL` passes, and
`tfs_readdir` does not test; they touch what the request returns.
-/

namespace Thunix.Fs

open Logged

variable {e : Env} {α : Type} {sb : TfsSbInfo} {b : ℕ}

/-! ### A request that is tested -/

/-- The pointer is one to an entry of the cache. -/
def NotNull (p : Option CacheRef) : Prop := p ≠ none

theorem notNull_some (cs : CacheRef) : NotNull (some cs) := Option.some_ne_none cs

/-- A request whose pointer is tested for `NULL` before it is used. -/
def tested (e : Env) (sb : TfsSbInfo) (b : ℕ) (err : α) (rest : CacheRef → DevM α) : DevM α := do
  match ← getCacheBlock e sb b with
  | none => pure err
  | some cs => rest cs

/-- The same, with the pointer that is dereferenced. -/
def testedPtrs (e : Env) (sb : TfsSbInfo) (b : ℕ) (err : α)
    (rest : CacheRef → Prog Dev (Option CacheRef) α) : Prog Dev (Option CacheRef) α := do
  match ← quiet (getCacheBlock e sb b) with
  | none => pure err
  | some cs => rest cs

/-- It is not `NULL`. -/
theorem testedPtrs_runs {err : α} {next : Option CacheRef → DevM α}
    {rest : CacheRef → Prog Dev (Option CacheRef) α} (hnone : next none = pure err)
    (hrest : ∀ cs d, Runs NotNull (rest cs) d (next (some cs) d).1 (next (some cs) d).2) (d : Dev) :
    Runs NotNull (testedPtrs e sb b err rest) d ((getCacheBlock e sb b >>= next) d).1
      ((getCacheBlock e sb b >>= next) d).2 := by
  rw [DevM.bind_apply]
  refine (Runs.quiet _).bind ?_
  generalize getCacheBlock e sb b d = q
  obtain ⟨_ | cs, d'⟩ := q
  · rw [hnone]
    exact .pure _
  · exact hrest cs d'

/-! ### The operations, with the pointers that they dereference -/

section Ptrs

variable (e : Env)

/-- One request, with a rest that makes no other. -/
def testedOnce (sb : TfsSbInfo) (b : ℕ) (err : α) (rest : CacheRef → DevM α) :
    Prog Dev (Option CacheRef) α :=
  testedPtrs e sb b err fun cs => visit (some cs) (rest cs)

/-- The end of `tfs_free_block` and of `tfs_free_inode`. -/
def freeRest (block nr : ℕ) (cs : CacheRef) : DevM ℤ := do
  let bitmap ← dataPtr cs
  if (← clearBitAt bitmap nr) = 0 then pure 0
  else tfsBwrite e e.sbi block bitmap

/-- The end of `tfs_alloc_block`. -/
def allocBlockRest (block : ℕ) (cs : CacheRef) : DevM ℤ := do
  let bitmap ← dataPtr cs
  let taken ← readMem fun m => decide (testBit m bitmap block ≠ 0)
  let block ← findTarget e taken bitmap block
  if block ≠ minusOne then do
    let _ ← setBitAt bitmap block
    let res ← tfsBwrite e e.sbi e.sbi.sBlockBitmap bitmap
    if res < 0 then pure res else pure (toS32 block)
  else pure (-ENOSPC)

/-- The end of `tfs_alloc_inode`. -/
def allocInodeRest (inr : ℤ) (cs : CacheRef) : DevM ℤ := do
  let bitmap ← dataPtr cs
  let taken ← readMem fun m => decide (testBit m bitmap (toU32 (inr - 1)) = 1)
  let inr := toS32 (← findTarget e taken bitmap (toU32 (inr - 1)))
  if 0 ≤ inr then do
    let old ← setBitAt bitmap (toU32 inr)
    let err ← tfsBwriteTagged (old = 0) e e.sbi e.sbi.sInodeBitmap bitmap
    if err ≠ 0 then do
      let _ ← clearBitAt bitmap (toU32 inr)
      pure err
    else pure (inr + 1)
  else pure (-ENOSPC)

theorem tfsAllocBlock_eq (block : ℕ) : tfsAllocBlock e block =
    tested e e.straySbi e.sbi.sBlockBitmap (- EIO) (allocBlockRest e block) := rfl

theorem tfsAllocInode_eq (inr : ℤ) : tfsAllocInode e inr =
    if inr < 1 then pure (-EINVAL)
    else tested e e.straySbi e.sbi.sInodeBitmap (- EIO) (allocInodeRest e inr) := rfl

theorem tfsIwrite_eq (inode : Inode) : tfsIwrite e inode =
    tested e e.sbi (iwriteBlock e inode) (- EIO) (storeRecord e inode (iwriteBlock e inode)
      (toU32 (inode.iIno - 1) % e.sbi.sInodesPerBlock)) := rfl

/-- `tfs_free_block`. -/
def tfsFreeBlockPtrs (block : ℕ) : Prog Dev (Option CacheRef) ℤ :=
  testedOnce e e.straySbi e.sbi.sBlockBitmap (- EIO) (freeRest e e.sbi.sBlockBitmap block)

/-- `tfs_free_inode`. -/
def tfsFreeInodePtrs (inr : ℤ) : Prog Dev (Option CacheRef) ℤ :=
  testedOnce e e.straySbi e.sbi.sInodeBitmap (- EIO)
    (freeRest e e.sbi.sInodeBitmap (toU32 (inr - 1)))

/-- `tfs_alloc_block`. -/
def tfsAllocBlockPtrs (block : ℕ) : Prog Dev (Option CacheRef) ℤ :=
  testedOnce e e.straySbi e.sbi.sBlockBitmap (- EIO) (allocBlockRest e block)

/-- `tfs_alloc_inode`. -/
def tfsAllocInodePtrs (inr : ℤ) : Prog Dev (Option CacheRef) ℤ :=
  if inr < 1 then pure (-EINVAL)
  else testedOnce e e.straySbi e.sbi.sInodeBitmap (- EIO) (allocInodeRest e inr)

/-- `tfs_iwrite`. -/
def tfsIwritePtrs (inode : Inode) : Prog Dev (Option CacheRef) ℤ :=
  testedOnce e e.sbi (iwriteBlock e inode) (- EIO) (storeRecord e inode (iwriteBlock e inode)
    (toU32 (inode.iIno - 1) % e.sbi.sInodesPerBlock))

/-- The walks of `tfs_find_entry` and `tfs_add_entry`. -/
def walkPtrs (look : (ℕ → UInt8) → ℕ → Option ℕ) (stop : ℕ → Prop) [DecidablePred stop] :
    List ℕ → ℕ → Prog Dev (Option CacheRef) Place
  | [], index => pure (.full index)
  | block :: rest, index => testedPtrs e e.sbi block .fail fun cs => do
    let data ← visit (some cs) (dataPtr cs)
    match ← quiet (readMem fun m => look m data) with
    | some de => pure (.slot block cs de)
    | none =>
      if stop (rest.headD 0) then pure (.full (index + 1)) else walkPtrs look stop rest (index + 1)

/-- `tfs_find_entry`. -/
def tfsFindEntryPtrs (inode : Inode) (dname : List UInt8) : Prog Dev (Option CacheRef) Lookup :=
  if inode.iData.getD 0 0 = 0 then pure .null
  else do
    let words ← quiet (dataWords e inode)
    let place ← walkPtrs e (fun m a => findInBlock dname m (entriesPerBlock e) a)
      (· < e.sbi.sDataArea) words 1
    pure place.lookup

/-- The walk of `tfs_add_entry`, if the directory has a block. -/
def findPlacePtrs (dir : Inode) : Prog Dev (Option CacheRef) Place :=
  if dir.iData.getD 0 0 = 0 then pure (.full 1)
  else do
    let words ← quiet (dataWords e dir)
    walkPtrs e (fun m a => freeInBlock m (entriesPerBlock e) a) (· = 0) words 1

/-- What `tfs_add_entry` does from the place its walk has found. -/
def addEntryFromPtrs (dir : Inode) (name : List UInt8) (inr : ℤ) (dirty : Bool) :
    Place → Prog Dev (Option CacheRef) (ℤ × Inode × Bool)
  | .fail => pure (- EIO, dir, dirty)
  | .slot block cs de => visit (some cs) (putEntry e dir name inr block cs de)
  | .full index => do
    let dirty := if dir.iData.getD 0 0 = 0 then dirty else false
    let block := toU32 (← tfsAllocBlockPtrs e e.sbi.sDataArea)
    if index > TFS_N_BLOCKS then pure (-EFBIG, dir, dirty)
    else
      let dir := dir.setData (index - 1) block
      testedOnce e e.sbi block (- EIO, dir, dirty) (putFirstEntry e dir name inr block)

/-- `tfs_add_entry`. -/
def tfsAddEntryPtrs (dir : Inode) (name : List UInt8) (inr : ℤ) (dirty : Bool) :
    Prog Dev (Option CacheRef) (ℤ × Inode × Bool) :=
  if name.length > TFS_NAME_LEN then pure (-ENAMETOOLONG, dir, dirty)
  else do addEntryFromPtrs e dir name inr dirty (← findPlacePtrs e dir)

/-- The loop of `tfs_read`. -/
def tfsReadLoopPtrs (inode : Inode) :
    ℕ → ℕ → ℕ → (ℕ → UInt8) → Prog Dev (Option CacheRef) (ℤ × (ℕ → UInt8))
  | 0, _, bytesRead, buf => pure (bytesRead, buf)
  | blocks + 1, index, bytesRead, buf =>
    if tfsBmap inode index = 0 then pure (bytesRead, buf)
    else testedPtrs e e.sbi (tfsBmap inode index) (- EIO, buf) fun cs => do
      let data ← visit (some cs) (dataPtr cs)
      let bytes ← quiet (readMem fun m i => m (data + i))
      tfsReadLoopPtrs inode blocks (index + 1) (bytesRead + e.sbi.sBlockSize)
        (blit buf bytesRead e.sbi.sBlockSize bytes)

/-- `tfs_read`. -/
def tfsReadPtrs (inode : Inode) (offset : ℕ) (buf : ℕ → UInt8) (blocks : ℤ) :
    Prog Dev (Option CacheRef) (ℤ × (ℕ → UInt8)) :=
  if blocks = 0 then pure (0, buf)
  else if inode.iSize ≤ offset then pure (-1, buf)
  else tfsReadLoopPtrs e inode (toU32 blocks) (offset >>> e.sbi.sBlockShift) 0 buf

/-- The block of a round of `tfs_write`. -/
def blockForWritePtrs (inode : Inode) (index : ℕ) :
    Prog Dev (Option CacheRef) (Except ℤ ℕ × Inode) :=
  if tfsBmap inode index ≠ 0 then pure (.ok (tfsBmap inode index), inode)
  else if index < TFS_N_BLOCKS then do
    let block ← tfsAllocBlockPtrs e e.sbi.sDataArea
    if block < 0 then pure (.error (-ENOSPC), inode)
    else pure (.ok (toU32 block), inode.setData index (toU32 block))
  else pure (.error (-EFBIG), inode)

/-- A round of `tfs_write`, and what follows it. -/
def roundThenPtrs (offset off count bytes : ℕ) (src : ℕ → UInt8)
    (next : Inode → Prog Dev (Option CacheRef) (ℤ × Inode)) (inode : Inode) (index : ℕ) :
    Prog Dev (Option CacheRef) (ℤ × Inode) := do
  let (block, inode) ← blockForWritePtrs e inode index
  match block with
  | .error err => pure (err, inode)
  | .ok block => testedPtrs e e.sbi block (- EIO, inode) fun cs => do
    let res ← visit (some cs) (copyAndWrite e block cs off count src)
    let inode := growSize inode offset bytes
    if res ≠ 0 then pure (- EIO, inode) else next inode

/-- The loop of `tfs_write`. -/
def tfsWriteLoopPtrs (offset : ℕ) (buf : ℕ → UInt8) :
    ℕ → ℕ → ℕ → Inode → Prog Dev (Option CacheRef) (ℤ × Inode)
  | 0, _, bytes, inode => do
    if (← tfsIwritePtrs e inode) ≠ 0 then pure (- EIO, inode) else pure (bytes, inode)
  | n + 1, index, bytes, inode =>
    roundThenPtrs e offset 0 e.sbi.sBlockSize (bytes + e.sbi.sBlockSize) (fun i => buf (bytes + i))
      (fun inode => tfsWriteLoopPtrs offset buf n (index + 1) (bytes + e.sbi.sBlockSize) inode)
      inode index

/-- `tfs_write`. -/
def tfsWritePtrs (inode : Inode) (offset : ℕ) (buf : ℕ → UInt8) (blocks : ℤ) :
    Prog Dev (Option CacheRef) (ℤ × Inode) :=
  if blocks = 0 then pure (0, inode)
  else
    let bufoff := offset &&& (e.sbi.sBlockSize - 1)
    let bytes := e.sbi.sBlockSize - bufoff
    roundThenPtrs e offset bufoff bytes bytes buf
      (tfsWriteLoopPtrs e offset buf (toU32 (blocks - 1)) ((offset >>> e.sbi.sBlockShift) + 1)
        bytes)
      inode (offset >>> e.sbi.sBlockShift)

end Ptrs

/-! ### Pointers that are tested are not `NULL` -/

section Runs

variable {inode dir : Inode} {name : List UInt8} {offset index bytes : ℕ} {buf src : ℕ → UInt8}

theorem testedOnce_runs {err : α} {rest : CacheRef → DevM α} (d : Dev) :
    Runs NotNull (testedOnce e sb b err rest) d (tested e sb b err rest d).1
      (tested e sb b err rest d).2 := by
  unfold testedOnce tested
  refine testedPtrs_runs (by rfl) (fun cs d' => ?_) d
  exact .visit _ (notNull_some cs)

theorem walkPtrs_runs (look : (ℕ → UInt8) → ℕ → Option ℕ) (stop : ℕ → Prop) [DecidablePred stop]
    (ws : List ℕ) (index : ℕ) (d : Dev) :
    Runs NotNull (walkPtrs e look stop ws index) d (walk e look stop ws index d).1
      (walk e look stop ws index d).2 := by
  induction ws generalizing index d with
  | nil => exact .pure _
  | cons block rest ih =>
    rw [walkPtrs, walk]
    refine testedPtrs_runs (by rfl) (fun cs d' => ?_) d
    dsimp only
    rw [DevM.bind_apply, DevM.bind_apply]
    refine (Runs.visit _ (notNull_some cs)).bind ((Runs.quiet _).bind ?_)
    generalize readMem (fun m => look m (dataPtr cs d').1) (dataPtr cs d').2 = q
    obtain ⟨_ | de, d''⟩ := q
    · dsimp only
      by_cases hstop : stop (rest.headD 0)
      · rw [if_pos hstop, if_pos hstop]
        exact .pure _
      · rw [if_neg hstop, if_neg hstop]
        exact ih (index + 1) d''
    · exact .pure _

theorem tfsFindEntryPtrs_runs (d : Dev) :
    Runs NotNull (tfsFindEntryPtrs e inode name) d (tfsFindEntry e inode name d).1
      (tfsFindEntry e inode name d).2 := by
  rw [tfsFindEntryPtrs, tfsFindEntry]
  by_cases hzero : inode.iData.getD 0 0 = 0
  · rw [if_pos hzero, if_pos hzero]
    exact .pure _
  · rw [if_neg hzero, if_neg hzero, DevM.bind_apply, findEntryLoop_eq_walk _ 1]
    exact (Runs.quiet _).bind ((walkPtrs_runs _ _ _ 1 _).bind (.pure _))

theorem findPlacePtrs_runs (d : Dev) :
    Runs NotNull (findPlacePtrs e dir) d (findPlace e dir d).1 (findPlace e dir d).2 := by
  rw [findPlacePtrs, findPlace]
  by_cases hzero : dir.iData.getD 0 0 = 0
  · rw [if_pos hzero, if_pos hzero]
    exact .pure _
  · rw [if_neg hzero, if_neg hzero, DevM.bind_apply, addEntryLoop_eq_walk]
    exact (Runs.quiet _).bind (walkPtrs_runs _ _ _ 1 _)

theorem addEntryFromPtrs_runs (inr : ℤ) (dirty : Bool) (place : Place) (d : Dev) :
    Runs NotNull (addEntryFromPtrs e dir name inr dirty place) d
      (addEntryFrom e dir name inr dirty place d).1
      (addEntryFrom e dir name inr dirty place d).2 := by
  cases place with
  | fail => exact .pure _
  | slot block cs de => exact .visit _ (notNull_some cs)
  | full index =>
    rw [addEntryFromPtrs, addEntryFrom, DevM.bind_apply, tfsAllocBlock_eq]
    refine (testedOnce_runs d).bind ?_
    dsimp only
    by_cases hindex : index > TFS_N_BLOCKS
    · rw [if_pos hindex, if_pos hindex]
      exact .pure _
    · rw [if_neg hindex, if_neg hindex]
      exact testedOnce_runs _

theorem tfsAddEntryPtrs_runs (inr : ℤ) (dirty : Bool) (d : Dev) :
    Runs NotNull (tfsAddEntryPtrs e dir name inr dirty) d (tfsAddEntry e dir name inr dirty d).1
      (tfsAddEntry e dir name inr dirty d).2 := by
  rw [tfsAddEntryPtrs, tfsAddEntry_eq]
  by_cases hlong : name.length > TFS_NAME_LEN
  · rw [if_pos hlong, if_pos hlong]
    exact .pure _
  · rw [if_neg hlong, if_neg hlong, DevM.bind_apply]
    exact (findPlacePtrs_runs d).bind (addEntryFromPtrs_runs inr dirty _ _)

theorem tfsReadLoopPtrs_runs (blocks index bytes : ℕ) (buf : ℕ → UInt8) (d : Dev) :
    Runs NotNull (tfsReadLoopPtrs e inode blocks index bytes buf) d
      (tfsReadLoop e inode blocks index bytes buf d).1
      (tfsReadLoop e inode blocks index bytes buf d).2 := by
  induction blocks generalizing index bytes buf d with
  | zero => exact .pure _
  | succ blocks ih =>
    rw [tfsReadLoopPtrs, tfsReadLoop]
    by_cases hzero : tfsBmap inode index = 0
    · rw [if_pos hzero, if_pos hzero]
      exact .pure _
    · rw [if_neg hzero, if_neg hzero]
      refine testedPtrs_runs (by rfl) (fun cs d' => ?_) d
      exact (Runs.visit _ (notNull_some cs)).bind ((Runs.quiet _).bind (ih _ _ _ _))

theorem tfsReadPtrs_runs (blocks : ℤ) (d : Dev) :
    Runs NotNull (tfsReadPtrs e inode offset buf blocks) d (tfsRead e inode offset buf blocks d).1
      (tfsRead e inode offset buf blocks d).2 := by
  rw [tfsReadPtrs, tfsRead]
  by_cases hzero : blocks = 0
  · rw [if_pos hzero, if_pos hzero]
    exact .pure _
  · rw [if_neg hzero, if_neg hzero]
    by_cases hend : inode.iSize ≤ offset
    · rw [if_pos hend, if_pos hend]
      exact .pure _
    · rw [if_neg hend, if_neg hend]
      exact tfsReadLoopPtrs_runs _ _ _ _ d

theorem blockForWritePtrs_runs (inode : Inode) (index : ℕ) (d : Dev) :
    Runs NotNull (blockForWritePtrs e inode index) d (blockForWrite e inode index d).1
      (blockForWrite e inode index d).2 := by
  rw [blockForWritePtrs, blockForWrite]
  by_cases hblock : tfsBmap inode index ≠ 0
  · rw [if_pos hblock, if_pos hblock]
    exact .pure _
  · rw [if_neg hblock, if_neg hblock]
    by_cases hlt : index < TFS_N_BLOCKS
    · rw [if_pos hlt, if_pos hlt, DevM.bind_apply, tfsAllocBlock_eq]
      refine (testedOnce_runs d).bind ?_
      generalize tested e e.straySbi e.sbi.sBlockBitmap (- EIO)
        (allocBlockRest e e.sbi.sDataArea) d = q
      by_cases hneg : q.1 < 0
      · rw [if_pos hneg, if_pos hneg]
        exact .pure _
      · rw [if_neg hneg, if_neg hneg]
        exact .pure _
    · rw [if_neg hlt, if_neg hlt]
      exact .pure _

theorem roundThenPtrs_runs {off count : ℕ} {next : Inode → DevM (ℤ × Inode)}
    {nextPtrs : Inode → Prog Dev (Option CacheRef) (ℤ × Inode)}
    (hnext : ∀ inode d, Runs NotNull (nextPtrs inode) d (next inode d).1 (next inode d).2)
    (inode : Inode) (index : ℕ) (d : Dev) :
    Runs NotNull (roundThenPtrs e offset off count bytes src nextPtrs inode index) d
      (roundThen e offset off count bytes src next inode index d).1
      (roundThen e offset off count bytes src next inode index d).2 := by
  rw [roundThenPtrs, roundThen, DevM.bind_apply]
  refine (blockForWritePtrs_runs inode index d).bind ?_
  generalize blockForWrite e inode index d = q
  obtain ⟨⟨err | block, inode'⟩, d'⟩ := q
  · exact .pure _
  · dsimp only
    rw [blockThen]
    refine testedPtrs_runs (by rfl) (fun cs d'' => ?_) d'
    dsimp only
    rw [DevM.bind_apply]
    refine (Runs.visit _ (notNull_some cs)).bind ?_
    by_cases hr : (copyAndWrite e block cs off count src d'').1 ≠ 0
    · rw [if_pos hr, if_pos hr]
      exact .pure _
    · rw [if_neg hr, if_neg hr]
      exact hnext _ _

theorem tfsWriteLoopPtrs_runs (n index bytes : ℕ) (inode : Inode) (d : Dev) :
    Runs NotNull (tfsWriteLoopPtrs e offset buf n index bytes inode) d
      (tfsWriteLoop e offset buf n index bytes inode d).1
      (tfsWriteLoop e offset buf n index bytes inode d).2 := by
  induction n generalizing index bytes inode d with
  | zero =>
    rw [tfsWriteLoopPtrs, tfsWriteLoop, DevM.bind_apply, tfsIwrite_eq]
    refine (testedOnce_runs d).bind ?_
    generalize tested e e.sbi _ (- EIO) _ d = q
    by_cases hr : q.1 ≠ 0
    · rw [if_pos hr, if_pos hr]
      exact .pure _
    · rw [if_neg hr, if_neg hr]
      exact .pure _
  | succ n ih =>
    rw [tfsWriteLoopPtrs, tfsWriteLoop_succ]
    exact roundThenPtrs_runs (fun inode d => ih _ _ inode d) inode index d

theorem tfsWritePtrs_runs (blocks : ℤ) (d : Dev) :
    Runs NotNull (tfsWritePtrs e inode offset buf blocks) d
      (tfsWrite e inode offset buf blocks d).1 (tfsWrite e inode offset buf blocks d).2 := by
  rw [tfsWritePtrs]
  rcases eq_or_ne blocks 0 with rfl | hne
  · exact .pure _
  · rw [if_neg hne, tfsWrite_eq hne]
    exact roundThenPtrs_runs (tfsWriteLoopPtrs_runs _ _ _) inode _ d

end Runs

/-! ### The operations that do not test -/

section Untested

variable (e : Env)

/-- The block of the record of an inode, as `tfs_read_inode` computes it. -/
def readBlock (inr : ℤ) : ℕ := toU32 (e.sbi.sInodeTable + (inr - 1).tdiv e.sbi.sInodesPerBlock)

/-- The end of `tfs_read_inode`. -/
def readInodeRest (inr : ℤ) : Option CacheRef → DevM (ℕ → UInt8)
  | none => wildBytes e
  | some cs => do
    let k := (inr - 1).tmod e.sbi.sInodesPerBlock
    let data ← dataPtr cs
    if k < 0 then wildBytes e
    else readMem fun m i => m (data + k.toNat * sizeofTfsInode + i)

/-- `tfs_read_inode`. -/
def tfsReadInodePtrs (inr : ℤ) : Prog Dev (Option CacheRef) (ℕ → UInt8) := do
  let cs ← quiet (getCacheBlock e e.sbi (readBlock e inr))
  visit cs (readInodeRest e inr cs)

/-- The entry that `tfs_readdir` looks at, in a block that has been requested. -/
def entryRest (offset : ℕ) : Option CacheRef → DevM (ℕ → UInt8)
  | none => wildBytes e
  | some cs => do
    let data ← dataPtr cs
    readMem fun m i => m (data + (offset &&& (e.sbi.sBlockSize - 1)) + i)

/-- What `tfs_readdir` returns of a live entry. -/
def Dirent.ofEntry (offset : ℕ) (de : ℕ → UInt8) : Dirent where
  dIno := le32 de 0
  dOff := offset
  dReclen := sizeofDirEntry
  dType := 0
  dName := (List.range TFS_NAME_LEN).map fun k => de (4 + k)

/-- The end of `tfs_readdir`, where it may call itself. -/
def readdirRest (again : ℕ → DevM (Option Dirent × ℕ)) (offset : ℕ) (de : ℕ → UInt8) :
    DevM (Option Dirent × ℕ) := do
  if !(← mallocOk e) then pure (none, offset)
  else if le32 de 0 = 0 then again ((offset + sizeofDirEntry) % 2 ^ 32)
  else pure (some (.ofEntry offset de), (offset + sizeofDirEntry) % 2 ^ 32)

theorem tfsReaddirLoop_succ (inode : Inode) (fuel offset : ℕ) :
    tfsReaddirLoop e inode (fuel + 1) offset =
      if tfsBmap inode (offset >>> e.sbi.sBlockShift) = 0 then pure (none, offset)
      else entryAt e (tfsBmap inode (offset >>> e.sbi.sBlockShift)) offset >>=
        readdirRest e (tfsReaddirLoop e inode fuel) offset := rfl

/-- The same, with the pointers that are dereferenced. -/
def readdirRestPtrs (again : ℕ → Prog Dev (Option CacheRef) (Option Dirent × ℕ)) (offset : ℕ)
    (de : ℕ → UInt8) : Prog Dev (Option CacheRef) (Option Dirent × ℕ) := do
  if !(← quiet (mallocOk e)) then pure (none, offset)
  else if le32 de 0 = 0 then again ((offset + sizeofDirEntry) % 2 ^ 32)
  else pure (some (.ofEntry offset de), (offset + sizeofDirEntry) % 2 ^ 32)

/-- `tfs_readdir`, with the calls it makes of itself bounded. -/
def tfsReaddirLoopPtrs (inode : Inode) : ℕ → ℕ → Prog Dev (Option CacheRef) (Option Dirent × ℕ)
  | 0, offset => pure (none, offset)
  | fuel + 1, offset => do
    let block := tfsBmap inode (offset >>> e.sbi.sBlockShift)
    if block = 0 then pure (none, offset)
    else
      let cs ← quiet (getCacheBlock e e.sbi block)
      let de ← visit cs (entryRest e offset cs)
      readdirRestPtrs e (tfsReaddirLoopPtrs inode fuel) offset de

/-- `tfs_readdir`. -/
def tfsReaddirPtrs (inode : Inode) (offset : ℕ) :
    Prog Dev (Option CacheRef) (Option Dirent × ℕ) :=
  tfsReaddirLoopPtrs e inode (TFS_N_BLOCKS * entriesPerBlock e + 1) offset

/-- A program on the cache and the disk, in the state of the kernel. -/
def onDevPtrs (x : Prog Dev (Option CacheRef) α) : Prog Kernel (Option CacheRef) α := fun t =>
  ((x (t.1.dev, t.2)).1, ({ t.1 with dev := (x (t.1.dev, t.2)).2.1 }, (x (t.1.dev, t.2)).2.2))

/-- The end of `tfs_iget_by_inr`. -/
def igetRest (inr : ℤ) (tinode : ℕ → UInt8) : KernelM (Except ℤ ℕ) := do
  match ← newInode e 0 with
  | none => pure (.error (-ENOMEM))
  | some obj => do
    setInode obj (igetValue e inr tinode)
    pure (.ok obj)

/-- `tfs_iget_by_inr`. -/
def tfsIgetByInrPtrs (inr : ℤ) : Prog Kernel (Option CacheRef) (Except ℤ ℕ) := do
  let tinode ← onDevPtrs (tfsReadInodePtrs e inr)
  quiet (igetRest e inr tinode)

/-- What `tfs_iget` does with the entry. -/
def igetFound (dir : ℕ) : Lookup → KernelM (Except ℤ ℕ)
  | .null => pure (.error (-ENOENT))
  | .err err => pure (.error err)
  | .found _ de => do
    touch dir
    tfsIgetByInr e (← onDev (entryInr de))

/-- The same, with the pointers that are dereferenced. -/
def igetFoundPtrs (dir : ℕ) : Lookup → Prog Kernel (Option CacheRef) (Except ℤ ℕ)
  | .null => pure (.error (-ENOENT))
  | .err err => pure (.error err)
  | .found _ de => do
    let _ ← quiet (touch dir)
    tfsIgetByInrPtrs e (← quiet (onDev (entryInr de)))

theorem tfsIget_eq (dname : List UInt8) (dir : ℕ) :
    tfsIget e dname dir =
      inodeAt dir >>= fun inode => onDev (tfsFindEntry e inode dname) >>= igetFound e dir := by
  refine congrArg (inodeAt dir >>= ·) (funext fun inode => ?_)
  refine congrArg (onDev (tfsFindEntry e inode dname) >>= ·) (funext fun found => ?_)
  cases found <;> rfl

/-- `tfs_iget`. -/
def tfsIgetPtrs (dname : List UInt8) (dir : ℕ) : Prog Kernel (Option CacheRef) (Except ℤ ℕ) := do
  let inode ← quiet (inodeAt dir)
  igetFoundPtrs e dir (← onDevPtrs (tfsFindEntryPtrs e inode dname))

end Untested

variable {k : Kernel}

theorem runs_onDev {W : Option CacheRef → Prop} {x : Prog Dev (Option CacheRef) α} {y : DevM α}
    (h : Runs W x k.dev (y k.dev).1 (y k.dev).2) :
    Runs W (onDevPtrs x) k (onDev y k).1 (onDev y k).2 := by
  obtain ⟨ps, hx, hps⟩ := h
  refine ⟨ps, fun log => ?_, hps⟩
  rw [onDevPtrs, hx]
  rfl

/-- The one pointer that a lookup by number dereferences is that of its request. -/
theorem touched_tfsIgetByInr (inr : ℤ) :
    touched (tfsIgetByInrPtrs e inr) k = [(getCacheBlock e e.sbi (readBlock e inr) k.dev).1] := rfl

theorem tfsReadInode_eq (inr : ℤ) :
    tfsReadInode e inr = getCacheBlock e e.sbi (readBlock e inr) >>= readInodeRest e inr := by
  refine congrArg (getCacheBlock e e.sbi (readBlock e inr) >>= ·) (funext fun cs => ?_)
  cases cs <;> rfl

theorem entryAt_eq (block offset : ℕ) :
    entryAt e block offset = getCacheBlock e e.sbi block >>= entryRest e offset := by
  refine congrArg (getCacheBlock e e.sbi block >>= ·) (funext fun cs => ?_)
  cases cs <;> rfl

theorem tfsIgetByInrPtrs_runs (inr : ℤ) (k : Kernel) :
    Runs (fun _ => True) (tfsIgetByInrPtrs e inr) k (tfsIgetByInr e inr k).1
      (tfsIgetByInr e inr k).2 := by
  have hread : Runs (fun _ => True) (tfsReadInodePtrs e inr) k.dev (tfsReadInode e inr k.dev).1
      (tfsReadInode e inr k.dev).2 := by
    rw [tfsReadInode_eq]
    exact (Runs.quiet _).bind (.visit _ trivial)
  exact (runs_onDev hread).bind (.quiet _)

theorem igetFoundPtrs_runs (dir : ℕ) (found : Lookup) (k : Kernel) :
    Runs (fun _ => True) (igetFoundPtrs e dir found) k (igetFound e dir found k).1
      (igetFound e dir found k).2 := by
  cases found with
  | null => exact .pure _
  | err err => exact .pure _
  | found cs de => exact (Runs.quiet _).bind ((Runs.quiet _).bind (tfsIgetByInrPtrs_runs _ _))

theorem tfsIgetPtrs_runs (dname : List UInt8) (dir : ℕ) (k : Kernel) :
    Runs (fun _ => True) (tfsIgetPtrs e dname dir) k (tfsIget e dname dir k).1
      (tfsIget e dname dir k).2 := by
  rw [tfsIget_eq]
  have hfind := runs_onDev (k := (inodeAt dir k).2)
    (@tfsFindEntryPtrs_runs e (inodeAt dir k).1 dname (inodeAt dir k).2.dev)
  exact (Runs.quiet _).bind ((hfind.mono fun _ _ => trivial).bind (igetFoundPtrs_runs dir _ _))

theorem readdirRestPtrs_runs {W : Option CacheRef → Prop} {again : ℕ → DevM (Option Dirent × ℕ)}
    {againPtrs : ℕ → Prog Dev (Option CacheRef) (Option Dirent × ℕ)}
    (hagain : ∀ offset d, Runs W (againPtrs offset) d (again offset d).1 (again offset d).2)
    (offset : ℕ) (de : ℕ → UInt8) (d : Dev) :
    Runs W (readdirRestPtrs e againPtrs offset de) d (readdirRest e again offset de d).1
      (readdirRest e again offset de d).2 := by
  rw [readdirRest, DevM.bind_apply]
  refine (Runs.quiet _).bind ?_
  generalize mallocOk e d = r
  obtain ⟨_ | _, d'⟩ := r
  · exact .pure _
  · have htrue : ¬(!true) = true := by decide
    dsimp only
    rw [if_neg htrue, if_neg htrue]
    by_cases hdead : le32 de 0 = 0
    · rw [if_pos hdead, if_pos hdead]
      exact hagain _ d'
    · rw [if_neg hdead, if_neg hdead]
      exact .pure _

/-- The listing goes on if there is memory for an entry that is to be skipped. -/
theorem touched_readdirRest (againPtrs : ℕ → Prog Dev (Option CacheRef) (Option Dirent × ℕ))
    (offset : ℕ) (de : ℕ → UInt8) (d : Dev) :
    touched (readdirRestPtrs e againPtrs offset de) d =
      if (mallocOk e d).1 = true ∧ le32 de 0 = 0 then
        touched (againPtrs ((offset + sizeofDirEntry) % 2 ^ 32)) (mallocOk e d).2
      else [] := by
  rw [readdirRestPtrs, touched_quiet_bind]
  generalize mallocOk e d = r
  obtain ⟨_ | _, d'⟩ := r
  · exact (if_neg fun h => Bool.false_ne_true h.1).symm
  · rw [if_neg (show ¬(!true) = true by decide)]
    by_cases hdead : le32 de 0 = 0
    · rw [if_pos hdead, if_pos ⟨rfl, hdead⟩]
    · rw [if_neg hdead, if_neg fun h => hdead h.2]
      rfl

theorem tfsReaddirLoopPtrs_runs (inode : Inode) (fuel offset : ℕ) (d : Dev) :
    Runs (fun _ => True) (tfsReaddirLoopPtrs e inode fuel offset) d
      (tfsReaddirLoop e inode fuel offset d).1 (tfsReaddirLoop e inode fuel offset d).2 := by
  induction fuel generalizing offset d with
  | zero => exact .pure _
  | succ fuel ih =>
    rw [tfsReaddirLoopPtrs, tfsReaddirLoop_succ]
    by_cases hzero : tfsBmap inode (offset >>> e.sbi.sBlockShift) = 0
    · rw [if_pos hzero, if_pos hzero]
      exact .pure _
    · rw [if_neg hzero, if_neg hzero, entryAt_eq, bind_assoc]
      exact (Runs.quiet _).bind ((Runs.visit _ trivial).bind (readdirRestPtrs_runs ih _ _ _))

/-! ### Every operation -/

/-- The operations of the file system that read blocks. -/
inductive FsOp
  | igetByInr (inr : ℤ)
  /-- The look-up of the root by `fs_init`. -/
  | igetRoot
  | iget (dname : List UInt8) (dir : ℕ)
  | iwrite (inode : Inode)
  | findEntry (inode : Inode) (dname : List UInt8)
  | addEntry (dir : Inode) (name : List UInt8) (inr : ℤ) (dirty : Bool)
  | read (inode : Inode) (offset : ℕ) (buf : ℕ → UInt8) (blocks : ℤ)
  | write (inode : Inode) (offset : ℕ) (buf : ℕ → UInt8) (blocks : ℤ)
  | readdir (inode : Inode) (offset : ℕ)
  | allocBlock (block : ℕ)
  | freeBlock (block : ℕ)
  | allocInode (inr : ℤ)
  | freeInode (inr : ℤ)

/-- A pointer that is an error number. -/
def Lookup.isErr : Lookup → Bool
  | .err _ => true
  | _ => false

/-- The operation, and whether its result is an error value. -/
def FsOp.run (e : Env) : FsOp → KernelM Bool
  | .igetByInr inr => do pure !(← tfsIgetByInr e inr).isOk
  | .igetRoot => do pure !(← tfsIgetByInr e TFS_ROOT_INODE).isOk
  | .iget dname dir => do pure !(← tfsIget e dname dir).isOk
  | .iwrite inode => do pure (decide ((← onDev (tfsIwrite e inode)) < 0))
  | .findEntry inode dname => do pure (← onDev (tfsFindEntry e inode dname)).isErr
  | .addEntry dir name inr dirty => do
    pure (decide ((← onDev (tfsAddEntry e dir name inr dirty)).1 < 0))
  | .read inode offset buf blocks => do
    pure (decide ((← onDev (tfsRead e inode offset buf blocks)).1 < 0))
  | .write inode offset buf blocks => do
    pure (decide ((← onDev (tfsWrite e inode offset buf blocks)).1 < 0))
  | .readdir inode offset => do pure (← onDev (tfsReaddir e inode offset)).1.isNone
  | .allocBlock block => do pure (decide ((← onDev (tfsAllocBlock e block)) < 0))
  | .freeBlock block => do pure (decide ((← onDev (tfsFreeBlock e block)) < 0))
  | .allocInode inr => do pure (decide ((← onDev (tfsAllocInode e inr)) < 0))
  | .freeInode inr => do pure (decide ((← onDev (tfsFreeInode e inr)) < 0))

/-- The same, with the pointers that are dereferenced. -/
def FsOp.runPtrs (e : Env) : FsOp → Prog Kernel (Option CacheRef) Bool
  | .igetByInr inr => do pure !(← tfsIgetByInrPtrs e inr).isOk
  | .igetRoot => do pure !(← tfsIgetByInrPtrs e TFS_ROOT_INODE).isOk
  | .iget dname dir => do pure !(← tfsIgetPtrs e dname dir).isOk
  | .iwrite inode => do pure (decide ((← onDevPtrs (tfsIwritePtrs e inode)) < 0))
  | .findEntry inode dname => do pure (← onDevPtrs (tfsFindEntryPtrs e inode dname)).isErr
  | .addEntry dir name inr dirty => do
    pure (decide ((← onDevPtrs (tfsAddEntryPtrs e dir name inr dirty)).1 < 0))
  | .read inode offset buf blocks => do
    pure (decide ((← onDevPtrs (tfsReadPtrs e inode offset buf blocks)).1 < 0))
  | .write inode offset buf blocks => do
    pure (decide ((← onDevPtrs (tfsWritePtrs e inode offset buf blocks)).1 < 0))
  | .readdir inode offset => do pure (← onDevPtrs (tfsReaddirPtrs e inode offset)).1.isNone
  | .allocBlock block => do pure (decide ((← onDevPtrs (tfsAllocBlockPtrs e block)) < 0))
  | .freeBlock block => do pure (decide ((← onDevPtrs (tfsFreeBlockPtrs e block)) < 0))
  | .allocInode inr => do pure (decide ((← onDevPtrs (tfsAllocInodePtrs e inr)) < 0))
  | .freeInode inr => do pure (decide ((← onDevPtrs (tfsFreeInodePtrs e inr)) < 0))

theorem tfsAllocInodePtrs_runs (inr : ℤ) (d : Dev) :
    Runs NotNull (tfsAllocInodePtrs e inr) d (tfsAllocInode e inr d).1
      (tfsAllocInode e inr d).2 := by
  rw [tfsAllocInodePtrs, tfsAllocInode_eq]
  by_cases hlow : inr < 1
  · rw [if_pos hlow, if_pos hlow]
    exact .pure _
  · rw [if_neg hlow, if_neg hlow]
    exact testedOnce_runs d

/-- A program on the cache and the disk that computes its result and looks at it. -/
theorem runs_judged {W : Option CacheRef → Prop} {x : Prog Dev (Option CacheRef) α} {y : DevM α}
    (judge : α → Bool) (h : Runs W x k.dev (y k.dev).1 (y k.dev).2) :
    Runs W (do pure (judge (← onDevPtrs x))) k (judge (y k.dev).1)
      { k with dev := (y k.dev).2 } :=
  (runs_onDev h).bind (.pure _)

/-- **The program with its pointers is the operation.** -/
theorem FsOp.runPtrs_runs (op : FsOp) (k : Kernel) :
    Runs (fun _ => True) (op.runPtrs e) k (op.run e k).1 (op.run e k).2 := by
  have hany : ∀ p, NotNull p → True := fun _ _ => trivial
  cases op with
  | igetByInr inr => exact (tfsIgetByInrPtrs_runs inr k).bind (.pure _)
  | igetRoot => exact (tfsIgetByInrPtrs_runs _ k).bind (.pure _)
  | iget dname dir => exact (tfsIgetPtrs_runs dname dir k).bind (.pure _)
  | iwrite inode => exact runs_judged _ ((testedOnce_runs _).mono hany)
  | findEntry inode dname => exact runs_judged _ ((tfsFindEntryPtrs_runs _).mono hany)
  | addEntry dir name inr dirty =>
    exact runs_judged (fun r => decide (r.1 < 0)) ((tfsAddEntryPtrs_runs inr dirty _).mono hany)
  | read inode offset buf blocks =>
    exact runs_judged (fun r => decide (r.1 < 0)) ((tfsReadPtrs_runs blocks _).mono hany)
  | write inode offset buf blocks =>
    exact runs_judged (fun r => decide (r.1 < 0)) ((tfsWritePtrs_runs blocks _).mono hany)
  | readdir inode offset =>
    exact runs_judged (fun r => r.1.isNone) (tfsReaddirLoopPtrs_runs inode _ offset _)
  | allocBlock block => exact runs_judged _ ((testedOnce_runs _).mono hany)
  | freeBlock block => exact runs_judged _ ((testedOnce_runs _).mono hany)
  | allocInode inr => exact runs_judged _ ((tfsAllocInodePtrs_runs inr _).mono hany)
  | freeInode inr => exact runs_judged _ ((testedOnce_runs _).mono hany)

end Thunix.Fs
