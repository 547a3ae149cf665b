import Thunix.Fs.Pointers
import Thunix.Fs.Syscall

/-!
# Disk reads that fail

An operation lets read errors surface (`Thunix.Fs.FsOp.Surfaces`) if it dereferences no pointer
that is `NULL`, and returns an error value if a read fails. All operations do that but for
four: the look-ups of inodes if the block of the inode table cannot be read, `tfs_readdir` if a
block of the directory cannot, and `tfs_add_entry` if the bitmap cannot and the error of
`tfs_alloc_block`, which has become a block number, can then be read and written as a block
(`Thunix.Fs.read_errors_iff`).
-/

namespace Thunix.Fs

open Logged

variable {e : Env} {d : Dev} {F : List ℕ} {α : Type} {sb : TfsSbInfo} {b : ℕ}

/-! ### Failed reads -/

/-- The number of the block whose read has failed. -/
def Event.failed : Event → Option ℕ
  | .load _ m => if m.res = 0 then none else some m.block
  | _ => none

/-- The blocks whose read has failed, in order. -/
def Dev.failures (d : Dev) : List ℕ := d.log.filterMap Event.failed

/-- These reads have failed. -/
def Failed (F : List ℕ) (d : Dev) : Prop := d.failures = F

/-- **A request** returns `NULL` exactly if the read has failed. -/
theorem getCacheBlock_failures (e : Env) (sb : TfsSbInfo) (b : ℕ) (d : Dev) :
    ((getCacheBlock e sb b d).1 = none ∧ (getCacheBlock e sb b d).2.failures = d.failures ++ [b]) ∨
    ((getCacheBlock e sb b d).1 ≠ none ∧ (getCacheBlock e sb b d).2.failures = d.failures) := by
  have hrelink : ∀ last cs (d : Dev), (relink last cs d).failures = d.failures := by
    intro last cs d
    rw [Dev.failures, (relinked_relink last cs d).rest]
    rfl
  unfold getCacheBlock
  dsimp only
  split
  · exact .inr ⟨Option.some_ne_none _, rfl⟩
  · split
    · exact .inr ⟨Option.some_ne_none _, hrelink _ _ d⟩
    · obtain ⟨m, t, h, -⟩ := tfsBread_frame e sb b (d.cache (d.cache .head).next).data d
      generalize tfsBread e sb b (d.cache (d.cache .head).next).data d = r at h
      obtain ⟨res, d'⟩ := r
      obtain rfl := h
      dsimp only
      by_cases hres : res = 0
      · rw [if_neg (not_not.mpr hres)]
        refine .inr ⟨Option.some_ne_none _, (hrelink _ _ _).trans ?_⟩
        rw [Dev.failures, Dev.setBlock, List.filterMap_append]
        simp [Event.failed, hres, Dev.failures]
      · rw [if_pos hres]
        refine .inl ⟨rfl, ?_⟩
        rw [Dev.failures, List.filterMap_append]
        simp [Event.failed, hres, Dev.failures]

theorem hoare_request (e : Env) (sb : TfsSbInfo) (b : ℕ) :
    Hoare (Failed F) (getCacheBlock e sb b) fun p d => p = none ∨ Failed F d := fun d h => by
  rcases getCacheBlock_failures e sb b d with ⟨hnone, -⟩ | ⟨-, hsame⟩
  · exact .inl hnone
  · exact .inr (hsame.trans h)

theorem preserves_setBit (a nr : ℕ) : Preserves (Failed F) (setBitAt a nr) := fun d h => by
  refine Eq.trans ?_ h
  exact (List.filterMap_append).trans (List.append_nil _)

theorem preserves_clearBit (a nr : ℕ) : Preserves (Failed F) (clearBitAt a nr) := fun d h => by
  refine Eq.trans ?_ h
  exact (List.filterMap_append).trans (List.append_nil _)

theorem preserves_tfsBwrite (undone : Bool) (b a : ℕ) :
    Preserves (Failed F) (tfsBwriteTagged undone e e.sbi b a) := fun d h => by
  obtain ⟨disk, t, m, hrun, -⟩ := tfsBwriteTagged_run undone e e.sbi b a d
  rw [hrun]
  refine Eq.trans ?_ h
  exact (List.filterMap_append).trans (List.append_nil _)

/-! ### A read that fails gives an error -/

section Surfacing

variable {inode dir : Inode} {name : List UInt8} {offset index bytes : ℕ} {buf src : ℕ → UInt8}
  {Q : α → Dev → Prop}

/-- A program that begins with a request. -/
theorem request_surfaces {next : Option CacheRef → DevM α}
    (hnone : ∀ d, Q (next none d).1 (next none d).2)
    (hsome : ∀ cs, Hoare (Failed F) (next (some cs)) Q) :
    Hoare (Failed F) (getCacheBlock e sb b >>= next) Q := by
  refine (hoare_request e sb b).bind fun p d h => ?_
  cases p with
  | none => exact hnone d
  | some cs => exact hsome cs d (h.resolve_left (Option.some_ne_none cs))

/-- The reads that have failed before are not looked at. -/
theorem preserves_view {x : DevM α} (h : ∀ d, (x d).2.log = d.log) : Preserves (Failed F) x :=
  fun d hd => (congrArg (List.filterMap Event.failed) (h d)).trans hd

theorem preserves_freeRest (block nr : ℕ) (cs : CacheRef) :
    Preserves (Failed F) (freeRest e block nr cs) :=
  (preserves_view fun _ => rfl).bind fun bitmap => (preserves_clearBit bitmap nr).bind fun _ =>
    .ite (.pure _ _) (preserves_tfsBwrite _ _ _)

theorem preserves_findTarget (taken : Bool) (bitmap target : ℕ) :
    Preserves (Failed F) (findTarget e taken bitmap target) :=
  preserves_view fun d => by cases taken <;> rfl

theorem preserves_allocBlockRest (block : ℕ) (cs : CacheRef) :
    Preserves (Failed F) (allocBlockRest e block cs) := by
  refine (preserves_view fun _ => rfl).bind fun bitmap => ?_
  refine (preserves_view fun _ => rfl).bind fun taken => ?_
  refine (preserves_findTarget taken bitmap block).bind fun k => .ite ?_ (.pure _ _)
  refine (preserves_setBit bitmap k).bind fun _ => (preserves_tfsBwrite _ _ _).bind fun res => ?_
  exact .ite (.pure _ _) (.pure _ _)

theorem preserves_allocInodeRest (inr : ℤ) (cs : CacheRef) :
    Preserves (Failed F) (allocInodeRest e inr cs) := by
  refine (preserves_view fun _ => rfl).bind fun bitmap => ?_
  refine (preserves_view fun _ => rfl).bind fun taken => ?_
  refine (preserves_findTarget taken bitmap _).bind fun k => .ite ?_ (.pure _ _)
  refine (preserves_setBit bitmap _).bind fun old => (preserves_tfsBwrite _ _ _).bind fun err => ?_
  exact .ite ((preserves_clearBit bitmap _).bind fun _ => .pure _ _) (.pure _ _)

theorem preserves_storeRecord (inode : Inode) (block k : ℕ) (cs : CacheRef) :
    Preserves (Failed F) (storeRecord e inode block k cs) := by
  refine (preserves_view fun _ => rfl).bind fun data => ?_
  refine (preserves_view fun _ => rfl).bind fun tinode => ?_
  exact (preserves_view fun _ => rfl).bind fun _ => preserves_tfsBwrite _ _ _

theorem preserves_copyAndWrite {off count : ℕ} (block : ℕ) (cs : CacheRef) :
    Preserves (Failed F) (copyAndWrite e block cs off count src) :=
  (preserves_view fun _ => rfl).bind fun _ => (preserves_view fun _ => rfl).bind fun _ =>
    preserves_tfsBwrite _ _ _

theorem preserves_putEntry (inr : ℤ) (block : ℕ) (cs : CacheRef) (de : ℕ) :
    Preserves (Failed F) (putEntry e dir name inr block cs de) := by
  refine (preserves_view fun _ => rfl).bind fun _ => ?_
  refine (preserves_view fun _ => rfl).bind fun data => ?_
  exact (preserves_tfsBwrite _ _ _).bind fun res => .ite (.pure _ _) (.pure _ _)

theorem preserves_putFirstEntry (inr : ℤ) (block : ℕ) (cs : CacheRef) :
    Preserves (Failed F) (putFirstEntry e dir name inr block cs) :=
  (preserves_view fun _ => rfl).bind fun _ => (preserves_view fun _ => rfl).bind fun _ =>
    preserves_putEntry _ _ _ _

/-- **One request that is tested**: the error is returned if the read fails. -/
theorem tested_surfaces {err : α} {rest : CacheRef → DevM α}
    (hrest : ∀ cs, Preserves (Failed F) (rest cs)) :
    Hoare (Failed F) (tested e sb b err rest) fun r d => r = err ∨ Failed F d :=
  request_surfaces (fun _ => .inl rfl) fun cs => (hrest cs).post fun _ _ h => .inr h

theorem walk_surfaces (look : (ℕ → UInt8) → ℕ → Option ℕ) (stop : ℕ → Prop) [DecidablePred stop]
    (ws : List ℕ) (index : ℕ) :
    Hoare (Failed F) (walk e look stop ws index) fun p d => p = .fail ∨ Failed F d := by
  induction ws generalizing index with
  | nil => exact .pure fun _ h => .inr h
  | cons block rest ih =>
    rw [walk]
    refine request_surfaces (fun _ => .inl rfl) fun cs => ?_
    refine Hoare.bind (preserves_view fun _ => rfl) fun data => ?_
    refine Hoare.bind (preserves_view fun _ => rfl) fun found => ?_
    cases found with
    | some de => exact .pure fun _ h => .inr h
    | none => exact .ite (fun _ => .pure fun _ h => .inr h) fun _ => ih (index + 1)

theorem tfsFindEntry_surfaces (inode : Inode) (name : List UInt8) :
    Hoare (Failed F) (tfsFindEntry e inode name) fun r d => r = .err (- EIO) ∨ Failed F d := by
  refine .ite (fun _ => .pure fun _ h => .inr h) fun _ => ?_
  refine Hoare.bind (preserves_view fun _ => rfl) fun words d h => ?_
  rw [findEntryLoop_eq_walk words 1]
  exact (walk_surfaces _ _ words 1 d h).imp (congrArg Place.lookup) id

theorem findPlace_surfaces (dir : Inode) :
    Hoare (Failed F) (findPlace e dir) fun p d => p = .fail ∨ Failed F d := by
  refine .ite (fun _ => .pure fun _ h => .inr h) fun _ => ?_
  refine Hoare.bind (preserves_view fun _ => rfl) fun words => ?_
  rw [addEntryLoop_eq_walk]
  exact walk_surfaces _ _ words 1

theorem tfsReadLoop_surfaces (blocks index bytes : ℕ) (buf : ℕ → UInt8) :
    Hoare (Failed F) (tfsReadLoop e inode blocks index bytes buf) fun r d =>
      r.1 < 0 ∨ Failed F d := by
  induction blocks generalizing index bytes buf with
  | zero => exact .pure fun _ h => .inr h
  | succ blocks ih =>
    rw [tfsReadLoop]
    refine .ite (fun _ => .pure fun _ h => .inr h) fun _ => ?_
    refine request_surfaces (fun _ => .inl (show - EIO < 0 by decide)) fun cs => ?_
    refine Hoare.bind (preserves_view fun _ => rfl) fun data => ?_
    exact Hoare.bind (preserves_view fun _ => rfl) fun _ => ih _ _ _

theorem tfsRead_surfaces (blocks : ℤ) :
    Hoare (Failed F) (tfsRead e inode offset buf blocks) fun r d => r.1 < 0 ∨ Failed F d := by
  refine .ite (fun _ => .pure fun _ h => .inr h) fun _ => ?_
  exact .ite (fun _ => .pure fun _ h => .inr h) fun _ => tfsReadLoop_surfaces _ _ _ _

theorem tfsAllocBlock_surfaces (block : ℕ) :
    Hoare (Failed F) (tfsAllocBlock e block) fun r d => r = - EIO ∨ Failed F d :=
  tested_surfaces (preserves_allocBlockRest block)

/-- A block that cannot be allocated stops the round. -/
theorem blockForWrite_surfaces (inode : Inode) (index : ℕ) :
    Hoare (Failed F) (blockForWrite e inode index) fun r d =>
      r.1 = .error (-ENOSPC) ∨ Failed F d := by
  refine .ite (fun _ => .pure fun _ h => .inr h) fun _ => ?_
  refine .ite (fun _ => ?_) fun _ => .pure fun _ h => .inr h
  refine (tfsAllocBlock_surfaces _).bind fun r => ?_
  refine .ite (fun _ => .pure fun _ _ => .inl rfl) fun hr => ?_
  exact .pure fun d h => .inr (h.resolve_left fun heq => hr (by rw [heq]; decide))

theorem roundThen_surfaces {off count : ℕ} {next : Inode → DevM (ℤ × Inode)}
    (hnext : ∀ inode, Hoare (Failed F) (next inode) fun r d => r.1 < 0 ∨ Failed F d)
    (inode : Inode) (index : ℕ) :
    Hoare (Failed F) (roundThen e offset off count bytes src next inode index) fun r d =>
      r.1 < 0 ∨ Failed F d := by
  refine (blockForWrite_surfaces inode index).bind fun r => ?_
  obtain ⟨err | block, inode'⟩ := r
  · refine fun d h => h.imp (fun h => ?_) id
    obtain rfl := Except.error.inj h
    exact show -ENOSPC < 0 by decide
  · refine Hoare.pre ?_ fun d h => h.resolve_left fun h => by cases h
    refine request_surfaces (fun _ => .inl (show - EIO < 0 by decide)) fun cs => ?_
    refine Hoare.bind (preserves_copyAndWrite block cs) fun res => ?_
    exact .ite (fun _ => .pure fun _ h => .inr h) fun _ => hnext _

theorem tfsWriteLoop_surfaces (n index bytes : ℕ) (inode : Inode) :
    Hoare (Failed F) (tfsWriteLoop e offset buf n index bytes inode) fun r d =>
      r.1 < 0 ∨ Failed F d := by
  induction n generalizing index bytes inode with
  | zero =>
    have hiwrite : Hoare (Failed F) (tfsIwrite e inode) fun r d => r = - EIO ∨ Failed F d :=
      tested_surfaces (preserves_storeRecord inode _ _)
    refine hiwrite.bind fun r => .ite (fun _ => .pure fun _ _ => .inl (show - EIO < 0 by decide))
      fun hr => .pure fun d h => .inr (h.resolve_left fun heq => hr (by rw [heq]; decide))
  | succ n ih =>
    rw [tfsWriteLoop_succ]
    exact roundThen_surfaces (fun inode => ih _ _ inode) inode index

theorem tfsWrite_surfaces (blocks : ℤ) :
    Hoare (Failed F) (tfsWrite e inode offset buf blocks) fun r d => r.1 < 0 ∨ Failed F d := by
  rcases eq_or_ne blocks 0 with rfl | hne
  · exact .pure fun _ h => .inr h
  · rw [tfsWrite_eq hne]
    exact roundThen_surfaces (tfsWriteLoop_surfaces _ _ _) inode _

end Surfacing

/-! ### The operations that do not test -/

/-- A request is served. -/
def Granted (e : Env) (b : ℕ) (d : Dev) : Prop := (getCacheBlock e e.sbi b d).1 ≠ none

/-- The blocks that `tfs_readdir` looks at can be read. -/
def ReaddirGranted (e : Env) (inode : Inode) : ℕ → ℕ → Dev → Prop
  | 0, _, _ => True
  | fuel + 1, offset, d =>
    tfsBmap inode (offset >>> e.sbi.sBlockShift) = 0 ∨
      (Granted e (tfsBmap inode (offset >>> e.sbi.sBlockShift)) d ∧
        let entry := entryAt e (tfsBmap inode (offset >>> e.sbi.sBlockShift)) offset d
        let memory := mallocOk e entry.2
        memory.1 = true → le32 entry.1 0 = 0 →
          ReaddirGranted e inode fuel ((offset + sizeofDirEntry) % 2 ^ 32) memory.2)

/-- The requests whose pointer is not tested are served, and the error of the allocator is not
taken for a block. -/
def FsOp.Granted (e : Env) : FsOp → Kernel → Prop
  | .igetByInr inr, k => Fs.Granted e (readBlock e inr) k.dev
  | .igetRoot, k => Fs.Granted e (readBlock e TFS_ROOT_INODE) k.dev
  | .iget dname dir, k =>
    let found := tfsFindEntry e (k.objs dir) dname k.dev
    ∀ cs de, found.1 = .found cs de →
      Fs.Granted e (readBlock e (toS32 (le32 found.2.cacheData de))) found.2
  | .addEntry dir name _ _, k =>
    let place := findPlace e dir k.dev
    name.length ≤ TFS_NAME_LEN → ∀ index ≤ TFS_N_BLOCKS, place.1 = .full index →
      Unread e place.2 → ¬Landed e place.2
  | .readdir inode offset, k =>
      ReaddirGranted e inode (TFS_N_BLOCKS * entriesPerBlock e + 1) offset k.dev
  | _, _ => True

/-- No `NULL` is dereferenced, and a read that fails makes the operation return an error. -/
def FsOp.Surfaces (e : Env) (op : FsOp) (k : Kernel) : Prop :=
  (∀ p ∈ touched (op.runPtrs e) k, NotNull p) ∧
    ((op.run e k).2.dev.failures ≠ k.dev.failures → (op.run e k).1 = true)

/-- A request that is served leaves the list alone. -/
theorem Granted.failures (h : Granted e b d) :
    (getCacheBlock e e.sbi b d).2.failures = d.failures :=
  (hoare_request e e.sbi b d rfl).resolve_left h

theorem entryRest_failures (offset : ℕ) (p : Option CacheRef) :
    Preserves (Failed F) (entryRest e offset p) := by
  cases p with
  | none => exact preserves_view fun _ => rfl
  | some cs => exact preserves_view fun _ => rfl

section Readdir

variable {inode : Inode}

theorem tfsReaddirLoop_notNull_iff (fuel offset : ℕ) (d : Dev) :
    (∀ p ∈ touched (tfsReaddirLoopPtrs e inode fuel offset) d, NotNull p) ↔
      ReaddirGranted e inode fuel offset d := by
  have hnil : ∀ p ∈ ([] : List (Option CacheRef)), NotNull p := fun _ h => absurd h List.not_mem_nil
  induction fuel generalizing offset d with
  | zero => exact iff_of_true hnil trivial
  | succ fuel ih =>
    rw [tfsReaddirLoopPtrs, ReaddirGranted]
    dsimp only
    by_cases hzero : tfsBmap inode (offset >>> e.sbi.sBlockShift) = 0
    · rw [if_pos hzero]
      exact iff_of_true hnil (.inl hzero)
    · rw [if_neg hzero, or_iff_right hzero, touched_quiet_bind, entryAt_eq, DevM.bind_apply,
        (readdirRestPtrs_runs (tfsReaddirLoopPtrs_runs inode fuel) offset _ _).touched_visit_bind,
        List.forall_mem_cons, touched_readdirRest]
      refine and_congr_right' ?_
      generalize entryRest e offset (getCacheBlock e e.sbi _ d).1 (getCacheBlock e e.sbi _ d).2 = q
      by_cases hnext : (mallocOk e q.2).1 = true ∧ le32 q.1 0 = 0
      · rw [if_pos hnext, forall_prop_of_true hnext.1, forall_prop_of_true hnext.2]
        exact ih _ _
      · rw [if_neg hnext]
        exact iff_of_true hnil fun hok hdead => absurd ⟨hok, hdead⟩ hnext

/-- If the blocks can be read, no read has failed. -/
theorem tfsReaddirLoop_failures (fuel offset : ℕ) (d : Dev)
    (h : ReaddirGranted e inode fuel offset d) :
    (tfsReaddirLoop e inode fuel offset d).2.failures = d.failures := by
  induction fuel generalizing offset d with
  | zero => rfl
  | succ fuel ih =>
    rw [tfsReaddirLoop_succ]
    by_cases hzero : tfsBmap inode (offset >>> e.sbi.sBlockShift) = 0
    · rw [if_pos hzero]
      rfl
    · rw [if_neg hzero, DevM.bind_apply]
      obtain ⟨hgranted, hnext⟩ := h.resolve_left hzero
      have hentry : (entryAt e (tfsBmap inode (offset >>> e.sbi.sBlockShift)) offset d).2.failures =
          d.failures := by
        rw [entryAt_eq, DevM.bind_apply]
        exact entryRest_failures offset _ _ hgranted.failures
      rw [← hentry]
      generalize entryAt e (tfsBmap inode (offset >>> e.sbi.sBlockShift)) offset d = q at hnext
      rw [readdirRest, DevM.bind_apply]
      have hmemory : (mallocOk e q.2).2.failures = q.2.failures := rfl
      rw [← hmemory]
      dsimp only at hnext
      generalize mallocOk e q.2 = r at hnext
      obtain ⟨_ | _, d'⟩ := r
      · rfl
      · rw [if_neg (show ¬(!true) = true by decide)]
        by_cases hdead : le32 q.1 0 = 0
        · rw [if_pos hdead]
          exact ih _ d' (hnext rfl hdead)
        · rw [if_neg hdead]
          rfl

end Readdir

/-! ### The operations that test -/

/-- An operation that tests every pointer, and returns an error if a read fails. -/
theorem surfaces_judged {x : Prog Dev (Option CacheRef) α} {y : DevM α} (judge : α → Bool)
    {k : Kernel} (hruns : Runs NotNull x k.dev (y k.dev).1 (y k.dev).2)
    (hfail : Hoare (Failed k.dev.failures) y fun r d =>
      judge r = true ∨ Failed k.dev.failures d) :
    (∀ p ∈ touched (do pure (judge (← onDevPtrs x))) k, NotNull p) ∧
      ((y k.dev).2.failures ≠ k.dev.failures → judge (y k.dev).1 = true) :=
  ⟨(runs_judged judge hruns).touched, fun hne => (hfail k.dev rfl).resolve_right hne⟩

theorem tested_negative {rest : CacheRef → DevM ℤ} (hrest : ∀ cs, Preserves (Failed F) (rest cs)) :
    Hoare (Failed F) (tested e sb b (- EIO) rest) fun r d => decide (r < 0) = true ∨ Failed F d :=
  (tested_surfaces hrest).post fun _ _ h => h.imp (fun h => by rw [h]; rfl) id

theorem tfsAllocInode_surfaces (inr : ℤ) :
    Hoare (Failed F) (tfsAllocInode e inr) fun r d => decide (r < 0) = true ∨ Failed F d := by
  rw [tfsAllocInode_eq]
  refine .ite (fun _ => .pure fun _ h => .inr h) fun _ => ?_
  exact tested_negative (preserves_allocInodeRest inr)

/-! ### The look-ups of inodes -/

theorem preserves_readInodeRest (inr : ℤ) (p : Option CacheRef) :
    Preserves (Failed F) (readInodeRest e inr p) := by
  cases p with
  | none => exact preserves_view fun _ => rfl
  | some cs =>
    exact (preserves_view fun _ => rfl).bind fun _ =>
      .ite (preserves_view fun _ => rfl) (preserves_view fun _ => rfl)

/-- Once the record is read, no block is asked for. -/
theorem preserves_igetRest (inr : ℤ) (tinode : ℕ → UInt8) :
    Preserves (fun k => Failed F k.dev) (igetRest e inr tinode) := by
  have hmalloc : Preserves (fun k => Failed F k.dev) (onDev (mallocOk e)) := fun _ h => h
  have htouch : ∀ obj, Preserves (fun k => Failed F k.dev) (touch obj) := fun obj k h => by
    unfold touch
    split <;> exact h
  have hnew : Preserves (fun k => Failed F k.dev) (newInode e 0) := by
    refine hmalloc.bind fun _ => .ite (.pure _ _) (hmalloc.bind fun _ => ?_)
    exact .ite (.pure _ _) fun k h => h
  refine hnew.bind fun r => ?_
  cases r with
  | none => exact .pure _ _
  | some obj => exact ((htouch obj).bind fun _ _ h => h).bind fun _ => .pure _ _

theorem tfsIgetByInr_surfaces_iff (inr : ℤ) (k : Kernel) :
    ((∀ p ∈ touched (tfsIgetByInrPtrs e inr) k, NotNull p) ∧
      ((tfsIgetByInr e inr k).2.dev.failures ≠ k.dev.failures →
        (!(tfsIgetByInr e inr k).1.isOk) = true)) ↔ Granted e (readBlock e inr) k.dev := by
  rw [touched_tfsIgetByInr, List.forall_mem_singleton]
  refine and_iff_left_of_imp fun hgranted hne => absurd ?_ hne
  have hread : (tfsReadInode e inr k.dev).2.failures = k.dev.failures := by
    rw [tfsReadInode_eq, DevM.bind_apply]
    exact preserves_readInodeRest inr _ _ (Granted.failures hgranted)
  exact preserves_igetRest inr _ (onDev (tfsReadInode e inr) k).2 hread

theorem inodeAt_apply (obj : ℕ) (k : Kernel) :
    (inodeAt obj k).1 = k.objs obj ∧ (inodeAt obj k).2.dev = k.dev := by
  rw [inodeAt, KernelM.bind_apply, touch]
  split
  · exact ⟨rfl, rfl⟩
  · exact ⟨rfl, rfl⟩

theorem dev_touch (obj : ℕ) (k : Kernel) : (touch obj k).2.dev = k.dev := by
  rw [touch]
  split
  · rfl
  · rfl

/-- The record of the entry found is read without a test. -/
theorem igetFound_surfaces_iff (dir : ℕ) (found : Lookup) (k : Kernel)
    (hfail : found = .err (- EIO) ∨ Failed F k.dev) :
    ((∀ p ∈ touched (igetFoundPtrs e dir found) k, NotNull p) ∧
      ((igetFound e dir found k).2.dev.failures ≠ F →
        (!(igetFound e dir found k).1.isOk) = true)) ↔
      ∀ cs de, found = .found cs de →
        Granted e (readBlock e (toS32 (le32 k.dev.cacheData de))) k.dev := by
  have hnil : ∀ p ∈ ([] : List (Option CacheRef)), NotNull p := fun _ h => absurd h List.not_mem_nil
  cases found with
  | null => exact iff_of_true ⟨hnil, fun _ => rfl⟩ fun _ _ h => by cases h
  | err err => exact iff_of_true ⟨hnil, fun _ => rfl⟩ fun _ _ h => by cases h
  | found cs de =>
    have hsame : Failed F (touch dir k).2.dev := by
      rw [dev_touch]
      exact hfail.resolve_left fun h => by cases h
    obtain rfl := hsame
    have hinr : onDev (entryInr de) (touch dir k).2 =
        (toS32 (le32 (touch dir k).2.dev.cacheData de), (touch dir k).2) := rfl
    rw [igetFoundPtrs, touched_quiet_bind, touched_quiet_bind, igetFound, KernelM.bind_apply,
      KernelM.bind_apply, hinr, tfsIgetByInr_surfaces_iff, dev_touch]
    refine ⟨fun h cs' de' heq => ?_, fun h => h cs de rfl⟩
    obtain ⟨rfl, rfl⟩ := Lookup.found.inj heq
    exact h

theorem tfsIget_surfaces_iff (dname : List UInt8) (dir : ℕ) (k : Kernel) :
    ((∀ p ∈ touched (tfsIgetPtrs e dname dir) k, NotNull p) ∧
      ((tfsIget e dname dir k).2.dev.failures ≠ k.dev.failures →
        (!(tfsIget e dname dir k).1.isOk) = true)) ↔ FsOp.Granted e (.iget dname dir) k := by
  obtain ⟨hobj, hdev⟩ := inodeAt_apply dir k
  have hruns := runs_onDev (k := (inodeAt dir k).2)
    (@tfsFindEntryPtrs_runs e (inodeAt dir k).1 dname (inodeAt dir k).2.dev)
  have hfail := tfsFindEntry_surfaces (e := e) (k.objs dir) dname k.dev rfl
  rw [tfsIget_eq, KernelM.bind_apply, KernelM.bind_apply, tfsIgetPtrs, touched_quiet_bind,
    hruns.touched_bind (igetFoundPtrs_runs dir _ _), List.forall_mem_append,
    and_iff_right hruns.touched]
  refine (igetFound_surfaces_iff dir _ _ ?_).trans ?_
  · rw [hobj, onDev, hdev]
    exact hfail
  · rw [hobj, onDev, hdev]
    rfl

/-! ### The insertion -/

section Insertion

variable {dir : Inode} {name : List UInt8} {inr : ℤ} {dirty : Bool}

/-- A read fails in the allocator exactly if it is that of the bitmap. -/
theorem tfsAllocBlock_failures (t : ℕ) (d : Dev) :
    (tfsAllocBlock e t d).2.failures ≠ d.failures ↔ Unread e d := by
  rw [tfsAllocBlock_eq, tested, DevM.bind_apply, Unread, tfsReadBlockBitmap]
  have hreq := getCacheBlock_failures e e.straySbi e.sbi.sBlockBitmap d
  generalize getCacheBlock e e.straySbi e.sbi.sBlockBitmap d = q at hreq
  obtain ⟨_ | cs, d₁⟩ := q
  · have hmore := (hreq.resolve_right fun h => h.1 rfl).2
    refine iff_of_true (fun hsame => ?_) rfl
    have hlen := congrArg List.length (hmore.symm.trans hsame)
    rw [List.length_append, List.length_singleton] at hlen
    omega
  · have hsame := (hreq.resolve_left fun h => Option.some_ne_none cs h.1).2
    exact iff_of_false (not_not.mpr (preserves_allocBlockRest t cs d₁ hsame))
      (Option.some_ne_none cs)

theorem IsPut.neg_iff {tick : ℕ} {res : (ℤ × Inode × Bool) × Dev} (h : IsPut e dir tick res) :
    res.1.1 < 0 ↔ ¬WriteOk e tick := by
  rcases h.2 with ⟨hr, hok⟩ | ⟨hr, hfail⟩
  · exact iff_of_false (by rw [hr]; decide) (not_not.mpr hok)
  · exact iff_of_true (by rw [hr]; decide) hfail

/-- The error of the allocator is passed on unless it lands in a block. -/
theorem addEntryFrom_surfaces_iff (place : Place) (d : Dev) :
    ((addEntryFrom e dir name inr dirty place d).2.failures ≠ d.failures →
        (addEntryFrom e dir name inr dirty place d).1.1 < 0) ↔
      ∀ index ≤ TFS_N_BLOCKS, place = .full index → Unread e d → ¬Landed e d := by
  cases place with
  | fail => exact iff_of_true (fun _ => (by decide : - EIO < 0)) fun _ _ h => by cases h
  | slot block cs de =>
    refine iff_of_true (fun hne => absurd ?_ hne) fun _ _ h => by cases h
    exact preserves_putEntry inr block cs de d rfl
  | full index =>
    rw [addEntryFrom, DevM.bind_apply, Landed, Writable, ← tfsAllocBlock_failures e.sbi.sDataArea d]
    dsimp only
    generalize tfsAllocBlock e e.sbi.sDataArea d = new
    by_cases hindex : index ≤ TFS_N_BLOCKS
    · rw [if_neg (Nat.not_lt.mpr hindex), DevM.bind_apply]
      have hget := hoare_request e e.sbi (toU32 new.1) new.2 rfl
      generalize getCacheBlock e e.sbi (toU32 new.1) new.2 = got at hget
      obtain ⟨_ | cs, d₂⟩ := got
      · exact iff_of_true (fun _ => (by decide : - EIO < 0)) fun _ _ _ _ h => h.1 rfl
      · have hsame := hget.resolve_left (Option.some_ne_none cs)
        have hput := putFirstEntry_outcome e (dir.setData (index - 1) (toU32 new.1)) name inr
          (toU32 new.1) cs d₂
        have hkept : (putFirstEntry e (dir.setData (index - 1) (toU32 new.1)) name inr (toU32 new.1)
            cs d₂).2.failures = new.2.failures := preserves_putFirstEntry inr _ cs d₂ hsame
        have hneg := hput.neg_iff
        dsimp only
        rw [hkept, hneg]
        refine ⟨fun h _ _ _ hne hlanded => h hne hlanded.2, fun h hne hok => ?_⟩
        exact h index hindex rfl hne ⟨Option.some_ne_none cs, hok⟩
    · rw [if_pos (Nat.not_le.mp hindex)]
      exact iff_of_true (fun _ => (by decide : -EFBIG < 0)) fun i hi h =>
        absurd (Place.full.inj h ▸ hi) hindex

end Insertion

/-! ### Every operation -/

theorem tfsAddEntry_surfaces_iff (dir : Inode) (name : List UInt8) (inr : ℤ) (dirty : Bool)
    (d : Dev) :
    ((tfsAddEntry e dir name inr dirty d).2.failures ≠ d.failures →
        decide ((tfsAddEntry e dir name inr dirty d).1.1 < 0) = true) ↔
      (name.length ≤ TFS_NAME_LEN → ∀ index ≤ TFS_N_BLOCKS,
        (findPlace e dir d).1 = .full index → Unread e (findPlace e dir d).2 →
          ¬Landed e (findPlace e dir d).2) := by
  rw [decide_eq_true_iff, tfsAddEntry_eq]
  by_cases hlong : name.length > TFS_NAME_LEN
  · rw [if_pos hlong]
    exact iff_of_true (fun hne => absurd rfl hne) fun h => absurd hlong (Nat.not_lt.mpr h)
  · rw [if_neg hlong, forall_prop_of_true (Nat.not_lt.mp hlong), DevM.bind_apply]
    have hfail := findPlace_surfaces (e := e) dir d rfl
    generalize findPlace e dir d = q at hfail
    rcases hfail with hplace | hsame
    · rw [hplace]
      exact iff_of_true (fun _ => (by decide : - EIO < 0)) fun _ _ h => by cases h
    · rw [← addEntryFrom_surfaces_iff, hsame]

theorem FsOp.Surfaces.addEntry_neg {dir : Inode} {name : List UInt8} {inr : ℤ} {dirty : Bool}
    {k : Kernel} (h : (FsOp.addEntry dir name inr dirty).Surfaces e k) :
    (tfsAddEntry e dir name inr dirty k.dev).2.failures ≠ k.dev.failures →
      (tfsAddEntry e dir name inr dirty k.dev).1.1 < 0 := fun hne => of_decide_eq_true (h.2 hne)

/-- **When read errors surface**, for every operation, state of the cache and course of the
transfers: the requests whose pointer is not tested are served, and the error of the allocator
is not taken for a block. -/
theorem read_errors_iff (op : FsOp) (k : Kernel) : op.Surfaces e k ↔ op.Granted e k := by
  cases op with
  | igetByInr inr => exact tfsIgetByInr_surfaces_iff inr k
  | igetRoot => exact tfsIgetByInr_surfaces_iff _ k
  | iget dname dir => exact tfsIget_surfaces_iff dname dir k
  | iwrite inode =>
    exact iff_of_true (surfaces_judged _ (testedOnce_runs _) (tested_negative
      (preserves_storeRecord inode _ _))) trivial
  | findEntry inode dname =>
    refine iff_of_true (surfaces_judged _ (tfsFindEntryPtrs_runs _) ?_) trivial
    exact (tfsFindEntry_surfaces inode dname).post fun _ _ h => h.imp (fun h => by rw [h]; rfl) id
  | addEntry dir name inr dirty =>
    have hruns := runs_judged (fun r : ℤ × Inode × Bool => decide (r.1 < 0))
      (@tfsAddEntryPtrs_runs e dir name inr dirty k.dev)
    exact (and_iff_right hruns.touched).trans (tfsAddEntry_surfaces_iff dir name inr dirty k.dev)
  | read inode offset buf blocks =>
    refine iff_of_true (surfaces_judged (fun r : ℤ × (ℕ → UInt8) => decide (r.1 < 0))
      (tfsReadPtrs_runs blocks _) ?_) trivial
    exact (tfsRead_surfaces blocks).post fun _ _ h => h.imp decide_eq_true id
  | write inode offset buf blocks =>
    refine iff_of_true (surfaces_judged (fun r : ℤ × Inode => decide (r.1 < 0))
      (tfsWritePtrs_runs blocks _) ?_) trivial
    exact (tfsWrite_surfaces blocks).post fun _ _ h => h.imp decide_eq_true id
  | readdir inode offset =>
    refine (and_congr_left' (tfsReaddirLoop_notNull_iff _ offset k.dev)).trans ?_
    exact and_iff_left_of_imp fun h hne => absurd (tfsReaddirLoop_failures _ offset k.dev h) hne
  | allocBlock block =>
    exact iff_of_true (surfaces_judged _ (testedOnce_runs _) (tested_negative
      (preserves_allocBlockRest block))) trivial
  | freeBlock block =>
    exact iff_of_true (surfaces_judged _ (testedOnce_runs _) (tested_negative
      (preserves_freeRest _ block))) trivial
  | allocInode inr =>
    exact iff_of_true (surfaces_judged _ (tfsAllocInodePtrs_runs inr _)
      (tfsAllocInode_surfaces inr)) trivial
  | freeInode inr =>
    exact iff_of_true (surfaces_judged _ (testedOnce_runs _) (tested_negative
      (preserves_freeRest _ _))) trivial

/-! ### One read that fails -/

/-- The first transfer fails. -/
def firstFails : Env :=
  { Env.quiet (smallSbi 9) with transfer := fun t => if t = 0 then .ioError else .done }

/-- The root is looked up at the time of booting: its record is read through `NULL`, and the
look-up succeeds. And an entry is made while the bitmap cannot be read: it succeeds as well, in
a block of the number `-EIO`. -/
theorem not_read_errors :
    touched (FsOp.igetRoot.runPtrs firstFails) (bootKernel firstFails formatted) = [none] ∧
    (FsOp.igetRoot.run firstFails (bootKernel firstFails formatted)).1 = false ∧
    (FsOp.igetRoot.run firstFails (bootKernel firstFails formatted)).2.dev.failures = [4] ∧
    ¬FsOp.igetRoot.Surfaces firstFails (bootKernel firstFails formatted) ∧
    (tfsAddEntry firstFails (newInodeValue TFS_DIR) [97] 2 false
      (bootKernel firstFails formatted).dev).1.1 = 0 ∧
    (tfsAddEntry firstFails (newInodeValue TFS_DIR) [97] 2 false
      (bootKernel firstFails formatted).dev).2.failures = [3] ∧
    ¬(FsOp.addEntry (newInodeValue TFS_DIR) [97] 2 false).Surfaces firstFails
      (bootKernel firstFails formatted) := by
  have htouched : touched (FsOp.igetRoot.runPtrs firstFails) (bootKernel firstFails formatted) =
      [none] := by decide +kernel
  have hzero : (tfsAddEntry firstFails (newInodeValue TFS_DIR) [97] 2 false
      (bootKernel firstFails formatted).dev).1.1 = 0 := by decide +kernel
  have hfailed : (tfsAddEntry firstFails (newInodeValue TFS_DIR) [97] 2 false
      (bootKernel firstFails formatted).dev).2.failures = [3] := by decide +kernel
  have hbefore : (bootKernel firstFails formatted).dev.failures = [] := by decide +kernel
  refine ⟨htouched, by decide +kernel, by decide +kernel, fun h => ?_, hzero, hfailed, fun h => ?_⟩
  · rw [FsOp.Surfaces, htouched, List.forall_mem_singleton] at h
    exact h.1 rfl
  · have hneg := h.addEntry_neg
    rw [hzero, hfailed, hbefore] at hneg
    exact absurd (hneg (List.cons_ne_nil _ _)) (by decide)

end Thunix.Fs
