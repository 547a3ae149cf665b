import Thunix.Fs.File
import Thunix.Fs.Untouched

/-!
# Writes that fail

`tfs_write` goes on block by block: it finds or allocates the block, requests it, copies into
its buffer, sets `i_size` and writes the block, and what has been done for one block is not
taken back when a later one fails, nor is the allocation of a block that then cannot be had.
A call that fails leaves the file alone exactly if it is stopped at its first block, by the
limit of `i_data`, by the bitmap or by the request of a block it has already
(`Thunix.Fs.StopsAtOnce`, `Thunix.Fs.write_kept_iff`).

A round of the loop is written with what follows it as a parameter (`Thunix.Fs.roundThen`), so
that the first round, which stands by itself in the code, and the others are the same.
-/

namespace Thunix.Fs

variable {e : Env} {inode inode' : Inode} {d d' d'' d₀ : Dev} {offset index off count bytes b : ℕ}
  {src buf : ℕ → UInt8} {next : Inode → DevM (ℤ × Inode)} {blocks : ℤ}

/-! ### The rounds -/

/-- A round of `tfs_write` with its block. -/
def blockThen (e : Env) (offset off count bytes : ℕ) (src : ℕ → UInt8)
    (next : Inode → DevM (ℤ × Inode)) (inode : Inode) (block : ℕ) : DevM (ℤ × Inode) := do
  match ← getCacheBlock e e.sbi block with
  | none => pure (- EIO, inode)
  | some cs => do
    let res ← copyAndWrite e block cs off count src
    let inode := growSize inode offset bytes
    if res ≠ 0 then pure (- EIO, inode) else next inode

/-- A round of `tfs_write`, and what follows it. -/
def roundThen (e : Env) (offset off count bytes : ℕ) (src : ℕ → UInt8)
    (next : Inode → DevM (ℤ × Inode)) (inode : Inode) (index : ℕ) : DevM (ℤ × Inode) := do
  let (block, inode) ← blockForWrite e inode index
  match block with
  | .error err => pure (err, inode)
  | .ok block => blockThen e offset off count bytes src next inode block

theorem tfsWriteLoop_succ (n : ℕ) :
    tfsWriteLoop e offset buf (n + 1) index bytes inode =
      roundThen e offset 0 e.sbi.sBlockSize (bytes + e.sbi.sBlockSize) (fun i => buf (bytes + i))
        (tfsWriteLoop e offset buf n (index + 1) (bytes + e.sbi.sBlockSize)) inode index := rfl

theorem tfsWrite_eq (h : blocks ≠ 0) :
    tfsWrite e inode offset buf blocks =
      roundThen e offset (offset &&& (e.sbi.sBlockSize - 1))
        (e.sbi.sBlockSize - (offset &&& (e.sbi.sBlockSize - 1)))
        (e.sbi.sBlockSize - (offset &&& (e.sbi.sBlockSize - 1))) buf
        (tfsWriteLoop e offset buf (toU32 (blocks - 1)) ((offset >>> e.sbi.sBlockShift) + 1)
          (e.sbi.sBlockSize - (offset &&& (e.sbi.sBlockSize - 1)))) inode
        (offset >>> e.sbi.sBlockShift) := by
  rw [tfsWrite, if_neg h]
  rfl

/-! ### The property and its condition -/

/-- A write that reports failure changes nothing. -/
def WriteKept (e : Env) (inode : Inode) (offset : ℕ) (buf : ℕ → UInt8) (blocks : ℤ) (d : Dev) :
    Prop :=
  (tfsWrite e inode offset buf blocks d).1.1 < 0 → Unchanged inode
    (tfsWrite e inode offset buf blocks d).1.2 d (tfsWrite e inode offset buf blocks d).2

/-- The round ends before anything has changed: there is no room for a block or none can be
allocated, or the block that is there cannot be had. -/
def StopsAtOnce (e : Env) (inode : Inode) (index : ℕ) (d : Dev) : Prop :=
  if tfsBmap inode index = 0 then
    TFS_N_BLOCKS ≤ index ∨ Unread e d ∨ Settles e e.sbi.sDataArea minusOne d
  else (getCacheBlock e e.sbi (tfsBmap inode index) d).1 = none

/-- The round goes through: the block is there or is allocated, can be had, and is written. -/
def RoundGoes (e : Env) (inode : Inode) (index : ℕ) (d : Dev) : Prop :=
  if tfsBmap inode index = 0 then
    index < TFS_N_BLOCKS ∧ 0 ≤ (tfsAllocBlock e e.sbi.sDataArea d).1 ∧
      Writable e (toU32 (tfsAllocBlock e e.sbi.sDataArea d).1) (tfsAllocBlock e e.sbi.sDataArea d).2
  else Writable e (tfsBmap inode index) d

/-- The rounds that are left go through, one after another, and the inode is written. -/
def RoundsGo (e : Env) (offset : ℕ) (buf : ℕ → UInt8) : ℕ → ℕ → ℕ → Inode → Dev → Prop
  | 0, _, _, inode, d => Writable e (iwriteBlock e inode) d
  | n + 1, index, bytes, inode, d =>
    let after := roundThen e offset 0 e.sbi.sBlockSize (bytes + e.sbi.sBlockSize)
      (fun i => buf (bytes + i)) (fun inode => pure (0, inode)) inode index d
    RoundGoes e inode index d ∧
      RoundsGo e offset buf n (index + 1) (bytes + e.sbi.sBlockSize) after.1.2 after.2

/-- The whole write goes through. -/
def WriteGoes (e : Env) (inode : Inode) (offset : ℕ) (buf : ℕ → UInt8) (blocks : ℤ) (d : Dev) :
    Prop :=
  let index := offset >>> e.sbi.sBlockShift
  let bufoff := offset &&& (e.sbi.sBlockSize - 1)
  let bytes := e.sbi.sBlockSize - bufoff
  let after := roundThen e offset bufoff bytes bytes buf
    (fun inode => pure (0, inode)) inode index d
  RoundGoes e inode index d ∧
    RoundsGo e offset buf (toU32 (blocks - 1)) (index + 1) bytes after.1.2 after.2

/-! ### The log only grows -/

theorem later_copyAndWrite (b : ℕ) (cs : CacheRef) :
    Preserves (Later d₀) (copyAndWrite e b cs off count src) :=
  Preserves.bind (fun _ h => h) fun data =>
    Preserves.bind (fun _ h => h) fun _ => later_tfsBwrite false b data

theorem later_tfsIwrite (inode : Inode) : Preserves (Later d₀) (tfsIwrite e inode) := by
  refine (later_getCacheBlock _ _).bind fun res => ?_
  cases res with
  | none => exact .pure _ _
  | some cs =>
    refine Preserves.bind (fun _ h => h) fun data => Preserves.bind (fun _ h => h) fun tinode => ?_
    exact Preserves.bind (fun _ h => h) fun _ => later_tfsBwrite _ _ _

theorem later_blockThen (hnext : ∀ inode, Preserves (Later d₀) (next inode)) (b : ℕ) :
    Preserves (Later d₀) (blockThen e offset off count bytes src next inode b) := by
  refine (later_getCacheBlock _ _).bind fun res => ?_
  cases res with
  | none => exact .pure _ _
  | some cs => exact (later_copyAndWrite b cs).bind fun res => .ite (.pure _ _) (hnext _)

theorem later_roundThen (hnext : ∀ inode, Preserves (Later d₀) (next inode)) (index : ℕ) :
    Preserves (Later d₀) (roundThen e offset off count bytes src next inode index) := by
  refine Preserves.bind ?_ fun r => ?_
  · refine .ite (.pure _ _) (.ite ?_ (.pure _ _))
    exact (later_tfsAllocBlock _).bind fun block => .ite (.pure _ _) (.pure _ _)
  · obtain ⟨err | b, inode⟩ := r
    · exact .pure _ _
    · exact later_blockThen hnext b

theorem later_tfsWriteLoop (n index bytes : ℕ) (inode : Inode) :
    Preserves (Later d₀) (tfsWriteLoop e offset buf n index bytes inode) := by
  induction n generalizing index bytes inode with
  | zero => exact (later_tfsIwrite inode).bind fun res => .ite (.pure _ _) (.pure _ _)
  | succ n ih =>
    rw [tfsWriteLoop_succ]
    exact later_roundThen (ih _ _) index

/-! ### A round -/

/-- A bit has been set or a block written. -/
def Grown (d d' : Dev) : Prop :=
  d.flips.length < d'.flips.length ∨ d.stores.length < d'.stores.length

/-- What has been changed stays so. -/
theorem Grown.later (h : Grown d d') (hl : Later d' d'') : Grown d d'' :=
  h.imp (fun h => h.trans_le (hl.length_le _)) fun h => h.trans_le (hl.length_le _)

theorem Grown.not_unchanged (h : Grown d d') : ¬Unchanged inode inode' d d' := fun hu => by
  rcases h with h | h
  · rw [hu.dev.flips] at h
    exact Nat.lt_irrefl _ h
  · rw [hu.dev.stores] at h
    exact Nat.lt_irrefl _ h

theorem Taken.grown (h : Taken e d d') : Grown d d' := by
  obtain ⟨cs, d₁, k, -, -, -, hflips⟩ := h
  left
  rw [hflips, List.length_append, List.length_singleton]
  exact Nat.lt_succ_self _

/-- Copying and writing says whether the write has met an error, and is recorded. -/
theorem copyAndWrite_outcome (e : Env) (off count : ℕ) (src : ℕ → UInt8) (b : ℕ) (cs : CacheRef)
    (d : Dev) :
    ((copyAndWrite e b cs off count src d).1 = 0 ↔ WriteOk e d.ticks) ∧
      (copyAndWrite e b cs off count src d).2.stores = d.stores ++ [b] := by
  obtain ⟨disk, t, m, hrun, hblock, -⟩ := tfsBwriteTagged_run false e e.sbi b (d.cache cs).data
    (d.copyIn ((d.cache cs).data + off) count src)
  have hcopy : copyAndWrite e b cs off count src d = tfsBwriteTagged false e e.sbi b
    (d.cache cs).data (d.copyIn ((d.cache cs).data + off) count src) := rfl
  refine ⟨tfsBwrite_eq_zero_iff false e b _ _, ?_⟩
  rw [hcopy, hrun, Dev.stores, List.filterMap_append, ← hblock]
  rfl

/-- What a round comes to, of what follows it: it goes through and leaves its marks, or stops;
and if it stops at once, it leaves none. -/
def RoundComes (goes atOnce : Prop) (inode : Inode) (d : Dev)
    (run : (Inode → DevM (ℤ × Inode)) → (ℤ × Inode) × Dev) : Prop :=
  (goes ∧ ¬atOnce ∧ ∃ inode' d', (∀ next, run next = next inode' d') ∧ Grown d d') ∨
  (¬goes ∧ ∃ r inode' d', r < 0 ∧ (∀ next, run next = ((r, inode'), d')) ∧
    ((atOnce ∧ Unchanged inode inode' d d') ∨ (¬atOnce ∧ Grown d d')))

/-- A round with its block stops at once if the request fails. -/
theorem blockThen_comes (e : Env) (offset off count bytes : ℕ) (src : ℕ → UInt8) (inode : Inode)
    (b : ℕ) (d : Dev) :
    RoundComes (Writable e b d) ((getCacheBlock e e.sbi b d).1 = none) inode d
      fun next => blockThen e offset off count bytes src next inode b d := by
  have hget := getCacheBlock_untouched e e.sbi b d
  have hrun : ∀ next, blockThen e offset off count bytes src next inode b d = _ := fun next =>
    DevM.bind_apply _ _ _
  rw [Writable]
  generalize getCacheBlock e e.sbi b d = q at hget hrun
  obtain ⟨_ | cs, d₁⟩ := q
  · exact .inr ⟨fun h => h.1 rfl, - EIO, inode, d₁, by decide, hrun, .inl ⟨rfl, rfl, rfl, hget⟩⟩
  · have hsome := Option.some_ne_none cs
    obtain ⟨hzero, hstores⟩ := copyAndWrite_outcome e off count src b cs d₁
    have hgrown : Grown d (copyAndWrite e b cs off count src d₁).2 := by
      right
      rw [hstores, ← hget.stores, List.length_append, List.length_singleton]
      exact Nat.lt_succ_self _
    by_cases hok : WriteOk e d₁.ticks
    · refine .inl ⟨⟨hsome, hok⟩, hsome, growSize inode offset bytes, _, fun next =>
        (hrun next).trans ?_, hgrown⟩
      have hr := not_not.mpr (hzero.mpr hok)
      dsimp only
      rw [DevM.bind_apply, if_neg hr]
    · refine .inr ⟨fun h => hok h.2, - EIO, growSize inode offset bytes, _, by decide, fun next =>
        (hrun next).trans ?_, .inr ⟨hsome, hgrown⟩⟩
      have hr := mt hzero.mp hok
      dsimp only
      rw [DevM.bind_apply, if_pos hr]
      rfl

/-- A round that has to allocate its block. -/
theorem allocRound_comes (hs : Sized e.sbi) (hzero : tfsBmap inode index = 0)
    (hlt : index < TFS_N_BLOCKS) (d : Dev) :
    RoundComes (0 ≤ (tfsAllocBlock e e.sbi.sDataArea d).1 ∧ Writable e
        (toU32 (tfsAllocBlock e e.sbi.sDataArea d).1) (tfsAllocBlock e e.sbi.sDataArea d).2)
      (Unread e d ∨ Settles e e.sbi.sDataArea minusOne d) inode d
      fun next => roundThen e offset off count bytes src next inode index d := by
  have htouch := tfsAllocBlock_touch hs e.sbi.sDataArea d
  have hblock : ∀ next, roundThen e offset off count bytes src next inode index d =
      if (tfsAllocBlock e e.sbi.sDataArea d).1 < 0 then
        ((-ENOSPC, inode), (tfsAllocBlock e e.sbi.sDataArea d).2)
      else blockThen e offset off count bytes src next
        (inode.setData index (toU32 (tfsAllocBlock e e.sbi.sDataArea d).1))
        (toU32 (tfsAllocBlock e e.sbi.sDataArea d).1) (tfsAllocBlock e e.sbi.sDataArea d).2 := by
    intro next
    rw [roundThen, DevM.bind_apply, blockForWrite, if_neg (not_not.mpr hzero), if_pos hlt,
      DevM.bind_apply]
    by_cases hneg : (tfsAllocBlock e e.sbi.sDataArea d).1 < 0
    · rw [if_pos hneg, if_pos hneg]
      rfl
    · rw [if_neg hneg, if_neg hneg]
      rfl
  generalize tfsAllocBlock e e.sbi.sDataArea d = new at htouch hblock
  obtain ⟨r, d₁⟩ := new
  dsimp only at htouch hblock ⊢
  have hfail : r < 0 → ∀ next, roundThen e offset off count bytes src next inode index d =
      ((-ENOSPC, inode), d₁) := fun hneg next => (hblock next).trans (if_pos hneg)
  rcases htouch with ⟨hread, rfl, hu⟩ | ⟨-, hfull, rfl, hu⟩ | ⟨hread, hfull, htaken⟩
  · exact .inr ⟨fun h => absurd h.1 (by decide), -ENOSPC, inode, d₁, by decide,
      hfail (by decide), .inl ⟨.inl hread, rfl, rfl, hu⟩⟩
  · exact .inr ⟨fun h => absurd h.1 (by decide), -ENOSPC, inode, d₁, by decide,
      hfail (by decide), .inl ⟨.inr hfull, rfl, rfl, hu⟩⟩
  · have hnot := not_or.mpr ⟨hread, hfull⟩
    by_cases hneg : r < 0
    · exact .inr ⟨fun h => absurd h.1 (not_le.mpr hneg), -ENOSPC, inode, d₁, by decide, hfail hneg,
        .inr ⟨hnot, htaken.grown⟩⟩
    · have hgoes : ∀ next, roundThen e offset off count bytes src next inode index d =
          blockThen e offset off count bytes src next (inode.setData index (toU32 r))
            (toU32 r) d₁ :=
        fun next => (hblock next).trans (if_neg hneg)
      -- what follows the allocation does not take it back
      have hlater : Later d₁ (blockThen e offset off count bytes src (fun inode => pure (0, inode))
          (inode.setData index (toU32 r)) (toU32 r) d₁).2 :=
        later_blockThen (fun _ => .pure _ _) _ d₁ (.refl d₁)
      rcases blockThen_comes e offset off count bytes src (inode.setData index (toU32 r))
        (toU32 r) d₁
        with ⟨hwrite, -, inode', d', hthen, -⟩ | ⟨hwrite, r', inode', d', hr', hthen, -⟩
      all_goals
        beta_reduce at hthen
        rw [hthen] at hlater
      · exact .inl ⟨⟨not_lt.mp hneg, hwrite⟩, hnot, inode', d',
          fun next => (hgoes next).trans (hthen next), htaken.grown.later hlater⟩
      · exact .inr ⟨fun h => hwrite h.2, r', inode', d', hr',
          fun next => (hgoes next).trans (hthen next), .inr ⟨hnot, htaken.grown.later hlater⟩⟩

/-- **A round**, for every inode, index and course of the transfers. -/
theorem roundThen_comes (hs : Sized e.sbi) (offset off count bytes : ℕ) (src : ℕ → UInt8)
    (inode : Inode) (index : ℕ) (d : Dev) :
    RoundComes (RoundGoes e inode index d) (StopsAtOnce e inode index d) inode d
      fun next => roundThen e offset off count bytes src next inode index d := by
  have hrun : ∀ next, roundThen e offset off count bytes src next inode index d = _ := fun next =>
    DevM.bind_apply _ _ _
  unfold RoundGoes StopsAtOnce
  by_cases hzero : tfsBmap inode index = 0
  · rw [if_pos hzero, if_pos hzero]
    by_cases hlt : index < TFS_N_BLOCKS
    · rw [and_iff_right hlt, or_iff_right (Nat.not_le.mpr hlt)]
      exact allocRound_comes hs hzero hlt d
    · refine .inr ⟨fun h => hlt h.1, -EFBIG, inode, d, by decide, fun next => ?_,
        .inl ⟨.inl (Nat.not_lt.mp hlt), rfl, rfl, .refl d⟩⟩
      refine (hrun next).trans ?_
      rw [blockForWrite, if_neg (not_not.mpr hzero), if_neg hlt]
      rfl
  · rw [if_neg hzero, if_neg hzero]
    have hblock : ∀ next, roundThen e offset off count bytes src next inode index d =
        blockThen e offset off count bytes src next inode (tfsBmap inode index) d := fun next => by
      rw [hrun, blockForWrite, if_pos hzero]
      rfl
    rw [funext hblock]
    exact blockThen_comes e offset off count bytes src inode _ d

/-! ### The whole write -/

theorem tfsIwrite_eq_zero_iff (inode : Inode) (d : Dev) :
    (tfsIwrite e inode d).1 = 0 ↔ Writable e (iwriteBlock e inode) d := by
  rw [tfsIwrite, DevM.bind_apply, Writable, iwriteBlock]
  generalize getCacheBlock e e.sbi _ d = q
  obtain ⟨_ | cs, d₁⟩ := q
  · exact iff_of_false (show - EIO ≠ 0 by decide) fun h => h.1 rfl
  · have hsome := Option.some_ne_none cs
    rw [and_iff_right hsome]
    exact tfsBwrite_eq_zero_iff false e _ _ _

/-- The loop succeeds exactly if its rounds go through. -/
theorem tfsWriteLoop_nonneg_iff (hs : Sized e.sbi) (n index bytes : ℕ) (inode : Inode) (d : Dev) :
    0 ≤ (tfsWriteLoop e offset buf n index bytes inode d).1.1 ↔
      RoundsGo e offset buf n index bytes inode d := by
  induction n generalizing index bytes inode d with
  | zero =>
    rw [RoundsGo, ← tfsIwrite_eq_zero_iff, tfsWriteLoop, DevM.bind_apply]
    by_cases hr : (tfsIwrite e inode d).1 = 0
    · rw [if_neg (not_not.mpr hr)]
      exact iff_of_true (Int.natCast_nonneg bytes) hr
    · rw [if_pos hr]
      exact iff_of_false (show ¬0 ≤ - EIO by decide) hr
  | succ n ih =>
    rw [tfsWriteLoop_succ, RoundsGo]
    rcases roundThen_comes hs offset 0 e.sbi.sBlockSize (bytes + e.sbi.sBlockSize)
      (fun i => buf (bytes + i)) inode index d with
      ⟨hgoes, -, inode', d', hthen, -⟩ | ⟨hstops, r, inode', d', hr, hthen, -⟩
    all_goals beta_reduce at hthen
    · rw [hthen, hthen, and_iff_right hgoes]
      exact ih _ _ inode' d'
    · rw [hthen]
      exact iff_of_false (not_le.mpr hr) fun h => hstops h.1

/-- **When a failed write changes nothing**, for every inode, offset, buffer, number of blocks
and course of the transfers: it goes through, or it is stopped at its first block before
anything has changed. -/
theorem write_kept_iff (hs : Sized e.sbi) (inode : Inode) (offset : ℕ) (buf : ℕ → UInt8)
    (blocks : ℤ) (d : Dev) :
    WriteKept e inode offset buf blocks d ↔ blocks = 0 ∨
      StopsAtOnce e inode (offset >>> e.sbi.sBlockShift) d ∨
      WriteGoes e inode offset buf blocks d := by
  rcases eq_or_ne blocks 0 with rfl | hne
  · exact iff_of_true (fun h => absurd h (show ¬(0 : ℤ) < 0 by decide)) (.inl rfl)
  · rw [WriteKept, WriteGoes, or_iff_right hne, tfsWrite_eq hne]
    generalize e.sbi.sBlockSize - (offset &&& (e.sbi.sBlockSize - 1)) = bytes
    rcases roundThen_comes hs offset (offset &&& (e.sbi.sBlockSize - 1)) bytes bytes buf inode
      (offset >>> e.sbi.sBlockShift) d with
      ⟨hgoes, hnot, inode', d', hthen, hgrown⟩ | ⟨hstops, r, inode', d', hr, hthen, hout⟩
    all_goals beta_reduce at hthen
    · rw [hthen, hthen, and_iff_right hgoes, or_iff_right hnot, ← tfsWriteLoop_nonneg_iff hs,
        ← not_lt]
      refine ⟨fun h hneg => ?_, fun h hneg => absurd hneg h⟩
      exact (hgrown.later (later_tfsWriteLoop _ _ _ _ d' (.refl d'))).not_unchanged (h hneg)
    · rw [hthen, or_iff_left fun h => hstops h.1]
      refine (forall_prop_of_true hr).trans ?_
      rcases hout with ⟨hat, hu⟩ | ⟨hat, hgrown⟩
      · exact iff_of_true hu hat
      · exact iff_of_false hgrown.not_unchanged hat

/-! ### Two blocks -/

/-- A file with one block, on the small volume. -/
def oneBlockFile : Inode :=
  { (newInodeValue TFS_FILE).setData 0 7 with
    iSize := 512
    iIno := 2 }

/-- The small volume with every byte of it set, so that no block is free. -/
def onesDev : Dev := cacheInit 9 { Dev.blank with disk := fun _ _ => 0xff }

/-- Two blocks are written to a new file, with one free block left: the first one is written and
stays in the file. And two blocks to a file with one block, with none left: inode and bitmap
are as before, but the block of the file has been overwritten. -/
theorem not_write_kept :
    (tfsWrite (Env.quiet (smallSbi 9)) (newInodeValue TFS_FILE) 0 (fun _ => 97) 2
      (bitmapDev fun x => if x = 0 then 0xbf else 0xff)).1.1 = -ENOSPC ∧
    (tfsWrite (Env.quiet (smallSbi 9)) (newInodeValue TFS_FILE) 0 (fun _ => 97) 2
      (bitmapDev fun x => if x = 0 then 0xbf else 0xff)).1.2.iSize = 512 ∧
    (tfsWrite (Env.quiet (smallSbi 9)) (newInodeValue TFS_FILE) 0 (fun _ => 97) 2
      (bitmapDev fun x => if x = 0 then 0xbf else 0xff)).2.flips = [6] ∧
    ¬WriteKept (Env.quiet (smallSbi 9)) (newInodeValue TFS_FILE) 0 (fun _ => 97) 2
      (bitmapDev fun x => if x = 0 then 0xbf else 0xff) ∧
    (tfsWrite (Env.quiet (smallSbi 9)) oneBlockFile 0 (fun _ => 97) 2 onesDev).1.1 = -ENOSPC ∧
    onesDev.disk (TFS_FS_SECTOR + 7) 0 = 0xff ∧
    (tfsWrite (Env.quiet (smallSbi 9)) oneBlockFile 0 (fun _ => 97) 2 onesDev).2.disk
      (TFS_FS_SECTOR + 7) 0 = 97 := by
  have hr : (tfsWrite (Env.quiet (smallSbi 9)) (newInodeValue TFS_FILE) 0 (fun _ => 97) 2
      (bitmapDev fun x => if x = 0 then 0xbf else 0xff)).1.1 = -ENOSPC := by decide +kernel
  have hsize : (tfsWrite (Env.quiet (smallSbi 9)) (newInodeValue TFS_FILE) 0 (fun _ => 97) 2
      (bitmapDev fun x => if x = 0 then 0xbf else 0xff)).1.2.iSize = 512 := by decide +kernel
  refine ⟨hr, hsize, by decide +kernel, fun h => ?_, by decide +kernel,
    by decide +kernel, by decide +kernel⟩
  have hsame := (h (by rw [hr]; decide)).iSize
  rw [hsize] at hsame
  exact absurd hsame (by decide)

/-- A block is written to a new file. -/
theorem write_kept_small :
    WriteKept (Env.quiet (smallSbi 9)) { newInodeValue TFS_FILE with iIno := 2 } 0 (fun _ => 97) 1
      (bitmapDev fun _ => 0) := by
  refine (write_kept_iff ⟨rfl, by decide, by decide⟩ _ _ _ _ _).mpr (.inr (.inr ⟨?_, ?_⟩))
  · rw [RoundGoes, if_pos (by decide)]
    exact ⟨by decide, by decide +kernel, by decide +kernel, by decide +kernel⟩
  · exact ⟨by decide +kernel, by decide +kernel⟩

end Thunix.Fs
