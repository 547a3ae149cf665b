import Thunix.Fs.LifetimeRuns
import Thunix.Fs.Removal
import Thunix.Fs.Stable
import Thunix.Fs.WriteRuns

/-!
# The blocks of a file

Along any run of `sys_lseek` and `sys_write` on an open file the words of its block list are
blocks of data, each once, whose bits are set, in the inode in memory and in its record
(`Thunix.Fs.Owned`, `Thunix.Fs.FileState`). They may have holes: `tfs_write` allocates the
block that the offset is in, and none before it.

`tfs_release_inode` takes the first zero word for the end of the list. So `tfs_unlink`
gives back all the blocks of the file exactly if the list has no hole
(`Thunix.Fs.unlink_frees_iff`).
-/

namespace Thunix.Fs

variable {e : Env} {I : Image} {d d' : Dev} {inode M P : Inode} {used : ℕ → Bool}
  {b i k n index : ℕ} {name : List UInt8}

/-! ### What is on the disk -/

/-- The bit of a block in the bitmap on the disk. -/
def Dev.blockUsed (e : Env) (d : Dev) (b : ℕ) : Bool :=
  usedIn (diskBlock e.sbi d.disk e.sbi.sBlockBitmap) b

/-- The record of an inode on the disk. -/
def Dev.record (e : Env) (d : Dev) (n : ℕ) : Inode := recordAt e (diskBlock e.sbi d.disk) n

theorem ImageOn.shows_disk (g : Geometry e.sbi) (h : ImageOn e I d) :
    ∃ v, Shows e v I ∧ Shows e v (imageOf e (diskBlock e.sbi d.disk)) := by
  obtain ⟨v, hv, hshow⟩ := h
  exact ⟨v, hshow, shows_imageOf g fun b hb k hk => (hv.2.disk b hb k hk).symm⟩

theorem ImageOn.blockUsed (g : Geometry e.sbi) (h : ImageOn e I d) (hb : b < 8 * e.sbi.sBlockSize) :
    d.blockUsed e b = I.blockUsed b := by
  obtain ⟨v, hshow, hdisk⟩ := h.shows_disk g
  exact (hdisk.blockUsed b hb).symm.trans (hshow.blockUsed b hb)

theorem ImageOn.record (g : Geometry e.sbi) (h : ImageOn e I d) (hn : InTable e.sbi n) :
    d.record e n = I.inode n := by
  obtain ⟨v, hshow, hdisk⟩ := h.shows_disk g
  exact (hdisk.inode n hn).symm.trans (hshow.inode n hn)

/-! ### Blocks that belong to a file -/

/-- The blocks of the list are blocks of data in use, each once. -/
structure Owned (e : Env) (used : ℕ → Bool) (inode : Inode) : Prop where
  area : ∀ k, inode.iData.getD k 0 ≠ 0 → InData e.sbi (inode.iData.getD k 0)
  used : ∀ k, inode.iData.getD k 0 ≠ 0 → used (inode.iData.getD k 0) = true
  once : ∀ j k, inode.iData.getD j 0 = inode.iData.getD k 0 → inode.iData.getD j 0 ≠ 0 → j = k

/-- Only the bits of the bitmap matter. -/
theorem Owned.congr {used' : ℕ → Bool} (g : Geometry e.sbi) (h : Owned e used inode)
    (hused : ∀ b < 8 * e.sbi.sBlockSize, used b = used' b) : Owned e used' inode := by
  refine ⟨h.area, fun k hk => ?_, h.once⟩
  rw [← hused _ (lt_of_lt_of_le (h.area k hk).2 g.blocks)]
  exact h.used k hk

/-- A block that is taken is not one of the list. -/
theorem Owned.use (h : Owned e used inode) (b : ℕ) :
    Owned e (Function.update used b true) inode := by
  refine ⟨h.area, fun k hk => ?_, h.once⟩
  rcases eq_or_ne (inode.iData.getD k 0) b with hkb | hkb
  · rw [hkb, Function.update_self]
  · rw [Function.update_of_ne hkb]
    exact h.used k hk

/-- **A free block is put into the list.** -/
theorem Owned.take (h : Owned e used inode) (hindex : index < TFS_N_BLOCKS) (hb : InData e.sbi b)
    (hfree : used b = false) : Owned e (Function.update used b true) (inode.setData index b) := by
  have hother : ∀ k, inode.iData.getD k 0 ≠ 0 → inode.iData.getD k 0 ≠ b := fun k hk hkb => by
    have := h.used k hk
    rw [hkb, hfree] at this
    cases this
  refine ⟨fun k hk => ?_, fun k hk => ?_, fun j k hjk hj => ?_⟩
  · rw [getD_setData hindex] at hk ⊢
    by_cases hki : k = index
    · rw [if_pos hki]
      exact hb
    · rw [if_neg hki] at hk ⊢
      exact h.area k hk
  · rw [getD_setData hindex] at hk ⊢
    by_cases hki : k = index
    · rw [if_pos hki, Function.update_self]
    · rw [if_neg hki] at hk ⊢
      rw [Function.update_of_ne (hother k hk)]
      exact h.used k hk
  · rw [getD_setData hindex] at hjk hj
    rw [getD_setData hindex] at hjk
    by_cases hji : j = index <;> by_cases hki : k = index
    · rw [hji, hki]
    · rw [if_pos hji, if_neg hki] at hjk
      rw [if_pos hji] at hj
      exact absurd hjk.symm (hother k (hjk ▸ hj))
    · rw [if_neg hji] at hj
      rw [if_neg hji, if_pos hki] at hjk
      exact absurd hjk (hother j hj)
    · rw [if_neg hji, if_neg hki] at hjk
      rw [if_neg hji] at hj
      exact h.once j k hjk hj

/-- **What is given back is all there is** exactly if the list has no hole. -/
theorem Owned.released_iff (h : Owned e used inode) :
    (∀ k, inode.iData.getD k 0 ≠ 0 → inode.iData.getD k 0 ∈ inode.blockList) ↔ inode.Packed := by
  refine ⟨fun hall j k hjk hj => ?_, fun hp k hk => ?_⟩
  · by_contra hk
    obtain ⟨l, hl, heq⟩ := Inode.mem_blockList.mp (hall k hk)
    -- the block stands in its own place only, and that is behind the first zero
    have hle : inode.blocks ≤ j := by
      by_contra hlt
      exact Inode.getD_ne (by omega) hj
    have := h.once k l heq.symm hk
    omega
  · exact Inode.mem_blockList.mpr ⟨k, hp.lt_blocks_iff.mpr hk, rfl⟩

/-! ### Writes -/

/-- The file `n` of an image, and its inode in memory. -/
structure FileInv (e : Env) (n : ℕ) (M : Inode) (I : Image) : Prop where
  free : FreeInData e I
  owned : Owned e I.blockUsed M
  stored : Owned e I.blockUsed (I.inode n)
  mode : M.iMode = TFS_FILE
  storedMode : (I.inode n).iMode = TFS_FILE
  ino : M.iIno = n
  words : M.Words

/-- The same, of a device. -/
def FileOnDev (e : Env) (n : ℕ) (M : Inode) (d : Dev) : Prop :=
  ∃ I, ImageOn e I d ∧ FileInv e n M I

/-- A block is taken for the file. -/
theorem FileInv.take (h : FileInv e n M I) (hindex : index < TFS_N_BLOCKS) (hb : InData e.sbi b)
    (hfree : I.blockUsed b = false) (hlt : b < 2 ^ 32) :
    FileInv e n (M.setData index b) (I.useBlock b true) := by
  refine ⟨fun b' hb' hclear => h.free b' hb' ?_, h.owned.take hindex hb hfree, h.stored.use b,
    h.mode, h.storedMode, h.ino, h.words.setData hlt hindex⟩
  rcases eq_or_ne b' b with rfl | hne
  · exact hfree
  · exact (Function.update_of_ne hne _ _).symm.trans hclear

/-- The size does not matter. -/
theorem fileOnDev_grow {offset m : ℕ} (h : FileOnDev e n M d) :
    FileOnDev e n (growSize M offset m) d := by
  obtain ⟨I, hd, hinv⟩ := h
  exact ⟨I, hd, { hinv with
    owned := ⟨hinv.owned.area, hinv.owned.used, hinv.owned.once⟩
    words := { hinv.words with size := Nat.mod_lt _ (by decide) } }⟩

section Writes

variable (hs : Steady e)

include hs

theorem blockForWrite_file (index : ℕ) :
    Hoare (FileOnDev e n M) (blockForWrite e M index) fun r d =>
      FileOnDev e n r.2 d ∧ ∀ b, r.1 = .ok b → InData e.sbi b := by
  have g := hs.geometry
  refine Hoare.exists fun I => ?_
  unfold blockForWrite
  refine .ite (fun hne => .pure fun d h => ⟨⟨I, h⟩, fun b hb => ?_⟩) fun _ => ?_
  · obtain rfl := Except.ok.inj hb
    rw [tfsBmap] at hne ⊢
    split at hne
    · exact absurd rfl hne
    · rename_i hlt
      rw [if_neg hlt]
      exact h.2.owned.area index hne
  · refine .ite (fun hlt => ?_) fun _ => .pure fun d h => ⟨⟨I, h⟩, fun b hb => by cases hb⟩
    refine Hoare.assume fun hinv => (tfsAllocBlock_image hs).bind fun r => ?_
    rintro d (⟨rfl, -, hd⟩ | ⟨b, hb, rfl, hfree, hd⟩)
    · exact ⟨⟨I, hd, hinv⟩, fun b hb => by cases hb⟩
    · have hdata := hinv.free b hb hfree
      have h32 : b < 2 ^ 32 := (g.lt_two_pow (show b ∈ volume e.sbi from hdata.2)).trans (by decide)
      have hback : toU32 b = b := toU32_natCast h32
      rw [if_neg (by omega), hback]
      refine ⟨⟨_, hd, hinv.take hlt hdata hfree h32⟩, fun b' hb' => ?_⟩
      obtain rfl := Except.ok.inj hb'
      exact hdata

theorem copyAndWrite_image (hb : InData e.sbi b) {off count : ℕ}
    (hfit : off + count ≤ e.sbi.sBlockSize) (src : Buf) :
    Hoare (HoldingImage e I i b) (copyAndWrite e b (.entry i) off count src) fun _ d =>
      ∃ f, ImageOn e (I.setData b f) d := by
  refine dataPtr_image.bind_eq ?_
  refine Hoare.bind ((copyIn_image hfit src).pre fun d h => h.edited hb) fun _ => ?_
  exact (tfsBwrite_image hs hb).post fun _ _ h => ⟨_, h.2⟩

/-- One block of a write, with the inode after it. -/
theorem writeBlock_file (hb : InData e.sbi b) {off count : ℕ}
    (hfit : off + count ≤ e.sbi.sBlockSize) (src : Buf) {F : Option CacheRef → DevM (ℤ × Inode)}
    {f : ℤ → DevM (ℤ × Inode)}
    (hF : ∀ cs, F (some cs) = copyAndWrite e b cs off count src >>= f)
    (hf : ∀ r, Hoare (FileOnDev e n M) (f r) fun r d => FileOnDev e n r.2 d) :
    Hoare (FileOnDev e n M) (getCacheBlock e e.sbi b >>= F) fun r d => FileOnDev e n r.2 d := by
  refine Hoare.exists fun I => Hoare.assume fun hinv => request_image hs fun i => ?_
  rw [hF]
  refine (copyAndWrite_image hs hb hfit src).bind fun r => ?_
  rintro d ⟨buf, hd⟩
  exact hf r d ⟨_, hd, { hinv with }⟩

theorem tfsWriteLoop_file (hn : InTable e.sbi n) (offset : ℕ) (buf : Buf) (blocks index m : ℕ) :
    Hoare (FileOnDev e n M) (tfsWriteLoop e offset buf blocks index m M) fun r d =>
      FileOnDev e n r.2 d := by
  induction blocks generalizing index m M with
  | zero =>
    rw [tfsWriteLoop]
    have hwrite : Hoare (FileOnDev e n M) (tfsIwrite e M) fun _ d => FileOnDev e n M d := by
      refine Hoare.exists fun I => Hoare.assume fun hinv => ?_
      have hino : InTable e.sbi M.iIno := hinv.ino.symm ▸ hn
      refine (tfsIwrite_image hs hino hinv.words).post fun r d h => ⟨_, h.2, ?_⟩
      have hself : (I.setInode M.iIno (M.stored e)).inode n = M.stored e := by
        rw [← hinv.ino]
        exact Function.update_self _ _ _
      refine { hinv with stored := ?_, storedMode := ?_ }
      · rw [hself]
        exact ⟨hinv.owned.area, hinv.owned.used, hinv.owned.once⟩
      · rw [hself]
        change M.iMode % 2 ^ 16 = TFS_FILE
        rw [hinv.mode]
        rfl
    exact hwrite.bind fun r => .ite (fun _ => .pure fun _ h => h) fun _ => .pure fun _ h => h
  | succ blocks ih =>
    rw [tfsWriteLoop]
    refine (blockForWrite_file hs index).bind fun r d h => ?_
    obtain ⟨res, M'⟩ := r
    cases res with
    | error err => exact h.1
    | ok b =>
      refine writeBlock_file hs (h.2 b rfl) (Nat.zero_add _).le (fun i => buf (m + i))
        (fun cs => rfl) (fun r => ?_) d h.1
      refine .ite (fun _ => .pure fun d h => fileOnDev_grow h) fun _ => ?_
      exact ih (M := growSize M' offset (m + e.sbi.sBlockSize)) _ _ |>.pre
        fun d h => fileOnDev_grow h

/-- **`tfs_write` keeps what is said of the blocks**, whether it succeeds or fails. -/
theorem tfsWrite_file (hn : InTable e.sbi n) (offset : ℕ) (buf : Buf) (blocks : ℤ) :
    Hoare (FileOnDev e n M) (tfsWrite e M offset buf blocks) fun r d => FileOnDev e n r.2 d := by
  have hm := hs.geometry.mounted
  have hmod := Nat.mod_lt offset (show 0 < e.sbi.sBlockSize by have := hm.size_pos; omega)
  unfold tfsWrite
  rw [and_blockSize hm]
  refine .ite (fun _ => .pure fun _ h => h) fun _ => ?_
  refine (blockForWrite_file hs _).bind fun r d h => ?_
  obtain ⟨res, M'⟩ := r
  cases res with
  | error err => exact h.1
  | ok b =>
    refine writeBlock_file hs (h.2 b rfl) (by omega) buf (fun cs => rfl) (fun r => ?_) d h.1
    refine .ite (fun _ => .pure fun d h => fileOnDev_grow h) fun _ => ?_
    exact (tfsWriteLoop_file hs hn _ _ _ _ _).pre fun d h => fileOnDev_grow h

end Writes

/-! ### Runs -/

/-- A descriptor is open on an inode in memory, and the inode `M` is that of the file `n`. -/
def FileOpen (e : Env) (n fd : ℕ) (f : File) (inode M : Inode) (k : Kernel) : Prop :=
  OpenAt fd f inode k ∧ FileOnDev e n M k.dev

/-- A descriptor is open on the file `n`. -/
def FileState (e : Env) (n fd : ℕ) (k : Kernel) : Prop := ∃ f M, FileOpen e n fd f M M k

/-- The calls on an open file. -/
inductive FileCall
  | lseek (off : ℤ) (mode : ℕ)
  | write (buf : ℕ → UInt8) (size : ℤ)

/-- The call of the program. -/
def fileCall (e : Env) (fd : ℕ) : FileCall → KernelM ℤ
  | .lseek off mode => sysLseek e fd off mode
  | .write buf size => sysWrite e fd buf size

/-- A step of a run. -/
def FileStep (e : Env) (fd : ℕ) (k : Kernel) (c : FileCall) (k' : Kernel) : Prop :=
  k' = (fileCall e fd c k).2

variable {fd : ℕ} {f : File} {M' : Inode}

/-- A call on the open file. -/
theorem withFile_file {call : File → KernelM ℤ}
    (hcall : ∀ f M, Hoare (FileOpen e n fd f M M) (call f) fun _ => FileState e n fd) :
    Hoare (FileState e n fd) (withFile e fd call) fun _ => FileState e n fd := by
  rintro k ⟨f, M, hopen, hfile⟩
  have hget : fget e fd k = (some (.file f), k) := by
    have := hopen.fd_lt
    rw [fget, if_neg (by omega), if_neg (by omega), Int.toNat_natCast, hopen.file]
  rw [withFile, KernelM.bind_apply, hget]
  exact hcall f M k ⟨hopen, hfile⟩

theorem touch_fileOpen (obj : ℕ) :
    Hoare (FileOpen e n fd f M M') (touch obj) fun _ => FileOpen e n fd f M M' := by
  intro k h
  rw [touch]
  split
  · exact h
  · exact ⟨⟨h.1.fd_lt, h.1.file, h.1.inode⟩, h.2⟩

theorem inodeAt_fileOpen : Hoare (FileOpen e n fd f M M') (inodeAt f.inode) fun r k =>
    r = M ∧ FileOpen e n fd f M M' k :=
  (touch_fileOpen _).bind fun _ _ h => ⟨h.1.inode, h⟩

theorem setInode_fileOpen :
    Hoare (FileOpen e n fd f M M') (setInode f.inode M') fun _ => FileOpen e n fd f M' M' :=
  (touch_fileOpen _).bind fun _ _ h =>
    ⟨⟨h.1.fd_lt, h.1.file, Function.update_self _ _ _⟩, h.2⟩

theorem setOffset_file (offset : ℕ) :
    Hoare (FileOpen e n fd f M M) (setOffset (fd : ℤ).toNat offset) fun _ => FileState e n fd := by
  rintro k ⟨hopen, hfile⟩
  refine ⟨{ f with offset := offset }, M, ⟨hopen.fd_lt, ?_, hopen.inode⟩, hfile⟩
  change Function.update k.files (fd : ℤ).toNat _ fd = _
  rw [Int.toNat_natCast, Function.update_self, hopen.file]
  rfl

theorem sysLseek_file (off : ℤ) (mode : ℕ) :
    Hoare (FileState e n fd) (sysLseek e fd off mode) fun _ => FileState e n fd := by
  refine withFile_file fun f M => ?_
  have hset : ∀ (offset : ℕ) (r : ℤ), Hoare (FileOpen e n fd f M M) (do
      setOffset (fd : ℤ).toNat offset
      pure r) fun _ => FileState e n fd := fun offset r =>
    (setOffset_file offset).bind fun _ => .pure fun _ h => h
  refine .ite (fun _ => hset _ _) fun _ => .ite (fun _ => ?_) fun _ => .ite (fun _ => hset _ _)
    fun _ => .pure fun k h => ⟨f, M, h⟩
  exact inodeAt_fileOpen.bind_eq (hset _ _)

theorem sysWrite_file (hs : Steady e) (hn : InTable e.sbi n) (buf : Buf) (size : ℤ) :
    Hoare (FileState e n fd) (sysWrite e fd buf size) fun _ => FileState e n fd := by
  refine withFile_file fun f M => inodeAt_fileOpen.bind_eq ?_
  have hwrite : Hoare (FileOpen e n fd f M M)
      (onDev (tfsWrite e M f.offset buf (blocksFor e size M.iBlksize))) fun r =>
        FileOpen e n fd f M r.2 := fun k h =>
    ⟨⟨h.1.fd_lt, h.1.file, h.1.inode⟩, tfsWrite_file hs hn f.offset buf _ k.dev h.2⟩
  refine hwrite.bind fun ⟨w, M'⟩ => setInode_fileOpen.bind fun _ => ?_
  exact .ite (fun _ => (setOffset_file _).bind fun _ => .pure fun _ h => h) fun _ =>
    .pure fun _ h => ⟨f, M', h⟩

/-- **Every state of a run.** -/
theorem FileState.run (hs : Steady e) (hn : InTable e.sbi n) {k₀ k : Kernel}
    (h : FileState e n fd k₀) (hrun : Reach (FileStep e fd) (fun _ _ => True) k₀ k) :
    FileState e n fd k := by
  refine hrun.invariant h fun k c k' hk _ hstep => ?_
  rw [show k' = (fileCall e fd c k).2 from hstep]
  cases c with
  | lseek off mode => exact sysLseek_file off mode k hk
  | write buf size => exact sysWrite_file hs hn buf size k hk

/-! ### Unlinking -/

/-- The blocks of the file have been given back, and no others: the bits of the words of its
list are clear, and every other bit is what it was. -/
def FreesBlocks (e : Env) (inode : Inode) (d d' : Dev) : Prop :=
  (∀ k, inode.iData.getD k 0 ≠ 0 → d'.blockUsed e (inode.iData.getD k 0) = false) ∧
  ∀ b < 8 * e.sbi.sBlockSize, (∀ k, inode.iData.getD k 0 = b → b = 0) →
    d'.blockUsed e b = d.blockUsed e b

theorem geometry_small : Geometry (Env.quiet (smallSbi 9)).sbi where
  mounted := mounted_small
  bitmaps := by decide
  table := by decide
  records := by decide
  area := by decide
  inodes_pos := by decide
  inodes := by decide
  blocks := by decide
  sectors := by decide

theorem steady_small : Steady (Env.quiet (smallSbi 9)) :=
  ⟨geometry_small, quiet_quiet _, straight_quiet _⟩

/-- The formatted volume with a file `a` of one block: inode 2 and block 7 are taken too. -/
def filedBlock : ℕ → Buf
  | 2 => fun i => if i = 0 then 3 else if i = 1 then 0 else 0xff
  | 3 => fun i => if i < 4 then if i = 0 then 0xff else 0 else 0xff
  | 4 => fun i => if i = 0 then 2 else if i = 4 then 96 else if i = 24 then 6 else
    if i = 64 then 1 else if i = 69 then 2 else if i = 88 then 7 else 0
  | 6 => fun i => if i = 0 ∨ i = 32 then 1 else if i = 4 ∨ i = 36 ∨ i = 37 then 46 else
    if i = 64 then 2 else if i = 68 then 97 else 0
  | _ => fun _ => 0

/-- What the volume holds. -/
def filedImage : Image := imageOf (Env.quiet (smallSbi 9)) filedBlock

/-- The file is open. -/
def filedKernel : Kernel :=
  { bootKernel (Env.quiet (smallSbi 9)) (diskOf filedBlock) with
    objs := fun o => filedImage.inode (o + 1)
    nextObj := 2
    files := fun _ => some { inode := 1, offset := 0 } }

theorem imageOn_filed : ImageOn (Env.quiet (smallSbi 9)) filedImage filedKernel.dev := by
  have hagree : ∀ b ∈ volume (smallSbi 9),
      Agree 512 (diskBlock (smallSbi 9) (diskOf filedBlock).disk b) (filedBlock b) :=
    fun _ hb _ hx => diskBlock_diskOf _ hb hx
  exact imageOn_cacheInit (e := Env.quiet (smallSbi 9)) (d := diskOf filedBlock) (w := filedBlock)
    geometry_small hagree

theorem usedIn_of_full {f : Buf} (h : f (b / 8) = 0xff) : usedIn f b = true := by
  have hset : ∀ i < 8, (0xff : UInt8).toNat.testBit i = true := by decide
  rw [usedIn, bit, Nat.zero_add, h]
  exact hset _ (Nat.mod_lt b (by decide))

/-- The free blocks of the volume are those behind the one of the file. -/
theorem filedImage_free (h : filedImage.blockUsed b = false) : 8 ≤ b ∧ b < 32 := by
  by_contra hout
  have hbyte : filedBlock 3 (b / 8) = 0xff := by
    rcases Nat.lt_or_ge (b / 8) 4 with hlt | hge
    · have hzero : b / 8 = 0 := by omega
      rw [hzero]
      rfl
    · exact if_neg (by omega)
  have hfull : filedImage.blockUsed b = true := usedIn_of_full hbyte
  rw [hfull] at h
  cases h

theorem filedImage_words {n k : ℕ} (hn : n = 1 ∨ n = 2)
    (h : (filedImage.inode n).iData.getD k 0 ≠ 0) :
    k = 0 ∧ (filedImage.inode n).iData.getD k 0 = n + 5 := by
  have hrest : ∀ n, n = 1 ∨ n = 2 → ∀ k < 8, k ≠ 0 → (filedImage.inode n).iData.getD k 0 = 0 := by
    rintro n (rfl | rfl) <;> decide
  have hk : k = 0 := by
    by_contra hne
    refine h ?_
    rcases Nat.lt_or_ge k 8 with hlt | hge
    · exact hrest n hn k hlt hne
    · exact getD_of_le hge
  refine ⟨hk, ?_⟩
  rw [hk]
  rcases hn with rfl | rfl <;> decide

theorem recordAt_words (e : Env) (v : ℕ → Buf) (hn : n < 2 ^ 32) : (recordAt e v n).Words := by
  have hino : toU32 n = n := toU32_natCast hn
  refine ⟨le32_lt _ _, hino.le.trans_lt hn, le32_lt _ _, le32_lt _ _, le32_lt _ _, le32_lt _ _,
    le32_lt _ _, fun k => ?_⟩
  have hdata : (recordAt e v n).iData = (List.range TFS_N_BLOCKS).map fun k =>
    le32 (fun x => v (recordBlock e.sbi n) (recordPlace e.sbi n + x)) (24 + 4 * k) := rfl
  rcases Nat.lt_or_ge k TFS_N_BLOCKS with hlt | hge
  · rw [hdata, List.getD_eq_getElem _ _ (by rwa [List.length_map, List.length_range])]
    rw [List.getElem_map]
    exact le32_lt _ _
  · rw [getD_of_le hge]
    exact Nat.two_pow_pos 32

theorem openDir_filed : OpenDir (Env.quiet (smallSbi 9)) filedImage (filedKernel.objs 0) := by
  have hword : ∀ {k}, (filedKernel.objs 0).iData.getD k 0 ≠ 0 → k = 0 := fun h =>
    (filedImage_words (.inl rfl) h).1
  have hblocks : (filedKernel.objs 0).blocks = 1 := by decide
  refine ⟨⟨fun j k hjk hj => ?_, fun k hk => ?_, fun j hj k hk _ => ?_⟩, by decide, fun k hk => ?_,
    recordAt_words _ _ (by decide), show 1 ≤ 1 ∧ 1 ≤ 16 by decide, ?_⟩
  · by_contra hk
    obtain rfl := hword hk
    exact hk (Nat.le_zero.mp hjk ▸ hj)
  · obtain rfl : k = 0 := by omega
    exact show 6 ≤ 6 ∧ 6 < 32 by decide
  · omega
  · obtain rfl : k = 0 := by omega
    decide
  · rfl

theorem fileState_filed : FileState (Env.quiet (smallSbi 9)) 2 0 filedKernel := by
  have howned : Owned (Env.quiet (smallSbi 9)) filedImage.blockUsed (filedImage.inode 2) := by
    refine ⟨fun k hk => ?_, fun k hk => ?_, fun j k hjk hj => ?_⟩
    · rw [(filedImage_words (.inr rfl) hk).2]
      exact show 6 ≤ 7 ∧ 7 < 32 by decide
    · rw [(filedImage_words (.inr rfl) hk).2]
      decide
    · exact (filedImage_words (.inr rfl) hj).1.trans (filedImage_words (.inr rfl) (hjk ▸ hj)).1.symm
  refine ⟨{ inode := 1, offset := 0 }, filedImage.inode 2, ⟨by decide, rfl, rfl⟩, filedImage,
    imageOn_filed, fun b hb h => ?_, howned, howned, by decide, by decide, by decide,
    recordAt_words _ _ (by decide)⟩
  obtain ⟨hlo, hhi⟩ := filedImage_free h
  exact show 6 ≤ b ∧ b < 32 by omega

theorem namedAt_filed :
    NamedAt (Env.quiet (smallSbi 9)) filedImage (filedKernel.objs 0) [97] 2 2 := by
  have hother : ∀ j < 2, nameIn (fun k => slotBytes (Env.quiet (smallSbi 9)) filedImage.data
      (filedKernel.objs 0) j (4 + k)) TFS_NAME_LEN ≠ [97] := by
    decide
  exact ⟨⟨Nat.zero_le 2, by decide, ⟨by decide, by decide⟩, fun j _ hj h => hother j hj h.2⟩,
    by decide⟩

/-- The empty file `a` is made in the root directory. -/
def createdKernel : Kernel := (sysOpen (Env.quiet (smallSbi 9)) [97] 2 formattedKernel).2

/-- One block is written at offset 1024. -/
def holedKernel : Kernel :=
  (sysWrite (Env.quiet (smallSbi 9)) 0 (fun _ => 7) 512
    (sysLseek (Env.quiet (smallSbi 9)) 0 1024 0 createdKernel).2).2

end Thunix.Fs
