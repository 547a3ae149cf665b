import Thunix.Fs.Namespace

/-!
# Removing entries of an image

What `tfs_rmdir` and `tfs_unlink` do to an image, when no transfer fails. An entry that is
removed (`Thunix.Fs.Image.remove`) has its slot cleared, after the record of its directory has
been written, and what it named is given back (`Thunix.Fs.Image.release`). The slot is cleared
through the entry of the cache in which it has been found, which has to be kept while two
records pass through the cache (`Thunix.Fs.KeptOn`).
-/

namespace Thunix.Fs

variable {e : Env} {I : Image} {k₀ k : Kernel} {P C : Inode} {dir obj b c i j n : ℕ}
  {name : List UInt8} {B : Finset ℕ}

/-! ### Records -/

/-- The size with an entry less. -/
def Inode.shrunk (dir : Inode) : Inode := { dir with iSize := toU32 (dir.iSize - sizeofDirEntry) }

theorem Inode.Words.shrunk (h : P.Words) : P.shrunk.Words :=
  { h with
    size := by
      change toU32 _ < 2 ^ 32
      rw [toU32]
      omega }

theorem shrunk_stored (h : P.stored e = P) : P.shrunk.stored e = P.shrunk := by
  obtain ⟨h1, h2⟩ := Inode.stored_eq_iff.mp h
  exact Inode.stored_eq_iff.mpr ⟨h1, h2⟩

/-- The number of an inode in the table is that of its record. -/
theorem ImageOn.iIno {d : Dev} (g : Geometry e.sbi) (h : ImageOn e I d) (hn : InTable e.sbi n) :
    (I.inode n).iIno = n := by
  obtain ⟨v, -, hshow⟩ := h
  have hsmall := g.small
  have hcount := g.inodes
  rw [← hshow.inode n hn]
  exact toU32_natCast (by have := hn.2; omega)

/-! ### An entry of the cache that is kept -/

/-- The entry `i` keeps the block `b`. -/
def KeptOn (e : Env) (i b : ℕ) (B : Finset ℕ) (k : Kernel) : Prop := Kept e i b B k.dev

theorem touch_kept : Hoare (KeptOn e i b B) (touch obj) fun _ => KeptOn e i b B := fun k h => by
  rw [touch]
  by_cases ha : k.alive obj
  · rw [if_pos ha]
    exact h
  · rw [if_neg ha]
    exact h

theorem inodeAt_kept : Hoare (KeptOn e i b B) (inodeAt obj) fun _ => KeptOn e i b B :=
  touch_kept.bind fun _ _ h => h

theorem setInode_kept (inode : Inode) :
    Hoare (KeptOn e i b B) (setInode obj inode) fun _ => KeptOn e i b B :=
  touch_kept.bind fun _ _ h => h

theorem mallocOk_kept : Hoare (KeptOn e i b B) (onDev (mallocOk e)) fun _ => KeptOn e i b B :=
  fun _ h => Kept.congr h rfl rfl

theorem newInode_kept (mode : ℤ) :
    Hoare (KeptOn e i b B) (newInode e mode) fun _ => KeptOn e i b B := by
  unfold newInode
  exact mallocOk_kept.bind fun _ => .ite (fun _ => .pure fun _ h => h) fun _ =>
    mallocOk_kept.bind fun _ => .ite (fun _ => .pure fun _ h => h) fun _ _ h => h

theorem tfsIgetByInr_kept (hs : Steady e) (hn : InTable e.sbi n)
    (hempty : emptyBlock ∉ insert (recordBlock e.sbi n) B)
    (hcard : (insert (recordBlock e.sbi n) B).card < numEntries e.sbi.sBlockShift) :
    Hoare (KeptOn e i b B) (tfsIgetByInr e n) fun _ =>
      KeptOn e i b (insert (recordBlock e.sbi n) B) := by
  unfold tfsIgetByInr
  refine Hoare.bind (Q := fun _ => KeptOn e i b (insert (recordBlock e.sbi n) B))
    (fun k h => tfsReadInode_kept hs hn hempty hcard k.dev h) fun tinode => ?_
  refine (newInode_kept 0).bind fun r => ?_
  cases r with
  | none => exact .pure fun _ h => h
  | some obj => exact (setInode_kept _).bind fun _ => .pure fun _ h => h

/-- The state is known, and the entry `i` keeps the block `b`. -/
def HeldOn (e : Env) (I : Image) (i b : ℕ) (B : Finset ℕ) (k₀ k : Kernel) : Prop :=
  KernelOn e I k₀ k ∧ KeptOn e i b B k

theorem inodeAt_held : Hoare (HeldOn e I i b B k₀) (inodeAt obj) fun r k =>
    r = k₀.objs obj ∧ HeldOn e I i b B k₀ k :=
  (inodeAt_on.and inodeAt_kept).post fun _ _ h => ⟨h.1.1, h.1.2, h.2⟩

theorem setInode_held (inode : Inode) : Hoare (HeldOn e I i b B k₀) (setInode obj inode) fun _ =>
    HeldOn e I i b B (k₀.setObj obj inode) :=
  (setInode_on inode).and (setInode_kept inode)

/-- The record of a directory is written meanwhile. -/
theorem iwriteObj_held (hs : Steady e) (hP : k₀.objs obj = P) (hp : InTable e.sbi P.iIno)
    (hwords : P.Words) (hempty : emptyBlock ∉ insert (recordBlock e.sbi P.iIno) B)
    (hcard : (insert (recordBlock e.sbi P.iIno) B).card < numEntries e.sbi.sBlockShift) :
    Hoare (HeldOn e I i b B k₀) (iwriteObj e obj) fun r k => r = 0 ∧
      HeldOn e (I.setInode P.iIno (P.stored e)) i b (insert (recordBlock e.sbi P.iIno) B) k₀ k := by
  refine inodeAt_held.bind_eq ?_
  rw [hP]
  refine fun k h => ?_
  obtain ⟨hr, hon⟩ := tfsIwrite_image hs hp hwords k.dev h.1.1
  exact ⟨hr, ⟨hon, { h.1.2 with }⟩, tfsIwrite_kept hs hp hwords hempty hcard k.dev ⟨h.1.1, h.2⟩⟩

/-- The blocks of records are blocks of the volume. -/
theorem emptyBlock_notMem_records (g : Geometry e.sbi) {s : Finset ℕ}
    (h : ∀ b ∈ s, ∃ n, InTable e.sbi n ∧ b = recordBlock e.sbi n) : emptyBlock ∉ s := fun hmem => by
  obtain ⟨n, hn, heq⟩ := h _ hmem
  exact g.emptyBlock_notMem (heq ▸ g.record_mem hn)

/-! ### Removing -/

/-- An entry is removed: the record of the directory is written, and the slot cleared. -/
def Image.remove (e : Env) (I : Image) (P : Inode) (j : ℕ) : Image :=
  (I.setInode P.iIno P.shrunk).putSlot e P j 4 fun _ => 0

/-- An inode is given back, with its blocks. -/
def Image.release (I : Image) (C : Inode) : Image :=
  (I.useInode C.iIno false).freeBlocks C.blockList

/-- The entry of a name, in a slot of the directory, and what it names. -/
structure NamedAt (e : Env) (I : Image) (P : Inode) (name : List UInt8) (j c : ℕ) : Prop where
  first : FirstNamed e I.data P name 0 (slots e P) j
  ino : slotIno e I.data P j = c

theorem NamedAt.unique {j' c' : ℕ} (h : NamedAt e I P name j c) (h' : NamedAt e I P name j' c') :
    j = j' ∧ c = c' := by
  have hj : j = j' := by
    rcases Nat.lt_trichotomy j j' with hlt | rfl | hlt
    · exact absurd h.first.2.2.1 (h'.first.2.2.2 j (Nat.zero_le j) hlt)
    · rfl
    · exact absurd h'.first.2.2.1 (h.first.2.2.2 j' (Nat.zero_le j') hlt)
  subst hj
  exact ⟨rfl, h.ino.symm.trans h'.ino⟩

section Removing

variable (hs : Steady e)

include hs

/-- **`tfs_release_inode`.** -/
theorem tfsReleaseInode_on (hC : k₀.objs obj = C) (hc : InTable e.sbi C.iIno)
    (hdata : ∀ k < C.blocks, InData e.sbi (C.iData.getD k 0)) :
    Hoare (KernelOn e I k₀) (tfsReleaseInode e obj) fun r k =>
      r = 0 ∧ KernelOn e (I.release C) k₀ k := by
  have hle : C.iIno ≤ 8 * e.sbi.sBlockSize := hc.2.trans hs.geometry.inodes
  unfold tfsReleaseInode
  refine inodeAt_on.bind_eq ?_
  rw [hC, hc.toS32_eq hs]
  refine (onDev_on_eq (tfsFreeInode_image hs hc.1 hle)).bind_eq ?_
  rw [if_neg (by decide)]
  refine inodeAt_on.bind_eq ?_
  rw [hC]
  have hrelease := releaseLoop_image (I := I.useInode C.iIno false) hs hdata (k := 0)
    (n := TFS_N_BLOCKS) rfl (Nat.zero_le _)
  refine (onDev_on_eq hrelease).bind_eq ?_
  exact freeInode_on.bind fun _ => .pure fun k h => ⟨rfl, h⟩

/-- **The common end of `tfs_rmdir` and `tfs_unlink`.** -/
theorem removeEntry_on (hP : k₀.objs dir = P) (hC : k₀.objs obj = C) (hne : obj ≠ dir)
    (hopen : OpenDir e I P) (hj : j < slots e P) (hc : InTable e.sbi C.iIno)
    (hdata : ∀ k < C.blocks, InData e.sbi (C.iData.getD k 0))
    (hentries : 3 ≤ numEntries e.sbi.sBlockShift) :
    Hoare (HeldOn e I i (slotBlock e P j) {recordBlock e.sbi C.iIno} k₀)
      (removeEntry e dir obj (.entry i) (i * e.sbi.sBlockSize + slotPlace e j)) fun r k =>
        r = 0 ∧ KernelOn e ((I.remove e P j).release C) (k₀.setObj dir P.shrunk) k := by
  have hcard : (insert (recordBlock e.sbi P.iIno) {recordBlock e.sbi C.iIno} : Finset ℕ).card <
      numEntries e.sbi.sBlockShift := lt_of_le_of_lt (Finset.card_insert_le _ _) hentries
  have hempty : emptyBlock ∉
      (insert (recordBlock e.sbi P.iIno) {recordBlock e.sbi C.iIno} : Finset ℕ) :=
    emptyBlock_notMem_records hs.geometry fun b hb => by
      rcases Finset.mem_insert.mp hb with rfl | hb
      · exact ⟨_, hopen.ino, rfl⟩
      · exact ⟨_, hc, Finset.mem_singleton.mp hb⟩
  unfold removeEntry
  refine inodeAt_held.bind_eq ?_
  rw [hP]
  refine (setInode_held P.shrunk).bind fun _ => ?_
  refine (iwriteObj_held hs (setObj_self k₀ dir P.shrunk) hopen.ino hopen.words.shrunk hempty
    hcard).bind_eq ?_
  rw [if_neg (not_not.mpr rfl), shrunk_stored hopen.stored]
  have hclear : Hoare (HeldOn e (I.setInode P.iIno P.shrunk) i (slotBlock e P j)
      (insert (recordBlock e.sbi P.iIno) {recordBlock e.sbi C.iIno}) (k₀.setObj dir P.shrunk))
      (onDev (clearEntry e (.entry i) (i * e.sbi.sBlockSize + slotPlace e j))) fun r k =>
        r = 0 ∧ KernelOn e (I.remove e P j) (k₀.setObj dir P.shrunk) k := fun k h => by
    obtain ⟨hr, hon⟩ := clearEntry_image hs hopen.toDirOn hj k.dev ⟨h.1.1, h.2⟩
    exact ⟨hr, hon, { h.1.2 with }⟩
  refine hclear.bind_eq ?_
  rw [if_neg (not_not.mpr rfl)]
  exact tfsReleaseInode_on hs ((setObj_of_ne hne).trans hC) hc hdata

/-! ### `tfs_rmdir` and `tfs_unlink` -/

/-- The number in an entry that has been found. -/
theorem entryInr_image {d : Dev} (hd : DirOn e P) (hj : j < slots e P)
    (h : HoldingImage e I i (slotBlock e P j) d) :
    entryInr (i * e.sbi.sBlockSize + slotPlace e j) d = (toS32 (slotIno e I.data P j), d) := by
  have hm := hs.geometry.mounted
  have hagree : ∀ x < e.sbi.sBlockSize, d.cacheData (i * e.sbi.sBlockSize + x) =
      I.data (P.iData.getD (j / entriesPerBlock e) 0) x := h.agree (hd.area _ (div_lt_blocks hm hj))
  have hino := slotIno_buffer hm (Nat.mod_lt j hm.entriesPerBlock_pos) hagree
  rw [Nat.div_add_mod'] at hino
  rw [← hino]
  rfl

/-- An entry has been removed, with what it named. -/
def RemovedOn (e : Env) (I : Image) (k₀ : Kernel) (dir : ℕ) (P : Inode) (j c : ℕ) (k : Kernel) :
    Prop :=
  KernelOn e ((I.remove e P j).release (I.inode c)) ((k₀.addObj (I.inode c)).setObj dir P.shrunk) k

/-- An inode of the table, with its blocks in the data area. -/
def Releasable (e : Env) (I : Image) (c : ℕ) : Prop :=
  InTable e.sbi c ∧ ∀ k < (I.inode c).blocks, InData e.sbi ((I.inode c).iData.getD k 0)

/-- The removal, when the tests before it have been passed. -/
theorem removeEntry_named (hP : k₀.objs dir = P) (hdir : dir < k₀.nextObj) (hopen : OpenDir e I P)
    (hnamed : NamedAt e I P name j c) (hc : Releasable e I c)
    (hentries : 3 ≤ numEntries e.sbi.sBlockShift) :
    Hoare (HeldOn e I i (slotBlock e P j) {recordBlock e.sbi c} (k₀.addObj (I.inode c)))
      (removeEntry e dir k₀.nextObj (.entry i) (i * e.sbi.sBlockSize + slotPlace e j)) fun r k =>
        r = 0 ∧ RemovedOn e I k₀ dir P j c k := fun k h => by
  have hino := h.1.1.iIno hs.geometry hc.1
  refine removeEntry_on hs ((addObj_of_lt hdir).trans hP) (addObj_self _ _) hdir.ne' hopen
    hnamed.first.2.1 (hino.symm ▸ hc.1) hc.2 hentries k ?_
  rw [hino]
  exact h

variable (hentries : 3 ≤ numEntries e.sbi.sBlockShift)

include hentries

/-- **The common beginning of `tfs_rmdir` and `tfs_unlink`.** -/
theorem withEntry_on (hP : k₀.objs dir = P) (hopen : OpenDir e I P)
    (hleg : Legible e I.data P P.blocks name)
    (hnz : ∀ c ∈ name, c ≠ 0) (hin : ∀ j c, NamedAt e I P name j c → InTable e.sbi c)
    {call : ℕ → CacheRef → ℕ → KernelM ℤ} {Q : ℤ → Kernel → Prop}
    (hmissing : ¬HasName e I P name → ∀ k, KernelOn e I k₀ k → Q (-ENOENT) k)
    (hmemory : HasName e I P name → NoMemory e → ∀ k, KernelOn e I k₀ k → Q (-ENOMEM) k)
    (hcall : ∀ i j c, NamedAt e I P name j c → Hoare
      (HeldOn e I i (slotBlock e P j) {recordBlock e.sbi c} (k₀.addObj (I.inode c)))
      (call k₀.nextObj (.entry i) (i * e.sbi.sBlockSize + slotPlace e j)) Q) :
    Hoare (KernelOn e I k₀) (withEntry e dir name call) Q := by
  have g := hs.geometry
  unfold withEntry
  refine inodeAt_on.bind_eq ?_
  rw [hP]
  refine (onDev_on (tfsFindEntry_image hs hopen.toDirOn hopen.room hleg hnz)).bind fun res => ?_
  rintro k ⟨hfound, halike⟩
  cases res with
  | null => exact hmissing (fun ⟨j, hj, hn⟩ => hfound.2 j hj hn) k ⟨hfound.1, halike⟩
  | err => exact hfound.elim
  | found cs de =>
    obtain ⟨i, j, rfl, rfl, hfirst, hhold, hkept⟩ := hfound
    have hnamed : NamedAt e I P name j (slotIno e I.data P j) := ⟨hfirst, rfl⟩
    have hc := hin j _ hnamed
    generalize hino : slotIno e I.data P j = c at hnamed hc
    have hempty : emptyBlock ∉ insert (recordBlock e.sbi c) (∅ : Finset ℕ) :=
      emptyBlock_notMem_records g fun b hb => ⟨c, hc, Finset.mem_singleton.mp hb⟩
    have hcard : (insert (recordBlock e.sbi c) (∅ : Finset ℕ)).card <
        numEntries e.sbi.sBlockShift :=
      lt_of_le_of_lt (Finset.card_insert_le _ _) (by rw [Finset.card_empty]; omega)
    have hstate : HeldOn e I i (slotBlock e P j) ∅ k₀ k ∧
        HoldingImage e I i (slotBlock e P j) k.dev := ⟨⟨⟨hhold.on, halike⟩, hkept⟩, hhold⟩
    refine (show Hoare (fun k => HeldOn e I i (slotBlock e P j) ∅ k₀ k ∧
      HoldingImage e I i (slotBlock e P j) k.dev) _ Q from ?_) k hstate
    refine Hoare.bind_eq (v := (c : ℤ)) (S := HeldOn e I i (slotBlock e P j) ∅ k₀)
      (fun k h => ?_) ?_
    · have hentry := entryInr_image hs hopen.toDirOn hfirst.2.1 h.2
      rw [hino, hc.toS32_eq hs] at hentry
      rw [onDev, hentry]
      exact ⟨rfl, h.1⟩
    · refine ((tfsIgetByInr_on hs hc).and
        (tfsIgetByInr_kept hs hc hempty hcard)).bind fun r => ?_
      rintro k ⟨⟨rfl, hno, hk⟩ | ⟨rfl, hk⟩, hkept⟩
      · exact hmemory ⟨j, hfirst.2.1, hfirst.2.2.1⟩ hno k hk
      · exact hcall i j c hnamed k ⟨hk, hkept⟩

/-- A directory with two entries. -/
def Inode.IsEmptyDir (inode : Inode) : Prop :=
  inode.iMode = TFS_DIR ∧ inode.iSize = 2 * sizeofDirEntry

/-- **`tfs_rmdir`.** -/
theorem tfsRmdir_on (hP : k₀.objs dir = P) (hdir : dir < k₀.nextObj) (hopen : OpenDir e I P)
    (hleg : Legible e I.data P P.blocks name) (hnz : ∀ c ∈ name, c ≠ 0)
    (hin : ∀ j c, NamedAt e I P name j c → Releasable e I c) :
    Hoare (KernelOn e I k₀) (tfsRmdir e dir name) fun r k =>
      (¬HasName e I P name ∧ r = -ENOENT ∧ KernelOn e I k₀ k) ∨
      (HasName e I P name ∧ r = -ENOMEM ∧ NoMemory e ∧ KernelOn e I k₀ k) ∨
      ∃ j c, NamedAt e I P name j c ∧
        (((I.inode c).IsEmptyDir ∧ r = 0 ∧ RemovedOn e I k₀ dir P j c k) ∨
        (¬(I.inode c).IsEmptyDir ∧ r ≠ 0 ∧ KernelOn e I (k₀.addObj (I.inode c)) k)) := by
  unfold tfsRmdir
  refine withEntry_on hs hentries hP hopen hleg hnz (fun j c h => (hin j c h).1)
    (fun hno k hk => .inl ⟨hno, rfl, hk⟩) (fun hname hno k hk => .inr (.inl ⟨hname, rfl, hno, hk⟩))
    fun i j c hnamed => ?_
  have hgive : ∀ {err : ℤ}, err ≠ 0 → ¬(I.inode c).IsEmptyDir →
      Hoare (HeldOn e I i (slotBlock e P j) {recordBlock e.sbi c} (k₀.addObj (I.inode c)))
        (giveUp k₀.nextObj err) fun r k => ¬(I.inode c).IsEmptyDir ∧ r ≠ 0 ∧
          KernelOn e I (k₀.addObj (I.inode c)) k := fun herr hnot =>
    (giveUp_on _).conseq (fun _ h => h.1) fun _ _ h => ⟨hnot, h.1 ▸ herr, h.2⟩
  refine inodeAt_held.bind_eq ?_
  rw [addObj_self]
  refine .ite (fun hmode => ?_) fun hmode => .ite (fun hsize => ?_) fun hsize =>
    .ite (fun hsize' => ?_)
    fun hsize' => ?_
  · exact (hgive (by decide) fun h => hmode h.1).post fun _ _ h =>
      .inr (.inr ⟨j, c, hnamed, .inr h⟩)
  · refine (hgive (by decide) fun h => ?_).post fun _ _ h => .inr (.inr ⟨j, c, hnamed, .inr h⟩)
    rw [isEmptyDir, h.2, if_neg (lt_irrefl _), if_neg (lt_irrefl _)] at hsize
    cases hsize
  · refine (hgive (by decide) fun h => ?_).post fun _ _ h => .inr (.inr ⟨j, c, hnamed, .inr h⟩)
    rw [isEmptyDir, h.2, if_neg (lt_irrefl _), if_neg (lt_irrefl _)] at hsize'
    cases hsize'
  · have hempty : (I.inode c).IsEmptyDir := by
      refine ⟨not_not.mp hmode, ?_⟩
      by_contra hne
      rcases Nat.lt_or_gt_of_ne hne with h | h
      · exact hsize' (by rw [isEmptyDir, if_neg h.le.not_gt, if_pos h])
      · exact hsize (by rw [isEmptyDir, if_pos h])
    exact (removeEntry_named hs hP hdir hopen hnamed (hin j c hnamed) hentries).post
      fun _ _ h => .inr (.inr ⟨j, c, hnamed, .inl ⟨hempty, h⟩⟩)

/-- **`tfs_unlink`.** What it returns for an entry that is not a file has never been set. -/
theorem tfsUnlink_on (hP : k₀.objs dir = P) (hdir : dir < k₀.nextObj) (hopen : OpenDir e I P)
    (hleg : Legible e I.data P P.blocks name) (hnz : ∀ c ∈ name, c ≠ 0)
    (hin : ∀ j c, NamedAt e I P name j c → Releasable e I c) :
    Hoare (KernelOn e I k₀) (tfsUnlink e dir name) fun r k =>
      (¬HasName e I P name ∧ r = -ENOENT ∧ KernelOn e I k₀ k) ∨
      (HasName e I P name ∧ r = -ENOMEM ∧ NoMemory e ∧ KernelOn e I k₀ k) ∨
      ∃ j c, NamedAt e I P name j c ∧
        (((I.inode c).iMode = TFS_FILE ∧ r = 0 ∧ RemovedOn e I k₀ dir P j c k) ∨
        ((I.inode c).iMode ≠ TFS_FILE ∧ (∃ t, r = e.junk t) ∧
          KernelOn e I (k₀.addObj (I.inode c)) k)) := by
  unfold tfsUnlink
  refine withEntry_on hs hentries hP hopen hleg hnz (fun j c h => (hin j c h).1)
    (fun hno k hk => .inl ⟨hno, rfl, hk⟩) (fun hname hno k hk => .inr (.inl ⟨hname, rfl, hno, hk⟩))
    fun i j c hnamed => ?_
  refine inodeAt_held.bind_eq ?_
  rw [addObj_self]
  refine .ite (fun hmode => ?_) fun hmode => ?_
  · have hjunk : Hoare (KernelOn e I (k₀.addObj (I.inode c))) (onDev (uninitialised e)) fun r k =>
        (∃ t, r = e.junk t) ∧ KernelOn e I (k₀.addObj (I.inode c)) k := fun k h =>
      ⟨⟨_, rfl⟩, h.1.tick, { h.2 with }⟩
    refine Hoare.pre ?_ fun k h => h.1
    refine hjunk.bind fun err => ?_
    refine Hoare.pre ?_ fun k h => And.symm h
    refine Hoare.assume fun hval => (giveUp_on err).post fun r k h => ?_
    exact .inr (.inr ⟨j, c, hnamed, .inr ⟨hmode, h.1 ▸ hval, h.2⟩⟩)
  · exact (removeEntry_named hs hP hdir hopen hnamed (hin j c hnamed) hentries).post
      fun _ _ h => .inr (.inr ⟨j, c, hnamed, .inl ⟨not_not.mp hmode, h⟩⟩)

end Removing

end Thunix.Fs
