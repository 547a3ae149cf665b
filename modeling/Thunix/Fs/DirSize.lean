import Thunix.Fs.DirTable
import Thunix.Fs.FileBlocks

/-!
# The size of a directory

`is_empty_dir` never looks at the entries of a directory: it goes by `i_size`. That is 32
times the number of live entries (`Thunix.Fs.Counted`), and `tfs_add_entry`, `tfs_mknod`,
`tfs_mkdir`, `tfs_unlink` and `tfs_rmdir` keep it so, in memory and on the disk, also for the
directory that is made (`Thunix.Fs.size_counts_iff`). A directory of size 64 has therefore
two entries. They are `.` and `..` if these were entered in it, which `tfs_mknod` does not
do (`Thunix.Fs.size_counts_iff`).
-/

namespace Thunix.Fs

open SlotMap

variable {e : Env} {I I₁ I' : Image} {P P₁ P' C C' Q : Inode} {b c j n : ℕ} {name : List UInt8}
  {k k₀ : Kernel} {dir : ℕ}

/-! ### The number of entries -/

/-- The number of the live entries of a directory. -/
def liveCount (e : Env) (I : Image) (P : Inode) : ℕ :=
  count (dirTable e I P) (TFS_N_BLOCKS * entriesPerBlock e)

/-- The directory in memory is that on the disk, and its size counts its entries. -/
structure Counted (e : Env) (I : Image) (P : Inode) : Prop where
  onDisk : I.inode P.iIno = P
  size : P.iSize = sizeofDirEntry * liveCount e I P

theorem slots_le : slots e P ≤ TFS_N_BLOCKS * entriesPerBlock e :=
  Nat.mul_le_mul_right _ P.blocks_le

theorem lt_of_dirTable {x : List UInt8 × ℕ} (h : dirTable e I P j = some x) :
    j < TFS_N_BLOCKS * entriesPerBlock e :=
  lt_of_lt_of_le (dirTable_eq_some_iff.mp h).1 slots_le

/-- A directory has room for so many entries that their size is a word. -/
theorem liveCount_lt (hm : Mounted e.sbi) : sizeofDirEntry * (liveCount e I P + 1) < 2 ^ 32 := by
  have h1 : liveCount e I P ≤ TFS_N_BLOCKS * entriesPerBlock e := count_le
  have h2 := hm.slots
  have h3 := hm.size_le
  rw [TFS_N_BLOCKS] at h1
  rw [sizeofDirEntry] at h2 ⊢
  omega

/-- A directory without blocks has no entries. -/
theorem Counted.newborn (hblocks : C.blocks = 0) (hsize : C.iSize = 0)
    (honDisk : I.inode C.iIno = C) : Counted e I C := by
  have hcount : liveCount e I C = 0 := by
    rw [liveCount, count, Finset.card_eq_zero, Finset.filter_eq_empty_iff]
    intro i _ hi
    have hnone : dirTable e I C i = none := by
      rw [dirTable_eq_none_iff, slots, hblocks, Nat.zero_mul]
      exact fun h => absurd h (Nat.not_lt_zero i)
    rw [hnone] at hi
    cases hi
  exact ⟨honDisk, by rw [hsize, hcount, Nat.mul_zero]⟩

/-- What the number depends on. -/
theorem Counted.congr (h : Counted e I P) (htable : dirTable e I' P = dirTable e I P)
    (hinode : I'.inode P.iIno = I.inode P.iIno) : Counted e I' P :=
  ⟨hinode.trans h.onDisk, by rw [liveCount, htable]; exact h.size⟩

/-! ### Entering -/

section Entering

variable (hs : Steady e)

include hs

/-- **An entry that is entered** is counted. -/
theorem Counted.enter (h : Counted e I P) (hopen : OpenDir e I P) (hfit : FreeInData e I)
    (hlen : name.length ≤ TFS_NAME_LEN) (hnz : ∀ c ∈ name, c ≠ 0) (hc : InTable e.sbi c)
    (hent : Entered e I P c name I' P') :
    Counted e I' P' ∧ Lists (dirTable e I' P') name c := by
  obtain ⟨j, hfree, htable⟩ := hent.table hs hopen hfit hlen hnz hc
  obtain ⟨-, hinode⟩ := hent.grows hs hopen hfit
  have hino : P'.iIno = P.iIno := hent.iIno
  have hj : dirTable e I' P' j = some (name, c) := by rw [htable, Function.update_self]
  have hcount : liveCount e I' P' = liveCount e I P + 1 := by
    rw [liveCount, htable]
    exact count_fill _ (lt_of_dirTable hj) hfree
  have hsize : P'.iSize = (P.iSize + sizeofDirEntry) % 2 ^ 32 := by
    obtain ⟨I₁, P₁, j', hroom, rfl, -⟩ := hent
    cases hroom <;> rfl
  refine ⟨⟨?_, ?_⟩, j, hj⟩
  · rw [hino, hinode, Function.update_self]
  · rw [hsize, hcount, h.size, ← Nat.mul_succ]
    exact Nat.mod_eq_of_lt (liveCount_lt hs.geometry.mounted)

/-- The blocks of the directory are in use afterwards, and there is one more at most. -/
theorem Entered.blocks_used (hopen : OpenDir e I P) (hfit : FreeInData e I)
    (hent : Entered e I P c name I' P') :
    (∀ b ∈ P'.blockList, I'.blockUsed b = true) ∧ P'.blocks ≤ P.blocks + 1 := by
  obtain ⟨I₁, P₁, j, hroom, rfl, rfl⟩ := hent
  have hhas := hroom.hasRoom' hs hopen hfit
  refine ⟨fun b hb => ?_, hhas.blocks_le⟩
  obtain ⟨k, hk, rfl⟩ := Inode.mem_blockList.mp hb
  exact hhas.used k hk

/-- **What `tfs_mknod` makes** has no entries, and its directory counts one more. -/
theorem Counted.mknod {mode : ℤ} (h : Counted e I P) (hopen : OpenDir e I P) (hfit : FreeInData e I)
    (hused : I.inodeUsed P.iIno = true) (hlen : name.length ≤ TFS_NAME_LEN)
    (hnz : ∀ c ∈ name, c ≠ 0) (hc : FreshInode e I c)
    (hent : Entered e (I.make c ((freshInode mode c P).stored e)) P c name I' P') :
    Counted e I' P' ∧ Lists (dirTable e I' P') name c ∧
      I'.inode c = (freshInode mode c P).stored e ∧ Counted e I' (I'.inode c) := by
  have hne : c ≠ P.iIno := fun heq => by
    have hfree := hc.2
    rw [heq, hused] at hfree
    cases hfree
  have hopen' : OpenDir e (I.make c ((freshInode mode c P).stored e)) P := { hopen with }
  have hmade : Counted e (I.make c ((freshInode mode c P).stored e)) P :=
    h.congr rfl (Function.update_of_ne hne.symm _ _)
  obtain ⟨hcounted, hlists⟩ := hmade.enter hs hopen' hfit hlen hnz hc.1 hent
  obtain ⟨-, hinode⟩ := hent.grows hs hopen' hfit
  have hchild : I'.inode c = (freshInode mode c P).stored e := by
    rw [hinode, Function.update_of_ne hne]
    exact Function.update_self _ _ _
  have hino : (I'.inode c).iIno = c := by
    rw [hchild]
    rfl
  refine ⟨hcounted, hlists, hchild, Counted.newborn ?_ ?_ (by rw [hino])⟩
  · rw [hchild]
    rfl
  · rw [hchild]
    rfl

end Entering

/-- What is in use stays, where a directory grows that does not have it. -/
theorem Grows.keeps (h : Grows e I P I' P') (hused : I.blockUsed b = true)
    (hne : b ∉ P.blockList) : I'.blockUsed b = true ∧ b ∉ P'.blockList ∧ I'.data b = I.data b := by
  have hnot : b ∉ P'.blockList := fun hb => by
    rcases h.blocks b hb with hP | hfree
    · exact hne hP
    · rw [hused] at hfree
      cases hfree
  exact ⟨h.used b hused, hnot, h.data b hnot⟩

/-- **What `tfs_mkdir` makes** has two entries, and its directory counts one more. -/
theorem Counted.mkdir (hs : Steady e) (h : Counted e I P) (hopen : OpenDir e I P)
    (hfit : FreeInData e I) (hused : I.inodeUsed P.iIno = true) (hlen : name.length ≤ TFS_NAME_LEN)
    (hnz : ∀ c ∈ name, c ≠ 0) (hc : FreshInode e I c) (hmade : DirMade e I P c name I' P' C') :
    Counted e I' P' ∧ Lists (dirTable e I' P') name c ∧ Counted e I' (I'.inode c) := by
  obtain ⟨I₁, I₂, C₁, h1, h2, h3⟩ := hmade
  have hm := hs.geometry.mounted
  have hstored : (freshInode TFS_DIR c P).stored e = freshInode TFS_DIR c P :=
    Inode.stored_eq_iff.mpr ⟨rfl, (Inode.stored_eq_iff.mp hopen.stored).2⟩
  have hne : P.iIno ≠ c := fun heq => by
    have hfree := hc.2
    rw [← heq, hused] at hfree
    cases hfree
  have hopen' : OpenDir e (I.make c (freshInode TFS_DIR c P)) P := { hopen with }
  obtain ⟨hparent, hlists, hchild, hnew⟩ :=
    h.mknod hs hopen hfit hused hlen hnz hc (hstored.symm ▸ h1)
  rw [hchild, hstored] at hnew
  -- the two entries of the new directory
  have hopenC : OpenDir e I₁ (freshInode TFS_DIR c P) := freshInode_open hc.1 hs hopen.stored
  have hfit1 := h1.freeInData hfit
  obtain ⟨hone, -⟩ := hnew.enter hs hopenC hfit1 dots_length.1 dots_nonzero.1 hc.1 h2
  have hlt : C₁.blocks < TFS_N_BLOCKS :=
    lt_of_le_of_lt (h2.blocks_used hs hopenC hfit1).2 (by rw [freshInode_blocks]; decide)
  have hopen1 := h2.open hs hopenC hfit1 hlt
  have hfit2 := h2.freeInData hfit1
  obtain ⟨htwo, -⟩ := hone.enter hs hopen1 hfit2 dots_length.2 dots_nonzero.2 hopen.ino h3
  have hino1 : C₁.iIno = c := h2.iIno
  have hino : C'.iIno = c := h3.iIno.trans hino1
  -- they are in a block that its parent does not have
  obtain ⟨hgrows2, hinode2⟩ := h2.grows hs hopenC hfit1
  obtain ⟨hgrows3, hinode3⟩ := h3.grows hs hopen1 hfit2
  have hparentUsed := (h1.blocks_used hs hopen' hfit).1
  have hdata : ∀ b ∈ P'.blockList, I'.data b = I₁.data b := fun b hb => by
    obtain ⟨hb2, hn2, hd2⟩ := hgrows2.keeps (hparentUsed b hb) List.not_mem_nil
    exact (hgrows3.keeps hb2 hn2).2.2.trans hd2
  have htable := dirTable_agree hm hdata
  have hinode : I'.inode P'.iIno = I₁.inode P'.iIno := by
    have hne' : P'.iIno ≠ c := h1.iIno.trans_ne hne
    rw [hinode3, Function.update_of_ne (hino1.symm ▸ hne'), hinode2]
    exact Function.update_of_ne hne' _ _
  refine ⟨hparent.congr htable hinode, htable.symm ▸ hlists, ?_⟩
  have hself : I'.inode c = C' := hino ▸ htwo.onDisk
  rw [hself]
  exact htwo

/-- **An entry that is removed** is no longer counted. -/
theorem Counted.remove (hm : Mounted e.sbi) (h : Counted e I P) (hd : DirOn e P)
    (hj : NamedAt e I P name j c) (C : Inode) :
    Counted e ((I.remove e P j).release C) P.shrunk := by
  have hcount : liveCount e ((I.remove e P j).release C) P.shrunk + 1 = liveCount e I P := by
    rw [liveCount, dirTable_remove hm hd hj.first.2.1]
    exact count_free (lt_of_dirTable hj.table) hj.table
  have hlt := liveCount_lt (e := e) (I := I) (P := P) hm
  refine ⟨Function.update_self _ _ _, ?_⟩
  have hsize := h.size
  rw [← hcount] at hsize hlt
  change toU32 (P.iSize - sizeofDirEntry) = _
  rw [hsize, toU32]
  rw [sizeofDirEntry] at hlt ⊢
  omega

/-! ### The calls -/

/-- The calls on a directory that change its size. -/
inductive SizeCall
  /-- `tfs_add_entry` of an inode number, and `tfs_iwrite` of the directory. -/
  | addEntry (name : List UInt8) (inr : ℕ)
  | mknod (name : List UInt8) (mode : ℤ)
  | mkdir (name : List UInt8)
  | unlink (name : List UInt8)
  | rmdir (name : List UInt8)

/-- The name a call is given. -/
def SizeCall.entry : SizeCall → List UInt8
  | .addEntry name _ => name
  | .mknod name _ => name
  | .mkdir name => name
  | .unlink name => name
  | .rmdir name => name

/-- The result of a call, 0 where it succeeds. -/
def sizeCall (e : Env) (dir : ℕ) : SizeCall → KernelM ℤ
  | .addEntry name inr => do
    let (err, _) ← addEntryObj e dir name inr
    if err ≠ 0 then pure err else iwriteObj e dir
  | .mknod name mode => do
    match ← tfsMknod e dir name mode with
    | .ok _ => pure 0
    | .error err => pure err
  | .mkdir name => tfsMkdir e dir name
  | .unlink name => tfsUnlink e dir name
  | .rmdir name => tfsRmdir e dir name

/-- The call makes something under its name. -/
def SizeCall.Makes : SizeCall → Prop
  | .mknod _ _ => True
  | .mkdir _ => True
  | _ => False

/-- There is what the call needs: a block for the entry, and one for a new directory, and
what is removed is an inode of the table with its blocks in the data area. -/
def SizeCall.Fits (e : Env) (I : Image) (P : Inode) : SizeCall → Prop
  | .addEntry _ inr => InTable e.sbi inr ∧ BlockFor e I P
  | .mknod _ _ => BlockFor e I P
  | .mkdir _ => BlocksFor e I P
  | .unlink name => ∀ j c, NamedAt e I P name j c → Releasable e I c
  | .rmdir name => ∀ j c, NamedAt e I P name j c → Releasable e I c

/-- The directory of an object: its blocks are not all used up, and what is free is not its
own. -/
structure DirReady (e : Env) (I : Image) (k : Kernel) (dir : ℕ) : Prop where
  on : ImageOn e I k.dev
  lt : dir < k.nextObj
  isOpen : OpenDir e I (k.objs dir)
  fits : FreeFits e I
  used : I.inodeUsed (k.objs dir).iIno = true

/-- **The relation afterwards**: the size of the directory counts its entries, on the disk as in
memory, and so does that of what has been made. -/
def SizeKept (e : Env) (dir : ℕ) (call : SizeCall) (k : Kernel) : Prop :=
  ∃ I, ImageOn e I k.dev ∧ Counted e I (k.objs dir) ∧
    (call.Makes → ∃ c, Lists (dirTable e I (k.objs dir)) call.entry c ∧ Counted e I (I.inode c))

/-- From what is known of the image and the objects. -/
theorem sizeKept_of_on {call : SizeCall} (hk : KernelOn e I' k₀ k) (hP : k₀.objs dir = P')
    (hcount : Counted e I' P')
    (hmade : call.Makes → ∃ c, Lists (dirTable e I' P') call.entry c ∧ Counted e I' (I'.inode c)) :
    SizeKept e dir call k := by
  have hobj : k.objs dir = P' := (congrFun hk.2.objs dir).trans hP
  exact ⟨I', hk.1, hobj.symm ▸ hcount, hobj.symm ▸ hmade⟩

theorem removed_counted (hs : Steady e) (h : DirReady e I k dir) (hcount : Counted e I (k.objs dir))
    {call : SizeCall} (hnot : ¬call.Makes) {k' : Kernel}
    (hnamed : NamedAt e I (k.objs dir) name j c)
    (hk : RemovedOn e I k dir (k.objs dir) j c k') : SizeKept e dir call k' :=
  sizeKept_of_on hk (setObj_self _ _ _)
    (hcount.remove hs.geometry.mounted h.isOpen.toDirOn hnamed _) fun hmakes => absurd hmakes hnot

section Calls

variable (hs : Steady e) (h : DirReady e I k dir) (hcount : Counted e I (k.objs dir))
  (hnz : ∀ c ∈ name, c ≠ 0)

include hs h hcount hnz

theorem addEntry_counted (hfits : (SizeCall.addEntry name c).Fits e I (k.objs dir)) :
    Hoare (KernelOn e I k) (sizeCall e dir (.addEntry name c)) fun r k' =>
      r = 0 → SizeKept e dir (.addEntry name c) k' := by
  rcases Nat.lt_or_ge TFS_NAME_LEN name.length with hlong | hlen
  · refine (addEntryObj_long hlong).bind_eq ?_
    dsimp only
    rw [if_pos (by decide)]
    exact .pure fun _ _ hr => by cases hr
  · refine (addEntryObj_on hs rfl h.isOpen h.fits.blocks hlen hfits.1 hfits.2).bind fun r => ?_
    rintro k' ⟨I₁, P₁, j, hroom, rfl, hk⟩
    have hhas := hroom.hasRoom' hs h.isOpen h.fits.blocks
    have hino : P₁.grown.iIno = (k.objs dir).iIno := hhas.rest.1
    obtain ⟨-, hk'⟩ := iwriteObj_on hs (setObj_self _ _ _)
      (hino ▸ h.isOpen.ino) hhas.words.grown k' hk
    rw [hino, grown_stored (hhas.stored h.isOpen.stored)] at hk'
    have hent : Entered e I (k.objs dir) c name _ P₁.grown := ⟨I₁, P₁, j, hroom, rfl, rfl⟩
    dsimp only
    rw [if_neg (not_not.mpr rfl)]
    exact fun _ => sizeKept_of_on hk' (setObj_self _ _ _)
      (hcount.enter hs h.isOpen h.fits.blocks hlen hnz hfits.1 hent).1 False.elim

variable (hleg : Legible e I.data (k.objs dir) (k.objs dir).blocks name)

include hleg

theorem mknod_counted {mode : ℤ} (hfits : (SizeCall.mknod name mode).Fits e I (k.objs dir)) :
    Hoare (KernelOn e I k) (sizeCall e dir (.mknod name mode)) fun r k' =>
      r = 0 → SizeKept e dir (.mknod name mode) k' := by
  refine (tfsMknod_on hs rfl h.lt h.isOpen h.fits hleg hnz fun _ _ => hfits).bind fun r k' hk => ?_
  rcases hk with ⟨-, rfl, -⟩ | ⟨-, ⟨rfl, -, -⟩ | ⟨rfl, -, -⟩ | ⟨c, hc, ⟨-, rfl, -⟩ |
    ⟨hlen, rfl, I', P', hent, hk⟩⟩⟩
  · exact fun hr => absurd hr (show (-EEXIST : ℤ) ≠ 0 by decide)
  · exact fun hr => absurd hr (show (-ENOMEM : ℤ) ≠ 0 by decide)
  · exact fun hr => absurd hr (show (-ENOSPC : ℤ) ≠ 0 by decide)
  · exact fun hr => absurd hr (show (-ENAMETOOLONG : ℤ) ≠ 0 by decide)
  · obtain ⟨hcounted, hlists, -, hchild⟩ :=
      hcount.mknod hs h.isOpen h.fits.blocks h.used hlen hnz hc hent
    exact fun _ => sizeKept_of_on hk (setObj_self _ _ _) hcounted fun _ => ⟨c, hlists, hchild⟩

theorem mkdir_counted (hfits : (SizeCall.mkdir name).Fits e I (k.objs dir)) :
    Hoare (KernelOn e I k) (sizeCall e dir (.mkdir name)) fun r k' =>
      r = 0 → SizeKept e dir (.mkdir name) k' := by
  rcases Nat.lt_or_ge TFS_NAME_LEN name.length with hlong | hlen
  · -- too long a name is refused by `tfs_mknod`
    refine (tfsMknod_on hs rfl h.lt h.isOpen h.fits hleg hnz fun _ _ => hfits.blockFor).bind
      fun r k' hk => ?_
    rcases hk with ⟨-, rfl, -⟩ | ⟨-, ⟨rfl, -, -⟩ | ⟨rfl, -, -⟩ | ⟨c, hc, ⟨-, rfl, -⟩ | ⟨hlen, -⟩⟩⟩
    · exact fun hr => absurd hr (show (-EEXIST : ℤ) ≠ 0 by decide)
    · exact fun hr => absurd hr (show (-ENOMEM : ℤ) ≠ 0 by decide)
    · exact fun hr => absurd hr (show (-ENOSPC : ℤ) ≠ 0 by decide)
    · exact fun hr => absurd hr (show (-ENAMETOOLONG : ℤ) ≠ 0 by decide)
    · omega
  · refine (tfsMkdir_on hs rfl h.lt h.isOpen h.fits hlen hnz fun _ => hfits).post ?_
    rintro r k' (⟨-, rfl, -⟩ | ⟨-, rfl, -⟩ | ⟨-, -, rfl, -⟩ |
      ⟨-, rfl, c, I', P', C', hc, hmade, hk⟩)
    · exact fun hr => absurd hr (show (-EEXIST : ℤ) ≠ 0 by decide)
    · exact fun hr => absurd hr (show (-ENOMEM : ℤ) ≠ 0 by decide)
    · exact fun hr => absurd hr (show (-ENOSPC : ℤ) ≠ 0 by decide)
    · obtain ⟨hcounted, hlists, hchild⟩ :=
        hcount.mkdir hs h.isOpen h.fits.blocks h.used hlen hnz hc hmade
      exact fun _ => sizeKept_of_on hk (setObj_self _ _ _) hcounted fun _ => ⟨c, hlists, hchild⟩

variable (hentries : 3 ≤ numEntries e.sbi.sBlockShift)

include hentries

theorem unlink_counted (hfits : (SizeCall.unlink name).Fits e I (k.objs dir)) :
    Hoare (KernelOn e I k) (sizeCall e dir (.unlink name)) fun r k' =>
      r = 0 → SizeKept e dir (.unlink name) k' := by
  refine (tfsUnlink_on hs hentries rfl h.lt h.isOpen hleg hnz hfits).post ?_
  rintro r k' (⟨-, rfl, -⟩ | ⟨-, rfl, -⟩ | ⟨j, c, hnamed, ⟨-, -, hk⟩ | ⟨-, -, hk⟩⟩)
  · exact fun hr => absurd hr (by decide)
  · exact fun hr => absurd hr (by decide)
  · exact fun _ => removed_counted hs h hcount id hnamed hk
  · -- not a file: nothing has been done
    exact fun _ => sizeKept_of_on hk (addObj_of_lt h.lt) hcount False.elim

theorem rmdir_counted (hfits : (SizeCall.rmdir name).Fits e I (k.objs dir)) :
    Hoare (KernelOn e I k) (sizeCall e dir (.rmdir name)) fun r k' =>
      r = 0 → SizeKept e dir (.rmdir name) k' ∧
        ∃ j c, NamedAt e I (k.objs dir) name j c ∧ (I.inode c).IsEmptyDir := by
  refine (tfsRmdir_on hs hentries rfl h.lt h.isOpen hleg hnz hfits).post ?_
  rintro r k' (⟨-, rfl, -⟩ | ⟨-, rfl, -⟩ | ⟨j, c, hnamed, ⟨hempty, -, hk⟩ | ⟨-, hr, -⟩⟩)
  · exact fun hr => absurd hr (by decide)
  · exact fun hr => absurd hr (by decide)
  · exact fun _ => ⟨removed_counted hs h hcount id hnamed hk, j, c, hnamed, hempty⟩
  · exact fun hr' => absurd hr' hr

end Calls

/-! ### Empty directories -/

/-- There is an entry `.` and an entry `..`. -/
def HasDots (e : Env) (I : Image) (C : Inode) : Prop :=
  (∃ c, Lists (dirTable e I C) dot c) ∧ ∃ c, Lists (dirTable e I C) (dot ++ dot) c

/-- The entries are exactly `.` and `..`. -/
def OnlyDots (e : Env) (I : Image) (C : Inode) : Prop :=
  ∃ i j, (∃ c, dirTable e I C i = some (dot, c)) ∧ (∃ c, dirTable e I C j = some (dot ++ dot, c)) ∧
    ∀ l, dirTable e I C l ≠ none → l = i ∨ l = j

/-- **A directory that passes for empty** has two entries: no others than `.` and `..`, if it has
these. -/
theorem onlyDots_iff (h : Counted e I C) (hempty : C.IsEmptyDir) :
    OnlyDots e I C ↔ HasDots e I C := by
  constructor
  · rintro ⟨i, j, ⟨c, hi⟩, ⟨c', hj⟩, -⟩
    exact ⟨⟨c, i, hi⟩, c', j, hj⟩
  · rintro ⟨⟨c, i, hi⟩, c', j, hj⟩
    have hcount : liveCount e I C = 2 := by
      have h1 := h.size.symm.trans hempty.2
      rw [sizeofDirEntry] at h1
      omega
    have hne : i ≠ j := by
      rintro rfl
      rw [hi] at hj
      cases hj
    refine ⟨i, j, ⟨c, hi⟩, ⟨c', hj⟩, fun l hl => ?_⟩
    obtain ⟨x, hx⟩ := Option.ne_none_iff_exists'.mp hl
    exact eq_or_eq_of_count hcount (lt_of_dirTable hi) (lt_of_dirTable hj) hne
      (by rw [hi]; rfl) (by rw [hj]; rfl) (lt_of_dirTable hx) (by rw [hx]; rfl)

/-- **What is asked of a call**: the relation is kept, and what `tfs_rmdir` has removed had no
entries but its two. -/
structure SizeSound (e : Env) (I : Image) (k : Kernel) (dir : ℕ) (call : SizeCall) : Prop where
  kept : SizeKept e dir call (sizeCall e dir call k).2
  empty : ∀ name, call = .rmdir name → ∀ j c, NamedAt e I (k.objs dir) name j c →
    OnlyDots e I (I.inode c)

/-- **When directory sizes are sound**, for every directory whose size counts its entries and
every call that succeeds: the relation is kept in any case, and a directory that is removed was
empty exactly if it had the entries `.` and `..`. -/
theorem size_counts_iff (hs : Steady e) (hentries : 3 ≤ numEntries e.sbi.sBlockShift)
    (h : DirReady e I k dir) (hcount : Counted e I (k.objs dir)) {call : SizeCall}
    (hnz : ∀ c ∈ call.entry, c ≠ 0)
    (hleg : Legible e I.data (k.objs dir) (k.objs dir).blocks call.entry)
    (hfits : call.Fits e I (k.objs dir))
    (hnamed : ∀ name, call = .rmdir name → ∀ j c, NamedAt e I (k.objs dir) name j c →
      (I.inode c).iMode = TFS_DIR → Counted e I (I.inode c))
    (hzero : (sizeCall e dir call k).1 = 0) :
    SizeSound e I k dir call ↔ ∀ name, call = .rmdir name → ∀ j c,
      NamedAt e I (k.objs dir) name j c → HasDots e I (I.inode c) := by
  have hon : KernelOn e I k k := ⟨h.on, .refl k⟩
  have hkept : SizeKept e dir call (sizeCall e dir call k).2 := by
    cases call with
    | addEntry name inr => exact addEntry_counted hs h hcount hnz hfits k hon hzero
    | mknod name mode => exact mknod_counted hs h hcount hnz hleg hfits k hon hzero
    | mkdir name => exact mkdir_counted hs h hcount hnz hleg hfits k hon hzero
    | unlink name => exact unlink_counted hs h hcount hnz hleg hentries hfits k hon hzero
    | rmdir name => exact (rmdir_counted hs h hcount hnz hleg hentries hfits k hon hzero).1
  have hempty : ∀ name, call = .rmdir name → ∀ j c, NamedAt e I (k.objs dir) name j c →
      (OnlyDots e I (I.inode c) ↔ HasDots e I (I.inode c)) := by
    rintro name rfl j c hc
    obtain ⟨-, j', c', hc', hdir⟩ := rmdir_counted hs h hcount hnz hleg hentries hfits k hon hzero
    obtain ⟨rfl, rfl⟩ := hc.unique hc'
    exact onlyDots_iff (hnamed name rfl j c hc hdir.1) hdir
  exact ⟨fun hsound name heq j c hc => (hempty name heq j c hc).mp (hsound.empty name heq j c hc),
    fun hdots => ⟨hkept, fun name heq j c hc =>
      (hempty name heq j c hc).mpr (hdots name heq j c hc)⟩⟩

/-! ### A directory that is not empty -/

/-- The root of the small volume and its file. -/
theorem dirReady_filed : DirReady (Env.quiet (smallSbi 9)) filedImage filedKernel 0 := by
  refine ⟨imageOn_filed, by decide, openDir_filed, ⟨fun b hb h => ?_, fun n h1 hn h => ?_⟩,
    by decide⟩
  · obtain ⟨hlo, hhi⟩ := filedImage_free h
    exact show 6 ≤ b ∧ b < 32 by omega
  · refine show 1 ≤ n ∧ n ≤ 16 from ⟨h1, ?_⟩
    by_contra hout
    have hbyte : filedBlock 2 ((n - 1) / 8) = 0xff :=
      (if_neg (by omega : ¬(n - 1) / 8 = 0)).trans (if_neg (by omega : ¬(n - 1) / 8 = 1))
    have hfull : filedImage.inodeUsed n = true := usedIn_of_full hbyte
    rw [hfull] at h
    cases h

/-- The file is removed, and the size of the root counts its entries. -/
theorem size_counts_filed :
    SizeSound (Env.quiet (smallSbi 9)) filedImage filedKernel 0 (.unlink [97]) := by
  have hcount : Counted (Env.quiet (smallSbi 9)) filedImage (filedKernel.objs 0) :=
    ⟨rfl, by decide +kernel⟩
  have hfits : (SizeCall.unlink [97]).Fits (Env.quiet (smallSbi 9)) filedImage
      (filedKernel.objs 0) := by
    intro j c h
    obtain ⟨-, rfl⟩ := namedAt_filed.unique h
    have hone : (filedImage.inode 2).blocks = 1 := by decide
    refine ⟨show 1 ≤ 2 ∧ 2 ≤ 16 by decide, fun k hk => ?_⟩
    obtain rfl : k = 0 := by omega
    exact show 6 ≤ 7 ∧ 7 < 32 by decide
  exact (size_counts_iff steady_small (by decide) dirReady_filed hcount
    (List.forall_mem_singleton.mpr (by decide)) (.inl (by decide)) hfits (fun _ h => by cases h)
      (by decide +kernel)).mpr fun _ h => by cases h

/-- A directory is made with `tfs_mknod`, and two files in it. -/
def undottedKernel : Kernel :=
  formattedRun [.mknod TFS_DIR [100], .open [100, 47, 97] 2, .open [100, 47, 98] 2]

/-- What the disk holds then. -/
def undottedImage : Image :=
  imageOf (Env.quiet (smallSbi 9)) (diskBlock (smallSbi 9) undottedKernel.dev.disk)

/-- **A directory that is not empty**: it holds the files `a` and `b`, and is removed. -/
theorem not_size_counts :
    ¬∀ (e : Env) (d : Dev) (k₀ k : Kernel) (I : Image), fsInit e d = some k₀ →
      Reach (StepOf (sysStep e)) (fun _ _ => True) k₀ k →
      I = imageOf e (diskBlock e.sbi k.dev.disk) → ∀ name c,
        Lists (dirTable e I (k.objs k.root)) name c → Counted e I (I.inode c) →
        (tfsRmdir e k.root name k).1 = 0 → OnlyDots e I (I.inode c) := by
  intro h
  have hrun : Reach (StepOf (sysStep (Env.quiet (smallSbi 9)))) (fun _ _ => True) formattedKernel
      undottedKernel := by
    have h0 : Reach (StepOf (sysStep (Env.quiet (smallSbi 9)))) (fun _ _ => True) formattedKernel
        (formattedRun []) := .start
    have h1 := reach_formattedRun (.mknod TFS_DIR [100]) h0 trivial
    have h2 := reach_formattedRun (.open [100, 47, 97] 2) h1 trivial
    have h3 := reach_formattedRun (.open [100, 47, 98] 2) h2 trivial
    exact h3
  have hlists : Lists (dirTable (Env.quiet (smallSbi 9)) undottedImage
      (undottedKernel.objs undottedKernel.root)) [100] 2 := ⟨2, by decide +kernel⟩
  have hcount : Counted (Env.quiet (smallSbi 9)) undottedImage (undottedImage.inode 2) :=
    ⟨rfl, by decide +kernel⟩
  obtain ⟨i, j, ⟨c, hi⟩, ⟨c', hj⟩, hall⟩ := h _ formatted _ undottedKernel undottedImage
    fsInit_formatted hrun rfl [100] 2 hlists hcount (by decide +kernel)
  have hfirst : dirTable (Env.quiet (smallSbi 9)) undottedImage (undottedImage.inode 2) 0 =
      some ([97], 3) := by decide +kernel
  rcases hall 0 (by rw [hfirst]; exact Option.some_ne_none _) with rfl | rfl
  · rw [hfirst] at hi
    cases hi
  · rw [hfirst] at hj
    cases hj

end Thunix.Fs
