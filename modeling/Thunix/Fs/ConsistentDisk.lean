import Thunix.Fs.ConsistentCalls
import Thunix.Fs.NameCalls

/-!
# Consistent disks

Whether a volume is consistent can be seen on the disk (`Thunix.Fs.Dev.image`,
`Thunix.Fs.Consistent.congr`). The file system keeps two directories in memory, the root and the
working directory, and writes a record from the object it has at hand: so besides the disk the
objects of these two have to be what the disk has (`Thunix.Fs.Sane`), and a call on a directory
that has two objects is not one of those that keep them so (`Thunix.Fs.Sole`).

What is said of a call says also what becomes of the files: since some image before it, they are
what they were, except those that are lost (`Thunix.Fs.Since`).
-/

namespace Thunix.Fs

open SlotMap NameTree

variable {e : Env} {B I I' : Image} {P P' : Inode} {k k₀ : Kernel} {d : Dev} {b c j m n o p obj : ℕ}
  {name a : List UInt8} {names : NameTable} {gone lost : Set ℕ} {mode : ℤ}

/-! ### The image of a disk -/

/-- What is on the disk. -/
def Dev.image (e : Env) (d : Dev) : Image := imageOf e (diskBlock e.sbi d.disk)

theorem ImageOn.image (g : Geometry e.sbi) (h : ImageOn e I d) : ImageOn e (d.image e) d := by
  obtain ⟨v, hv, -⟩ := h
  exact ⟨v, hv, shows_imageOf g fun b hb k hk => (hv.2.disk b hb k hk).symm⟩

/-- Images of which the same can be seen. -/
structure SameImage (e : Env) (I I' : Image) : Prop where
  inode : ∀ n, InTable e.sbi n → I'.inode n = I.inode n
  inodeUsed : ∀ n, 1 ≤ n → n ≤ 8 * e.sbi.sBlockSize → I'.inodeUsed n = I.inodeUsed n
  blockUsed : ∀ b < 8 * e.sbi.sBlockSize, I'.blockUsed b = I.blockUsed b
  data : ∀ b, InData e.sbi b → Agree e.sbi.sBlockSize (I.data b) (I'.data b)

theorem ImageOn.same (g : Geometry e.sbi) (h : ImageOn e I d) (h' : ImageOn e I' d) :
    SameImage e I I' where
  inode _ hn := (h'.record g hn).symm.trans (h.record g hn)
  inodeUsed _ h1 hn := (h'.inodeUsed g h1 hn).symm.trans (h.inodeUsed g h1 hn)
  blockUsed _ hb := (h'.blockUsed g hb).symm.trans (h.blockUsed g hb)
  data _ hb := h.agree h' hb

section Same

variable (g : Geometry e.sbi) (h : SameImage e I I')

include g h

theorem SameImage.live : InUse e I' = InUse e I := by
  ext n
  refine and_congr_right fun hn => ?_
  rw [h.inodeUsed n hn.1 (hn.2.trans g.inodes)]

theorem SameImage.isDir_iff : IsDir e I' n ↔ IsDir e I n := by
  have hlive := h.live g
  refine ⟨fun hn => ?_, fun hn => ?_⟩
  · exact isDir_of_live (hlive ▸ hn.live) (h.inode n hn.ino ▸ hn.mode)
  · exact isDir_of_live (hlive.symm ▸ hn.live) ((h.inode n hn.ino).symm ▸ hn.mode)

/-- The table of a directory is on the disk. -/
theorem SameImage.dirTable (hd : DirOn e P) : dirTable e I' P = dirTable e I P := by
  have hm := g.mounted
  refine funext fun j => dirTable_congr Iff.rfl fun hj => slotBytes_agree hm fun x hx => ?_
  exact (h.data _ (hd.area _ (div_lt_blocks hm hj)) x hx).symm

theorem Stored.congr (hst : Stored e I names) : Stored e I' names := by
  have hlive := h.live g
  refine ⟨⟨fun b hb hfree => ?_, fun n h1 hn hfree => ?_⟩, fun n hn => ?_, ?_, fun n hn => ?_,
    fun n a c hc => ?_⟩
  · rw [h.blockUsed b hb] at hfree
    exact hst.fits.blocks b hb hfree
  · rw [h.inodeUsed n h1 hn] at hfree
    exact hst.fits.inodes n h1 hn hfree
  · rw [h.inode n hn.1]
    exact hst.record n (hlive ▸ hn)
  · have hused : UsedData e I' = UsedData e I := Set.ext fun b => and_congr_right fun hb => by
      rw [h.blockUsed b (lt_of_lt_of_le hb.2 g.blocks)]
    rw [hlive, hused]
    exact hst.ledger.congr fun n hn => by rw [listed, listed, h.inode n hn.1]
  · rw [h.isDir_iff g] at hn
    rw [h.inode n hn.ino]
    refine (hst.dir n hn).congr (h.dirTable g (hst.record n hn.live).toDirOn) ?_
    rw [(hst.record n hn.live).ino]
    exact h.inode n hn.ino
  · exact (h.isDir_iff g).mpr (hst.only n a c hc)

/-- **Consistency can be seen.** -/
theorem Consistent.congr (hcons : Consistent e I names) : Consistent e I' names := by
  refine ⟨hcons.toStored.congr g h, ?_, ?_, fun n hn => hcons.dots n ((h.isDir_iff g).mp hn)⟩
  · rw [h.live g]
    exact hcons.tree
  · rw [h.inode _ hcons.tree.rooted.1]
    exact hcons.root

end Same

/-! ### Directories in memory -/

/-- An object holds a directory, as it is on the disk. -/
structure DirObject (e : Env) (I : Image) (k : Kernel) (o n : ℕ) : Prop where
  lt : o < k.nextObj
  isDir : IsDir e I n
  contents : k.objs o = I.inode n

/-- The objects that the file system keeps: the root, and the working directory. -/
structure DirObjects (e : Env) (I : Image) (k : Kernel) : Prop where
  root : DirObject e I k k.root rootIno
  pwd : ∃ n, DirObject e I k k.pwd n

/-- **The volume is consistent**, and the directories in memory are those on the disk. -/
def Sane (e : Env) (k : Kernel) : Prop :=
  ∃ I names, ImageOn e I k.dev ∧ Consistent e I names ∧ DirObjects e I k

/-- The volume is consistent, and the files of the image `B` but those that are lost are what they
were. -/
def Since (e : Env) (B : Image) (lost : Set ℕ) (k : Kernel) : Prop :=
  ∃ I names, ImageOn e I k.dev ∧ Consistent e I names ∧ DirObjects e I k ∧ FilesKept e B I lost

theorem Since.sane (h : Since e B lost k) : Sane e k := by
  obtain ⟨I, names, hI, hcons, hh, -⟩ := h
  exact ⟨I, names, hI, hcons, hh⟩

/-- The directory `m` has no object but this one. -/
def Sole (k : Kernel) (obj m : ℕ) : Prop :=
  ∀ o, o = k.root ∨ o = k.pwd → (k.objs o).iIno = m → o = obj

theorem DirObject.congr (h : DirObject e I k₀ o n) (hobjs : k.objs o = k₀.objs o)
    (hnext : k₀.nextObj ≤ k.nextObj) : DirObject e I k o n :=
  ⟨h.lt.trans_le hnext, h.isDir, hobjs.trans h.contents⟩

theorem DirObjects.congr (h : DirObjects e I k₀) (hroot : k.root = k₀.root) (hpwd : k.pwd = k₀.pwd)
    (hobjs : ∀ o < k₀.nextObj, k.objs o = k₀.objs o) (hnext : k₀.nextObj ≤ k.nextObj) :
    DirObjects e I k := by
  obtain ⟨n, hn⟩ := h.pwd
  refine ⟨?_, n, ?_⟩
  · rw [hroot]
    exact h.root.congr (hobjs _ h.root.lt) hnext
  · rw [hpwd]
    exact hn.congr (hobjs _ hn.lt) hnext

theorem DirObjects.alike (h : DirObjects e I k₀) (halike : Alike k₀ k) : DirObjects e I k :=
  h.congr halike.root halike.pwd (fun o _ => congrFun halike.objs o) halike.nextObj.ge

theorem DirObjects.addObj (h : DirObjects e I k) (inode : Inode) :
    DirObjects e I (k.addObj inode) :=
  h.congr rfl rfl (fun _ ho => addObj_of_lt ho) (Nat.le_succ _)

theorem since_of_on (hk : KernelOn e I k₀ k) (hcons : Consistent e I names)
    (hh : DirObjects e I k₀) (hfiles : FilesKept e B I lost) : Since e B lost k :=
  ⟨I, names, hk.1, hcons, hh.alike hk.2, hfiles⟩

/-- What else is in the state does not matter. -/
theorem Since.congr (h : Since e B lost k₀) (hdev : ∀ I, ImageOn e I k₀.dev → ImageOn e I k.dev)
    (hroot : k.root = k₀.root) (hpwd : k.pwd = k₀.pwd) (hobjs : k.objs = k₀.objs)
    (hnext : k.nextObj = k₀.nextObj) : Since e B lost k := by
  obtain ⟨I, names, hI, hcons, hh, hfiles⟩ := h
  exact ⟨I, names, hdev I hI, hcons,
    hh.congr hroot hpwd (fun o _ => congrFun hobjs o) hnext.ge, hfiles⟩

section Keep

theorem touch_since : Preserves (Since e B lost) (touch obj) := fun k h => by
  rw [touch]
  by_cases ha : k.alive obj
  · rw [if_pos ha]
    exact h
  · rw [if_neg ha]
    exact h.congr (fun _ h => h) rfl rfl rfl rfl

theorem fault_since (f : Fault) : Preserves (Since e B lost) (fault f) := fun _ h =>
  h.congr (fun _ h => h) rfl rfl rfl rfl

theorem freeObj_since : Preserves (Since e B lost) (freeObj obj) := fun k h => by
  rw [freeObj]
  by_cases ha : k.alive obj
  · rw [if_pos ha]
    exact h.congr (fun _ h => h) rfl rfl rfl rfl
  · rw [if_neg ha]
    exact h.congr (fun _ h => h) rfl rfl rfl rfl

theorem freeInode_since : Preserves (Since e B lost) (freeInode obj) :=
  touch_since.bind fun _ k h => by
    by_cases hpwd : obj = k.pwd
    · rw [if_pos hpwd]
      exact h
    · rw [if_neg hpwd]
      exact freeObj_since k h

theorem mallocOk_since : Preserves (Since e B lost) (onDev (mallocOk e)) := fun _ h =>
  h.congr (fun _ hI => hI.tick) rfl rfl rfl rfl

theorem uninitialised_since : Preserves (Since e B lost) (onDev (uninitialised e)) := fun _ h =>
  h.congr (fun _ hI => hI.tick) rfl rfl rfl rfl

theorem getUnusedFd_since : Preserves (Since e B lost) getUnusedFd := fun k h => by
  rw [getUnusedFd]
  split
  · exact h.congr (fun _ h => h) rfl rfl rfl rfl
  · exact h

theorem fget_since (fd : ℤ) : Preserves (Since e B lost) (fget e fd) := by
  unfold fget
  refine .ite (.pure _ _) (.ite (uninitialised_since.bind fun _ => .ite (.pure _ _) (.pure _ _)) ?_)
  intro k h
  dsimp only
  split <;> exact h

/-- A call on an open file. -/
theorem withFile_since (fd : ℤ) {call : File → KernelM ℤ}
    (hcall : ∀ f, Preserves (Since e B lost) (call f)) :
    Preserves (Since e B lost) (withFile e fd call) := by
  refine (fget_since fd).bind fun r => ?_
  rcases r with _ | ⟨f⟩ | _ | _
  · exact .pure _ _
  · exact hcall f
  · exact .pure _ _
  · exact (fault_since _).bind fun _ => uninitialised_since

theorem sysClose_since (fd : ℤ) : Preserves (Since e B lost) (sysClose e fd) :=
  withFile_since fd fun _ => freeInode_since.bind fun _ _ h =>
    h.congr (fun _ h => h) rfl rfl rfl rfl

theorem tfsClosedir_since (dir : ℕ) : Preserves (Since e B lost) (tfsClosedir dir) := fun k h => by
  rw [tfsClosedir]
  split
  · exact h
  · exact (freeInode_since k h).congr (fun _ h => h) rfl rfl rfl rfl

end Keep

/-- It is on the disk that the volume is consistent. -/
theorem Sane.onDisk (g : Geometry e.sbi) (h : Sane e k) : ImageOn e (k.dev.image e) k.dev ∧
    (∃ names, Consistent e (k.dev.image e) names) ∧ DirObjects e (k.dev.image e) k := by
  obtain ⟨I, names, hI, hcons, hh⟩ := h
  have hI' := hI.image g
  have hsame := hI.same g hI'
  have hhandle : ∀ {o n}, DirObject e I k o n → DirObject e (k.dev.image e) k o n := fun hn =>
    ⟨hn.lt, (hsame.isDir_iff g).mpr hn.isDir, hn.contents.trans (hsame.inode _ hn.isDir.ino).symm⟩
  obtain ⟨n, hn⟩ := hh.pwd
  exact ⟨hI', ⟨names, hcons.congr g hsame⟩, hhandle hh.root, n, hhandle hn⟩

/-- Since now, nothing is lost. -/
theorem Sane.since (g : Geometry e.sbi) (h : Sane e k) : Since e (k.dev.image e) lost k := by
  obtain ⟨hI, ⟨names, hcons⟩, hh⟩ := h.onDisk g
  exact ⟨_, names, hI, hcons, hh, .refl⟩

theorem Sole.addObj (h : Sole k obj m) (hh : DirObjects e I k) (inode : Inode) :
    Sole (k.addObj inode) obj m := by
  obtain ⟨n, hn⟩ := hh.pwd
  intro o ho hino
  have hlt : o < k.nextObj := by
    rcases ho with rfl | rfl
    · exact hh.root.lt
    · exact hn.lt
  rw [addObj_of_lt hlt] at hino
  exact h o ho hino

/-- The object holds the directory of its number. -/
theorem DirObject.iIno (h : DirObject e I k o n) (hcons : Consistent e I names) :
    (k.objs o).iIno = n := by
  rw [h.contents]
  exact (hcons.record n h.isDir.live).ino

/-- **The directory of an object changes**, on the disk and in memory. -/
theorem DirObjects.set (h : DirObjects e I k) (hcons : Consistent e I names)
    (hobj : DirObject e I k obj p) (hsole : Sole k obj p) (hkeeps : KeepsRest e I p I' gone)
    (hself : I'.inode p = P') (hroot : rootIno ∉ gone) (hpwd : (k.objs k.pwd).iIno ∉ gone) :
    DirObjects e I' (k.setObj obj P') := by
  have hset : ∀ {o n}, o = k.root ∨ o = k.pwd → DirObject e I k o n → n ∉ gone →
      DirObject e I' (k.setObj obj P') o n := fun {o n} ho hn hgone => by
    refine ⟨hn.lt, hkeeps.isDir n hn.isDir hgone, ?_⟩
    rcases eq_or_ne n p with rfl | hne
    · rw [hsole o ho (hn.iIno hcons), setObj_self, hself]
    · have hoo : o ≠ obj := by
        rintro rfl
        exact hne ((hn.iIno hcons).symm.trans (hobj.iIno hcons))
      rw [setObj_of_ne hoo, hn.contents, hkeeps.other n hn.isDir hne]
  obtain ⟨n, hn⟩ := h.pwd
  rw [hn.iIno hcons] at hpwd
  exact ⟨hset (.inl rfl) h.root hroot, n, hset (.inr rfl) hn hpwd⟩

/-! ### The calls -/

/-- A directory does not get its last block with the next entry. -/
def Roomy (e : Env) (I : Image) (P : Inode) : Prop :=
  NoneFree e I P 0 → P.blocks + 1 < TFS_N_BLOCKS

theorem Entered.blocks_lt (hs : Steady e) (hopen : OpenDir e I P) (hfit : FreeInData e I)
    (hroomy : Roomy e I P) (hent : Entered e I P c name I' P') : P'.blocks < TFS_N_BLOCKS := by
  have hle := (hent.blocks_used hs hopen hfit).2
  obtain ⟨I₁, P₁, j, hroom, rfl, rfl⟩ := hent
  cases hroom with
  | slot => exact hopen.room
  | block hnone => exact lt_of_le_of_lt hle (hroomy hnone)

/-- The object of an inode that has been made, whose record has been written. -/
structure Made (e : Env) (B I : Image) (k : Kernel) (o : ℕ) : Prop where
  consistent : ∃ names, Consistent e I names
  files : FilesKept e B I ∅
  dirs : DirObjects e I k
  ino : InTable e.sbi (k.objs o).iIno
  words : (k.objs o).Words
  record : I.inode (k.objs o).iIno = (k.objs o).stored e

section Calls

variable (hs : Steady e) (hcons : Consistent e I names) (hh : DirObjects e I k₀)
  (hobj : DirObject e I k₀ obj m) (hsole : Sole k₀ obj m) (hlen : name.length ≤ TFS_NAME_LEN)
  (hnz : ∀ c ∈ name, c ≠ 0)

include hs hcons hh hobj hsole hlen hnz

/-- **`tfs_mknod`**, of anything but a directory. -/
theorem tfsMknod_since (lost : Set ℕ) (hmode : mode % 2 ^ 16 ≠ TFS_DIR)
    (hblock : ¬HasName e I (I.inode m) name → BlockFor e I (I.inode m))
    (hroomy : ¬HasName e I (I.inode m) name → Roomy e I (I.inode m)) :
    Hoare (KernelOn e I k₀) (tfsMknod e obj name mode) fun r k =>
      (∃ err, r = .error err ∧ Since e I lost k) ∨
      ∃ o I' k₁, r = .ok o ∧ KernelOn e I' k₁ k ∧ Made e I I' k₁ o := by
  have hopen := hcons.toStored.openDir hobj.isDir
  refine (tfsMknod_on hs hobj.contents hobj.lt hopen hcons.fits (.inl hlen) hnz
    fun hno _ => hblock hno).post ?_
  rintro r k (⟨-, rfl, hk⟩ | ⟨hno, ⟨rfl, -, hk⟩ | ⟨rfl, -, i, hk⟩ | ⟨c, hc, ⟨hlong, -⟩ |
    ⟨-, rfl, I', P', hent, hk⟩⟩⟩)
  · exact .inl ⟨_, rfl, since_of_on hk hcons hh .refl⟩
  · exact .inl ⟨_, rfl, since_of_on hk hcons hh .refl⟩
  · exact .inl ⟨_, rfl, since_of_on hk hcons (hh.addObj i) .refl⟩
  · exact absurd hlen (Nat.not_le.mpr hlong)
  · have hnone : names m name = none := by
      by_contra hne
      exact hno ((hcons.toStored.hasName_iff hobj.isDir).mpr hne)
    have hopen' : OpenDir e (I.make c ((freshInode mode c (I.inode m)).stored e)) (I.inode m) :=
      { hopen with }
    have hlt := hent.blocks_lt hs hopen' hcons.fits.blocks (hroomy hno)
    obtain ⟨hcons', hkeeps, hself, hnew⟩ :=
      hcons.mknod hs hobj.isDir hlen hnz hnone hc hmode hent hlt
    refine .inr ⟨_, _, _, rfl, hk, ⟨_, hcons'⟩, hkeeps.files, ?_, ?_, ?_, ?_⟩
    · exact (hh.addObj _).set hcons (hobj.congr (addObj_of_lt hobj.lt) (Nat.le_succ _))
        (hsole.addObj hh _) hkeeps hself (Set.notMem_empty _) (Set.notMem_empty _)
    all_goals rw [setObj_of_ne hobj.lt.ne', addObj_self]
    · exact hc.1
    · exact freshInode_words (by
        have := hs.geometry.small
        have := hs.geometry.inodes
        have := hc.1.2
        omega)
    · exact hnew

/-- **`tfs_mkdir`.** -/
theorem tfsMkdir_since (hblocks : ¬HasName e I (I.inode m) name → BlocksFor e I (I.inode m))
    (hroomy : ¬HasName e I (I.inode m) name → Roomy e I (I.inode m)) :
    Hoare (KernelOn e I k₀) (tfsMkdir e obj name) fun _ => Since e I lost := by
  have hopen := hcons.toStored.openDir hobj.isDir
  refine (tfsMkdir_on hs hobj.contents hobj.lt hopen hcons.fits hlen hnz hblocks).post ?_
  rintro r k (⟨-, -, hk⟩ | ⟨-, -, -, hk⟩ | ⟨-, -, -, i, hk⟩ | ⟨hno, -, c, I', P', C, hc, hmade, hk⟩)
  · exact since_of_on hk hcons hh .refl
  · exact since_of_on hk hcons hh .refl
  · exact since_of_on hk hcons (hh.addObj i) .refl
  · have hnone : names m name = none := by
      by_contra hne
      exact hno ((hcons.toStored.hasName_iff hobj.isDir).mpr hne)
    have hlt : P'.blocks < TFS_N_BLOCKS := by
      obtain ⟨I₁, I₂, C₁, hent, -, -⟩ := hmade
      have hopen' : OpenDir e (I.make c (freshInode TFS_DIR c (I.inode m))) (I.inode m) :=
        { hopen with }
      exact hent.blocks_lt hs hopen' hcons.fits.blocks (hroomy hno)
    obtain ⟨names', hcons', hkeeps, hself⟩ :=
      hcons.mkdir hs hobj.isDir hlen hnz hnone hc hmade hlt
    refine since_of_on hk hcons' ?_ (hkeeps.files.mono fun _ h => h.elim)
    exact (hh.addObj C).set hcons (hobj.congr (addObj_of_lt hobj.lt) (Nat.le_succ _))
      (hsole.addObj hh C) hkeeps hself (Set.notMem_empty _) (Set.notMem_empty _)

omit hlen hnz in
/-- What has been removed was not a directory in memory. -/
theorem removedOn_since (hnamed : NamedAt e I (I.inode m) name j c)
    (hname : name ≠ dot ∧ name ≠ dot ++ dot) (hleaf : ∀ x, downward names c x = none)
    (hpwd : (k₀.objs k₀.pwd).iIno ≠ c) (hk : RemovedOn e I k₀ obj (I.inode m) j c k)
    (hlost : c ∈ lost ∨ (I.inode c).iMode = TFS_DIR) : Since e I lost k := by
  obtain ⟨hcons', hkeeps⟩ := hcons.remove hs.geometry.mounted hobj.isDir hnamed hname hleaf
  have hbound := hcons.toStored.name_of_namedAt hobj.isDir hnamed
  obtain ⟨-, -, hroot⟩ := hcons.below hname hbound
  obtain ⟨n, hn⟩ := hh.pwd
  have hfiles : FilesKept e I (I.drop e m j c) lost := hkeeps.files.mono fun x hx hmode => by
    obtain rfl : x = c := hx
    exact hlost.resolve_right hmode
  refine since_of_on hk hcons' ?_ hfiles
  refine (hh.addObj _).set hcons (hobj.congr (addObj_of_lt hobj.lt) (Nat.le_succ _))
    (hsole.addObj hh _) hkeeps (hcons.toStored.drop_self hobj.isDir) hroot.symm ?_
  change ((k₀.addObj _).objs k₀.pwd).iIno ≠ c
  rw [addObj_of_lt hn.lt]
  exact hpwd

variable (hentries : 3 ≤ numEntries e.sbi.sBlockShift)

include hentries

/-- **`tfs_unlink`.** -/
theorem tfsUnlink_since (hlost : ∀ j c, NamedAt e I (I.inode m) name j c → c ∈ lost) :
    Hoare (KernelOn e I k₀) (tfsUnlink e obj name) fun _ => Since e I lost := by
  have hopen := hcons.toStored.openDir hobj.isDir
  refine (tfsUnlink_on hs hentries hobj.contents hobj.lt hopen (.inl hlen) hnz fun j c hc =>
    (hcons.sound.releasable hobj.isDir hc).1).post ?_
  rintro r k (⟨-, -, hk⟩ | ⟨-, -, -, hk⟩ | ⟨j, c, hnamed, ⟨hmode, -, hk⟩ | ⟨-, -, hk⟩⟩)
  · exact since_of_on hk hcons hh .refl
  · exact since_of_on hk hcons hh .refl
  · -- a file is not the directory itself, nor the one above
    have hfile : ∀ n, IsDir e I n → c ≠ n := by
      rintro n hn rfl
      have hdir := hn.mode
      rw [hmode] at hdir
      cases hdir
    have hbound := hcons.toStored.name_of_namedAt hobj.isDir hnamed
    obtain ⟨hdot, q, hdots, hparent⟩ := hcons.dotted hobj.isDir
    have hname : name ≠ dot ∧ name ≠ dot ++ dot := by
      constructor
      · rintro rfl
        exact hfile m hobj.isDir (Option.some.inj (hbound.symm.trans hdot))
      · rintro rfl
        have hq : IsDir e I q := by
          rcases hparent with ⟨rfl, -⟩ | ⟨a, ha⟩
          · exact hcons.isDir_root
          · exact hcons.only q a m (downward_eq_some_iff.mp ha).2
        exact hfile q hq (Option.some.inj (hbound.symm.trans hdots))
    obtain ⟨n, hn⟩ := hh.pwd
    refine removedOn_since hs hcons hh hobj hsole hnamed hname (hcons.leaf_of_file hmode) ?_ hk
      (.inl (hlost j c hnamed))
    rw [hn.iIno hcons]
    exact (hfile n hn.isDir).symm
  · exact since_of_on hk hcons (hh.addObj _) .refl

/-- **`tfs_rmdir`**, of anything but the directory itself, the one above and the working
directory. -/
theorem tfsRmdir_since (hname : name ≠ dot ∧ name ≠ dot ++ dot)
    (hpwd : ∀ j c, NamedAt e I (I.inode m) name j c → (k₀.objs k₀.pwd).iIno ≠ c) :
    Hoare (KernelOn e I k₀) (tfsRmdir e obj name) fun _ => Since e I lost := by
  have hopen := hcons.toStored.openDir hobj.isDir
  refine (tfsRmdir_on hs hentries hobj.contents hobj.lt hopen (.inl hlen) hnz fun j c hc =>
    (hcons.sound.releasable hobj.isDir hc).1).post ?_
  rintro r k (⟨-, -, hk⟩ | ⟨-, -, -, hk⟩ | ⟨j, c, hnamed, ⟨hempty, -, hk⟩ | ⟨-, -, hk⟩⟩)
  · exact since_of_on hk hcons hh .refl
  · exact since_of_on hk hcons hh .refl
  · have hbound := hcons.toStored.name_of_namedAt hobj.isDir hnamed
    have hdir := isDir_of_live (hcons.below hname hbound).1 hempty.1
    exact removedOn_since hs hcons hh hobj hsole hnamed hname (hcons.leaf_of_empty hdir hempty)
      (hpwd j c hnamed) hk (.inr hempty.1)
  · exact since_of_on hk hcons (hh.addObj _) .refl

end Calls

end Thunix.Fs
