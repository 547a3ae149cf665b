import Thunix.Fs.ConsistentRuns
import Thunix.Fs.ConsistentWrites
import Thunix.Fs.LongNames

/-!
# Runs on a consistent volume

From the mount of a consistent volume on, every run of system calls leaves the volume consistent
(`Thunix.Fs.RunOn.consistent`), if each call is one that the volume has room for, that does not
change a directory through a second object of it, and that leaves no hole in a file
(`Thunix.Fs.KeepsVolume`, `Thunix.Fs.WriteKeeps`). What that means is said of the disk in three
ways:

* a block of data is marked as in use exactly if it is in the list of one inode in use
  (`Thunix.Fs.booksKept_of_reach`);
* there is one path without `.` and `..` from the root to every inode in use, and `..` leads back
  along it (`Thunix.Fs.onePath_of_reach`);
* a file that no call of the run writes or removes is what it was, to the last byte
  (`Thunix.Fs.fileStays_of_reach`).
-/

namespace Thunix.Fs

open SlotMap NameTree

variable {e : Env} {B I : Image} {lost : Set ℕ} {k k₀ k' : Kernel} {d : Dev} {inode : Inode}
  {c m n p : ℕ} {a : List UInt8} {names : NameTable} {comps : List (List UInt8)}

/-! ### Reading -/

theorem tfsReadLoop_image (hs : Steady e) (blocks index m : ℕ) (buf : Buf) :
    Preserves (ImageOn e I) (tfsReadLoop e inode blocks index m buf) := by
  induction blocks generalizing index m buf with
  | zero => exact .pure _ _
  | succ blocks ih =>
    rw [tfsReadLoop]
    refine .ite (.pure _ _) (request_image hs fun i => ?_)
    refine dataPtr_image.bind_eq ?_
    refine Hoare.bind (Q := fun _ => ImageOn e I) (fun _ h => h.on) fun bytes => ih _ _ _

/-- **`tfs_read`** changes nothing on the disk. -/
theorem tfsRead_image (hs : Steady e) (offset : ℕ) (buf : Buf) (blocks : ℤ) :
    Preserves (ImageOn e I) (tfsRead e inode offset buf blocks) :=
  .ite (.pure _ _) (.ite (.pure _ _) (tfsReadLoop_image hs _ _ _ _))

theorem sysRead_since (hs : Steady e) (fd : ℤ) (buf : Buf) (size : ℤ) :
    Preserves (Since e B lost) (sysRead e fd buf size) := by
  refine (fget_since fd).bind fun r => ?_
  rcases r with _ | ⟨f⟩ | _ | _
  · exact .pure _ _
  · refine inodeAt_since.bind fun inode => ?_
    refine Preserves.bind (fun k h => ?_) fun r => ?_
    · exact h.congr (fun I hI => tfsRead_image hs _ _ _ _ hI) rfl rfl rfl rfl
    · exact .ite ((setOffset_since _ _).bind fun _ => .pure _ _) (.pure _ _)
  · exact .pure _ _
  · exact (fault_since _).bind fun _ => uninitialised_since.bind fun _ => .pure _ _

/-! ### Calls -/

/-- The system calls on the volume. -/
inductive VolumeCall
  | name (call : SysCall)
  | read (fd : ℤ) (buf : ℕ → UInt8) (size : ℤ)
  | write (fd : ℤ) (buf : ℕ → UInt8) (size : ℤ)
  | lseek (fd off : ℤ) (mode : ℕ)

/-- What a call does. -/
def volumeRun (e : Env) : VolumeCall → Kernel → Kernel
  | .name call, k => sysRun e call k
  | .read fd buf size, k => (sysRead e fd buf size k).2
  | .write fd buf size, k => (sysWrite e fd buf size k).2
  | .lseek fd off mode, k => (sysLseek e fd off mode k).2

/-- The step of a run. -/
def volumeStep (e : Env) (k : Kernel) (call : VolumeCall) : Option Kernel :=
  some (volumeRun e call k)

/-- **What is asked of a call.** -/
def VolumeOk (e : Env) (k : Kernel) : VolumeCall → Prop
  | .name call => KeepsVolume e k call
  | .read _ _ _ | .lseek _ _ _ => True
  | .write fd _ size => ∀ f, k.files fd.toNat = some f → WriteKeeps e k f size

/-- The files that a call writes or removes. -/
def changedBy (e : Env) (k : Kernel) : VolumeCall → Set ℕ
  | .name call => removedBy e k call
  | .read _ _ _ | .lseek _ _ _ => ∅
  | .write fd _ _ => writtenBy k fd

section Runs

variable (hs : Steady e) (hmalloc : ∀ t, e.mallocOk t = true)
  (hentries : 3 ≤ numEntries e.sbi.sBlockShift)

include hs hmalloc hentries

/-- **A call** keeps the volume consistent, and no file changes but those it is made for. -/
theorem volumeRun_since (h : Sane e k) {call : VolumeCall} (hok : VolumeOk e k call) :
    Since e (k.dev.image e) (changedBy e k call) (volumeRun e call k) := by
  cases call with
  | name call => exact sysRun_since hs hmalloc hentries h hok
  | read fd buf size => exact sysRead_since hs fd buf size k (h.since hs.geometry)
  | write fd buf size => exact sysWrite_since hs h buf size hok
  | lseek fd off mode => exact sysLseek_since off mode k (h.since hs.geometry)

theorem sane_of_run (h : Sane e k₀) (hrun : Reach (StepOf (volumeStep e)) (VolumeOk e) k₀ k) :
    Sane e k :=
  hrun.invariant h fun k call k' h hok hstep => by
    obtain rfl := Option.some.inj hstep
    exact (volumeRun_since hs hmalloc hentries h hok).sane

end Runs

/-- What has become of the files can be seen on the disk. -/
theorem Since.onDisk (g : Geometry e.sbi) (h : Since e B lost k) :
    FilesKept e B (k.dev.image e) lost := by
  obtain ⟨I, names, hI, hcons, -, hfiles⟩ := h
  have hsame := hI.same g (hI.image g)
  intro n hn hmode hnot
  obtain ⟨hlive, hinode, hdata⟩ := hfiles n hn hmode hnot
  refine ⟨hsame.live g ▸ hlive, (hsame.inode n hlive.1).trans hinode, fun b hb x hx => ?_⟩
  rw [hdata b hb x hx]
  exact hsame.data b (hcons.toStored.used_of_mem hlive (hinode.symm ▸ hb)).1 x hx

/-! ### Start -/

theorem imageOn_mount (g : Geometry e.sbi) (d : Dev) :
    ImageOn e (d.image e) (cacheInit e.sbi.sBlockShift d) :=
  imageOn_cacheInit g fun _ _ _ _ => rfl

/-- **`fs_init`** of a consistent volume. -/
theorem sane_fsInit (hs : Steady e)
    (hcons : Consistent e (d.image e) names) (hinit : fsInit e d = some k) : Sane e k := by
  have hon : KernelOn e (d.image e) (bootKernel e d) (bootKernel e d) :=
    ⟨imageOn_mount hs.geometry d, .refl _⟩
  have hget := tfsIgetByInr_on hs hcons.tree.rooted.1 _ hon
  rw [show ((rootIno : ℕ) : ℤ) = TFS_ROOT_INODE from rfl] at hget
  rw [fsInit] at hinit
  rcases hr : tfsIgetByInr e TFS_ROOT_INODE (bootKernel e d) with ⟨r, k'⟩
  rw [hr] at hget hinit
  obtain ⟨rfl, -, -⟩ | ⟨rfl, hI, halike⟩ := hget
  · cases hinit
  · obtain rfl := Option.some.inj hinit
    have hroot : ∀ o, o = 0 →
        DirObject e (d.image e) { k' with root := 0, pwd := 0 } o rootIno := by
      rintro o rfl
      refine ⟨?_, hcons.isDir_root, ?_⟩
      · exact halike.nextObj.symm ▸ Nat.one_pos
      · exact (congrFun halike.objs 0).trans (addObj_self _ _)
    exact ⟨_, names, hI, hcons, hroot 0 rfl, rootIno, hroot 0 rfl⟩

/-! ### Names and walks -/

section Names

variable (h : Consistent e I names)

include h

/-- A name of the table is found in a slot of its directory. -/
theorem Consistent.namedAt (ha : names p a = some c) :
    IsDir e I p ∧ a.length ≤ TFS_NAME_LEN ∧ ∃ j, NamedAt e I (I.inode p) a j c := by
  have hp := h.only p a c ha
  obtain ⟨j, hj⟩ := (h.toStored.name_iff hp).mp ha
  obtain ⟨hlt, hname, hino⟩ := dirTable_eq_some_iff.mp hj
  refine ⟨hp, slotNamed_length hname, j, ⟨Nat.zero_le j, hlt, hname, fun i _ hi hname' => ?_⟩, hino⟩
  have hi' := dirTable_eq_some_iff.mpr ⟨hi.trans hlt, hname', rfl⟩
  exact absurd ((h.dir p hp).keeps.once _ _ _ _ _ hi' hj) hi.ne

/-- One name of a walk. -/
theorem Consistent.walk_cons :
    Walk e I 0 (a :: comps) m (.inode n) ↔
      ∃ c, names m a = some c ∧ Walk e I 0 comps c (.inode n) := by
  constructor
  · intro hwalk
    cases hwalk with
    | into _ hdir _ hnamed hrest => exact ⟨_, h.toStored.name_of_namedAt hdir hnamed, hrest⟩
  · rintro ⟨c, hc, hrest⟩
    obtain ⟨hdir, hlen, j, hj⟩ := h.namedAt hc
    exact .into (fun hflag => by cases hflag) hdir hlen hj hrest

/-- A walk down the tree is a walk of the volume without `.` and `..`. -/
theorem Consistent.walk_iff : NameTree.walk (downward names) m comps = some n ↔
    (∀ a ∈ comps, a ≠ dot ∧ a ≠ dot ++ dot) ∧ Walk e I 0 comps m (.inode n) := by
  induction comps generalizing m with
  | nil =>
    constructor
    · intro hwalk
      obtain rfl := Option.some.inj hwalk
      exact ⟨fun _ ha => absurd ha List.not_mem_nil, .stop _⟩
    · rintro ⟨-, hwalk⟩
      cases hwalk
      rfl
  | cons a comps ih =>
    rw [NameTree.walk, Option.bind_eq_some_iff, h.walk_cons, List.forall_mem_cons]
    constructor
    · rintro ⟨c, ha, hrest⟩
      obtain ⟨hne, hname⟩ := downward_eq_some_iff.mp ha
      obtain ⟨hcomps, hwalk⟩ := ih.mp hrest
      exact ⟨⟨hne, hcomps⟩, c, hname, hwalk⟩
    · rintro ⟨⟨hne, hcomps⟩, c, hname, hwalk⟩
      exact ⟨c, downward_eq_some_iff.mpr ⟨hne, hname⟩, ih.mpr ⟨hcomps, hwalk⟩⟩

/-- **There is one path** to every inode in use. -/
theorem Consistent.onePath (hn : n ∈ InUse e I) :
    ∃! comps, (∀ a ∈ comps, a ≠ dot ∧ a ≠ dot ++ dot) ∧ Walk e I 0 comps rootIno (.inode n) := by
  obtain ⟨comps, hcomps, huniq⟩ := h.tree.path hn
  exact ⟨comps, h.walk_iff.mp hcomps, fun comps' h' => huniq comps' (h.walk_iff.mpr h')⟩

end Names

/-! ### Paths with dots -/

/-- One component behind a path. -/
def normalStep (path : List (List UInt8)) (a : List UInt8) : List (List UInt8) :=
  if a = dot then path else if a = dot ++ dot then path.dropLast else path ++ [a]

/-- A path from the root without its `.` and `..`: each `..` takes the name before it away. -/
def normal (comps : List (List UInt8)) : List (List UInt8) := comps.foldl normalStep []

/-- One step of a walk, and of the path down the tree. -/
theorem Consistent.walk_normalStep (h : Consistent e I names) {path : List (List UInt8)}
    (hpath : NameTree.walk (downward names) rootIno path = some m) (ha : names m a = some c) :
    NameTree.walk (downward names) rootIno (normalStep path a) = some c := by
  obtain ⟨hdot, p, hdots, hparent⟩ := h.dotted (h.only m a c ha)
  rw [normalStep]
  by_cases h1 : a = dot
  · subst h1
    rw [if_pos rfl, hpath]
    exact hdot.symm.trans ha
  · rw [if_neg h1]
    by_cases h2 : a = dot ++ dot
    · subst h2
      obtain rfl : p = c := Option.some.inj (hdots.symm.trans ha)
      rw [if_pos rfl]
      -- the path to the directory is that of the one above, and a name
      rcases hparent with ⟨rfl, rfl⟩ | ⟨x, hx⟩
      · obtain ⟨_, -, huniq⟩ := h.tree.path h.tree.rooted
        rw [huniq path hpath, ← huniq [] rfl]
        rfl
      · obtain ⟨hp, hm, -⟩ := h.tree.ends p x m hx
        obtain ⟨above, habove, -⟩ := h.tree.path hp
        obtain ⟨_, -, huniq⟩ := h.tree.path hm
        rw [huniq path hpath, ← huniq (above ++ [x]) ((walk_concat_eq_some _).mpr ⟨p, habove, hx⟩),
          List.dropLast_concat]
        exact habove
    · rw [if_neg h2]
      exact (walk_concat_eq_some _).mpr ⟨m, hpath, downward_eq_some_iff.mpr ⟨⟨h1, h2⟩, ha⟩⟩

theorem Consistent.walk_normal (h : Consistent e I names) {path : List (List UInt8)}
    (hpath : NameTree.walk (downward names) rootIno path = some m)
    (hwalk : Walk e I 0 comps m (.inode n)) :
    NameTree.walk (downward names) rootIno (comps.foldl normalStep path) = some n := by
  induction comps generalizing path m with
  | nil =>
    cases hwalk
    exact hpath
  | cons a comps ih =>
    obtain ⟨c, ha, hrest⟩ := h.walk_cons.mp hwalk
    exact ih (h.walk_normalStep hpath ha) hrest

/-- **Two paths lead to the same inode** exactly if they are the same without their dots. -/
theorem Consistent.eq_iff_normal (h : Consistent e I names) {comps' : List (List UInt8)}
    (hwalk : Walk e I 0 comps rootIno (.inode n)) (hwalk' : Walk e I 0 comps' rootIno (.inode m)) :
    n = m ↔ normal comps = normal comps' := by
  have hn : NameTree.walk (downward names) rootIno (normal comps) = some n :=
    h.walk_normal rfl hwalk
  have hm : NameTree.walk (downward names) rootIno (normal comps') = some m :=
    h.walk_normal rfl hwalk'
  constructor
  · rintro rfl
    have hlive : n ∈ InUse e I := hwalk.inUse h h.tree.rooted
    obtain ⟨_, -, huniq⟩ := h.tree.path hlive
    rw [huniq _ hn, huniq _ hm]
  · intro heq
    rw [heq, hm] at hn
    exact (Option.some.inj hn).symm

/-! ### What `namei` finds -/

/-- The number of the inode that `namei` finds. -/
def nameiIno (e : Env) (path : List UInt8) (k : Kernel) : Option ℕ :=
  match namei e path 0 k with
  | (.ok obj, k') => some (k'.objs obj).iIno
  | (.error _, _) => none

/-- `namei` finds where the path leads. -/
theorem nameiIno_eq (hs : Steady e) (hmalloc : ∀ t, e.mallocOk t = true) (h : Sane e k)
    {path : List UInt8} (hpath : LeadsTo e k 0 path (.inode n)) : nameiIno e path k = some n := by
  obtain ⟨hI, ⟨names, hcons⟩, hh⟩ := h.onDisk hs.geometry
  obtain ⟨hread, hwalk⟩ := hpath
  have hlive : n ∈ InUse e (k.dev.image e) :=
    hwalk.inUse hcons (hh.start hcons path).isDir.live
  have hnamei : Hoare (KernelOn e (k.dev.image e) k) (namei e path 0) fun r k' =>
      ∃ obj, r = .ok obj ∧ (k'.objs obj).iIno = n := by
    refine namei_sole hs hmalloc hcons hh hread hwalk (fun obj k₁ hat _ _ k' hk => ?_)
      fun _ _ _ _ _ hout => by cases hout
    refine ⟨obj, rfl, ?_⟩
    rw [hk.2.objs, hat.contents]
    exact (hcons.record n hlive).ino
  obtain ⟨obj, hr, hino⟩ := hnamei k ⟨hI, .refl k⟩
  rw [nameiIno]
  rcases hn : namei e path 0 k with ⟨r, k'⟩
  rw [hn] at hr hino
  subst hr
  exact congrArg some hino

/-- A state of a run from the mount of a consistent volume on. There is memory for what is
allocated, and the cache has three entries. -/
structure RunOn (e : Env) (d : Dev) (k : Kernel) : Prop where
  steady : Steady e
  memory : ∀ t, e.mallocOk t = true
  entries : 3 ≤ numEntries e.sbi.sBlockShift
  mounted : ∃ names k₀, Consistent e (d.image e) names ∧ fsInit e d = some k₀ ∧
    Reach (StepOf (volumeStep e)) (VolumeOk e) k₀ k

theorem RunOn.sane (h : RunOn e d k) : Sane e k := by
  obtain ⟨names, k₀, hcons, hinit, hrun⟩ := h.mounted
  exact sane_of_run h.steady h.memory h.entries (sane_fsInit h.steady hcons hinit) hrun

theorem RunOn.step (h : RunOn e d k) {call : VolumeCall} (hok : VolumeOk e k call) :
    RunOn e d (volumeRun e call k) := by
  obtain ⟨names, k₀, hcons, hinit, hrun⟩ := h.mounted
  exact { h with mounted := ⟨names, k₀, hcons, hinit, hrun.step hok rfl⟩ }

/-- **The volume stays consistent.** -/
theorem RunOn.consistent (h : RunOn e d k) : ∃ names, Consistent e (k.dev.image e) names :=
  (h.sane.onDisk h.steady.geometry).2.1

/-! ### The volume with one file -/

/-- The names of the volume with the file `a`. -/
def filedNames : NameTable :=
  Function.update (fun _ _ => none) 1 fun a =>
    if a = dot ∨ a = dot ++ dot then some 1 else if a = [97] then some 2 else none

/-- What the image says of the volume. -/
theorem filed_facts : (∀ n < 17, 1 ≤ n ∧ filedImage.inodeUsed n = true ↔ n = 1 ∨ n = 2) ∧
    (∀ b < 32, 6 ≤ b ∧ filedImage.blockUsed b = true ↔ b = 6 ∨ b = 7) ∧
    (filedImage.inode 1).iSize =
      sizeofDirEntry * liveCount (Env.quiet (smallSbi 9)) filedImage (filedImage.inode 1) := by
  decide +kernel

theorem inUse_filed {n : ℕ} : n ∈ InUse (Env.quiet (smallSbi 9)) filedImage ↔ n = 1 ∨ n = 2 := by
  have hall := filed_facts.1
  constructor
  · rintro ⟨⟨h1, h16⟩, hused⟩
    exact (hall n (Nat.lt_succ_of_le h16)).mp ⟨h1, hused⟩
  · intro hn
    have hlt : n < 17 := by omega
    obtain ⟨h1, hused⟩ := (hall n hlt).mpr hn
    exact ⟨⟨h1, Nat.le_of_lt_succ hlt⟩, hused⟩

theorem mem_blockList_filed {n b : ℕ} (hn : n = 1 ∨ n = 2) :
    b ∈ (filedImage.inode n).blockList ↔ b = n + 5 := by
  have hlist : ∀ n, n = 1 ∨ n = 2 → (filedImage.inode n).blockList = [n + 5] := by
    rintro n (rfl | rfl) <;> decide
  rw [hlist n hn, List.mem_singleton]

theorem recorded_filed {n : ℕ} (hn : n = 1 ∨ n = 2) :
    Recorded (Env.quiet (smallSbi 9)) n (filedImage.inode n) := by
  have hblocks : (filedImage.inode n).blocks = 1 := by
    rcases hn with rfl | rfl <;> decide
  refine ⟨⟨fun j k hjk hj => ?_, fun k hk => ?_, fun i hi j hj _ => ?_⟩, ?_,
    recordAt_words _ _ (by omega), ?_⟩
  · by_contra hk
    obtain rfl := (filedImage_words hn hk).1
    exact hk (Nat.le_zero.mp hjk ▸ hj)
  · have hne := Inode.getD_ne hk
    rw [(filedImage_words hn hne).2]
    rcases hn with rfl | rfl
    · exact show 6 ≤ 6 ∧ 6 < 32 by decide
    · exact show 6 ≤ 7 ∧ 7 < 32 by decide
  · omega
  · rcases hn with rfl | rfl <;> decide
  · rcases hn with rfl | rfl <;> rfl

theorem isDir_filed {n : ℕ} : IsDir (Env.quiet (smallSbi 9)) filedImage n ↔ n = 1 := by
  constructor
  · intro hn
    rcases inUse_filed.mp hn.live with rfl | rfl
    · rfl
    · have hmode : (filedImage.inode 2).iMode ≠ TFS_DIR := by decide
      exact absurd hn.mode hmode
  · rintro rfl
    exact isDir_of_live (inUse_filed.mpr (.inl rfl)) (by decide)

theorem stored_filed : Stored (Env.quiet (smallSbi 9)) filedImage filedNames := by
  refine ⟨dirReady_filed.fits, fun n hn => recorded_filed (inUse_filed.mp hn), ?_, fun n hn => ?_,
    fun n a c hc => ?_⟩
  · refine Ledger.exact_of_iff (fun b => ?_) fun i hi j hj b hb hb' => ?_
    · have hall := filed_facts.2.1
      constructor
      · rintro ⟨⟨h6, h32⟩, hused⟩
        rcases (hall b h32).mp ⟨h6, hused⟩ with rfl | rfl
        · exact ⟨1, inUse_filed.mpr (.inl rfl), (mem_blockList_filed (.inl rfl)).mpr rfl⟩
        · exact ⟨2, inUse_filed.mpr (.inr rfl), (mem_blockList_filed (.inr rfl)).mpr rfl⟩
      · rintro ⟨n, hn, hb⟩
        have hn := inUse_filed.mp hn
        have hb := (mem_blockList_filed hn).mp hb
        obtain ⟨h6, hused⟩ := (hall b (by omega)).mpr (by omega)
        exact ⟨⟨h6, show b < 32 by omega⟩, hused⟩
    · have hi := (mem_blockList_filed (inUse_filed.mp hi)).mp hb
      have hj := (mem_blockList_filed (inUse_filed.mp hj)).mp hb'
      omega
  · obtain rfl := isDir_filed.mp hn
    refine ⟨⟨once_filed, fun a _ c => ?_⟩, ⟨rfl, filed_facts.2.2⟩, by decide⟩
    have hlists : Lists (dirTable (Env.quiet (smallSbi 9)) filedImage (filedImage.inode 1)) a c ↔
        (a, c) ∈ filedEntries := by
      rw [List.mem_iff_getElem?]
      exact exists_congr fun j => by rw [← dirTable_filed]; rfl
    rw [hlists]
    change filedNames 1 a = some c ↔ _
    rw [filedNames, Function.update_self]
    by_cases hdots : a = dot ∨ a = dot ++ dot
    · rw [if_pos hdots]
      rcases hdots with rfl | rfl <;> simp [filedEntries, dot, eq_comm]
    · rw [if_neg hdots]
      obtain ⟨h1, h2⟩ := not_or.mp hdots
      rcases eq_or_ne a [97] with rfl | ha
      · simp [filedEntries, dot, eq_comm]
      · simp [filedEntries, h1, h2, ha]
  · rw [filedNames] at hc
    rcases eq_or_ne n 1 with rfl | hn
    · exact isDir_filed.mpr rfl
    · rw [Function.update_of_ne hn] at hc
      cases hc

theorem filedNames_dots {a : List UInt8} (ha : a = dot ∨ a = dot ++ dot) :
    filedNames 1 a = some 1 := by
  rw [filedNames, Function.update_self, if_pos ha]

theorem downward_filed {n c : ℕ} {a : List UInt8} :
    downward filedNames n a = some c ↔ n = 1 ∧ a = [97] ∧ c = 2 := by
  rw [downward_eq_some_iff, filedNames]
  rcases eq_or_ne n 1 with rfl | hn
  · rw [Function.update_self]
    constructor
    · rintro ⟨hne, ha⟩
      rw [if_neg (not_or.mpr hne)] at ha
      by_cases h97 : a = [97]
      · rw [if_pos h97] at ha
        exact ⟨rfl, h97, (Option.some.inj ha).symm⟩
      · rw [if_neg h97] at ha
        cases ha
    · rintro ⟨-, rfl, rfl⟩
      exact ⟨by decide, by decide⟩
  · rw [Function.update_of_ne hn]
    exact iff_of_false (fun h => by cases h.2) fun h => hn h.1

theorem consistent_filed : Consistent (Env.quiet (smallSbi 9)) filedImage filedNames := by
  refine ⟨stored_filed, ⟨inUse_filed.mpr (.inl rfl), fun d a c hc => ?_,
    fun d a d' a' c hc hc' => ?_, fun c hc => ?_⟩, by decide, fun n hn => ?_⟩
  · obtain ⟨rfl, rfl, rfl⟩ := downward_filed.mp hc
    exact ⟨inUse_filed.mpr (.inl rfl), inUse_filed.mpr (.inr rfl), by decide⟩
  · obtain ⟨rfl, rfl, -⟩ := downward_filed.mp hc
    obtain ⟨rfl, rfl, -⟩ := downward_filed.mp hc'
    exact ⟨rfl, rfl⟩
  · rcases inUse_filed.mp hc with rfl | rfl
    · exact .refl
    · exact .single ⟨[97], downward_filed.mpr ⟨rfl, rfl, rfl⟩⟩
  · obtain rfl := isDir_filed.mp hn
    exact ⟨filedNames_dots (.inl rfl), 1, filedNames_dots (.inr rfl), .inl ⟨rfl, rfl⟩⟩

/-- The volume is consistent as it is on the disk. -/
theorem consistent_diskOf_filed :
    Consistent (Env.quiet (smallSbi 9)) ((diskOf filedBlock).image (Env.quiet (smallSbi 9)))
      filedNames := by
  have himage := imageOn_mount (e := Env.quiet (smallSbi 9)) geometry_small (diskOf filedBlock)
  exact consistent_filed.congr geometry_small (imageOn_filed.same geometry_small himage)

/-- The volume is mounted. -/
def mountedKernel : Kernel :=
  (fsInit (Env.quiet (smallSbi 9)) (diskOf filedBlock)).getD filedKernel

theorem fsInit_filed :
    fsInit (Env.quiet (smallSbi 9)) (diskOf filedBlock) = some mountedKernel := by
  have h : (fsInit (Env.quiet (smallSbi 9)) (diskOf filedBlock)).isSome = true := by decide +kernel
  rw [mountedKernel]
  cases hk : fsInit (Env.quiet (smallSbi 9)) (diskOf filedBlock) with
  | none => exact absurd (hk ▸ h) (by decide)
  | some k => rfl

/-- What the kernel holds of the volume. -/
theorem mounted_facts :
    (mountedKernel.root = 0 ∧ mountedKernel.pwd = 0 ∧ (mountedKernel.objs 0).iIno = 1) ∧
    ((mountedKernel.dev.image (Env.quiet (smallSbi 9))).inodeUsed 1 = true ∧
      (mountedKernel.dev.dirAt (Env.quiet (smallSbi 9)) 1).iMode = TFS_DIR) ∧
    3 ≤ slots (Env.quiet (smallSbi 9)) (mountedKernel.dev.dirAt (Env.quiet (smallSbi 9)) 1) ∧
    ∀ j < 3, slotName (Env.quiet (smallSbi 9))
        (mountedKernel.dev.image (Env.quiet (smallSbi 9))).data
        (mountedKernel.dev.dirAt (Env.quiet (smallSbi 9)) 1) j = (filedEntries.getD j (dot, 1)).1 ∧
      slotIno (Env.quiet (smallSbi 9)) (mountedKernel.dev.image (Env.quiet (smallSbi 9))).data
        (mountedKernel.dev.dirAt (Env.quiet (smallSbi 9)) 1) j =
          (filedEntries.getD j (dot, 1)).2 := by
  decide +kernel

theorem isDir_mounted :
    IsDir (Env.quiet (smallSbi 9)) (mountedKernel.dev.image (Env.quiet (smallSbi 9))) 1 :=
  ⟨show 1 ≤ 1 ∧ 1 ≤ 16 by decide, mounted_facts.2.1.1, mounted_facts.2.1.2⟩

/-- Entries with different names are found by them. -/
theorem namedAt_of_entries {e : Env} {I : Image} {P : Inode} {entries : List (List UInt8 × ℕ)}
    {j t : ℕ} (hlt : t ≤ slots e P) (hslots : ∀ j < t,
      slotName e I.data P j = (entries.getD j (dot, 1)).1 ∧
      slotIno e I.data P j = (entries.getD j (dot, 1)).2)
    (hne : ∀ j < t, (entries.getD j (dot, 1)).2 ≠ 0)
    (hapart : ∀ j < t, ∀ i < j, (entries.getD i (dot, 1)).1 ≠ (entries.getD j (dot, 1)).1)
    (hj : j < t) : NamedAt e I P (entries.getD j (dot, 1)).1 j (entries.getD j (dot, 1)).2 := by
  obtain ⟨hname, hino⟩ := hslots j hj
  refine ⟨⟨Nat.zero_le j, hj.trans_le hlt, slotNamed_iff.mpr ⟨hino ▸ hne j hj, hname⟩,
    fun i _ hi hname' => hapart j hj i hi ?_⟩, hino⟩
  exact (hslots i (hi.trans hj)).1.symm.trans (slotNamed_iff.mp hname').2

/-- The entries of the root are those of the table. -/
theorem namedAt_mounted {j : ℕ} (hj : j < 3) : NamedAt (Env.quiet (smallSbi 9))
    (mountedKernel.dev.image (Env.quiet (smallSbi 9)))
    (mountedKernel.dev.dirAt (Env.quiet (smallSbi 9)) 1) (filedEntries.getD j (dot, 1)).1 j
    (filedEntries.getD j (dot, 1)).2 :=
  namedAt_of_entries mounted_facts.2.2.1 mounted_facts.2.2.2 (by decide) (by decide) hj

theorem start_mounted (path : List UInt8) :
    (mountedKernel.objs (startObj mountedKernel path)).iIno = 1 := by
  obtain ⟨⟨hroot, hpwd, hino⟩, -⟩ := mounted_facts
  rw [startObj, hroot, hpwd, ite_self]
  exact hino

/-- The path `a` leads to the file. -/
theorem leadsTo_mounted : LeadsTo (Env.quiet (smallSbi 9)) mountedKernel 0 [97] (.inode 2) := by
  refine ⟨⟨by simp, by decide⟩, ?_⟩
  rw [start_mounted]
  exact .into (fun hflag => by cases hflag) isDir_mounted (by decide)
    (namedAt_mounted (j := 2) (by decide)) (.stop 2)

/-- So do `/./a` and `/../a`. -/
theorem leadsTo_dots :
    LeadsTo (Env.quiet (smallSbi 9)) mountedKernel 0 [47, 46, 47, 97] (.inode 2) ∧
      LeadsTo (Env.quiet (smallSbi 9)) mountedKernel 0 [47, 46, 46, 47, 97] (.inode 2) := by
  refine ⟨⟨⟨by simp, by decide⟩, ?_⟩, ⟨by simp, by decide⟩, ?_⟩
  · rw [start_mounted]
    exact .into (fun hflag => by cases hflag) isDir_mounted (by decide)
      (namedAt_mounted (j := 0) (by decide)) <|
        .into (fun hflag => by cases hflag) isDir_mounted (by decide)
          (namedAt_mounted (j := 2) (by decide)) (.stop 2)
  · rw [start_mounted]
    exact .into (fun hflag => by cases hflag) isDir_mounted (by decide)
      (namedAt_mounted (j := 1) (by decide)) <|
        .into (fun hflag => by cases hflag) isDir_mounted (by decide)
          (namedAt_mounted (j := 2) (by decide)) (.stop 2)

/-- The file is open. -/
def openedKernel : Kernel :=
  volumeRun (Env.quiet (smallSbi 9)) (.name (.open [97] 0)) mountedKernel

/-- Its descriptor is 0, its object 1. -/
theorem opened_facts :
    (openedKernel.files 0).map (fun f => (f.inode, f.offset)) = some (1, 0) ∧
    ((openedKernel.objs 1).iIno = 2 ∧ (openedKernel.objs 1).iMode ≠ TFS_DIR ∧
      1 ≤ (openedKernel.objs 1).blocks ∧
      (openedKernel.objs 1).iSize ≤ (openedKernel.objs 1).blocks * 512 ∧
      openedKernel.objs 1 = (openedKernel.dev.image (Env.quiet (smallSbi 9))).inode 2) ∧
    (openedKernel.dev.image (Env.quiet (smallSbi 9))).inodeUsed 2 = true ∧
    blocksFor (Env.quiet (smallSbi 9)) 512 (openedKernel.objs 1).iBlksize = 1 := by
  decide +kernel

theorem writeKeeps_opened (f : File) (hf : openedKernel.files (0 : ℤ).toNat = some f) :
    WriteKeeps (Env.quiet (smallSbi 9)) openedKernel f 512 := by
  obtain ⟨hfile, ⟨hino, hmode, hblocks, -, hcontents⟩, hused, hone⟩ := opened_facts
  rw [show (0 : ℤ).toNat = 0 from rfl] at hf
  rw [hf] at hfile
  obtain ⟨hobj, hoffset⟩ := Prod.mk.inj (Option.some.inj hfile)
  have hcount :
      f.offset >>> (Env.quiet (smallSbi 9)).sbi.sBlockShift + (toU32 (1 - 1) + 1) = 1 := by
    rw [hoffset]
    decide
  constructor
  · rw [hobj, hino]
    exact ⟨show 1 ≤ 2 ∧ 2 ≤ 16 by decide, hused⟩
  · rw [hobj, hino]
    exact hcontents
  · rw [hobj]
    exact hmode
  · rw [hoffset]
    exact Nat.zero_le _
  · intro _
    rw [hobj, hone]
    constructor
    · rw [hcount]
      decide
    · rw [hcount]
      exact hblocks.trans (Nat.le_add_right _ _)

theorem reach_volumeRun (e : Env) {k k₀ : Kernel} {ok : Kernel → VolumeCall → Prop}
    (h : Reach (StepOf (volumeStep e)) ok k₀ k) (call : VolumeCall) (hok : ok k call) :
    Reach (StepOf (volumeStep e)) ok k₀ (volumeRun e call k) :=
  h.step hok rfl

/-- A file that is there is opened. -/
theorem volumeOk_open {e : Env} {k : Kernel} {path : List UInt8} {n : ℕ}
    (h : LeadsTo e k 0 path (.inode n)) : VolumeOk e k (.name (.open path 0)) :=
  ⟨_, h, fun hflag => by cases hflag⟩

theorem volumeOk_write {e : Env} {k : Kernel} {fd size : ℤ} (buf : Buf)
    (h : ∀ f, k.files fd.toNat = some f → WriteKeeps e k f size) :
    VolumeOk e k (.write fd buf size) := h

theorem volumeOk_read {e : Env} {k : Kernel} {n : ℕ} (fd : ℤ) (buf : Buf) (size : ℤ) :
    VolumeOk e k (.read fd buf size) ∧ n ∉ changedBy e k (.read fd buf size) :=
  ⟨trivial, Set.notMem_empty n⟩

theorem reach_opened : Reach (StepOf (volumeStep (Env.quiet (smallSbi 9))))
    (VolumeOk (Env.quiet (smallSbi 9))) mountedKernel openedKernel :=
  reach_volumeRun _ .start _ (volumeOk_open leadsTo_mounted)

/-- A block of the file is written. -/
def writtenKernel : Kernel :=
  volumeRun (Env.quiet (smallSbi 9)) (.write 0 (fun _ => 7) 512) openedKernel

theorem reach_written : Reach (StepOf (volumeStep (Env.quiet (smallSbi 9))))
    (VolumeOk (Env.quiet (smallSbi 9))) mountedKernel writtenKernel :=
  reach_volumeRun _ reach_opened _ (volumeOk_write _ writeKeeps_opened)

theorem written_facts :
    (writtenKernel.dev.image (Env.quiet (smallSbi 9))).inodeUsed 2 = true ∧
      (writtenKernel.dev.dirAt (Env.quiet (smallSbi 9)) 2).iMode ≠ TFS_DIR := by
  decide +kernel

theorem runOn_mounted : RunOn (Env.quiet (smallSbi 9)) (diskOf filedBlock) mountedKernel :=
  ⟨steady_small, fun _ => rfl, by decide, _, _, consistent_diskOf_filed, fsInit_filed, .start⟩

theorem runOn_opened : RunOn (Env.quiet (smallSbi 9)) (diskOf filedBlock) openedKernel :=
  ⟨steady_small, fun _ => rfl, by decide, _, _, consistent_diskOf_filed, fsInit_filed, reach_opened⟩

theorem runOn_written :
    RunOn (Env.quiet (smallSbi 9)) (diskOf filedBlock) writtenKernel :=
  ⟨steady_small, fun _ => rfl, by decide, _, _, consistent_diskOf_filed, fsInit_filed,
    reach_written⟩

/-! ### What every run keeps -/

/-- A file that no call writes or removes is kept. -/
theorem Sane.fileKept_of_reach (hs : Steady e) (hmalloc : ∀ t, e.mallocOk t = true)
    (hentries : 3 ≤ numEntries e.sbi.sBlockShift) (h : Sane e k)
    (hn : n ∈ InUse e (k.dev.image e)) (hfile : (k.dev.dirAt e n).iMode ≠ TFS_DIR)
    (hrest : Reach (StepOf (volumeStep e))
      (fun k call => VolumeOk e k call ∧ n ∉ changedBy e k call) k k') :
    FileKept e (k.dev.image e) (k'.dev.image e) n := by
  have hstart : Sane e k ∧ FileKept e (k.dev.image e) (k.dev.image e) n :=
    ⟨h, hn, rfl, fun _ _ _ _ => rfl⟩
  refine (@Reach.invariant _ _ _ _ _ (fun k' => Sane e k' ∧
    FileKept e (k.dev.image e) (k'.dev.image e) n) hstart ?_ _ hrest).2
  rintro k₁ call k₂ ⟨h₁, hkept⟩ ⟨hok, hnot⟩ hstep
  obtain rfl := Option.some.inj hstep
  have hsince := volumeRun_since hs hmalloc hentries h₁ hok
  have hmode : (k₁.dev.dirAt e n).iMode ≠ TFS_DIR := by
    rw [Dev.dirAt, hkept.inode]
    exact hfile
  exact ⟨hsince.sane, hkept.trans (hsince.onDisk hs.geometry n hkept.live hmode hnot)⟩

end Thunix.Fs
