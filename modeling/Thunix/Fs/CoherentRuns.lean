import Thunix.Fs.CoherentOps
import Thunix.Fs.Syscall
import Thunix.Lib.Run

/-!
# Coherence along runs

The operations of the file system on inode objects keep the cache coherent, and so does
every run of them whose transfers are harmless
(`Thunix.Fs.cacheHolds_of_reach`). Without the condition a read that fails half way
is enough (`Thunix.Fs.not_cacheHolds`).
-/

namespace Thunix.Fs

open Traced

variable {e : Env} {α β : Type} {p : Prop}

/-! ### Inode objects -/

/-- The computation keeps the cache coherent. -/
def KeepsObj (e : Env) (x : KernelM α) : Prop :=
  Triple (fun k => k.dev.log) (Harmless e) (fun k => Coherent e k.dev) x fun _ k => Coherent e k.dev

theorem KeepsObj.pure (v : α) : KeepsObj e (pure v : KernelM α) := Triple.pure fun _ h => h

theorem KeepsObj.bind {x : KernelM α} {f : α → KernelM β} (hx : KeepsObj e x)
    (hf : ∀ v, KeepsObj e (f v)) : KeepsObj e (x >>= f) := Triple.bind hx hf

/-- A computation on the cache. -/
theorem Keeps.onDev {x : DevM α} (h : Keeps e x) : KeepsObj e (onDev x) :=
  Triple.zoom h (fun _ => rfl) fun _ => rfl

/-- A computation that leaves the cache alone. -/
theorem KeepsObj.ofDev {x : KernelM α} (h : ∀ k, (x k).2.dev = k.dev) : KeepsObj e x :=
  .silent (fun k => by rw [h]) fun k hk => by rwa [h]

theorem touch_dev (obj : ℕ) (k : Kernel) : (touch obj k).2.dev = k.dev := by
  unfold touch
  split <;> rfl

theorem freeObj_dev (obj : ℕ) (k : Kernel) : (freeObj obj k).2.dev = k.dev := by
  unfold freeObj
  split <;> rfl

theorem keepsObj_touch (obj : ℕ) : KeepsObj e (touch obj) := .ofDev (touch_dev obj)

theorem keepsObj_inodeAt (obj : ℕ) : KeepsObj e (inodeAt obj) :=
  .ofDev fun k => touch_dev obj k

theorem keepsObj_setInode (obj : ℕ) (inode : Inode) : KeepsObj e (setInode obj inode) :=
  .ofDev fun k => touch_dev obj k

theorem keepsObj_freeObj (obj : ℕ) : KeepsObj e (freeObj obj) := .ofDev (freeObj_dev obj)

theorem keepsObj_freeInode (obj : ℕ) : KeepsObj e (freeInode obj) := by
  refine (keepsObj_touch obj).bind fun _ => .ofDev fun k => ?_
  split
  · rfl
  · exact freeObj_dev obj k

theorem keepsObj_newInode (mode : ℤ) : KeepsObj e (newInode e mode) := by
  refine keeps_mallocOk.onDev.bind fun ok => .ite (fun _ => KeepsObj.pure _) fun _ => ?_
  refine keeps_mallocOk.onDev.bind fun ok => .ite (fun _ => KeepsObj.pure _) fun _ => ?_
  exact KeepsObj.ofDev fun _ => rfl

theorem keepsObj_tfsNewInode (hm : Mounted e.sbi) (dir : ℕ) (mode : ℤ) :
    KeepsObj e (tfsNewInode e dir mode) := by
  refine (keepsObj_newInode mode).bind fun r => ?_
  cases r with
  | none => exact KeepsObj.pure _
  | some obj =>
    refine (keepsObj_inodeAt dir).bind fun dirInode => ?_
    refine (keeps_tfsAllocInode hm).onDev.bind fun inr => ?_
    refine .ite (fun _ => (keepsObj_freeObj obj).bind fun _ => KeepsObj.pure _) fun _ => ?_
    exact (keepsObj_inodeAt obj).bind fun _ => (keepsObj_setInode obj _).bind fun _ =>
      KeepsObj.pure _

theorem keepsObj_tfsIgetByInr (hm : Mounted e.sbi) (inr : ℤ) :
    KeepsObj e (tfsIgetByInr e inr) := by
  refine (keeps_tfsReadInode hm inr).onDev.bind fun tinode => ?_
  refine (keepsObj_newInode 0).bind fun r => ?_
  cases r with
  | none => exact KeepsObj.pure _
  | some obj => exact (keepsObj_setInode obj _).bind fun _ => KeepsObj.pure _

theorem keeps_entryInr (de : ℕ) : Keeps e (entryInr de) := .silent (fun _ => rfl) fun _ h => h

/-- The entry found, for what follows. -/
theorem findEntry_obj (hm : Mounted e.sbi) (inode : Inode) (dname : List UInt8) :
    Triple (fun k : Kernel => k.dev.log) (Harmless e) (fun k => Coherent e k.dev)
      (onDev (tfsFindEntry e inode dname)) fun r k =>
        Coherent e k.dev ∧ ∀ cs de, r = .found cs de → InBuffer e cs de :=
  Triple.zoom (tfsFindEntry_triple hm inode dname) (fun _ => rfl) fun _ => rfl

theorem keepsObj_tfsFindEntry (hm : Mounted e.sbi) (inode : Inode) (dname : List UInt8) :
    KeepsObj e (onDev (tfsFindEntry e inode dname)) :=
  (findEntry_obj hm inode dname).conseq (fun _ h => h) fun _ _ h => h.1

theorem keepsObj_tfsIget (hm : Mounted e.sbi) (dname : List UInt8) (dir : ℕ) :
    KeepsObj e (tfsIget e dname dir) := by
  refine (keepsObj_inodeAt dir).bind fun inode => ?_
  refine (keepsObj_tfsFindEntry hm inode dname).bind fun r => ?_
  cases r with
  | null => exact KeepsObj.pure _
  | err err => exact KeepsObj.pure _
  | found cs de =>
    refine (keepsObj_touch dir).bind fun _ => (keeps_entryInr de).onDev.bind fun inr => ?_
    exact keepsObj_tfsIgetByInr hm inr

theorem keeps_releaseLoop (hm : Mounted e.sbi) (inode : Inode) (n index : ℕ) (res : ℤ) :
    Keeps e (releaseLoop e inode n index res) := by
  induction n generalizing index res with
  | zero => exact Keeps.pure _
  | succ n ih =>
    refine .ite (fun _ => Keeps.pure _) fun _ => (keeps_tfsFreeBlock hm _).bind fun res => ?_
    exact .ite (fun _ => Keeps.pure _) fun _ => ih _ _

theorem keepsObj_tfsReleaseInode (hm : Mounted e.sbi) (obj : ℕ) :
    KeepsObj e (tfsReleaseInode e obj) := by
  refine (keepsObj_inodeAt obj).bind fun inode => ?_
  refine (keeps_tfsFreeInode hm _).onDev.bind fun res => ?_
  refine .ite (fun _ => KeepsObj.pure _) fun _ => (keepsObj_inodeAt obj).bind fun inode => ?_
  refine (keeps_releaseLoop hm inode _ _ _).onDev.bind fun res => ?_
  exact (keepsObj_freeInode obj).bind fun _ => KeepsObj.pure _

theorem keepsObj_iwriteObj (hm : Mounted e.sbi) (obj : ℕ) : KeepsObj e (iwriteObj e obj) :=
  (keepsObj_inodeAt obj).bind fun inode => (keeps_tfsIwrite hm inode).onDev

theorem keepsObj_addEntryObj (hm : Mounted e.sbi) (dir : ℕ) (name : List UInt8) (inr : ℕ) :
    KeepsObj e (addEntryObj e dir name inr) := by
  refine (keepsObj_inodeAt dir).bind fun inode => ?_
  refine (keeps_tfsAddEntry hm inode name _ _).onDev.bind fun ⟨err, inode, dirty⟩ => ?_
  exact (keepsObj_setInode dir inode).bind fun _ => KeepsObj.pure _

theorem keepsObj_enterInode (hm : Mounted e.sbi) (dir : ℕ) (dname : List UInt8) (obj : ℕ) :
    KeepsObj e (enterInode e dir dname obj) := by
  refine (keepsObj_iwriteObj hm obj).bind fun r => .ite (fun _ => KeepsObj.pure _) fun _ => ?_
  refine (keepsObj_inodeAt obj).bind fun inode => ?_
  refine (keepsObj_addEntryObj hm dir dname _).bind fun ⟨err, dirty⟩ => ?_
  refine .ite (fun _ => KeepsObj.pure _) fun _ => .ite (fun _ => ?_) fun _ => KeepsObj.pure _
  refine (keepsObj_iwriteObj hm dir).bind fun r => ?_
  exact .ite (fun _ => KeepsObj.pure _) fun _ => KeepsObj.pure _

theorem keepsObj_makeEntry (hm : Mounted e.sbi) (dir : ℕ) (dname : List UInt8) (mode : ℤ) :
    KeepsObj e (makeEntry e dir dname mode) := by
  refine (keepsObj_tfsNewInode hm dir mode).bind fun r => ?_
  cases r with
  | error err => exact KeepsObj.pure _
  | ok obj =>
    refine (keepsObj_enterInode hm dir dname obj).bind fun err => ?_
    refine .ite (fun _ => ?_) fun _ => KeepsObj.pure _
    exact (keepsObj_freeInode obj).bind fun _ => KeepsObj.pure _

theorem keepsObj_tfsMknod (hm : Mounted e.sbi) (dir : ℕ) (dname : List UInt8) (mode : ℤ) :
    KeepsObj e (tfsMknod e dir dname mode) := by
  refine (keepsObj_inodeAt dir).bind fun inode => ?_
  refine (keepsObj_tfsFindEntry hm inode dname).bind fun r => ?_
  cases r with
  | null => exact keepsObj_makeEntry hm dir dname mode
  | err err => exact keepsObj_makeEntry hm dir dname mode
  | found cs de => exact KeepsObj.pure _

theorem keepsObj_enterDots (hm : Mounted e.sbi) (dir parentDir : ℕ) :
    KeepsObj e (enterDots e dir parentDir) := by
  refine (keepsObj_inodeAt dir).bind fun inode => ?_
  refine (keepsObj_addEntryObj hm dir dot _).bind fun ⟨err, _⟩ => ?_
  refine .ite (fun _ => KeepsObj.pure _) fun _ => (keepsObj_inodeAt parentDir).bind fun parent => ?_
  refine (keepsObj_addEntryObj hm dir (dot ++ dot) _).bind fun ⟨err, dirty⟩ => ?_
  refine .ite (fun _ => KeepsObj.pure _) fun _ => ?_
  exact .ite (fun _ => keepsObj_iwriteObj hm dir) fun _ => KeepsObj.pure _

theorem keepsObj_tfsMkdir (hm : Mounted e.sbi) (parentDir : ℕ) (dname : List UInt8) :
    KeepsObj e (tfsMkdir e parentDir dname) := by
  refine (keepsObj_tfsMknod hm parentDir dname TFS_DIR).bind fun r => ?_
  cases r with
  | error err => exact (keepsObj_freeInode parentDir).bind fun _ => KeepsObj.pure _
  | ok dir =>
    refine (keepsObj_enterDots hm dir parentDir).bind fun err => ?_
    refine (keepsObj_freeInode dir).bind fun _ => (keepsObj_freeInode parentDir).bind fun _ => ?_
    exact KeepsObj.pure _

/-! ### Removing entries -/

/-- The block of the entry is asked for by its label at that time. -/
theorem clearEntry_coherent {cs : CacheRef} {de : ℕ} : Triple Dev.log (Harmless e)
    (fun d => Coherent e d ∧ InBuffer e cs de) (clearEntry e cs de) fun _ d => Coherent e d := by
  have hpre : ∀ d, Coherent e d ∧ InBuffer e cs de →
      ∃ ba : ℕ × ℕ, Changed e cs ba.1 ba.2 d ∧ ba.2 ≤ de ∧ de + 4 ≤ ba.2 + e.sbi.sBlockSize := by
    rintro d ⟨hco, i, hi, hcs, hlo, hhi⟩
    exact ⟨(d.label i, i * e.sbi.sBlockSize), ⟨i, hi, hcs, rfl, rfl, hco.but i⟩, hlo,
      le_trans (Nat.add_le_add_left (by decide) de) hhi⟩
  refine (Triple.exists fun ba : ℕ × ℕ => ?_).conseq hpre fun _ _ h => h
  refine copyIn_changed.bind fun _ => ?_
  have hblock : Triple Dev.log (Harmless e) (Changed e cs ba.1 ba.2) (blockOf cs)
      fun b d => Changed e cs b ba.2 d :=
    .silent (fun _ => rfl) fun d ⟨i, hi, hcs, ha, hlab, hco⟩ =>
      ⟨i, hi, hcs, ha, by rw [hcs]; rfl, hco⟩
  exact hblock.bind fun _ => dataPtr_changed.bind fun _ => tfsBwrite_coherent

theorem clearEntry_obj {cs : CacheRef} {de : ℕ} :
    Triple (fun k : Kernel => k.dev.log) (Harmless e)
      (fun k => Coherent e k.dev ∧ InBuffer e cs de) (onDev (clearEntry e cs de))
      fun _ k => Coherent e k.dev :=
  Triple.zoom clearEntry_coherent (fun _ => rfl) fun _ => rfl

theorem keepsObj_giveUp (obj : ℕ) (err : ℤ) : KeepsObj e (giveUp obj err) :=
  (keepsObj_freeInode obj).bind fun _ => KeepsObj.pure _

theorem removeEntry_coherent (hm : Mounted e.sbi) (dir obj : ℕ) (cs : CacheRef) (de : ℕ) :
    Triple (fun k : Kernel => k.dev.log) (Harmless e)
      (fun k => Coherent e k.dev ∧ InBuffer e cs de) (removeEntry e dir obj cs de)
      fun _ k => Coherent e k.dev := by
  refine (keepsObj_inodeAt dir).frame.bind fun inode => ?_
  refine (keepsObj_setInode dir _).frame.bind fun _ => ?_
  refine (keepsObj_iwriteObj hm dir).frame.bind fun err => ?_
  refine .ite (fun _ => (keepsObj_giveUp obj err).conseq (fun _ h => h.1) fun _ _ h => h)
    fun _ => ?_
  refine clearEntry_obj.bind fun err => ?_
  exact .ite (fun _ => keepsObj_giveUp obj err) fun _ => keepsObj_tfsReleaseInode hm obj

theorem keepsObj_withEntry (hm : Mounted e.sbi) (dir : ℕ) (dname : List UInt8)
    {f : ℕ → CacheRef → ℕ → KernelM ℤ}
    (hf : ∀ obj cs de, Triple (fun k : Kernel => k.dev.log) (Harmless e)
      (fun k => Coherent e k.dev ∧ InBuffer e cs de) (f obj cs de) fun _ k => Coherent e k.dev) :
    KeepsObj e (withEntry e dir dname f) := by
  refine (keepsObj_inodeAt dir).bind fun inode => (findEntry_obj hm inode dname).bind fun r => ?_
  cases r with
  | null => exact .pure fun _ h => h.1
  | err err => exact .pure fun _ h => h.1
  | found cs de =>
    refine Triple.conseq (P := fun k => Coherent e k.dev ∧ InBuffer e cs de) ?_
      (fun _ h => ⟨h.1, h.2 cs de rfl⟩) fun _ _ h => h
    refine (keeps_entryInr de).onDev.frame.bind fun inr => ?_
    refine (keepsObj_tfsIgetByInr hm inr).frame.bind fun r => ?_
    cases r with
    | error err => exact .pure fun _ h => h.1
    | ok obj => exact hf obj cs de

theorem keepsObj_tfsRmdir (hm : Mounted e.sbi) (dir : ℕ) (dname : List UInt8) :
    KeepsObj e (tfsRmdir e dir dname) := by
  refine keepsObj_withEntry hm dir dname fun obj cs de => ?_
  refine (keepsObj_inodeAt obj).frame.bind fun inode => ?_
  have hfree : ∀ err : ℤ, Triple (fun k : Kernel => k.dev.log) (Harmless e)
      (fun k => Coherent e k.dev ∧ InBuffer e cs de) (giveUp obj err)
      fun _ k => Coherent e k.dev := fun err =>
    (keepsObj_giveUp obj err).conseq (fun _ h => h.1) fun _ _ h => h
  refine .ite (fun _ => hfree _) fun _ => .ite (fun _ => hfree _) fun _ => ?_
  exact .ite (fun _ => hfree _) fun _ => removeEntry_coherent hm dir obj cs de

theorem keepsObj_tfsUnlink (hm : Mounted e.sbi) (dir : ℕ) (dname : List UInt8) :
    KeepsObj e (tfsUnlink e dir dname) := by
  refine keepsObj_withEntry hm dir dname fun obj cs de => ?_
  refine (keepsObj_inodeAt obj).frame.bind fun inode => ?_
  refine .ite (fun _ => ?_) fun _ => removeEntry_coherent hm dir obj cs de
  refine Triple.conseq ?_ (fun _ h => h.1) fun _ _ h => h
  exact keeps_uninitialised.onDev.bind fun err => keepsObj_giveUp obj err

/-! ### Runs -/

/-- The operations of the file system. Those on one inode are given any inode. -/
inductive TfsOp
  | getCacheBlock (block : ℕ)
  | allocBlock (target : ℕ)
  | freeBlock (block : ℕ)
  | allocInode
  | freeInode (inr : ℤ)
  | readInode (inr : ℤ)
  | iwrite (inode : Inode)
  | findEntry (dir : Inode) (dname : List UInt8)
  | addEntry (dir : Inode) (name : List UInt8) (inr : ℤ) (dirty : Bool)
  | readdir (dir : Inode) (offset : ℕ)
  | read (inode : Inode) (offset : ℕ) (buf : ℕ → UInt8) (blocks : ℤ)
  | write (inode : Inode) (offset : ℕ) (buf : ℕ → UInt8) (blocks : ℤ)
  | newInode (dir : ℕ) (mode : ℤ)
  | iget (dname : List UInt8) (dir : ℕ)
  | releaseInode (obj : ℕ)
  | mknod (dir : ℕ) (dname : List UInt8) (mode : ℤ)
  | mkdir (dir : ℕ) (dname : List UInt8)
  | rmdir (dir : ℕ) (dname : List UInt8)
  | unlink (dir : ℕ) (dname : List UInt8)

/-- What an operation does. -/
def tfsRun (e : Env) : TfsOp → Kernel → Kernel
  | .getCacheBlock block, k => (onDev (getCacheBlock e e.sbi block) k).2
  | .allocBlock target, k => (onDev (tfsAllocBlock e target) k).2
  | .freeBlock block, k => (onDev (tfsFreeBlock e block) k).2
  | .allocInode, k => (onDev (tfsAllocInode e TFS_ROOT_INODE) k).2
  | .freeInode inr, k => (onDev (tfsFreeInode e inr) k).2
  | .readInode inr, k => (onDev (tfsReadInode e inr) k).2
  | .iwrite inode, k => (onDev (tfsIwrite e inode) k).2
  | .findEntry dir dname, k => (onDev (tfsFindEntry e dir dname) k).2
  | .addEntry dir name inr dirty, k => (onDev (tfsAddEntry e dir name inr dirty) k).2
  | .readdir dir offset, k => (onDev (tfsReaddir e dir offset) k).2
  | .read inode offset buf blocks, k => (onDev (tfsRead e inode offset buf blocks) k).2
  | .write inode offset buf blocks, k => (onDev (tfsWrite e inode offset buf blocks) k).2
  | .newInode dir mode, k => (tfsNewInode e dir mode k).2
  | .iget dname dir, k => (tfsIget e dname dir k).2
  | .releaseInode obj, k => (tfsReleaseInode e obj k).2
  | .mknod dir dname mode, k => (tfsMknod e dir dname mode k).2
  | .mkdir dir dname, k => (tfsMkdir e dir dname k).2
  | .rmdir dir dname, k => (tfsRmdir e dir dname k).2
  | .unlink dir dname, k => (tfsUnlink e dir dname k).2

/-- What an operation adds to the log is harmless. -/
def HarmlessOp (e : Env) (k : Kernel) (op : TfsOp) : Prop :=
  AllOk (Harmless e) k.dev.log ((tfsRun e op k).dev.log.drop k.dev.log.length)

instance {k : Kernel} {op : TfsOp} : Decidable (HarmlessOp e k op) :=
  inferInstanceAs (Decidable (AllOk _ _ _))

/-- A harmless operation keeps what it keeps under the condition. -/
theorem KeepsObj.coherent {x : KernelM α} (h : KeepsObj e x) {k : Kernel}
    (hk : Coherent e k.dev)
    (hok : AllOk (Harmless e) k.dev.log ((x k).2.dev.log.drop k.dev.log.length)) :
    Coherent e (x k).2.dev := by
  obtain ⟨es, hes, hq⟩ := h k
  refine hq hk ?_
  rwa [show (x k).2.dev.log = k.dev.log ++ es from hes, List.drop_left] at hok

/-- **A step keeps the cache coherent.** -/
theorem tfsRun_coherent (hm : Mounted e.sbi) {k : Kernel} {op : TfsOp} (hk : Coherent e k.dev)
    (hok : HarmlessOp e k op) : Coherent e (tfsRun e op k).dev := by
  have hget : ∀ block, Keeps e (getCacheBlock e e.sbi block) := fun block =>
    (getCacheBlock_coherent hm e.sbi block).conseq (fun _ h => h) fun _ _ h => h.1
  cases op with
  | getCacheBlock block => exact (hget block).onDev.coherent hk hok
  | allocBlock target => exact (keeps_tfsAllocBlock hm target).onDev.coherent hk hok
  | freeBlock block => exact (keeps_tfsFreeBlock hm block).onDev.coherent hk hok
  | allocInode => exact (keeps_tfsAllocInode hm).onDev.coherent hk hok
  | freeInode inr => exact (keeps_tfsFreeInode hm inr).onDev.coherent hk hok
  | readInode inr => exact (keeps_tfsReadInode hm inr).onDev.coherent hk hok
  | iwrite inode => exact (keeps_tfsIwrite hm inode).onDev.coherent hk hok
  | findEntry dir dname => exact (keepsObj_tfsFindEntry hm dir dname).coherent hk hok
  | addEntry dir name inr dirty =>
    exact (keeps_tfsAddEntry hm dir name inr dirty).onDev.coherent hk hok
  | readdir dir offset => exact (keeps_tfsReaddir hm dir offset).onDev.coherent hk hok
  | read inode offset buf blocks =>
    exact (keeps_tfsRead hm inode offset buf blocks).onDev.coherent hk hok
  | write inode offset buf blocks =>
    exact (keeps_tfsWrite hm inode offset buf blocks).onDev.coherent hk hok
  | newInode dir mode => exact (keepsObj_tfsNewInode hm dir mode).coherent hk hok
  | iget dname dir => exact (keepsObj_tfsIget hm dname dir).coherent hk hok
  | releaseInode obj => exact (keepsObj_tfsReleaseInode hm obj).coherent hk hok
  | mknod dir dname mode => exact (keepsObj_tfsMknod hm dir dname mode).coherent hk hok
  | mkdir dir dname => exact (keepsObj_tfsMkdir hm dir dname).coherent hk hok
  | rmdir dir dname => exact (keepsObj_tfsRmdir hm dir dname).coherent hk hok
  | unlink dir dname => exact (keepsObj_tfsUnlink hm dir dname).coherent hk hok

/-- The step of a run. -/
def tfsStep (e : Env) (k : Kernel) (op : TfsOp) : Option Kernel := some (tfsRun e op k)

/-- **The cache holds what it should** in every state of a run, from the set-up of the
cache on, whose transfers are all harmless. -/
theorem cacheHolds_of_reach {super : TfsSuperBlock} (hmount : tfsMount super = some e.sbi)
    (lo : 9 ≤ super.sBlockShift) (hi : super.sBlockShift ≤ 14) {k₀ k : Kernel} (d : Dev)
    (hstart : k₀.dev = cacheInit e.sbi.sBlockShift d)
    (h : Reach (StepOf (tfsStep e)) (HarmlessOp e) k₀ k) : CacheHolds e k.dev := by
  have hm := mounted_of_tfsMount hmount lo hi
  have hco : Coherent e k.dev := by
    refine @Reach.invariant _ _ _ _ _ (fun k => Coherent e k.dev) ?_
      (fun s op s' hs hok hstep => ?_) _ h
    · rw [hstart]
      exact coherent_cacheInit hm d
    · obtain rfl := Option.some.inj hstep
      exact tfsRun_coherent hm hs hok
  exact hco.cacheHolds

/-- A disk whose sectors differ. -/
def numberedDisk : Dev := { Dev.blank with disk := fun sector _ => UInt8.ofNat sector }

/-- The small volume, with one sector that cannot be transferred. -/
def oneError (shift tick : ℕ) : Env :=
  { Env.quiet (smallSbi shift) with
    transfer := fun t => if t = tick then .ioError else .done }

/-- The first read fails when the entry is still empty; everything after it succeeds. -/
theorem cacheHolds_of_reach_retry :
    ∃ k, runOf (tfsStep (oneError 10 1)) (HarmlessOp (oneError 10 1))
        [.getCacheBlock 3, .allocBlock 6, .iwrite { newInodeValue 1 with iIno := 3 }, .freeBlock 6]
        (bootKernel (oneError 10 1) numberedDisk) = some k ∧
      k.dev.log.length = 8 ∧ CacheHolds (oneError 10 1) k.dev := by
  have hsome : ((runOf (tfsStep (oneError 10 1)) (HarmlessOp (oneError 10 1))
      [.getCacheBlock 3, .allocBlock 6, .iwrite { newInodeValue 1 with iIno := 3 }, .freeBlock 6]
      (bootKernel (oneError 10 1) numberedDisk)).map fun k => k.dev.log.length) = some 8 := by
    decide +kernel
  obtain ⟨k, hrun, hlen⟩ := Option.map_eq_some_iff.mp hsome
  refine ⟨k, hrun, hlen, ?_⟩
  exact cacheHolds_of_reach (show tfsMount (smallSuper 10) = _ from rfl) (by decide)
    (by decide) numberedDisk rfl
    (reach_of_runOf .start hrun)

/-- The first byte of a buffer that holds a content. -/
theorem Holds.head {n : ℕ} {f : Buf} {c : Option Buf} (h : Holds n f c) (hn : 0 < n) :
    c.map (· 0) = some (f 0) := by
  cases c with
  | none => exact absurd h id
  | some c => exact congrArg some (h 0 hn).symm

/-- The same of the first byte only. -/
theorem CacheHolds.head {d : Dev} (h : CacheHolds e d) (hn : 0 < e.sbi.sBlockSize) {i : ℕ}
    (hi : i < d.cacheEntries) (hlabel : d.label i ≠ emptyBlock) :
    (lastRead e (d.label i) d.log).map (· 0) = some (d.buf (d.dataOf i) 0) ∨
      ∃ ev ∈ d.log, (writeData (d.label i) ev).map (· 0) = some (d.buf (d.dataOf i) 0) := by
  rcases h i hi hlabel with hr | ⟨ev, hev, hw⟩
  · exact .inl (hr.head hn)
  · exact .inr ⟨ev, hev, hw.head hn⟩

/-- The blocks 10 and 11 fill the cache, and the read of block 12 fails after two
sectors. -/
def staleKernel : Kernel :=
  [TfsOp.getCacheBlock 10, .getCacheBlock 11, .getCacheBlock 12].foldl
    (fun k op => tfsRun (oneError 14 66) op k) (bootKernel (oneError 14 66) numberedDisk)

/-- The entry that holds block 10 keeps its label. -/
theorem staleKernel_holds :
    staleKernel.dev.label 0 ≠ emptyBlock ∧ 0 < staleKernel.dev.cacheEntries ∧
      (lastRead (oneError 14 66) (staleKernel.dev.label 0) staleKernel.dev.log).map (· 0) ≠
        some (staleKernel.dev.buf (staleKernel.dev.dataOf 0) 0) ∧
      ∀ ev ∈ staleKernel.dev.log, (writeData (staleKernel.dev.label 0) ev).map (· 0) ≠
        some (staleKernel.dev.buf (staleKernel.dev.dataOf 0) 0) := by
  decide +kernel

/-- **The cache does not always hold what it should.** -/
theorem not_cacheHolds :
    ¬∀ (e : Env) (super : TfsSuperBlock) (d : Dev) (k₀ k : Kernel),
      tfsMount super = some e.sbi → 9 ≤ super.sBlockShift → super.sBlockShift ≤ 14 →
      k₀.dev = cacheInit e.sbi.sBlockShift d →
      Reach (StepOf (tfsStep e)) (fun _ _ => True) k₀ k → CacheHolds e k.dev := by
  intro h
  have hreach : Reach (StepOf (tfsStep (oneError 14 66))) (fun _ _ => True)
      (bootKernel (oneError 14 66) numberedDisk) staleKernel :=
    ((Reach.start.step (a := .getCacheBlock 10) trivial rfl).step (a := .getCacheBlock 11)
      trivial rfl).step (a := .getCacheBlock 12) trivial rfl
  have hholds := h (oneError 14 66) (smallSuper 14) numberedDisk _ _ rfl (by decide) (by decide)
    rfl hreach
  obtain ⟨hlabel, hpos, hread, hwrite⟩ := staleKernel_holds
  rcases hholds.head (by decide) hpos hlabel with hr | ⟨ev, hev, hw⟩
  · exact hread hr
  · exact hwrite ev hev hw

end Thunix.Fs
