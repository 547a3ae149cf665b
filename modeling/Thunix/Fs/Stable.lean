import Thunix.Fs.Syscall
import Thunix.Lib.Hoare

/-!
# What the functions of the file system keep

The functions below the system calls change the state through a few primitives: they work on
the cache and the disk, make, change and free objects, and record faults. So a property that
these keep (`Thunix.Fs.Stable`) is kept by all of them. Such are the root, the current
directory, the descriptors and the open `DIR`s, taken together (`Thunix.Fs.stable_handles`):
they change at the end of a system call only, in the few lines that are about them. Another
is that every `i_size` fits its word (`Thunix.Fs.stable_sizes`).
-/

namespace Thunix.Fs

variable {α : Type}

/-- A property of the state that the primitives keep, when the sizes of the objects do. -/
structure Stable (Size : ℕ → Prop) (P : Kernel → Prop) : Prop where
  word : ∀ n < 2 ^ 32, Size n
  frame : ∀ k dev alive nextObj faults, P k → P { k with dev, alive, nextObj, faults }
  put : ∀ (k : Kernel) obj (inode : Inode), P k → Size inode.iSize →
    P { k with objs := Function.update k.objs obj inode }
  size : ∀ k obj, P k → Size (k.objs obj).iSize

/-! ### Sizes -/

/-- The inode has the size of another, or one that fits a word. -/
def Resized (inode inode' : Inode) : Prop := inode'.iSize = inode.iSize ∨ inode'.iSize < 2 ^ 32

theorem Resized.trans {inode inode' inode'' : Inode} (h : Resized inode inode')
    (h' : Resized inode' inode'') : Resized inode inode'' :=
  h'.elim (fun heq => h.imp heq.trans heq.trans_lt) .inr

theorem le32_lt (m : ℕ → UInt8) (a : ℕ) : le32 m a < 2 ^ 32 := by
  have h0 := (m a).toNat_lt
  have h1 := (m (a + 1)).toNat_lt
  have h2 := (m (a + 2)).toNat_lt
  have h3 := (m (a + 3)).toNat_lt
  unfold le32
  omega

variable {e : Env}

theorem putEntry_resized (dir : Inode) (name : List UInt8) (inr : ℤ) (block : ℕ) (cs : CacheRef)
    (de : ℕ) :
    Hoare (fun _ => True) (putEntry e dir name inr block cs de) fun r _ => Resized dir r.2.1 := by
  have hlt : (dir.iSize + sizeofDirEntry) % 2 ^ 32 < 2 ^ 32 := Nat.mod_lt _ (by decide)
  refine Hoare.any.bind fun _ => Hoare.any.bind fun _ => Hoare.any.bind fun _ => ?_
  exact .ite (fun _ => .pure fun _ _ => .inr hlt) fun _ => .pure fun _ _ => .inr hlt

theorem tfsAddEntry_resized (dir : Inode) (name : List UInt8) (inr : ℤ) (dirty : Bool) :
    Hoare (fun _ => True) (tfsAddEntry e dir name inr dirty) fun r _ => Resized dir r.2.1 := by
  refine .ite (fun _ => .pure fun _ _ => .inl rfl) fun _ => Hoare.any.bind fun place => ?_
  cases place with
  | fail => exact .pure fun _ _ => .inl rfl
  | slot block cs de => exact putEntry_resized dir name inr block cs de
  | full index =>
    refine Hoare.any.bind fun block => .ite (fun _ => .pure fun _ _ => .inl rfl) fun _ => ?_
    refine Hoare.any.bind fun r => ?_
    cases r with
    | none => exact .pure fun _ _ => .inl rfl
    | some cs =>
      exact Hoare.any.bind fun _ => Hoare.any.bind fun _ => putEntry_resized _ name inr _ cs _

theorem blockForWrite_resized (inode : Inode) (index : ℕ) :
    Hoare (fun _ => True) (blockForWrite e inode index) fun r _ => Resized inode r.2 := by
  refine .ite (fun _ => .pure fun _ _ => .inl rfl) fun _ => .ite (fun _ => ?_) fun _ => ?_
  · refine Hoare.any.bind fun block => ?_
    exact .ite (fun _ => .pure fun _ _ => .inl rfl) fun _ => .pure fun _ _ => .inl rfl
  · exact .pure fun _ _ => .inl rfl

theorem growSize_resized (inode inode' : Inode) (offset bytesWritten : ℕ) :
    Resized inode (growSize inode' offset bytesWritten) := .inr (Nat.mod_lt _ (by decide))

theorem tfsWriteLoop_resized (offset : ℕ) (buf : ℕ → UInt8) (blocks index bytesWritten : ℕ)
    (inode : Inode) :
    Hoare (fun _ => True) (tfsWriteLoop e offset buf blocks index bytesWritten inode)
      fun r _ => Resized inode r.2 := by
  induction blocks generalizing index bytesWritten inode with
  | zero =>
    refine Hoare.any.bind fun res => ?_
    exact .ite (fun _ => .pure fun _ _ => .inl rfl) fun _ => .pure fun _ _ => .inl rfl
  | succ blocks ih =>
    refine (blockForWrite_resized inode index).bind fun ⟨block, inode'⟩ => ?_
    cases block with
    | error err => exact .pure fun _ h => h
    | ok block =>
      refine Hoare.pre (.given fun h => ?_) fun _ h => ⟨h, trivial⟩
      refine Hoare.any.bind fun r => ?_
      cases r with
      | none => exact .pure fun _ _ => h
      | some cs =>
        refine Hoare.any.bind fun res => .ite (fun _ => ?_) fun _ => ?_
        · exact .pure fun _ _ => growSize_resized _ _ _ _
        · exact (ih _ _ _).post fun _ _ => (growSize_resized inode inode' _ _).trans

theorem tfsWrite_resized (inode : Inode) (offset : ℕ) (buf : ℕ → UInt8) (blocks : ℤ) :
    Hoare (fun _ => True) (tfsWrite e inode offset buf blocks) fun r _ => Resized inode r.2 := by
  refine .ite (fun _ => .pure fun _ _ => .inl rfl) fun _ => ?_
  refine (blockForWrite_resized inode _).bind fun ⟨block, inode'⟩ => ?_
  cases block with
  | error err => exact .pure fun _ h => h
  | ok block =>
    refine Hoare.pre (.given fun h => ?_) fun _ h => ⟨h, trivial⟩
    refine Hoare.any.bind fun r => ?_
    cases r with
    | none => exact .pure fun _ _ => h
    | some cs =>
      refine Hoare.any.bind fun res => .ite (fun _ => ?_) fun _ => ?_
      · exact .pure fun _ _ => growSize_resized _ _ _ _
      · exact (tfsWriteLoop_resized _ _ _ _ _ _).post fun _ _ =>
          (growSize_resized inode inode' _ _).trans

/-! ### Primitives -/

variable {Size : ℕ → Prop} {P : Kernel → Prop} (hP : Stable Size P)

include hP

theorem Stable.resized {inode inode' : Inode} (h : Size inode.iSize) (hr : Resized inode inode') :
    Size inode'.iSize := hr.elim (fun heq => heq ▸ h) (hP.word _)

theorem Stable.onDev (x : DevM α) : Preserves P (onDev x) :=
  fun k h => hP.frame k _ k.alive k.nextObj k.faults h

theorem Stable.fault (f : Fault) : Preserves P (fault f) :=
  fun k h => hP.frame k k.dev k.alive k.nextObj _ h

theorem Stable.touch (obj : ℕ) : Preserves P (touch obj) := fun k h => by
  unfold Fs.touch
  split
  · exact h
  · exact hP.fault _ k h

theorem Stable.inodeAt (obj : ℕ) :
    Hoare P (inodeAt obj) fun inode k => Size inode.iSize ∧ P k :=
  Hoare.bind (hP.touch obj) fun _ k h => ⟨hP.size k obj h, h⟩

/-- The contents of an object are read, and nothing is made of its size. -/
theorem Stable.withInode (obj : ℕ) {f : Inode → KernelM α}
    (hf : ∀ inode, Preserves P (f inode)) : Preserves P (Fs.inodeAt obj >>= f) :=
  (hP.inodeAt obj).bind fun inode => .given fun _ => hf inode

theorem Stable.setInode (obj : ℕ) {inode : Inode} (h : Size inode.iSize) :
    Preserves P (setInode obj inode) :=
  (hP.touch obj).bind fun _ k hk => hP.put k obj inode hk h

theorem Stable.newInode (mode : ℤ) : Preserves P (newInode e mode) := by
  refine (hP.onDev _).bind fun _ => .ite (.pure _ _) ((hP.onDev _).bind fun _ => ?_)
  refine .ite (.pure _ _) fun k h => ?_
  exact hP.frame _ k.dev _ _ k.faults
    (hP.put k k.nextObj (newInodeValue mode) h (hP.word 0 (by decide)))

theorem Stable.freeObj (obj : ℕ) : Preserves P (freeObj obj) := fun k h => by
  unfold Fs.freeObj
  split
  · exact hP.frame k k.dev _ k.nextObj k.faults h
  · exact hP.fault _ k h

theorem Stable.freeInode (obj : ℕ) : Preserves P (freeInode obj) :=
  (hP.touch obj).bind fun _ k h => by
    split
    · exact h
    · exact hP.freeObj obj k h

theorem Stable.giveUp (obj : ℕ) (err : ℤ) : Preserves P (giveUp obj err) :=
  (hP.freeInode obj).bind fun _ => .pure _ _

theorem Stable.iwriteObj (obj : ℕ) : Preserves P (iwriteObj e obj) :=
  hP.withInode obj fun _ => hP.onDev _

/-- What is known of a result on the cache and the disk. -/
theorem Stable.onDevResult {x : DevM α} {Q : α → Prop}
    (h : Hoare (fun _ => True) x fun r _ => Q r) :
    Hoare P (Fs.onDev x) fun r k => Q r ∧ P k := fun k hk => ⟨h k.dev trivial, hP.onDev x k hk⟩

theorem Stable.addEntryObj (dir : ℕ) (name : List UInt8) (inr : ℕ) :
    Preserves P (addEntryObj e dir name inr) := by
  refine (hP.inodeAt dir).bind fun inode => .given fun hsize => ?_
  refine (hP.onDevResult (tfsAddEntry_resized inode name _ false)).bind fun r => .given fun hr => ?_
  exact Preserves.bind (hP.setInode dir (hP.resized hsize hr)) fun _ => .pure _ _

/-! ### Inodes and entries -/

theorem Stable.tfsNewInode (dir : ℕ) (mode : ℤ) : Preserves P (tfsNewInode e dir mode) := by
  refine (hP.newInode mode).bind fun r => ?_
  cases r with
  | none => exact .pure _ _
  | some obj =>
    refine hP.withInode dir fun _ => (hP.onDev _).bind fun _ => .ite ?_ ?_
    · exact (hP.freeObj obj).bind fun _ => .pure _ _
    · refine (hP.inodeAt obj).bind fun inode => .given fun hsize => ?_
      exact Preserves.bind (hP.setInode obj hsize) fun _ => .pure _ _

theorem Stable.tfsIgetByInr (inr : ℤ) : Preserves P (tfsIgetByInr e inr) := by
  refine (hP.onDev _).bind fun tinode => (hP.newInode 0).bind fun r => ?_
  cases r with
  | none => exact .pure _ _
  | some obj =>
    exact (hP.setInode obj (hP.word _ (le32_lt tinode 4))).bind fun _ => .pure _ _

theorem Stable.tfsIget (dname : List UInt8) (dir : ℕ) : Preserves P (tfsIget e dname dir) := by
  refine hP.withInode dir fun _ => (hP.onDev _).bind fun r => ?_
  cases r with
  | null => exact .pure _ _
  | err err => exact .pure _ _
  | found cs de => exact (hP.touch dir).bind fun _ => (hP.onDev _).bind fun _ => hP.tfsIgetByInr _

theorem Stable.tfsReleaseInode (obj : ℕ) : Preserves P (tfsReleaseInode e obj) := by
  refine hP.withInode obj fun _ => (hP.onDev _).bind fun _ => .ite (.pure _ _) ?_
  refine hP.withInode obj fun _ => (hP.onDev _).bind fun _ => ?_
  exact (hP.freeInode obj).bind fun _ => .pure _ _

theorem Stable.enterInode (dir : ℕ) (dname : List UInt8) (obj : ℕ) :
    Preserves P (enterInode e dir dname obj) := by
  refine (hP.iwriteObj obj).bind fun _ => .ite (.pure _ _) ?_
  refine hP.withInode obj fun _ => (hP.addEntryObj dir dname _).bind fun _ => ?_
  refine .ite (.pure _ _) (.ite ?_ (.pure _ _))
  exact (hP.iwriteObj dir).bind fun _ => .ite (.pure _ _) (.pure _ _)

theorem Stable.makeEntry (dir : ℕ) (dname : List UInt8) (mode : ℤ) :
    Preserves P (makeEntry e dir dname mode) := by
  refine (hP.tfsNewInode dir mode).bind fun r => ?_
  cases r with
  | error err => exact .pure _ _
  | ok obj =>
    refine (hP.enterInode dir dname obj).bind fun _ => .ite ?_ (.pure _ _)
    exact (hP.freeInode obj).bind fun _ => .pure _ _

theorem Stable.tfsMknod (dir : ℕ) (dname : List UInt8) (mode : ℤ) :
    Preserves P (tfsMknod e dir dname mode) := by
  refine hP.withInode dir fun _ => (hP.onDev _).bind fun r => ?_
  cases r with
  | null => exact hP.makeEntry dir dname mode
  | err err => exact hP.makeEntry dir dname mode
  | found cs de => exact .pure _ _

theorem Stable.enterDots (dir parentDir : ℕ) : Preserves P (enterDots e dir parentDir) := by
  refine hP.withInode dir fun _ => (hP.addEntryObj dir dot _).bind fun _ => ?_
  refine .ite (.pure _ _) (hP.withInode parentDir fun _ => ?_)
  refine (hP.addEntryObj dir _ _).bind fun _ => .ite (.pure _ _) (.ite ?_ (.pure _ _))
  exact hP.iwriteObj dir

theorem Stable.tfsMkdir (parentDir : ℕ) (dname : List UInt8) :
    Preserves P (tfsMkdir e parentDir dname) := by
  refine (hP.tfsMknod parentDir dname TFS_DIR).bind fun r => ?_
  cases r with
  | error err => exact (hP.freeInode parentDir).bind fun _ => .pure _ _
  | ok dir =>
    refine (hP.enterDots dir parentDir).bind fun _ => (hP.freeInode dir).bind fun _ => ?_
    exact (hP.freeInode parentDir).bind fun _ => .pure _ _

theorem Stable.removeEntry (dir obj : ℕ) (cs : CacheRef) (de : ℕ) :
    Preserves P (removeEntry e dir obj cs de) := by
  have hlt : ∀ i : ℤ, toU32 i < 2 ^ 32 := fun i => by
    unfold toU32
    omega
  refine hP.withInode dir fun _ => (hP.setInode dir (hP.word _ (hlt _))).bind fun _ => ?_
  refine (hP.iwriteObj dir).bind fun _ => .ite (hP.giveUp obj _) ?_
  refine (hP.onDev _).bind fun _ => .ite (hP.giveUp obj _) ?_
  exact hP.tfsReleaseInode obj

theorem Stable.withEntry (dir : ℕ) (dname : List UInt8) {call : ℕ → CacheRef → ℕ → KernelM ℤ}
    (hcall : ∀ obj cs de, Preserves P (call obj cs de)) :
    Preserves P (withEntry e dir dname call) := by
  refine hP.withInode dir fun _ => (hP.onDev _).bind fun r => ?_
  cases r with
  | null => exact .pure _ _
  | err err => exact .pure _ _
  | found cs de =>
    refine (hP.onDev _).bind fun _ => (hP.tfsIgetByInr _).bind fun r => ?_
    cases r with
    | error err => exact .pure _ _
    | ok obj => exact hcall obj cs de

theorem Stable.tfsRmdir (dir : ℕ) (dname : List UInt8) : Preserves P (tfsRmdir e dir dname) :=
  hP.withEntry dir dname fun obj cs de => hP.withInode obj fun _ =>
    .ite (hP.giveUp obj _) <| .ite (hP.giveUp obj _) <| .ite (hP.giveUp obj _) <|
      hP.removeEntry dir obj cs de

theorem Stable.tfsUnlink (dir : ℕ) (dname : List UInt8) : Preserves P (tfsUnlink e dir dname) :=
  hP.withEntry dir dname fun obj cs de => hP.withInode obj fun _ =>
    .ite ((hP.onDev _).bind fun _ => hP.giveUp obj _) (hP.removeEntry dir obj cs de)

/-! ### Paths -/

theorem Stable.walkInto (part : List UInt8) (parent : ℕ) {next : ℕ → KernelM Walked}
    (hnext : ∀ obj, Preserves P (next obj)) : Preserves P (walkInto e part parent next) := by
  refine (hP.tfsIget part parent).bind fun r => ?_
  cases r with
  | error err => exact .pure _ _
  | ok obj => exact (hP.freeInode parent).bind fun _ => hnext obj

theorem Stable.nameiWalk (flag : ℕ) (name part : List UInt8) (parent : ℕ) :
    Preserves P (nameiWalk e flag name part parent) := by
  induction name generalizing part parent with
  | nil =>
    refine .ite (.pure _ _) (.ite (.pure _ _) ?_)
    exact hP.walkInto part parent fun _ => .pure _ _
  | cons c name ih =>
    refine .ite (.ite (.pure _ _) (ih _ _)) (.ite (ih _ _) (.ite (.pure _ _) ?_))
    exact hP.walkInto part parent fun obj => ih [] obj

theorem Stable.nameiCreate (parent : ℕ) (part : List UInt8) :
    Preserves P (nameiCreate e parent part) := by
  refine (hP.tfsMknod parent part TFS_FILE).bind fun made => (hP.freeInode parent).bind fun _ => ?_
  cases made with
  | error err => exact .pure _ _
  | ok obj =>
    refine (hP.iwriteObj obj).bind fun _ => .ite ?_ (.pure _ _)
    exact (hP.freeInode obj).bind fun _ => .pure _ _

/-- **`namei` keeps what the primitives keep.** -/
theorem Stable.namei (name : List UInt8) (flag : ℕ) : Preserves P (namei e name flag) := by
  refine Preserves.bind (fun _ h => h) fun start => ?_
  refine (hP.nameiWalk flag name [] start).bind fun w => ?_
  cases w with
  | inode obj => exact .pure _ _
  | parent obj => exact .pure _ _
  | tooLong => exact .pure _ _
  | missing err parent part => exact .ite (hP.nameiCreate parent part) (.pure _ _)

theorem Stable.nameiParent (name : List UInt8) : Preserves P (nameiParent e name) := by
  refine (hP.namei name 1).bind fun r => ?_
  cases r with
  | ok dir => exact .pure _ _
  | error err =>
    exact (hP.fault _).bind fun _ => (hP.onDev _).bind fun _ => .ite (.pure _ _) (.pure _ _)

/-- **A call on the parent directory.** -/
theorem Stable.withParent {call : ℕ → List UInt8 → KernelM ℤ}
    (hcall : ∀ dir dname, Preserves P (call dir dname)) (name : List UInt8) :
    Preserves P (withParent e call name) := by
  refine (hP.nameiParent name).bind fun r => ?_
  cases r with
  | error err => exact .pure _ _
  | ok dir =>
    refine (hP.touch dir).bind fun _ => (hP.onDev _).bind fun dname => ?_
    exact (hcall dir dname).bind fun _ => (hP.freeInode dir).bind fun _ => .pure _ _

/-! ### Open files -/

theorem Stable.fget (fd : ℤ) : Preserves P (fget e fd) := by
  refine .ite (.pure _ _) (.ite ((hP.onDev _).bind fun _ => .ite (.pure _ _) (.pure _ _)) ?_)
  intro k h
  dsimp only
  split <;> exact h

/-- **A call on an open file.** -/
theorem Stable.withFile (fd : ℤ) {call : File → KernelM ℤ} (hcall : ∀ f, Preserves P (call f)) :
    Preserves P (withFile e fd call) := by
  refine (hP.fget fd).bind fun r => ?_
  rcases r with _ | (f | _ | _)
  · exact .pure _ _
  · exact hcall f
  · exact .pure _ _
  · exact (hP.fault _).bind fun _ => hP.onDev _

theorem Stable.sysWrite {fd : ℤ} (hoff : ∀ offset, Preserves P (setOffset fd.toNat offset))
    (buf : ℕ → UInt8) (size : ℤ) : Preserves P (sysWrite e fd buf size) := by
  refine hP.withFile fd fun f => (hP.inodeAt f.inode).bind fun inode => .given fun hsize => ?_
  refine (hP.onDevResult (tfsWrite_resized inode f.offset buf _)).bind fun r => .given fun hr => ?_
  refine Preserves.bind (hP.setInode f.inode (hP.resized hsize hr)) fun _ => ?_
  exact .ite ((hoff _).bind fun _ => .pure _ _) (.pure _ _)

theorem Stable.sysRead {fd : ℤ} (hoff : ∀ offset, Preserves P (setOffset fd.toNat offset))
    (buf : ℕ → UInt8) (size : ℤ) : Preserves P (sysRead e fd buf size) := by
  refine (hP.fget fd).bind fun r => ?_
  rcases r with _ | (f | _ | _)
  · exact .pure _ _
  · refine hP.withInode f.inode fun inode => (hP.onDev _).bind fun r => .ite ?_ (.pure _ _)
    exact (hoff _).bind fun _ => .pure _ _
  · exact .pure _ _
  · exact (hP.fault _).bind fun _ => (hP.onDev _).bind fun _ => .pure _ _

theorem Stable.sysLseek {fd : ℤ} (hoff : ∀ offset, Preserves P (setOffset fd.toNat offset))
    (off : ℤ) (mode : ℕ) : Preserves P (sysLseek e fd off mode) := by
  refine hP.withFile fd fun f => .ite ?_ (.ite ?_ (.ite ?_ (.pure _ _)))
  · exact (hoff _).bind fun _ => .pure _ _
  · exact hP.withInode f.inode fun _ => (hoff _).bind fun _ => .pure _ _
  · exact (hoff _).bind fun _ => .pure _ _

theorem Stable.sysClose (hdrop : ∀ (k : Kernel) fd, P k → P { k with
    fds := Function.update k.fds fd false
    files := Function.update k.files fd none }) (fd : ℤ) : Preserves P (sysClose e fd) :=
  hP.withFile fd fun f => (hP.freeInode f.inode).bind fun _ k h => hdrop k _ h

/-! ### Start -/

/-- **`fs_init`**, when the root and the current directory may be set. -/
theorem Stable.fsInit (hroot : ∀ k root, P k → P { k with root, pwd := root }) {d : Dev}
    {k : Kernel} (hboot : P (bootKernel e d)) (h : fsInit e d = some k) : P k := by
  have hrun := hP.tfsIgetByInr (e := e) TFS_ROOT_INODE _ hboot
  unfold Fs.fsInit at h
  generalize Fs.tfsIgetByInr e TFS_ROOT_INODE (bootKernel e d) = r at h hrun
  obtain ⟨r, k'⟩ := r
  cases r with
  | error err => cases h
  | ok root =>
    obtain rfl := Option.some.inj h
    exact hroot k' root hrun

omit hP

/-! ### Properties that are kept -/

/-- The handles of the file system. -/
structure Handles where
  root : ℕ
  pwd : ℕ
  cwd : List UInt8
  fds : ℕ → Bool
  files : ℕ → Option File
  dirs : ℕ → Option File
  nextDir : ℕ

/-- The handles of a state. -/
def Kernel.handles (k : Kernel) : Handles where
  root := k.root
  pwd := k.pwd
  cwd := k.cwd
  fds := k.fds
  files := k.files
  dirs := k.dirs
  nextDir := k.nextDir

/-- **What is said about the handles is kept.** -/
theorem stable_handles (p : Handles → Prop) : Stable (fun _ => True) fun k => p k.handles where
  word _ _ := trivial
  frame _ _ _ _ _ h := h
  put _ _ _ h _ := h
  size _ _ _ := trivial

/-- Every `i_size` fits its word. -/
def SizesFit (k : Kernel) : Prop := ∀ obj, (k.objs obj).iSize < 2 ^ 32

/-- Something is said about the handles besides. -/
theorem Stable.handles (hP : Stable Size P) (p : Handles → Prop) :
    Stable Size fun k => P k ∧ p k.handles where
  word := hP.word
  frame k dev alive nextObj faults h := ⟨hP.frame k dev alive nextObj faults h.1, h.2⟩
  put k obj inode h hsize := ⟨hP.put k obj inode h.1 hsize, h.2⟩
  size k obj h := hP.size k obj h.1

/-- **The sizes keep fitting.** -/
theorem stable_sizes : Stable (· < 2 ^ 32) SizesFit where
  word _ h := h
  frame _ _ _ _ _ h := h
  put k obj inode h hsize o := by
    dsimp only
    by_cases ho : o = obj
    · rw [ho, Function.update_self]
      exact hsize
    · rw [Function.update_of_ne ho]
      exact h o
  size _ obj h := h obj

end Thunix.Fs
