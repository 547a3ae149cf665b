import Thunix.Fs.ImageDir
import Thunix.Fs.Kernel

/-!
# Inode objects over an image

The state of the file system is known up to what is allocated and the faults
(`Thunix.Fs.KernelOn`): the image of its device, and the contents of the objects. The
triples here are those of the functions of `Thunix.Fs.Kernel` that do not look into
directories.
-/

namespace Thunix.Fs

variable {e : Env} {I : Image} {k₀ k : Kernel} {inode : Inode} {obj n : ℕ} {α : Type}

/-! ### What is known of a state -/

/-- An object gets other contents. -/
def Kernel.setObj (k : Kernel) (obj : ℕ) (inode : Inode) : Kernel :=
  { k with objs := Function.update k.objs obj inode }

/-- The next object is made. -/
def Kernel.addObj (k : Kernel) (inode : Inode) : Kernel :=
  { k with
    objs := Function.update k.objs k.nextObj inode
    nextObj := k.nextObj + 1 }

/-- The states differ at most in the device, in what is allocated and in the faults. -/
structure Alike (k₀ k : Kernel) : Prop where
  objs : k.objs = k₀.objs
  nextObj : k.nextObj = k₀.nextObj
  root : k.root = k₀.root
  pwd : k.pwd = k₀.pwd
  cwd : k.cwd = k₀.cwd
  fds : k.fds = k₀.fds
  files : k.files = k₀.files
  dirs : k.dirs = k₀.dirs
  nextDir : k.nextDir = k₀.nextDir

theorem Alike.refl (k : Kernel) : Alike k k := ⟨rfl, rfl, rfl, rfl, rfl, rfl, rfl, rfl, rfl⟩

theorem Alike.trans {k₁ : Kernel} (h : Alike k₀ k₁) (h' : Alike k₁ k) : Alike k₀ k :=
  ⟨h'.objs.trans h.objs, h'.nextObj.trans h.nextObj, h'.root.trans h.root, h'.pwd.trans h.pwd,
    h'.cwd.trans h.cwd, h'.fds.trans h.fds, h'.files.trans h.files, h'.dirs.trans h.dirs,
    h'.nextDir.trans h.nextDir⟩

theorem Alike.setObj (h : Alike k₀ k) (obj : ℕ) (inode : Inode) :
    Alike (k₀.setObj obj inode) (k.setObj obj inode) :=
  { h with objs := by rw [Kernel.setObj, Kernel.setObj, h.objs] }

theorem Alike.addObj (h : Alike k₀ k) (inode : Inode) :
    Alike (k₀.addObj inode) (k.addObj inode) :=
  { h with
    objs := by rw [Kernel.addObj, Kernel.addObj, h.objs, h.nextObj]
    nextObj := by rw [Kernel.addObj, Kernel.addObj, h.nextObj] }

/-- The device has the image, and the rest is that of `k₀`. -/
def KernelOn (e : Env) (I : Image) (k₀ k : Kernel) : Prop := ImageOn e I k.dev ∧ Alike k₀ k

theorem setObj_self (k : Kernel) (obj : ℕ) (inode : Inode) :
    (k.setObj obj inode).objs obj = inode :=
  Function.update_self _ _ _

theorem setObj_of_ne {o : ℕ} (h : o ≠ obj) : (k.setObj obj inode).objs o = k.objs o :=
  Function.update_of_ne h _ _

theorem addObj_self (k : Kernel) (inode : Inode) : (k.addObj inode).objs k.nextObj = inode :=
  Function.update_self _ _ _

theorem addObj_of_lt {o : ℕ} (h : o < k.nextObj) : (k.addObj inode).objs o = k.objs o :=
  Function.update_of_ne h.ne _ _

theorem setObj_setObj (k : Kernel) (obj : ℕ) (inode inode' : Inode) :
    (k.setObj obj inode).setObj obj inode' = k.setObj obj inode' := by
  rw [Kernel.setObj, Kernel.setObj, Kernel.setObj, Function.update_idem]

theorem addObj_setObj (k : Kernel) (inode inode' : Inode) :
    (k.addObj inode).setObj k.nextObj inode' = k.addObj inode' := by
  rw [Kernel.setObj, Kernel.addObj, Kernel.addObj, Function.update_idem]

/-- Another object changes before the one made last. -/
theorem addObj_setObj_comm {inode₁ inode₂ : Inode} (h : obj ≠ k.nextObj) :
    ((k.addObj inode).setObj obj inode₁).setObj k.nextObj inode₂ =
      (k.addObj inode₂).setObj obj inode₁ := by
  simp only [Kernel.setObj, Kernel.addObj]
  rw [Function.update_comm h, Function.update_idem]

/-! ### Objects -/

theorem touch_on : Hoare (KernelOn e I k₀) (touch obj) fun _ => KernelOn e I k₀ := fun k h => by
  rw [touch]
  by_cases ha : k.alive obj
  · rw [if_pos ha]
    exact h
  · rw [if_neg ha]
    exact ⟨h.1, { h.2 with }⟩

theorem inodeAt_on : Hoare (KernelOn e I k₀) (inodeAt obj) fun r k =>
    r = k₀.objs obj ∧ KernelOn e I k₀ k :=
  touch_on.bind fun _ _ h => ⟨congrFun h.2.objs obj, h⟩

theorem setInode_on (inode : Inode) : Hoare (KernelOn e I k₀) (setInode obj inode) fun _ =>
    KernelOn e I (k₀.setObj obj inode) :=
  touch_on.bind fun _ _ h => ⟨h.1, h.2.setObj obj inode⟩

theorem freeObj_on : Hoare (KernelOn e I k₀) (freeObj obj) fun _ => KernelOn e I k₀ := fun k h => by
  rw [freeObj]
  by_cases ha : k.alive obj
  · rw [if_pos ha]
    exact ⟨h.1, { h.2 with }⟩
  · rw [if_neg ha]
    exact ⟨h.1, { h.2 with }⟩

theorem freeInode_on : Hoare (KernelOn e I k₀) (freeInode obj) fun _ => KernelOn e I k₀ :=
  touch_on.bind fun _ k h => by
    by_cases hp : obj = k.pwd
    · rw [if_pos hp]
      exact h
    · rw [if_neg hp]
      exact freeObj_on k h

theorem giveUp_on (err : ℤ) : Hoare (KernelOn e I k₀) (giveUp obj err) fun r k =>
    r = err ∧ KernelOn e I k₀ k :=
  freeInode_on.bind fun _ => .pure fun _ h => ⟨rfl, h⟩

/-- A computation on the device. -/
theorem onDev_on {x : DevM α} {Q : α → Dev → Prop} (h : Hoare (ImageOn e I) x Q) :
    Hoare (KernelOn e I k₀) (onDev x) fun r k => Q r k.dev ∧ Alike k₀ k := fun k hk =>
  ⟨h k.dev hk.1, { hk.2 with }⟩

/-- One whose result is known. -/
theorem onDev_on_eq {x : DevM α} {I' : Image} {a : α}
    (h : Hoare (ImageOn e I) x fun r d => r = a ∧ ImageOn e I' d) :
    Hoare (KernelOn e I k₀) (onDev x) fun r k => r = a ∧ KernelOn e I' k₀ k :=
  (onDev_on h).post fun _ _ h => ⟨h.1.1, h.1.2, h.2⟩

theorem mallocOk_on : Hoare (KernelOn e I k₀) (onDev (mallocOk e)) fun r k =>
    (∃ t, r = e.mallocOk t) ∧ KernelOn e I k₀ k := fun _ h =>
  ⟨⟨_, rfl⟩, h.1.tick, { h.2 with }⟩

/-- There are calls that find no memory. -/
def NoMemory (e : Env) : Prop := ∃ t, e.mallocOk t = false

/-- **`new_inode`.** -/
theorem newInode_on (mode : ℤ) : Hoare (KernelOn e I k₀) (newInode e mode) fun r k =>
    (r = none ∧ NoMemory e ∧ KernelOn e I k₀ k) ∨
      (r = some k₀.nextObj ∧ KernelOn e I (k₀.addObj (newInodeValue mode)) k) := by
  have hfail : ∀ {r : Bool}, (∃ t, r = e.mallocOk t) → (!r) = true → NoMemory e := by
    rintro r ⟨t, rfl⟩ ht
    exact ⟨t, by simpa using ht⟩
  unfold newInode
  refine mallocOk_on.bind fun r => .ite (fun hr => .pure fun k h => ?_) fun _ => ?_
  · exact .inl ⟨rfl, hfail h.1 hr, h.2⟩
  · refine (mallocOk_on.pre fun _ h => h.2).bind fun r' => .ite (fun hr => .pure fun k h => ?_)
      fun _ k h => ?_
    · exact .inl ⟨rfl, hfail h.1 hr, h.2⟩
    · exact .inr ⟨by rw [← h.2.2.nextObj], h.2.1, { h.2.2.addObj (newInodeValue mode) with }⟩

/-! ### Inodes of the table -/

variable (hs : Steady e)

include hs

/-- **`tfs_iwrite`** of an object. -/
theorem iwriteObj_on (hobj : k₀.objs obj = inode) (hn : InTable e.sbi inode.iIno)
    (hwords : inode.Words) : Hoare (KernelOn e I k₀) (iwriteObj e obj) fun r k =>
      r = 0 ∧ KernelOn e (I.setInode inode.iIno (inode.stored e)) k₀ k := by
  refine inodeAt_on.bind_eq ?_
  rw [hobj]
  exact onDev_on_eq (tfsIwrite_image hs hn hwords)

/-- **`tfs_iget_by_inr`** makes an object with the contents of the record. -/
theorem tfsIgetByInr_on (hn : InTable e.sbi n) :
    Hoare (KernelOn e I k₀) (tfsIgetByInr e n) fun r k =>
      (r = .error (-ENOMEM) ∧ NoMemory e ∧ KernelOn e I k₀ k) ∨
        (r = .ok k₀.nextObj ∧ KernelOn e I (k₀.addObj (I.inode n)) k) := by
  unfold tfsIgetByInr
  refine (onDev_on (tfsReadInode_image hs hn)).bind fun tinode => ?_
  refine Hoare.pre (P := fun k => KernelOn e I k₀ k ∧ igetValue e n tinode = I.inode n) ?_
    fun k h => ⟨⟨h.1.2, h.2⟩, h.1.1⟩
  refine Hoare.assume fun hvalue => (newInode_on 0).bind fun r => .or (.given ?_) (.given ?_)
  · rintro rfl
    exact .pure fun k h => .inl ⟨rfl, h⟩
  · rintro rfl
    refine (setInode_on _).bind fun _ => .pure fun k h => .inr ⟨rfl, ?_⟩
    rw [hvalue, addObj_setObj] at h
    exact h

/-- The same, when there is memory. -/
theorem tfsIgetByInr_ok (hmalloc : ∀ t, e.mallocOk t = true) (hn : InTable e.sbi n) :
    Hoare (KernelOn e I k₀) (tfsIgetByInr e n) fun r k =>
      r = .ok k₀.nextObj ∧ KernelOn e I (k₀.addObj (I.inode n)) k :=
  (tfsIgetByInr_on hs hn).post fun _ _ h => h.resolve_left fun ⟨_, ⟨t, ht⟩, _⟩ => by
    rw [hmalloc] at ht
    cases ht

/-- The inode that `tfs_new_inode` makes in a directory. -/
def freshInode (mode : ℤ) (n : ℕ) (dir : Inode) : Inode :=
  { newInodeValue mode with
    iIno := n
    iBlksize := dir.iBlksize }

/-- **`tfs_new_inode`** takes a free number, if there is one. -/
theorem tfsNewInode_on {dir : ℕ} (hdir : dir < k₀.nextObj) (mode : ℤ) :
    Hoare (KernelOn e I k₀) (tfsNewInode e dir mode) fun r k =>
      (r = .error (-ENOMEM) ∧ NoMemory e ∧ KernelOn e I k₀ k) ∨
      (r = .error (-ENOSPC) ∧ (∀ n, 1 ≤ n → n ≤ 8 * e.sbi.sBlockSize → I.inodeUsed n = true) ∧
        KernelOn e I (k₀.addObj (newInodeValue mode)) k) ∨
      ∃ n, 1 ≤ n ∧ n ≤ 8 * e.sbi.sBlockSize ∧ I.inodeUsed n = false ∧ r = .ok k₀.nextObj ∧
        KernelOn e (I.useInode n true) (k₀.addObj (freshInode mode n (k₀.objs dir))) k := by
  unfold tfsNewInode
  refine (newInode_on mode).bind fun r => .or (.given ?_) (.given ?_)
  · rintro rfl
    exact .pure fun k h => .inl ⟨rfl, h⟩
  rintro rfl
  refine Hoare.post ?_ fun _ _ => Or.inr
  refine inodeAt_on.bind_eq ?_
  rw [addObj_of_lt hdir]
  refine (onDev_on (tfsAllocInode_image hs)).bind fun inr k h => ?_
  obtain ⟨⟨rfl, hall, hon⟩ | ⟨n, h1, hn, rfl, hfree, hon⟩, halike⟩ := h
  · have hfreed : Hoare (KernelOn e I (k₀.addObj (newInodeValue mode))) (do
        freeObj k₀.nextObj
        pure (.error (-ENOSPC) : Except ℤ ℕ)) fun r k => r = .error (-ENOSPC) ∧
          KernelOn e I (k₀.addObj (newInodeValue mode)) k :=
      freeObj_on.bind fun _ => .pure fun k h => ⟨rfl, h⟩
    rw [if_pos (by decide)]
    obtain ⟨hr, hk⟩ := hfreed k ⟨hon, halike⟩
    exact .inl ⟨hr, hall, hk⟩
  · have hn32 : toU32 (n : ℤ) = n := toU32_natCast (by have := hs.geometry.small; omega)
    have hmade : Hoare (KernelOn e (I.useInode n true) (k₀.addObj (newInodeValue mode))) (do
        let inode ← inodeAt k₀.nextObj
        setInode k₀.nextObj { inode with iIno := toU32 n, iBlksize := (k₀.objs dir).iBlksize }
        pure (.ok k₀.nextObj : Except ℤ ℕ)) fun r k => r = .ok k₀.nextObj ∧
          KernelOn e (I.useInode n true) (k₀.addObj (freshInode mode n (k₀.objs dir))) k := by
      refine inodeAt_on.bind_eq ?_
      rw [addObj_self, hn32]
      refine (setInode_on _).bind fun _ => .pure fun k h => ⟨rfl, ?_⟩
      rw [addObj_setObj] at h
      exact h
    rw [if_neg (by omega)]
    obtain ⟨hr, hk⟩ := hmade k ⟨hon, halike⟩
    exact .inr ⟨n, h1, hn, hfree, hr, hk⟩

end Thunix.Fs
