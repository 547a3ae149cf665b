import Thunix.Fs.Syscall
import Thunix.Lib.Hoare
import Thunix.Lib.Run

/-!
# The life of inode objects

The objects that outlive a system call are those the root, the current directory, an
open file or an open `DIR` points to (`Thunix.Fs.Held`). Between system calls these are
all alive; within a call, the call owns some more objects, those it has made and not
freed yet (`Thunix.Fs.Owns`). A function may use what is held or owned, and may pass to
`free_inode` what is owned, or the current directory, which `free_inode` spares.

This is the discipline the code has in mind. Where it does not keep to it is collected
in `Thunix.Fs.KeepsObjects`, a condition on the call and the state before it: the walk of
`namei` from the root frees the root unless it is the current directory, `tfs_mkdir` and
`sys_mkdir` both free the parent, and a descriptor may share its object with another.
Along runs that meet it there is no fault, and the root and the current directory are
alive (`Thunix.Fs.lifetimeOk_of_reach`).
-/

namespace Thunix.Fs

variable {e : Env} {k k₀ : Kernel} {mine : List ℕ} {o obj dir parent : ℕ} {α β : Type}

/-! ### Ownership -/

/-- The root, the current directory, or the inode of an open file or `DIR`. -/
def Held (k : Kernel) (o : ℕ) : Prop :=
  o = k.root ∨ o = k.pwd ∨ (∃ fd f, k.files fd = some f ∧ f.inode = o) ∨
    ∃ n f, k.dirs n = some f ∧ f.inode = o

/-- Within a system call from `k₀` that owns the objects `mine`. -/
structure Owns (k₀ : Kernel) (mine : List ℕ) (k : Kernel) : Prop where
  root : k.root = k₀.root
  pwd : k.pwd = k₀.pwd
  files : k.files = k₀.files
  dirs : k.dirs = k₀.dirs
  faults : k.faults = []
  held : ∀ o, Held k₀ o → k.alive o = true
  own : ∀ o ∈ mine, k.alive o = true ∧ ¬Held k₀ o
  nodup : mine.Nodup
  bound : ∀ o, k.alive o = true → o < k.nextObj

/-- The object may be used. -/
def Usable (k₀ : Kernel) (mine : List ℕ) (o : ℕ) : Prop := Held k₀ o ∨ o ∈ mine

/-- The object may be passed to `free_inode`. -/
def Disposable (k₀ : Kernel) (mine : List ℕ) (o : ℕ) : Prop := o = k₀.pwd ∨ o ∈ mine

theorem held_root : Held k k.root := .inl rfl

theorem held_pwd : Held k k.pwd := .inr (.inl rfl)

theorem Disposable.usable (h : Disposable k₀ mine o) : Usable k₀ mine o :=
  h.imp (fun heq => by rw [heq]; exact held_pwd) id

theorem Usable.cons (h : Usable k₀ mine o) (x : ℕ) : Usable k₀ (x :: mine) o :=
  h.imp id (List.mem_cons_of_mem x)

theorem Disposable.cons (h : Disposable k₀ mine o) (x : ℕ) : Disposable k₀ (x :: mine) o :=
  h.imp id (List.mem_cons_of_mem x)

theorem usable_head : Usable k₀ (o :: mine) o := .inr List.mem_cons_self

theorem Owns.alive (h : Owns k₀ mine k) (ho : Usable k₀ mine o) : k.alive o = true :=
  ho.elim (h.held o) fun hm => (h.own o hm).1

/-- Objects may be forgotten. -/
theorem Owns.sublist {mine' : List ℕ} (h : Owns k₀ mine k) (hs : mine'.Sublist mine) :
    Owns k₀ mine' k :=
  { h with own := fun o ho => h.own o (hs.subset ho), nodup := h.nodup.sublist hs }

theorem Owns.tail (h : Owns k₀ (o :: mine) k) : Owns k₀ mine k :=
  h.sublist (List.sublist_cons_self o mine)

/-! ### The primitives -/

theorem owns_onDev (x : DevM α) : Hoare (Owns k₀ mine) (onDev x) fun _ k => Owns k₀ mine k :=
  fun _ h => { h with }

theorem owns_touch (ho : Usable k₀ mine o) :
    Hoare (Owns k₀ mine) (touch o) fun _ k => Owns k₀ mine k := fun k h => by
  rw [touch, if_pos (h.alive ho)]
  exact h

theorem owns_inodeAt (ho : Usable k₀ mine o) :
    Hoare (Owns k₀ mine) (inodeAt o) fun _ k => Owns k₀ mine k :=
  (owns_touch ho).bind fun _ _ h => h

theorem owns_setInode (ho : Usable k₀ mine o) (inode : Inode) :
    Hoare (Owns k₀ mine) (setInode o inode) fun _ k => Owns k₀ mine k :=
  (owns_touch ho).bind fun _ _ h => { h with }

/-- **A new object** is owned. -/
theorem owns_newInode (mode : ℤ) : Hoare (Owns k₀ mine) (newInode e mode)
    fun r k => Owns k₀ (r.toList ++ mine) k := by
  refine (owns_onDev _).bind fun _ => .ite (fun _ => .pure fun _ h => h) fun _ => ?_
  refine (owns_onDev _).bind fun _ => .ite (fun _ => .pure fun _ h => h) fun _ => fun k h => ?_
  have hnew : k.alive k.nextObj ≠ true := fun ha => Nat.lt_irrefl _ (h.bound _ ha)
  have hkeep : ∀ o, k.alive o = true → Function.update k.alive k.nextObj true o = true :=
    fun o ho => by
      have hne : o ≠ k.nextObj := fun heq => hnew (by rw [← heq]; exact ho)
      rw [Function.update_of_ne hne]
      exact ho
  refine ⟨h.root, h.pwd, h.files, h.dirs, h.faults, fun o ho => hkeep o (h.held o ho), ?_, ?_, ?_⟩
  · intro o ho
    rcases List.mem_cons.mp ho with rfl | ho
    · exact ⟨Function.update_self _ _ _, fun hheld => hnew (h.held _ hheld)⟩
    · exact ⟨hkeep o (h.own o ho).1, (h.own o ho).2⟩
  · exact List.nodup_cons.mpr ⟨fun hm => hnew (h.own _ hm).1, h.nodup⟩
  · intro o ho
    by_cases heq : o = k.nextObj
    · rw [heq]
      exact Nat.lt_succ_self _
    · exact Nat.lt_succ_of_lt (h.bound o ((Function.update_of_ne heq _ _).symm.trans ho))

/-- **`free` of an owned object.** -/
theorem owns_freeObj (ho : o ∈ mine) :
    Hoare (Owns k₀ mine) (freeObj o) fun _ k => Owns k₀ (mine.erase o) k := fun k h => by
  rw [freeObj, if_pos (h.own o ho).1]
  have hkeep : ∀ o', o' ≠ o → Function.update k.alive o false o' = k.alive o' :=
    fun o' hne => Function.update_of_ne hne _ _
  refine ⟨h.root, h.pwd, h.files, h.dirs, h.faults, fun o' ho' => ?_, fun o' ho' => ?_, ?_, ?_⟩
  · exact (hkeep o' fun heq => (h.own o ho).2 (heq ▸ ho')).trans (h.held o' ho')
  · obtain ⟨hne, hmem⟩ := (h.nodup.mem_erase_iff).mp ho'
    exact ⟨(hkeep o' hne).trans (h.own o' hmem).1, (h.own o' hmem).2⟩
  · exact h.nodup.erase o
  · intro o' ho'
    by_cases heq : o' = o
    · subst heq
      exact absurd ((Function.update_self _ _ _).symm.trans ho') (by decide)
    · exact h.bound o' ((hkeep o' heq).symm.trans ho')

/-- `free_inode` of an owned object. -/
theorem owns_freeInode (ho : o ∈ mine) :
    Hoare (Owns k₀ mine) (freeInode o) fun _ k => Owns k₀ (mine.erase o) k := by
  refine (owns_touch (.inr ho)).bind fun _ k h => ?_
  have hne : o ≠ k.pwd := fun heq => (h.own o ho).2 (by rw [heq, h.pwd]; exact held_pwd)
  rw [if_neg hne]
  exact owns_freeObj ho k h

/-- `free_inode` of the object just made. -/
theorem owns_freeHead : Hoare (Owns k₀ (o :: mine)) (freeInode o) fun _ k => Owns k₀ mine k := by
  refine (owns_freeInode List.mem_cons_self).post fun _ k h => ?_
  rwa [List.erase_cons_head] at h

/-- `free_inode` of the current directory does nothing. -/
theorem owns_freePwd : Hoare (Owns k₀ mine) (freeInode k₀.pwd) fun _ k => Owns k₀ mine k := by
  refine (owns_touch (.inl held_pwd)).bind fun _ k h => ?_
  rw [if_pos h.pwd.symm]
  exact h

theorem owns_giveUp (err : ℤ) :
    Hoare (Owns k₀ (o :: mine)) (giveUp o err) fun _ k => Owns k₀ mine k :=
  owns_freeHead.bind fun _ => .pure fun _ h => h

/-! ### The functions of `fs/tfs` -/

theorem owns_tfsNewInode (hdir : Usable k₀ mine dir) (mode : ℤ) :
    Hoare (Owns k₀ mine) (tfsNewInode e dir mode) fun r k =>
      Owns k₀ (r.toOption.toList ++ mine) k := by
  refine (owns_newInode mode).bind fun r => ?_
  cases r with
  | none => exact .pure fun _ h => h
  | some obj =>
    refine (owns_inodeAt (hdir.cons obj)).bind fun dirInode => (owns_onDev _).bind fun inr => ?_
    refine .ite (fun _ => ?_) fun _ => ?_
    · refine ((owns_freeObj List.mem_cons_self).post fun _ k h => ?_).bind fun _ =>
        .pure fun _ h => h
      rwa [List.erase_cons_head] at h
    · refine (owns_inodeAt usable_head).bind fun _ => (owns_setInode usable_head _).bind fun _ => ?_
      exact .pure fun _ h => h

theorem owns_tfsIgetByInr (inr : ℤ) : Hoare (Owns k₀ mine) (tfsIgetByInr e inr) fun r k =>
    Owns k₀ (r.toOption.toList ++ mine) k := by
  refine (owns_onDev _).bind fun tinode => (owns_newInode 0).bind fun r => ?_
  cases r with
  | none => exact .pure fun _ h => h
  | some obj => exact (owns_setInode usable_head _).bind fun _ => .pure fun _ h => h

theorem owns_tfsIget (dname : List UInt8) (hdir : Usable k₀ mine dir) :
    Hoare (Owns k₀ mine) (tfsIget e dname dir) fun r k =>
      Owns k₀ (r.toOption.toList ++ mine) k := by
  refine (owns_inodeAt hdir).bind fun inode => (owns_onDev _).bind fun r => ?_
  cases r with
  | null => exact .pure fun _ h => h
  | err err => exact .pure fun _ h => h
  | found cs de =>
    exact (owns_touch hdir).bind fun _ => (owns_onDev _).bind fun inr => owns_tfsIgetByInr inr

/-- On an error of `tfs_free_inode` the object is forgotten. -/
theorem owns_tfsReleaseInode :
    Hoare (Owns k₀ (o :: mine)) (tfsReleaseInode e o) fun _ k => Owns k₀ mine k := by
  refine (owns_inodeAt usable_head).bind fun inode => (owns_onDev _).bind fun res => ?_
  refine .ite (fun _ => .pure fun _ h => h.tail) fun _ => ?_
  refine (owns_inodeAt usable_head).bind fun inode => (owns_onDev _).bind fun res => ?_
  exact owns_freeHead.bind fun _ => .pure fun _ h => h

theorem owns_iwriteObj (ho : Usable k₀ mine o) :
    Hoare (Owns k₀ mine) (iwriteObj e o) fun _ k => Owns k₀ mine k :=
  (owns_inodeAt ho).bind fun _ => owns_onDev _

theorem owns_addEntryObj (hdir : Usable k₀ mine dir) (name : List UInt8) (inr : ℕ) :
    Hoare (Owns k₀ mine) (addEntryObj e dir name inr) fun _ k => Owns k₀ mine k := by
  refine (owns_inodeAt hdir).bind fun inode => (owns_onDev _).bind fun ⟨err, inode, dirty⟩ => ?_
  exact (owns_setInode hdir inode).bind fun _ => .pure fun _ h => h

theorem owns_enterInode (hdir : Usable k₀ mine dir) (dname : List UInt8) (ho : Usable k₀ mine o) :
    Hoare (Owns k₀ mine) (enterInode e dir dname o) fun _ k => Owns k₀ mine k := by
  refine (owns_iwriteObj ho).bind fun r => .ite (fun _ => .pure fun _ h => h) fun _ => ?_
  refine (owns_inodeAt ho).bind fun inode => ?_
  refine (owns_addEntryObj hdir dname _).bind fun ⟨err, dirty⟩ => ?_
  refine .ite (fun _ => .pure fun _ h => h) fun _ => .ite (fun _ => ?_) fun _ => .pure fun _ h => h
  refine (owns_iwriteObj hdir).bind fun r => ?_
  exact .ite (fun _ => .pure fun _ h => h) fun _ => .pure fun _ h => h

theorem owns_makeEntry (hdir : Usable k₀ mine dir) (dname : List UInt8) (mode : ℤ) :
    Hoare (Owns k₀ mine) (makeEntry e dir dname mode) fun r k =>
      Owns k₀ (r.toOption.toList ++ mine) k := by
  refine (owns_tfsNewInode hdir mode).bind fun r => ?_
  cases r with
  | error err => exact .pure fun _ h => h
  | ok obj =>
    refine (owns_enterInode (hdir.cons obj) dname usable_head).bind fun err => ?_
    refine .ite (fun _ => owns_freeHead.bind fun _ => .pure fun _ h => h)
      fun _ => .pure fun _ h => h

theorem owns_tfsMknod (hdir : Usable k₀ mine dir) (dname : List UInt8) (mode : ℤ) :
    Hoare (Owns k₀ mine) (tfsMknod e dir dname mode) fun r k =>
      Owns k₀ (r.toOption.toList ++ mine) k := by
  refine (owns_inodeAt hdir).bind fun inode => (owns_onDev _).bind fun r => ?_
  cases r with
  | null => exact owns_makeEntry hdir dname mode
  | err err => exact owns_makeEntry hdir dname mode
  | found cs de => exact .pure fun _ h => h

theorem owns_enterDots (hdir : Usable k₀ mine dir) (hparent : Usable k₀ mine parent) :
    Hoare (Owns k₀ mine) (enterDots e dir parent) fun _ k => Owns k₀ mine k := by
  refine (owns_inodeAt hdir).bind fun inode => ?_
  refine (owns_addEntryObj hdir dot _).bind fun ⟨err, _⟩ => ?_
  refine .ite (fun _ => .pure fun _ h => h) fun _ => (owns_inodeAt hparent).bind fun parent => ?_
  refine (owns_addEntryObj hdir (dot ++ dot) _).bind fun ⟨err, dirty⟩ => ?_
  refine .ite (fun _ => .pure fun _ h => h) fun _ => ?_
  exact .ite (fun _ => owns_iwriteObj hdir) fun _ => .pure fun _ h => h

/-- **`tfs_mkdir` in the current directory**, which it does not free. -/
theorem owns_tfsMkdir (dname : List UInt8) :
    Hoare (Owns k₀ mine) (tfsMkdir e k₀.pwd dname) fun _ k => Owns k₀ mine k := by
  have hpwd : Usable k₀ mine k₀.pwd := .inl held_pwd
  refine (owns_tfsMknod hpwd dname TFS_DIR).bind fun r => ?_
  cases r with
  | error err => exact owns_freePwd.bind fun _ => .pure fun _ h => h
  | ok dir =>
    refine (owns_enterDots usable_head (hpwd.cons dir)).bind fun err => ?_
    exact owns_freeHead.bind fun _ => owns_freePwd.bind fun _ => .pure fun _ h => h

theorem owns_removeEntry (hdir : Usable k₀ mine dir) (cs : CacheRef) (de : ℕ) :
    Hoare (Owns k₀ (o :: mine)) (removeEntry e dir o cs de) fun _ k => Owns k₀ mine k := by
  refine (owns_inodeAt (hdir.cons o)).bind fun inode => ?_
  refine (owns_setInode (hdir.cons o) _).bind fun _ =>
    (owns_iwriteObj (hdir.cons o)).bind fun err => ?_
  refine .ite (fun _ => owns_giveUp err) fun _ => (owns_onDev _).bind fun err => ?_
  exact .ite (fun _ => owns_giveUp err) fun _ => owns_tfsReleaseInode

theorem owns_withEntry (hdir : Usable k₀ mine dir) (dname : List UInt8)
    {call : ℕ → CacheRef → ℕ → KernelM ℤ}
    (hcall : ∀ obj cs de,
      Hoare (Owns k₀ (obj :: mine)) (call obj cs de) fun _ k => Owns k₀ mine k) :
    Hoare (Owns k₀ mine) (withEntry e dir dname call) fun _ k => Owns k₀ mine k := by
  refine (owns_inodeAt hdir).bind fun inode => (owns_onDev _).bind fun r => ?_
  cases r with
  | null => exact .pure fun _ h => h
  | err err => exact .pure fun _ h => h
  | found cs de =>
    refine (owns_onDev _).bind fun inr => (owns_tfsIgetByInr inr).bind fun r => ?_
    cases r with
    | error err => exact .pure fun _ h => h
    | ok obj => exact hcall obj cs de

theorem owns_tfsRmdir (hdir : Usable k₀ mine dir) (dname : List UInt8) :
    Hoare (Owns k₀ mine) (tfsRmdir e dir dname) fun _ k => Owns k₀ mine k := by
  refine owns_withEntry hdir dname fun obj cs de => (owns_inodeAt usable_head).bind fun inode => ?_
  refine .ite (fun _ => owns_giveUp _) fun _ => .ite (fun _ => owns_giveUp _) fun _ => ?_
  exact .ite (fun _ => owns_giveUp _) fun _ => owns_removeEntry hdir cs de

theorem owns_tfsUnlink (hdir : Usable k₀ mine dir) (dname : List UInt8) :
    Hoare (Owns k₀ mine) (tfsUnlink e dir dname) fun _ k => Owns k₀ mine k := by
  refine owns_withEntry hdir dname fun obj cs de => (owns_inodeAt usable_head).bind fun inode => ?_
  refine .ite (fun _ => ?_) fun _ => owns_removeEntry hdir cs de
  exact (owns_onDev _).bind fun err => owns_giveUp err

/-! ### Path lookup -/

/-- The call owns some objects. -/
def OwnsSome (k₀ k : Kernel) : Prop := ∃ mine, Owns k₀ mine k

/-- The call owns some objects and may dispose of this one. -/
def Has (k₀ : Kernel) (o : ℕ) (k : Kernel) : Prop := ∃ mine, Owns k₀ mine k ∧ Disposable k₀ mine o

theorem Has.some (h : Has k₀ o k) : OwnsSome k₀ k := let ⟨mine, h, _⟩ := h; ⟨mine, h⟩

/-- `free_inode` of an object that may be disposed of, after which another may. -/
theorem freeInode_disposable (ho : Disposable k₀ mine o) :
    Hoare (Owns k₀ mine) (freeInode o) fun _ k => Owns k₀ (mine.erase o) k := by
  by_cases hm : o ∈ mine
  · exact owns_freeInode hm
  · obtain rfl := ho.resolve_right hm
    rw [List.erase_of_not_mem hm]
    exact owns_freePwd

theorem freeInode_has : Hoare (Has k₀ o) (freeInode o) fun _ k => OwnsSome k₀ k :=
  .exists fun mine k h => ⟨mine.erase o, freeInode_disposable h.2 k h.1⟩

/-- One component of the walk: the parent is freed behind it. -/
theorem freeInode_behind {m : List ℕ} (hp : Disposable k₀ mine parent) (hm : m = obj :: mine) :
    Hoare (Owns k₀ m) (freeInode parent) fun _ k => Has k₀ obj k := by
  subst hm
  refine fun k h => ⟨_, freeInode_disposable (hp.cons obj) k h, .inr ?_⟩
  refine (h.nodup.mem_erase_iff).mpr ⟨fun heq => ?_, List.mem_cons_self⟩
  subst heq
  rcases hp with rfl | hmem
  · exact (h.own _ List.mem_cons_self).2 held_pwd
  · exact (List.nodup_cons.mp h.nodup).1 hmem

/-- What the walk has in hand when it ends. -/
def Walked.Ok (k₀ : Kernel) (w : Walked) (k : Kernel) : Prop :=
  match w with
  | .inode obj => Has k₀ obj k
  | .parent obj => Has k₀ obj k
  | .tooLong => OwnsSome k₀ k
  | .missing _ parent _ => Has k₀ parent k

/-- One component, after which the walk ends or goes on. -/
theorem walkInto_has (part : List UInt8) {next : ℕ → KernelM Walked}
    (hnext : ∀ obj, Hoare (Has k₀ obj) (next obj) fun w k => w.Ok k₀ k) :
    Hoare (Has k₀ parent) (walkInto e part parent next) fun w k => w.Ok k₀ k := by
  refine .exists fun mine => ?_
  refine fun k ⟨h, hp⟩ => ((owns_tfsIget part hp.usable).bind fun r => ?_) k h
  cases r with
  | error err => exact .pure fun k h => ⟨mine, h, hp⟩
  | ok obj => exact (freeInode_behind hp rfl).bind fun _ => hnext obj

/-- **The walk of `namei`**, from an object that it may dispose of. -/
theorem nameiWalk_has (flag : ℕ) (name part : List UInt8) (parent : ℕ) :
    Hoare (Has k₀ parent) (nameiWalk e flag name part parent) fun w k => w.Ok k₀ k := by
  induction name generalizing part parent with
  | nil =>
    refine .ite (fun _ => .pure fun _ h => h) fun _ => .ite (fun _ => .pure fun _ h => h)
      fun _ => ?_
    exact walkInto_has part fun obj => .pure fun _ h => h
  | cons c name ih =>
    refine .ite (fun _ => .ite (fun _ => .pure fun _ h => h.some) fun _ => ih _ _) fun _ => ?_
    refine .ite (fun _ => ih _ _) fun _ => .ite (fun _ => .pure fun _ h => h) fun _ => ?_
    exact walkInto_has part fun obj => ih [] obj

end Thunix.Fs
