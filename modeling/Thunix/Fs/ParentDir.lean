import Thunix.Fs.LookupKernel

/-!
# The parent directory of a path

`namei_parent` and the four system calls that use it, over any lookup with a state. A pointer
to an inode is an inode, `NULL` or an error (`Thunix.Fs.Lookup.Found`), and the pointers that
`namei_parent` follows are recorded.

The test of what `namei` has found is the wrong way round. An inode goes back as it is,
directory or not, and what is no inode is followed. So there is a directory or an error, and
no wrong pointer followed, exactly when the components of the path before the last lead to a
directory and none is too long (`Thunix.Fs.Lookup.deliversDir_iff`).
-/

namespace Thunix.Fs.Lookup

/-! ### The source -/

/-- The operations of the inodes, with those that follow whatever pointer they are given. -/
structure PtrOps (m : Type → Type) (ι : Type) extends Ops m ι where
  /-- `IS_DIR` -/
  isDir : Found ι → m Bool
  /-- `free_inode` -/
  freePtr : Found ι → m Unit

/-- `IS_ERR_OR_NULL`. -/
def isErrOrNull {ι : Type} : Found ι → Bool
  | .inode _ => false
  | .null => true
  | .err _ => true

/-- `dir ? ERR_CAST(dir) : ERR_PTR(-ENOENT)`. -/
def errCast {ι : Type} : Found ι → Found ι
  | .null => .err (-ENOENT)
  | f => f

section Source

variable {m : Type → Type} [Monad m] {ι : Type} (o : PtrOps m ι)

/-- `namei_parent`: what it returns, and the pointers it follows. -/
def nameiParent (root pwd : ι) (part : Part) (path : List UInt8) :
    m (Ended ι × List (Found ι)) := do
  match ← namei o.toOps root pwd part path 1 with
  | .found dir =>
    if !isErrOrNull dir then pure (.found (errCast dir), [])
    else if !(← o.isDir dir) then do
      o.freePtr dir
      pure (.found (.err (-ENOTDIR)), [dir, dir])
    else pure (.found dir, [dir])
  | .fault => pure (.fault, [])
  | .endless => pure (.endless, [])

/-- `sys_mkdir`, `sys_rmdir`, `sys_unlink` and `sys_mknod`, with their calls on the parent.
There is no result when a pointer is followed that is none. -/
def withParent (call : ι → m ℤ) (root pwd : ι) (part : Part) (path : List UInt8) :
    m (Option ℤ) := do
  match (← nameiParent o root pwd part path).1 with
  | .found (.inode dir) => do
    let err ← call dir
    o.freeInode dir
    pure (some err)
  | .found (.err n) => pure (some n)
  | _ => pure none

end Source

/-! ### What is promised -/

section Promise

variable {σ ι : Type} (o : PtrOps (StateM σ) ι) (root pwd : ι) (part : Part) (path : List UInt8)
  (s : σ)

/-- **What is promised of `namei_parent`** in a state. -/
structure DeliversDir : Prop where
  /-- It returns a directory, or an error. -/
  returns : ∃ f, (nameiParent o root pwd part path s).1.1 = .found f ∧
    ((∃ i, f = .inode i ∧ (o.isDir f (nameiParent o root pwd part path s).2).1 = true) ∨
      ∃ n, f = .err n)
  /-- An inode that is found and is no directory is reported. -/
  notDir : ∀ i s₁, namei o.toOps root pwd part path 1 s = (.found (.inode i), s₁) →
    (o.isDir (.inode i) s₁).1 = false →
      (nameiParent o root pwd part path s).1.1 = .found (.err (-ENOTDIR))
  /-- An error of the lookup goes through. -/
  missing : ∀ n s₁, namei o.toOps root pwd part path 1 s = (.found (.err n), s₁) →
    (nameiParent o root pwd part path s).1.1 = .found (.err n)
  /-- Only inodes are followed. -/
  follows : ∀ p ∈ (nameiParent o root pwd part path s).1.2, ∃ i, p = .inode i
  /-- The system calls pass on directories only: what a call does on other inodes does not
  matter. -/
  passes : ∀ call call' : ι → StateM σ ℤ,
    (∀ i s₁, (o.isDir (.inode i) s₁).1 = true → call i s₁ = call' i s₁) →
      withParent o call root pwd part path s = withParent o call' root pwd part path s

/-- **The components lead** from an inode to another: each is found in the inode before it. -/
inductive Leads (o : Ops (StateM σ) ι) : List (List UInt8) → ι → σ → ι → σ → Prop
  | here (i : ι) (s : σ) : Leads o [] i s i s
  | into {name : List UInt8} {comps : List (List UInt8)} {dir i j : ι} {s s₁ s' : σ}
    (get : o.iget name dir s = (.inode i, s₁))
    (rest : Leads o comps i (o.freeInode dir s₁).2 j s') : Leads o (name :: comps) dir s j s'

/-- **The condition**: the components before the last lead to a directory, and none is too
long. -/
def ParentIsDir : Prop :=
  (∀ c ∈ components path, c.length ≤ MAX_NAME_LEN) ∧
    ∃ i s', Leads o.toOps (components path).dropLast (startInode root pwd path) s i s' ∧
      (o.isDir (.inode i) s').1 = true

end Promise

/-! ### The lookup -/

section Lookups

variable {σ ι : Type} {o : Ops (StateM σ) ι} {name path : List UInt8} {comps : List (List UInt8)}
  {dir i root pwd : ι} {s s' : σ} {part : Part} {flag fuel : ℕ}

theorem run_bind {α β : Type} (x : StateM σ α) (f : α → StateM σ β) (s : σ) :
    (x >>= f) s = f (x s).1 (x s).2 := rfl

theorem run_pure {α : Type} (a : α) (s : σ) : (pure a : StateM σ α) s = (a, s) := rfl

section Step

variable {s₁ : σ} (hle : name.length ≤ MAX_NAME_LEN)
  (hwanted : lookupParent flag = true → comps ≠ [])

include hle hwanted

/-- The walk goes on from the inode that is found. -/
theorem walkComps_inode (hget : o.iget name dir s = (.inode i, s₁)) :
    walkComps o flag (name :: comps) dir s =
      walkComps o flag comps i (o.freeInode dir s₁).2 := by
  rw [walkComps, if_neg (Nat.not_lt.mpr hle), if_neg fun h => hwanted h.2 h.1, run_bind, hget]
  rfl

/-- The walk ends where the lookup fails. -/
theorem walkComps_failed {f : Found ι} (hf : ∀ i, f ≠ .inode i)
    (hget : o.iget name dir s = (f, s₁)) :
    walkComps o flag (name :: comps) dir s = stopAt o flag dir name f s₁ := by
  rw [walkComps, if_neg (Nat.not_lt.mpr hle), if_neg fun h => hwanted h.2 h.1, run_bind, hget]
  cases f with
  | inode i => exact absurd rfl (hf i)
  | null => rfl
  | err n => rfl

end Step

theorem leads_nil : Leads o [] dir s i s' ↔ dir = i ∧ s = s' := by
  constructor
  · rintro ⟨⟩
    exact ⟨rfl, rfl⟩
  · rintro ⟨rfl, rfl⟩
    exact .here _ _

theorem leads_cons {f : Found ι} {s₁ : σ} (hget : o.iget name dir s = (f, s₁)) :
    Leads o (name :: comps) dir s i s' ↔
      ∃ i₁, f = .inode i₁ ∧ Leads o comps i₁ (o.freeInode dir s₁).2 i s' := by
  constructor
  · rintro (_ | ⟨get, rest⟩)
    obtain ⟨rfl, rfl⟩ := Prod.mk.inj (hget.symm.trans get)
    exact ⟨_, rfl, rest⟩
  · rintro ⟨i₁, rfl, rest⟩
    exact .into hget rest

/-- **The walk finds an inode** where the components that are wanted lead to it, none being too
long. -/
theorem walkComps_eq_inode (hcreate : lookupCreate flag = false) :
    walkComps o flag comps dir s = (.found (.inode i), s') ↔
      (∀ c ∈ comps, c.length ≤ MAX_NAME_LEN) ∧ Leads o (wanted flag comps) dir s i s' := by
  have hpure : ∀ dir s, (pure (.found (.inode dir)) : StateM σ (Ended ι)) s =
      (.found (.inode i), s') ↔ Leads o [] dir s i s' := fun dir s => by
    rw [run_pure, Prod.mk.injEq, Ended.found.injEq, Found.inode.injEq, leads_nil]
  induction comps generalizing dir s with
  | nil =>
    rw [wanted_nil, ← hpure]
    exact (and_iff_right fun c hc => absurd hc List.not_mem_nil).symm
  | cons name comps ih =>
    rw [List.forall_mem_cons]
    by_cases hle : name.length ≤ MAX_NAME_LEN
    swap
    · rw [walkComps, if_pos (Nat.lt_of_not_le hle), run_pure]
      exact iff_of_false (fun h => by cases congrArg Prod.fst h) fun h => hle h.1.1
    rw [and_iff_right hle]
    by_cases hlast : comps = [] ∧ lookupParent flag = true
    · obtain ⟨rfl, hparent⟩ := hlast
      have hwanted : wanted flag [name] = [] := if_pos hparent
      rw [walkComps, if_neg (Nat.not_lt.mpr hle), if_pos ⟨rfl, hparent⟩, hwanted, hpure]
      exact (and_iff_right fun c hc => absurd hc List.not_mem_nil).symm
    · have hmore : lookupParent flag = true → comps ≠ [] := fun hp hnil => hlast ⟨hnil, hp⟩
      rcases hget : o.iget name dir s with ⟨f, s₁⟩
      rw [wanted_cons hlast, leads_cons hget]
      have hfailed : (∀ j, f ≠ .inode j) →
          (walkComps o flag (name :: comps) dir s = (.found (.inode i), s') ↔
            (∀ c ∈ comps, c.length ≤ MAX_NAME_LEN) ∧ ∃ i₁, f = .inode i₁ ∧
              Leads o (wanted flag comps) i₁ (o.freeInode dir s₁).2 i s') := by
        intro hf
        rw [walkComps_failed hle hmore hf hget, stopAt_found o hcreate, run_pure]
        refine iff_of_false (fun h => hf i (Ended.found.inj (congrArg Prod.fst h))) fun h => ?_
        obtain ⟨j, hj, -⟩ := h.2
        exact hf j hj
      cases f with
      | inode i₁ =>
        rw [walkComps_inode hle hmore hget]
        refine ih.trans (and_congr_right' ⟨fun h => ⟨i₁, rfl, h⟩, fun h => ?_⟩)
        obtain ⟨_, hi, h⟩ := h
        obtain rfl := Found.inode.inj hi
        exact h
      | null => exact hfailed fun j h => by cases h
      | err n => exact hfailed fun j h => by cases h

/-- **`namei` finds an inode** where the walk does. -/
theorem namei_eq_inode (hcreate : lookupCreate flag = false) (h0 : 0 ∉ path) :
    namei o root pwd part path flag s = (.found (.inode i), s') ↔
      (∀ c ∈ components path, c.length ≤ MAX_NAME_LEN) ∧
        Leads o (wanted flag (components path)) (startInode root pwd path) s i s' := by
  rw [namei_walk o root pwd part h0, walkComps_eq_inode hcreate]

end Lookups

/-! ### The parent -/

section Parent

variable {σ ι : Type} {o : PtrOps (StateM σ) ι} {root pwd i : ι} {part : Part}
  {path : List UInt8} {s s₁ : σ}

/-- An inode goes back as it is. -/
theorem nameiParent_inode (h : namei o.toOps root pwd part path 1 s = (.found (.inode i), s₁)) :
    nameiParent o root pwd part path s = ((.found (.inode i), []), s₁) := by
  rw [nameiParent, run_bind, h]
  rfl

/-- Any other pointer is followed. -/
theorem nameiParent_follows {f : Found ι} (hf : isErrOrNull f = true)
    (h : namei o.toOps root pwd part path 1 s = (.found f, s₁)) :
    f ∈ (nameiParent o root pwd part path s).1.2 := by
  have hif : ¬(!isErrOrNull f) = true := by
    rw [hf]
    exact Bool.false_ne_true
  rw [nameiParent, run_bind, h]
  dsimp only
  rw [if_neg hif, run_bind]
  cases (o.isDir f s₁).1 <;> exact List.mem_cons_self

/-- **A directory or an error** comes back, no pointer but an inode is followed and the system
calls pass on directories only, exactly when the components before the last lead to a directory
and none is too long. -/
theorem deliversDir_iff (h0 : 0 ∉ path) :
    DeliversDir o root pwd part path s ↔ ParentIsDir o root pwd path s := by
  have hwanted : wanted 1 (components path) = (components path).dropLast := if_pos rfl
  constructor
  · intro h
    obtain ⟨f, hf, hkind⟩ := h.returns
    have hfollows := h.follows
    rcases hnamei : namei o.toOps root pwd part path 1 s with ⟨ended, s₁⟩
    cases ended with
    | found g =>
      by_cases hg : isErrOrNull g = true
      · obtain ⟨i, rfl⟩ := hfollows g (nameiParent_follows hg hnamei)
        cases hg
      · cases g with
        | inode i =>
          rw [nameiParent_inode hnamei] at hf hkind
          obtain rfl := Ended.found.inj hf
          obtain ⟨hle, hleads⟩ := (namei_eq_inode rfl h0).mp hnamei
          rw [hwanted] at hleads
          rcases hkind with ⟨j, -, hdir⟩ | ⟨n, hn⟩
          · exact ⟨hle, i, s₁, hleads, hdir⟩
          · cases hn
        | null => exact absurd rfl hg
        | err n => exact absurd rfl hg
    | fault =>
      rw [nameiParent, run_bind, hnamei] at hf
      cases hf
    | endless =>
      rw [nameiParent, run_bind, hnamei] at hf
      cases hf
  · rintro ⟨hle, i, s₁, hleads, hdir⟩
    rw [← hwanted] at hleads
    have hnamei : namei o.toOps root pwd part path 1 s = (.found (.inode i), s₁) :=
      (namei_eq_inode rfl h0).mpr ⟨hle, hleads⟩
    have hrun := nameiParent_inode hnamei
    refine ⟨⟨.inode i, by rw [hrun], .inl ⟨i, rfl, by rwa [hrun]⟩⟩, ?_, ?_, ?_, ?_⟩
    · intro j s₂ hj hnot
      obtain ⟨hji, rfl⟩ := Prod.ext_iff.mp (hnamei.symm.trans hj)
      obtain rfl := Found.inode.inj (Ended.found.inj hji)
      exact absurd (hdir.symm.trans hnot) (by decide)
    · intro n s₂ hn
      have hne := Ended.found.inj (congrArg Prod.fst (hnamei.symm.trans hn))
      cases hne
    · intro p hp
      rw [hrun] at hp
      exact absurd hp List.not_mem_nil
    · intro call call' hcalls
      rw [withParent, withParent, run_bind, run_bind, hrun]
      dsimp only
      rw [run_bind, run_bind, hcalls i s₁ hdir]
      rfl

end Parent

/-! ### A small tree -/

/-- A directory 0 with a file `a`. -/
def fileTree : PtrOps (StateM Unit) ℕ where
  iget name dir := pure (if dir = 0 ∧ name = [97] then .inode 1 else .err (-ENOENT))
  freeInode _ := pure ()
  mknod _ _ := pure .null
  iwrite _ := pure 0
  isDir f := pure (f = .inode 0)
  freePtr _ := pure ()

/-- The parent of `"//b/"` is the root. -/
theorem deliversDir_iff_fileTree :
    DeliversDir fileTree 0 0 (fun _ => 0) [47, 47, 98, 47] () :=
  (deliversDir_iff (by decide)).mpr ⟨by decide, 0, (), .here _ _, rfl⟩

/-- **Neither a file nor what is missing** stops the call: the parent of `"a/b"` is the file
`a`, and for `"b/c"` the error is followed. -/
theorem not_deliversDir :
    ¬∀ (σ ι : Type) (o : PtrOps (StateM σ) ι) (root pwd : ι) (part : Part) (path : List UInt8)
      (s : σ), 0 ∉ path → DeliversDir o root pwd part path s := by
  intro hall
  have h := hall Unit ℕ fileTree 0 0 (fun _ => 0) [98, 47, 99] () (by decide)
  obtain ⟨i, hi⟩ := h.follows (.err (-ENOENT)) (nameiParent_follows rfl rfl)
  cases hi

/-! ### The file system -/

section Kernel

variable (e : Env) {path : List UInt8}

/-- The operations of the file system. What a pointer that is none shows is not known. -/
def kernelPtrOps : PtrOps KernelM ℕ where
  toOps := kernelOps e
  isDir
    | .inode obj => kernelIsDir obj
    | _ => do
      fault .badPointer
      pure ((← onDev (uninitialised e)) = TFS_DIR)
  freePtr
    | .inode obj => Fs.freeInode obj
    | _ => pure ()

/-- **`namei_parent`** of the file system. -/
theorem nameiParent_kernel (part : Part) (h0 : 0 ∉ path) (k : Kernel) :
    ∃ followed, nameiParent (kernelPtrOps e) k.root k.pwd part path k =
      ((.found (ofExcept (Fs.nameiParent e path k).1), followed), (Fs.nameiParent e path k).2) := by
  have hnamei := namei_kernel e part 1 h0 k
  rw [KernelM.bind_apply] at hnamei
  unfold Fs.nameiParent
  rw [nameiParent, run_bind, KernelM.bind_apply]
  change namei (kernelPtrOps e).toOps k.root k.pwd part path 1 k = _ at hnamei
  rw [hnamei]
  generalize Fs.namei e path 1 k = r
  obtain ⟨r, k₁⟩ := r
  cases r with
  | ok obj => exact ⟨[], rfl⟩
  | error n =>
    have hif : ¬(!isErrOrNull (ofExcept (.error n) : Found ℕ)) = true := Bool.false_ne_true
    simp only [ended, KernelM.pure_apply]
    rw [if_neg hif, run_bind, KernelM.bind_apply, KernelM.bind_apply]
    simp only [ofExcept, kernelPtrOps, KernelM.bind_apply, KernelM.pure_apply]
    by_cases hmode : (onDev (uninitialised e) (fault .badPointer k₁).2).1 = TFS_DIR
    · exact ⟨[.err n], by simp [hmode, KernelM.pure_apply]⟩
    · exact ⟨[.err n, .err n], by simp [hmode, KernelM.pure_apply, KernelM.bind_apply]⟩

/-- **The system calls** of the file system. -/
theorem withParent_kernel (call : ℕ → List UInt8 → KernelM ℤ) (part : Part) (h0 : 0 ∉ path)
    (k : Kernel) :
    withParent (kernelPtrOps e) (fun dir => do
        touch dir
        call dir (← onDev (baseName e path))) k.root k.pwd part path k =
      (some (Fs.withParent e call path k).1, (Fs.withParent e call path k).2) := by
  obtain ⟨followed, hparent⟩ := nameiParent_kernel e part h0 k
  rw [withParent, Fs.withParent, run_bind, hparent, KernelM.bind_apply]
  generalize Fs.nameiParent e path k = r
  obtain ⟨r, k₁⟩ := r
  cases r with
  | ok dir => rfl
  | error n => rfl

end Kernel

end Thunix.Fs.Lookup
