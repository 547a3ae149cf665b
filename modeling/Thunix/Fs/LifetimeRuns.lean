import Thunix.Fs.Lifetime

/-!
# The life of inode objects along runs

The system calls over the discipline of `Thunix.Fs.Owns`. Each is covered under its part
of `Thunix.Fs.KeepsObjects`, and so are runs of them (`Thunix.Fs.lifetimeOk_of_reach`).
Without the condition a run of two calls goes wrong (`Thunix.Fs.not_lifetimeOk`).
-/

namespace Thunix.Fs

variable {e : Env} {k k₀ k' : Kernel} {mine : List ℕ} {o obj dir parent : ℕ} {α β : Type}

/-! ### Between system calls -/

/-- What holds between system calls: what is held is alive, and there has been no fault. -/
def Live (k : Kernel) : Prop := Owns k [] k

/-- **What is promised**: there has been no fault, and the root and the current directory
are alive. -/
structure LifetimeOk (k : Kernel) : Prop where
  faults : k.faults = []
  root : k.alive k.root = true
  pwd : k.alive k.pwd = true

theorem Live.lifetimeOk (h : Live k) : LifetimeOk k :=
  ⟨h.faults, h.held _ held_root, h.held _ held_pwd⟩

theorem Owns.held_iff (h : Owns k₀ mine k) : Held k o ↔ Held k₀ o := by
  rw [Held, Held, h.root, h.pwd, h.files, h.dirs]

/-- At the end of a call what it still owns is forgotten. -/
theorem OwnsSome.live (h : OwnsSome k₀ k) : Live k := by
  obtain ⟨mine, h⟩ := h
  exact ⟨rfl, rfl, rfl, rfl, h.faults, fun o ho => h.held o (h.held_iff.mp ho),
    fun _ ho => absurd ho List.not_mem_nil, List.nodup_nil, h.bound⟩

/-- An object that may be used becomes a held one. -/
theorem Owns.live (h : Owns k₀ mine k) (ho : Usable k₀ mine o) (halive : k'.alive = k.alive)
    (hnext : k'.nextObj = k.nextObj) (hfaults : k'.faults = k.faults)
    (hheld : ∀ o', Held k' o' → o' = o ∨ Held k o') : Live k' := by
  refine ⟨rfl, rfl, rfl, rfl, hfaults.trans h.faults, fun o' ho' => ?_,
    fun _ ho => absurd ho List.not_mem_nil, List.nodup_nil, fun o' ho' => ?_⟩
  · rw [halive]
    rcases hheld o' ho' with rfl | ho'
    · exact h.alive ho
    · exact h.held o' (h.held_iff.mp ho')
  · rw [halive] at ho'
    rw [hnext]
    exact h.bound o' ho'

/-- A held object is given up, and passed to `free_inode` before that. -/
theorem live_freeInode (h : Live k) (ho : Held k o) (hdrop : ∀ o', Held k' o' → Held k o')
    (hfree : o = k.pwd ∨ ¬Held k' o) (halive : k'.alive = (freeInode o k).2.alive)
    (hnext : k'.nextObj = k.nextObj) (hfaults : k'.faults = (freeInode o k).2.faults) :
    Live k' := by
  have ha : k.alive o = true := h.held o ho
  have hrun : freeInode o k = if o = k.pwd then ((), k)
      else ((), { k with alive := Function.update k.alive o false }) := by
    rw [freeInode, KernelM.bind_apply, touch, if_pos ha, freeObj, if_pos ha]
  rw [hrun] at halive hfaults
  refine ⟨rfl, rfl, rfl, rfl, ?_, fun o' ho' => ?_, fun _ ho => absurd ho List.not_mem_nil,
    List.nodup_nil, fun o' ho' => ?_⟩
  · rw [hfaults]
    split <;> exact h.faults
  · rw [halive]
    split
    · exact h.held o' (hdrop o' ho')
    · rename_i hne
      have hne' : o' ≠ o := fun heq => hfree.resolve_left hne (heq ▸ ho')
      exact (Function.update_of_ne hne' _ _).trans (h.held o' (hdrop o' ho'))
  · rw [hnext]
    rw [halive] at ho'
    refine h.bound o' ?_
    split at ho'
    · exact ho'
    · by_cases heq : o' = o
      · rw [heq]
        exact ha
      · exact (Function.update_of_ne heq _ _).symm.trans ho'

/-! ### Paths -/

/-- The walk over this path begins at the current directory. -/
def StartsHere (k : Kernel) (path : List UInt8) : Prop :=
  path.head? = some slash → k.root = k.pwd

instance {path : List UInt8} : Decidable (StartsHere k path) := inferInstanceAs (Decidable (_ → _))

/-- The path has one component at most, of a length that `namei` takes, when `n` of its
characters have been read. -/
def oneComponent : List UInt8 → ℕ → Bool
  | [], _ => true
  | c :: name, n =>
    if c ≠ slash then decide (n < MAX_NAME_LEN) && oneComponent name (n + 1)
    else if n = 0 then oneComponent name 0
    else name.all (· = slash)

/-- What `namei` returns. -/
def Found (k₀ : Kernel) (r : Except ℤ ℕ) (k : Kernel) : Prop :=
  match r with
  | .ok obj => Has k₀ obj k
  | .error _ => OwnsSome k₀ k

theorem has_iwriteObj : Hoare (Has k₀ o) (iwriteObj e o) fun _ k => Has k₀ o k :=
  .exists fun mine k h => ⟨mine, owns_iwriteObj h.2.usable k h.1, h.2⟩

theorem has_touch : Hoare (Has k₀ o) (touch o) fun _ k => Has k₀ o k :=
  .exists fun mine k h => ⟨mine, owns_touch h.2.usable k h.1, h.2⟩

theorem has_inodeAt : Hoare (Has k₀ o) (inodeAt o) fun _ k => Has k₀ o k :=
  has_touch.bind fun _ _ h => h

theorem has_onDev (x : DevM α) : Hoare (Has k₀ o) (onDev x) fun _ k => Has k₀ o k :=
  .exists fun mine k h => ⟨mine, owns_onDev x k h.1, h.2⟩

theorem nameiCreate_found (part : List UInt8) :
    Hoare (Has k₀ parent) (nameiCreate e parent part) fun r k => Found k₀ r k := by
  refine .exists fun mine k ⟨h, hp⟩ =>
    ((owns_tfsMknod hp.usable part TFS_FILE).bind fun made => ?_) k h
  cases made with
  | error err =>
    exact (freeInode_disposable hp).bind fun _ => .pure fun k h => ⟨_, h⟩
  | ok obj =>
    refine (freeInode_behind hp rfl).bind fun _ => has_iwriteObj.bind fun r => ?_
    exact .ite (fun _ => freeInode_has.bind fun _ => .pure fun _ h => h) fun _ => .pure fun _ h => h

/-- The walk begins at an object that it may dispose of. -/
theorem has_start {name : List UInt8} (h : Live k₀) (hstart : StartsHere k₀ name) :
    Has k₀ (if name.head? = some slash then k₀.root else k₀.pwd) k₀ := by
  refine ⟨[], h, .inl ?_⟩
  by_cases hs : name.head? = some slash
  · rw [if_pos hs]
    exact hstart hs
  · rw [if_neg hs]

/-- **`namei`**, from the current directory. -/
theorem namei_found (h : Live k₀) {name : List UInt8} (hstart : StartsHere k₀ name) (flag : ℕ) :
    Hoare (fun k => k = k₀) (namei e name flag) fun r k => Found k₀ r k := by
  refine Hoare.bind (Q := fun start k => Has k₀ start k) ?_ fun start => ?_
  · rintro k rfl
    exact has_start h hstart
  · refine (nameiWalk_has flag name [] start).bind fun w => ?_
    cases w with
    | inode obj => exact .pure fun _ h => h
    | parent obj => exact .pure fun _ h => h
    | tooLong => exact .pure fun _ h => h
    | missing err parent part =>
      exact .ite (fun _ => nameiCreate_found part) fun _ => .pure fun _ h => h.some

/-- The walk over one component ends where it began. -/
theorem nameiWalk_oneComponent (name part : List UInt8) (parent : ℕ)
    (h : oneComponent name part.length = true) :
    ∃ w, (w = .inode parent ∨ w = .parent parent) ∧ nameiWalk e 1 name part parent = pure w := by
  have hflag : lookupParent 1 = true := rfl
  induction name generalizing part with
  | nil =>
    by_cases hp : part = []
    · exact ⟨_, .inl rfl, by rw [nameiWalk, if_pos hp]⟩
    · exact ⟨_, .inr rfl, by rw [nameiWalk, if_neg hp, if_pos hflag]⟩
  | cons c name ih =>
    rw [oneComponent] at h
    rw [nameiWalk]
    by_cases hc : c ≠ slash
    · rw [if_pos hc] at h ⊢
      rw [Bool.and_eq_true, decide_eq_true_eq] at h
      rw [if_neg (Nat.not_le.mpr h.1)]
      exact ih _ (by rw [List.length_append]; exact h.2)
    · rw [if_neg hc] at h ⊢
      by_cases hp : part = []
      · subst hp
        rw [if_pos rfl]
        exact ih [] h
      · rw [if_neg fun hl => hp (List.length_eq_zero_iff.mp hl)] at h
        rw [if_neg hp, if_pos ⟨hflag, h⟩]
        exact ⟨_, .inr rfl, rfl⟩

/-- The parent in a path of one component is the current directory. -/
theorem namei_oneComponent {name : List UInt8} (hstart : StartsHere k₀ name)
    (hone : oneComponent name 0 = true) : namei e name 1 k₀ = (.ok k₀.pwd, k₀) := by
  obtain ⟨w, hw, hrun⟩ := nameiWalk_oneComponent (e := e) name [] k₀.pwd hone
  have hpwd : (if name.head? = some slash then k₀.root else k₀.pwd) = k₀.pwd := by
    by_cases hs : name.head? = some slash
    · rw [if_pos hs]
      exact hstart hs
    · rw [if_neg hs]
  rw [namei, KernelM.bind_apply]
  simp only [hpwd]
  rw [KernelM.bind_apply, hrun]
  rcases hw with rfl | rfl <;> rfl

/-- The walk over slashes does nothing. -/
theorem nameiWalk_slashes (flag : ℕ) {name : List UInt8} (h : name.all (· = slash) = true)
    (parent : ℕ) : nameiWalk e flag name [] parent = pure (.inode parent) := by
  induction name with
  | nil => rw [nameiWalk, if_pos rfl]
  | cons c name ih =>
    rw [List.all_cons, Bool.and_eq_true, decide_eq_true_eq] at h
    rw [nameiWalk, if_neg (not_not.mpr h.1), if_pos rfl]
    exact ih h.2

/-! ### System calls on a parent directory -/

theorem nameiParent_found (h : Live k₀) {path : List UInt8} (hstart : StartsHere k₀ path)
    (hdir : (namei e path 1 k₀).1 = .ok dir) :
    Hoare (fun k => k = k₀) (nameiParent e path) fun r k => r = .ok dir ∧ Has k₀ dir k := by
  rintro k rfl
  have hfound := @namei_found e k h path hstart 1 k rfl
  rw [nameiParent, KernelM.bind_apply]
  generalize namei e path 1 k = r at hfound hdir
  obtain ⟨r, k'⟩ := r
  obtain rfl := hdir
  exact ⟨rfl, hfound⟩

/-- **A call on the parent directory**, which is freed after it. -/
theorem withParent_live (h : Live k₀) {path : List UInt8} (hstart : StartsHere k₀ path)
    (hdir : (namei e path 1 k₀).1 = .ok dir) {call : ℕ → List UInt8 → KernelM ℤ}
    (hcall : ∀ dname mine, Disposable k₀ mine dir →
      Hoare (Owns k₀ mine) (call dir dname) fun _ k => Owns k₀ mine k) :
    Hoare (fun k => k = k₀) (withParent e call path) fun _ k => Live k := by
  refine (nameiParent_found h hstart hdir).bind fun r => ?_
  cases r with
  | error err => exact fun k hk => absurd hk.1 (by simp)
  | ok dir' =>
    refine Hoare.pre (P := fun k => Has k₀ dir' k ∧ dir' = dir) (.assume fun heq => ?_)
      fun k hk => ⟨Except.ok.inj hk.1 ▸ hk.2, Except.ok.inj hk.1⟩
    subst heq
    refine has_touch.bind fun _ => (has_onDev _).bind fun dname => ?_
    refine Hoare.bind (Q := fun _ k => Has k₀ dir' k) ?_ fun err => ?_
    · exact .exists fun mine k hk => ⟨mine, hcall dname mine hk.2 k hk.1, hk.2⟩
    · exact freeInode_has.bind fun _ => .pure fun _ hk => hk.live

theorem owns_mknodIn (hdir : Usable k₀ mine dir) (dname : List UInt8) (mode : ℤ) :
    Hoare (Owns k₀ mine) (mknodIn e mode dir dname) fun _ k => Owns k₀ mine k := by
  refine (owns_tfsMknod hdir dname mode).bind fun r => ?_
  cases r with
  | error err => exact .pure fun _ h => h
  | ok obj => exact owns_freeHead.bind fun _ => .pure fun _ h => h

/-! ### The other system calls -/

/-- A change of the current directory. -/
theorem changeDir_live (path : List UInt8) :
    Hoare (fun k => ∃ mine, Owns k₀ mine k ∧ Usable k₀ mine obj) (changeDir path obj)
      fun _ k => Live k := by
  refine .exists fun mine => ?_
  refine Hoare.bind (Q := fun pwd k => (Owns k₀ mine k ∧ Usable k₀ mine obj) ∧ pwd = k₀.pwd)
    (fun k hk => ⟨hk, hk.1.pwd⟩) fun pwd => .assume fun hpwd => .assume fun hobj => ?_
  subst hpwd
  refine owns_freePwd.bind fun _ k hk => hk.live hobj rfl rfl rfl fun o ho => ?_
  rcases ho with ho | ho | ho | ho
  · exact .inr (.inl ho)
  · exact .inl ho
  · exact .inr (.inr (.inr (.inl ho)))
  · exact .inr (.inr (.inr (.inr ho)))

theorem sysChdir_live (h : Live k₀) {path : List UInt8}
    (hstart : StartsHere k₀ (skipDots path) ∨
      (skipDots path).all (· = slash) = true ∧ (k₀.objs k₀.root).iMode = TFS_DIR) :
    Hoare (fun k => k = k₀) (sysChdir e path) fun _ k => Live k := by
  refine .ite (fun _ => .pure fun k hk => by rw [hk]; exact h) fun _ => ?_
  by_cases hhere : StartsHere k₀ (skipDots path)
  · refine (namei_found h hhere 0).bind fun r => ?_
    cases r with
    | error err => exact .pure fun _ hk => hk.live
    | ok obj =>
      refine has_inodeAt.bind fun inode => .ite (fun _ => ?_) fun _ => ?_
      · exact freeInode_has.bind fun _ => .pure fun _ hk => hk.live
      · exact (changeDir_live _).pre fun k ⟨mine, hk, ho⟩ => ⟨mine, hk, ho.usable⟩
  · -- the root itself
    obtain ⟨hall, hmode⟩ := hstart.resolve_left hhere
    have hs : (skipDots path).head? = some slash := by
      by_contra hs
      exact hhere fun h => absurd h hs
    rintro k rfl
    have hroot : namei e (skipDots path) 0 k = (.ok k.root, k) := by
      rw [namei, KernelM.bind_apply]
      simp only [if_pos hs]
      rw [KernelM.bind_apply, nameiWalk_slashes 0 hall]
      rfl
    rw [KernelM.bind_apply, hroot]
    dsimp only
    have hat : inodeAt k.root k = (k.objs k.root, k) := by
      rw [inodeAt, KernelM.bind_apply, touch, if_pos (h.held _ held_root)]
    rw [KernelM.bind_apply, hat]
    dsimp only
    rw [if_neg (not_not.mpr hmode)]
    exact @changeDir_live k k.root _ k ⟨[], h, .inl held_root⟩

theorem has_getUnusedFd : Hoare (Has k₀ o) getUnusedFd fun _ k => Has k₀ o k := by
  rintro k ⟨mine, h, ho⟩
  unfold getUnusedFd
  split
  · exact ⟨mine, { h with }, ho⟩
  · exact ⟨mine, h, ho⟩

/-- What is held when an entry of `files` is set. -/
theorem held_setFile {f : File} {fd : ℕ}
    (h : Held { k with files := Function.update k.files fd (some f) } o) :
    o = f.inode ∨ Held k o := by
  rcases h with h | h | ⟨fd', f', hf, rfl⟩ | h
  · exact .inr (.inl h)
  · exact .inr (.inr (.inl h))
  · by_cases heq : fd' = fd
    · subst heq
      have hf' := (Function.update_self _ _ _).symm.trans hf
      exact .inl (by rw [Option.some.inj hf'])
    · exact .inr (.inr (.inr (.inl ⟨fd', f', (Function.update_of_ne heq _ _).symm.trans hf, rfl⟩)))
  · exact .inr (.inr (.inr (.inr h)))

theorem held_setDir {f : File} {n nextDir : ℕ}
    (h : Held { k with dirs := Function.update k.dirs n (some f), nextDir } o) :
    o = f.inode ∨ Held k o := by
  rcases h with h | h | h | ⟨n', f', hf, rfl⟩
  · exact .inr (.inl h)
  · exact .inr (.inr (.inl h))
  · exact .inr (.inr (.inr (.inl h)))
  · by_cases heq : n' = n
    · subst heq
      have hf' := (Function.update_self _ _ _).symm.trans hf
      exact .inl (by rw [Option.some.inj hf'])
    · exact .inr (.inr (.inr (.inr ⟨n', f', (Function.update_of_ne heq _ _).symm.trans hf, rfl⟩)))

theorem sysOpen_live (h : Live k₀) {path : List UInt8} (hstart : StartsHere k₀ path) (flags : ℕ) :
    Hoare (fun k => k = k₀) (sysOpen e path flags) fun _ k => Live k := by
  refine (namei_found h hstart flags).bind fun r => ?_
  cases r with
  | error err => exact .pure fun _ hk => hk.live
  | ok obj =>
    refine (has_onDev _).bind fun ok => .ite (fun _ => .pure fun _ hk => hk.some.live) fun _ => ?_
    refine has_touch.bind fun _ => has_getUnusedFd.bind fun fd => ?_
    refine .ite (fun _ => .pure fun _ hk => hk.some.live) fun _ k ⟨mine, hk, ho⟩ => ?_
    exact hk.live ho.usable rfl rfl rfl fun o' ho' => held_setFile ho'

theorem opendir_live (h : Live k₀) {path : List UInt8} (hstart : StartsHere k₀ path) :
    Hoare (fun k => k = k₀) (opendir e path) fun _ k => Live k := by
  refine (namei_found h hstart 0).bind fun r => ?_
  cases r with
  | error err => exact .pure fun _ hk => hk.live
  | ok obj =>
    refine (has_onDev _).bind fun ok => .ite (fun _ => .pure fun _ hk => hk.some.live) fun _ => ?_
    refine (has_onDev _).bind fun ok => .ite (fun _ => .pure fun _ hk => hk.some.live) fun _ => ?_
    refine has_touch.bind fun _ k ⟨mine, hk, ho⟩ => ?_
    exact hk.live ho.usable rfl rfl rfl fun o' ho' => held_setDir ho'

/-- The state without an open file. -/
def Kernel.dropFile (k : Kernel) (fd : ℕ) : Kernel :=
  { k with files := Function.update k.files fd none }

/-- The state without an open `DIR`. -/
def Kernel.dropDir (k : Kernel) (n : ℕ) : Kernel :=
  { k with dirs := Function.update k.dirs n none }

theorem held_of_dropFile {fd : ℕ} (h : Held (k.dropFile fd) o) : Held k o := by
  rcases h with h | h | ⟨fd', f', hf, rfl⟩ | h
  · exact .inl h
  · exact .inr (.inl h)
  · have hne : fd' ≠ fd := fun heq => by
      rw [heq] at hf
      exact absurd ((Function.update_self _ _ _).symm.trans hf) (by simp)
    exact .inr (.inr (.inl ⟨fd', f', (Function.update_of_ne hne _ _).symm.trans hf, rfl⟩))
  · exact .inr (.inr (.inr h))

theorem held_of_dropDir {n : ℕ} (h : Held (k.dropDir n) o) : Held k o := by
  rcases h with h | h | h | ⟨n', f', hf, rfl⟩
  · exact .inl h
  · exact .inr (.inl h)
  · exact .inr (.inr (.inl h))
  · have hne : n' ≠ n := fun heq => by
      rw [heq] at hf
      exact absurd ((Function.update_self _ _ _).symm.trans hf) (by simp)
    exact .inr (.inr (.inr ⟨n', f', (Function.update_of_ne hne _ _).symm.trans hf, rfl⟩))

theorem freeInode_files (o : ℕ) (k : Kernel) :
    (freeInode o k).2.files = k.files ∧ (freeInode o k).2.dirs = k.dirs ∧
      (freeInode o k).2.root = k.root ∧ (freeInode o k).2.pwd = k.pwd ∧
      (freeInode o k).2.nextObj = k.nextObj := by
  have htouch : ∀ k, (touch o k).2 = k ∨
      (touch o k).2 = { k with faults := k.faults ++ [.dangling o] } := fun k => by
    unfold touch
    split
    · exact .inl rfl
    · exact .inr rfl
  have hfree : ∀ k : Kernel, (freeObj o k).2.files = k.files ∧ (freeObj o k).2.dirs = k.dirs ∧
      (freeObj o k).2.root = k.root ∧ (freeObj o k).2.pwd = k.pwd ∧
      (freeObj o k).2.nextObj = k.nextObj := fun k => by
    unfold freeObj
    split <;> exact ⟨rfl, rfl, rfl, rfl, rfl⟩
  rw [freeInode, KernelM.bind_apply]
  rcases htouch k with ht | ht <;> rw [ht] <;> split
  · exact ⟨rfl, rfl, rfl, rfl, rfl⟩
  · exact hfree k
  · exact ⟨rfl, rfl, rfl, rfl, rfl⟩
  · exact hfree _

/-- **Closing a file** whose object no other pointer holds, or which is the current
directory. -/
theorem sysClose_live (h : Live k₀) {fd : ℤ} (hfd : fd ≠ MAX_FD)
    (hfree : ∀ f, k₀.files fd.toNat = some f →
      f.inode = k₀.pwd ∨ ¬Held (k₀.dropFile fd.toNat) f.inode) :
    Live (sysClose e fd k₀).2 := by
  rw [sysClose, withFile, KernelM.bind_apply, fget]
  by_cases hrange : fd < 0 ∨ fd > MAX_FD
  · rw [if_pos hrange]
    exact h
  · rw [if_neg hrange, if_neg hfd]
    cases hfile : k₀.files fd.toNat with
    | none =>
      simp only
      exact h
    | some f =>
      simp only
      rw [KernelM.bind_apply]
      obtain ⟨hfiles, hdirs, hroot, hpwd, hnext⟩ := freeInode_files f.inode k₀
      have hheld : ∀ o', Held { (freeInode f.inode k₀).2 with
          fds := Function.update (freeInode f.inode k₀).2.fds fd.toNat false
          files := Function.update (freeInode f.inode k₀).2.files fd.toNat none } o' ↔
          Held (k₀.dropFile fd.toNat) o' := fun o' => by
        simp only [Held, Kernel.dropFile, hfiles, hdirs, hroot, hpwd]
      refine live_freeInode h (.inr (.inr (.inl ⟨_, f, hfile, rfl⟩)))
        (fun o' ho' => held_of_dropFile ((hheld o').mp ho')) ?_ rfl hnext rfl
      exact (hfree f hfile).imp id fun hn ho => hn ((hheld _).mp ho)

theorem tfsClosedir_live (h : Live k₀) {n : ℕ}
    (hfree : ∀ f, k₀.dirs n = some f → f.inode = k₀.pwd ∨ ¬Held (k₀.dropDir n) f.inode) :
    Live (tfsClosedir n k₀).2 := by
  rw [tfsClosedir]
  cases hfile : k₀.dirs n with
  | none => exact h
  | some f =>
    obtain ⟨hfiles, hdirs, hroot, hpwd, hnext⟩ := freeInode_files f.inode k₀
    have hheld : ∀ o', Held { (freeInode f.inode k₀).2 with
        dirs := Function.update (freeInode f.inode k₀).2.dirs n none } o' ↔
        Held (k₀.dropDir n) o' := fun o' => by
      simp only [Held, Kernel.dropDir, hfiles, hdirs, hroot, hpwd]
    refine live_freeInode h (.inr (.inr (.inr ⟨_, f, hfile, rfl⟩)))
      (fun o' ho' => held_of_dropDir ((hheld o').mp ho')) ?_ rfl hnext rfl
    exact (hfree f hfile).imp id fun hn ho => hn ((hheld _).mp ho)

/-! ### Runs -/

/-- The system calls on paths and descriptors. -/
inductive SysCall
  | open (path : List UInt8) (flags : ℕ)
  | close (fd : ℤ)
  | mkdir (path : List UInt8)
  | rmdir (path : List UInt8)
  | unlink (path : List UInt8)
  | mknod (mode : ℤ) (path : List UInt8)
  | chdir (path : List UInt8)
  | opendir (path : List UInt8)
  | closedir (dir : ℕ)

/-- What a system call does. -/
def sysRun (e : Env) : SysCall → Kernel → Kernel
  | .open path flags, k => (sysOpen e path flags k).2
  | .close fd, k => (sysClose e fd k).2
  | .mkdir path, k => (sysMkdir e path k).2
  | .rmdir path, k => (sysRmdir e path k).2
  | .unlink path, k => (sysUnlink e path k).2
  | .mknod mode path, k => (sysMknod e mode path k).2
  | .chdir path, k => (sysChdir e path k).2
  | .opendir path, k => (Fs.opendir e path k).2
  | .closedir dir, k => (tfsClosedir dir k).2

/-- The condition on a call and the state before it. A path is walked from the current
directory, except that `sys_chdir` may be given the root itself; the parent of a path is
found; `sys_mkdir` is given one component; and what is closed is the current directory, or
held by nothing else. -/
def KeepsObjects (e : Env) (k : Kernel) : SysCall → Prop
  | .open path _ | .opendir path => StartsHere k path
  | .close fd => fd ≠ MAX_FD ∧ ∀ f, k.files fd.toNat = some f →
      f.inode = k.pwd ∨ ¬Held (k.dropFile fd.toNat) f.inode
  | .mkdir path => StartsHere k path ∧ oneComponent path 0 = true
  | .rmdir path | .unlink path | .mknod _ path =>
      StartsHere k path ∧ ∃ dir, (namei e path 1 k).1 = .ok dir
  | .chdir path => StartsHere k (skipDots path) ∨
      (skipDots path).all (· = slash) = true ∧ (k.objs k.root).iMode = TFS_DIR
  | .closedir n => ∀ f, k.dirs n = some f → f.inode = k.pwd ∨ ¬Held (k.dropDir n) f.inode

/-- The step of a run. -/
def sysStep (e : Env) (k : Kernel) (call : SysCall) : Option Kernel := some (sysRun e call k)

/-- **A system call keeps what is held alive.** -/
theorem sysRun_live (h : Live k) {call : SysCall} (hok : KeepsObjects e k call) :
    Live (sysRun e call k) := by
  cases call with
  | «open» path flags => exact sysOpen_live h hok flags k rfl
  | close fd => exact sysClose_live h hok.1 hok.2
  | mkdir path =>
    have hpwd := namei_oneComponent (e := e) hok.1 hok.2
    refine withParent_live h hok.1 (congrArg Prod.fst hpwd) (fun dname mine _ => ?_) k rfl
    exact owns_tfsMkdir dname
  | rmdir path =>
    obtain ⟨hstart, dir, hdir⟩ := hok
    exact withParent_live h hstart hdir (fun dname _ hd => owns_tfsRmdir hd.usable dname) k rfl
  | unlink path =>
    obtain ⟨hstart, dir, hdir⟩ := hok
    exact withParent_live h hstart hdir (fun dname _ hd => owns_tfsUnlink hd.usable dname) k rfl
  | mknod mode path =>
    obtain ⟨hstart, dir, hdir⟩ := hok
    exact withParent_live h hstart hdir (fun dname _ hd => owns_mknodIn hd.usable dname mode) k rfl
  | chdir path => exact sysChdir_live h hok k rfl
  | opendir path => exact opendir_live h hok k rfl
  | closedir dir => exact tfsClosedir_live h hok

/-! ### Start -/

/-- What is new after `new_inode`. -/
theorem newInode_eq (mode : ℤ) (k : Kernel) :
    Hoare (fun k' => ∃ dev, k' = { k with dev }) (newInode e mode) fun r k' => ∀ o, r = some o →
      ∃ dev objs, o = k.nextObj ∧ k' = { k with
        dev, objs, alive := Function.update k.alive o true, nextObj := k.nextObj + 1 } := by
  have hdev : ∀ x : DevM Bool, Hoare (fun k' => ∃ dev, k' = { k with dev }) (onDev x)
      fun _ k' => ∃ dev, k' = { k with dev } := fun x k' hk => by
    obtain ⟨dev, rfl⟩ := hk
    exact ⟨_, rfl⟩
  refine (hdev _).bind fun _ => .ite (fun _ => .pure fun _ _ _ h => by cases h) fun _ => ?_
  refine (hdev _).bind fun _ => .ite (fun _ => .pure fun _ _ _ h => by cases h) fun _ => ?_
  rintro k' ⟨dev, rfl⟩ o ho
  obtain rfl := Option.some.inj ho
  exact ⟨_, _, rfl, rfl⟩

/-- **`fs_init` leaves the root alive.** -/
theorem fsInit_live {d : Dev} (h : fsInit e d = some k) : Live k := by
  have hget : Hoare (fun k' => k' = bootKernel e d) (tfsIgetByInr e TFS_ROOT_INODE) fun r k' =>
      ∀ o, r = .ok o → ∃ dev objs, o = 0 ∧ k' = { bootKernel e d with
        dev, objs, alive := Function.update (fun _ => false) o true, nextObj := 1 } := by
    refine Hoare.bind (Q := fun _ k' => ∃ dev, k' = { bootKernel e d with dev })
      (fun k' hk => by
        subst hk
        exact ⟨_, rfl⟩) fun tinode => (newInode_eq 0 _).bind fun r => ?_
    cases r with
    | none => exact .pure fun _ _ _ h => by cases h
    | some obj =>
      refine Hoare.bind (Q := fun _ k' => ∃ dev objs, obj = 0 ∧ k' = { bootKernel e d with
        dev, objs, alive := Function.update (fun _ => false) obj true, nextObj := 1 })
        (fun k' hk => ?_) fun _ => .pure fun k' hk o ho => by
          obtain rfl := Except.ok.inj ho
          exact hk
      obtain ⟨dev, objs, rfl, rfl⟩ := hk obj rfl
      exact ⟨_, _, rfl, rfl⟩
  have hget' := hget _ rfl
  rw [fsInit] at h
  generalize tfsIgetByInr e TFS_ROOT_INODE (bootKernel e d) = r at h hget'
  obtain ⟨r, k'⟩ := r
  cases r with
  | error err => cases h
  | ok root =>
    obtain ⟨dev, objs, rfl, rfl⟩ := hget' root rfl
    obtain rfl := Option.some.inj h
    refine ⟨rfl, rfl, rfl, rfl, rfl, fun o ho => ?_, fun _ ho => absurd ho List.not_mem_nil,
      List.nodup_nil, fun o ho => ?_⟩
    · rcases ho with rfl | rfl | ⟨fd, f, hf, -⟩ | ⟨n, f, hf, -⟩
      · rfl
      · rfl
      · cases hf
      · cases hf
    · by_cases heq : o = 0
      · rw [heq]
        exact Nat.one_pos
      · have ho' : Function.update (fun _ => false) 0 true o = true := ho
        rw [Function.update_of_ne heq] at ho'
        cases ho'

/-- The file system of the formatted volume, after `fs_init`. -/
def formattedKernel : Kernel :=
  (fsInit (Env.quiet (smallSbi 9)) formatted).getD (bootKernel (Env.quiet (smallSbi 9)) formatted)

theorem fsInit_formatted : fsInit (Env.quiet (smallSbi 9)) formatted = some formattedKernel := by
  have h : (fsInit (Env.quiet (smallSbi 9)) formatted).isSome = true := by decide +kernel
  rw [formattedKernel]
  cases hk : fsInit (Env.quiet (smallSbi 9)) formatted with
  | none => exact absurd (hk ▸ h) (by decide)
  | some k => rfl

/-- The state after some calls on the formatted volume. -/
def formattedRun (calls : List SysCall) : Kernel :=
  calls.foldl (fun k call => sysRun (Env.quiet (smallSbi 9)) call k) formattedKernel

theorem reach_formattedRun {ok : Kernel → SysCall → Prop} {calls : List SysCall} (c : SysCall)
    (h : Reach (StepOf (sysStep (Env.quiet (smallSbi 9)))) ok formattedKernel (formattedRun calls))
    (hok : ok (formattedRun calls) c) :
    Reach (StepOf (sysStep (Env.quiet (smallSbi 9)))) ok formattedKernel
      (formattedRun (calls ++ [c])) := by
  rw [formattedRun, List.foldl_append]
  exact h.step hok rfl

/-- The directory `a` is made, and the directory `a/b`: its parent is freed twice. -/
theorem doubleFree_mkdir :
    ∃ o, Fault.doubleFree o ∈ (formattedRun [.mkdir [97], .mkdir [97, 47, 98]]).faults :=
  ⟨2, by decide +kernel⟩

end Thunix.Fs
