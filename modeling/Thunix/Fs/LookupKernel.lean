import Thunix.Fs.Chdir
import Thunix.Fs.Stable

/-!
# The file system as a lookup

The functions of `Thunix.Fs.Lookup`, which walk a path with a buffer for its components, over
the operations of the file system (`Thunix.Fs.Lookup.kernelOps`): they are those of
`Thunix.Fs.Syscall`, which take the path character by character
(`Thunix.Fs.Lookup.namei_kernel`, `Thunix.Fs.Lookup.sysChdir_kernel`).
-/

namespace Thunix.Fs.Lookup

variable (e : Env) {flag : ℕ} {name part path : List UInt8} {parent : ℕ}

/-- What a function returns for a pointer. -/
def ofExcept : Except ℤ ℕ → Found ℕ
  | .error n => .err n
  | .ok obj => .inode obj

/-- The operations of the file system. -/
def kernelOps : Ops KernelM ℕ where
  iget part parent := do pure (ofExcept (← tfsIget e part parent))
  freeInode := Fs.freeInode
  mknod parent part := do pure (ofExcept (← tfsMknod e parent part TFS_FILE))
  iwrite := iwriteObj e

/-- The end of `Thunix.Fs.namei`. -/
def walkedEnd (flag : ℕ) : Walked → KernelM (Except ℤ ℕ)
  | .inode obj => pure (.ok obj)
  | .parent obj => pure (.ok obj)
  | .tooLong => pure (.error (-ENAMETOOLONG))
  | .missing n parent part =>
    if n = -ENOENT ∧ lookupCreate flag then Fs.nameiCreate e parent part
    else pure (.error n)

/-- How `Thunix.Fs.namei` ends. -/
def ended (r : Except ℤ ℕ) : KernelM (Ended ℕ) := pure (.found (ofExcept r))

/-! ### The walk over characters -/

/-- A walk copies a component. -/
theorem nameiWalk_headPart (hlen : part.length + (headPart name).length ≤ MAX_NAME_LEN)
    (parent : ℕ) : nameiWalk e flag name part parent =
      nameiWalk e flag (tailPart name) (part ++ headPart name) parent := by
  induction name generalizing part with
  | nil => simp [headPart, tailPart]
  | cons c name ih =>
    by_cases hc : c = slash
    · obtain ⟨hhead, htail⟩ := headPart_slash name
      rw [hc, hhead, htail, List.append_nil]
    · obtain ⟨hhead, htail⟩ := headPart_char hc name
      rw [hhead, List.length_cons] at hlen
      rw [nameiWalk, if_pos hc, if_neg (by omega), hhead, htail, ih]
      · rw [List.append_assoc, List.singleton_append]
      · rw [List.length_append, List.length_singleton]
        omega

/-- A walk ends at a component that is too long. -/
theorem nameiWalk_long (hpart : part.length ≤ MAX_NAME_LEN)
    (hlen : MAX_NAME_LEN < part.length + (headPart name).length) (parent : ℕ) :
    nameiWalk e flag name part parent = pure .tooLong := by
  induction name generalizing part with
  | nil =>
    rw [headPart, List.takeWhile_nil, List.length_nil] at hlen
    omega
  | cons c name ih =>
    have hc : c ≠ slash := fun hc => by
      rw [hc, (headPart_slash name).1, List.length_nil] at hlen
      omega
    rw [(headPart_char hc name).1, List.length_cons] at hlen
    rw [nameiWalk, if_pos hc]
    by_cases hend : MAX_NAME_LEN ≤ part.length
    · rw [if_pos hend]
    · rw [if_neg hend, ih]
      · rw [List.length_append, List.length_singleton]
        omega
      · rw [List.length_append, List.length_singleton]
        omega

theorem nameiWalk_skipSlashes (name : List UInt8) (parent : ℕ) :
    nameiWalk e flag name [] parent = nameiWalk e flag (skipSlashes name) [] parent := by
  induction name with
  | nil => rfl
  | cons c name ih =>
    by_cases hc : c = slash
    · rw [nameiWalk, if_neg (not_not.mpr hc), if_pos rfl, ih]
      simp [skipSlashes, hc]
    · simp [skipSlashes, hc]

/-- What a walk does at the end of a component. -/
theorem nameiWalk_tail (hpart : part ≠ []) (name : List UInt8) (parent : ℕ) :
    nameiWalk e flag (tailPart name) part parent =
      if skipSlashes (tailPart name) = [] ∧ lookupParent flag = true then pure (.parent parent)
      else walkInto e part parent fun obj =>
        nameiWalk e flag (skipSlashes (tailPart name)) [] obj := by
  rcases htail : tailPart name with _ | ⟨c, rest⟩
  · have hnil : skipSlashes [] = [] := rfl
    rw [nameiWalk, if_neg hpart, hnil]
    simp only [true_and]
    rfl
  · have hc : c = slash := by
      have hne : tailPart name ≠ [] := by rw [htail]; exact List.cons_ne_nil _ _
      have hhead := List.head_dropWhile_not (fun c => decide (c ≠ slash)) (l := name) hne
      have hceq : (tailPart name).head hne = c := by simp [htail]
      have hc : decide (c ≠ slash) = false := hceq ▸ hhead
      simpa using hc
    have hall : rest.all (· = slash) = true ↔ skipSlashes (c :: rest) = [] := by
      rw [skipSlashes_eq_nil, components, hc, componentsFrom_slash_nil, componentsFrom_eq_nil]
    have hskip : skipSlashes (c :: rest) = skipSlashes rest := by simp [skipSlashes, hc]
    rw [nameiWalk, if_neg (not_not.mpr hc), if_neg hpart]
    by_cases hend : lookupParent flag = true ∧ rest.all (· = slash) = true
    · rw [if_pos hend, if_pos ⟨hall.mp hend.2, hend.1⟩]
    · rw [if_neg hend, if_neg fun h => hend ⟨h.2, hall.mpr h.1⟩, hskip]
      exact congrArg _ (funext fun obj => nameiWalk_skipSlashes e rest obj)

/-! ### `namei` -/

theorem nameiCreate_kernel (parent : ℕ) (q : Part) :
    nameiCreate (kernelOps e) parent q = Fs.nameiCreate e parent (string q) >>= ended := by
  unfold nameiCreate Fs.nameiCreate
  simp only [kernelOps, bind_assoc, pure_bind]
  refine bind_congr fun made => bind_congr fun _ => ?_
  cases made with
  | error n => rfl
  | ok obj =>
    simp only [ofExcept, bind_assoc]
    refine bind_congr fun r => ?_
    by_cases hr : r ≠ 0
    · rw [if_pos hr, if_pos hr, bind_assoc]
      rfl
    · rw [if_neg hr, if_neg hr]
      rfl

/-- One component. -/
theorem lookPart_kernel {q : Part} {next : ℕ → KernelM (Left ℕ)} {next' : ℕ → KernelM Walked}
    (hnext : ∀ obj, (next obj >>= nameiEnd (kernelOps e) flag) =
      next' obj >>= fun w => walkedEnd e flag w >>= ended) :
    (lookPart (kernelOps e) parent q next >>= nameiEnd (kernelOps e) flag) =
      walkInto e (string q) parent next' >>= fun w => walkedEnd e flag w >>= ended := by
  unfold lookPart walkInto
  simp only [kernelOps, bind_assoc, pure_bind]
  refine bind_congr fun r => ?_
  cases r with
  | error n =>
    simp only [ofExcept, pure_bind, nameiEnd, walkedEnd]
    by_cases hn : n = -ENOENT ∧ lookupCreate flag = true
    · rw [if_pos hn, if_pos hn]
      exact nameiCreate_kernel e parent q
    · rw [if_neg hn, if_neg hn]
      rfl
  | ok obj =>
    simp only [ofExcept, bind_assoc]
    exact bind_congr fun _ => hnext obj

/-- The loop over components is the walk over characters. -/
theorem nameiLoop_kernel {fuel : ℕ} (q : Part) (parent : ℕ) (hfuel : name.length ≤ fuel)
    (h0 : 0 ∉ name) (hhead : name.head? ≠ some slash) :
    (nameiLoop (kernelOps e) flag fuel name q parent >>= nameiEnd (kernelOps e) flag) =
      nameiWalk e flag name [] parent >>= fun w => walkedEnd e flag w >>= ended := by
  have hnil : ∀ fuel q parent,
      (nameiLoop (kernelOps e) flag fuel [] q parent >>= nameiEnd (kernelOps e) flag) =
        nameiWalk e flag [] [] parent >>= fun w => walkedEnd e flag w >>= ended :=
    fun fuel q parent => by
      rw [nameiLoop, nameiWalk, if_pos rfl]
      rfl
  induction fuel generalizing name q parent with
  | zero =>
    obtain rfl := List.length_eq_zero_iff.mp (Nat.le_zero.mp hfuel)
    exact hnil 0 q parent
  | succ fuel ih =>
    by_cases hne : name = []
    · subst hne
      exact hnil (fuel + 1) q parent
    have hpart := headPart_ne_nil hne hhead
    by_cases hlen : (headPart name).length ≤ MAX_NAME_LEN
    · obtain ⟨q', hstring, hturn⟩ := nameiLoop_turn (kernelOps e) fuel flag q parent hlen h0 hne
      have hlt := length_tail_lt hne hhead
      have hnul : 0 ∉ skipSlashes (tailPart name) := fun hmem =>
        h0 ((List.dropWhile_sublist _).subset ((List.dropWhile_sublist _).subset hmem))
      rw [hturn, nameiWalk_headPart e (by rwa [List.length_nil, Nat.zero_add]), List.nil_append,
        nameiWalk_tail e hpart]
      by_cases hlast : skipSlashes (tailPart name) = [] ∧ lookupParent flag = true
      · rw [if_pos hlast, if_pos hlast]
        rfl
      · rw [if_neg hlast, if_neg hlast, ← hstring]
        exact lookPart_kernel e fun obj => ih q' obj (by omega) hnul (skipSlashes_head _)
    · rw [nameiWalk_long e (Nat.zero_le _) (by rw [List.length_nil]; omega)]
      rcases name with _ | ⟨c, name⟩
      · exact absurd rfl hne
      · rw [nameiLoop, copyPart_long _ q (Nat.zero_le _) (by omega)]
        rfl

/-- **`namei`** of the file system. -/
theorem namei_kernel (part : Part) (flag : ℕ) (h0 : 0 ∉ path) (k : Kernel) :
    namei (kernelOps e) k.root k.pwd part path flag k = (Fs.namei e path flag >>= ended) k := by
  have hwalk : namei (kernelOps e) k.root k.pwd part path flag =
      nameiWalk e flag path [] (startInode k.root k.pwd path) >>=
        fun w => walkedEnd e flag w >>= ended := by
    unfold namei
    by_cases hslash : path.head? = some slash
    · rw [if_pos hslash, nameiWalk_skipSlashes]
      exact nameiLoop_kernel e part _ le_rfl
        (fun hmem => h0 ((List.dropWhile_sublist _).subset hmem)) (skipSlashes_head path)
    · rw [if_neg hslash]
      exact nameiLoop_kernel e part _ le_rfl h0 hslash
  rw [hwalk]
  rfl

/-! ### `sys_chdir` -/

/-- `IS_DIR`. -/
def kernelIsDir (obj : ℕ) : KernelM Bool := do pure ((← inodeAt obj).iMode = TFS_DIR)

/-- The directory and its string are set. -/
def setCwd (s : Cwd ℕ) (k : Kernel) : Kernel := { k with pwd := s.pwd, cwd := s.cwd }

theorem setCwd_self {k k' : Kernel} (h : k'.handles = k.handles) :
    setCwd ⟨k.pwd, k.cwd⟩ k' = k' := by
  have hpwd : k'.pwd = k.pwd := congrArg Handles.pwd h
  have hcwd : k'.cwd = k.cwd := congrArg Handles.cwd h
  rw [setCwd, ← hpwd, ← hcwd]

/-- **`sys_chdir`** of the file system: the state it leaves is the one the lookups leave, with
the directory and the string set. -/
theorem sysChdir_kernel (part : Part) (h0 : 0 ∉ path) (k : Kernel) :
    ∃ r s k', sysChdir (kernelOps e) kernelIsDir k.root part path ⟨k.pwd, k.cwd⟩ k =
      (some (r, s), k') ∧ Fs.sysChdir e path k = (r, setCwd s k') := by
  have hnul : 0 ∉ skipDots path := fun hmem => h0 ((skipDots_suffix path).subset hmem)
  have hnamei := namei_kernel e part 0 hnul k
  have hkept := (stable_handles fun h => h = k.handles).namei (e := e) (skipDots path) 0 k rfl
  unfold sysChdir Fs.sysChdir
  dsimp only
  by_cases hdot : skipDots path = dot
  · rw [if_pos hdot, if_pos hdot]
    exact ⟨0, ⟨k.pwd, k.cwd⟩, k, rfl, by rw [setCwd_self rfl]; rfl⟩
  rw [if_neg hdot, if_neg hdot]
  rw [KernelM.bind_apply] at hnamei
  rw [KernelM.bind_apply, KernelM.bind_apply, hnamei]
  generalize Fs.namei e (skipDots path) 0 k = out at hkept
  obtain ⟨out, k1⟩ := out
  cases out with
  | error n => exact ⟨n, ⟨k.pwd, k.cwd⟩, k1, rfl, by rw [setCwd_self hkept]; rfl⟩
  | ok obj =>
    simp only [ended, ofExcept, KernelM.pure_apply]
    rw [KernelM.bind_apply, KernelM.bind_apply, kernelIsDir]
    have hread := ((stable_handles fun h => h = k.handles).inodeAt obj k1 hkept).2
    rw [KernelM.bind_apply, KernelM.pure_apply]
    dsimp only
    generalize inodeAt obj k1 = out at hread
    obtain ⟨inode, k2⟩ := out
    dsimp only at hread ⊢
    by_cases hdir : inode.iMode = TFS_DIR
    · have hpwd : k2.pwd = k.pwd := congrArg Handles.pwd hread
      have hcwd : k2.cwd = k.cwd := congrArg Handles.cwd hread
      have hfree := (stable_handles fun h => h = k2.handles).freeInode k.pwd k2 rfl
      have hcwd' : (Fs.freeInode k.pwd k2).2.cwd = k.cwd := (congrArg Handles.cwd hfree).trans hcwd
      rw [if_pos (decide_eq_true hdir), if_neg (not_not.mpr hdir)]
      refine ⟨_, _, (Fs.freeInode k.pwd k2).2, rfl, ?_⟩
      unfold Fs.changeDir
      rw [KernelM.bind_apply]
      dsimp only
      rw [KernelM.bind_apply, hpwd, hcwd']
      rfl
    · have hfree := (stable_handles fun h => h = k2.handles).freeInode obj k2 rfl
      rw [if_neg (by rw [decide_eq_true_iff]; exact hdir), if_pos hdir]
      refine ⟨-ENOTDIR, ⟨k.pwd, k.cwd⟩, (Fs.freeInode obj k2).2, rfl, ?_⟩
      rw [setCwd_self (hfree.trans hread)]
      rfl

end Thunix.Fs.Lookup
