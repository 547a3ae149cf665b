import Thunix.Fs.Descriptors

/-!
# The commands on files

`fs/tfs/tfs_cmd.c` and `fs/exec.c`: the commands the shell runs on files, without what they
print. A word of the command line that is missing is a null pointer, and is followed as one.

`cp` and `exec` close what they open on every way out, and `ls` and the commands on
directories take no descriptor. `cat` and `touch` leave the file open. So a command leaves the
open descriptors as they were exactly when it is not one of these two with a file that can be
opened (`Thunix.Shell.openFds_iff`).

The program that `exec` runs is a parameter: the machine code in a file of the disk. It is
assumed to leave the file system alone; the system calls it has are one that prints and two
tests.
-/

namespace Thunix.Shell

open Fs

/-! ### Commands -/

variable (e : Env)

/-- `LOOKUP_CREATE`. -/
def LOOKUP_CREATE : ℕ := 2

/-- The string a word of the command line is followed to. -/
def argString (arg : Option (List UInt8)) : List UInt8 := arg.getD e.nullString

/-- What bounds the loops below: the number of different offsets. -/
@[irreducible]
def rounds : ℕ := 2 ^ 32

/-- `while ((count = sys_read(fd, p, size)) > 0)`, with a pointer `p` into memory that moves
on by `advance count`, for so many rounds at most: the memory after the loop, or nothing when
they are not enough. -/
def readWhile (fd size : ℤ) (advance : ℤ → ℕ) (body : (ℕ → UInt8) → ℤ → KernelM Unit) :
    ℕ → (ℕ → UInt8) → ℕ → KernelM (Option (ℕ → UInt8))
  | 0, _, _ => pure none
  | fuel + 1, mem, p => do
    let (count, bytes) ← sysRead e fd (fun i => mem (p + i)) size
    let mem := fun a => if p ≤ a then bytes (a - p) else mem a
    if count > 0 then do
      body bytes count
      readWhile fd size advance body fuel mem (p + advance count)
    else pure (some mem)

/-- `cat`. -/
def cat (filename : Option (List UInt8)) : KernelM Unit := do
  let fd ← sysOpen e (argString e filename) 0
  if fd < 0 then pure ()
  else do
    let buf ← onDev (wildBytes e)
    let _ ← readWhile e fd 1024 (fun _ => 0) (fun _ _ => pure ()) rounds buf 0
    pure ()

/-- `touch`. -/
def touch (filename : Option (List UInt8)) : KernelM Unit := do
  let _ ← sysOpen e (argString e filename) LOOKUP_CREATE
  pure ()

/-- The loop of `cp` and what follows it. -/
def copyFile (fromFd toFd : ℤ) : KernelM Unit := do
  let buf ← onDev (wildBytes e)
  let body := fun bytes count => do
    let _ ← sysWrite e toFd bytes count
    pure ()
  match ← readWhile e fromFd 1024 (fun _ => 0) body rounds buf 0 with
  | none => pure ()
  | some _ => do
    let _ ← sysClose e fromFd
    let _ ← sysClose e toFd
    pure ()

/-- `cp`. -/
def cp (src dst : Option (List UInt8)) : KernelM Unit := do
  let fromFd ← sysOpen e (argString e src) 0
  if fromFd < 0 then pure ()
  else do
    let toFd ← sysOpen e (argString e dst) LOOKUP_CREATE
    if toFd < 0 then do
      let _ ← sysClose e fromFd
      pure ()
    else copyFile e fromFd toFd

/-- `tfs_readdir(dir->dd_dir)`. -/
def readDir (dir : ℕ) : KernelM (Option Dirent) := do
  match ← fun k => (k.dirs dir, k) with
  | none => pure none
  | some file => do
    let inode ← inodeAt file.inode
    let (de, offset) ← onDev (tfsReaddir e inode file.offset)
    fun k => (de, { k with dirs := Function.update k.dirs dir (some { file with offset }) })

/-- The loop of `ls`, for so many rounds at most: whether it has ended. -/
def listLoop (dir : ℕ) : ℕ → KernelM Bool
  | 0 => pure false
  | fuel + 1 => do
    match ← readDir e dir with
    | none => pure true
    | some _ => listLoop dir fuel

/-- `dir->dd_dir->inode->i_mode`. -/
def dirMode (dir : ℕ) : KernelM ℤ := do
  match ← fun k => (k.dirs dir, k) with
  | none => pure 0
  | some file => do
    let inode ← inodeAt file.inode
    pure inode.iMode

/-- `ls`, of the current directory when no name is given. -/
def ls (filename : Option (List UInt8)) : KernelM Unit := do
  match ← opendir e (filename.getD dot) with
  | .error _ => pure ()
  | .ok dir => do
    if (← dirMode dir) = TFS_FILE then tfsClosedir dir
    else if ← listLoop e dir rounds then tfsClosedir dir
    else pure ()

/-- `mkdir`. The shell prints its usage when there is not exactly one name. -/
def mkdir (filename : Option (List UInt8)) : KernelM Unit := do
  match filename with
  | none => pure ()
  | some filename => do
    let _ ← sysMkdir e filename
    pure ()

/-- `rmdir`. -/
def rmdir (filename : Option (List UInt8)) : KernelM Unit := do
  let _ ← sysRmdir e (argString e filename)
  pure ()

/-- `rm`. -/
def rm (filename : Option (List UInt8)) : KernelM Unit := do
  let _ ← sysUnlink e (argString e filename)
  pure ()

/-- A program that has been loaded, called with `argc` and `argv`. -/
abbrev Entry := (ℕ → UInt8) → ℕ → List (List UInt8) → KernelM ℤ

variable (entry : Entry)

/-- `sys_execve`. The bytes are those from `exec_buf` on. -/
def sysExecve (file : Option (List UInt8)) (argv : List (List UInt8)) : KernelM ℤ := do
  let fd ← sysOpen e (argString e file) 0
  if fd < 0 then pure fd
  else do
    let execBuf ← onDev (wildBytes e)
    match ← readWhile e fd 4096 Int.toNat (fun _ _ => pure ()) rounds execBuf 0 with
    | none => pure 0
    | some execBuf => do
      let _ ← sysClose e fd
      entry execBuf argv.length argv

/-- A command on files, with its words. -/
inductive Command
  | cat (filename : Option (List UInt8))
  | touch (filename : Option (List UInt8))
  | cp (src dst : Option (List UInt8))
  | ls (filename : Option (List UInt8))
  | mkdir (filename : Option (List UInt8))
  | rmdir (filename : Option (List UInt8))
  | rm (filename : Option (List UInt8))
  | exec (argv : List (List UInt8))

/-- `run_command`, of these commands. -/
def runCommand : Command → KernelM Unit
  | .cat filename => cat e filename
  | .touch filename => touch e filename
  | .cp src dst => cp e src dst
  | .ls filename => ls e filename
  | .mkdir filename => mkdir e filename
  | .rmdir filename => rmdir e filename
  | .rm filename => rm e filename
  | .exec argv => do
    let _ ← sysExecve e entry argv.head? argv
    pure ()

/-! ### What is promised -/

/-- The open descriptors. -/
def openFds (k : Kernel) : Set ℕ := {i | i < MAX_FD ∧ k.fds i = true}

/-- The file of a command can be opened: it is found, there is memory for a `struct file`,
and there is a descriptor. -/
def Opens (k : Kernel) (path : List UInt8) (flags : ℕ) : Prop :=
  ∃ obj, (namei e path flags k).1 = .ok obj ∧
    e.mallocOk (namei e path flags k).2.dev.ticks = true ∧ ∃ i < MAX_FD, k.fds i = false

/-- **The commands that leave a file open.** -/
def Leaks (k : Kernel) : Command → Prop
  | .cat filename => Opens e k (argString e filename) 0
  | .touch filename => Opens e k (argString e filename) LOOKUP_CREATE
  | _ => False

/-- The step of a session. -/
def commandStep (k : Kernel) (c : Command) : Option Kernel := some (runCommand e entry c k).2

/-! ### Sessions -/

variable {e entry} {k k' : Kernel} {F : ℕ → Bool} {i off : ℕ}

/-- What holds throughout a session, with `F` for `fds`. -/
structure Session (F : ℕ → Bool) (k : Kernel) : Prop where
  fits : SizesFit k
  agree : TablesAgree k
  fds : k.fds = F

/-- A descriptor is being read, and its offset has come as far as `off`. -/
def Reading (F : ℕ → Bool) (i off : ℕ) (k : Kernel) : Prop :=
  Session F k ∧ ∃ f, k.files i = some f ∧ off ≤ f.offset ∧ f.offset < 2 ^ 32

theorem stable_session (F : ℕ → Bool) : Stable (· < 2 ^ 32) (Session F) := by
  have h := stable_sizes.handles fun h =>
    (∀ i < MAX_FD, h.fds i = true ↔ (h.files i).isSome) ∧ h.fds = F
  have heq : Session F = fun k => SizesFit k ∧
      (∀ i < MAX_FD, k.fds i = true ↔ (k.files i).isSome) ∧ k.fds = F := by
    funext k
    exact propext ⟨fun h => ⟨h.fits, h.agree, h.fds⟩, fun h => ⟨h.1, h.2.1, h.2.2⟩⟩
  rw [heq]
  exact h

theorem stable_reading (F : ℕ → Bool) (i off : ℕ) : Stable (· < 2 ^ 32) (Reading F i off) :=
  (stable_session F).handles fun h => ∃ f, h.files i = some f ∧ off ≤ f.offset ∧ f.offset < 2 ^ 32

theorem setOffset_session (fd offset : ℕ) : Preserves (Session F) (setOffset fd offset) :=
  fun k h => ⟨h.fits, setOffset_agree fd offset k h.agree, h.fds⟩

/-- The offset of another descriptor changes. -/
theorem setOffset_reading {j : ℕ} (hj : i ≠ j) (offset : ℕ) :
    Preserves (Reading F i off) (setOffset j offset) := by
  rintro k ⟨h, f, hf, hoff⟩
  refine ⟨setOffset_session j offset k h, f, ?_, hoff⟩
  unfold setOffset
  dsimp only
  rw [Function.update_of_ne hj, hf]

/-! ### Opening and closing -/

theorem getUnusedFd_lt_iff (F : ℕ → Bool) : Hoare (fun k => k.fds = F) getUnusedFd
    fun fd _ => fd < MAX_FD ↔ ∃ i < MAX_FD, F i = false := by
  rintro k rfl
  unfold getUnusedFd
  split
  · rename_i i hfind
    obtain ⟨hfree, hmem, -⟩ := List.find?_range_eq_some.mp hfind
    have hi := List.mem_range.mp hmem
    exact ⟨fun _ => ⟨i, hi, by simpa using hfree⟩, fun _ => hi⟩
  · rename_i hfind
    rw [List.find?_range_eq_none] at hfind
    refine ⟨fun h => absurd h (Nat.lt_irrefl _), fun ⟨i, hi, hfree⟩ => ?_⟩
    have htaken := hfind i hi
    rw [hfree] at htaken
    cases htaken

/-- **`sys_open` succeeds** exactly when the file can be opened. -/
theorem sysOpen_nonneg_iff (path : List UInt8) (flags : ℕ) (k : Kernel) :
    0 ≤ (sysOpen e path flags k).1 ↔ Opens e k path flags := by
  have hrun : Hoare (fun s => s = k) (sysOpen e path flags) fun r _ =>
      0 ≤ r ↔ Opens e k path flags := by
    refine Hoare.bind (Q := fun r s => (NegError r ∧ s.fds = k.fds) ∧ namei e path flags k = (r, s))
      ?_ fun r => ?_
    · rintro s rfl
      have hsame := (stable_handles fun h => h = s.handles).namei (e := e) path flags s rfl
      exact ⟨⟨namei_negError path flags s trivial, congrArg Handles.fds hsame⟩, rfl⟩
    · cases r with
      | error err =>
        refine .pure fun s ⟨⟨hneg, _⟩, hnamei⟩ => iff_of_false (Int.not_le.mpr (hneg err rfl)) ?_
        rintro ⟨obj, hobj, -⟩
        rw [hnamei] at hobj
        cases hobj
      | ok obj =>
        refine Hoare.bind (Q := fun ok s => s.fds = k.fds ∧
          (Opens e k path flags ↔ ok = true ∧ ∃ i < MAX_FD, k.fds i = false)) ?_ fun ok => ?_
        · rintro s ⟨⟨-, hfds⟩, hnamei⟩
          refine ⟨hfds, ?_⟩
          rw [Opens, hnamei]
          exact ⟨fun ⟨_, _, h⟩ => h, fun h => ⟨obj, rfl, h⟩⟩
        · refine .ite (fun hno => .pure fun s hs => iff_of_false (by decide) ?_) fun hok => ?_
          · rw [hs.2]
            rintro ⟨hyes, -⟩
            rw [hyes] at hno
            cases hno
          · have hok' : ok = true := by simpa using hok
            refine Hoare.bind (Q := fun _ s => s.fds = k.fds ∧
              (Opens e k path flags ↔ ∃ i < MAX_FD, k.fds i = false)) ?_ fun _ => ?_
            · rintro s ⟨hfds, hiff⟩
              have hsame := (stable_handles fun h => h.fds = k.fds).touch obj s hfds
              exact ⟨hsame, hiff.trans (and_iff_right hok')⟩
            · refine Hoare.bind (Q := fun fd _ => Opens e k path flags ↔ fd < MAX_FD) ?_
                fun fd => ?_
              · rintro s ⟨hfds, hiff⟩
                exact hiff.trans (getUnusedFd_lt_iff k.fds s hfds).symm
              · refine .ite (fun hle => .pure fun s hs => iff_of_false (by decide) ?_) fun hlt => ?_
                · exact fun h => absurd (hs.mp h) (Nat.not_lt.mpr hle)
                · exact fun s hs => iff_of_true (Int.natCast_nonneg fd)
                    (hs.mpr (Nat.lt_of_not_le hlt))
  exact hrun k rfl

theorem sizes_sysOpen (path : List UInt8) (flags : ℕ) :
    Preserves SizesFit (sysOpen e path flags) := by
  refine (stable_sizes.namei path flags).bind fun r => ?_
  cases r with
  | error err => exact .pure _ _
  | ok obj =>
    refine (stable_sizes.onDev _).bind fun _ => .ite (.pure _ _) ?_
    refine (stable_sizes.touch obj).bind fun _ => Preserves.bind ?_ fun fd => .ite (.pure _ _) ?_
    · intro k h
      unfold getUnusedFd
      split <;> exact h
    · exact fun k h => h

/-- **What `sys_open` makes of a session.** -/
theorem sysOpen_cases (h : Session F k) (path : List UInt8) (flags : ℕ) :
    ((sysOpen e path flags k).1 < 0 ∧ Session F (sysOpen e path flags k).2) ∨
      ∃ i < MAX_FD, (sysOpen e path flags k).1 = i ∧ F i = false ∧
        Session (Function.update F i true) (sysOpen e path flags k).2 ∧
          ∃ f : File, f.offset = 0 ∧
            (sysOpen e path flags k).2.files = Function.update k.files i (some f) := by
  have hfits := sizes_sysOpen (e := e) path flags k h.fits
  have htakes := sysOpen_takesLeast (e := e) h.agree path flags
  have hagree := htakes.agree h.agree
  rcases htakes with ⟨hneg, hfds, -⟩ | ⟨i, hi, hr, ⟨hfree, -⟩, -, hfds, f, hoff, hfiles⟩
  · exact .inl ⟨hneg, hfits, hagree, hfds.trans h.fds⟩
  · refine .inr ⟨i, hi, hr, ?_, ⟨hfits, hagree, ?_⟩, f, hoff, hfiles⟩
    · rw [← h.fds]
      exact hfree
    · rw [hfds, h.fds]

/-- An open descriptor leads to its file. -/
theorem fget_session (h : TablesAgree k) (hi : i < MAX_FD) (hopen : k.fds i = true) :
    ∃ f, k.files i = some f ∧ fget e i k = (some (.file f), k) := by
  have hmax : (i : ℤ) ≠ MAX_FD := by omega
  rcases fget_cases (e := e) h hmax with ⟨hclosed, -⟩ | ⟨j, _, hij, f, hf, hget⟩
  · exact absurd ⟨i, hi, rfl, hopen⟩ hclosed
  · obtain rfl := Int.natCast_inj.mp hij
    exact ⟨f, hf, hget⟩

/-- **`sys_close` of an open descriptor** closes it, and no other. -/
theorem sysClose_session (hi : i < MAX_FD) (hopen : F i = true) :
    Hoare (Session F) (sysClose e i) fun _ k => Session (Function.update F i false) k := by
  intro k h
  obtain ⟨f, -, hget⟩ := fget_session (e := e) h.agree hi (by rw [h.fds]; exact hopen)
  rw [sysClose, withFile, KernelM.bind_apply, hget]
  dsimp only
  rw [KernelM.bind_apply]
  have hfree := (stable_session F).freeInode f.inode k h
  exact ⟨hfree.fits, dropFd_agree _ i hfree.agree, by rw [← hfree.fds]; rfl⟩

/-! ### Reading to the end -/

theorem tfsRead_pos (inode : Inode) (offset : ℕ) (buf : ℕ → UInt8) (blocks : ℤ) :
    Hoare (fun _ => True) (tfsRead e inode offset buf blocks) fun r _ =>
      0 < r.1 → offset < inode.iSize := by
  refine .ite (fun _ => .pure fun _ _ h => absurd h (Int.lt_irrefl 0)) fun _ => ?_
  refine .ite (fun _ => .pure fun _ _ h => ?_) fun hlt _ _ _ => Nat.lt_of_not_le hlt
  exact absurd h (by decide : ¬(0 : ℤ) < -1)

theorem toS32_le (n : ℕ) : toS32 n ≤ n := by
  unfold toS32
  omega

/-- **A read that returns bytes moves the offset on.** -/
theorem sysRead_advances (hi : i < MAX_FD) (hopen : F i = true) (buf : ℕ → UInt8) (size : ℤ) :
    Hoare (Reading F i off) (sysRead e i buf size) fun r k =>
      Session F k ∧ (0 < r.1 → Reading F i (off + 1) k) := by
  rintro k ⟨h, f, hf, hoff, hlt⟩
  obtain ⟨f', hf', hget⟩ := fget_session (e := e) h.agree hi (by rw [h.fds]; exact hopen)
  obtain rfl := Option.some.inj (hf.symm.trans hf')
  rw [sysRead, KernelM.bind_apply, hget]
  dsimp only
  have hfile := (stable_session F).handles fun h => h.files i = some f
  refine Hoare.bind
    (R := fun (r : ℤ × (ℕ → UInt8)) k => Session F k ∧ (0 < r.1 → Reading F i (off + 1) k))
    (hfile.inodeAt f.inode) (fun inode => .given fun hsize => ?_) k ⟨h, hf⟩
  refine (hfile.onDevResult (tfsRead_pos inode f.offset buf _)).bind fun r => ?_
  refine .given fun hpos => .ite (fun hcount => ?_) fun hcount => ?_
  · -- the bytes come from before the end of the file
    rintro k' ⟨hs, hf'⟩
    have hneed := toS32_le (min (toU32 size) (toU32 (inode.iSize - f.offset)))
    have hmin : min (toU32 size) (toU32 (inode.iSize - f.offset)) ≤
        toU32 (inode.iSize - f.offset) := Nat.min_le_right _ _
    generalize toS32 (min (toU32 size) (toU32 (inode.iSize - f.offset))) = need at hcount hneed ⊢
    have hbefore : f.offset < inode.iSize := by
      refine hpos ?_
      unfold minInt at hcount
      split at hcount <;> omega
    have hrest : toU32 (inode.iSize - f.offset) = inode.iSize - f.offset := by
      unfold toU32
      omega
    have hle : minInt need r.1 ≤ need := by
      unfold minInt
      split <;> omega
    have hend : f.offset + (minInt need r.1).toNat ≤ inode.iSize := by
      rw [hrest] at hmin hneed
      omega
    have hoffset : toU32 (f.offset + minInt need r.1) = f.offset + (minInt need r.1).toNat := by
      unfold toU32
      omega
    have hnew : (setOffset i (toU32 (f.offset + minInt need r.1)) k').2.files i =
        some { f with offset := f.offset + (minInt need r.1).toNat } := by
      have hfiles : k'.files i = some f := hf'
      unfold setOffset
      dsimp only
      rw [Function.update_self, hfiles, hoffset, Option.map_some]
    refine ⟨setOffset_session _ _ k' hs, fun _ => ⟨setOffset_session _ _ k' hs, _, hnew, ?_, ?_⟩⟩
    · dsimp only
      omega
    · exact hend.trans_lt hsize
  · exact .pure fun k' hs => ⟨hs.1, fun hr => absurd hr hcount⟩

theorem rounds_le : 2 ^ 32 ≤ rounds + 0 := by
  unfold rounds
  exact Nat.le_refl _

/-- **The loop ends**: every round moves the offset on, and it fits a word. -/
theorem readWhile_ends (hi : i < MAX_FD) (hopen : F i = true) (size : ℤ) (advance : ℤ → ℕ)
    {body : (ℕ → UInt8) → ℤ → KernelM Unit}
    (hbody : ∀ bytes count off, Preserves (Reading F i off) (body bytes count)) {fuel off : ℕ}
    (hfuel : 2 ^ 32 ≤ fuel + off) (mem : ℕ → UInt8) (p : ℕ) :
    Hoare (Reading F i off) (readWhile e i size advance body fuel mem p) fun r k =>
      r.isSome = true ∧ Session F k := by
  induction fuel generalizing off mem p with
  | zero =>
    rintro k ⟨-, f, -, hoff, hlt⟩
    omega
  | succ fuel ih =>
    refine (sysRead_advances hi hopen _ size).bind fun ⟨count, bytes⟩ => .ite (fun hcount => ?_)
      fun _ => .pure fun k hs => ⟨rfl, hs.1⟩
    refine Hoare.pre (P := Reading F i (off + 1)) ?_ fun k hs => hs.2 hcount
    exact Hoare.bind (hbody bytes count (off + 1)) fun _ => ih (by omega) _ _

theorem reading_fresh {f : File} (h : Session F k) (hoff : f.offset = 0)
    {files : ℕ → Option File} (hfiles : k.files = Function.update files i (some f)) :
    Reading F i 0 k :=
  ⟨h, f, by rw [hfiles, Function.update_self], Nat.zero_le _, by rw [hoff]; decide⟩

/-! ### Every command -/

/-- What a command leaves of the descriptors, when it leaves them as they were. -/
theorem update_back {F : ℕ → Bool} (h : F i = false) :
    Function.update (Function.update F i true) i false = F := by
  rw [Function.update_idem, ← h, Function.update_eq_self]

/-- `sys_open` and what follows it, in the two cases. -/
theorem sysOpen_then (h : Session F k) (path : List UInt8) (flags : ℕ) {α : Type}
    {f : ℤ → KernelM α} {Q : α → Kernel → Prop}
    (hfail : ∀ r < 0, Hoare (Session F) (f r) Q)
    (hopen : ∀ i < MAX_FD, F i = false →
      Hoare (fun k' => Reading (Function.update F i true) i 0 k' ∧
        ∀ j, F j = true → k'.files j = k.files j) (f i) Q) :
    Hoare (fun k' => k' = k) (sysOpen e path flags >>= f) Q := by
  rintro _ rfl
  rw [KernelM.bind_apply]
  obtain ⟨hr, hs⟩ | ⟨i, hi, hr, hfree, hs, g, hoff, hfiles⟩ := sysOpen_cases (e := e) h path flags
  · exact hfail _ hr _ hs
  · rw [hr]
    refine hopen i hi hfree _ ⟨reading_fresh hs hoff hfiles, fun j hj => ?_⟩
    have hne : j ≠ i := fun heq => by
      rw [heq, hfree] at hj
      cases hj
    rw [hfiles, Function.update_of_ne hne]

/-- **The loop of `cp`** and the two calls of `sys_close` after it. -/
theorem copyFile_session {j : ℕ} (hi : i < MAX_FD) (hj : j < MAX_FD) (hij : i ≠ j)
    (hopen : F i = true) (hopen' : F j = true) :
    Hoare (Reading F i 0) (copyFile e i j) fun _ k =>
      Session (Function.update (Function.update F i false) j false) k := by
  refine Hoare.bind ((stable_reading F i 0).onDev _) fun buf => ?_
  have hbody : ∀ (bytes : ℕ → UInt8) count off, Preserves (Reading F i off) (do
      let _ ← sysWrite e j bytes count
      pure ()) := fun bytes count off => by
    refine Preserves.bind ?_ fun _ => .pure _ _
    exact (stable_reading F i off).sysWrite (fun _ => setOffset_reading hij _) bytes count
  refine (readWhile_ends hi hopen 1024 _ hbody rounds_le buf 0).bind fun r => .given fun hr => ?_
  cases r with
  | none => cases hr
  | some mem =>
    refine (sysClose_session hi hopen).bind fun _ => (sysClose_session hj ?_).bind fun _ => ?_
    · rw [Function.update_of_ne hij.symm, hopen']
    · exact .pure fun _ h => h

/-- **`cp` is balanced.** -/
theorem cp_session (src dst : Option (List UInt8)) :
    Hoare (Session F) (cp e src dst) fun _ k => Session F k := by
  intro k h
  unfold cp
  refine sysOpen_then (Q := fun _ k => Session F k) h _ _ (fun r hr => ?_) (fun i hi hfree => ?_)
    k rfl
  · exact .ite (fun _ => .pure fun _ h => h) fun hno => absurd hr hno
  refine .ite (fun hneg => by omega) fun _ k1 ⟨h1, _⟩ => ?_
  refine sysOpen_then (Q := fun _ k => Session F k) h1.1 _ _ (fun r hr => ?_)
    (fun j hj hfree' => ?_) k1 rfl
  · refine .ite (fun _ => ?_) fun hno => absurd hr hno
    refine (sysClose_session hi (Function.update_self _ _ _)).bind fun _ => .pure fun k h => ?_
    rw [update_back hfree] at h
    exact h
  refine .ite (fun hneg => by omega) fun _ => ?_
  have hij : i ≠ j := fun heq => by
    rw [heq, Function.update_self] at hfree'
    cases hfree'
  rw [Function.update_of_ne hij.symm] at hfree'
  have hF : Function.update (Function.update (Function.update (Function.update F i true) j true)
      i false) j false = F := by
    rw [Function.update_comm hij.symm, update_back hfree, update_back hfree']
  have hcopy := copyFile_session (e := e) (F := Function.update (Function.update F i true) j true)
    hi hj hij (by rw [Function.update_of_ne hij, Function.update_self]) (Function.update_self _ _ _)
  rw [hF] at hcopy
  refine hcopy.pre fun k' ⟨⟨hs, _⟩, hkeep⟩ => ?_
  obtain ⟨-, f, hf, hoff⟩ := h1
  exact ⟨hs, f, by rw [hkeep i (Function.update_self _ _ _), hf], hoff⟩

/-- **`exec` is balanced**, when the program leaves the file system alone. -/
theorem sysExecve_session (hentry : ∀ image argc argv k, (entry image argc argv k).2 = k)
    (file : Option (List UInt8)) (argv : List (List UInt8)) :
    Hoare (Session F) (sysExecve e entry file argv) fun _ k => Session F k := by
  intro k h
  unfold sysExecve
  refine sysOpen_then (Q := fun _ k => Session F k) h _ _ (fun r hr => ?_) (fun i hi hfree => ?_)
    k rfl
  · exact .ite (fun _ => .pure fun _ h => h) fun hno => absurd hr hno
  refine .ite (fun hneg => by omega) fun _ => Hoare.pre ?_ fun _ h => h.1
  refine Hoare.bind ((stable_reading _ i 0).onDev _) fun buf => ?_
  have hopen : Function.update F i true i = true := Function.update_self _ _ _
  refine (readWhile_ends hi hopen 4096 _ (fun _ _ _ => .pure _ _) rounds_le buf 0).bind fun r =>
    .given fun hr => ?_
  cases r with
  | none => cases hr
  | some image =>
    refine (sysClose_session hi hopen).bind fun _ k h => ?_
    rw [update_back hfree] at h
    rw [hentry]
    exact h

/-- What is said about neither the descriptors nor the objects' sizes is left alone by
`opendir` and `tfs_closedir`. -/
theorem opendir_session (path : List UInt8) : Preserves (Session F) (opendir e path) := by
  refine ((stable_session F).namei path 0).bind fun r => ?_
  cases r with
  | error err => exact .pure _ _
  | ok obj =>
    refine ((stable_session F).onDev _).bind fun _ => .ite (.pure _ _) ?_
    refine ((stable_session F).onDev _).bind fun _ => .ite (.pure _ _) ?_
    exact ((stable_session F).touch obj).bind fun _ k h => ⟨h.fits, h.agree, h.fds⟩

theorem tfsClosedir_session (dir : ℕ) : Preserves (Session F) (tfsClosedir dir) := fun k h => by
  unfold tfsClosedir
  split
  · exact h
  · rename_i f _
    have hfree := (stable_session F).freeInode f.inode k h
    exact ⟨hfree.fits, hfree.agree, hfree.fds⟩

theorem readDir_session (dir : ℕ) : Preserves (Session F) (readDir e dir) := by
  refine Preserves.bind (fun _ h => h) fun file => ?_
  cases file with
  | none => exact .pure _ _
  | some file =>
    refine (stable_session F).withInode file.inode fun _ => ?_
    exact ((stable_session F).onDev _).bind fun _ k h => ⟨h.fits, h.agree, h.fds⟩

theorem listLoop_session (dir fuel : ℕ) : Preserves (Session F) (listLoop e dir fuel) := by
  induction fuel with
  | zero => exact .pure _ _
  | succ fuel ih =>
    refine (readDir_session dir).bind fun de => ?_
    cases de with
    | none => exact .pure _ _
    | some de => exact ih

/-- **`ls` takes no descriptor.** -/
theorem ls_session (filename : Option (List UInt8)) : Preserves (Session F) (ls e filename) := by
  refine (opendir_session _).bind fun r => ?_
  cases r with
  | error err => exact .pure _ _
  | ok dir =>
    refine Preserves.bind (Preserves.bind (fun _ h => h) fun file => ?_) fun mode => ?_
    · cases file with
      | none => exact .pure _ _
      | some file => exact (stable_session F).withInode file.inode fun _ => .pure _ _
    · refine .ite (tfsClosedir_session dir) ((listLoop_session dir rounds).bind fun ended => ?_)
      exact .ite (tfsClosedir_session dir) (.pure _ _)

/-- **A command that does not leak** leaves the descriptors as they were. -/
theorem runCommand_session (hentry : ∀ image argc argv k, (entry image argc argv k).2 = k)
    (h : Session F k) {c : Command} (hc : ¬Leaks e k c) :
    Session F (runCommand e entry c k).2 := by
  have hP := stable_session F
  have hfails : ∀ path flags, ¬Opens e k path flags →
      (sysOpen e path flags k).1 < 0 ∧ Session F (sysOpen e path flags k).2 := by
    intro path flags hno
    have hneg : (sysOpen e path flags k).1 < 0 :=
      Int.not_le.mp (mt (sysOpen_nonneg_iff path flags k).mp hno)
    rcases sysOpen_cases (e := e) h path flags with hs | ⟨i, -, hr, -⟩
    · exact hs
    · omega
  cases c with
  | cat filename =>
    obtain ⟨hneg, hs⟩ := hfails _ _ hc
    unfold runCommand cat
    dsimp only
    rw [KernelM.bind_apply, if_pos hneg]
    exact hs
  | touch filename => exact (hfails _ _ hc).2
  | cp src dst => exact cp_session src dst k h
  | ls filename => exact ls_session filename k h
  | mkdir filename =>
    cases filename with
    | none => exact h
    | some filename => exact hP.withParent hP.tfsMkdir filename k h
  | rmdir filename => exact hP.withParent hP.tfsRmdir _ k h
  | rm filename => exact hP.withParent hP.tfsUnlink _ k h
  | exec argv => exact sysExecve_session hentry argv.head? argv k h

/-- **A command that leaks** opens one descriptor more. -/
theorem runCommand_leaks (entry : Entry) (h : Session F k) {c : Command} (hc : Leaks e k c) :
    ∃ i < MAX_FD, F i = false ∧ Session (Function.update F i true) (runCommand e entry c k).2 := by
  have hopens : ∀ path flags, Opens e k path flags → ∃ i < MAX_FD,
      (sysOpen e path flags k).1 = i ∧ F i = false ∧
        Reading (Function.update F i true) i 0 (sysOpen e path flags k).2 := by
    intro path flags hyes
    have hnonneg := (sysOpen_nonneg_iff path flags k).mpr hyes
    obtain ⟨hneg, -⟩ | ⟨i, hi, hr, hfree, hs, f, hoff, hfiles⟩ :=
      sysOpen_cases (e := e) h path flags
    · omega
    · exact ⟨i, hi, hr, hfree, reading_fresh hs hoff hfiles⟩
  cases c with
  | cat filename =>
    obtain ⟨i, hi, hr, hfree, hs⟩ := hopens _ _ hc
    refine ⟨i, hi, hfree, ?_⟩
    unfold runCommand cat
    dsimp only
    rw [KernelM.bind_apply, hr, if_neg (by omega)]
    have hbuf := (stable_reading _ i 0).onDev (wildBytes e) _ hs
    have hloop := readWhile_ends (e := e) hi (Function.update_self i true F) 1024 (fun _ => 0)
      (fun _ _ _ => .pure _ ()) rounds_le
    exact (hloop _ 0 _ hbuf).2
  | touch filename =>
    obtain ⟨i, hi, -, hfree, hs⟩ := hopens _ _ hc
    exact ⟨i, hi, hfree, hs.1⟩
  | _ => exact hc.elim

/-! ### Sessions of any length -/

/-- A state between two commands. -/
def Running (k : Kernel) : Prop := Session k.fds k

theorem Session.running (h : Session F k) : Running k := ⟨h.fits, h.agree, rfl⟩

/-- **A command leaves the open descriptors as they were** exactly when it does not leak. -/
theorem openFds_runCommand (hentry : ∀ image argc argv k, (entry image argc argv k).2 = k)
    (h : Running k) (c : Command) :
    openFds (runCommand e entry c k).2 = openFds k ↔ ¬Leaks e k c := by
  constructor
  · intro heq hc
    obtain ⟨i, hi, hfree, hs⟩ := runCommand_leaks entry h hc
    have hmem : i ∈ openFds (runCommand e entry c k).2 :=
      ⟨hi, by rw [hs.fds, Function.update_self]⟩
    rw [heq] at hmem
    exact absurd hmem.2 (by rw [hfree]; decide)
  · intro hc
    rw [openFds, (runCommand_session hentry h hc).fds, openFds]

/-- Whatever a command does, the session goes on. -/
theorem runCommand_running (hentry : ∀ image argc argv k, (entry image argc argv k).2 = k)
    (h : Running k) (c : Command) : Running (runCommand e entry c k).2 := by
  by_cases hc : Leaks e k c
  · obtain ⟨i, -, -, hs⟩ := runCommand_leaks entry h hc
    exact hs.running
  · exact (runCommand_session hentry h hc).running

theorem fsInit_session {d : Dev} (h : fsInit e d = some k) : Session (fun _ => false) k :=
  (stable_session _).fsInit (fun _ _ h => ⟨h.fits, h.agree, h.fds⟩)
    ⟨fun _ => (by decide : 0 < 2 ^ 32), fun _ _ => ⟨nofun, nofun⟩, rfl⟩ h

variable {k₀ : Kernel}

/-- **Which commands leak**, after any session from `fs_init`: a command leaves the open
descriptors as they were exactly when it is neither a `cat` nor a `touch` whose file can be
opened. -/
theorem openFds_iff (hentry : ∀ image argc argv k, (entry image argc argv k).2 = k) {d : Dev}
    (hinit : fsInit e d = some k₀)
    (h : Reach (StepOf (commandStep e entry)) (fun _ _ => True) k₀ k) (c : Command) :
    openFds (runCommand e entry c k).2 = openFds k ↔ ¬Leaks e k c := by
  have hrunning : Running k := by
    refine h.invariant (fsInit_session hinit).running fun k c k' hk _ hstep => ?_
    obtain rfl := Option.some.inj hstep
    exact runCommand_running hentry hk c
  exact openFds_runCommand hentry hrunning c

/-- **A session without such a command** goes on with every descriptor free. -/
theorem openFds_of_reach (hentry : ∀ image argc argv k, (entry image argc argv k).2 = k) {d : Dev}
    (hinit : fsInit e d = some k₀)
    (h : Reach (StepOf (commandStep e entry)) (fun k c => ¬Leaks e k c) k₀ k) :
    openFds k = ∅ := by
  have hsession : Session (fun _ => false) k := by
    refine h.invariant (fsInit_session hinit) fun k c k' hk hok hstep => ?_
    obtain rfl := Option.some.inj hstep
    exact runCommand_session hentry hk hok
  ext i
  rw [openFds, hsession.fds]
  exact ⟨fun hi => (by cases hi.2), fun hi => hi.elim⟩

/-- A program that does nothing. -/
def quietEntry : Entry := fun _ _ _ => pure 0

/-- After a directory has been made, listing it leaves the descriptors as they were. -/
theorem openFds_iff_ls :
    openFds (runCommand (Env.quiet (smallSbi 9)) quietEntry (.ls (some [97]))
        (runCommand (Env.quiet (smallSbi 9)) quietEntry (.mkdir (some [97])) formattedKernel).2).2 =
      openFds (runCommand (Env.quiet (smallSbi 9)) quietEntry (.mkdir (some [97]))
        formattedKernel).2 := by
  have h1 : Reach (StepOf (commandStep (Env.quiet (smallSbi 9)) quietEntry)) (fun _ _ => True)
      formattedKernel
      (runCommand (Env.quiet (smallSbi 9)) quietEntry (.mkdir (some [97])) formattedKernel).2 :=
    Reach.start.step (a := .mkdir (some [97])) trivial rfl
  exact (openFds_iff (fun _ _ _ _ => rfl) fsInit_formatted h1 _).mpr id

/-- `touch a` after `fs_init` leaves descriptor 0 open. -/
theorem fds_touch : (runCommand (Env.quiet (smallSbi 9)) quietEntry (.touch (some [97]))
    formattedKernel).2.fds 0 = true := by decide +kernel

/-- **A command that leaks**: the first `touch` leaves a descriptor open. -/
theorem not_openFds_eq :
    ¬∀ (e : Env) (entry : Entry) (d : Dev) (k₀ k : Kernel),
      (∀ image argc argv k, (entry image argc argv k).2 = k) → fsInit e d = some k₀ →
        Reach (StepOf (commandStep e entry)) (fun _ _ => True) k₀ k →
          ∀ c, openFds (runCommand e entry c k).2 = openFds k := by
  intro h
  have heq := h _ quietEntry _ _ _ (fun _ _ _ _ => rfl) fsInit_formatted .start (.touch (some [97]))
  have hmem : 0 ∈ openFds (runCommand (Env.quiet (smallSbi 9)) quietEntry (.touch (some [97]))
      formattedKernel).2 := ⟨by decide, fds_touch⟩
  rw [heq] at hmem
  exact absurd hmem.2 (by decide +kernel)

end Thunix.Shell
