import Thunix.Fs.Stable
import Thunix.Fs.LifetimeRuns

/-!
# The descriptor table

A descriptor is an index of two tables, `fds` and `files`, that `fs/file.c` updates one
after the other: `get_unused_fd` sets an entry of the first, `sys_open` behind it one of the
second, and `sys_close` clears both. Along every run of the five calls from `fs_init` on the
two agree, `sys_open` takes the least entry that is free, and a descriptor that is not open is
refused with the state as it was (`Thunix.Fs.fdCallOk_of_reach`).

The tests of a descriptor in the four other calls let `MAX_FD` itself pass, and read the word
behind `files`. So a call keeps within the tables exactly when its descriptor is another, and
with the number `MAX_FD` what a call does depends on that word (`Thunix.Fs.not_fdCallOk`).
-/

namespace Thunix.Fs

variable {e : Env} {k k₀ k' : Kernel}

/-! ### The calls -/

/-- The calls on descriptors. -/
inductive FdCall
  | open (path : List UInt8) (flags : ℕ)
  | close (fd : ℤ)
  | read (fd : ℤ) (buf : ℕ → UInt8) (size : ℤ)
  | write (fd : ℤ) (buf : ℕ → UInt8) (size : ℤ)
  | lseek (fd off : ℤ) (mode : ℕ)

/-- The descriptor a call is given. -/
def FdCall.fd : FdCall → Option ℤ
  | .open _ _ => none
  | .close fd => some fd
  | .read fd _ _ => some fd
  | .write fd _ _ => some fd
  | .lseek fd _ _ => some fd

/-- The bytes at the pointer a call is given, if it is given one. -/
def FdCall.buf : FdCall → ℕ → UInt8
  | .read _ buf _ => buf
  | .write _ buf _ => buf
  | _ => fun _ => 0

/-- A call: its result, and the caller's buffer after it. -/
def fdCall (e : Env) : FdCall → KernelM (ℤ × (ℕ → UInt8))
  | .open path flags => do pure (← sysOpen e path flags, fun _ => 0)
  | .close fd => do pure (← sysClose e fd, fun _ => 0)
  | .read fd buf size => sysRead e fd buf size
  | .write fd buf size => do pure (← sysWrite e fd buf size, buf)
  | .lseek fd off mode => do pure (← sysLseek e fd off mode, fun _ => 0)

/-- The index of `files`, and of `fds` in `sys_close`, that passes the test of a
descriptor. -/
def fdIndex (fd : ℤ) : Option ℤ := if fd < 0 ∨ fd > MAX_FD then none else some fd

/-- The indices at which `get_unused_fd` uses `fds`. The last of them is the index of `files`
in `sys_open`, if it is one of an entry that is free. -/
def unusedIndices (fds : ℕ → Bool) : List ℤ :=
  match (List.range MAX_FD).find? fun i => !fds i with
  | some i => (List.range (i + 1)).map Nat.cast
  | none => (List.range MAX_FD).map Nat.cast

/-- The indices at which a call uses the two tables. -/
def FdCall.indices (k : Kernel) (c : FdCall) : List ℤ :=
  match c.fd with
  | none => unusedIndices k.fds
  | some fd => (fdIndex fd).toList

/-! ### What is promised -/

/-- The two tables agree. -/
def TablesAgree (k : Kernel) : Prop := ∀ i < MAX_FD, k.fds i = true ↔ (k.files i).isSome

/-- A descriptor is open. -/
def FdOpen (k : Kernel) (fd : ℤ) : Prop := ∃ i < MAX_FD, fd = i ∧ k.fds i = true

/-- What `sys_open` returns and leaves: an error and the tables, or the least descriptor that
is not open, which then is, with a file at its beginning. -/
def TakesLeast (k : Kernel) (r : ℤ) (k' : Kernel) : Prop :=
  (r < 0 ∧ k'.fds = k.fds ∧ k'.files = k.files) ∨
    ∃ i < MAX_FD, r = i ∧ (k.fds i = false ∧ k.files i = none) ∧ (∀ j < i, k.fds j = true) ∧
      k'.fds = Function.update k.fds i true ∧
        ∃ f : File, f.offset = 0 ∧ k'.files = Function.update k.files i (some f)

/-- **What is promised of a call**: `sys_open` takes the least descriptor, a descriptor that
is not open is refused with nothing changed, and the tables are used within their bounds. -/
structure FdCallOk (e : Env) (k : Kernel) (c : FdCall) : Prop where
  least : ∀ path flags, c = .open path flags →
    TakesLeast k (fdCall e c k).1.1 (fdCall e c k).2
  refused : ∀ fd, c.fd = some fd → ¬FdOpen k fd → fdCall e c k = ((-EBADF, c.buf), k)
  within : ∀ i ∈ c.indices k, 0 ≤ i ∧ i < MAX_FD

/-- The step of a run. -/
def fdStep (e : Env) (k : Kernel) (c : FdCall) : Option Kernel := some (fdCall e c k).2

/-! ### Errors are negative -/

/-- An error, if it is one, is negative. -/
def NegError {α : Type} (r : Except ℤ α) : Prop := ∀ err, r = .error err → err < 0

theorem negError_ok {α : Type} {a : α} : NegError (.ok a : Except ℤ α) := fun _ h => by cases h

theorem negError_error {α : Type} {err : ℤ} (h : err < 0) : NegError (.error err : Except ℤ α) :=
  fun _ h' => by
    cases h'
    exact h

theorem putEntry_nonpos (dir : Inode) (name : List UInt8) (inr : ℤ) (block : ℕ) (cs : CacheRef)
    (de : ℕ) : Hoare (fun _ => True) (putEntry e dir name inr block cs de) fun r _ => r.1 ≤ 0 :=
  Hoare.any.bind fun _ => Hoare.any.bind fun _ => Hoare.any.bind fun _ =>
    .ite (fun _ => .pure fun _ _ => (by decide : (- EIO : ℤ) ≤ 0)) fun _ => .pure fun _ _ => le_rfl

theorem tfsAddEntry_nonpos (dir : Inode) (name : List UInt8) (inr : ℤ) (dirty : Bool) :
    Hoare (fun _ => True) (tfsAddEntry e dir name inr dirty) fun r _ => r.1 ≤ 0 := by
  refine .ite (fun _ => .pure fun _ _ => (by decide : (-ENAMETOOLONG : ℤ) ≤ 0)) fun _ => ?_
  refine Hoare.any.bind fun place => ?_
  cases place with
  | fail => exact .pure fun _ _ => (by decide : (- EIO : ℤ) ≤ 0)
  | slot block cs de => exact putEntry_nonpos dir name inr block cs de
  | full index =>
    refine Hoare.any.bind fun block => ?_
    refine .ite (fun _ => .pure fun _ _ => (by decide : (-EFBIG : ℤ) ≤ 0)) fun _ => ?_
    refine Hoare.any.bind fun r => ?_
    cases r with
    | none => exact .pure fun _ _ => (by decide : (- EIO : ℤ) ≤ 0)
    | some cs =>
      exact Hoare.any.bind fun _ => Hoare.any.bind fun _ => putEntry_nonpos _ name inr _ cs _

theorem onDev_result {α : Type} {x : DevM α} {Q : α → Prop}
    (h : Hoare (fun _ => True) x fun r _ => Q r) :
    Hoare (fun _ => True) (onDev x) fun r _ => Q r := fun k _ => h k.dev trivial

theorem addEntryObj_nonpos (dir : ℕ) (name : List UInt8) (inr : ℕ) :
    Hoare (fun _ => True) (addEntryObj e dir name inr) fun r _ => r.1 ≤ 0 := by
  refine Hoare.any.bind fun inode => ?_
  refine (onDev_result (tfsAddEntry_nonpos inode name _ false)).bind fun r => ?_
  exact Hoare.bind (Q := fun _ _ => r.1 ≤ 0) (fun _ h => h) fun _ => .pure fun _ h => h

theorem enterInode_nonpos (dir : ℕ) (dname : List UInt8) (obj : ℕ) :
    Hoare (fun _ => True) (enterInode e dir dname obj) fun r _ => r ≤ 0 := by
  refine Hoare.any.bind fun _ => .ite (fun _ => .pure fun _ _ => by decide) fun _ => ?_
  refine Hoare.any.bind fun inode => (addEntryObj_nonpos dir dname _).bind fun r => ?_
  refine .ite (fun _ => .pure fun _ h => h) fun _ => .ite (fun _ => ?_) fun _ => ?_
  · refine Hoare.bind (Q := fun _ _ => True) (fun _ _ => trivial) fun _ => ?_
    exact .ite (fun _ => .pure fun _ _ => by decide) fun _ => .pure fun _ _ => le_rfl
  · exact .pure fun _ _ => le_rfl

theorem makeEntry_negError (dir : ℕ) (dname : List UInt8) (mode : ℤ) :
    Hoare (fun _ => True) (makeEntry e dir dname mode) fun r _ => NegError r := by
  refine Hoare.bind (Q := fun r _ => NegError r) ?_ fun r => ?_
  · refine Hoare.any.bind fun obj => ?_
    cases obj with
    | none => exact .pure fun _ _ => negError_error (by decide)
    | some obj =>
      refine Hoare.any.bind fun _ => Hoare.any.bind fun inr => .ite (fun hneg => ?_) fun _ => ?_
      · exact Hoare.any.bind fun _ => .pure fun _ _ => negError_error hneg
      · exact Hoare.any.bind fun _ => Hoare.any.bind fun _ => .pure fun _ _ => negError_ok
  · cases r with
    | error err => exact .pure fun _ h => negError_error (h err rfl)
    | ok obj =>
      refine Hoare.pre (P := fun _ => True) ?_ fun _ _ => trivial
      refine (enterInode_nonpos dir dname obj).bind fun err => .ite (fun hne => ?_) fun _ => ?_
      · refine Hoare.bind (Q := fun _ _ => err ≤ 0) (fun _ h => h) fun _ => .pure fun _ h => ?_
        exact negError_error (lt_of_le_of_ne h hne)
      · exact .pure fun _ _ => negError_ok

theorem tfsMknod_negError (dir : ℕ) (dname : List UInt8) (mode : ℤ) :
    Hoare (fun _ => True) (tfsMknod e dir dname mode) fun r _ => NegError r := by
  refine Hoare.any.bind fun inode => Hoare.any.bind fun r => ?_
  cases r with
  | null => exact makeEntry_negError dir dname mode
  | err err => exact makeEntry_negError dir dname mode
  | found cs de => exact .pure fun _ _ => negError_error (by decide)

theorem findEntryLoop_negError (dname : List UInt8) (words : List ℕ) :
    Hoare (fun _ => True) (findEntryLoop e dname words) fun r _ =>
      ∀ err, r = .err err → err < 0 := by
  induction words with
  | nil => exact .pure fun _ _ _ h => by cases h
  | cons block rest ih =>
    refine Hoare.any.bind fun cs => ?_
    cases cs with
    | none =>
      exact .pure fun _ _ _ h => by
        cases h
        decide
    | some cs =>
      refine Hoare.any.bind fun data => Hoare.any.bind fun de => ?_
      cases de with
      | some de => exact .pure fun _ _ _ h => by cases h
      | none => exact .ite (fun _ => .pure fun _ _ _ h => by cases h) fun _ => ih

theorem tfsIget_negError (dname : List UInt8) (dir : ℕ) :
    Hoare (fun _ => True) (tfsIget e dname dir) fun r _ => NegError r := by
  refine Hoare.any.bind fun inode => ?_
  have hfind : Hoare (fun _ => True) (tfsFindEntry e inode dname) fun r _ =>
      ∀ err, r = .err err → err < 0 :=
    .ite (fun _ => .pure fun _ _ _ h => by cases h) fun _ =>
      Hoare.any.bind fun words => findEntryLoop_negError dname words
  refine (onDev_result hfind).bind fun r => ?_
  cases r with
  | null => exact .pure fun _ _ => negError_error (by decide)
  | err err => exact .pure fun _ h => negError_error (h err rfl)
  | found cs de =>
    refine Hoare.pre (P := fun _ => True) ?_ fun _ _ => trivial
    refine Hoare.any.bind fun _ => Hoare.any.bind fun inr => Hoare.any.bind fun tinode =>
      Hoare.any.bind fun r => ?_
    cases r with
    | none => exact .pure fun _ _ => negError_error (by decide)
    | some obj => exact Hoare.any.bind fun _ => .pure fun _ _ => negError_ok

/-- The error a walk ends at is negative. -/
def Walked.NegError (w : Walked) : Prop :=
  ∀ err parent part, w = .missing err parent part → err < 0

theorem nameiWalk_negError (flag : ℕ) (name part : List UInt8) (parent : ℕ) :
    Hoare (fun _ => True) (nameiWalk e flag name part parent) fun w _ => w.NegError := by
  have hinto : ∀ (part : List UInt8) (parent : ℕ) {next : ℕ → KernelM Walked},
      (∀ obj, Hoare (fun _ => True) (next obj) fun w _ => w.NegError) →
        Hoare (fun _ => True) (walkInto e part parent next) fun w _ => w.NegError :=
    fun part parent next hnext => by
      refine (tfsIget_negError part parent).bind fun r => ?_
      cases r with
      | error err =>
        refine .pure fun _ h err' _ _ heq => ?_
        cases heq
        exact h err rfl
      | ok obj => exact Hoare.bind (Q := fun _ _ => True) (fun _ _ => trivial) fun _ => hnext obj
  have hends : ∀ obj, (Walked.inode obj).NegError ∧ (Walked.parent obj).NegError :=
    fun obj => ⟨fun _ _ _ h => (by cases h), fun _ _ _ h => (by cases h)⟩
  induction name generalizing part parent with
  | nil =>
    refine .ite (fun _ => .pure fun _ _ => (hends _).1) fun _ => ?_
    refine .ite (fun _ => .pure fun _ _ => (hends _).2) fun _ => ?_
    exact hinto part parent fun obj => .pure fun _ _ => (hends _).1
  | cons c name ih =>
    refine .ite (fun _ => .ite (fun _ => .pure fun _ _ _ _ _ h => by cases h) fun _ => ih _ _)
      fun _ => .ite (fun _ => ih _ _) fun _ => ?_
    refine .ite (fun _ => .pure fun _ _ => (hends _).2) fun _ => ?_
    exact hinto part parent fun obj => ih [] obj

/-- **What `namei` returns for an error is negative.** -/
theorem namei_negError (name : List UInt8) (flag : ℕ) :
    Hoare (fun _ => True) (namei e name flag) fun r _ => NegError r := by
  refine Hoare.any.bind fun start => (nameiWalk_negError flag name [] start).bind fun w => ?_
  cases w with
  | inode obj => exact .pure fun _ _ => negError_ok
  | parent obj => exact .pure fun _ _ => negError_ok
  | tooLong => exact .pure fun _ _ => negError_error (by decide)
  | missing err parent part =>
    refine .ite (fun _ => ?_) fun _ => .pure fun _ h => negError_error (h err parent part rfl)
    refine Hoare.pre (P := fun _ => True) ?_ fun _ _ => trivial
    refine (tfsMknod_negError parent part TFS_FILE).bind fun made => ?_
    refine Hoare.bind (Q := fun _ _ => NegError made) (fun _ h => h) fun _ => ?_
    cases made with
    | error err => exact .pure fun _ h => negError_error (h err rfl)
    | ok obj =>
      refine Hoare.bind (Q := fun _ _ => True) (fun _ _ => trivial) fun _ => ?_
      refine .ite (fun _ => ?_) fun _ => .pure fun _ _ => negError_ok
      exact Hoare.any.bind fun _ => .pure fun _ _ => negError_error (by decide)

/-! ### `sys_open` -/

/-- **`get_unused_fd`** takes the least descriptor that is free, or none. -/
theorem getUnusedFd_cases (k : Kernel) :
    (∃ i < MAX_FD, k.fds i = false ∧ (∀ j < i, k.fds j = true) ∧
        getUnusedFd k = (i, { k with fds := Function.update k.fds i true })) ∨
      getUnusedFd k = (MAX_FD, k) := by
  unfold getUnusedFd
  split
  · rename_i i hfind
    rw [List.find?_range_eq_some] at hfind
    obtain ⟨hfree, hmem, hless⟩ := hfind
    refine .inl ⟨i, List.mem_range.mp hmem, by simpa using hfree, fun j hj => ?_, rfl⟩
    simpa using hless j hj
  · exact .inr rfl

/-- **`sys_open`** takes the least descriptor that is not open. -/
theorem sysOpen_takesLeast (hagree : TablesAgree k) (path : List UInt8) (flags : ℕ) :
    TakesLeast k (sysOpen e path flags k).1 (sysOpen e path flags k).2 := by
  have herror : ∀ err : ℤ, err < 0 → Hoare (fun k' => k'.handles = k.handles)
      (pure err : KernelM ℤ) fun r k' => TakesLeast k r k' := fun err herr =>
    .pure fun k' h => .inl ⟨herr, congrArg Handles.fds h, congrArg Handles.files h⟩
  have hsame := stable_handles fun h => h = k.handles
  have hrun : Hoare (fun k' => True ∧ k'.handles = k.handles) (sysOpen e path flags)
      fun r k' => TakesLeast k r k' := by
    refine ((namei_negError path flags).and (hsame.namei path flags)).bind fun r => ?_
    cases r with
    | error err => exact .given fun hneg => herror err (hneg err rfl)
    | ok obj =>
      refine .given fun _ => Hoare.bind (hsame.onDev _) fun ok => ?_
      refine .ite (fun _ => herror _ (by decide)) fun _ => ?_
      refine Hoare.bind (hsame.touch obj) fun _ k' hk' => ?_
      have hfds : k'.fds = k.fds := congrArg Handles.fds hk'
      have hfiles : k'.files = k.files := congrArg Handles.files hk'
      rw [KernelM.bind_apply]
      rcases getUnusedFd_cases k' with ⟨i, hi, hfree, hless, hrun⟩ | hrun
      · rw [hrun]
        dsimp only
        rw [if_neg (Nat.not_le.mpr hi)]
        rw [hfds] at hfree hless
        have hclosed : k.files i = none := by
          have hnot := mt (hagree i hi).mpr (by rw [hfree]; decide)
          simpa using hnot
        exact .inr ⟨i, hi, rfl, ⟨hfree, hclosed⟩, hless, by rw [← hfds], _, rfl, by rw [← hfiles]⟩
      · rw [hrun]
        dsimp only
        rw [if_pos le_rfl]
        exact herror _ (by decide) k' hk'
  exact hrun k ⟨trivial, rfl⟩

theorem TakesLeast.agree {r : ℤ} (h : TakesLeast k r k') (hagree : TablesAgree k) :
    TablesAgree k' := by
  rcases h with ⟨-, hfds, hfiles⟩ | ⟨i, -, -, -, -, hfds, f, -, hfiles⟩
  · rw [TablesAgree, hfds, hfiles]
    exact hagree
  · intro j hj
    rw [hfds, hfiles]
    by_cases hji : j = i
    · rw [hji, Function.update_self, Function.update_self]
      exact ⟨fun _ => rfl, fun _ => rfl⟩
    · rw [Function.update_of_ne hji, Function.update_of_ne hji]
      exact hagree j hj

/-! ### A descriptor is tested -/

/-- The test and the entry it leads to. -/
theorem fget_eq (fd : ℤ) (hmax : fd ≠ MAX_FD) (k : Kernel) :
    fget e fd k = ((fdIndex fd).map fun fd =>
      ((k.files fd.toNat).map Fget.file).getD .null, k) := by
  unfold fget fdIndex
  by_cases hrange : fd < 0 ∨ fd > MAX_FD
  · rw [if_pos hrange, if_pos hrange]
    rfl
  · rw [if_neg hrange, if_neg hrange, if_neg hmax]
    cases hf : k.files fd.toNat <;> simp only [hf, Option.map_some, Option.map_none, Option.getD]

/-- A descriptor that is not `MAX_FD` is refused, or leads to an entry of the tables. -/
theorem fget_cases (hagree : TablesAgree k) {fd : ℤ} (hmax : fd ≠ MAX_FD) :
    (¬FdOpen k fd ∧ (fget e fd k = (none, k) ∨ fget e fd k = (some .null, k))) ∨
      ∃ i < MAX_FD, fd = i ∧ ∃ f, k.files i = some f ∧ fget e fd k = (some (.file f), k) := by
  rw [fget_eq fd hmax, fdIndex]
  by_cases hrange : fd < 0 ∨ fd > MAX_FD
  · rw [if_pos hrange]
    refine .inl ⟨fun ⟨i, hi, hfd, _⟩ => ?_, .inl rfl⟩
    omega
  · rw [if_neg hrange]
    have hfd : fd = (fd.toNat : ℤ) := by omega
    have hlt : fd.toNat < MAX_FD := by omega
    cases hf : k.files fd.toNat with
    | none =>
      refine .inl ⟨fun ⟨i, hi, hi', hopen⟩ => ?_, .inr (by simp only [Option.map_some, hf]; rfl)⟩
      have heq : fd.toNat = i := by omega
      rw [heq] at hf
      have hsome := (hagree i hi).mp hopen
      rw [hf] at hsome
      cases hsome
    | some f => exact .inr ⟨_, hlt, hfd, f, hf, by simp only [Option.map_some, hf]; rfl⟩

/-- **A descriptor that is not open is refused**, by the calls on an open file. -/
theorem withFile_refused (hagree : TablesAgree k) {fd : ℤ} (hmax : fd ≠ MAX_FD)
    (hclosed : ¬FdOpen k fd) (call : File → KernelM ℤ) : withFile e fd call k = (-EBADF, k) := by
  rw [withFile, KernelM.bind_apply]
  rcases fget_cases (e := e) hagree hmax with ⟨-, hget | hget⟩ | ⟨i, hi, hfd, f, hf, -⟩
  · rw [hget]
    rfl
  · rw [hget]
    rfl
  · exact absurd ⟨i, hi, hfd, (hagree i hi).mpr (by rw [hf]; rfl)⟩ hclosed

/-- **A descriptor that is not open is refused**, by `sys_read`. -/
theorem sysRead_refused (hagree : TablesAgree k) {fd : ℤ} (hmax : fd ≠ MAX_FD)
    (hclosed : ¬FdOpen k fd) (buf : ℕ → UInt8) (size : ℤ) :
    sysRead e fd buf size k = ((-EBADF, buf), k) := by
  rw [sysRead, KernelM.bind_apply]
  rcases fget_cases (e := e) hagree hmax with ⟨-, hget | hget⟩ | ⟨i, hi, hfd, f, hf, -⟩
  · rw [hget]
    rfl
  · rw [hget]
    rfl
  · exact absurd ⟨i, hi, hfd, (hagree i hi).mpr (by rw [hf]; rfl)⟩ hclosed

/-! ### The tables keep agreeing -/

/-- Below the system calls the tables are left alone. -/
theorem stable_agree : Stable (fun _ => True) TablesAgree :=
  stable_handles fun h => ∀ i < MAX_FD, h.fds i = true ↔ (h.files i).isSome

/-- A new offset leaves an open file open. -/
theorem setOffset_agree (fd offset : ℕ) : Preserves TablesAgree (setOffset fd offset) :=
  fun k h i hi => by
    have hsome : ((setOffset fd offset k).2.files i).isSome = (k.files i).isSome := by
      unfold setOffset
      dsimp only
      by_cases hfd : i = fd
      · rw [hfd, Function.update_self, Option.isSome_map]
      · rw [Function.update_of_ne hfd]
    rw [hsome]
    exact h i hi

/-- **Closing** clears both entries. -/
theorem dropFd_agree (k : Kernel) (fd : ℕ) (h : TablesAgree k) :
    TablesAgree { k with
      fds := Function.update k.fds fd false
      files := Function.update k.files fd none } := fun j hj => by
  dsimp only
  by_cases hfd : j = fd
  · rw [hfd, Function.update_self, Function.update_self]
    exact ⟨nofun, nofun⟩
  · rw [Function.update_of_ne hfd, Function.update_of_ne hfd]
    exact h j hj

/-- **A call keeps the tables in agreement.** -/
theorem fdCall_agree (c : FdCall) : Preserves TablesAgree (fdCall e c) := by
  cases c with
  | «open» path flags => exact fun k h => (sysOpen_takesLeast h path flags).agree h
  | close fd => exact (stable_agree.sysClose dropFd_agree fd).bind fun _ => .pure _ _
  | read fd buf size => exact stable_agree.sysRead (fun _ => setOffset_agree _ _) buf size
  | write fd buf size =>
    exact (stable_agree.sysWrite (fun _ => setOffset_agree _ _) buf size).bind fun _ => .pure _ _
  | lseek fd off mode =>
    exact (stable_agree.sysLseek (fun _ => setOffset_agree _ _) off mode).bind fun _ => .pure _ _

theorem unusedIndices_within {fds : ℕ → Bool} {i : ℤ} (h : i ∈ unusedIndices fds) :
    0 ≤ i ∧ i < MAX_FD := by
  unfold unusedIndices at h
  split at h
  · rename_i n hfind
    obtain ⟨-, hmem, -⟩ := List.find?_range_eq_some.mp hfind
    obtain ⟨j, hj, rfl⟩ := List.mem_map.mp h
    have hn := List.mem_range.mp hmem
    have hj' := List.mem_range.mp hj
    exact ⟨Int.natCast_nonneg j, by omega⟩
  · obtain ⟨j, hj, rfl⟩ := List.mem_map.mp h
    have hj' := List.mem_range.mp hj
    exact ⟨Int.natCast_nonneg j, by omega⟩

/-- **A call keeps within the tables** exactly when its descriptor is not `MAX_FD`. -/
theorem within_iff (c : FdCall) :
    (∀ i ∈ c.indices k, 0 ≤ i ∧ i < MAX_FD) ↔ c.fd ≠ some (MAX_FD : ℤ) := by
  unfold FdCall.indices
  cases hc : c.fd with
  | none => exact ⟨fun _ => nofun, fun _ i hi => unusedIndices_within hi⟩
  | some fd =>
    have hne : some fd ≠ some (MAX_FD : ℤ) ↔ fd ≠ MAX_FD := not_congr Option.some_inj
    rw [hne]
    dsimp only
    unfold fdIndex
    by_cases hrange : fd < 0 ∨ fd > MAX_FD
    · rw [if_pos hrange]
      refine ⟨fun _ => by omega, fun _ i hi => ?_⟩
      cases hi
    · rw [if_neg hrange]
      constructor
      · intro h heq
        have hlt := (h fd (by rw [Option.toList]; exact List.mem_singleton_self fd)).2
        omega
      · intro hmax i hi
        rw [Option.toList, List.mem_singleton] at hi
        omega

/-- **What is promised of a call holds exactly when its descriptor is not `MAX_FD`.** -/
theorem fdCallOk_iff (hagree : TablesAgree k) (c : FdCall) :
    FdCallOk e k c ↔ c.fd ≠ some (MAX_FD : ℤ) := by
  refine ⟨fun h => (within_iff c).mp h.within, fun hmax => ⟨?_, ?_, (within_iff c).mpr hmax⟩⟩
  · rintro path flags rfl
    exact sysOpen_takesLeast hagree path flags
  · intro fd hfd hclosed
    have hne : fd ≠ MAX_FD := fun heq => hmax (by rw [hfd, heq])
    have hrun := withFile_refused (e := e) hagree hne hclosed
    cases c with
    | «open» path flags => cases hfd
    | close fd' =>
      cases hfd
      exact congrArg (fun r : ℤ × Kernel => ((r.1, fun _ => 0), r.2)) (hrun _)
    | read fd' buf size =>
      cases hfd
      exact sysRead_refused hagree hne hclosed buf size
    | write fd' buf size =>
      cases hfd
      exact congrArg (fun r : ℤ × Kernel => ((r.1, buf), r.2)) (hrun _)
    | lseek fd' off mode =>
      cases hfd
      exact congrArg (fun r : ℤ × Kernel => ((r.1, fun _ => 0), r.2)) (hrun _)

/-! ### Runs -/

/-- After `fs_init` no descriptor is open. -/
theorem fsInit_agree {d : Dev} (h : fsInit e d = some k) : TablesAgree k :=
  stable_agree.fsInit (fun _ _ h => h) (fun _ _ => ⟨nofun, nofun⟩) h

/-- **The descriptor table is safe** along every run from `fs_init` whose calls are not given
`MAX_FD`: the tables agree, and what is promised of the next call holds exactly when it is
not given `MAX_FD` either. -/
theorem fdCallOk_of_reach {d : Dev} (hinit : fsInit e d = some k₀)
    (h : Reach (StepOf (fdStep e)) (fun _ c => c.fd ≠ some (MAX_FD : ℤ)) k₀ k) :
    TablesAgree k ∧ ∀ c, FdCallOk e k c ↔ c.fd ≠ some (MAX_FD : ℤ) := by
  have hagree : TablesAgree k := by
    refine h.invariant (fsInit_agree hinit) fun k c k' hk _ hstep => ?_
    obtain rfl := Option.some.inj hstep
    exact fdCall_agree c k hk
  exact ⟨hagree, fdCallOk_iff hagree⟩

/-- The state after some calls on the formatted volume. -/
def fdRun (calls : List FdCall) : Kernel :=
  calls.foldl (fun k c => (fdCall (Env.quiet (smallSbi 9)) c k).2) formattedKernel

/-- Two files are opened and the first is closed: the next call is safe. -/
theorem fdCallOk_of_reach_two :
    TablesAgree (fdRun [.open [97] 2, .open [98] 2, .close 0]) ∧
      FdCallOk (Env.quiet (smallSbi 9)) (fdRun [.open [97] 2, .open [98] 2, .close 0])
        (.open [97] 0) := by
  have h1 : Reach (StepOf (fdStep (Env.quiet (smallSbi 9)))) (fun _ c => c.fd ≠ some (MAX_FD : ℤ))
      formattedKernel (fdRun [.open [97] 2]) := Reach.start.step (by decide) rfl
  have h2 := h1.step (a := .open [98] 2) (by decide) rfl
  have h3 := h2.step (a := .close 0) (by decide) rfl
  have h := fdCallOk_of_reach fsInit_formatted h3
  exact ⟨h.1, (h.2 _).mpr (by decide)⟩

/-- An environment in which the word behind `files` is not zero. -/
def wordBehind : Env := { Env.quiet (smallSbi 9) with junk := fun _ => 1 }

/-- `sys_close` of `MAX_FD` follows the word behind `files`. -/
theorem sysClose_max (k : Kernel) :
    sysClose wordBehind MAX_FD k =
      (1, { k with
        dev := k.dev.tick.tick
        faults := k.faults ++ [.badPointer] }) := rfl

/-- **One past the last descriptor**: after `fs_init` a `sys_close` of `MAX_FD`, which is no open
descriptor, uses the tables at that index and does not return `-EBADF`. -/
theorem not_fdCallOk :
    ¬∀ (e : Env) (d : Dev) (k₀ k : Kernel), fsInit e d = some k₀ →
      Reach (StepOf (fdStep e)) (fun _ _ => True) k₀ k → ∀ c, FdCallOk e k c := by
  intro h
  have hinit : (fsInit wordBehind formatted).isSome = true := by decide +kernel
  obtain ⟨k, hk⟩ := Option.isSome_iff_exists.mp hinit
  have hok := h _ _ _ _ hk .start (.close MAX_FD)
  have hclosed : ¬FdOpen k MAX_FD := fun ⟨i, hi, heq, _⟩ => by omega
  have hres := congrArg (fun r => r.1.1) (hok.refused _ rfl hclosed)
  exact absurd hres (by decide : (1 : ℤ) ≠ -EBADF)

end Thunix.Fs
