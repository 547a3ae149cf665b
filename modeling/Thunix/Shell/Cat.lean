import Thunix.Fs.ReadFile
import Thunix.Lib.Logged
import Thunix.Shell.Commands

/-!
# Printing a file

`cat` of `fs/tfs/tfs_cmd.c`, with every byte of its buffer and of that of `printk` that is read or
written, and every character that goes to the console, in a log. `sys_read` fills the buffer and
puts no NUL behind what it has read; `printk` prints the buffer as a string, which ends where
the first NUL is.

So a chunk is printed as it should be exactly if the byte behind it happens to be 0, and a chunk of
the whole buffer never is, for a file without NULs: `Thunix.Shell.cat_iff`.
-/

namespace Thunix.Shell

open Fs Logged

/-! ### The source -/

/-- What is logged. -/
inductive CatEvent
  /-- A character is sent to the console. -/
  | out (c : UInt8)
  /-- A byte of the buffer of `cat`. -/
  | catBuf (i : ℕ)
  /-- A byte of the buffer of `printk`. -/
  | printBuf (i : ℕ)

/-- Programs on the file system with these events. -/
abbrev CatM (α : Type) := Prog Kernel CatEvent α

/-- So many bytes of the buffer of `cat` are read or written, from `a` on. -/
def passBytes : ℕ → ℕ → CatM Unit
  | 0, _ => pure ()
  | n + 1, a => do
    visit (.catBuf a) fun k => ((), k)
    passBytes n (a + 1)

variable (e : Env)

/-- The loop of `tfs_read`, which copies a block in each round. -/
def tfsReadLoopB (inode : Inode) : ℕ → ℕ → ℕ → Buf → CatM (ℤ × Buf)
  | 0, _, bytesRead, buf => pure (bytesRead, buf)
  | blocks + 1, index, bytesRead, buf =>
    let block := tfsBmap inode index
    if block = 0 then pure (bytesRead, buf)
    else do
      let cs ← quiet (onDev (getCacheBlock e e.sbi block))
      match cs with
      | none => pure (- Fs.EIO, buf)
      | some cs => do
        let data ← quiet (onDev (dataPtr cs))
        let bytes ← quiet (onDev (readMem fun m i => m (data + i)))
        passBytes e.sbi.sBlockSize bytesRead
        tfsReadLoopB inode blocks (index + 1) (bytesRead + e.sbi.sBlockSize)
          (blit buf bytesRead e.sbi.sBlockSize bytes)

/-- `tfs_read`. -/
def tfsReadB (inode : Inode) (offset : ℕ) (buf : Buf) (blocks : ℤ) : CatM (ℤ × Buf) :=
  if blocks = 0 then pure (0, buf)
  else if inode.iSize ≤ offset then pure (-1, buf)
  else tfsReadLoopB e inode (toU32 blocks) (offset >>> e.sbi.sBlockShift) 0 buf

/-- What `sys_read` does when it has found the file. -/
def readFileB (fd : ℤ) (buf : Buf) (size : ℤ) (f : File) (inode : Inode) : CatM (ℤ × Buf) := do
  let bytesNeed := toS32 (min (toU32 size) (toU32 (inode.iSize - f.offset)))
  let (bytesRead, buf) ← tfsReadB e inode f.offset buf (blocksFor e bytesNeed inode.iBlksize)
  let bytesRead := minInt bytesNeed bytesRead
  if bytesRead > 0 then do
    let skip := f.offset &&& toU32 (inode.iBlksize - 1)
    -- `memmove(buf, buf + skip, bytes_read)`
    passBytes bytesRead.toNat skip
    passBytes bytesRead.toNat 0
    quiet (setOffset fd.toNat (toU32 (f.offset + bytesRead)))
    pure (bytesRead, blit buf 0 bytesRead.toNat fun i => buf (i + skip))
  else pure (bytesRead, buf)

/-- `sys_read`. -/
def sysReadB (fd : ℤ) (buf : Buf) (size : ℤ) : CatM (ℤ × Buf) := do
  let r ← quiet (fget e fd)
  match r with
  | none => pure (-EBADF, buf)
  | some .null => pure (-EBADF, buf)
  | some .bad => do
    quiet (fault .badPointer)
    let r ← quiet (onDev (uninitialised e))
    pure (r, buf)
  | some (.file f) => do
    let inode ← quiet (inodeAt f.inode)
    readFileB e fd buf size f inode

/-- `strlen`, of the bytes from the start of the buffer of `cat` on, if so many steps are enough. -/
def strlenB (m : Buf) : ℕ → ℕ → CatM (Option ℕ)
  | 0, _ => pure none
  | fuel + 1, i => do
    let c ← visit (.catBuf i) fun k => (m i, k)
    if c = 0 then pure (some i) else strlenB m fuel (i + 1)

/-- `for (i = 0; i < len; ++i) *str++ = *s++;`. -/
def copyString (m : Buf) : ℕ → ℕ → Buf → CatM Buf
  | 0, _, b => pure b
  | n + 1, i, b => do
    let c ← visit (.catBuf i) fun k => (m i, k)
    visit (.printBuf i) fun k => ((), k)
    copyString m n (i + 1) (Function.update b i c)

/-- `con_write`, of so many bytes of the buffer of `printk`. -/
def conWrite (b : Buf) : ℕ → ℕ → CatM Unit
  | 0, _ => pure ()
  | n + 1, i => do
    let c ← visit (.printBuf i) fun k => (b i, k)
    visit (.out c) fun k => ((), k)
    conWrite b n (i + 1)

/-- `*str = '\0'` at the end of `vsprintf`, and `con_write`. -/
def endPrint (b : Buf) (len : ℕ) : CatM Unit := do
  visit (.printBuf len) fun k => ((), k)
  conWrite (Function.update b len 0) len 0

/-- What follows `strlen` in `printk("%s", buf)`. What is in the buffer of `printk` at the
beginning is not read. -/
def printLen (m : Buf) : Option ℕ → CatM Bool
  | none => pure false
  | some len => do
    let b ← copyString m len 0 fun _ => 0
    endPrint b len
    pure true

/-- `printk("%s", buf)`: whether it has ended. -/
def printString (m : Buf) : CatM Bool := do
  let len ← strlenB m rounds 0
  printLen m len

/-- `printk("\n")`. -/
def printNewline : CatM Unit := do
  visit (.printBuf 0) fun k => ((), k)
  endPrint (Function.update (fun _ => 0) 0 10) 1

/-- `while ((bytes_read = sys_read(fd, buf, sizeof(buf))) > 0) printk("%s", buf);`: whether it has
ended within so many rounds. -/
def catLoop (fd : ℤ) : ℕ → Buf → CatM Bool
  | 0, _ => pure false
  | fuel + 1, buf => do
    let (bytesRead, buf) ← sysReadB e fd buf 1024
    if bytesRead > 0 then do
      let printed ← printString buf
      if printed then catLoop fd fuel buf else pure false
    else pure true

/-- `cat`, of a file that can be opened: `buf` is what is found in the buffer, and behind it. The
message for a file that cannot be opened is left out. -/
def catB (filename : Option (List UInt8)) (buf : Buf) : CatM Unit := do
  let fd ← quiet (sysOpen e (argString e filename) 0)
  if fd < 0 then pure ()
  else do
    let ended ← catLoop e fd rounds buf
    if ended then printNewline else pure ()

/-! ### Logs -/

/-- The character of an event. -/
def CatEvent.char : CatEvent → Option UInt8
  | .out c => some c
  | .catBuf _ => none
  | .printBuf _ => none

/-- An event that is in the bounds of the two buffers. -/
def CatEvent.Inside : CatEvent → Prop
  | .out _ => True
  | .catBuf i => i < 1024
  | .printBuf i => i < 1024

/-- These characters go to the console, and nothing outside of the buffers is touched. -/
structure Prints (cs : List UInt8) (es : List CatEvent) : Prop where
  chars : es.filterMap CatEvent.char = cs
  inside : ∀ e ∈ es, e.Inside

theorem Prints.nil : Prints [] [] := ⟨rfl, fun _ h => absurd h List.not_mem_nil⟩

theorem Prints.one {e : CatEvent} (h : e.Inside) : Prints e.char.toList [e] := by
  refine ⟨?_, fun e' he' => List.mem_singleton.mp he' ▸ h⟩
  cases e with
  | out c => rfl
  | catBuf i => rfl
  | printBuf i => rfl

theorem Prints.append {cs cs' : List UInt8} (es fs : List CatEvent) (hes : Prints cs es)
    (hfs : Prints cs' fs) : Prints (cs ++ cs') (es ++ fs) := by
  refine ⟨?_, fun e he => (List.mem_append.mp he).elim (hes.inside e) (hfs.inside e)⟩
  rw [List.filterMap_append, hes.chars, hfs.chars]

/-- Bytes of the buffer of `cat` up to `n`, and nothing else. -/
def Passes (n : ℕ) (es : List CatEvent) : Prop := ∀ e ∈ es, ∃ i < n, e = .catBuf i

theorem Passes.nil (n : ℕ) : Passes n [] := fun _ h => absurd h List.not_mem_nil

theorem Passes.append {n : ℕ} (es fs : List CatEvent) (hes : Passes n es) (hfs : Passes n fs) :
    Passes n (es ++ fs) := fun e he => (List.mem_append.mp he).elim (hes e) (hfs e)

theorem Passes.mono {m n : ℕ} (h : m ≤ n) (es : List CatEvent) (hes : Passes m es) :
    Passes n es := by
  intro e he
  obtain ⟨i, hi, rfl⟩ := hes e he
  exact ⟨i, by omega, rfl⟩

theorem Passes.prints {n : ℕ} (h : n ≤ 1024) (es : List CatEvent) (hes : Passes n es) :
    Prints [] es := by
  constructor
  · refine List.filterMap_eq_nil_iff.mpr fun e he => ?_
    obtain ⟨i, -, rfl⟩ := hes e he
    rfl
  · intro e he
    obtain ⟨i, hi, rfl⟩ := hes e he
    exact lt_of_lt_of_le hi h

/-! ### Reading -/

theorem passBytes_computes {n a m : ℕ} (h : a + n ≤ m) :
    Computes (Passes m) (passBytes n a) (pure ()) := by
  induction n generalizing a with
  | zero => exact .pure () (.nil m)
  | succ n ih =>
    have hone : Computes (Passes m) (visit (.catBuf a) fun k : Kernel => ((), k)) (pure ()) := by
      refine .visit _ fun e he => ⟨a, by omega, List.mem_singleton.mp he⟩
    exact .bind_pure hone (ih (by omega)) Passes.append

variable {e} {inode : Inode} {buf : Buf}

/-- A step on the cache and the disk that touches nothing. -/
theorem onDev_computes {α β : Type} {n : ℕ} {x : DevM α} {f : α → CatM β} {g : α → DevM β}
    (hf : ∀ a, Computes (Passes n) (f a) (onDev (g a))) :
    Computes (Passes n) (quiet (onDev x) >>= f) (onDev (x >>= g)) :=
  Computes.bind (g := fun a => onDev (g a)) (.quiet _ (.nil n)) (fun _ => hf _) Passes.append

theorem tfsReadLoopB_computes (inode : Inode) (blocks index bytesRead : ℕ) (buf : Buf) {n : ℕ}
    (hn : bytesRead + blocks * e.sbi.sBlockSize ≤ n) :
    Computes (Passes n) (tfsReadLoopB e inode blocks index bytesRead buf)
      (onDev (tfsReadLoop e inode blocks index bytesRead buf)) := by
  induction blocks generalizing index bytesRead buf with
  | zero => exact .pure _ (.nil n)
  | succ blocks ih =>
    rw [Nat.succ_mul] at hn
    rw [tfsReadLoopB, tfsReadLoop]
    by_cases h0 : tfsBmap inode index = 0
    · rw [if_pos h0, if_pos h0]
      exact .pure _ (.nil n)
    · rw [if_neg h0, if_neg h0]
      refine onDev_computes fun cs => ?_
      cases cs with
      | none => exact .pure _ (.nil n)
      | some cs =>
        refine onDev_computes fun data => onDev_computes fun bytes => ?_
        refine .bind_pure (passBytes_computes (by omega)) (ih _ _ _ ?_) Passes.append
        omega

theorem tfsReadB_computes (inode : Inode) (offset : ℕ) (buf : Buf) (blocks : ℤ) :
    Computes (Passes (toU32 blocks * e.sbi.sBlockSize)) (tfsReadB e inode offset buf blocks)
      (onDev (tfsRead e inode offset buf blocks)) := by
  rw [tfsReadB, tfsRead]
  by_cases h0 : blocks = 0
  · rw [if_pos h0, if_pos h0]
    exact .pure _ (.nil _)
  · rw [if_neg h0, if_neg h0]
    by_cases hend : inode.iSize ≤ offset
    · rw [if_pos hend, if_pos hend]
      exact .pure _ (.nil _)
    · rw [if_neg hend, if_neg hend]
      exact tfsReadLoopB_computes inode _ _ 0 buf (Nat.zero_add _).le

/-- What `sys_read` does when it has found the file, without the log. -/
def readFile (e : Env) (fd : ℤ) (buf : Buf) (size : ℤ) (f : File) (inode : Inode) :
    KernelM (ℤ × Buf) := do
  let bytesNeed := toS32 (min (toU32 size) (toU32 (inode.iSize - f.offset)))
  let (bytesRead, buf) ←
    onDev (tfsRead e inode f.offset buf (blocksFor e bytesNeed inode.iBlksize))
  let bytesRead := minInt bytesNeed bytesRead
  if bytesRead > 0 then do
    let skip := f.offset &&& toU32 (inode.iBlksize - 1)
    setOffset fd.toNat (toU32 (f.offset + bytesRead))
    pure (bytesRead, blit buf 0 bytesRead.toNat fun i => buf (i + skip))
  else pure (bytesRead, buf)

theorem minInt_le (a b : ℤ) : minInt a b ≤ a := by
  rw [minInt]
  split <;> omega

theorem readFileB_computes (fd : ℤ) (buf : Buf) (size : ℤ) (f : File) (inode : Inode) {n : ℕ}
    (hblocks : toU32 (blocksFor e (toS32 (min (toU32 size) (toU32 (inode.iSize - f.offset))))
      inode.iBlksize) * e.sbi.sBlockSize ≤ n)
    (hmove : (f.offset &&& toU32 (inode.iBlksize - 1)) +
      (toS32 (min (toU32 size) (toU32 (inode.iSize - f.offset)))).toNat ≤ n) :
    Computes (Passes n) (readFileB e fd buf size f inode) (readFile e fd buf size f inode) := by
  rw [readFileB, readFile]
  refine .bind ((tfsReadB_computes inode f.offset buf _).mono (Passes.mono hblocks))
    (fun k => ?_) Passes.append
  obtain ⟨bytesRead, buf'⟩ := (onDev (tfsRead e inode f.offset buf _) k).1
  have hle := minInt_le (toS32 (min (toU32 size) (toU32 (inode.iSize - f.offset)))) bytesRead
  refine .ite (fun _ => ?_) fun _ => .pure _ (.nil n)
  refine .bind_pure (passBytes_computes ?_) (.bind_pure (passBytes_computes ?_) ?_ Passes.append)
    Passes.append
  · omega
  · omega
  · exact .bind (.quiet _ (.nil n)) (fun _ => .pure _ (.nil n)) Passes.append

variable {S : Set ℕ} {v : ℕ → Buf} {f : File} {fd : ℕ}

/-- **`sys_read` stays inside of the buffer of `cat`**, if it reads from the start of a block. -/
theorem sysReadB_vol (hm : Mounted e.sbi) (hq : Quiet e) (hf : WholeFile e S inode)
    (hdvd : e.sbi.sBlockSize ∣ 1024) (hoff : f.offset ≤ inode.iSize) {n : ℕ}
    (hn : n = min 1024 (inode.iSize - f.offset)) (hstart : n = 0 ∨ e.sbi.sBlockSize ∣ f.offset)
    (buf : Buf) {k : Kernel} (hk : OpenVol e S v fd f inode k) :
    ∃ k', Yields (Prints []) (sysReadB e fd buf 1024) k
        ((n : ℤ), readInto e v inode f.offset n buf) k' ∧
      OpenVol e S v fd { f with offset := f.offset + n } inode k' := by
  have hpos : 0 < e.sbi.sBlockSize := by have := hm.size_pos; omega
  have hle : e.sbi.sBlockSize ≤ 1024 := Nat.le_of_dvd (by decide) hdvd
  obtain ⟨hfile, hk₁⟩ := fget_open k hk
  obtain ⟨hinode, hk₂⟩ := inodeAt_open _ hk₁
  obtain ⟨hres, hk₃⟩ := sysRead_vol hm hq hf (show 1024 < 2 ^ 31 by decide) hoff hn buf k hk
  have hrun : sysRead e fd buf 1024 k =
      readFile e fd buf 1024 f inode (inodeAt f.inode (fget e fd k).2).2 := by
    rw [sysRead, KernelM.bind_apply, hfile]
    show (inodeAt f.inode >>= fun inode => readFile e fd buf 1024 f inode) _ = _
    rw [KernelM.bind_apply, hinode]
  -- what is counted
  have hneed := bytesNeed_eq hm hf (show 1024 < 2 ^ 31 by decide) hoff hn
  have hneed' : toS32 (min (toU32 1024) (toU32 ((inode.iSize : ℤ) - f.offset))) = n := hneed
  have hblocks : blocksFor e n inode.iBlksize = blocksOf e.sbi.sBlockSize n :=
    hf.blocksFor_eq hm (by omega)
  have hfits := readFits_of_dvd hpos hdvd (show n ≤ 1024 by omega) hstart
  have hcopied : blocksOf e.sbi.sBlockSize n * e.sbi.sBlockSize ≤ 1024 := by
    rcases hfits with rfl | h
    · rw [blocksOf_zero hpos, Nat.zero_mul]
      decide
    · exact h.2
  have hcount : toU32 (blocksOf e.sbi.sBlockSize n) = blocksOf e.sbi.sBlockSize n := by
    have hmul := Nat.le_mul_of_pos_right (blocksOf e.sbi.sBlockSize n) hpos
    rw [toU32]
    omega
  have hskip : f.offset % e.sbi.sBlockSize + n ≤ 1024 := by
    have hmod := Nat.mod_lt f.offset hpos
    rcases hstart with rfl | hdvd'
    · omega
    · rw [Nat.mod_eq_zero_of_dvd hdvd']
      omega
  have hcomp : Computes (Passes 1024) (readFileB e fd buf 1024 f inode)
      (readFile e fd buf 1024 f inode) := by
    refine readFileB_computes fd buf 1024 f inode ?_ ?_
    · rw [hneed', hblocks, hcount]
      exact hcopied
    · rw [hneed', hf.skip_eq hm, Int.toNat_natCast]
      exact hskip
  have hres' : (sysRead e fd buf 1024 k).1 = ((n : ℤ), readInto e v inode f.offset n buf) := hres
  refine ⟨(sysRead e fd buf 1024 k).2, ?_, hk₃⟩
  rw [← hres', hrun]
  refine ((Yields.quiet (fget e fd) (.nil 1024)).bind (Q := Passes 1024) ?_ Passes.append).mono
    (Passes.prints le_rfl)
  rw [hfile]
  refine (Yields.quiet (inodeAt f.inode) (.nil 1024)).bind (Q := Passes 1024) ?_ Passes.append
  rw [hinode]
  exact hcomp.yields _

/-! ### Printing -/

section Printing

variable {m b : Buf} {len : ℕ} {k : Kernel}

/-- A byte of the buffer of `cat` that is read. -/
theorem readByte_yields (m : Buf) {i : ℕ} (hi : i < 1024) (k : Kernel) :
    Yields (Prints []) (visit (.catBuf i) fun k => (m i, k)) k (m i) k :=
  .visit _ (Prints.one (e := .catBuf i) hi)

/-- A byte of the buffer of `printk` that is read or written. -/
theorem printByte_yields {α : Type} (a : α) {i : ℕ} (hi : i < 1024) (k : Kernel) :
    Yields (Prints []) (visit (.printBuf i) fun k => (a, k)) k a k :=
  .visit _ (Prints.one (e := .printBuf i) hi)

/-- **`strlen` finds the first NUL**, if it is in the buffer. -/
theorem strlenB_yields (hne : ∀ i < len, m i ≠ 0) (h0 : m len = 0) (hlen : len < 1024)
    {fuel i : ℕ} (hi : i ≤ len) (hfuel : len < fuel + i) :
    Yields (Prints []) (strlenB m fuel i) k (some len) k := by
  induction fuel generalizing i with
  | zero => omega
  | succ fuel ih =>
    refine (readByte_yields m (by omega) k).bind ?_ Prints.append
    rcases Nat.lt_or_eq_of_le hi with hlt | rfl
    · rw [if_neg (hne i hlt)]
      exact ih hlt (by omega)
    · rw [if_pos h0]
      exact .pure _ .nil

theorem adds_strlenB (m : Buf) (fuel i : ℕ) : Adds (strlenB m fuel i) := by
  induction fuel generalizing i with
  | zero => exact .pure _
  | succ fuel ih => exact (Adds.visit _ _).bind fun c => .ite (.pure _) (ih (i + 1))

/-- **`strlen` runs out of the buffer**, if there is no NUL in it. -/
theorem strlenB_overrun (hne : ∀ i < 1024, m i ≠ 0) {fuel i : ℕ} (hi : i ≤ 1024)
    (hfuel : 1024 < fuel + i) : CatEvent.catBuf 1024 ∈ touched (strlenB m fuel i) k := by
  induction fuel generalizing i with
  | zero => omega
  | succ fuel ih =>
    have hrest : ∀ c : UInt8, Adds (if c = 0 then pure (some i) else strlenB m fuel (i + 1)) :=
      fun c => .ite (.pure _) (adds_strlenB m fuel (i + 1))
    have hread : Runs (fun _ => True) (visit (CatEvent.catBuf i) fun k : Kernel => (m i, k)) k
        (m i) k := .visit _ trivial
    rcases Nat.lt_or_eq_of_le hi with hlt | rfl
    · refine hread.mem_touched_bind (hrest _) ?_
      rw [if_neg (hne i hlt)]
      exact ih hlt (by omega)
    · exact (Adds.visit _ _).mem_touched_bind hrest List.mem_cons_self

/-- The string is copied. -/
theorem copyString_yields (m b : Buf) {n i : ℕ} (hn : i + n ≤ 1024) (k : Kernel) :
    ∃ b', Yields (Prints []) (copyString m n i b) k b' k ∧
      (∀ j, i ≤ j → j < i + n → b' j = m j) ∧ ∀ j < i, b' j = b j := by
  induction n generalizing i b with
  | zero => exact ⟨b, .pure _ .nil, fun j h1 h2 => by omega, fun _ _ => rfl⟩
  | succ n ih =>
    obtain ⟨b', hrun, hcopied, hbefore⟩ :=
      ih (Function.update b i (m i)) (show i + 1 + n ≤ 1024 by omega)
    refine ⟨b', ?_, fun j h1 h2 => ?_, fun j hj => ?_⟩
    · refine (readByte_yields m (by omega) k).bind ?_ Prints.append
      exact (printByte_yields () (by omega) k).bind hrun Prints.append
    · rcases Nat.eq_or_lt_of_le h1 with rfl | h1
      · rw [hbefore i (Nat.lt_succ_self i), Function.update_self]
      · exact hcopied j h1 (by omega)
    · rw [hbefore j (by omega), Function.update_of_ne (by omega)]

theorem conWrite_yields (b : Buf) {n i : ℕ} (hn : i + n ≤ 1024) (k : Kernel) :
    Yields (Prints ((List.range n).map fun j => b (i + j))) (conWrite b n i) k () k := by
  induction n generalizing i with
  | zero => exact .pure () .nil
  | succ n ih =>
    have hout : Yields (Prints [b i]) (visit (.out (b i)) fun k : Kernel => ((), k)) k () k :=
      .visit _ (Prints.one (e := .out (b i)) trivial)
    have hchars : (List.range (n + 1)).map (fun j => b (i + j)) =
        [] ++ ([b i] ++ (List.range n).map fun j => b (i + 1 + j)) := by
      rw [List.range_succ_eq_map, List.map_cons, List.map_map, Nat.add_zero]
      congr 2
      funext j
      show b (i + (j + 1)) = b (i + 1 + j)
      congr 1
      omega
    rw [hchars]
    refine (printByte_yields (b i) (by omega) k).bind ?_ Prints.append
    exact hout.bind (ih (by omega)) Prints.append

theorem endPrint_yields (b : Buf) (hlen : len < 1024) (k : Kernel) :
    Yields (Prints ((List.range len).map b)) (endPrint b len) k () k := by
  have hwrite := conWrite_yields (Function.update b len 0) (n := len) (i := 0) (by omega) k
  have hsame : (List.range len).map (fun j => Function.update b len 0 (0 + j)) =
      (List.range len).map b := by
    refine List.map_congr_left fun j hj => ?_
    have hlt := List.mem_range.mp hj
    rw [Nat.zero_add, Function.update_of_ne (by omega)]
  rw [hsame] at hwrite
  exact (printByte_yields () hlen k).bind hwrite Prints.append

theorem rounds_large : 1024 < rounds := by
  rw [rounds]
  decide

/-- **`printk("%s", buf)` prints what is in front of the first NUL.** -/
theorem printString_yields (hne : ∀ i < len, m i ≠ 0) (h0 : m len = 0) (hlen : len < 1024)
    (k : Kernel) : Yields (Prints ((List.range len).map m)) (printString m) k true k := by
  have hrounds := rounds_large
  obtain ⟨b, hcopy, hb, -⟩ := copyString_yields m (fun _ => 0) (n := len) (i := 0) (by omega) k
  have hsame : (List.range len).map b = (List.range len).map m :=
    List.map_congr_left fun j hj => hb j (Nat.zero_le j) (by
      rw [Nat.zero_add]
      exact List.mem_range.mp hj)
  have hend := endPrint_yields b hlen k
  rw [hsame] at hend
  refine (strlenB_yields hne h0 hlen (Nat.zero_le _) (by omega)).bind ?_ Prints.append
  refine hcopy.bind (hend.bind (.pure _ .nil) Prints.append) fun es fs hes hfs => ?_
  rw [List.append_nil] at hfs
  exact Prints.append es fs hes hfs

theorem printNewline_yields (k : Kernel) : Yields (Prints [10]) printNewline k () k := by
  have hend := endPrint_yields (Function.update (fun _ => 0) 0 10) (show 1 < 1024 by decide) k
  exact (printByte_yields () (by decide) k).bind hend Prints.append

end Printing

/-! ### Chunks -/

theorem adds_printLen (m : Buf) (len : Option ℕ) : Adds (printLen m len) := by
  cases len with
  | none => exact .pure _
  | some len =>
    have hcopy : ∀ n i b, Adds (copyString m n i b) := by
      intro n
      induction n with
      | zero => exact fun i b => .pure _
      | succ n ih =>
        exact fun i b => (Adds.visit _ _).bind fun c => (Adds.visit _ _).bind fun _ => ih _ _
    have hwrite : ∀ b n i, Adds (conWrite b n i) := by
      intro b n
      induction n with
      | zero => exact fun i => .pure _
      | succ n ih =>
        exact fun i => (Adds.visit _ _).bind fun c => (Adds.visit _ _).bind fun _ => ih _
    refine (hcopy len 0 _).bind fun b => Adds.bind ?_ fun _ => .pure _
    exact (Adds.visit _ _).bind fun _ => hwrite _ _ _

theorem adds_printString (m : Buf) : Adds (printString m) :=
  (adds_strlenB m rounds 0).bind (adds_printLen m)

theorem adds_sysReadB (e : Env) (fd : ℤ) (buf : Buf) (size : ℤ) :
    Adds (sysReadB e fd buf size) := by
  refine (Adds.quiet _).bind fun r => ?_
  rcases r with - | (f | - | -)
  · exact .pure _
  · refine (Adds.quiet _).bind fun inode => ?_
    exact .of_computes (readFileB_computes (e := e) fd buf size f inode (le_max_left _ _)
      (le_max_right _ _))
  · exact .pure _
  · exact (Adds.quiet _).bind fun _ => (Adds.quiet _).bind fun r => .pure _

theorem adds_catLoop (e : Env) (fd : ℤ) (fuel : ℕ) (buf : Buf) : Adds (catLoop e fd fuel buf) := by
  induction fuel generalizing buf with
  | zero => exact .pure _
  | succ fuel ih =>
    refine (adds_sysReadB e fd buf 1024).bind fun r => .ite ?_ (.pure _)
    exact (adds_printString r.2).bind fun printed => .ite (ih r.2) (.pure _)

/-- At the end of the file the loop ends. -/
theorem catLoop_end (hm : Mounted e.sbi) (hq : Quiet e) (hf : WholeFile e S inode)
    (hdvd : e.sbi.sBlockSize ∣ 1024) (hoff : f.offset = inode.iSize) (fuel : ℕ) (buf : Buf)
    {k : Kernel} (hk : OpenVol e S v fd f inode k) :
    ∃ k', Yields (Prints []) (catLoop e fd (fuel + 1) buf) k true k' := by
  obtain ⟨k', hread, -⟩ := sysReadB_vol (n := 0) hm hq hf hdvd hoff.le (by omega) (.inl rfl) buf hk
  refine ⟨k', hread.bind ?_ Prints.append⟩
  dsimp only
  rw [if_neg (by decide)]
  exact .pure _ .nil

/-- What is in the buffer after the first chunk. -/
def firstChunk (e : Env) (v : ℕ → Buf) (inode : Inode) (buf : Buf) : Buf :=
  readInto e v inode 0 (min 1024 inode.iSize) buf

/-- The first chunk of a file that is not empty. -/
theorem firstChunk_read (hm : Mounted e.sbi) (hq : Quiet e) (hf : WholeFile e S inode)
    (hdvd : e.sbi.sBlockSize ∣ 1024) (h0 : f.offset = 0) (buf : Buf) {k : Kernel}
    (hk : OpenVol e S v fd f inode k) :
    ∃ k', Yields (Prints []) (sysReadB e fd buf 1024) k
        (((min 1024 inode.iSize : ℕ) : ℤ), firstChunk e v inode buf) k' ∧
      OpenVol e S v fd { f with offset := min 1024 inode.iSize } inode k' := by
  obtain ⟨k', hread, hk'⟩ := sysReadB_vol (n := min 1024 inode.iSize) hm hq hf hdvd (by omega)
    (by rw [h0, Nat.sub_zero]) (.inr (h0 ▸ dvd_zero _)) buf hk
  rw [h0, Nat.zero_add] at hk'
  rw [h0] at hread
  exact ⟨k', hread, hk'⟩

/-- **A chunk with a NUL in the buffer**: what is in front of the first one is printed. -/
theorem catLoop_one (hm : Mounted e.sbi) (hq : Quiet e) (hf : WholeFile e S inode)
    (hdvd : e.sbi.sBlockSize ∣ 1024) (h0 : f.offset = 0) (hpos : 0 < inode.iSize)
    (hsize : inode.iSize < 1024) {buf : Buf} {len : ℕ}
    (hne : ∀ i < len, firstChunk e v inode buf i ≠ 0) (hnul : firstChunk e v inode buf len = 0)
    (hlen : len < 1024) (fuel : ℕ) {k : Kernel} (hk : OpenVol e S v fd f inode k) :
    ∃ k', Yields (Prints ((List.range len).map (firstChunk e v inode buf)))
      (catLoop e fd (fuel + 2) buf) k true k' := by
  obtain ⟨k₁, hread, hk₁⟩ := firstChunk_read hm hq hf hdvd h0 buf hk
  obtain ⟨k₂, hend⟩ := catLoop_end hm hq hf hdvd (Nat.min_eq_right hsize.le) fuel
    (firstChunk e v inode buf) hk₁
  refine ⟨k₂, hread.bind ?_ Prints.append⟩
  dsimp only
  rw [if_pos (by omega)]
  refine (printString_yields hne hnul hlen k₁).bind hend fun es fs hes hfs => ?_
  have h := Prints.append es fs hes hfs
  rwa [List.append_nil] at h

/-- **A chunk without a NUL in the buffer** is read beyond it. -/
theorem catLoop_overrun (hm : Mounted e.sbi) (hq : Quiet e) (hf : WholeFile e S inode)
    (hdvd : e.sbi.sBlockSize ∣ 1024) (h0 : f.offset = 0) (hpos : 0 < inode.iSize) {buf : Buf}
    (hne : ∀ i < 1024, firstChunk e v inode buf i ≠ 0) (fuel : ℕ) {k : Kernel}
    (hk : OpenVol e S v fd f inode k) :
    CatEvent.catBuf 1024 ∈ touched (catLoop e fd (fuel + 1) buf) k := by
  have hrounds := rounds_large
  obtain ⟨k₁, hread, -⟩ := firstChunk_read hm hq hf hdvd h0 buf hk
  have hprint : ∀ printed, Adds (if printed = true then
      catLoop e fd fuel (firstChunk e v inode buf) else pure false) :=
    fun printed => .ite (adds_catLoop e fd fuel _) (.pure _)
  refine hread.runs.mem_touched_bind (.ite ((adds_printString _).bind hprint) (.pure _)) ?_
  dsimp only
  rw [if_pos (by omega)]
  refine (adds_printString _).mem_touched_bind hprint ?_
  exact (adds_strlenB _ _ _).mem_touched_bind (adds_printLen _)
    (strlenB_overrun hne (Nat.zero_le _) (by omega))

/-! ### The whole command -/

/-- `cat` sends these bytes and a newline to the console, and stays inside of the two buffers. -/
def CatRight (e : Env) (filename : Option (List UInt8)) (buf : Buf) (k : Kernel)
    (file : List UInt8) : Prop := Prints (file ++ [10]) (touched (catB e filename buf) k)

/-- The byte behind the file in the buffer: what follows in its last block, or what has been in the
buffer if the block is full. -/
def byteBehind (e : Env) (v : ℕ → Buf) (inode : Inode) (buf : Buf) : UInt8 :=
  if inode.iSize < blocksOf e.sbi.sBlockSize inode.iSize * e.sbi.sBlockSize then
    fileBytes e v inode inode.iSize
  else buf inode.iSize

variable {filename : Option (List UInt8)} {k k' : Kernel}

theorem catB_prints (hopen : sysOpen e (argString e filename) 0 k = ((fd : ℤ), k'))
    {cs : List UInt8} {k'' : Kernel}
    (hloop : Yields (Prints cs) (catLoop e fd rounds buf) k' true k'') :
    Prints (cs ++ [10]) (touched (catB e filename buf) k) := by
  have hrest : Yields (Prints (cs ++ [10])) (catLoop e fd rounds buf >>= fun ended =>
      if ended = true then printNewline else pure ()) k' () k'' :=
    hloop.bind (printNewline_yields k'') Prints.append
  have hall : Yields (Prints (cs ++ [10])) (catB e filename buf) k () k'' := by
    refine Yields.bind (P := Prints []) (Q := Prints (cs ++ [10])) (.quiet _ .nil) ?_ Prints.append
    rw [hopen]
    dsimp only
    rw [if_neg (by omega)]
    exact hrest
  exact hall.touched

theorem adds_printNewline : Adds printNewline := fun k =>
  ⟨_, _, (printNewline_yields k).runs⟩

theorem catB_overrun (hopen : sysOpen e (argString e filename) 0 k = ((fd : ℤ), k'))
    (hloop : CatEvent.catBuf 1024 ∈ touched (catLoop e fd rounds buf) k') (file : List UInt8) :
    ¬CatRight e filename buf k file := by
  intro h
  have hrest : ∀ ended, Adds (if ended = true then printNewline else pure ()) :=
    fun ended => .ite adds_printNewline (.pure _)
  have hmem : CatEvent.catBuf 1024 ∈ touched (catB e filename buf) k := by
    rw [catB, touched_quiet_bind, hopen]
    dsimp only
    rw [if_neg (by omega)]
    exact (adds_catLoop e fd rounds buf).mem_touched_bind hrest hloop
  exact absurd (h.inside _ hmem) (lt_irrefl 1024)

/-- The first chunk begins with the file. -/
theorem firstChunk_of_lt (hm : Mounted e.sbi) (hdvd : e.sbi.sBlockSize ∣ 1024) {i : ℕ}
    (hi : i < min 1024 inode.iSize) : firstChunk e v inode buf i = fileBytes e v inode i := by
  have hpos : 0 < e.sbi.sBlockSize := by have := hm.size_pos; omega
  have hfits : ReadFits e.sbi.sBlockSize 0 (min 1024 inode.iSize) 1024 :=
    readFits_of_dvd hpos hdvd (Nat.min_le_left _ _) (.inr (dvd_zero _))
  have hreach := (hfits.resolve_left (by omega)).1
  have h : readInto e v inode 0 (min 1024 inode.iSize) buf i = fileBytes e v inode (0 + i) :=
    readInto_of_lt hi hreach
  rwa [Nat.zero_add] at h

/-- And behind a short file there is this byte. -/
theorem firstChunk_behind (hsize : inode.iSize < 1024) :
    firstChunk e v inode buf inode.iSize = byteBehind e v inode buf := by
  rw [firstChunk, Nat.min_eq_right hsize.le, readInto_of_ge le_rfl, byteBehind, Nat.zero_div,
    Nat.zero_mul, Nat.zero_add]

/-- **When `cat` prints a file**: it is empty, or shorter than the buffer with a 0 behind it. -/
theorem cat_iff (hm : Mounted e.sbi) (hq : Quiet e) (hdvd : e.sbi.sBlockSize ∣ 1024)
    (hf : WholeFile e S inode) (hopen : sysOpen e (argString e filename) 0 k = ((fd : ℤ), k'))
    (hk : OpenVol e S v fd f inode k') (h0 : f.offset = 0)
    (hnonul : ∀ x < inode.iSize, fileBytes e v inode x ≠ 0) :
    CatRight e filename buf k ((List.range inode.iSize).map (fileBytes e v inode)) ↔
      inode.iSize = 0 ∨ (inode.iSize < 1024 ∧ byteBehind e v inode buf = 0) := by
  have hrounds := rounds_large
  obtain ⟨fuel, hfuel⟩ : ∃ fuel, rounds = fuel + 2 := ⟨rounds - 2, by omega⟩
  rcases Nat.eq_zero_or_pos inode.iSize with hzero | hpos
  · refine iff_of_true ?_ (.inl hzero)
    obtain ⟨k'', hloop⟩ := catLoop_end hm hq hf hdvd (h0.trans hzero.symm) (fuel + 1) buf hk
    rw [← hfuel] at hloop
    rw [CatRight, hzero]
    exact catB_prints hopen hloop
  have hover : (∀ i < 1024, firstChunk e v inode buf i ≠ 0) →
      ∀ file, ¬CatRight e filename buf k file := by
    intro hne
    refine catB_overrun hopen ?_
    rw [hfuel]
    exact catLoop_overrun hm hq hf hdvd h0 hpos hne (fuel + 1) hk
  have hfile : ∀ i < min 1024 inode.iSize, firstChunk e v inode buf i = fileBytes e v inode i :=
    fun i hi => firstChunk_of_lt hm hdvd hi
  rcases Nat.lt_or_ge inode.iSize 1024 with hsize | hsize
  · rw [← firstChunk_behind hsize]
    have hone : ∀ len < 1024, (∀ i < len, firstChunk e v inode buf i ≠ 0) →
        firstChunk e v inode buf len = 0 →
        CatRight e filename buf k ((List.range len).map (firstChunk e v inode buf)) := by
      intro len hlen hne hnul
      obtain ⟨k'', hloop⟩ :=
        catLoop_one hm hq hf hdvd h0 hpos hsize hne hnul hlen fuel hk
      rw [← hfuel] at hloop
      exact catB_prints hopen hloop
    constructor
    · intro hright
      refine .inr ⟨hsize, ?_⟩
      have hex : ∃ len, len < 1024 ∧ firstChunk e v inode buf len = 0 := by
        by_contra hno
        exact hover (fun i hi hnul => hno ⟨i, hi, hnul⟩) _ hright
      obtain ⟨hlen, hnul⟩ := Nat.find_spec hex
      have hne : ∀ i < Nat.find hex, firstChunk e v inode buf i ≠ 0 :=
        fun i hi h => Nat.find_min hex hi ⟨hi.trans hlen, h⟩
      -- as many characters as the file has
      have hchars := (hone _ hlen hne hnul).chars.symm.trans hright.chars
      have hlength := congrArg List.length hchars
      rw [List.length_append, List.length_append, List.length_map, List.length_map,
        List.length_range, List.length_range] at hlength
      rwa [Nat.add_right_cancel hlength] at hnul
    · rintro (h | ⟨-, hnul⟩)
      · omega
      · have hne : ∀ i < inode.iSize, firstChunk e v inode buf i ≠ 0 := fun i hi => by
          rw [hfile i (by omega)]
          exact hnonul i hi
        have hsame : (List.range inode.iSize).map (fileBytes e v inode) =
            (List.range inode.iSize).map (firstChunk e v inode buf) :=
          List.map_congr_left fun i hi => (hfile i (by
            have hlt := List.mem_range.mp hi
            omega)).symm
        rw [hsame]
        exact hone _ hsize hne hnul
  · refine iff_of_false (hover (fun i hi => ?_) _) (by omega)
    rw [hfile i (by omega)]
    exact hnonul i (by omega)

/-! ### Two files -/

/-- The small volume on this disk, with this file for its root. -/
def rootFile (d : Dev) (inode : Inode) : Kernel :=
  { bootKernel (Env.quiet (smallSbi 9)) d with objs := fun _ => inode }

/-- The root can be opened. -/
theorem sysOpen_rootFile (d : Dev) (inode : Inode) :
    ∃ k', sysOpen (Env.quiet (smallSbi 9)) [slash] 0 (rootFile d inode) = (((0 : ℕ) : ℤ), k') ∧
      k'.dev = (cacheInit 9 d).tick ∧ k'.files 0 = some { inode := 0, offset := 0 } ∧
      k'.objs 0 = inode := ⟨_, rfl, rfl, rfl, rfl⟩

/-- So the file can be read. -/
theorem openVol_rootFile (d : Dev) (inode : Inode) :
    ∃ k', sysOpen (Env.quiet (smallSbi 9)) (argString (Env.quiet (smallSbi 9)) (some [slash])) 0
        (rootFile d inode) = (((0 : ℕ) : ℤ), k') ∧
      OpenVol (Env.quiet (smallSbi 9)) {6, 7} (diskBlock (smallSbi 9) d.disk) 0
        { inode := 0, offset := 0 } inode k' := by
  obtain ⟨k', hopen, hdev, hfile, hobj⟩ := sysOpen_rootFile d inode
  have hvol : Vol (Env.quiet (smallSbi 9)) {6, 7} (diskBlock (smallSbi 9) d.disk)
      (cacheInit 9 d) := vol_cacheInit mounted_small (by decide) d
  refine ⟨k', hopen, ?_, by decide, hfile, hobj⟩
  rw [hdev]
  exact hvol.tick

/-- A file of one byte. -/
def oneByte : Inode := { twoBlocks with iSize := 1 }

theorem wholeFile_oneByte : WholeFile (Env.quiet (smallSbi 9)) {6, 7} oneByte := by
  have hk : ∀ k, k * 512 < 1 → k = 0 := fun k h => by omega
  refine ⟨by decide, rfl, fun k h => ?_, fun k h => ?_⟩
  · obtain rfl := hk k h
    decide
  · obtain rfl := hk k h
    simp [oneByte, twoBlocks]

/-- One letter in each sector, and zeros behind it. -/
def oneLetter : Dev := { Dev.blank with disk := fun _ i => if i = 0 then 65 else 0 }

/-- It is printed. -/
theorem cat_iff_oneLetter : CatRight (Env.quiet (smallSbi 9)) (some [slash]) (fun _ => 1)
    (rootFile oneLetter oneByte) [65] := by
  obtain ⟨k', hopen, hk⟩ := openVol_rootFile oneLetter oneByte
  refine (cat_iff mounted_small (quiet_quiet _) (by decide) wholeFile_oneByte hopen hk rfl
    fun x hx => ?_).mpr (.inr ⟨by decide, rfl⟩)
  obtain rfl : x = 0 := Nat.lt_one_iff.mp hx
  decide

/-- Nothing but letters. -/
def allLetters : Dev := { Dev.blank with disk := fun _ _ => 65 }

/-- **A file of 1024 letters** is not printed as it should be, whatever is behind the buffer: here
there are zeros. -/
theorem not_catRight : ¬CatRight (Env.quiet (smallSbi 9)) (some [slash]) (fun _ => 0)
    (rootFile allLetters twoBlocks) (List.replicate 1024 65) := by
  obtain ⟨k', hopen, hk⟩ := openVol_rootFile allLetters twoBlocks
  have hrounds := rounds_large
  obtain ⟨fuel, hfuel⟩ : ∃ fuel, rounds = fuel + 1 := ⟨rounds - 1, by omega⟩
  have hne : ∀ i < 1024, firstChunk (Env.quiet (smallSbi 9))
      (diskBlock (smallSbi 9) allLetters.disk) twoBlocks (fun _ => 0) i ≠ 0 := by
    intro i hi
    rw [firstChunk_of_lt mounted_small (by decide) hi]
    exact (by decide : (65 : UInt8) ≠ 0)
  have hloop := catLoop_overrun mounted_small (quiet_quiet _) wholeFile_twoBlocks (by decide) rfl
    (by decide) hne fuel hk
  rw [← hfuel] at hloop
  exact catB_overrun hopen hloop _

end Thunix.Shell
