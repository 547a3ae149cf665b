import Mathlib.Data.List.Induction
import Thunix.Shell.CommandLine

/-!
# The line editor

`enter_command` of `kernel/shell.c`, which takes one key and keeps the line typed so far in a
static buffer with a static index. Nothing compares the index with the size of the buffer, and
a NUL that is typed ends the string that the line is read as.

So a sequence of keys is handled right exactly when every key that stores something, the newline
included, comes with fewer than 512 characters kept, and no newline comes with a NUL among them
(`Thunix.Shell.keysRight_iff`).
-/

namespace Thunix.Shell

open Logged

/-! ### The source -/

/-- `'\n'`. -/
def newline : UInt8 := 0x0a

/-- `'\b'`. -/
def backspace : UInt8 := 0x08

/-- `CTRL('C')`. -/
def ctrlC : UInt8 := 0x43 - 0x40

/-- `memset(command_buffer, '\0', index)`. -/
def clearBuf : ℕ → BufM Unit
  | 0 => pure ()
  | n + 1 => do
    clearBuf n
    writeBuf n 0

section

/- What `run_command` leaves in memory: the commands get pointers into the line. -/
variable (runCommand : Parse → (ℕ → UInt8) → ℕ → UInt8)

/-- `enter_command` with the key that `get_key` returns: the new index, and the memory that
`parse_command` is called in. -/
def enterCommand (key : UInt8) (index : ℕ) : BufM (ℕ × Option (ℕ → UInt8)) :=
  if key = newline then do
    writeBuf index 0
    if index = 0 then do
      clearBuf index
      pure (0, none)
    else do
      let given ← quiet fun mem => (mem, mem)
      let call ← parseCommand
      quiet fun mem => ((), runCommand call mem)
      clearBuf index
      pure (0, some given)
  else if key = backspace then pure (if index ≠ 0 then index - 1 else index, none)
  else if key = ctrlC then do
    clearBuf index
    pure (0, none)
  else do
    writeBuf index key
    pure (index + 1, none)

/-- The static variables. -/
structure Editor where
  commandBuffer : ℕ → UInt8
  index : ℕ

/-- One call of `enter_command`. -/
def Editor.enter (s : Editor) (key : UInt8) : Editor :=
  let r := enterCommand runCommand key s.index (s.commandBuffer, [])
  ⟨r.2.1, r.1.1⟩

/-- The state after some keys. -/
def editorAfter (keys : List UInt8) : Editor := keys.foldl (Editor.enter runCommand) ⟨fun _ => 0, 0⟩

end

/-! ### What is asked of it -/

/-- A key is applied to the line. -/
def applyKey (line : List UInt8) (key : UInt8) : List UInt8 :=
  if key = newline ∨ key = ctrlC then []
  else if key = backspace then line.dropLast
  else line ++ [key]

/-- The line that the keys make since the last reset. -/
def kept (keys : List UInt8) : List UInt8 := keys.foldl applyKey []

/-- **A key is handled right**: only the buffer is touched, and a newline behind a line that is
not empty hands exactly this line to `parse_command`. -/
structure KeyRight (runCommand : Parse → (ℕ → UInt8) → ℕ → UInt8) (s : Editor)
    (line : List UInt8) (key : UInt8) : Prop where
  inside : ∀ i ∈ touched (enterCommand runCommand key s.index) s.commandBuffer, i < COMMAND_SIZE
  given : key = newline → line ≠ [] →
    ∃ mem, (enterCommand runCommand key s.index (s.commandBuffer, [])).1.2 = some mem ∧
      StringAt mem 0 line

/-- Every key of the sequence is handled right. -/
def KeysRight (runCommand : Parse → (ℕ → UInt8) → ℕ → UInt8) (keys : List UInt8) : Prop :=
  ∀ pre key post, keys = pre ++ key :: post →
    KeyRight runCommand (editorAfter runCommand pre) (kept pre) key

/-- There is room for what the key stores, and a newline ends a line without a NUL. -/
def KeyFits (line : List UInt8) (key : UInt8) : Prop :=
  (key ≠ backspace → key ≠ ctrlC → line.length < COMMAND_SIZE) ∧ (key = newline → 0 ∉ line)

/-! ### The state is the line -/

/-- The buffer holds the line, and the index is its length. -/
structure Holds (s : Editor) (line : List UInt8) : Prop where
  index : s.index = line.length
  bytes : ∀ i < line.length, s.commandBuffer i = line.getD i 0

section

variable {runCommand : Parse → (ℕ → UInt8) → ℕ → UInt8} {s : Editor} {line keys : List UInt8}
  {key : UInt8} {W : ℕ → Prop}

theorem runs_clearBuf (n : ℕ) (mem : ℕ → UInt8) (hW : ∀ i < n, W i) :
    ∃ mem', Runs W (clearBuf n) mem () mem' := by
  induction n with
  | zero => exact ⟨mem, .pure ()⟩
  | succ n ih =>
    obtain ⟨mem', h⟩ := ih fun i hi => hW i (Nat.lt_succ_of_lt hi)
    exact ⟨_, h.bind (runs_writeBuf (hW n (Nat.lt_succ_self n)) 0)⟩

theorem Holds.nil {mem : ℕ → UInt8} : Holds ⟨mem, 0⟩ [] :=
  ⟨rfl, fun i hi => absurd hi (Nat.not_lt_zero i)⟩

/-- **One key.** -/
theorem Holds.enter (h : Holds s line) (key : UInt8) :
    Holds (s.enter runCommand key) (applyKey line key) := by
  rw [Editor.enter, applyKey, enterCommand]
  by_cases hn : key = newline
  · rw [if_pos hn, if_pos (.inl hn : key = newline ∨ key = ctrlC)]
    by_cases h0 : s.index = 0
    · rw [if_pos h0]
      exact Holds.nil
    · rw [if_neg h0]
      exact Holds.nil
  rw [if_neg hn]
  by_cases hb : key = backspace
  · have hc : ¬(key = newline ∨ key = ctrlC) := by
      rw [hb]
      decide
    rw [if_pos hb, if_neg hc, if_pos hb]
    refine ⟨?_, fun i hi => ?_⟩
    · show (if s.index ≠ 0 then s.index - 1 else s.index) = line.dropLast.length
      rw [List.length_dropLast, h.index]
      split <;> omega
    · rw [List.length_dropLast] at hi
      refine (h.bytes i (by omega)).trans ?_
      rw [List.getD_eq_getElem?_getD, List.getD_eq_getElem?_getD, List.getElem?_dropLast,
        if_pos hi]
  rw [if_neg hb]
  by_cases hc : key = ctrlC
  · rw [if_pos hc, if_pos (.inr hc : key = newline ∨ key = ctrlC)]
    exact Holds.nil
  · rw [if_neg hc, if_neg (not_or.mpr ⟨hn, hc⟩), if_neg hb]
    refine ⟨?_, fun i hi => ?_⟩
    · show s.index + 1 = (line ++ [key]).length
      rw [h.index, List.length_append, List.length_singleton]
    · show Function.update s.commandBuffer s.index key i = (line ++ [key]).getD i 0
      rw [List.length_append, List.length_singleton] at hi
      rcases eq_or_ne i line.length with rfl | hne
      · rw [h.index, Function.update_self, List.getD_append_right _ _ _ _ (Nat.le_refl _),
          Nat.sub_self]
        rfl
      · have hi : i < line.length := by omega
        rw [h.index, Function.update_of_ne hne, h.bytes i hi, List.getD_append _ _ _ _ hi]

/-- **The keys typed so far.** -/
theorem holds_editorAfter (keys : List UInt8) :
    Holds (editorAfter runCommand keys) (kept keys) := by
  induction keys using List.reverseRecOn with
  | nil => exact Holds.nil
  | append_singleton keys key ih =>
    rw [editorAfter, kept, List.foldl_append, List.foldl_append]
    exact ih.enter key

/-! ### What is touched at all -/

theorem adds_readBuf (p : ℕ) : Adds (readBuf p) := .visit p _

theorem adds_writeBuf (p : ℕ) (c : UInt8) : Adds (writeBuf p c) := .visit p _

theorem adds_skipWord (room p : ℕ) : Adds (skipWord room p) := by
  induction room generalizing p with
  | zero => exact .pure p
  | succ room ih => exact (adds_readBuf p).bind fun _ => .ite (ih _) (.pure p)

theorem adds_skipSpaces (room p : ℕ) : Adds (skipSpaces room p) := by
  induction room generalizing p with
  | zero => exact .pure p
  | succ room ih => exact (adds_readBuf p).bind fun _ => .ite (ih _) (.pure p)

theorem adds_next (t : Parse) : Adds t.next :=
  (adds_writeBuf _ _).bind fun _ => (adds_skipWord _ _).bind fun _ =>
    (adds_skipSpaces _ _).bind fun _ => (adds_readBuf _).bind fun _ => .ite (.pure _) (.pure _)

theorem adds_loop (left : ℕ) (t : Parse) : Adds (t.loop left) := by
  induction left generalizing t with
  | zero => exact .pure t
  | succ left ih =>
    exact (adds_readBuf _).bind fun _ =>
      .ite ((adds_next t).bind fun _ => .ite (.pure _) (ih _)) (.pure t)

theorem adds_parseCommand : Adds parseCommand :=
  (adds_skipWord _ _).bind fun _ => adds_loop _ _

theorem adds_clearBuf (n : ℕ) : Adds (clearBuf n) := fun mem => by
  obtain ⟨mem', h⟩ := runs_clearBuf (W := fun _ => True) n mem fun _ _ => trivial
  exact ⟨(), mem', h⟩

/-- The first access of a newline or of a key that is kept. -/
theorem index_mem_touched (hb : key ≠ backspace) (hc : key ≠ ctrlC) :
    s.index ∈ touched (enterCommand runCommand key s.index) s.commandBuffer := by
  have hfirst : ∀ c, s.index ∈ touched (writeBuf s.index c) s.commandBuffer := fun c =>
    List.mem_singleton.mpr rfl
  rw [enterCommand]
  by_cases hn : key = newline
  · rw [if_pos hn]
    refine (adds_writeBuf _ _).mem_touched_bind (fun _ => .ite ?_ ?_) (hfirst 0)
    · exact (adds_clearBuf _).bind fun _ => .pure _
    · refine Adds.bind (fun m => ⟨_, _, .quiet _⟩) fun given => ?_
      refine adds_parseCommand.bind fun call => ?_
      exact Adds.bind (fun m => ⟨_, _, .quiet _⟩) fun _ => (adds_clearBuf _).bind fun _ => .pure _
  · rw [if_neg hn, if_neg hb, if_neg hc]
    exact (adds_writeBuf _ _).mem_touched_bind (fun _ => .pure _) (hfirst key)

/-! ### One key -/

/-- The line is a string once the newline has stored its NUL. -/
theorem Holds.stringAt (h : Holds s line) (h0 : 0 ∉ line) :
    StringAt (Function.update s.commandBuffer s.index 0) 0 line := by
  refine ⟨h0, fun i hi => ?_⟩
  rw [Nat.zero_add, h.index]
  rcases Nat.eq_or_lt_of_le hi with rfl | hi
  · rw [Function.update_self, List.getD_eq_default _ _ (Nat.le_refl _)]
  · rw [Function.update_of_ne (Nat.ne_of_lt hi), h.bytes i hi]

/-- The newline of a line that is not empty. -/
theorem Holds.runs_newline (h : Holds s line)
    (runCommand : Parse → (ℕ → UInt8) → ℕ → UInt8) (hline : line ≠ []) (h0 : 0 ∉ line)
    (hlen : line.length < COMMAND_SIZE) : ∃ mem',
    Runs (fun i => i < COMMAND_SIZE) (enterCommand runCommand newline s.index) s.commandBuffer
      (0, some (Function.update s.commandBuffer s.index 0)) mem' := by
  have hindex := h.index
  have hne : s.index ≠ 0 := fun hzero => hline (List.length_eq_zero_iff.mp (hindex ▸ hzero))
  obtain ⟨call, mem', args, hparse, -⟩ := runs_parseCommand (W := fun i => i < COMMAND_SIZE)
    (h.stringAt h0) hlen fun i hi => Nat.lt_of_le_of_lt hi hlen
  obtain ⟨mem'', hclear⟩ := runs_clearBuf (W := fun i => i < COMMAND_SIZE) s.index
    (runCommand call mem') fun i hi => by omega
  refine ⟨mem'', ?_⟩
  rw [enterCommand, if_pos rfl, if_neg hne]
  refine (runs_writeBuf (by omega) 0).bind ((Runs.quiet _).bind (hparse.bind ?_))
  exact Runs.bind (.quiet fun mem => ((), runCommand call mem)) (hclear.bind (.pure _))

/-- **A key that fits is handled right.** -/
theorem Holds.keyRight (h : Holds s line) (hle : line.length ≤ COMMAND_SIZE)
    (hfits : KeyFits line key) : KeyRight runCommand s line key := by
  have hindex := h.index
  by_cases hn : key = newline
  · subst hn
    have hlen := hfits.1 (by decide) (by decide)
    rcases eq_or_ne line [] with rfl | hline
    · have hzero : s.index = 0 := hindex
      have hrun : Runs (fun i => i < COMMAND_SIZE) (enterCommand runCommand newline s.index)
          s.commandBuffer (0, none) (Function.update s.commandBuffer s.index 0) := by
        rw [enterCommand, if_pos rfl, if_pos hzero, hzero]
        exact (runs_writeBuf (by decide) 0).bind ((Runs.pure ()).bind (.pure _))
      exact ⟨hrun.touched, fun _ hne => absurd rfl hne⟩
    · obtain ⟨mem', hrun⟩ := h.runs_newline runCommand hline (hfits.2 rfl) hlen
      refine ⟨hrun.touched, fun _ _ => ⟨_, ?_, h.stringAt (hfits.2 rfl)⟩⟩
      rw [hrun.apply []]
  refine ⟨?_, fun hkey => absurd hkey hn⟩
  rw [enterCommand, if_neg hn]
  by_cases hb : key = backspace
  · rw [if_pos hb]
    exact (Runs.pure _).touched
  rw [if_neg hb]
  by_cases hc : key = ctrlC
  · rw [if_pos hc]
    obtain ⟨mem', hclear⟩ := runs_clearBuf (W := fun i => i < COMMAND_SIZE) s.index
      s.commandBuffer fun i hi => by omega
    exact (hclear.bind (.pure _)).touched
  · rw [if_neg hc]
    have hlen := hfits.1 hb hc
    exact ((runs_writeBuf (W := fun i => i < COMMAND_SIZE) (by omega) key).bind (.pure _)).touched

/-- **A key that is handled right fits.** -/
theorem Holds.keyFits (h : Holds s line) (hright : KeyRight runCommand s line key) :
    KeyFits line key := by
  refine ⟨fun hb hc => ?_, fun hn => ?_⟩
  · rw [← h.index]
    exact hright.inside _ (index_mem_touched hb hc)
  · rcases eq_or_ne line [] with rfl | hline
    · exact List.not_mem_nil
    · obtain ⟨mem, -, hstr⟩ := hright.given hn hline
      exact hstr.zero_notMem

/-- The line never outgrows the buffer. -/
theorem length_kept_le
    (hfits : ∀ pre key post, keys = pre ++ key :: post → KeyFits (kept pre) key) :
    (kept keys).length ≤ COMMAND_SIZE := by
  induction keys using List.reverseRecOn with
  | nil => exact Nat.zero_le _
  | append_singleton keys key ih =>
    have hle := ih fun pre k post hk => hfits pre k (post ++ [key]) (by rw [hk]; simp)
    have hkey := hfits keys key [] rfl
    rw [kept, List.foldl_append]
    show (applyKey (kept keys) key).length ≤ COMMAND_SIZE
    rw [applyKey]
    by_cases hr : key = newline ∨ key = ctrlC
    · rw [if_pos hr]
      exact Nat.zero_le _
    rw [if_neg hr]
    by_cases hb : key = backspace
    · rw [if_pos hb, List.length_dropLast]
      omega
    · rw [if_neg hb, List.length_append, List.length_singleton]
      exact hkey.1 hb fun hc => hr (.inr hc)

end

/-- **The keys that are handled right.** -/
theorem keysRight_iff (runCommand : Parse → (ℕ → UInt8) → ℕ → UInt8) (keys : List UInt8) :
    KeysRight runCommand keys ↔
      ∀ pre key post, keys = pre ++ key :: post → KeyFits (kept pre) key := by
  constructor
  · intro h pre key post hkeys
    exact (holds_editorAfter pre).keyFits (h pre key post hkeys)
  · intro h pre key post hkeys
    refine (holds_editorAfter pre).keyRight (length_kept_le fun pre' key' post' hpre => ?_)
      (h pre key post hkeys)
    exact h pre' key' (post' ++ key :: post) (by rw [hkeys, hpre]; simp)

theorem kept_replicate (n : ℕ) : kept (List.replicate n 97) = List.replicate n 97 := by
  induction n with
  | zero => rfl
  | succ n ih =>
    have hlast : kept (List.replicate n 97 ++ [97]) = applyKey (kept (List.replicate n 97)) 97 :=
      List.foldl_append
    rw [List.replicate_succ', hlast, ih]
    rfl

/-- The letter `a` is typed 513 times: the last one is stored behind the buffer. -/
theorem not_keysRight : ¬∀ runCommand keys, KeysRight runCommand keys := by
  intro h
  have hkey := h (fun _ mem => mem) (List.replicate COMMAND_SIZE 97 ++ [97]) _ 97 [] rfl
  have hlen := ((holds_editorAfter _).keyFits hkey).1 (by decide) (by decide)
  rw [kept_replicate, List.length_replicate] at hlen
  exact Nat.lt_irrefl _ hlen

end Thunix.Shell
