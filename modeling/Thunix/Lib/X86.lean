import Mathlib.Data.BitVec
import Mathlib.Logic.Function.Basic

/-!
# A fragment of the 32-bit x86

The registers, a memory of bytes, and the instructions with which an interrupt stub saves
and restores registers: pushing and popping, reading the stack at a displacement, a comparison
with an unsigned jump, a call through a table of pointers or through a register, and the return
from an interrupt. Addresses are offsets, that is, the
segments are flat, and words are stored with their low byte first.

A called function is not part of a program here. It is a parameter of the machine,
`Thunix.X86.Called`, and one step goes from the call to the return;
`Thunix.X86.Cdecl` is the calling convention that is expected of it. A run records
the calls it makes.

The rules of the file are about the stack. `Thunix.X86.StackAt` says which words lie
on it: pushing operands puts their values there (`Thunix.X86.stackAt_pushAll`), and
whatever comes in between, popping them in the opposite order brings the
values back and changes nothing else (`Thunix.X86.popAll_get`).
-/

namespace Thunix.X86

/-- A word of 32 bits. -/
abbrev Word := BitVec 32

/-! ### Memory -/

/-- A memory of bytes. -/
abbrev Memory := Word → BitVec 8

/-- The word at an address. -/
def load (m : Memory) (a : Word) : Word := m (a + 3) ++ m (a + 2) ++ m (a + 1) ++ m a

/-- Store a word. -/
def store (m : Memory) (a v : Word) : Memory := fun x =>
  if (x - a).toNat < 4 then v.extractLsb' (8 * (x - a).toNat) 8 else m x

variable {m m' : Memory} {a b v x : Word}

theorem load_congr (h : ∀ x, (x - a).toNat < 4 → m' x = m x) : load m' a = load m a := by
  rw [load, load, h (a + 3) (by bv_omega), h (a + 2) (by bv_omega), h (a + 1) (by bv_omega),
    h a (by bv_omega)]

/-- A byte outside the word stored is untouched. -/
theorem store_of_le (h : 4 ≤ (x - a).toNat) : store m a v x = m x := if_neg (by omega)

theorem store_byte {k : ℕ} (hk : k < 4) (hx : (x - a).toNat = k) :
    store m a v x = v.extractLsb' (8 * k) 8 := by
  rw [store, hx, if_pos hk]

/-- A stored word is read back. -/
theorem load_store : load (store m a v) a = v := by
  rw [load, store_byte (k := 3) (by decide) (by bv_omega),
    store_byte (k := 2) (by decide) (by bv_omega), store_byte (k := 1) (by decide) (by bv_omega),
    store_byte (k := 0) (by decide) (by bv_omega),
    BitVec.extractLsb'_append_extractLsb'_eq_extractLsb' (by decide),
    BitVec.extractLsb'_append_extractLsb'_eq_extractLsb' (by decide),
    BitVec.extractLsb'_append_extractLsb'_eq_extractLsb' (by decide)]
  simp

/-! ### Registers -/

/-- The general registers. -/
inductive Reg
  | eax | ecx | edx | ebx | esp | ebp | esi | edi
  deriving DecidableEq

/-- The segment registers. -/
inductive Seg
  | es | cs | ss | ds | fs | gs
  deriving DecidableEq

/-- The processor and its memory. -/
structure Cpu where
  reg : Reg → Word
  seg : Seg → BitVec 16
  eflags : Word
  eip : Word
  mem : Memory

/-- What is pushed and popped. -/
inductive Operand
  | reg (r : Reg)
  | seg (s : Seg)
  deriving DecidableEq

theorem reg_ne_seg (r : Reg) (g : Seg) : Operand.reg r ≠ .seg g := fun h => by cases h

/-- A general register is set. -/
def Cpu.setReg (c : Cpu) (r : Reg) (w : Word) : Cpu := { c with reg := Function.update c.reg r w }

/-- The word that is pushed for an operand: a selector is extended with zeros. -/
def Cpu.get (c : Cpu) : Operand → Word
  | .reg r => c.reg r
  | .seg s => (c.seg s).setWidth 32

/-- An operand is set to a word: a segment register takes its low half. -/
def Cpu.set (c : Cpu) (w : Word) : Operand → Cpu
  | .reg r => c.setReg r w
  | .seg s => { c with seg := Function.update c.seg s (w.setWidth 16) }

/-- A word is pushed. -/
def Cpu.pushWord (c : Cpu) (w : Word) : Cpu :=
  { c.setReg .esp (c.reg .esp - 4) with mem := store c.mem (c.reg .esp - 4) w }

/-- The word on top of the stack. -/
def Cpu.top (c : Cpu) : Word := load c.mem (c.reg .esp)

/-- The top of the stack is given up. -/
def Cpu.drop (c : Cpu) : Cpu := c.setReg .esp (c.reg .esp + 4)

/-- `push`. -/
def Cpu.push (c : Cpu) (o : Operand) : Cpu := c.pushWord (c.get o)

/-- `pop`: the pointer moves before the operand is set. -/
def Cpu.pop (c : Cpu) (o : Operand) : Cpu := c.drop.set c.top o

/-- A bit of the flags is set or cleared. -/
def setFlag (i : ℕ) (b : Bool) (flags : Word) : Word :=
  if b then flags ||| 1#32 <<< i else flags &&& ~~~(1#32 <<< i)

/-- `cmp`, with the two flags that unsigned jumps read: the carry flag is bit 0, the zero
flag bit 6. -/
def Cpu.cmp (c : Cpu) (v : Word) (r : Reg) : Cpu :=
  { c with eflags := setFlag 6 (decide (c.reg r = v)) (setFlag 0 (decide (c.reg r < v)) c.eflags) }

/-- `add`, with the same two flags. -/
def Cpu.add (c : Cpu) (v : Word) (r : Reg) : Cpu :=
  { c.setReg r (c.reg r + v) with
    eflags := setFlag 6 (decide (c.reg r + v = 0))
      (setFlag 0 (decide (c.reg r + v < v)) c.eflags) }

/-- The condition of `ja`: neither flag is set. -/
def Cpu.above (c : Cpu) : Bool := !c.eflags.getLsbD 0 && !c.eflags.getLsbD 6

/-- `int`, through a gate of the same privilege: what the processor itself pushes. -/
def Cpu.interrupt (c : Cpu) (cs : BitVec 16) (eip : Word) : Cpu :=
  let c1 := ((c.pushWord c.eflags).push (.seg .cs)).pushWord c.eip
  { c1 with seg := Function.update c1.seg .cs cs, eip }

/-- `iret`, to the same privilege. -/
def Cpu.iret (c : Cpu) : Cpu :=
  let c1 := { c.drop with eip := c.top }.pop (.seg .cs)
  { c1.drop with eflags := c1.top }

/-! ### Programs -/

/-- A line of a program, with labels in `ℓ`. -/
inductive Line (ℓ : Type)
  | label (l : ℓ)
  | push (o : Operand)
  /-- `push` of a constant. -/
  | pushImm (v : Word)
  | pop (o : Operand)
  | mov (v : Word) (r : Reg)
  /-- `mov d(%esp)`. -/
  | loadStack (d : Word) (r : Reg)
  /-- `lea d(%esp)`. -/
  | leaStack (d : Word) (r : Reg)
  /-- `mov`, of the low half of a register. -/
  | movSeg (r : Reg) (g : Seg)
  | add (v : Word) (r : Reg)
  | cmp (v : Word) (r : Reg)
  | ja (l : ℓ)
  | jmp (l : ℓ)
  /-- `call *table(,r,4)`. -/
  | call (table : Word) (r : Reg)
  /-- `call *r`. -/
  | callReg (r : Reg)
  | iret

variable {ℓ : Type} [DecidableEq ℓ]

/-- The lines behind a label. -/
def linesAt (l : ℓ) : List (Line ℓ) → List (Line ℓ)
  | [] => []
  | .label l' :: rest => if l' = l then rest else linesAt l rest
  | _ :: rest => linesAt l rest

/-- What a call does that goes through the pointer at an address, or to the function at an
address, from the call to the return; nothing if it does not return. -/
abbrev Called := Word → Cpu → Option Cpu

/-- A call: the address of the pointer or of the function, and the processor when the call is
made. -/
structure Call where
  entry : Word
  cpu : Cpu

/-- An argument of a call. -/
def Call.arg (c : Call) (i : ℕ) : Word := load c.cpu.mem (c.cpu.reg .esp + BitVec.ofNat 32 (4 * i))

/-- Where a run is. -/
inductive Control (ℓ : Type)
  /-- Before the lines given. -/
  | before (rest : List (Line ℓ))
  /-- Behind an `iret`. -/
  | returned
  /-- In a call that does not return, or behind the last line. -/
  | lost

/-- A state of a run, with the calls made so far. -/
structure Run (ℓ : Type) where
  control : Control ℓ
  cpu : Cpu
  calls : List Call

/-- A call is made, with the lines behind it. -/
def stepCall (called : Called) (rest : List (Line ℓ)) (c : Cpu) (calls : List Call)
    (entry : Word) : Run ℓ :=
  match called entry c with
  | none => ⟨.lost, c, calls ++ [⟨entry, c⟩]⟩
  | some c' => ⟨.before rest, c', calls ++ [⟨entry, c⟩]⟩

/-- A line is carried out. -/
def stepLine (called : Called) (prog rest : List (Line ℓ)) (c : Cpu) (calls : List Call) :
    Line ℓ → Run ℓ
  | .label _ => ⟨.before rest, c, calls⟩
  | .push o => ⟨.before rest, c.push o, calls⟩
  | .pushImm v => ⟨.before rest, c.pushWord v, calls⟩
  | .pop o => ⟨.before rest, c.pop o, calls⟩
  | .mov v r => ⟨.before rest, c.setReg r v, calls⟩
  | .loadStack d r => ⟨.before rest, c.setReg r (load c.mem (c.reg .esp + d)), calls⟩
  | .leaStack d r => ⟨.before rest, c.setReg r (c.reg .esp + d), calls⟩
  | .movSeg r g => ⟨.before rest, c.set (c.reg r) (.seg g), calls⟩
  | .add v r => ⟨.before rest, c.add v r, calls⟩
  | .cmp v r => ⟨.before rest, c.cmp v r, calls⟩
  | .ja l => ⟨.before (if c.above then linesAt l prog else rest), c, calls⟩
  | .jmp l => ⟨.before (linesAt l prog), c, calls⟩
  | .call table r => stepCall called rest c calls (table + 4 * c.reg r)
  | .callReg r => stepCall called rest c calls (c.reg r)
  | .iret => ⟨.returned, c.iret, calls⟩

/-- A step of a run. -/
def step (called : Called) (prog : List (Line ℓ)) (s : Run ℓ) : Run ℓ :=
  match s.control with
  | .before (line :: rest) => stepLine called prog rest s.cpu s.calls line
  | .before [] => { s with control := .lost }
  | .returned | .lost => s

/-- A run of a program from a state, of at most a number of steps. -/
def exec (called : Called) (prog : List (Line ℓ)) : ℕ → Run ℓ → Run ℓ
  | 0, s => s
  | fuel + 1, s => exec called prog fuel (step called prog s)

/-! ### Runs -/

variable {called : Called} {prog : List (Line ℓ)} {s : Run ℓ}

theorem exec_add (m n : ℕ) (s : Run ℓ) :
    exec called prog (m + n) s = exec called prog n (exec called prog m s) := by
  induction m generalizing s with
  | zero => rw [Nat.zero_add, exec]
  | succ m ih => rw [Nat.succ_add, exec, exec, ih]

/-- A run that has returned does not go on. -/
theorem exec_of_returned (n : ℕ) (h : s.control = .returned) : exec called prog n s = s := by
  induction n with
  | zero => rfl
  | succ n ih => rw [exec, step, h, ih]

/-- A run returns in one state only. -/
theorem exec_eq_of_returned {m n : ℕ} (h : (exec called prog m s).control = .returned)
    (hmn : m ≤ n) : exec called prog n s = exec called prog m s := by
  obtain ⟨k, rfl⟩ := Nat.exists_eq_add_of_le hmn
  rw [exec_add, exec_of_returned k h]

omit [DecidableEq ℓ] in
theorem stepCall_calls (rest : List (Line ℓ)) (c : Cpu) (calls : List Call) (entry : Word) :
    (stepCall called rest c calls entry).calls = calls ++ [⟨entry, c⟩] := by
  rw [stepCall]
  cases called entry c <;> rfl

theorem stepLine_calls (rest : List (Line ℓ)) (c : Cpu) (calls : List Call) (line : Line ℓ) :
    calls <+: (stepLine called prog rest c calls line).calls := by
  cases line with
  | call table r =>
    rw [stepLine, stepCall_calls]
    exact List.prefix_append _ _
  | callReg r =>
    rw [stepLine, stepCall_calls]
    exact List.prefix_append _ _
  | _ => exact List.prefix_rfl

theorem step_calls (s : Run ℓ) : s.calls <+: (step called prog s).calls := by
  rw [step]
  cases s.control with
  | before rest =>
    cases rest with
    | nil => exact List.prefix_rfl
    | cons line rest => exact stepLine_calls rest _ _ line
  | returned => exact List.prefix_rfl
  | lost => exact List.prefix_rfl

/-- No call is forgotten. -/
theorem exec_calls (n : ℕ) (s : Run ℓ) : s.calls <+: (exec called prog n s).calls := by
  induction n generalizing s with
  | zero => exact List.prefix_rfl
  | succ n ih => exact (step_calls s).trans (ih _)

/-! ### The stack -/

/-- The words that lie in memory from an address on. -/
def StackAt (m : Memory) : Word → List Word → Prop
  | _, [] => True
  | a, w :: ws => load m a = w ∧ StackAt m (a + 4) ws

variable {ws : List Word} {w : Word} {c c' : Cpu} {o : Operand} {os : List Operand}

theorem StackAt.congr (h : StackAt m a ws) (hlen : 4 * ws.length ≤ 2 ^ 32)
    (hm : ∀ x, (x - a).toNat < 4 * ws.length → m' x = m x) : StackAt m' a ws := by
  induction ws generalizing a with
  | nil => trivial
  | cons w ws ih =>
    obtain ⟨hw, hws⟩ := h
    rw [List.length_cons] at hlen hm
    refine ⟨?_, ih hws (by omega) fun x hx => hm x (by bv_omega)⟩
    rw [load_congr fun x hx => hm x (by omega), hw]

theorem StackAt.append {vs : List Word} (h : StackAt m a (vs ++ ws)) :
    StackAt m (a + BitVec.ofNat 32 (4 * vs.length)) ws := by
  induction vs generalizing a with
  | nil => simpa using h
  | cons v vs ih =>
    have h4 : a + BitVec.ofNat 32 (4 * (v :: vs).length) =
        a + 4 + BitVec.ofNat 32 (4 * vs.length) := by
      rw [List.length_cons, Nat.mul_succ, Nat.add_comm, BitVec.ofNat_add, ← BitVec.add_assoc]
      rfl
    rw [h4]
    exact ih h.2

theorem Cpu.setReg_reg_of_ne {r r' : Reg} (h : r' ≠ r) : (c.setReg r w).reg r' = c.reg r' :=
  Function.update_of_ne h _ _

theorem Cpu.setReg_reg_self {r : Reg} : (c.setReg r w).reg r = w := Function.update_self _ _ _

theorem Cpu.add_reg_self {v : Word} {r : Reg} : (c.add v r).reg r = c.reg r + v :=
  Cpu.setReg_reg_self (c := c) (r := r) (w := c.reg r + v)

theorem Cpu.add_mem {v : Word} {r : Reg} : (c.add v r).mem = c.mem := rfl

theorem Cpu.pushWord_esp : (c.pushWord w).reg .esp = c.reg .esp - 4 :=
  Cpu.setReg_reg_self (c := c) (r := .esp) (w := c.reg .esp - 4)

/-- A word that is pushed lies on top of the stack. -/
theorem StackAt.pushWord (h : StackAt c.mem (c.reg .esp) ws) (hlen : 4 * (ws.length + 1) ≤ 2 ^ 32) :
    StackAt (c.pushWord w).mem ((c.pushWord w).reg .esp) (w :: ws) := by
  rw [Cpu.pushWord_esp]
  refine ⟨load_store, ?_⟩
  rw [BitVec.sub_add_cancel]
  exact h.congr (by omega) fun x hx => store_of_le (by bv_omega)

/-! ### Pushing and popping operands -/

/-- Operands are pushed one after another. -/
def pushAll (os : List Operand) (c : Cpu) : Cpu := os.foldl Cpu.push c

/-- Operands are popped one after another. -/
def popAll (os : List Operand) (c : Cpu) : Cpu := os.foldl Cpu.pop c

theorem exec_pushAll (os : List Operand) (n : ℕ) (rest : List (Line ℓ)) (c : Cpu)
    (calls : List Call) :
    exec called prog (os.length + n) ⟨.before (os.map .push ++ rest), c, calls⟩ =
      exec called prog n ⟨.before rest, pushAll os c, calls⟩ := by
  induction os generalizing c with
  | nil => rw [List.length_nil, Nat.zero_add]; rfl
  | cons o os ih =>
    rw [List.length_cons, Nat.succ_add, exec]
    exact ih (c.push o)

theorem exec_popAll (os : List Operand) (n : ℕ) (rest : List (Line ℓ)) (c : Cpu)
    (calls : List Call) :
    exec called prog (os.length + n) ⟨.before (os.map .pop ++ rest), c, calls⟩ =
      exec called prog n ⟨.before rest, popAll os c, calls⟩ := by
  induction os generalizing c with
  | nil => rw [List.length_nil, Nat.zero_add]; rfl
  | cons o os ih =>
    rw [List.length_cons, Nat.succ_add, exec]
    exact ih (c.pop o)

/-- Pushing changes the pointer to the stack only. -/
theorem Cpu.pushWord_get (h : o ≠ .reg .esp) : (c.pushWord w).get o = c.get o := by
  cases o with
  | reg r => exact Cpu.setReg_reg_of_ne fun hr => h (congrArg _ hr)
  | seg s => rfl

theorem pushAll_get (h : o ≠ .reg .esp) (os : List Operand) (c : Cpu) :
    (pushAll os c).get o = c.get o := by
  induction os generalizing c with
  | nil => rfl
  | cons o' os ih => exact (ih _).trans (Cpu.pushWord_get h)

/-- **Pushed operands lie on the stack**, the last one on top. -/
theorem stackAt_pushAll (hos : .reg .esp ∉ os) (h : StackAt c.mem (c.reg .esp) ws)
    (hlen : 4 * (os.length + ws.length) ≤ 2 ^ 32) :
    StackAt (pushAll os c).mem ((pushAll os c).reg .esp) (os.reverse.map c.get ++ ws) := by
  induction os generalizing c ws with
  | nil => exact h
  | cons o os ih =>
    obtain ⟨ho, hos⟩ := List.ne_and_not_mem_of_not_mem_cons hos
    rw [List.length_cons] at hlen
    have hget : os.reverse.map (c.push o).get = os.reverse.map c.get := by
      refine List.map_congr_left fun o' ho' => Cpu.pushWord_get ?_
      rintro rfl
      exact hos (List.mem_reverse.mp ho')
    have hpush : StackAt (c.push o).mem ((c.push o).reg .esp) (c.get o :: ws) :=
      h.pushWord (by omega)
    have hall := ih hos hpush (by rw [List.length_cons]; omega)
    rw [hget] at hall
    rw [List.reverse_cons, List.map_append, List.append_assoc]
    exact hall

theorem pushAll_esp (os : List Operand) (c : Cpu) :
    (pushAll os c).reg .esp = c.reg .esp - BitVec.ofNat 32 (4 * os.length) := by
  induction os generalizing c with
  | nil => exact (BitVec.sub_zero _).symm
  | cons o os ih =>
    refine (ih (c.push o)).trans ?_
    rw [Cpu.push, Cpu.pushWord_esp, List.length_cons, Nat.mul_succ, Nat.add_comm, BitVec.ofNat_add]
    bv_omega

/-- An operand takes back a word that was pushed for it. -/
theorem Cpu.get_set_self : (c.set (c'.get o) o).get o = c'.get o := by
  cases o with
  | reg r => exact Cpu.setReg_reg_self
  | seg s =>
    have hseg : (c.set (c'.get (.seg s)) (.seg s)).seg s = (c'.get (.seg s)).setWidth 16 :=
      Function.update_self _ _ _
    rw [Cpu.get, hseg, Cpu.get]
    simp

theorem Cpu.get_set_of_ne {o o' : Operand} (h : o' ≠ o) : (c.set w o).get o' = c.get o' := by
  cases o with
  | reg r =>
    cases o' with
    | reg r' => exact Cpu.setReg_reg_of_ne fun hr => h (congrArg _ hr)
    | seg s' => rfl
  | seg s =>
    cases o' with
    | reg r' => rfl
    | seg s' =>
      have hs : (c.set w (.seg s)).seg s' = c.seg s' :=
        Function.update_of_ne (fun hs => h (congrArg _ hs)) _ _
      rw [Cpu.get, hs, Cpu.get]

theorem Cpu.drop_esp : c.drop.reg .esp = c.reg .esp + 4 := Cpu.setReg_reg_self

theorem Cpu.drop_get (h : o ≠ .reg .esp) : c.drop.get o = c.get o := by
  cases o with
  | reg r => exact Cpu.setReg_reg_of_ne fun hr => h (congrArg _ hr)
  | seg s => rfl

theorem Cpu.set_mem : (c.set w o).mem = c.mem := by cases o <;> rfl

theorem Cpu.pop_esp (h : o ≠ .reg .esp) : (c.pop o).reg .esp = c.reg .esp + 4 :=
  (Cpu.get_set_of_ne h.symm).trans Cpu.drop_esp

theorem Cpu.pop_mem : (c.pop o).mem = c.mem := Cpu.set_mem

/-- **Operands that are popped get back what was pushed for them**, and every other one
keeps its value. -/
theorem popAll_get (hos : .reg .esp ∉ os) (h : StackAt c.mem (c.reg .esp) (os.map c'.get ++ ws))
    (ho : o ≠ .reg .esp) : (popAll os c).get o = if o ∈ os then c'.get o else c.get o := by
  induction os generalizing c with
  | nil => exact (if_neg List.not_mem_nil).symm
  | cons o' os ih =>
    obtain ⟨ho', hos⟩ := List.ne_and_not_mem_of_not_mem_cons hos
    obtain ⟨htop, hrest⟩ := h
    have hnext : StackAt (c.pop o').mem ((c.pop o').reg .esp) (os.map c'.get ++ ws) := by
      rw [Cpu.pop_mem, Cpu.pop_esp ho'.symm]
      exact hrest
    refine (ih hos hnext).trans ?_
    by_cases hmem : o ∈ os
    · rw [if_pos hmem, if_pos (List.mem_cons_of_mem _ hmem)]
    · rw [if_neg hmem]
      rcases eq_or_ne o o' with rfl | hne
      · rw [if_pos List.mem_cons_self, Cpu.pop, Cpu.top, htop, Cpu.get_set_self]
      · rw [if_neg (by simp [hne, hmem]), Cpu.pop, Cpu.get_set_of_ne hne, Cpu.drop_get ho]

theorem popAll_esp (hos : .reg .esp ∉ os) :
    (popAll os c).reg .esp = c.reg .esp + BitVec.ofNat 32 (4 * os.length) := by
  induction os generalizing c with
  | nil => exact (BitVec.add_zero _).symm
  | cons o os ih =>
    obtain ⟨ho, hos⟩ := List.ne_and_not_mem_of_not_mem_cons hos
    refine (ih hos).trans ?_
    rw [Cpu.pop_esp ho.symm, List.length_cons, Nat.mul_succ, Nat.add_comm (4 * os.length),
      BitVec.ofNat_add, ← BitVec.add_assoc]
    rfl

theorem popAll_mem : (popAll os c).mem = c.mem := by
  induction os generalizing c with
  | nil => rfl
  | cons o os ih => exact ih.trans Cpu.pop_mem

/-! ### Flags -/

theorem getLsbD_setFlag_self {i : ℕ} (hi : i < 32) {p : Bool} {flags : Word} :
    (setFlag i p flags).getLsbD i = p := by
  cases p <;> simp [setFlag, hi]

theorem getLsbD_setFlag_of_ne {i j : ℕ} (h : j ≠ i) {p : Bool} {flags : Word} :
    (setFlag i p flags).getLsbD j = flags.getLsbD j := by
  have hbit : (1#32 <<< i).getLsbD j = false := by
    simp [BitVec.getLsbD_shiftLeft, BitVec.getLsbD_one]
    omega
  cases p with
  | true => simp [setFlag, hbit]
  | false =>
    have hlt : flags.getLsbD j = true → j < 32 := BitVec.lt_of_getLsbD
    simpa [setFlag, hbit] using hlt

/-- **A jump if above jumps if the register compared is above the constant.** -/
theorem Cpu.cmp_above {v : Word} {r : Reg} : (c.cmp v r).above = decide (v < c.reg r) := by
  rw [Cpu.above, Cpu.cmp, getLsbD_setFlag_of_ne (by decide), getLsbD_setFlag_self (by decide),
    getLsbD_setFlag_self (by decide)]
  rw [Bool.eq_iff_iff]
  simp
  bv_omega

/-! ### Interrupts -/

theorem Cpu.seg_of_get {g : Seg} (h : c.get (.seg g) = c'.get (.seg g)) : c.seg g = c'.seg g := by
  have := congrArg (BitVec.setWidth 16) h
  simpa [Cpu.get] using this

/-- What an interrupt leaves behind. -/
theorem Cpu.interrupt_stackAt {cs : BitVec 16} {eip : Word} :
    StackAt (c.interrupt cs eip).mem ((c.interrupt cs eip).reg .esp)
      [c.eip, c.get (.seg .cs), c.eflags] :=
  StackAt.pushWord (StackAt.pushWord (StackAt.pushWord trivial
    (show 4 * (0 + 1) ≤ 2 ^ 32 by decide)) (show 4 * (1 + 1) ≤ 2 ^ 32 by decide))
    (show 4 * (2 + 1) ≤ 2 ^ 32 by decide)

theorem Cpu.interrupt_get {cs : BitVec 16} {eip : Word} (h : o ≠ .reg .esp)
    (hcs : o ≠ .seg .cs) : (c.interrupt cs eip).get o = c.get o := by
  refine Eq.trans ?_ (Cpu.pushWord_get (c := (c.pushWord c.eflags).push (.seg .cs)) (w := c.eip) h
    |>.trans ((Cpu.pushWord_get h).trans (Cpu.pushWord_get h)))
  cases o with
  | reg r => rfl
  | seg g =>
    have hg : (c.interrupt cs eip).seg g = c.seg g :=
      Function.update_of_ne (fun hg => hcs (congrArg _ hg)) _ _
    rw [Cpu.get, hg]
    rfl

theorem Cpu.interrupt_esp {cs : BitVec 16} {eip : Word} :
    (c.interrupt cs eip).reg .esp = c.reg .esp - 12 := by
  have h : (c.interrupt cs eip).reg .esp = c.reg .esp - 4 - 4 - 4 := by
    refine (Cpu.pushWord_esp (c := (c.pushWord c.eflags).push (.seg .cs)) (w := c.eip)).trans ?_
    rw [Cpu.push, Cpu.pushWord_esp, Cpu.pushWord_esp]
  rw [h]
  bv_omega

/-- **The return from an interrupt** takes back what the interrupt has left behind. -/
structure Returned (c' c : Cpu) : Prop where
  eip : c.iret.eip = c'.eip
  cs : c.iret.get (.seg .cs) = c'.get (.seg .cs)
  esp : c.iret.reg .esp = c.reg .esp + 12
  others : ∀ o, o ≠ .reg .esp → o ≠ .seg .cs → c.iret.get o = c.get o

theorem Cpu.iret_returned (h : StackAt c.mem (c.reg .esp) [c'.eip, c'.get (.seg .cs), w]) :
    Returned c' c := by
  obtain ⟨heip, hcs, -, -⟩ := h
  have hdrop : ({ c.drop with eip := c.top } : Cpu).reg .esp = c.reg .esp + 4 := Cpu.drop_esp
  have hesp : c.iret.reg .esp =
      (({ c.drop with eip := c.top } : Cpu).pop (.seg .cs)).reg .esp + 4 := Cpu.drop_esp
  have hget : ∀ o, o ≠ .reg .esp →
      c.iret.get o = (({ c.drop with eip := c.top } : Cpu).pop (.seg .cs)).get o := by
    intro o ho
    refine Eq.trans ?_ (Cpu.drop_get ho)
    cases o <;> rfl
  refine ⟨heip, ?_, ?_, fun o ho hcs => ?_⟩
  · have htop : ({ c.drop with eip := c.top } : Cpu).top = c'.get (.seg .cs) := by
      rw [Cpu.top, hdrop]
      exact hcs
    rw [hget _ (by decide), Cpu.pop, htop, Cpu.get_set_self]
  · rw [hesp, Cpu.pop_esp (by decide), Cpu.drop_esp]
    bv_omega
  · rw [hget _ ho, Cpu.pop, Cpu.get_set_of_ne hcs, Cpu.drop_get ho]
    refine Eq.trans ?_ (Cpu.drop_get ho)
    cases o <;> rfl

/-! ### Calls -/

/-- The calling convention of C: the called function returns with its result in `eax`, keeps the
registers that it has to keep, and leaves alone the frame of its caller, which
lies on the stack above the arguments. -/
structure Cdecl (args frame : ℕ) (result : Word) (c c' : Cpu) : Prop where
  result : c'.reg .eax = result
  saved : ∀ r ∈ [Reg.ebx, .esp, .ebp, .esi, .edi], c'.reg r = c.reg r
  segs : c'.seg = c.seg
  frame : ∀ x, 4 * args ≤ (x - c.reg .esp).toNat → (x - c.reg .esp).toNat < 4 * (args + frame) →
    c'.mem x = c.mem x

/-- The frame of the caller, with the arguments taken off. -/
theorem Cdecl.stackAt {vs : List Word} {result : Word}
    (h : Cdecl vs.length ws.length result c c') (hlen : 4 * (vs.length + ws.length) ≤ 2 ^ 32)
    (hs : StackAt c.mem (c.reg .esp) (vs ++ ws)) :
    StackAt c'.mem (c'.reg .esp + BitVec.ofNat 32 (4 * vs.length)) ws := by
  have hesp : c'.reg .esp = c.reg .esp := h.saved _ (by decide)
  rw [hesp]
  refine hs.append.congr (by omega) fun x hx => h.frame x ?_ ?_ <;> bv_omega

end Thunix.X86
