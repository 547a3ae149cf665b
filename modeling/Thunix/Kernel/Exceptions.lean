import Thunix.Kernel.SystemCall

/-!
# The exception stubs

The stubs of `kernel/asm.s` that push the address of a C handler and join `no_error_code` or
`error_code`, which save the registers, call the handler with the address of the saved `eip` and
an error code, and restore the registers. The program runs on `Thunix.X86.step`.

On the path without an error code everything is right. On the other one the error code is
fetched from a word too high, and the second argument is the saved `eip` itself: the diagram
above it counts from a stack pointer that has already moved on by two arguments. The first
argument and the registers are right there too. So an exception is served as it should be exactly
when the processor pushes no error code, or pushes the `eip` for one
(`Thunix.Kernel.served_iff`).
-/

namespace Thunix.Kernel

open X86

/-! ### The source -/

/-- The handlers of `kernel/traps.c` that the stubs push. -/
inductive Handler
  | doDivideError | doInt3 | doNmi | doOverflow | doBounds | doInvalidOp
  | doCoprocessorSegmentOverrun | doReserved | doDoubleFault | doInvalidTSS
  | doSegmentNotPresent | doStackSegment | doGeneralProtection
  deriving DecidableEq

/-- The stubs. -/
inductive Trap
  | divideError | debug | nmi | int3 | overflow | bounds | invalidOp
  | coprocessorSegmentOverrun | reserved
  | doubleFault | invalidTSS | segmentNotPresent | stackSegment | generalProtection
  deriving DecidableEq

/-- The handler that a stub pushes. -/
def Trap.handler : Trap → Handler
  | .divideError => .doDivideError
  | .debug => .doInt3
  | .nmi => .doNmi
  | .int3 => .doInt3
  | .overflow => .doOverflow
  | .bounds => .doBounds
  | .invalidOp => .doInvalidOp
  | .coprocessorSegmentOverrun => .doCoprocessorSegmentOverrun
  | .reserved => .doReserved
  | .doubleFault => .doDoubleFault
  | .invalidTSS => .doInvalidTSS
  | .segmentNotPresent => .doSegmentNotPresent
  | .stackSegment => .doStackSegment
  | .generalProtection => .doGeneralProtection

/-- The processor pushes an error code: the stub joins `error_code`. -/
def Trap.hasErrorCode : Trap → Bool
  | .doubleFault | .invalidTSS | .segmentNotPresent | .stackSegment | .generalProtection => true
  | _ => false

/-- The labels of the stubs. -/
inductive TrapLabel
  | stub (t : Trap)
  | noErrorCode
  | errorCode
  deriving DecidableEq

variable (fn : Handler → Word)

/-- A stub that jumps. -/
def jumpStub (t : Trap) (l : TrapLabel) : List (Line TrapLabel) :=
  [.label (.stub t), .pushImm (fn t.handler), .jmp l]

/-- `no_error_code`. -/
def noErrorCode : List (Line TrapLabel) := [
  .push (.reg .eax),
  .push (.reg .ecx),
  .push (.reg .edx),
  .push (.reg .ebx),
  .push (.reg .edi),
  .push (.reg .esi),
  .push (.reg .ebp),
  .push (.seg .ds),
  .push (.seg .es),
  .push (.seg .fs),
  .pushImm 0,
  .leaStack 0x30 .eax,
  .push (.reg .eax),
  .loadStack 0x30 .eax,
  .mov 0x10 .edx,
  .movSeg .edx .ds,
  .movSeg .edx .es,
  .movSeg .edx .fs,
  .callReg .eax,
  .add 8 .esp,
  .pop (.seg .fs),
  .pop (.seg .es),
  .pop (.seg .ds),
  .pop (.reg .ebp),
  .pop (.reg .esi),
  .pop (.reg .edi),
  .pop (.reg .ebx),
  .pop (.reg .edx),
  .pop (.reg .ecx),
  .pop (.reg .eax),
  .add 4 .esp,
  .iret]

/-- `error_code`. -/
def errorCode : List (Line TrapLabel) := [
  .push (.reg .eax),
  .push (.reg .ecx),
  .push (.reg .edx),
  .push (.reg .ebx),
  .push (.reg .edi),
  .push (.reg .esi),
  .push (.reg .ebp),
  .push (.seg .ds),
  .push (.seg .es),
  .push (.seg .fs),
  .loadStack 0x30 .eax,
  .push (.reg .eax),
  .leaStack 0x34 .eax,
  .push (.reg .eax),
  .mov 0x10 .eax,
  .movSeg .eax .ds,
  .movSeg .eax .es,
  .movSeg .eax .fs,
  .loadStack 0x30 .eax,
  .callReg .eax,
  .add 8 .esp,
  .pop (.seg .fs),
  .pop (.seg .es),
  .pop (.seg .ds),
  .pop (.reg .ebp),
  .pop (.reg .esi),
  .pop (.reg .edi),
  .pop (.reg .ebx),
  .pop (.reg .edx),
  .pop (.reg .ecx),
  .pop (.reg .eax),
  .add 8 .esp,
  .iret]

/-- The stubs in the order of the file. The handlers are at the addresses given. -/
def trapStubs : List (Line TrapLabel) :=
  .label (.stub .divideError) :: .pushImm (fn .doDivideError) :: .label .noErrorCode ::
  noErrorCode ++ (
  jumpStub fn .debug .noErrorCode ++ (
  jumpStub fn .nmi .noErrorCode ++ (
  jumpStub fn .int3 .noErrorCode ++ (
  jumpStub fn .overflow .noErrorCode ++ (
  jumpStub fn .bounds .noErrorCode ++ (
  jumpStub fn .invalidOp .noErrorCode ++ (
  jumpStub fn .coprocessorSegmentOverrun .noErrorCode ++ (
  jumpStub fn .reserved .noErrorCode ++
  .label (.stub .doubleFault) :: .pushImm (fn .doDoubleFault) :: .label .errorCode ::
  errorCode ++ (
  jumpStub fn .invalidTSS .errorCode ++ (
  jumpStub fn .segmentNotPresent .errorCode ++ (
  jumpStub fn .stackSegment .errorCode ++
  jumpStub fn .generalProtection .errorCode)))))))))))

/-- What the processor pushes behind the `eip`. -/
def Trap.pushed (t : Trap) (code : Word) : List Word := if t.hasErrorCode then [code] else []

/-- The state in which an exception leaves the processor: before the first line of its stub,
which is at the address `entry`. -/
def fault (t : Trap) (code entry : Word) (c : Cpu) : Run TrapLabel :=
  ⟨.before (linesAt (.stub t) (trapStubs fn)),
    (t.pushed code).foldl Cpu.pushWord (c.interrupt kernelCs entry), []⟩

/-! ### What is asked of the stubs -/

/-- The address of the saved `eip`. -/
def eipAddr (c : Cpu) : Word := c.reg .esp - 12

/-- The error code that a handler gets. -/
def Trap.code (t : Trap) (code : Word) : Word := if t.hasErrorCode then code else 0

/-- The processor at the `iret`: the registers are as they were at the fault, and on the stack is
what the processor has pushed. -/
structure AtIret (c c2 : Cpu) : Prop where
  reg : ∀ r ≠ Reg.esp, c2.reg r = c.reg r
  esp : c2.reg .esp = eipAddr c
  seg : ∀ g ≠ Seg.cs, c2.seg g = c.seg g
  stack : StackAt c2.mem (c2.reg .esp) [c.eip, c.get (.seg .cs), c.eflags]

/-- **An exception is served as it should be**: the handler is called with the address of the
`eip` and the error code, and if it returns, an `iret` ends the stub. -/
structure Served (called : Called) (t : Trap) (code entry : Word) (c : Cpu) : Prop where
  calls : ∃ n k, (exec called (trapStubs fn) n (fault fn t code entry c)).calls = [k] ∧
    k.entry = fn t.handler ∧ k.arg 0 = eipAddr c ∧ k.arg 1 = t.code code
  returns : ∀ n k, (exec called (trapStubs fn) n (fault fn t code entry c)).calls = [k] →
    (called k.entry k.cpu).isSome → ∃ m rest c2,
      exec called (trapStubs fn) m (fault fn t code entry c) = ⟨.before (.iret :: rest), c2, [k]⟩ ∧
        AtIret c c2

/-- Handlers keep the calling convention towards the stub, which has ten registers on the stack,
the address of the handler, and the words of the processor. -/
def TrapHandlers (called : Called) (t : Trap) (code : Word) : Prop :=
  ∀ c c', called (fn t.handler) c = some c' →
    ∃ result, Cdecl 2 (14 + (t.pushed code).length) result c c'

/-! ### The stack -/

variable {fn : Handler → Word} {called : Called} {t : Trap} {code entry w : Word}
  {c c1 : Cpu} {ws vs : List Word} {calls : List Call} {n : ℕ}

/-- The words on the stack since the fault, and the segment registers that no stub changes. -/
structure OnStack (c : Cpu) (ws : List Word) (c1 : Cpu) : Prop where
  stack : StackAt c1.mem (c1.reg .esp) ws
  bottom : c1.reg .esp + BitVec.ofNat 32 (4 * ws.length) = c.reg .esp
  few : ws.length < 64
  segs : c1.seg .ss = c.seg .ss ∧ c1.seg .gs = c.seg .gs

theorem OnStack.pushWord (h : OnStack c ws c1) (hfew : ws.length < 63) :
    OnStack c (w :: ws) (c1.pushWord w) := by
  have hbottom := h.bottom
  refine ⟨h.stack.pushWord (by omega), ?_, by rw [List.length_cons]; omega, h.segs⟩
  rw [Cpu.pushWord_esp, List.length_cons, Nat.mul_succ, Nat.add_comm, BitVec.ofNat_add]
  bv_omega

theorem OnStack.setReg {r : Reg} (h : OnStack c ws c1) (hr : r ≠ .esp) :
    OnStack c ws (c1.setReg r w) := by
  have hesp : (c1.setReg r w).reg .esp = c1.reg .esp := Cpu.setReg_reg_of_ne hr.symm
  refine ⟨?_, ?_, h.few, h.segs⟩
  · rw [hesp]
    exact h.stack
  · rw [hesp]
    exact h.bottom

theorem OnStack.setSeg {g : Seg} (h : OnStack c ws c1) (hss : g ≠ .ss) (hgs : g ≠ .gs) :
    OnStack c ws (c1.set w (.seg g)) :=
  ⟨h.stack, h.bottom, h.few, (Function.update_of_ne hss.symm _ _).trans h.segs.1,
    (Function.update_of_ne hgs.symm _ _).trans h.segs.2⟩

/-- A word on the stack is read at its displacement. -/
theorem load_stackAt {m : Memory} {a : Word} {i : ℕ} (h : StackAt m a ws) (hi : ws[i]? = some w) :
    load m (a + BitVec.ofNat 32 (4 * i)) = w := by
  induction ws generalizing a i with
  | nil => exact absurd hi (by simp)
  | cons v ws ih =>
    cases i with
    | zero =>
      rw [Nat.mul_zero, BitVec.add_zero]
      exact h.1.trans (Option.some.inj hi)
    | succ i =>
      rw [Nat.mul_succ, Nat.add_comm, BitVec.ofNat_add, ← BitVec.add_assoc]
      exact ih h.2 hi

theorem OnStack.load {i : ℕ} (h : OnStack c ws c1) (hi : ws[i]? = some w) :
    load c1.mem (c1.reg .esp + BitVec.ofNat 32 (4 * i)) = w :=
  load_stackAt h.stack hi

theorem OnStack.pushAll (h : OnStack c ws c1) (os : List Operand) (hos : .reg .esp ∉ os)
    (hfew : os.length + ws.length < 64) :
    OnStack c (os.reverse.map c1.get ++ ws) (pushAll os c1) := by
  have hbottom := h.bottom
  have hlen : (os.reverse.map c1.get ++ ws).length = os.length + ws.length := by simp
  refine ⟨stackAt_pushAll hos h.stack (by omega), ?_, by omega, ?_, ?_⟩
  · rw [pushAll_esp, hlen, Nat.mul_add, BitVec.ofNat_add]
    bv_omega
  · exact (Cpu.seg_of_get (pushAll_get (reg_ne_seg _ _).symm os c1)).trans h.segs.1
  · exact (Cpu.seg_of_get (pushAll_get (reg_ne_seg _ _).symm os c1)).trans h.segs.2

/-- The words of the arguments are taken off after a call. -/
theorem OnStack.afterCall {c' : Cpu} {result : Word} (h : OnStack c (vs ++ ws) c1)
    (hcall : Cdecl vs.length ws.length result c1 c') :
    OnStack c ws (c'.add (BitVec.ofNat 32 (4 * vs.length)) .esp) := by
  have hfew := h.few
  have hbottom := h.bottom
  rw [List.length_append] at hfew hbottom
  have hesp : c'.reg .esp = c1.reg .esp := hcall.saved _ (by decide)
  refine ⟨?_, ?_, by omega, (congrFun hcall.segs _).trans h.segs.1,
    (congrFun hcall.segs _).trans h.segs.2⟩
  · rw [Cpu.add_reg_self]
    exact hcall.stackAt (by omega) h.stack
  · rw [Cpu.add_reg_self, hesp, ← hbottom, Nat.mul_add, BitVec.ofNat_add]
    exact BitVec.add_assoc _ _ _

/-! ### The way in -/

/-- What is on the stack when the registers are saved. -/
def trapFrame (fn : Handler → Word) (t : Trap) (code : Word) (c : Cpu) : List Word :=
  savedRegs.reverse.map c.get ++ fn t.handler :: t.pushed code ++
    [c.eip, c.get (.seg .cs), c.eflags]

/-- The processor before the registers are saved. -/
def entered (fn : Handler → Word) (t : Trap) (code entry : Word) (c : Cpu) : Cpu :=
  ((t.pushed code).foldl Cpu.pushWord (c.interrupt kernelCs entry)).pushWord (fn t.handler)

/-- The processor when the registers are saved. -/
def saved (fn : Handler → Word) (t : Trap) (code entry : Word) (c : Cpu) : Cpu :=
  pushAll savedRegs (entered fn t code entry c)

theorem pushed_eq (t : Trap) (code : Word) : t.pushed code = [] ∨ t.pushed code = [code] := by
  rw [Trap.pushed]
  split
  · exact .inr rfl
  · exact .inl rfl

theorem onStack_entered : OnStack c
    (fn t.handler :: t.pushed code ++ [c.eip, c.get (.seg .cs), c.eflags])
    (entered fn t code entry c) := by
  have hint : OnStack c [c.eip, c.get (.seg .cs), c.eflags] (c.interrupt kernelCs entry) := by
    refine ⟨Cpu.interrupt_stackAt, ?_, show 3 < 64 by decide, rfl, rfl⟩
    rw [Cpu.interrupt_esp]
    exact BitVec.sub_add_cancel _ _
  rw [entered]
  rcases pushed_eq t code with h | h
  · rw [h]
    exact hint.pushWord (show 3 < 63 by decide)
  · rw [h]
    exact (hint.pushWord (show 3 < 63 by decide)).pushWord (show 4 < 63 by decide)

theorem get_trapEntered {o : Operand} (ho : o ≠ .reg .esp) (hcs : o ≠ .seg .cs) :
    (entered fn t code entry c).get o = c.get o := by
  rw [entered, Cpu.pushWord_get ho]
  rcases pushed_eq t code with h | h
  · rw [h]
    exact Cpu.interrupt_get ho hcs
  · rw [h]
    exact (Cpu.pushWord_get ho).trans (Cpu.interrupt_get ho hcs)

theorem onStack_saved : OnStack c (trapFrame fn t code c) (saved fn t code entry c) := by
  have h : OnStack c _ (entered fn t code entry c) := onStack_entered
  have hget : savedRegs.reverse.map (entered fn t code entry c).get =
      savedRegs.reverse.map c.get := by
    refine List.map_congr_left fun o ho => get_trapEntered ?_ ?_
    · rintro rfl
      exact absurd ho (by decide)
    · rintro rfl
      exact absurd ho (by decide)
  have hpush := h.pushAll savedRegs (by decide) (by
    rcases pushed_eq t code with h | h <;> rw [h] <;> simp [savedRegs])
  rw [hget] at hpush
  rw [trapFrame, List.append_assoc]
  exact hpush

theorem get_saved {o : Operand} (ho : o ≠ .reg .esp) (hcs : o ≠ .seg .cs) :
    (saved fn t code entry c).get o = c.get o :=
  (pushAll_get ho _ _).trans (get_trapEntered ho hcs)

/-- The label that a stub joins. -/
def Trap.join (t : Trap) : TrapLabel := if t.hasErrorCode then .errorCode else .noErrorCode

theorem linesAt_noErrorCode (fn : Handler → Word) :
    ∃ rest, linesAt .noErrorCode (trapStubs fn) = noErrorCode ++ rest := ⟨_, rfl⟩

theorem linesAt_errorCode (fn : Handler → Word) :
    ∃ rest, linesAt .errorCode (trapStubs fn) = errorCode ++ rest := ⟨_, rfl⟩

/-- A stub pushes its handler and joins. -/
theorem exec_join (n : ℕ) : exec called (trapStubs fn) (n + 2) (fault fn t code entry c) =
    exec called (trapStubs fn) n
      ⟨.before (linesAt t.join (trapStubs fn)), entered fn t code entry c, []⟩ := by
  cases t <;> rfl

/-! ### The call -/

/-- The second argument as it is passed. -/
def Trap.passed (t : Trap) (c : Cpu) : Word := if t.hasErrorCode then c.eip else 0

theorem OnStack.esp (h : OnStack c ws c1) :
    c1.reg .esp = c.reg .esp - BitVec.ofNat 32 (4 * ws.length) := by
  rw [← h.bottom]
  bv_omega

/-- The selectors are loaded from a register. -/
def loadSegs (r : Reg) (c : Cpu) : Cpu :=
  let c1 := c.set (c.reg r) (.seg .ds)
  let c2 := c1.set (c1.reg r) (.seg .es)
  c2.set (c2.reg r) (.seg .fs)

theorem OnStack.loadSegs {r : Reg} (h : OnStack c ws c1) : OnStack c ws (loadSegs r c1) :=
  ((h.setSeg (by decide) (by decide)).setSeg (by decide) (by decide)).setSeg (by decide) (by decide)

/-- The lines of `no_error_code` between the saving of the registers and the call. -/
def noErrorArgs (c1 : Cpu) : Cpu :=
  let c2 := c1.pushWord 0
  let c3 := c2.setReg .eax (c2.reg .esp + 0x30)
  let c4 := c3.push (.reg .eax)
  let c5 := c4.setReg .eax (load c4.mem (c4.reg .esp + 0x30))
  loadSegs .edx (c5.setReg .edx 0x10)

/-- The lines of `error_code` between the saving of the registers and the call. -/
def errorArgs (c1 : Cpu) : Cpu :=
  let c2 := c1.setReg .eax (load c1.mem (c1.reg .esp + 0x30))
  let c3 := c2.push (.reg .eax)
  let c4 := c3.setReg .eax (c3.reg .esp + 0x34)
  let c5 := c4.push (.reg .eax)
  let c6 := loadSegs .eax (c5.setReg .eax 0x10)
  c6.setReg .eax (load c6.mem (c6.reg .esp + 0x30))

/-- The processor at the call of a handler. -/
structure AtCall (fn : Handler → Word) (t : Trap) (code : Word) (c c1 : Cpu) : Prop where
  stack : OnStack c ([eipAddr c, t.passed c] ++ trapFrame fn t code c) c1
  eax : c1.reg .eax = fn t.handler

/-- **Without an error code** both arguments are right. -/
theorem atCall_noErrorArgs (ht : t.hasErrorCode = false)
    (h : OnStack c (trapFrame fn t code c) c1) : AtCall fn t code c (noErrorArgs c1) := by
  have hpushed : t.pushed code = [] := by rw [Trap.pushed, ht]; rfl
  have hpassed : t.passed c = 0 := by rw [Trap.passed, ht]; rfl
  have hlen : (trapFrame fn t code c).length = 14 := by rw [trapFrame, hpushed]; rfl
  have h2 : OnStack c (0 :: trapFrame fn t code c) (c1.pushWord 0) := h.pushWord (by omega)
  have hesp : (c1.pushWord 0).reg .esp + 0x30 = eipAddr c := by
    rw [h2.esp, List.length_cons, hlen, eipAddr]
    bv_omega
  have h3 : OnStack c (0 :: trapFrame fn t code c) ((c1.pushWord 0).setReg .eax (eipAddr c)) :=
    h2.setReg (by decide)
  have h4 : OnStack c (eipAddr c :: 0 :: trapFrame fn t code c)
      (((c1.pushWord 0).setReg .eax (eipAddr c)).push (.reg .eax)) := by
    have hget : ((c1.pushWord 0).setReg .eax (eipAddr c)).get (.reg .eax) = eipAddr c :=
      Cpu.setReg_reg_self
    rw [Cpu.push, hget]
    exact h3.pushWord (by rw [List.length_cons]; omega)
  have hload := h4.load (i := 12) (w := fn t.handler) (by rw [trapFrame, hpushed]; rfl)
  rw [noErrorArgs, hesp]
  refine ⟨?_, hload⟩
  rw [hpassed]
  exact ((h4.setReg (by decide)).setReg (by decide)).loadSegs

/-- **With an error code** the second argument is the `eip`. -/
theorem atCall_errorArgs (ht : t.hasErrorCode = true)
    (h : OnStack c (trapFrame fn t code c) c1) : AtCall fn t code c (errorArgs c1) := by
  have hpushed : t.pushed code = [code] := by rw [Trap.pushed, ht]; rfl
  have hpassed : t.passed c = c.eip := by rw [Trap.passed, ht]; rfl
  have hlen : (trapFrame fn t code c).length = 15 := by rw [trapFrame, hpushed]; rfl
  have hload := h.load (i := 12) (w := c.eip) (by rw [trapFrame, hpushed]; rfl)
  have h3 : OnStack c (c.eip :: trapFrame fn t code c)
      ((c1.setReg .eax c.eip).push (.reg .eax)) := by
    have hget : (c1.setReg .eax c.eip).get (.reg .eax) = c.eip := Cpu.setReg_reg_self
    rw [Cpu.push, hget]
    exact (h.setReg (by decide)).pushWord (by omega)
  have hesp : ((c1.setReg .eax c.eip).push (.reg .eax)).reg .esp + 0x34 = eipAddr c := by
    rw [h3.esp, List.length_cons, hlen, eipAddr]
    bv_omega
  have h5 : OnStack c (eipAddr c :: c.eip :: trapFrame fn t code c)
      ((((c1.setReg .eax c.eip).push (.reg .eax)).setReg .eax (eipAddr c)).push (.reg .eax)) := by
    have hget : (((c1.setReg .eax c.eip).push (.reg .eax)).setReg .eax (eipAddr c)).get
        (.reg .eax) = eipAddr c := Cpu.setReg_reg_self
    rw [Cpu.push, hget]
    exact (h3.setReg (by decide)).pushWord (by rw [List.length_cons]; omega)
  have h6 := (h5.setReg (r := .eax) (w := 0x10) (by decide)).loadSegs (r := .eax)
  have hfn := h6.load (i := 12) (w := fn t.handler) (by rw [trapFrame, hpushed]; rfl)
  have hload' : load c1.mem (c1.reg .esp + 0x30) = c.eip := hload
  rw [errorArgs, hload', hesp]
  refine ⟨?_, ?_⟩
  · rw [hpassed]
    exact h6.setReg (by decide)
  · exact hfn

/-! ### The way out -/

/-- The lines behind the call. -/
def wayOut (t : Trap) (code : Word) : List (Line TrapLabel) :=
  .add 8 .esp :: savedRegs.reverse.map .pop ++
    [.add (BitVec.ofNat 32 (4 * (1 + (t.pushed code).length))) .esp, .iret]

/-- **The stub runs into the call** of its handler, and from there to its end. -/
theorem exec_trapCall (fn : Handler → Word) (called : Called) (t : Trap) (code entry : Word)
    (c : Cpu) : ∃ n c1 rest, AtCall fn t code c c1 ∧
    ∀ m, exec called (trapStubs fn) (n + (m + 1)) (fault fn t code entry c) =
      exec called (trapStubs fn) m
        (stepCall called (wayOut t code ++ rest) c1 [] (fn t.handler)) := by
  have hsaved : OnStack c (trapFrame fn t code c) (saved fn t code entry c) := onStack_saved
  have hpush : ∀ body rest m, exec called (trapStubs fn) (10 + m)
      ⟨.before (savedRegs.map .push ++ body ++ rest), entered fn t code entry c, []⟩ =
      exec called (trapStubs fn) m ⟨.before (body ++ rest), saved fn t code entry c, []⟩ := by
    intro body rest m
    rw [List.append_assoc]
    exact exec_pushAll savedRegs m (body ++ rest) _ []
  cases ht : t.hasErrorCode with
  | false =>
    obtain ⟨rest, hrest⟩ := linesAt_noErrorCode fn
    have hcall := atCall_noErrorArgs ht hsaved
    have hpushed : t.pushed code = [] := by rw [Trap.pushed, ht]; rfl
    have hjoin : t.join = .noErrorCode := by rw [Trap.join, ht]; rfl
    refine ⟨20, _, rest, hcall, fun m => ?_⟩
    rw [show 20 + (m + 1) = 10 + (m + 9) + 2 by omega, exec_join, hjoin, hrest]
    refine (hpush (noErrorCode.drop 10) rest (m + 9)).trans ?_
    rw [← hcall.eax, wayOut, hpushed]
    rfl
  | true =>
    obtain ⟨rest, hrest⟩ := linesAt_errorCode fn
    have hcall := atCall_errorArgs ht hsaved
    have hpushed : t.pushed code = [code] := by rw [Trap.pushed, ht]; rfl
    have hjoin : t.join = .errorCode := by rw [Trap.join, ht]; rfl
    refine ⟨21, _, rest, hcall, fun m => ?_⟩
    rw [show 21 + (m + 1) = 10 + (m + 10) + 2 by omega, exec_join, hjoin, hrest]
    refine (hpush (errorCode.drop 10) rest (m + 10)).trans ?_
    rw [← hcall.eax, wayOut, hpushed]
    rfl

/-- The registers are popped, and what lies above the saved `eip` is taken off. -/
def restored (t : Trap) (code : Word) (c1 : Cpu) : Cpu :=
  (popAll savedRegs.reverse c1).add (BitVec.ofNat 32 (4 * (1 + (t.pushed code).length))) .esp

/-- **What is on the stack is restored.** -/
theorem atIret_restored (h : OnStack c (trapFrame fn t code c) c1) :
    AtIret c (restored t code c1) := by
  have hstack := h.stack
  rw [trapFrame, List.append_assoc] at hstack
  have hpop : ∀ {o : Operand}, o ≠ .reg .esp → (popAll savedRegs.reverse c1).get o =
      if o ∈ savedRegs.reverse then c.get o else c1.get o :=
    fun ho => popAll_get (by decide) hstack ho
  have hadd : ∀ {o : Operand}, o ≠ .reg .esp →
      (restored t code c1).get o = (popAll savedRegs.reverse c1).get o := by
    intro o ho
    cases o with
    | reg r => exact Cpu.setReg_reg_of_ne fun hr => ho (congrArg _ hr)
    | seg g => rfl
  have hespAdd : (restored t code c1).reg .esp = c1.reg .esp +
      BitVec.ofNat 32 (4 * savedRegs.reverse.length) +
        BitVec.ofNat 32 (4 * (fn t.handler :: t.pushed code).length) := by
    rw [restored, Cpu.add_reg_self, popAll_esp (by decide), List.length_cons, Nat.add_comm 1]
  refine ⟨fun r hr => ?_, ?_, fun g hg => ?_, ?_⟩
  · have hmem : ∀ r, r ≠ .esp → .reg r ∈ savedRegs.reverse := by
      intro r hr
      cases r with
      | esp => exact absurd rfl hr
      | _ => decide
    have ho : Operand.reg r ≠ .reg .esp := fun h => hr (Operand.reg.inj h)
    have hget := hpop ho
    rw [if_pos (hmem r hr)] at hget
    exact (hadd ho).trans hget
  · rw [hespAdd, h.esp, eipAddr, trapFrame]
    rcases pushed_eq t code with hp | hp
    · rw [hp]
      show _ - BitVec.ofNat 32 56 + BitVec.ofNat 32 40 + BitVec.ofNat 32 4 = _
      bv_omega
    · rw [hp]
      show _ - BitVec.ofNat 32 60 + BitVec.ofNat 32 40 + BitVec.ofNat 32 8 = _
      bv_omega
  · refine Cpu.seg_of_get ((hadd (reg_ne_seg _ _).symm).trans ?_)
    rw [hpop (reg_ne_seg _ _).symm]
    cases g with
    | cs => exact absurd rfl hg
    | ss => exact congrArg (BitVec.setWidth 32) h.segs.1
    | gs => exact congrArg (BitVec.setWidth 32) h.segs.2
    | _ => exact if_pos (by decide)
  · rw [hespAdd]
    have htail := hstack.append
    rw [List.length_map] at htail
    rw [restored, Cpu.add_mem, popAll_mem]
    exact htail.append

/-- **A handler that returns** leads to the `iret`. -/
theorem AtCall.returns (h : AtCall fn t code c c1) (called : Called) {c' : Cpu} {result : Word}
    (hcall : Cdecl 2 (14 + (t.pushed code).length) result c1 c') (rest : List (Line TrapLabel))
    (calls : List Call) : ∃ c2, AtIret c c2 ∧
      exec called (trapStubs fn) 12 ⟨.before (wayOut t code ++ rest), c', calls⟩ =
        ⟨.before (.iret :: rest), c2, calls⟩ := by
  have hlen : (trapFrame fn t code c).length = 14 + (t.pushed code).length := by
    rw [trapFrame]
    rcases pushed_eq t code with hp | hp
    · rw [hp]
      rfl
    · rw [hp]
      rfl
  have hcall' : Cdecl [eipAddr c, t.passed c].length (trapFrame fn t code c).length
      result c1 c' := by
    rw [hlen]
    exact hcall
  refine ⟨restored t code (c'.add 8 .esp), atIret_restored (h.stack.afterCall hcall'), ?_⟩
  exact exec_popAll savedRegs.reverse 1 (.add _ .esp :: .iret :: rest) (c'.add 8 .esp) calls

/-! ### Which exceptions are served -/

/-- The calls of a run that makes one. -/
theorem call_unique {prog : List (Line TrapLabel)} {s : Run TrapLabel} {k k' : Call} {m n : ℕ}
    (hm : (exec called prog m s).calls = [k]) (hn : (exec called prog n s).calls = [k']) :
    k = k' := by
  have hle : ∀ {m n : ℕ} {k k' : Call}, m ≤ n → (exec called prog m s).calls = [k] →
      (exec called prog n s).calls = [k'] → k = k' := by
    intro m n k k' hmn hm hn
    obtain ⟨d, rfl⟩ := Nat.exists_eq_add_of_le hmn
    have hpre : (exec called prog m s).calls <+:
        (exec called prog d (exec called prog m s)).calls := exec_calls d _
    rw [← exec_add, hm, hn, List.cons_prefix_cons] at hpre
    exact hpre.1
  rcases Nat.le_total m n with h | h
  · exact hle h hm hn
  · exact (hle h hn hm).symm

/-- The one call that a stub makes. -/
theorem exec_trapCalls (fn : Handler → Word) (called : Called) (t : Trap) (code entry : Word)
    (c : Cpu) : ∃ n c1 rest, AtCall fn t code c c1 ∧
      (exec called (trapStubs fn) (n + 1) (fault fn t code entry c)).calls =
        [⟨fn t.handler, c1⟩] ∧
      ∀ m, exec called (trapStubs fn) (n + (m + 1)) (fault fn t code entry c) =
        exec called (trapStubs fn) m
          (stepCall called (wayOut t code ++ rest) c1 [] (fn t.handler)) := by
  obtain ⟨n, c1, rest, hcall, hrun⟩ := exec_trapCall fn called t code entry c
  refine ⟨n, c1, rest, hcall, ?_, hrun⟩
  rw [hrun 0]
  exact stepCall_calls _ _ _ _

theorem AtCall.args (h : AtCall fn t code c c1) :
    Call.arg ⟨fn t.handler, c1⟩ 0 = eipAddr c ∧ Call.arg ⟨fn t.handler, c1⟩ 1 = t.passed c :=
  ⟨h.stack.load (i := 0) rfl, h.stack.load (i := 1) rfl⟩

/-- What an exception that is served tells of its error code. -/
theorem Served.eip (h : Served fn called t code entry c) (ht : t.hasErrorCode = true) :
    c.eip = code := by
  obtain ⟨n, c1, rest, hcall, hcalls, -⟩ := exec_trapCalls fn called t code entry c
  obtain ⟨n', k, hk, -, -, hcode⟩ := h.calls
  obtain rfl := call_unique hcalls hk
  rw [hcall.args.2, Trap.passed, Trap.code, if_pos ht, if_pos ht] at hcode
  exact hcode

/-- **An exception is served as it should be** exactly if it has no error code, or the `eip` is
the error code. -/
theorem served_iff (fn : Handler → Word) (called : Called) (t : Trap) (code entry : Word)
    (hh : TrapHandlers fn called t code) (c : Cpu) :
    Served fn called t code entry c ↔ (t.hasErrorCode = true → c.eip = code) := by
  constructor
  · intro h ht
    exact h.eip ht
  intro h
  obtain ⟨n, c1, rest, hcall, hcalls, hrun⟩ := exec_trapCalls fn called t code entry c
  refine ⟨⟨n + 1, _, hcalls, rfl, hcall.args.1, ?_⟩, fun n' k hk hret => ?_⟩
  · rw [hcall.args.2, Trap.passed, Trap.code]
    split
    · rename_i ht
      exact h ht
    · rfl
  · obtain rfl := call_unique hcalls hk
    obtain ⟨c', hc'⟩ := Option.isSome_iff_exists.mp hret
    obtain ⟨result, hcdecl⟩ := hh c1 c' hc'
    obtain ⟨c2, hc2, hexec⟩ := hcall.returns called hcdecl rest [⟨fn t.handler, c1⟩]
    refine ⟨n + (12 + 1), rest, c2, ?_, hc2⟩
    rw [hrun 12, ← hexec, stepCall]
    dsimp only at hc'
    rw [hc']
    rfl

theorem trapHandlers_idleCalled (fn : Handler → Word) (t : Trap) (code : Word) :
    TrapHandlers fn idleCalled t code := by
  rintro c _ ⟨⟩
  refine ⟨0, Cpu.setReg_reg_self, fun r hr => ?_, rfl, fun _ _ _ => rfl⟩
  refine Cpu.setReg_reg_of_ne ?_
  rintro rfl
  exact absurd hr (by decide)

/-- A division by zero. -/
theorem served_divideError :
    Served (fun _ => 0x5000) idleCalled .divideError 0 0x4000 (asking 7) :=
  (served_iff _ _ _ _ _ (trapHandlers_idleCalled _ _ _) _).mpr fun h => absurd h (by decide)

/-- A general protection fault with the error code 0. -/
theorem not_served : ¬ ∀ (fn : Handler → Word) (called : Called) (t : Trap) (code entry : Word),
    TrapHandlers fn called t code → ∀ c : Cpu, Served fn called t code entry c := by
  intro h
  have hs := h (fun _ => 0x5000) idleCalled .generalProtection 0 0x4000
    (trapHandlers_idleCalled _ _ _) (asking 7)
  exact absurd (hs.eip rfl) (by decide)

end Thunix.Kernel
