import Thunix.Lib.X86

/-!
# The system call stub

`int $0x80` ends up in `syscall_interrupt`, which saves the registers, calls the
entry of `syscall_table` that `eax` names, with `ebx`, `ecx` and `edx` as
arguments, and restores the registers. The program runs on
`Thunix.X86.step`. No task of less privilege is ever started, so the
interrupt does not change the stack.

The stub has two slips. Its bound on the number is `__NR_syscall`, 3, and it branches
off only for numbers above: 3 gets through and is looked up behind the table, which
has three entries. And `eax` is among the registers that are restored, so the caller
finds in it the number that it has passed itself, never the result. A call is dispatched
as it should be exactly when these two are the same (`Thunix.Kernel.dispatched_iff`): for
number 0, whose handler returns 0, and for -38, the number that is its own error
code.
-/

namespace Thunix.Kernel

open X86

/-! ### The source -/

/-- `sys_conwrite`, as what it returns. -/
def sysConwrite (_str _ _ : Word) : Word := 0

/-- `sys_test1`. -/
def sysTest1 (_nr _ _ : Word) : Word := 0

/-- `sys_test2`. -/
def sysTest2 (_nr _str _ : Word) : Word := 0

/-- `syscall_table`, as what its entries return for the three words that the stub passes. -/
def syscallTable : List (Word → Word → Word → Word) := [sysConwrite, sysTest1, sysTest2]

/-- `__NR_syscall`. -/
def nrSyscall : Word := 0x03

/-- `ENOSYS`. -/
def enosys : Word := 38

/-- The labels of the stub. -/
inductive Label
  | syscallInterrupt | syscallRet | badSyscall
  deriving DecidableEq

/-- The registers that the stub saves, in the order in which it pushes them. -/
def savedRegs : List Operand :=
  [.reg .eax, .reg .ecx, .reg .edx, .reg .ebx, .reg .edi, .reg .esi, .reg .ebp,
    .seg .ds, .seg .es, .seg .fs]

/-- The arguments of a handler, in the order in which they are pushed. -/
def argRegs : List Operand := [.reg .edx, .reg .ecx, .reg .ebx]

/-- `syscall_interrupt`, with `syscall_table` at the address given. -/
def syscallStub (table : Word) : List (Line Label) := [
  .label .syscallInterrupt,
  .push (.reg .eax),
  .push (.reg .ecx),
  .push (.reg .edx),
  .push (.reg .ebx),
  .push (.reg .edi),
  .push (.reg .esi),
  .push (.reg .ebp),
  .push (.seg .ds),
  .push (.seg .es),
  .push (.seg .fs),
  .cmp nrSyscall .eax,
  .ja .badSyscall,
  .push (.reg .edx),
  .push (.reg .ecx),
  .push (.reg .ebx),
  .call table .eax,
  .add 12 .esp,
  .label .syscallRet,
  .pop (.seg .fs),
  .pop (.seg .es),
  .pop (.seg .ds),
  .pop (.reg .ebp),
  .pop (.reg .esi),
  .pop (.reg .edi),
  .pop (.reg .ebx),
  .pop (.reg .edx),
  .pop (.reg .ecx),
  .pop (.reg .eax),
  .iret,
  .label .badSyscall,
  .mov (-38) .eax,
  .jmp .syscallRet]

/-- The selector that `_set_gate` puts into a gate. -/
def kernelCs : BitVec 16 := 0x0008

/-- The state in which `int $0x80` leaves the processor: before the first line of the
stub, which is at the address `entry`. -/
def int80 (table entry : Word) (c : Cpu) : Run Label :=
  ⟨.before (linesAt .syscallInterrupt (syscallStub table)), c.interrupt kernelCs entry, []⟩

/-! ### The dispatch -/

/-- The entry of the table that a processor asks for. -/
def handler (c : Cpu) : Option (Word → Word → Word → Word) := syscallTable[(c.reg .eax).toNat]?

/-- **A call is dispatched as it should be.** -/
structure Dispatched (table : Word) (c : Cpu) (s : Run Label) : Prop where
  returned : s.control = .returned
  /-- The entry called, if there is one, and its arguments. -/
  calls : s.calls.map (fun k => (k.entry, k.arg 0, k.arg 1, k.arg 2)) =
    if (handler c).isSome then
      [(table + 4 * c.reg .eax, c.reg .ebx, c.reg .ecx, c.reg .edx)]
    else []
  eax : s.cpu.reg .eax =
    (handler c).elim (- enosys) fun f => f (c.reg .ebx) (c.reg .ecx) (c.reg .edx)
  regs : ∀ r ≠ Reg.eax, s.cpu.reg r = c.reg r
  segs : s.cpu.seg = c.seg
  eip : s.cpu.eip = c.eip

/-- The handlers keep the calling convention towards the stub, which has ten registers on
the stack, and the three words of the processor. -/
def Handlers (table : Word) (called : Called) : Prop :=
  ∀ k : Fin syscallTable.length, ∀ c, ∃ c', called (table + 4 * BitVec.ofNat 32 k) c = some c' ∧
    Cdecl 3 13 (syscallTable[k] (load c.mem (c.reg .esp)) (load c.mem (c.reg .esp + 4))
      (load c.mem (c.reg .esp + 8))) c c'

/-! ### The registers on the stack -/

variable {table entry : Word} {called : Called} {c c1 c2 : Cpu} {calls : List Call} {n : ℕ}

/-- What lies on the stack while a handler runs: the registers of the caller and what the
processor has pushed. -/
def frame (c : Cpu) : List Word :=
  savedRegs.reverse.map c.get ++ [c.eip, c.get (.seg .cs), c.eflags]

/-- The registers of the caller `c` are on the stack. -/
structure Framed (c c1 : Cpu) : Prop where
  stack : StackAt c1.mem (c1.reg .esp) (frame c)
  esp : c1.reg .esp = c.reg .esp - 52
  segs : c1.seg .ss = c.seg .ss ∧ c1.seg .gs = c.seg .gs

/-- The registers of the caller are back. -/
structure Restored (c c2 : Cpu) : Prop where
  reg : c2.reg = c.reg
  seg : c2.seg = c.seg
  eip : c2.eip = c.eip

/-- The lines behind the saving of the registers. -/
def afterSave (table : Word) : List (Line Label) :=
  (linesAt .syscallInterrupt (syscallStub table)).drop savedRegs.length

theorem get_entered {o : Operand} (ho : o ≠ .reg .esp) (hcs : o ≠ .seg .cs) :
    (pushAll savedRegs (c.interrupt kernelCs entry)).get o = c.get o :=
  (pushAll_get ho _ _).trans (Cpu.interrupt_get ho hcs)

/-- The entry of the stub saves the registers. -/
theorem framed_entered : Framed c (pushAll savedRegs (c.interrupt kernelCs entry)) := by
  have hget : savedRegs.reverse.map (c.interrupt kernelCs entry).get =
      savedRegs.reverse.map c.get := by
    refine List.map_congr_left fun o ho => Cpu.interrupt_get ?_ ?_
    · rintro rfl
      exact absurd ho (by decide)
    · rintro rfl
      exact absurd ho (by decide)
  refine ⟨?_, ?_, ?_, ?_⟩
  · rw [frame, ← hget]
    exact stackAt_pushAll (by decide) Cpu.interrupt_stackAt (show 4 * (10 + 3) ≤ 2 ^ 32 by decide)
  · rw [pushAll_esp, Cpu.interrupt_esp, show savedRegs.length = 10 from rfl]
    bv_omega
  · exact Cpu.seg_of_get (get_entered (by decide) (by decide))
  · exact Cpu.seg_of_get (get_entered (by decide) (by decide))

theorem exec_entered (n : ℕ) : exec called (syscallStub table) (10 + n) (int80 table entry c) =
    exec called (syscallStub table) n
      ⟨.before (afterSave table), pushAll savedRegs (c.interrupt kernelCs entry), []⟩ :=
  exec_pushAll savedRegs n (afterSave table) (c.interrupt kernelCs entry) []

/-- **What is on the stack is restored**, `eax` with the rest. -/
theorem Framed.returns (h : Framed c c1) : ∃ c2, Restored c c2 ∧
    exec called (syscallStub table) 11
      ⟨.before (linesAt .syscallRet (syscallStub table)), c1, calls⟩ = ⟨.returned, c2, calls⟩ := by
  have hpop : ∀ {o : Operand}, o ≠ .reg .esp → (popAll savedRegs.reverse c1).get o =
      if o ∈ savedRegs.reverse then c.get o else c1.get o :=
    fun ho => popAll_get (by decide) h.stack ho
  have hesp : (popAll savedRegs.reverse c1).reg .esp = c.reg .esp - 12 := by
    rw [popAll_esp (by decide), h.esp, show savedRegs.reverse.length = 10 from rfl]
    bv_omega
  have hstack : StackAt (popAll savedRegs.reverse c1).mem ((popAll savedRegs.reverse c1).reg .esp)
      [c.eip, c.get (.seg .cs), c.eflags] := by
    rw [popAll_mem, popAll_esp (by decide)]
    exact h.stack.append
  have hret := Cpu.iret_returned hstack
  refine ⟨(popAll savedRegs.reverse c1).iret, ⟨?_, ?_, hret.eip⟩, ?_⟩
  · have hmem : ∀ r, r ≠ .esp → .reg r ∈ savedRegs.reverse := by
      intro r hr
      cases r with
      | esp => exact absurd rfl hr
      | _ => decide
    funext r
    rcases eq_or_ne r .esp with rfl | hr
    · rw [hret.esp, hesp, BitVec.sub_add_cancel]
    · have ho : Operand.reg r ≠ .reg .esp := fun h => hr (Operand.reg.inj h)
      have hpush := hpop ho
      rw [if_pos (hmem r hr)] at hpush
      exact (hret.others _ ho (reg_ne_seg _ _)).trans hpush
  · funext g
    refine Cpu.seg_of_get ?_
    rcases eq_or_ne g .cs with rfl | hg
    · exact hret.cs
    · have hcs : Operand.seg g ≠ .seg .cs := fun h => hg (Operand.seg.inj h)
      rw [hret.others _ (reg_ne_seg _ _).symm hcs, hpop (reg_ne_seg _ _).symm]
      cases g with
      | cs => exact absurd rfl hg
      | ss => exact congrArg (BitVec.setWidth 32) h.segs.1
      | gs => exact congrArg (BitVec.setWidth 32) h.segs.2
      | _ => exact if_pos (by decide)
  · exact exec_popAll savedRegs.reverse 1
      [.iret, .label .badSyscall, .mov (-38) .eax, .jmp .syscallRet] c1 calls

/-! ### The two paths -/

/-- What is done to `eax` and to the flags leaves the frame alone. -/
theorem Framed.setReg (h : Framed c c1) {w : Word} : Framed c (c1.setReg .eax w) := by
  have hesp : (c1.setReg .eax w).reg .esp = c1.reg .esp := Cpu.setReg_reg_of_ne (by decide)
  refine ⟨?_, hesp.trans h.esp, h.segs⟩
  rw [hesp]
  exact h.stack

theorem Framed.cmp (h : Framed c c1) {v : Word} : Framed c (c1.cmp v .eax) :=
  ⟨h.stack, h.esp, h.segs⟩

/-- The processor behind the comparison. -/
def compared (entry : Word) (c : Cpu) : Cpu :=
  (pushAll savedRegs (c.interrupt kernelCs entry)).cmp nrSyscall .eax

theorem get_compared {o : Operand} (ho : o ≠ .reg .esp) (hcs : o ≠ .seg .cs) :
    (compared entry c).get o = c.get o := by
  have h : (pushAll savedRegs (c.interrupt kernelCs entry)).get o = c.get o := get_entered ho hcs
  refine Eq.trans ?_ h
  cases o <;> rfl

theorem compared_above : (compared entry c).above = decide (nrSyscall < c.reg .eax) := by
  rw [compared, Cpu.cmp_above]
  exact congrArg (fun w => decide (nrSyscall < w))
    (get_entered (o := .reg .eax) (by decide) (by decide))

/-- The comparison and the jump. -/
theorem exec_compared (n : ℕ) : exec called (syscallStub table) (12 + n) (int80 table entry c) =
    exec called (syscallStub table) n
      ⟨.before (if nrSyscall < c.reg .eax then linesAt .badSyscall (syscallStub table)
        else (afterSave table).drop 2), compared entry c, []⟩ := by
  rw [show 12 + n = 10 + (n + 2) by omega, exec_entered]
  have hjump : exec called (syscallStub table) (n + 2) ⟨.before (afterSave table),
      pushAll savedRegs (c.interrupt kernelCs entry), []⟩ =
      exec called (syscallStub table) n
        ⟨.before (if (compared entry c).above = true then linesAt .badSyscall (syscallStub table)
          else (afterSave table).drop 2), compared entry c, []⟩ := rfl
  rw [hjump, compared_above]
  simp only [decide_eq_true_eq]

/-- **A number above the bound** is not looked up. -/
theorem exec_bad (h : nrSyscall < c.reg .eax) : ∃ c2, Restored c c2 ∧
    exec called (syscallStub table) 25 (int80 table entry c) = ⟨.returned, c2, []⟩ := by
  have hframed : Framed c ((compared entry c).setReg .eax (-38)) := framed_entered.cmp.setReg
  obtain ⟨c2, hc2, hexec⟩ := hframed.returns
  refine ⟨c2, hc2, ?_⟩
  rw [← hexec, show 25 = 12 + 13 from rfl, exec_compared, if_pos h]
  rfl

/-- The processor at the call of a handler. -/
def atCall (entry : Word) (c : Cpu) : Cpu := pushAll argRegs (compared entry c)

theorem stackAt_atCall : StackAt (atCall entry c).mem ((atCall entry c).reg .esp)
    ([c.reg .ebx, c.reg .ecx, c.reg .edx] ++ frame c) := by
  have hget : argRegs.reverse.map (compared entry c).get = [c.reg .ebx, c.reg .ecx, c.reg .edx] :=
    (List.map_congr_left fun o ho => get_compared (by rintro rfl; exact absurd ho (by decide))
      (by rintro rfl; exact absurd ho (by decide))).trans rfl
  rw [← hget]
  exact stackAt_pushAll (by decide) framed_entered.cmp.stack
    (show 4 * (3 + 13) ≤ 2 ^ 32 by decide)

/-- The call is made. -/
theorem exec_atCall (h : ¬ nrSyscall < c.reg .eax) (n : ℕ) :
    exec called (syscallStub table) (16 + n) (int80 table entry c) =
      exec called (syscallStub table) n (stepLine called (syscallStub table)
        ((afterSave table).drop 6) (atCall entry c) [] (.call table .eax)) := by
  rw [show 16 + n = 12 + (3 + (n + 1)) by omega, exec_compared, if_neg h]
  exact exec_pushAll argRegs (n + 1) ((afterSave table).drop 5) (compared entry c) []

theorem reg_atCall {r : Reg} (h : r ≠ .esp) : (atCall entry c).reg r = c.reg r := by
  have ho : Operand.reg r ≠ .reg .esp := fun hr => h (Operand.reg.inj hr)
  exact (pushAll_get ho argRegs _).trans (get_compared ho (reg_ne_seg _ _))

theorem esp_atCall : (atCall entry c).reg .esp = c.reg .esp - 64 := by
  rw [atCall, pushAll_esp, show argRegs.length = 3 from rfl]
  have h : (compared entry c).reg .esp = c.reg .esp - 52 := framed_entered.cmp.esp
  rw [h]
  bv_omega

theorem seg_atCall {g : Seg} (h : g ≠ .cs) : (atCall entry c).seg g = c.seg g :=
  Cpu.seg_of_get ((pushAll_get (reg_ne_seg _ _).symm argRegs _).trans
    (get_compared (reg_ne_seg _ _).symm fun hg => h (Operand.seg.inj hg)))

/-- The call as it is recorded. -/
def callOf (table entry : Word) (c : Cpu) : Call := ⟨table + 4 * c.reg .eax, atCall entry c⟩

/-- **The arguments** of a call are the three registers. -/
theorem callOf_args : (callOf table entry c).arg 0 = c.reg .ebx ∧
    (callOf table entry c).arg 1 = c.reg .ecx ∧ (callOf table entry c).arg 2 = c.reg .edx := by
  obtain ⟨h0, h1, h2, -⟩ := stackAt_atCall (c := c)
  refine ⟨?_, h1, ?_⟩
  · rw [← h0]
    exact congrArg (load _) (BitVec.add_zero _)
  · rw [← h2, BitVec.add_assoc]
    rfl

theorem stepLine_call (prog rest : List (Line Label)) :
    stepLine called prog rest (atCall entry c) [] (.call table .eax) =
      (called (callOf table entry c).entry (atCall entry c)).elim
        ⟨.lost, atCall entry c, [callOf table entry c]⟩
        fun c' => ⟨.before rest, c', [callOf table entry c]⟩ := by
  rw [stepLine, stepCall, callOf, reg_atCall (by decide)]
  cases called (table + 4 * c.reg .eax) (atCall entry c) <;> rfl

/-- **A number of the table** is called. -/
theorem exec_call (hh : Handlers table called) (hk : (c.reg .eax).toNat < syscallTable.length) :
    ∃ c2, Restored c c2 ∧ exec called (syscallStub table) 29 (int80 table entry c) =
      ⟨.returned, c2, [callOf table entry c]⟩ := by
  have habove : ¬ nrSyscall < c.reg .eax := by
    have : (c.reg .eax).toNat < 3 := hk
    rw [nrSyscall]
    bv_omega
  obtain ⟨c', hcalled, hcdecl⟩ := hh ⟨_, hk⟩ (atCall entry c)
  have hnumber : BitVec.ofNat 32 (c.reg .eax).toNat = c.reg .eax := by
    rw [BitVec.ofNat_toNat, BitVec.setWidth_eq]
  -- The three arguments are taken off, and the frame is as it was.
  have hesp : c'.reg .esp = (atCall entry c).reg .esp := hcdecl.saved _ (by decide)
  have hadd : (c'.add 12 .esp).reg .esp = c'.reg .esp + 12 :=
    Cpu.setReg_reg_self (c := c') (r := .esp) (w := c'.reg .esp + 12)
  have hframed : Framed c (c'.add 12 .esp) := by
    refine ⟨?_, ?_, ?_, ?_⟩
    · rw [hadd]
      have hcdecl' : Cdecl [c.reg .ebx, c.reg .ecx, c.reg .edx].length (frame c).length _ _ _ :=
        hcdecl
      exact hcdecl'.stackAt (show 4 * (3 + 13) ≤ 2 ^ 32 by decide) stackAt_atCall
    · rw [hadd, hesp, esp_atCall]
      bv_omega
    · exact (congrFun hcdecl.segs _).trans (seg_atCall (by decide))
    · exact (congrFun hcdecl.segs _).trans (seg_atCall (by decide))
  obtain ⟨c2, hc2, hexec⟩ := hframed.returns
   
  refine ⟨c2, hc2, ?_⟩
  rw [← hexec, show 29 = 16 + 13 from rfl, exec_atCall habove, stepLine_call]
  dsimp only at hcalled
  rw [hnumber] at hcalled
  rw [callOf, hcalled]
  rfl

/-- Number 3 is looked up behind the table. -/
theorem exec_over (h : c.reg .eax = nrSyscall) :
    (exec called (syscallStub table) 16 (int80 table entry c)).calls = [callOf table entry c] := by
  have habove : ¬ nrSyscall < c.reg .eax := by
    rw [h]
    decide
  rw [show 16 = 16 + 0 from rfl, exec_atCall habove, exec, stepLine_call]
  cases called (callOf table entry c).entry (atCall entry c) <;> rfl

/-! ### The dispatch is right for two numbers -/

/-- Every handler returns 0. -/
theorem syscallTable_result {f : Word → Word → Word → Word} (h : f ∈ syscallTable)
    (x y z : Word) : f x y z = 0 := by
  simp only [syscallTable, List.mem_cons, List.not_mem_nil, or_false] at h
  rcases h with rfl | rfl | rfl <;> rfl

/-- **Every other number** leads back to the caller, with all its registers. -/
theorem stub_runs (hh : Handlers table called) (h : c.reg .eax ≠ nrSyscall) :
    ∃ n c2 calls, Restored c c2 ∧
      exec called (syscallStub table) n (int80 table entry c) = ⟨.returned, c2, calls⟩ ∧
      calls = if (handler c).isSome then [callOf table entry c] else [] := by
  rcases Nat.lt_or_ge (c.reg .eax).toNat syscallTable.length with hlt | hge
  · obtain ⟨c2, hc2, hexec⟩ := exec_call hh hlt
    refine ⟨29, c2, _, hc2, hexec, ?_⟩
    rw [if_pos]
    rw [handler, List.getElem?_eq_getElem hlt]
    rfl
  · have hgt : nrSyscall < c.reg .eax := by
      have hge : 3 ≤ (c.reg .eax).toNat := hge
      rw [nrSyscall] at h ⊢
      bv_omega
    obtain ⟨c2, hc2, hexec⟩ := exec_bad hgt
    refine ⟨25, c2, _, hc2, hexec, ?_⟩
    rw [if_neg]
    rw [handler, List.getElem?_eq_none hge]
    exact Bool.false_ne_true

/-- What a call that is dispatched as it should be tells of the number. -/
theorem Dispatched.number (hh : Handlers table called)
    (hd : Dispatched table c (exec called (syscallStub table) n (int80 table entry c))) :
    c.reg .eax ≠ nrSyscall ∧ c.reg .eax =
      (handler c).elim (- enosys) fun f => f (c.reg .ebx) (c.reg .ecx) (c.reg .edx) := by
  have hne : c.reg .eax ≠ nrSyscall := by
    intro h
    -- The run goes through the call behind the table, and the call stays recorded.
    have hrun := exec_eq_of_returned hd.returned (Nat.le_max_left n 16)
    obtain ⟨k, hk⟩ := Nat.exists_eq_add_of_le (Nat.le_max_right n 16)
    have hcalls : (exec called (syscallStub table) 16 (int80 table entry c)).calls <+:
        (exec called (syscallStub table) k
          (exec called (syscallStub table) 16 (int80 table entry c))).calls := exec_calls k _
    rw [← exec_add, ← hk, hrun, exec_over h] at hcalls
    have hnone : handler c = none := by
      rw [handler, h]
      rfl
    have hnil := hd.calls
    rw [hnone, if_neg (by decide), List.map_eq_nil_iff] at hnil
    rw [hnil] at hcalls
    exact absurd (List.prefix_nil.mp hcalls) (List.cons_ne_nil _ _)
  obtain ⟨m, c2, calls, hc2, hexec, -⟩ := stub_runs hh hne
  refine ⟨hne, ?_⟩
  have hsame : exec called (syscallStub table) n (int80 table entry c) =
      ⟨.returned, c2, calls⟩ := by
    have hm : (exec called (syscallStub table) m (int80 table entry c)).control = .returned := by
      rw [hexec]
    rw [← hexec, ← exec_eq_of_returned hd.returned (Nat.le_max_left n m),
      exec_eq_of_returned hm (Nat.le_max_right n m)]
  have heax := hd.eax
  rw [hsame] at heax
  exact (congrFun hc2.reg _).symm.trans heax

/-- `eax` is restored to the number, so the number has to be the result. -/
theorem Dispatched.of_number (hh : Handlers table called) (hne : c.reg .eax ≠ nrSyscall)
    (heax : c.reg .eax =
      (handler c).elim (- enosys) fun f => f (c.reg .ebx) (c.reg .ecx) (c.reg .edx)) :
    ∃ n, Dispatched table c (exec called (syscallStub table) n (int80 table entry c)) := by
  obtain ⟨n, c2, calls, hc2, hexec, hcalls⟩ := stub_runs hh hne
  refine ⟨n, ?_⟩
  rw [hexec]
  refine ⟨rfl, ?_, (congrFun hc2.reg _).trans heax, fun r _ => congrFun hc2.reg r, hc2.seg, hc2.eip⟩
  obtain ⟨h0, h1, h2⟩ := callOf_args (c := c)
  rw [hcalls]
  split
  · rw [List.map_singleton, h0, h1, h2]
    rfl
  · rfl

/-- **A system call is dispatched as it should be exactly when its number is the result**:
for number 0, and for the number that is the error code itself. -/
theorem dispatched_iff (table entry : Word) (called : Called) (hh : Handlers table called)
    (c : Cpu) :
    (∃ n, Dispatched table c (exec called (syscallStub table) n (int80 table entry c))) ↔
      c.reg .eax = 0 ∨ c.reg .eax = - enosys := by
  constructor
  · rintro ⟨n, hd⟩
    obtain ⟨-, heax⟩ := hd.number hh
    rcases hf : handler c with _ | f
    · rw [hf] at heax
      exact .inr heax
    · rw [hf] at heax
      exact .inl (heax.trans (syscallTable_result (List.mem_of_getElem? hf) _ _ _))
  · rintro (h | h)
    · refine Dispatched.of_number hh (by rw [h]; decide) ?_
      rw [handler, h]
      rfl
    · refine Dispatched.of_number hh (by rw [h]; decide) ?_
      rw [handler, h]
      rfl

/-- Handlers that do nothing but return. -/
def idleCalled : Called := fun _ c => some (c.setReg .eax 0)

theorem handlers_idleCalled (table : Word) : Handlers table idleCalled := by
  intro k c
  refine ⟨_, rfl, ?_, fun r hr => ?_, rfl, fun _ _ _ => rfl⟩
  · rw [Cpu.setReg_reg_self]
    exact (syscallTable_result (List.getElem_mem _) _ _ _).symm
  · refine Cpu.setReg_reg_of_ne ?_
    rintro rfl
    exact absurd hr (by decide)

/-- A processor that asks for a number. -/
def asking (number : Word) : Cpu :=
  ⟨fun r => if r = .eax then number else 0x1000, fun _ => 0x10, 2, 0x2000, fun _ => 0⟩

theorem dispatched_conwrite :
    Handlers 0x3000 idleCalled ∧ ∃ n, Dispatched 0x3000 (asking 0)
      (exec idleCalled (syscallStub 0x3000) n (int80 0x3000 0x4000 (asking 0))) :=
  ⟨handlers_idleCalled _,
    (dispatched_iff 0x3000 0x4000 idleCalled (handlers_idleCalled _) (asking 0)).mpr (.inl rfl)⟩

/-- `sys_test1` returns 0, and its caller finds the number 1. -/
theorem not_dispatched : ¬ ∀ (table entry : Word) (called : Called), Handlers table called →
    ∀ c : Cpu, ∃ n,
      Dispatched table c (exec called (syscallStub table) n (int80 table entry c)) := by
  intro h
  obtain ⟨n, hd⟩ := h 0x3000 0x4000 idleCalled (handlers_idleCalled _) (asking 1)
  exact absurd (hd.number (handlers_idleCalled _)).2 (by decide)

end Thunix.Kernel
