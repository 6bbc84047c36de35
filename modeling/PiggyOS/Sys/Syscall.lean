import PiggyOS.Cpu.Interrupt
import PiggyOS.Cpu.Isr

/-!
# System calls (`syscall.c`, `syscalls/`, `usermode.asm`)

`int 0x7f` enters `syscall_dispatcher` through the gate of vector 127. The number of the call is in
`eax`, the arguments are in `ebx`, `ecx`, `edx`, `esi` and `edi`, and the result comes back in
`eax`. The gates are closed to user code, which is what system calls are for.
-/

namespace PiggyOS

open Infra Mem

/-! ## `int` -/

/-- The error code of a general protection exception about the gate of the vector `n`. -/
def gateErrorCode (n : BitVec 8) : U32 := .ofNat 32 (8 * n.toNat + 2)

namespace Cpu

variable (m : Cpu)

/-- The general protection exception for `int n`; the saved address is the one of the
instruction. -/
def gateFault (idt : Idt) (t : Tss) (n : BitVec 8) (handler ret : U32) : Option Cpu :=
  (idt.gate 13).map fun g => m.interrupted t g (some (gateErrorCode n)) handler ret 13

/-- The instruction pointer moves on by `n` bytes. -/
def skip (n : U32) : Cpu := { m with eip := m.eip + n }

/-- The instruction `int n`, up to the handler of the interrupt that follows. The saved address is
the one behind the instruction, unless the gate is closed. -/
def softInt (idt : Idt) (t : Tss) (n : BitVec 8) (handler ret : U32) : Option Cpu :=
  match idt.gate n with
  | none => m.gateFault idt t n handler ret
  | some g =>
    if m.cpl ≤ g.dpl then
      some ((m.skip 2).interrupted t g none handler ret n.toNat)
    else m.gateFault idt t n handler ret

/-- `switch_to_user` up to the `iret`; `arith` are the arithmetic flags that `sub` leaves. -/
def userFrame (arith : U32) : Cpu :=
  -- cli
  let m := { m with eflags := m.eflags &&& ~~~0x200 }
  let m := { m with ds := 0x23, es := 0x23, fs := 0x23, gs := 0x23 }
  let m := m.setEax (m.mem.read32 (m.esp + 4))
  let m := m.setEax (m.eax - 4)
  let m := { m with eflags := (m.eflags &&& ~~~0x8D5) ||| (arith &&& 0x8D5) }
  let m := { m with ebx := m.mem.read32 (m.esp + 12) }
  let m := { m with mem := m.mem.write32 m.eax m.ebx }
  let m := { m with ebx := m.mem.read32 (m.esp + 4) }
  let m := m.push 0x23
  let m := m.push m.eax
  let m := m.push m.eflags
  let m := { m.drop with eax := m.top }
  let m := m.setEax (m.eax ||| 0x200)
  let m := m.push m.eax
  let m := m.push 0x1b
  m.push m.ebx

end Cpu

/-! ## The dispatcher -/

/-- The system calls. -/
inductive Syscall
  | gettid
  | yield
  | exit
  | rpl3test
  deriving DecidableEq

/-- `syscall_table` -/
def syscallTable : List (Option Syscall) :=
  [none, some .gettid, some .yield, some .exit, some .rpl3test]

/-- `syscall_dispatcher` up to the call: the function and its arguments, or nothing if the number
is invalid. -/
def syscallDispatcher (ifr : Regs) : Option (Syscall × List U32) :=
  if ifr.eax ≤ 0 ∨ syscallTable.length - 1 < ifr.eax.toNat then none
  else (syscallTable.getD ifr.eax.toNat none).map fun s =>
    (s, [ifr.ebx, ifr.ecx, ifr.edx, ifr.esi, ifr.edi])

/-- What a system call returns for a task with the identifier `tid`; `sys_exit` does not return. -/
def Syscall.ret (tid : U32) : Syscall → Option U32
  | gettid => some tid
  | yield => some 0
  | exit => none
  | rpl3test => some 0

/-- What `syscall_dispatcher` stores in `ifr->eax`. -/
def syscallResult (tid : U32) (ifr : Regs) : Option U32 :=
  match syscallDispatcher ifr with
  | none => some (-1)
  | some (s, _) => s.ret tid

/-- `syscall_dispatcher` has returned, with the `regs_t` at `a`; the system call has left it alone,
whatever else ran meanwhile. -/
def Dispatched (tid a : U32) (k : Nat) (mem mem' : Mem) : Prop :=
  ∃ (mem₁ : Mem) (v : U32), syscallResult tid (regsAt mem a) = some v ∧
    mem₁.popWords a k = mem.popWords a k ∧ mem' = mem₁.write32 (a + 44) v

/-! ## To user code -/

namespace Cpu

variable {m : Cpu}

end Cpu

/-! ## From user code -/

namespace Cpu

variable {m m' old entered left : Cpu} {isr irq : Nat → U32} {gdt : Gdt} {t : Tss} {n : BitVec 8}
  {handler ret : U32} {k : Nat}

theorem gateFault_idtInit : m.gateFault (idtInit isr irq) t n handler ret =
    some (m.interrupted t ⟨isr 13, 0x08, 0⟩ (some (gateErrorCode n)) handler ret 13) := by
  rw [gateFault, gate_idtInit]
  rfl

/-- No gate is open to user code. -/
theorem softInt_of_user (hcpl : m.cpl ≠ 0) : m.softInt (idtInit isr irq) t n handler ret =
    some (m.interrupted t ⟨isr 13, 0x08, 0⟩ (some (gateErrorCode n)) handler ret 13) := by
  have hclosed : ¬ m.cpl ≤ 0 := fun h => hcpl (BitVec.le_zero_iff.mp h)
  rw [softInt, gate_idtInit]
  cases stubAddr isr irq n.toNat with
  | none => exact gateFault_idtInit
  | some a =>
    rw [← gateFault_idtInit]
    exact if_neg hclosed

/-- User code comes to `int n` again and again: each time the processor enters a handler, the
handler leaves its `regs_t` alone and returns. The memory may change, and the TSS. -/
inductive IntRounds (isr irq : Nat → U32) (gdt : Gdt) (n : BitVec 8) : Nat → Cpu → Cpu → Prop
  | nil (m : Cpu) : IntRounds isr irq gdt n 0 m m
  | round {k : Nat} {m m' entered left : Cpu} {t : Tss} {handler ret : U32} :
      IntRounds isr irq gdt n k m m' → m'.HasRoom t →
      m'.softInt (idtInit isr irq) t n handler ret = some entered → left.LeavesFrame entered 19 →
      IntRounds isr irq gdt n (k + 1) m (left.leaveStub gdt)

/-- `int n` in user code never gets past itself, for any `n` and any number of times: the handler
finds a general protection exception about the vector `n`, and when it returns all registers are as
they were, the instruction pointer included. So user code cannot call the system. -/
theorem user_int_stuck (h : IntRounds isr irq gdt n k m m') (hcpl : m.cpl ≠ 0)
    (hseg : m.SegmentsOk gdt) : m'.toContext = m.toContext ∧
    ∀ t handler ret entered, m'.HasRoom t →
      m'.softInt (idtInit isr irq) t n handler ret = some entered →
      ∃ above, regsAt entered.mem (entered.mem.read32 (entered.esp + 4)) =
        m'.savedRegs t (gateErrorCode n) 13 above := by
  have hsame : ∀ m' : Cpu, m'.toContext = m.toContext → m'.cpl ≠ 0 ∧ m'.SegmentsOk gdt := by
    intro m' h
    obtain ⟨c, mem⟩ := m
    obtain ⟨c', mem'⟩ := m'
    cases h
    exact ⟨hcpl, hseg⟩
  have hcontext : m'.toContext = m.toContext := by
    induction h with
    | nil => rfl
    | @round k m m' entered left t handler ret _ hroom hint hleave ih =>
      have ih := ih hcpl hseg hsame
      obtain ⟨hcpl', hseg'⟩ := hsame m' ih
      rw [softInt_of_user hcpl'] at hint
      cases hint
      have hnumber : m'.aboveNumber (some (gateErrorCode n)) 13 = 6 := aboveNumber_of_user rfl hcpl'
      rw [show 19 = m'.aboveNumber (some (gateErrorCode n)) 13 + 13 by rw [hnumber]] at hleave
      exact (interrupt_round_trip rfl hroom rfl hseg' hleave).trans ih
  refine ⟨hcontext, fun t handler ret entered hroom hint => ?_⟩
  rw [softInt_of_user (hsame m' hcontext).1] at hint
  cases hint
  exact handler_argument rfl hroom

/-! ## From the kernel -/

/-- The result takes the place of `eax` in the `regs_t`. -/
theorem regsAt_write_eax (mem : Mem) (a v : U32) :
    regsAt (mem.write32 (a + 44) v) a = { regsAt mem a with eax := v } := by
  have hself : (mem.write32 (a + 44) v).read32 (a + 44) = v := read32_write32 ..
  have hother : ∀ i : U32, 4 ≤ (44 - i).toNat → 4 ≤ (i - 44).toNat →
      (mem.write32 (a + 44) v).read32 (a + i) = mem.read32 (a + i) := by
    intro i h₁ h₂
    exact read32_write32_of_apart ⟨by bv_omega, by bv_omega⟩
  have hfirst : (mem.write32 (a + 44) v).read32 a = mem.read32 a :=
    read32_write32_of_apart ⟨by bv_omega, by bv_omega⟩
  simp (disch := decide) only [regsAt, hself, hfirst, hother]

/-- A handler that changes `eax` in its `regs_t` and leaves the rest alone. -/
theorem interrupt_result {g : Gate} {code : Option U32} {i : Nat} {mem₁ : Mem} {v : U32}
    (hcode : code.isSome = errorCodeStub i) (hcpl : old.cpl = 0) (hroom : old.HasRoom t)
    (hgate : g.selector = 0x08) (hcs : left.cs = (old.interrupted t g code handler ret i).cs)
    (hss : left.ss = (old.interrupted t g code handler ret i).ss)
    (hesp : left.esp = (old.interrupted t g code handler ret i).esp + 4)
    (hwords : mem₁.popWords (old.regsAddr t code i) (old.aboveNumber code i + 13) =
      (old.interrupted t g code handler ret i).mem.popWords (old.regsAddr t code i)
        (old.aboveNumber code i + 13))
    (hmem : left.mem = mem₁.write32 (old.regsAddr t code i + 44) v) :
    (left.leaveStub gdt).toContext = { old.toContext with eax := v } := by
  have haddr : left.esp + 4 = old.regsAddr t code i := by
    rw [hesp, ← interrupted_esp_add old t g code handler ret, BitVec.add_assoc]
    rfl
  rw [popWords_interrupted hroom] at hwords
  obtain ⟨above, hregs⟩ := regsAt_of_words hcode hwords
  have hregs' : regsAt left.mem (left.esp + 4) =
      { old with eax := v }.savedRegs t (code.getD 0) i above := by
    rw [hmem, haddr, regsAt_write_eax, hregs]
    rfl
  have hleft : left.cpl = 0 := by
    rw [Cpu.cpl, hcs, interrupted_cs, hgate]
    decide
  have hkernel : { old with eax := v }.cpl = 0 →
      left.esp + 4 + 68 = { old with eax := v }.esp := by
    intro _
    rw [haddr]
    exact regsAddr_add_of_kernel hcode hcpl
  have hss' : left.ss = old.ss := by
    rw [hss, interrupted_ss, if_pos hcpl]
  have hseg : { old with eax := v }.SegmentsOk gdt := segmentsOk_of_kernel hcpl
  rw [leaveStub_context hregs' hleft hkernel hseg, hss', ite_self]

theorem softInt_of_kernel (hcpl : m.cpl = 0) : m.softInt (idtInit isr irq) t 0x7f handler ret =
    some ((m.skip 2).interrupted t ⟨isr 127, 0x08, 0⟩ none handler ret 127) := by
  rw [softInt, gate_idtInit]
  exact if_pos (BitVec.le_zero_iff.mpr hcpl)

/-- The number decides about the function and about the result. -/
theorem syscallResult_cases {tid v : U32} {r : Regs} (h : syscallResult tid r = some v) :
    (v = -1 ∧ (r.eax = 0 ∨ 4 < r.eax)) ∨
      ∃ s, syscallDispatcher r = some (s, [r.ebx, r.ecx, r.edx, r.esi, r.edi]) ∧
        (s = .gettid ∧ r.eax = 1 ∧ v = tid ∨ s = .yield ∧ r.eax = 2 ∧ v = 0 ∨
          s = .rpl3test ∧ r.eax = 4 ∧ v = 0) := by
  by_cases hinvalid : r.eax = 0 ∨ 4 < r.eax
  · have hnone : syscallDispatcher r = none := by
      refine if_pos (hinvalid.imp (fun h => ?_) fun h => ?_)
      · rw [h]
        exact BitVec.le_refl 0
      · exact h
    rw [syscallResult, hnone] at h
    exact Or.inl ⟨(Option.some.inj h).symm, hinvalid⟩
  · have hvalid : ¬ (r.eax ≤ 0 ∨ syscallTable.length - 1 < r.eax.toNat) :=
      fun h => hinvalid (h.imp (fun h => BitVec.le_zero_iff.mp h) fun h => h)
    have hnumber : r.eax = 1 ∨ r.eax = 2 ∨ r.eax = 3 ∨ r.eax = 4 := by bv_omega
    have hcall : syscallDispatcher r = (syscallTable.getD r.eax.toNat none).map fun s =>
        (s, [r.ebx, r.ecx, r.edx, r.esi, r.edi]) := if_neg hvalid
    rw [syscallResult] at h
    rcases hnumber with heax | heax | heax | heax <;> rw [heax] at hcall <;> rw [hcall] at h
    · exact Or.inr ⟨.gettid, hcall, Or.inl ⟨rfl, heax, (Option.some.inj h).symm⟩⟩
    · exact Or.inr ⟨.yield, hcall, Or.inr (Or.inl ⟨rfl, heax, (Option.some.inj h).symm⟩)⟩
    · cases h
    · exact Or.inr ⟨.rpl3test, hcall, Or.inr (Or.inr ⟨rfl, heax, (Option.some.inj h).symm⟩)⟩

/-- What a dispatched system call leaves, for an interrupt of the code `old` in the kernel. -/
theorem dispatched_context {g : Gate} {tid : U32} (hcpl : old.cpl = 0) (hroom : old.HasRoom t)
    (hgate : g.selector = 0x08) (hcs : left.cs = (old.interrupted t g none handler ret 127).cs)
    (hss : left.ss = (old.interrupted t g none handler ret 127).ss)
    (hesp : left.esp = (old.interrupted t g none handler ret 127).esp + 4)
    (hd : Dispatched tid ((old.interrupted t g none handler ret 127).esp + 8) 17
      (old.interrupted t g none handler ret 127).mem left.mem) :
    ∃ v, (left.leaveStub gdt).toContext = { old.toContext with eax := v } ∧
      (v = -1 ∧ (old.eax = 0 ∨ 4 < old.eax) ∨
        ∃ s, syscallDispatcher (regsAt (old.interrupted t g none handler ret 127).mem
            ((old.interrupted t g none handler ret 127).esp + 8)) =
            some (s, [old.ebx, old.ecx, old.edx, old.esi, old.edi]) ∧
          (s = .gettid ∧ old.eax = 1 ∧ v = tid ∨ s = .yield ∧ old.eax = 2 ∧ v = 0 ∨
            s = .rpl3test ∧ old.eax = 4 ∧ v = 0)) := by
  obtain ⟨mem₁, v, hresult, hwords, hmem⟩ := hd
  have hnumber : old.aboveNumber none 127 = 4 := aboveNumber_of_kernel rfl hcpl
  rw [interrupted_esp_add] at hresult hwords hmem ⊢
  rw [show 17 = old.aboveNumber none 127 + 13 by rw [hnumber]] at hwords
  have hsaved : (old.interrupted t g none handler ret 127).mem.popWords (old.regsAddr t none 127)
      (old.aboveNumber none 127 + 13) = (old.savedWords t none 127).reverse :=
    popWords_interrupted hroom
  obtain ⟨above, hregs⟩ := regsAt_of_words rfl hsaved
  have hcases := syscallResult_cases hresult
  rw [hregs] at hcases ⊢
  exact ⟨v, interrupt_result rfl hcpl hroom hgate hcs hss hesp hwords hmem, hcases⟩

/-- A system call from the kernel: the function gets the registers of the caller as arguments, and
the caller goes on behind the instruction with the result in `eax` and all other registers as they
were. `sys_exit` does not come back. -/
theorem system_call {tid : U32} (hcpl : old.cpl = 0) (hroom : old.HasRoom t)
    (hint : old.softInt (idtInit isr irq) t 0x7f handler ret = some entered)
    (hcs : left.cs = entered.cs) (hss : left.ss = entered.ss) (hesp : left.esp = entered.esp + 4)
    (hd : Dispatched tid (entered.esp + 8) 17 entered.mem left.mem) :
    ∃ v, (left.leaveStub gdt).toContext = { old.toContext with eip := old.eip + 2, eax := v } ∧
      (v = -1 ∧ (old.eax = 0 ∨ 4 < old.eax) ∨
        ∃ s, syscallDispatcher (regsAt entered.mem (entered.esp + 8)) =
            some (s, [old.ebx, old.ecx, old.edx, old.esi, old.edi]) ∧
          (s = .gettid ∧ old.eax = 1 ∧ v = tid ∨ s = .yield ∧ old.eax = 2 ∧ v = 0 ∨
            s = .rpl3test ∧ old.eax = 4 ∧ v = 0)) := by
  rw [softInt_of_kernel hcpl] at hint
  cases hint
  have hcpl' : (old.skip 2).cpl = 0 := hcpl
  exact dispatched_context hcpl' hroom rfl hcs hss hesp hd

end Cpu

/-! ## Calls -/

/-- The addresses of the stubs. -/
def isrStub (n : Nat) : U32 := 0xc0101000 + .ofNat 32 (16 * n)

def irqStub (n : Nat) : U32 := isrStub (32 + n)

/-- The user task tries `int 0x7f` once. -/
def faultEntry : Cpu :=
  userCpu.interrupted kernelTss ⟨isrStub 13, 0x08, 0⟩ (some (gateErrorCode 0x7f)) 0xc0102000
    0xc0101800 13

def faultLeft : Cpu := { faultEntry with esp := faultEntry.esp + 4 }

theorem softInt_userCpu :
    userCpu.softInt (idtInit isrStub irqStub) kernelTss 0x7f 0xc0102000 0xc0101800 =
      some faultEntry :=
  Cpu.softInt_of_user (by decide)

theorem user_int_stuck_once :
    (faultLeft.leaveStub kernelGdt).toContext = userCpu.toContext ∧
      ∀ t handler ret entered, (faultLeft.leaveStub kernelGdt).HasRoom t →
        (faultLeft.leaveStub kernelGdt).softInt (idtInit isrStub irqStub) t 0x7f handler ret =
          some entered →
        ∃ above, regsAt entered.mem (entered.mem.read32 (entered.esp + 4)) =
          (faultLeft.leaveStub kernelGdt).savedRegs t (gateErrorCode 0x7f) 13 above :=
  Cpu.user_int_stuck (.round (.nil userCpu) (by unfold Cpu.HasRoom; decide) softInt_userCpu
    (Cpu.leavesFrame_ret faultEntry 19)) (by decide) segmentsOk_userCpu

/-- Code in the kernel that asks for its task identifier. -/
def callerCpu : Cpu := { userCpu with eax := 1, cs := 0x08, ss := 0x10, esp := 0xc0900800 }

def callEntry : Cpu :=
  (callerCpu.skip 2).interrupted kernelTss ⟨isrStub 127, 0x08, 0⟩ none 0xc0102000 0xc0101800 127

def callLeft : Cpu :=
  { callEntry with
    esp := callEntry.esp + 4
    mem := callEntry.mem.write32 (callEntry.esp + 8 + 44) 7 }

theorem softInt_callerCpu :
    callerCpu.softInt (idtInit isrStub irqStub) kernelTss 0x7f 0xc0102000 0xc0101800 =
      some callEntry :=
  Cpu.softInt_of_kernel (by decide)

theorem dispatched_callEntry : Dispatched 7 (callEntry.esp + 8) 17 callEntry.mem callLeft.mem :=
  ⟨callEntry.mem, 7, by decide +kernel, rfl, rfl⟩

theorem system_call_gettid :
    ∃ v, (callLeft.leaveStub kernelGdt).toContext =
        { callerCpu.toContext with eip := callerCpu.eip + 2, eax := v } ∧
      (v = -1 ∧ (callerCpu.eax = 0 ∨ 4 < callerCpu.eax) ∨
        ∃ s, syscallDispatcher (regsAt callEntry.mem (callEntry.esp + 8)) =
            some (s, [callerCpu.ebx, callerCpu.ecx, callerCpu.edx, callerCpu.esi, callerCpu.edi]) ∧
          (s = .gettid ∧ callerCpu.eax = 1 ∧ v = 7 ∨ s = .yield ∧ callerCpu.eax = 2 ∧ v = 0 ∨
            s = .rpl3test ∧ callerCpu.eax = 4 ∧ v = 0)) :=
  Cpu.system_call (by decide) (by unfold Cpu.HasRoom; decide) softInt_callerCpu rfl rfl rfl
    dispatched_callEntry

end PiggyOS
