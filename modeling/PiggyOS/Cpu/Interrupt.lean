import PiggyOS.Cpu.DescTbls
import PiggyOS.Infra.Stack
import PiggyOS.Task.Frame

/-!
# Interrupts (`interrupt.asm`)

The processor pushes where it was and enters a stub, the stub pushes the rest of the registers and
calls `isr_handler` or `irq_handler` with the address of what lies on the stack, a `regs_t`. When
the handler returns, the stub pops everything and leaves with `iret`.
-/

namespace PiggyOS

open Infra

/-- The registers of the processor that a task sees. -/
structure Context where
  eax : U32
  ebx : U32
  ecx : U32
  edx : U32
  esi : U32
  edi : U32
  ebp : U32
  esp : U32
  eip : U32
  eflags : U32
  cs : BitVec 16
  ss : BitVec 16
  ds : BitVec 16
  es : BitVec 16
  fs : BitVec 16
  gs : BitVec 16
  deriving DecidableEq

/-- The registers and the memory. -/
structure Cpu extends Context where
  mem : Mem

namespace Cpu

variable (m : Cpu)

/-- The current privilege level. -/
def cpl : BitVec 2 := m.cs.extractLsb' 0 2

/-! ## Instructions -/

/-- `push` -/
def push (v : U32) : Cpu := { m with esp := m.esp - 4, mem := m.mem.write32 (m.esp - 4) v }

/-- `push` of a segment register -/
def pushSeg (v : BitVec 16) : Cpu := m.push (v.setWidth 32)

/-- The word that `pop` takes. -/
def top : U32 := m.mem.read32 m.esp

/-- The rest of `pop`. -/
def drop : Cpu := { m with esp := m.esp + 4 }

/-- `pusha` -/
def pusha : Cpu :=
  let esp := m.esp
  (((((((m.push m.eax).push m.ecx).push m.edx).push m.ebx).push esp).push m.ebp).push m.esi).push
    m.edi

/-- `popa`; the word for `esp` is skipped. -/
def popa : Cpu :=
  let m := { m.drop with edi := m.top }
  let m := { m.drop with esi := m.top }
  let m := { m.drop with ebp := m.top }
  let m := m.drop
  let m := { m.drop with ebx := m.top }
  let m := { m.drop with edx := m.top }
  let m := { m.drop with ecx := m.top }
  { m.drop with eax := m.top }

/-- What a return to the level `cpl` makes of a data segment register: the processor clears it if
the segment is for more privileged code only. -/
def checkedSelector (gdt : Gdt) (cpl : BitVec 2) (sel : BitVec 16) : BitVec 16 :=
  if sel >>> 3 = 0 ∨ (gdt.segment sel).conforming ∨ cpl ≤ (gdt.segment sel).dpl then sel else 0

/-- `iret` in the kernel. -/
def iret (gdt : Gdt) : Cpu :=
  let cpl := m.cpl
  let m := { m.drop with eip := m.top }
  let m := { m.drop with cs := m.top.setWidth 16 }
  let m := { m.drop with eflags := m.top }
  -- back to less privileged code
  if cpl < m.cpl then
    { m with
      esp := m.top
      ss := m.drop.top.setWidth 16
      ds := checkedSelector gdt m.cpl m.ds
      es := checkedSelector gdt m.cpl m.es
      fs := checkedSelector gdt m.cpl m.fs
      gs := checkedSelector gdt m.cpl m.gs }
  else m

/-! ## Entry -/

/-- The flags that an interrupt gate clears: TF, IF, NT, RF and VM. -/
def gateFlags : U32 := 0x34300

/-- The stack that an interrupt goes to: less privileged code is left for the stack in the TSS. -/
def interruptStack (t : Tss) : U32 := if m.cpl = 0 then m.esp else t.esp0

/-- The processor enters the kernel through a gate; some exceptions have an error code. The bit RF,
which faults set in the saved flags, is left out. -/
def deliver (t : Tss) (g : Gate) (code : Option U32) : Cpu :=
  let old := m
  let m := if old.cpl = 0 then old
    else ({ old with ss := t.ss0, esp := t.esp0 }.pushSeg old.ss).push old.esp
  let m := ((m.push old.eflags).pushSeg old.cs).push old.eip
  let m := match code with
    | some c => m.push c
    | none => m
  { m with eip := g.offset, cs := g.selector, eflags := old.eflags &&& ~~~gateFlags }

/-- The kernel data segment is loaded into the data segment registers. -/
def loadKernelData : Cpu := { m with ds := 0x10, es := 0x10, fs := 0x10, gs := 0x10 }

/-- `mov eax, v` -/
def setEax (v : U32) : Cpu := { m with eax := v }

/-- `call` and jumps -/
def setEip (v : U32) : Cpu := { m with eip := v }

/-- `handle_isr_common` and `handle_irq_common`, up to the first instruction of `isr_handler` or
`irq_handler`; `ret` is the address behind the `call`. -/
def handleCommon (handler ret : U32) : Cpu :=
  let m := m.pusha
  let m := (((m.pushSeg m.ds).pushSeg m.es).pushSeg m.fs).pushSeg m.gs
  let m := m.loadKernelData
  let m := m.setEax m.esp
  let m := m.push m.eax
  let m := m.setEax handler
  (m.push ret).setEip handler

/-- The stubs that are declared with `ISR_ERROR_CODE`. -/
def errorCodeStub (n : Nat) : Bool := n = 8 || (10 ≤ n && n ≤ 14)

/-- The stub of the vector `n`: `ISR_ERROR_CODE`, `ISR_NO_ERROR_CODE` or `IRQ`. -/
def stub (handler ret : U32) (n : Nat) : Cpu :=
  let m := if errorCodeStub n then m else m.push 0
  (m.push (.ofNat 32 n)).handleCommon handler ret

/-- The vectors for which the processor pushes an error code: the stubs of 17, 21, 29 and 30 are
declared without one. -/
def errorCodeVector (n : Nat) : Bool := errorCodeStub n || n = 17 || n = 21 || n = 29 || n = 30

/-- The processor is interrupted by the vector `n` and has come to the handler. -/
def interrupted (t : Tss) (g : Gate) (code : Option U32) (handler ret : U32) (n : Nat) : Cpu :=
  (m.deliver t g code).stub handler ret n

/-- What the stub does once the handler has returned to it. -/
def leaveStub (gdt : Gdt) : Cpu :=
  let m := { m.drop with eax := m.top }
  let m := { m.drop with gs := m.top.setWidth 16 }
  let m := { m.drop with fs := m.top.setWidth 16 }
  let m := { m.drop with es := m.top.setWidth 16 }
  let m := { m.drop with ds := m.top.setWidth 16 }
  let m := m.popa
  -- skip error code and the interrupt number
  let m := { m with esp := m.esp + 8 }
  m.iret gdt

/-! ## What is pushed -/

open Mem

/-- The words of a list are pushed, the first one first. -/
def pushes (ws : List U32) : Cpu :=
  { m with esp := below m.esp ws.length, mem := m.mem.pushWords m.esp ws }

/-- What the processor pushes for less privileged code only. -/
def outerWords : List U32 := if m.cpl = 0 then [] else [m.ss.setWidth 32, m.esp]

/-- The error code with the dummy of the stub; there is one word if the stub agrees with the
processor. -/
def errorWords (code : Option U32) (n : Nat) : List U32 :=
  code.toList ++ if errorCodeStub n then [] else [0]

/-- How many words there are above the interrupt number. -/
def aboveNumber (code : Option U32) (n : Nat) : Nat :=
  m.outerWords.length + 3 + (errorWords code n).length

/-- The words of the `regs_t` of an interrupt, the first one pushed first. -/
def savedWords (t : Tss) (code : Option U32) (n : Nat) : List U32 :=
  m.outerWords ++ [m.eflags, m.cs.setWidth 32, m.eip] ++ errorWords code n ++
    [.ofNat 32 n, m.eax, m.ecx, m.edx, m.ebx, below (m.interruptStack t) (m.aboveNumber code n + 1),
      m.ebp, m.esi, m.edi, m.ds.setWidth 32, m.es.setWidth 32, m.fs.setWidth 32, m.gs.setWidth 32]

/-- Where the `regs_t` lies. -/
def regsAddr (t : Tss) (code : Option U32) (n : Nat) : U32 :=
  below (m.interruptStack t) (m.aboveNumber code n + 13)

/-- The processor in the kernel, with nothing pushed yet. -/
def inKernel (t : Tss) (g : Gate) : Cpu :=
  { m with
    esp := m.interruptStack t
    eip := g.offset
    eflags := m.eflags &&& ~~~gateFlags
    cs := g.selector
    ss := if m.cpl = 0 then m.ss else t.ss0 }

section Pushes

variable {m} {ws vs : List U32} {v : U32} {t : Tss} {g : Gate} {code : Option U32}
  {handler ret : U32} {n : Nat}

theorem push_eq : m.push v = m.pushes [v] := by
  unfold push pushes
  rw [List.length_singleton, below_succ, below_zero]
  rfl

theorem pushes_pushes : (m.pushes ws).pushes vs = m.pushes (ws ++ vs) := by
  unfold pushes
  rw [pushWords_append, List.length_append, ← below_add]

@[simp] theorem pushes_eax : (m.pushes ws).eax = m.eax := rfl
@[simp] theorem pushes_ebx : (m.pushes ws).ebx = m.ebx := rfl
@[simp] theorem pushes_ecx : (m.pushes ws).ecx = m.ecx := rfl
@[simp] theorem pushes_edx : (m.pushes ws).edx = m.edx := rfl
@[simp] theorem pushes_esi : (m.pushes ws).esi = m.esi := rfl
@[simp] theorem pushes_edi : (m.pushes ws).edi = m.edi := rfl
@[simp] theorem pushes_ebp : (m.pushes ws).ebp = m.ebp := rfl
@[simp] theorem pushes_esp : (m.pushes ws).esp = below m.esp ws.length := rfl
@[simp] theorem pushes_ds : (m.pushes ws).ds = m.ds := rfl
@[simp] theorem pushes_es : (m.pushes ws).es = m.es := rfl
@[simp] theorem pushes_fs : (m.pushes ws).fs = m.fs := rfl
@[simp] theorem pushes_gs : (m.pushes ws).gs = m.gs := rfl

theorem loadKernelData_pushes : (m.pushes ws).loadKernelData = m.loadKernelData.pushes ws := rfl

theorem setEax_pushes : (m.pushes ws).setEax v = (m.setEax v).pushes ws := rfl

theorem setEip_pushes : (m.pushes ws).setEip v = (m.setEip v).pushes ws := rfl

theorem pusha_eq : m.pusha = m.pushes [m.eax, m.ecx, m.edx, m.ebx, m.esp, m.ebp, m.esi, m.edi] := by
  simp only [pusha, push_eq, pushes_pushes]
  rfl

/-- What the common part of the stubs pushes, the call included. -/
theorem handleCommon_eq : m.handleCommon handler ret =
    ((m.loadKernelData.setEax handler).setEip handler).pushes
      [m.eax, m.ecx, m.edx, m.ebx, m.esp, m.ebp, m.esi, m.edi, m.ds.setWidth 32, m.es.setWidth 32,
        m.fs.setWidth 32, m.gs.setWidth 32, below m.esp 12, ret] := by
  simp only [handleCommon, pusha_eq, pushSeg, push_eq, pushes_pushes, loadKernelData_pushes,
    setEax_pushes, pushes_ds, pushes_es, pushes_fs, pushes_gs]
  rfl

theorem deliver_eq : m.deliver t g code = (m.inKernel t g).pushes
    (m.outerWords ++ [m.eflags, m.cs.setWidth 32, m.eip] ++ code.toList) := by
  unfold deliver inKernel outerWords interruptStack
  by_cases hcpl : m.cpl = 0
  · cases code <;> simp only [hcpl, if_true, pushSeg, push_eq, pushes_pushes] <;> rfl
  · cases code <;> simp only [hcpl, if_false, pushSeg, push_eq, pushes_pushes] <;> rfl

/-- Where the processor is when it comes to the handler, and what lies on the stack. -/
theorem interrupted_eq : m.interrupted t g code handler ret n =
    (((m.inKernel t g).loadKernelData.setEax handler).setEip handler).pushes
      (m.savedWords t code n ++ [m.regsAddr t code n, ret]) := by
  have hstub : (if errorCodeStub n then m.deliver t g code else (m.deliver t g code).push 0) =
      (m.inKernel t g).pushes
        (m.outerWords ++ [m.eflags, m.cs.setWidth 32, m.eip] ++ errorWords code n) := by
    rw [deliver_eq, errorWords]
    split
    · simp
    · rw [push_eq, pushes_pushes, List.append_assoc]
  have hlen : (m.outerWords ++ m.eflags :: m.cs.setWidth 32 :: m.eip ::
      (errorWords code n ++ [BitVec.ofNat 32 n])).length = m.aboveNumber code n + 1 := by
    simp only [aboveNumber, List.length_append, List.length_cons, List.length_nil]
    omega
  rw [interrupted, stub, hstub, push_eq, pushes_pushes, handleCommon_eq]
  simp only [loadKernelData_pushes, setEax_pushes, setEip_pushes, pushes_pushes, pushes_esp, hlen,
    below_add, savedWords, regsAddr, List.append_assoc, List.cons_append, List.nil_append]
  rfl

end Pushes

/-! ## What the handler finds -/

/-- The words of a `regs_t`, lowest address first. -/
def regsWords (r : Regs) : List U32 :=
  [r.gs, r.fs, r.es, r.ds, r.edi, r.esi, r.ebp, r.esp, r.ebx, r.edx, r.ecx, r.eax, r.intNo,
    r.errCode, r.eip, r.cs, r.eflags, r.useresp, r.ss]

/-- The `regs_t` of an interrupt. The last two words are pushed for less privileged code only; for
an interrupt in the kernel they are what was on the stack, here `above`. -/
def savedRegs (t : Tss) (code : U32) (n : Nat) (above : U32 × U32) : Regs where
  gs := m.gs.setWidth 32
  fs := m.fs.setWidth 32
  es := m.es.setWidth 32
  ds := m.ds.setWidth 32
  edi := m.edi
  esi := m.esi
  ebp := m.ebp
  esp := below (m.interruptStack t) (m.outerWords.length + 5)
  ebx := m.ebx
  edx := m.edx
  ecx := m.ecx
  eax := m.eax
  intNo := .ofNat 32 n
  errCode := code
  eip := m.eip
  cs := m.cs.setWidth 32
  eflags := m.eflags
  useresp := if m.cpl = 0 then above.1 else m.esp
  ss := if m.cpl = 0 then above.2 else m.ss.setWidth 32

/-- The stack has room for what an interrupt pushes until the handler runs. -/
def HasRoom (t : Tss) : Prop := 88 ≤ (m.interruptStack t).toNat

theorem regsWords_injective : Function.Injective regsWords := by
  intro r r' h
  cases r
  cases r'
  simpa [regsWords] using h

theorem regsWords_regsAt (mem : Mem) (a : U32) : regsWords (regsAt mem a) = mem.popWords a 19 := by
  simp only [regsWords, regsAt, popWords, BitVec.add_assoc]
  rfl

section Frame

variable {m} {t : Tss} {g : Gate} {code : Option U32} {handler ret : U32} {n : Nat}

theorem length_outerWords_le : m.outerWords.length ≤ 2 := by
  unfold outerWords
  split <;> simp

theorem length_errorWords_le : (errorWords code n).length ≤ 2 := by
  unfold errorWords
  cases code <;> cases errorCodeStub n <;> simp

/-- The stub pushes a dummy just when the processor pushes no error code. -/
theorem errorWords_eq (h : code.isSome = errorCodeStub n) : errorWords code n = [code.getD 0] := by
  rw [errorWords, ← h]
  cases code <;> rfl

@[simp] theorem length_savedWords : (m.savedWords t code n).length = m.aboveNumber code n + 13 := by
  simp only [savedWords, aboveNumber, List.length_append, List.length_cons, List.length_nil]

theorem interrupted_esp : (m.interrupted t g code handler ret n).esp =
    below (m.regsAddr t code n) 2 := by
  rw [interrupted_eq, pushes_esp, List.length_append, length_savedWords, regsAddr, below_add]
  rfl

theorem interrupted_mem : (m.interrupted t g code handler ret n).mem =
    (m.mem.pushWords (m.interruptStack t) (m.savedWords t code n)).pushWords
      (m.regsAddr t code n) [m.regsAddr t code n, ret] := by
  rw [interrupted_eq]
  show m.mem.pushWords (m.interruptStack t) _ = _
  rw [pushWords_append, length_savedWords, regsAddr]

theorem aboveNumber_le : m.aboveNumber code n ≤ 7 :=
  Nat.add_le_add (Nat.add_le_add_right length_outerWords_le 3) length_errorWords_le

theorem toNat_regsAddr (code : Option U32) (n : Nat) (hroom : m.HasRoom t) :
    (m.regsAddr t code n).toNat = (m.interruptStack t).toNat - 4 * (m.aboveNumber code n + 13) := by
  have hle : m.aboveNumber code n ≤ 7 := aboveNumber_le
  unfold HasRoom at hroom
  exact toNat_below (by omega)

/-- What was pushed below the stack of the interrupted code. -/
theorem popWords_interrupted (hroom : m.HasRoom t) :
    (m.interrupted t g code handler ret n).mem.popWords (m.regsAddr t code n)
      (m.aboveNumber code n + 13) = (m.savedWords t code n).reverse := by
  have hle : m.aboveNumber code n ≤ 7 := aboveNumber_le
  have haddr := toNat_regsAddr code n hroom
  have hlt := (m.interruptStack t).isLt
  unfold HasRoom at hroom
  have hlen : 4 * [m.regsAddr t code n, ret].length ≤ (m.regsAddr t code n).toNat := by
    simp only [List.length_cons, List.length_nil]
    omega
  rw [interrupted_mem, popWords_pushWords_above hlen (by omega), regsAddr,
    ← length_savedWords (t := t)]
  exact popWords_pushWords (by rw [length_savedWords]; omega)

/-- The argument of the handler. -/
theorem arg_interrupted (hroom : m.HasRoom t) :
    (m.interrupted t g code handler ret n).mem.read32
      ((m.interrupted t g code handler ret n).esp + 4) = m.regsAddr t code n := by
  have hle : m.aboveNumber code n ≤ 7 := aboveNumber_le
  have haddr := toNat_regsAddr code n hroom
  unfold HasRoom at hroom
  have hwords := @popWords_pushWords (m.mem.pushWords (m.interruptStack t) (m.savedWords t code n))
    (m.regsAddr t code n) [m.regsAddr t code n, ret] (by
      simp only [List.length_cons, List.length_nil]
      omega)
  rw [interrupted_esp, interrupted_mem]
  exact (List.cons.inj (List.cons.inj hwords).2).1

/-- Words that are as the stub has pushed them make up the `regs_t`. -/
theorem regsAt_of_words {mem : Mem} {a : U32} (hcode : code.isSome = errorCodeStub n)
    (h : mem.popWords a (m.aboveNumber code n + 13) = (m.savedWords t code n).reverse) :
    ∃ above, regsAt mem a = m.savedRegs t (code.getD 0) n above := by
  have herror := errorWords_eq hcode
  by_cases hcpl : m.cpl = 0
  · have hnil : m.outerWords = [] := if_pos hcpl
    have hnumber : m.aboveNumber code n = 4 := by rw [aboveNumber, hnil, herror]; rfl
    refine ⟨(mem.read32 (a + 68), mem.read32 (a + 68 + 4)), regsWords_injective ?_⟩
    rw [hnumber] at h
    rw [regsWords_regsAt, popWords_add _ _ 17 2, h]
    simp only [savedWords, regsWords, savedRegs, hnil, herror, hnumber, if_pos hcpl]
    rfl
  · have hpair : m.outerWords = [m.ss.setWidth 32, m.esp] := if_neg hcpl
    have hnumber : m.aboveNumber code n = 6 := by rw [aboveNumber, hpair, herror]; rfl
    refine ⟨(0, 0), regsWords_injective ?_⟩
    rw [hnumber] at h
    rw [regsWords_regsAt, h]
    simp only [savedWords, regsWords, savedRegs, hpair, herror, hnumber, if_neg hcpl]
    rfl

/-- Whatever the processor was doing, and at whichever level, the handler finds all of its
registers in the `regs_t` that its argument points to, with the number of the interrupt. -/
theorem handler_argument (hcode : code.isSome = errorCodeStub n) (hroom : m.HasRoom t) :
    ∃ above, regsAt (m.interrupted t g code handler ret n).mem
      ((m.interrupted t g code handler ret n).mem.read32
        ((m.interrupted t g code handler ret n).esp + 4)) =
      m.savedRegs t (code.getD 0) n above := by
  rw [arg_interrupted hroom]
  exact regsAt_of_words hcode (popWords_interrupted hroom)

end Frame

/-! ## Return -/

/-- The data segment registers hold what the processor lets code of this level have in them. -/
def SegmentsOk (gdt : Gdt) : Prop :=
  ∀ sel ∈ [m.ds, m.es, m.fs, m.gs], checkedSelector gdt m.cpl sel = sel

/-- A handler that was entered in the state `entered` has returned in the state `m`, and the `k`
words that its argument points to are as they were. It may have changed all other memory, its
argument included, and the general registers. -/
structure LeavesFrame (entered : Cpu) (k : Nat) : Prop where
  cs : m.cs = entered.cs
  ss : m.ss = entered.ss
  esp : m.esp = entered.esp + 4
  words : m.mem.popWords (entered.esp + 8) k = entered.mem.popWords (entered.esp + 8) k

/-- The general registers and the data segment registers, taken from a `regs_t`. -/
def popRegs (r : Regs) : Cpu :=
  { m with
    eax := r.eax
    ebx := r.ebx
    ecx := r.ecx
    edx := r.edx
    esi := r.esi
    edi := r.edi
    ebp := r.ebp
    ds := r.ds.setWidth 16
    es := r.es.setWidth 16
    fs := r.fs.setWidth 16
    gs := r.gs.setWidth 16 }

/-- `iret` with the last words of a `regs_t` on the stack. -/
def iretRegs (gdt : Gdt) (r : Regs) : Cpu :=
  let cpl := m.cpl
  let m := { m with eip := r.eip, cs := r.cs.setWidth 16, eflags := r.eflags }
  if cpl < m.cpl then
    { m with
      esp := r.useresp
      ss := r.ss.setWidth 16
      ds := checkedSelector gdt m.cpl m.ds
      es := checkedSelector gdt m.cpl m.es
      fs := checkedSelector gdt m.cpl m.fs
      gs := checkedSelector gdt m.cpl m.gs }
  else m

theorem popa_eq : m.popa =
    { m with
      edi := m.mem.read32 m.esp
      esi := m.mem.read32 (m.esp + 4)
      ebp := m.mem.read32 (m.esp + 8)
      ebx := m.mem.read32 (m.esp + 16)
      edx := m.mem.read32 (m.esp + 20)
      ecx := m.mem.read32 (m.esp + 24)
      eax := m.mem.read32 (m.esp + 28)
      esp := m.esp + 32 } := by
  simp only [popa, drop, top, BitVec.add_assoc]
  rfl

theorem iret_eq {gdt : Gdt} {a : U32} (h : m.esp = a + 56) : m.iret gdt =
    { m with esp := a + 68 }.iretRegs gdt (regsAt m.mem a) := by
  simp only [iret, iretRegs, drop, top, regsAt, h, BitVec.add_assoc]
  rfl

/-- The stub loads the registers from the `regs_t`. -/
theorem leaveStub_eq (gdt : Gdt) {a : U32} (h : m.esp + 4 = a) : m.leaveStub gdt =
    { m.popRegs (regsAt m.mem a) with esp := a + 68 }.iretRegs gdt (regsAt m.mem a) := by
  have hpops : m.leaveStub gdt =
      { m.popRegs (regsAt m.mem (m.esp + 4)) with esp := m.esp + 60 }.iret gdt := by
    simp only [leaveStub, popa_eq, drop, top, regsAt, popRegs, BitVec.add_assoc]
    rfl
  have hesp : m.esp + 60 = a + 56 := by
    rw [← h]
    bv_omega
  rw [hpops, h, iret_eq _ hesp]
  rfl

section Return

variable {m} {old entered : Cpu} {t : Tss} {g : Gate} {gdt : Gdt} {code : Option U32}
  {handler ret : U32} {n k : Nat}

theorem leaveStub_mem (m : Cpu) (gdt : Gdt) : (m.leaveStub gdt).mem = m.mem := by
  rw [leaveStub_eq m gdt rfl]
  unfold iretRegs
  dsimp only
  split <;> rfl

theorem setWidth_selector (sel : BitVec 16) : (sel.setWidth 32).setWidth 16 = sel := by
  rw [BitVec.setWidth_setWidth_of_le _ (by decide), BitVec.setWidth_eq]

theorem interrupted_cs : (old.interrupted t g code handler ret n).cs = g.selector := by
  rw [interrupted_eq]
  rfl

theorem interrupted_ss : (old.interrupted t g code handler ret n).ss =
    if old.cpl = 0 then old.ss else t.ss0 := by
  rw [interrupted_eq]
  rfl

/-- Where the `regs_t` lies, seen from the stack pointer. -/
theorem interrupted_esp_add (old : Cpu) (t : Tss) (g : Gate) (code : Option U32)
    (handler ret : U32) (n : Nat) : (old.interrupted t g code handler ret n).esp + 8 =
    old.regsAddr t code n := by
  rw [interrupted_esp]
  exact BitVec.sub_add_cancel ..

theorem aboveNumber_of_kernel (hcode : code.isSome = errorCodeStub n) (hcpl : old.cpl = 0) :
    old.aboveNumber code n = 4 := by
  rw [aboveNumber, errorWords_eq hcode, outerWords, if_pos hcpl]
  rfl

theorem aboveNumber_of_user (hcode : code.isSome = errorCodeStub n) (hcpl : old.cpl ≠ 0) :
    old.aboveNumber code n = 6 := by
  rw [aboveNumber, errorWords_eq hcode, outerWords, if_neg hcpl]
  rfl

/-- The words of the stack above the `regs_t` of an interrupt in the kernel. -/
theorem regsAddr_add_of_kernel (hcode : code.isSome = errorCodeStub n) (hcpl : old.cpl = 0) :
    old.regsAddr t code n + 68 = old.esp := by
  rw [regsAddr, aboveNumber_of_kernel hcode hcpl, interruptStack, if_pos hcpl]
  exact BitVec.sub_add_cancel ..

/-- A `regs_t` that holds the registers of the interrupted code brings them back; `ss` is loaded
for less privileged code only. -/
theorem leaveStub_context {above : U32 × U32} {c : U32}
    (hregs : regsAt m.mem (m.esp + 4) = old.savedRegs t c n above) (hcpl : m.cpl = 0)
    (hkernel : old.cpl = 0 → m.esp + 4 + 68 = old.esp) (hseg : old.SegmentsOk gdt) :
    (m.leaveStub gdt).toContext =
      { old.toContext with ss := if old.cpl = 0 then m.ss else old.ss } := by
  have hcs : ((old.savedRegs t c n above).cs.setWidth 16).extractLsb' 0 2 = old.cpl :=
    congrArg (BitVec.extractLsb' 0 2) (setWidth_selector old.cs)
  rw [leaveStub_eq m gdt rfl, hregs]
  by_cases hold : old.cpl = 0
  · have hesp := hkernel hold
    have hsame : ¬ m.cpl < ((old.savedRegs t c n above).cs.setWidth 16).extractLsb' 0 2 := by
      rw [hcs, hold]
      exact BitVec.not_lt_zero
    refine (congrArg Cpu.toContext (if_neg hsame)).trans ?_
    simp only [popRegs, savedRegs, setWidth_selector, hesp, if_pos hold]
  · have hless : m.cpl < ((old.savedRegs t c n above).cs.setWidth 16).extractLsb' 0 2 := by
      rw [hcs, hcpl]
      exact BitVec.lt_def.mpr (Nat.pos_of_ne_zero fun h => hold (BitVec.eq_of_toNat_eq h))
    have hcheck : ∀ sel ∈ [old.ds, old.es, old.fs, old.gs],
        checkedSelector gdt (old.cs.extractLsb' 0 2) sel = sel := hseg
    refine (congrArg Cpu.toContext (if_pos hless)).trans ?_
    simp only [popRegs, savedRegs, setWidth_selector, if_neg hold]
    unfold cpl
    rw [hcheck old.ds (by simp), hcheck old.es (by simp), hcheck old.fs (by simp),
      hcheck old.gs (by simp)]

/-- Whatever a handler does to the registers, if it leaves its `regs_t` alone, then the processor
goes on after the interrupt with all of the registers it had. -/
theorem interrupt_round_trip (hcode : code.isSome = errorCodeStub n) (hroom : old.HasRoom t)
    (hgate : g.selector = 0x08) (hseg : old.SegmentsOk gdt)
    (h : m.LeavesFrame (old.interrupted t g code handler ret n) (old.aboveNumber code n + 13)) :
    (m.leaveStub gdt).toContext = old.toContext := by
  have hesp : m.esp + 4 = old.regsAddr t code n := by
    rw [h.esp, ← interrupted_esp_add old t g _ handler ret, BitVec.add_assoc]
    rfl
  have hwords := h.words
  rw [interrupted_esp_add, popWords_interrupted hroom] at hwords
  obtain ⟨above, hregs⟩ := regsAt_of_words hcode hwords
  have hcpl : m.cpl = 0 := by
    rw [Cpu.cpl, h.cs, interrupted_cs, hgate]
    decide
  have hcontext := leaveStub_context (hesp ▸ hregs) hcpl
    (fun hold => by rw [hesp, regsAddr_add_of_kernel hcode hold]) hseg
  have hss : (if old.cpl = 0 then m.ss else old.ss) = old.ss := by
    split
    · rename_i hold
      rw [h.ss, interrupted_ss, if_pos hold]
    · rfl
  rw [hcontext, hss]

/-- Code in the kernel may have any selector in the data segment registers. -/
theorem segmentsOk_of_kernel (h : m.cpl = 0) : m.SegmentsOk gdt := by
  intro sel _
  rw [checkedSelector, h]
  exact if_pos (Or.inr (Or.inr (BitVec.le_def.mpr (Nat.zero_le _))))

/-- A handler that returns at once. -/
theorem leavesFrame_ret (entered : Cpu) (k : Nat) :
    { entered with esp := entered.esp + 4 }.LeavesFrame entered k := ⟨rfl, rfl, rfl, rfl⟩

end Return

end Cpu

/-- Code of a user task, with the selectors that `switch_to_user` loads. -/
def userCpu : Cpu where
  eax := 4
  ebx := 1
  ecx := 2
  edx := 3
  esi := 5
  edi := 6
  ebp := 0x7ff0
  esp := 0x7fe0
  eip := 0x1000
  eflags := 0x202
  cs := 0x1b
  ss := 0x23
  ds := 0x23
  es := 0x23
  fs := 0x23
  gs := 0x23
  mem := fun _ => 0

/-- The tables of a running kernel whose current task has its stack at 0xc0900000. -/
def kernelGdt : Gdt := gdtInit fun _ => ⟨0, 0, 0, 0, 0, 0⟩

def kernelTss : Tss := tssAfter 0 [0xc0901000]

/-- The timer interrupts a user task. -/
def timerGate : Gate := ⟨0xc0101000, 0x08, 0⟩

def timerEntry : Cpu := userCpu.interrupted kernelTss timerGate none 0xc0102000 0xc0101040 32

theorem segmentsOk_userCpu : userCpu.SegmentsOk kernelGdt := by
  have huser : Cpu.checkedSelector kernelGdt 3 0x23 = 0x23 := by decide
  intro sel hsel
  have hsel : sel = 0x23 := by simpa [userCpu] using hsel
  rw [hsel]
  exact huser

end PiggyOS
