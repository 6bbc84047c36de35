import PiggyOS.Task.Resume

/-!
# The saved interrupt frame of a new task (`task_create`)

When the creating task has a saved interrupt frame, a copy of it is put on the stack of the new
task and `kstack` is moved down to the copy. `struct context` is then written at `kstack` too, over
the first words of the copy.
-/

namespace PiggyOS

open Infra

/-- `regs_t` -/
structure Regs where
  gs : U32
  fs : U32
  es : U32
  ds : U32
  edi : U32
  esi : U32
  ebp : U32
  esp : U32
  ebx : U32
  edx : U32
  ecx : U32
  eax : U32
  intNo : U32
  errCode : U32
  eip : U32
  cs : U32
  eflags : U32
  useresp : U32
  ss : U32
  deriving DecidableEq, Repr

/-- The `regs_t` at `a`. -/
def regsAt (m : Mem) (a : U32) : Regs where
  gs := m.read32 a
  fs := m.read32 (a + 4)
  es := m.read32 (a + 8)
  ds := m.read32 (a + 12)
  edi := m.read32 (a + 16)
  esi := m.read32 (a + 20)
  ebp := m.read32 (a + 24)
  esp := m.read32 (a + 28)
  ebx := m.read32 (a + 32)
  edx := m.read32 (a + 36)
  ecx := m.read32 (a + 40)
  eax := m.read32 (a + 44)
  intNo := m.read32 (a + 48)
  errCode := m.read32 (a + 52)
  eip := m.read32 (a + 56)
  cs := m.read32 (a + 60)
  eflags := m.read32 (a + 64)
  useresp := m.read32 (a + 68)
  ss := m.read32 (a + 72)

/-- Stores a `regs_t` at `a`. -/
def storeRegs (m : Mem) (a : U32) (r : Regs) : Mem :=
  let m := m.write32 a r.gs
  let m := m.write32 (a + 4) r.fs
  let m := m.write32 (a + 8) r.es
  let m := m.write32 (a + 12) r.ds
  let m := m.write32 (a + 16) r.edi
  let m := m.write32 (a + 20) r.esi
  let m := m.write32 (a + 24) r.ebp
  let m := m.write32 (a + 28) r.esp
  let m := m.write32 (a + 32) r.ebx
  let m := m.write32 (a + 36) r.edx
  let m := m.write32 (a + 40) r.ecx
  let m := m.write32 (a + 44) r.eax
  let m := m.write32 (a + 48) r.intNo
  let m := m.write32 (a + 52) r.errCode
  let m := m.write32 (a + 56) r.eip
  let m := m.write32 (a + 60) r.cs
  let m := m.write32 (a + 64) r.eflags
  let m := m.write32 (a + 68) r.useresp
  m.write32 (a + 72) r.ss

/-- What `task_create` leaves behind: the memory and `t->kstack`. -/
structure BuiltStack where
  mem : Mem
  kstack : U32

/-- The part of `task_create` that copies the frame at `ifr`. -/
def copyFrame (m : Mem) (kstack ifr : U32) : BuiltStack :=
  if ifr ≠ 0 then
    let ifr2 := kstack - sizeofRegs
    let m := storeRegs m ifr2 (regsAt m ifr)
    ⟨m.write32 (ifr2 + 44) 0, ifr2⟩
  else ⟨m, kstack⟩

/-- The part of `task_create` that fills `struct context`. -/
def storeContext (m : Mem) (kstack func : U32) : Mem :=
  let m := m.write32 (kstack + 12) kstack
  let m := m.write32 (kstack + 16) func
  -- enable interrupts
  m.write32 (kstack + 20) 0x202

/-- `task_create` between the answer `stack` of `kmalloc` and `list_insert_front`; `ifr` is
`current_task->ifr`. -/
def buildStack (m : Mem) (stack ifr func : U32) : BuiltStack :=
  let b := copyFrame m (stack + kstackSize - sizeofContext) ifr
  ⟨storeContext b.mem b.kstack func, b.kstack⟩

/-- Where the copy of the frame is put. -/
def copiedFrame (stack : U32) : U32 := stack + kstackSize - sizeofContext - sizeofRegs

/-- What the stack is to hold: the frame, with `eax` 0, and a context that starts `func` with
interrupts enabled, both inside of the stack. -/
structure FrameSurvives (m : Mem) (stack : Region) (ifr func : U32) : Prop where
  frame : regsAt (buildStack m stack.base ifr func).mem (copiedFrame stack.base) =
    { regsAt m ifr with eax := 0 }
  frameInside : stack.Covers (copiedFrame stack.base).toNat sizeofRegs.toNat
  eip : (frameAt (buildStack m stack.base ifr func).mem
    (buildStack m stack.base ifr func).kstack).eip = func
  eflags : (frameAt (buildStack m stack.base ifr func).mem
    (buildStack m stack.base ifr func).kstack).eflags = 0x202
  contextInside : stack.Covers (buildStack m stack.base ifr func).kstack.toNat sizeofContext.toNat

section

variable {m : Mem} {a ifr func : U32} {stack : Region}

/-! ## Words of a frame -/

theorem regsAt_storeRegs (m : Mem) (a : U32) (r : Regs) : regsAt (storeRegs m a r) a = r := by
  unfold regsAt storeRegs
  simp (disch := decide) only [read32_write32_above, read32_write32_word, Mem.read32_write32]

theorem regsAt_write_eax (m : Mem) (a v : U32) :
    regsAt (m.write32 (a + 44) v) a = { regsAt m a with eax := v } := by
  unfold regsAt
  simp (disch := decide) only [read32_write32_above, read32_write32_word, Mem.read32_write32]

/-- The context lies over `ds`, `edi` and `esi`. -/
theorem regsAt_storeContext (m : Mem) (a func : U32) :
    regsAt (storeContext m a func) a = { regsAt m a with ds := a, edi := func, esi := 0x202 } := by
  unfold regsAt storeContext
  simp (disch := decide) only [read32_write32_above, read32_write32_word, Mem.read32_write32]

/-! ## The new stack -/

/-- The stack pointer that the scheduler model gives to the task. -/
theorem buildStack_kstack (m : Mem) (stack ifr func : U32) :
    (buildStack m stack ifr func).kstack = initialKstack stack ifr := by
  unfold buildStack copyFrame initialKstack
  split <;> rfl

theorem buildStack_kstack_of_ne (h : ifr ≠ 0) (m : Mem) (stack func : U32) :
    (buildStack m stack ifr func).kstack = copiedFrame stack := by
  rw [buildStack_kstack, initialKstack, if_pos h]
  rfl

/-- Without a saved frame there is the context only. -/
theorem initStack_eq_buildStack (m : Machine) (t : U32) (stack : Region) (func : U32) :
    m.initStack t stack func = { m with
      mem := (buildStack m.mem stack.base 0 func).mem
      kstack := Function.update m.kstack t (buildStack m.mem stack.base 0 func).kstack
      stackOf := Function.update m.stackOf t (some stack) } := by
  rw [Machine.initStack, buildStack_kstack]
  rfl

theorem buildStack_mem_of_ne (h : ifr ≠ 0) (m : Mem) (stack func : U32) :
    (buildStack m stack ifr func).mem = storeContext
      ((storeRegs m (copiedFrame stack) (regsAt m ifr)).write32 (copiedFrame stack + 44) 0)
      (copiedFrame stack) func := by
  rw [buildStack, copyFrame, if_pos h]
  rfl

/-- What the copy holds in the end. -/
theorem regsAt_buildStack (h : ifr ≠ 0) (m : Mem) (stack func : U32) :
    regsAt (buildStack m stack ifr func).mem (copiedFrame stack) =
      { regsAt m ifr with eax := 0, ds := copiedFrame stack, edi := func, esi := 0x202 } := by
  rw [buildStack_mem_of_ne h, regsAt_storeContext, regsAt_write_eax, regsAt_storeRegs]

theorem frameAt_buildStack (m : Mem) (stack ifr func : U32) :
    (frameAt (buildStack m stack ifr func).mem (buildStack m stack ifr func).kstack).eip = func ∧
      (frameAt (buildStack m stack ifr func).mem
        (buildStack m stack ifr func).kstack).eflags = 0x202 := by
  unfold frameAt buildStack storeContext
  simp (disch := decide) only [read32_write32_word, Mem.read32_write32, and_self]

theorem covers_copiedFrame (hsize : stack.size = kstackSize.toNat) :
    stack.Covers (copiedFrame stack.base).toNat sizeofRegs.toNat := by
  have hfits := stack.fits
  unfold copiedFrame
  simp only [kstackSize, sizeofContext, sizeofRegs] at hsize ⊢
  exact ⟨by bv_omega, by bv_omega⟩

/-! ## The rest of the memory -/

section Apart

variable {r r' : Region}

theorem covers_word {i : U32} (h : r.Covers a.toNat sizeofRegs.toNat) (hi : i.toNat ≤ 72) :
    r.Covers (a + i).toNat 4 :=
  h.add (by simp only [sizeofRegs]; bv_omega) (by decide)

theorem sameOn_storeRegs (hdisj : r.Disjoint r') (h : r.Covers a.toNat sizeofRegs.toNat) (m : Mem)
    (f : Regs) : Mem.SameOn r' m (storeRegs m a f) := by
  have hword (m : Mem) {i : U32} (hi : i.toNat ≤ 72) (v : U32) :
      Mem.SameOn r' m (m.write32 (a + i) v) :=
    Mem.sameOn_write32 hdisj (covers_word h hi) m v
  have hbottom : Mem.SameOn r' m (m.write32 a f.gs) := by
    simpa using hword m (i := 0) (by decide) f.gs
  unfold storeRegs
  -- one store after the other
  repeat refine Mem.SameOn.trans ?_ (hword _ (by decide) _)
  exact hbottom

theorem sameOn_storeContext (hdisj : r.Disjoint r') (h : r.Covers a.toNat sizeofContext.toNat)
    (m : Mem) (func : U32) : Mem.SameOn r' m (storeContext m a func) := by
  have hword (m : Mem) {i : U32} (hi : i.toNat ≤ 20) (v : U32) :
      Mem.SameOn r' m (m.write32 (a + i) v) :=
    Mem.sameOn_write32 hdisj (h.add (by simp only [sizeofContext]; bv_omega) (by decide)) m v
  exact ((hword _ (by decide) _).trans (hword _ (by decide) _)).trans (hword _ (by decide) _)

theorem covers_context (h : r.Covers a.toNat sizeofRegs.toNat) :
    r.Covers a.toNat sizeofContext.toNat :=
  ⟨h.1, Nat.le_trans (Nat.add_le_add_left (by decide) _) h.2⟩

/-- Nothing is stored outside of the new stack. -/
theorem sameOn_buildStack (hsize : stack.size = kstackSize.toNat) (hifr : ifr ≠ 0)
    (hdisj : stack.Disjoint r) (m : Mem) (func : U32) :
    Mem.SameOn r m (buildStack m stack.base ifr func).mem := by
  have hcov := covers_copiedFrame hsize
  rw [buildStack_mem_of_ne hifr]
  exact ((sameOn_storeRegs hdisj hcov m _).trans
    (Mem.sameOn_write32 hdisj (covers_word hcov (by decide)) _ _)).trans
    (sameOn_storeContext hdisj (covers_context hcov) _ _)

/-- The frame that was copied is still there. -/
theorem regsAt_ifr_buildStack (hsize : stack.size = kstackSize.toNat) (hifr : ifr ≠ 0)
    (hdisj : stack.Disjoint r) (hr : r.Covers ifr.toNat sizeofRegs.toNat) (m : Mem) (func : U32) :
    regsAt (buildStack m stack.base ifr func).mem ifr = regsAt m ifr := by
  have hsame := sameOn_buildStack hsize hifr hdisj m func
  have hword {i : U32} (hi : i.toNat ≤ 72) :
      (buildStack m stack.base ifr func).mem.read32 (ifr + i) = m.read32 (ifr + i) :=
    hsame.read32 (covers_word hr hi)
  have hbottom : (buildStack m stack.base ifr func).mem.read32 ifr = m.read32 ifr := by
    simpa using hword (i := 0) (by decide)
  unfold regsAt
  simp (disch := decide) only [hbottom, hword]

end Apart

/-! ## What survives -/

/-- The frame has already what the context puts into it. -/
structure FrameAgrees (f : Regs) (stack func : U32) : Prop where
  ds : f.ds = copiedFrame stack
  edi : f.edi = func
  esi : f.esi = 0x202

/-- The copy is complete just when the context stores what is there already. -/
theorem frameSurvives_iff (m : Mem) (stack : Region) (ifr func : U32)
    (hsize : stack.size = kstackSize.toNat) (hifr : ifr ≠ 0) :
    FrameSurvives m stack ifr func ↔ FrameAgrees (regsAt m ifr) stack.base func := by
  have hframe := regsAt_buildStack hifr m stack.base func
  constructor
  · intro h
    have heq := h.frame.symm.trans hframe
    simp only [Regs.mk.injEq, true_and, and_true] at heq
    exact ⟨heq.1, heq.2.1, heq.2.2⟩
  · rintro ⟨hds, hedi, hesi⟩
    have hcov := covers_copiedFrame hsize
    obtain ⟨heip, heflags⟩ := frameAt_buildStack m stack.base ifr func
    refine ⟨?_, hcov, heip, heflags, ?_⟩
    · rw [hframe, ← hds, ← hedi, ← hesi]
    · rw [buildStack_kstack_of_ne hifr]
      exact covers_context hcov

end

/-- What an interrupt stub of a user task leaves, here for `int 0x80`. -/
def userFrame : Regs where
  gs := 0x23
  fs := 0x23
  es := 0x23
  ds := 0x23
  edi := 1
  esi := 0x8000
  ebp := 0x7ff0
  esp := 0xc0800fec
  ebx := 0
  edx := 12
  ecx := 0
  eax := 2
  intNo := 0x80
  errCode := 0
  eip := 0x1000
  cs := 0x1b
  eflags := 0x202
  useresp := 0x7fe0
  ss := 0x23

/-- The stack that `kmalloc` answers with. -/
def sampleStack : Region := ⟨0xc0900000, 4096, by decide⟩

/-- The memory with a frame at the top of the stack of the running task. -/
def frameMem (f : Regs) : Mem := storeRegs (fun _ => 0) 0xc0800fb4 f

/-- `ds`, `edi` and `esi` of the frame are lost. -/
theorem not_frameSurvives_userFrame :
    ¬ FrameSurvives (frameMem userFrame) sampleStack 0xc0800fb4 0xc0100000 := by
  intro h
  have hds := congrArg Regs.ds
    (h.frame.symm.trans (regsAt_buildStack (by decide) _ sampleStack.base 0xc0100000))
  rw [frameMem, regsAt_storeRegs] at hds
  exact absurd hds (by decide)

theorem frameSurvives_frameMem :
    FrameSurvives (frameMem { userFrame with ds := 0xc0900f9c, edi := 0xc0100000, esi := 0x202 })
      sampleStack 0xc0800fb4 0xc0100000 := by
  refine (frameSurvives_iff _ sampleStack 0xc0800fb4 0xc0100000 rfl (by decide)).mpr ?_
  rw [frameMem, regsAt_storeRegs]
  exact ⟨rfl, rfl, rfl⟩

end PiggyOS
