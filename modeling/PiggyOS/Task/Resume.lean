import PiggyOS.Task.Switch

/-!
# A task that is resumed goes on as if its call had returned

A task that called `context_switch` leaves six words on its stack; its stack pointer, kept in the
task, points at the lowest of them. The two halves of `context_switch` are executed symbolically
once (`saveContext_eq`, `restoreContext_eq`); the proofs then follow the words of a task
(`Suspended`) through the steps of the others.
-/

namespace PiggyOS

open Infra

/-! ## The saved words -/

/-- What `context_switch` leaves on the stack, lowest address first. -/
structure SavedFrame where
  ebx : U32
  esi : U32
  edi : U32
  ebp : U32
  eip : U32
  eflags : U32

def frameAt (mem : Mem) (s : U32) : SavedFrame :=
  ⟨mem.read32 s, mem.read32 (s + 4), mem.read32 (s + 8), mem.read32 (s + 12),
    mem.read32 (s + 16), mem.read32 (s + 20)⟩

def writeFrame (mem : Mem) (s : U32) (f : SavedFrame) : Mem :=
  (((((mem.write32 (s + 20) f.eflags).write32 (s + 16) f.eip).write32 (s + 12) f.ebp).write32
    (s + 8) f.edi).write32 (s + 4) f.esi).write32 s f.ebx

theorem read32_write32_word {i j : U32} (h : i.toNat + 4 ≤ j.toNat ∨ j.toNat + 4 ≤ i.toNat)
    (hi : i.toNat ≤ 4096) (hj : j.toNat ≤ 4096) (mem : Mem) (s v : U32) :
    (mem.write32 (s + i) v).read32 (s + j) = mem.read32 (s + j) :=
  Mem.read32_write32_of_apart ⟨by bv_omega, by bv_omega⟩

theorem read32_write32_bottom {j : U32} (h : 4 ≤ j.toNat) (h' : j.toNat ≤ 4096)
    (mem : Mem) (s v : U32) : (mem.write32 s v).read32 (s + j) = mem.read32 (s + j) :=
  Mem.read32_write32_of_apart ⟨by bv_omega, by bv_omega⟩

theorem read32_write32_above {i : U32} (h : 4 ≤ i.toNat) (h' : i.toNat ≤ 4096)
    (mem : Mem) (s v : U32) : (mem.write32 (s + i) v).read32 s = mem.read32 s :=
  Mem.read32_write32_of_apart ⟨by bv_omega, by bv_omega⟩

theorem frameAt_writeFrame (mem : Mem) (s : U32) (f : SavedFrame) :
    frameAt (writeFrame mem s f) s = f := by
  unfold frameAt writeFrame
  simp (disch := decide) only [read32_write32_bottom, read32_write32_word, Mem.read32_write32]

/-- The words lie in one region and nothing is written there. -/
theorem frameAt_of_sameOn {r : Region} {mem mem' : Mem} {s : U32} (h : Mem.SameOn r mem mem')
    (hs : r.Covers s.toNat 24) : frameAt mem' s = frameAt mem s := by
  have hfits := r.fits
  obtain ⟨hlo, hhi⟩ := hs
  have hword : ∀ i : U32, i.toNat ≤ 20 → mem'.read32 (s + i) = mem.read32 (s + i) := by
    intro i hi
    exact h.read32 ⟨by bv_omega, by bv_omega⟩
  unfold frameAt
  rw [h.read32 ⟨hlo, by omega⟩, hword 4 (by decide), hword 8 (by decide), hword 12 (by decide),
    hword 16 (by decide), hword 20 (by decide)]

/-- Writing the words of one region leaves another as it is. -/
theorem sameOn_writeFrame {r r' : Region} {s : U32} (hdisj : r.Disjoint r')
    (hs : r.Covers s.toNat 24) (mem : Mem) (f : SavedFrame) :
    Mem.SameOn r' mem (writeFrame mem s f) := by
  have hfits := r.fits
  obtain ⟨hlo, hhi⟩ := hs
  have hword : ∀ i : U32, i.toNat ≤ 20 → r.Covers (s + i).toNat 4 := by
    intro i hi
    exact ⟨by bv_omega, by bv_omega⟩
  have hbottom : r.Covers s.toNat 4 := ⟨hlo, by omega⟩
  exact (((((Mem.sameOn_write32 hdisj (hword 20 (by decide)) _ _).trans
    (Mem.sameOn_write32 hdisj (hword 16 (by decide)) _ _)).trans
    (Mem.sameOn_write32 hdisj (hword 12 (by decide)) _ _)).trans
    (Mem.sameOn_write32 hdisj (hword 8 (by decide)) _ _)).trans
    (Mem.sameOn_write32 hdisj (hword 4 (by decide)) _ _)).trans
    (Mem.sameOn_write32 hdisj hbottom _ _)

namespace Machine

variable {m : Machine}

/-- What the running task would leave on its stack. -/
def callFrame (m : Machine) : SavedFrame :=
  ⟨m.ebx, m.esi, m.edi, m.ebp, m.mem.read32 m.esp, m.eflags⟩

/-- The first half: six words more on the stack, and the stack pointer kept in the task. -/
theorem saveContext_eq : m.saveContext =
    { m with
      eax := m.currentTask
      esp := m.esp - 20
      eflags := m.eflags &&& ~~~0x200
      mem := writeFrame m.mem (m.esp - 20) m.callFrame
      kstack := Function.update m.kstack m.currentTask (m.esp - 20) } := by
  have h20 : m.esp + 4 - 4 = m.esp - 20 + 20 := by bv_omega
  have h16 : m.esp - 20 + 20 - 4 = m.esp - 20 + 16 := by bv_omega
  have h12 : m.esp - 20 + 16 - 4 = m.esp - 20 + 12 := by bv_omega
  have h8 : m.esp - 20 + 12 - 4 = m.esp - 20 + 8 := by bv_omega
  have h4 : m.esp - 20 + 8 - 4 = m.esp - 20 + 4 := by bv_omega
  have h0 : m.esp - 20 + 4 - 4 = m.esp - 20 := by bv_omega
  simp only [saveContext, popEax, push, cli]
  rw [h20, h16, h12, h8, h4, h0]
  rfl

/-- The task that `restoreContext` goes on with. -/
def target (m : Machine) : U32 := m.mem.read32 (m.esp + 24)

/-- The second half pops the words that lie where the stack pointer of the target points; the
return address goes through the frame that is built for `iret`. -/
theorem restoreContext_eq {s : U32} (hs : m.kstack m.target = s) : m.restoreContext =
    { m with
      eax := (frameAt m.mem s).eip
      ebx := (frameAt m.mem s).ebx
      esi := (frameAt m.mem s).esi
      edi := (frameAt m.mem s).edi
      ebp := (frameAt m.mem s).ebp
      esp := s + 24
      eip := (frameAt m.mem s).eip
      eflags := (frameAt m.mem s).eflags
      mem := (m.mem.write32 (s + 16) m.cs).write32 (s + 12) (frameAt m.mem s).eip
      currentTask := m.target } := by
  have h8 : s + 4 + 4 = s + 8 := by bv_omega
  have h12 : s + 8 + 4 = s + 12 := by bv_omega
  have h16 : s + 12 + 4 = s + 16 := by bv_omega
  have hcs : s + 16 + 4 - 4 = s + 16 := by bv_omega
  have heip : s + 16 - 4 = s + 12 := by bv_omega
  have hflags : s + 12 + 8 = s + 20 := by bv_omega
  have hesp : s + 12 + 12 = s + 24 := by bv_omega
  simp only [restoreContext, popEbx, popEsi, popEdi, popEbp, popEax, push, iret]
  rw [show m.mem.read32 (m.esp + 24) = m.target from rfl, hs, h8, h12, h16, hcs, heip, h16, hflags,
    hesp]
  simp (disch := decide) only [read32_write32_word, Mem.read32_write32, frameAt]

theorem target_saveContext : m.saveContext.target = m.arg := by
  have hnext : m.esp + 4 = m.esp - 20 + 24 := by bv_omega
  unfold target arg
  rw [saveContext_eq, hnext]
  simp (disch := decide) only [writeFrame, read32_write32_bottom, read32_write32_word]

theorem contextSwitch_currentTask : m.contextSwitch.currentTask = m.arg := by
  rw [contextSwitch, restoreContext_eq rfl]
  exact target_saveContext

theorem contextSwitch_kstack :
    m.contextSwitch.kstack = Function.update m.kstack m.currentTask (m.esp - 20) := by
  rw [contextSwitch, restoreContext_eq rfl, saveContext_eq]

/-! ## The invariant -/

/-- The stacks are disjoint, and the stack pointer of each task that does not run points at words
in its stack. -/
structure StacksOk (m : Machine) : Prop where
  running : m.stackOf m.currentTask ≠ none
  disjoint : ∀ t u r r', t ≠ u → m.stackOf t = some r → m.stackOf u = some r' → r.Disjoint r'
  saved : ∀ t r, t ≠ m.currentTask → m.stackOf t = some r → r.Covers (m.kstack t).toNat 24

/-- `t` does not run and has left the words `f` at `s`. -/
structure Suspended (m : Machine) (t s : U32) (f : SavedFrame) : Prop where
  ne_currentTask : t ≠ m.currentTask
  stack : m.stackOf t ≠ none
  kstack : m.kstack t = s
  frame : frameAt m.mem s = f

theorem Boot.stacksOk (h : m.Boot) : m.StacksOk where
  running := by
    rw [h.currentTask]
    exact h.bootStack
  disjoint := by
    intro t u r r' htu ht hu
    by_cases ht0 : t = 0
    · rw [h.noStack u fun hu0 => htu (ht0.trans hu0.symm)] at hu
      cases hu
    · rw [h.noStack t ht0] at ht
      cases ht
  saved := by
    intro t r hne ht
    rw [h.currentTask] at hne
    rw [h.noStack t hne] at ht
    cases ht

theorem saveContext_kstack :
    m.saveContext.kstack = Function.update m.kstack m.currentTask (m.esp - 20) := by
  rw [saveContext_eq]

theorem saveContext_mem : m.saveContext.mem = writeFrame m.mem (m.esp - 20) m.callFrame := by
  rw [saveContext_eq]

section Switch

variable {t : U32} {r : Region}

theorem CallInStack.covers (h : m.CallInStack) (hr : m.stackOf m.currentTask = some r) :
    r.Covers (m.esp - 20).toNat 24 := by
  obtain ⟨r', hr', hesp, hlo, hhi⟩ := h
  cases hr.symm.trans hr'
  have hfits := r.fits
  exact ⟨by bv_omega, by bv_omega⟩

/-- Once the registers are saved, every task has its words on its stack. -/
theorem StacksOk.saved_saveContext (h : m.StacksOk) (hin : m.CallInStack)
    (hr : m.stackOf t = some r) : r.Covers (m.saveContext.kstack t).toNat 24 := by
  rw [saveContext_kstack]
  by_cases ht : t = m.currentTask
  · subst ht
    rw [Function.update_self]
    exact hin.covers hr
  · rw [Function.update_of_ne ht]
    exact h.saved t r ht hr

theorem StacksOk.sameOn_saveContext (h : m.StacksOk) (hin : m.CallInStack)
    (ht : t ≠ m.currentTask) (hr : m.stackOf t = some r) :
    Mem.SameOn r m.mem m.saveContext.mem := by
  obtain ⟨r', hr', -⟩ := id hin
  rw [saveContext_mem]
  exact sameOn_writeFrame (h.disjoint _ _ _ _ ht.symm hr' hr) (hin.covers hr') _ _

/-- The frame for `iret` is built in the words of the target. -/
theorem sameOn_restoreContext {r' : Region} (hdisj : r'.Disjoint r)
    (hcov : r'.Covers (m.kstack m.target).toNat 24) :
    Mem.SameOn r m.mem m.restoreContext.mem := by
  have hfits := r'.fits
  obtain ⟨hlo, hhi⟩ := hcov
  rw [restoreContext_eq rfl]
  refine (Mem.sameOn_write32 hdisj ⟨?_, ?_⟩ _ _).trans (Mem.sameOn_write32 hdisj ⟨?_, ?_⟩ _ _)
  · bv_omega
  · bv_omega
  · bv_omega
  · bv_omega

/-- The words of a task that is not switched to stay as they are after the first half. -/
theorem StacksOk.sameOn_contextSwitch (h : m.StacksOk) (hin : m.CallInStack)
    (hnext : m.stackOf m.arg ≠ none) (ht : t ≠ m.arg) (hr : m.stackOf t = some r) :
    Mem.SameOn r m.saveContext.mem m.contextSwitch.mem := by
  obtain ⟨r', hr'⟩ := Option.ne_none_iff_exists'.mp hnext
  refine sameOn_restoreContext (h.disjoint _ _ _ _ ht.symm hr' hr) ?_
  rw [target_saveContext]
  exact h.saved_saveContext hin hr'

end Switch

/-! ## One step -/

/-- The running task goes on with the words `f`, which lay at `s`. -/
structure Resumes (m : Machine) (s : U32) (f : SavedFrame) : Prop where
  eip : m.eip = f.eip
  ebx : m.ebx = f.ebx
  esi : m.esi = f.esi
  edi : m.edi = f.edi
  ebp : m.ebp = f.ebp
  eflags : m.eflags = f.eflags
  esp : m.esp = s + 24

theorem contextSwitch_resumes {s : U32} (hs : m.saveContext.kstack m.arg = s) :
    m.contextSwitch.Resumes s (frameAt m.saveContext.mem s) := by
  rw [contextSwitch, restoreContext_eq (target_saveContext ▸ hs)]
  exact ⟨rfl, rfl, rfl, rfl, rfl, rfl, rfl⟩

theorem StacksOk.contextSwitch (h : m.StacksOk) (hin : m.CallInStack)
    (hnext : m.stackOf m.arg ≠ none) : m.contextSwitch.StacksOk where
  running := by
    rw [contextSwitch_currentTask]
    exact hnext
  disjoint := h.disjoint
  saved := fun _ _ _ hr => h.saved_saveContext hin hr

/-- The words of a task that does not run, before and after another one switches. -/
theorem Suspended.contextSwitch {t s : U32} {f : SavedFrame} (hs : m.Suspended t s f)
    (h : m.StacksOk) (hin : m.CallInStack) (hnext : m.stackOf m.arg ≠ none) (ht : t ≠ m.arg) :
    m.contextSwitch.Suspended t s f := by
  obtain ⟨r, hr⟩ := Option.ne_none_iff_exists'.mp hs.stack
  have hcov := h.saved t r hs.ne_currentTask hr
  rw [hs.kstack] at hcov
  refine ⟨?_, hs.stack, ?_, ?_⟩
  · rwa [contextSwitch_currentTask]
  · rw [contextSwitch_kstack, Function.update_of_ne hs.ne_currentTask]
    exact hs.kstack
  · have hsame := (h.sameOn_saveContext hin hs.ne_currentTask hr).trans
      (h.sameOn_contextSwitch hin hnext ht hr)
    rw [frameAt_of_sameOn hsame hcov]
    exact hs.frame

/-- The caller is left with the words of the call. -/
theorem StacksOk.suspended_contextSwitch (h : m.StacksOk) (hin : m.CallInStack)
    (hnext : m.stackOf m.arg ≠ none) (hne : m.currentTask ≠ m.arg) :
    m.contextSwitch.Suspended m.currentTask (m.esp - 20) m.callFrame := by
  obtain ⟨r, hr⟩ := Option.ne_none_iff_exists'.mp h.running
  refine ⟨?_, h.running, ?_, ?_⟩
  · rwa [contextSwitch_currentTask]
  · rw [contextSwitch_kstack, Function.update_self]
  · rw [frameAt_of_sameOn (h.sameOn_contextSwitch hin hnext hne hr) (hin.covers hr),
      saveContext_mem, frameAt_writeFrame]

/-- A task that did not run goes on with its words. -/
theorem Suspended.resumes {s : U32} {f : SavedFrame} (hs : m.Suspended m.arg s f)
    (h : m.StacksOk) (hin : m.CallInStack) : m.contextSwitch.Resumes s f := by
  obtain ⟨r, hr⟩ := Option.ne_none_iff_exists'.mp hs.stack
  have hcov := h.saved m.arg r hs.ne_currentTask hr
  rw [hs.kstack] at hcov
  have hkstack : m.saveContext.kstack m.arg = s := by
    rw [saveContext_kstack, Function.update_of_ne hs.ne_currentTask, hs.kstack]
  have hframe : frameAt m.saveContext.mem s = f := by
    rw [frameAt_of_sameOn (h.sameOn_saveContext hin hs.ne_currentTask hr) hcov, hs.frame]
  rw [← hframe]
  exact contextSwitch_resumes hkstack

/-- A task that switches to itself goes on with the words of the call. -/
theorem resumes_self (hself : m.arg = m.currentTask) :
    m.contextSwitch.Resumes (m.esp - 20) m.callFrame := by
  have hkstack : m.saveContext.kstack m.arg = m.esp - 20 := by
    rw [saveContext_kstack, hself, Function.update_self]
  have h := contextSwitch_resumes hkstack
  rwa [saveContext_mem, frameAt_writeFrame] at h

section Create

variable {t func : U32} {stack : Region}

theorem initialKstack_zero (stack : U32) :
    initialKstack stack 0 = stack + kstackSize - sizeofContext := by
  rw [initialKstack, if_neg fun h => h rfl]

theorem FreshStack.covers (h : m.FreshStack t stack) :
    stack.Covers (initialKstack stack.base 0).toNat 24 := by
  have hfits := stack.fits
  have hsize := h.size
  rw [initialKstack_zero]
  simp only [kstackSize, sizeofContext] at hsize ⊢
  exact ⟨by bv_omega, by bv_omega⟩

theorem FreshStack.sameOn_initStack (h : m.FreshStack t stack) {u : U32} {r : Region}
    (hr : m.stackOf u = some r) : Mem.SameOn r m.mem (m.initStack t stack func).mem := by
  have hdisj := h.disjoint u r hr
  have hfits := stack.fits
  obtain ⟨hlo, hhi⟩ := h.covers
  have hword : ∀ i : U32, i.toNat ≤ 20 → stack.Covers (initialKstack stack.base 0 + i).toNat 4 := by
    intro i hi
    exact ⟨by bv_omega, by bv_omega⟩
  exact ((Mem.sameOn_write32 hdisj (hword 12 (by decide)) _ _).trans
    (Mem.sameOn_write32 hdisj (hword 16 (by decide)) _ _)).trans
    (Mem.sameOn_write32 hdisj (hword 20 (by decide)) _ _)

theorem StacksOk.ne_of_freshStack (h : m.StacksOk) (hfresh : m.FreshStack t stack) :
    t ≠ m.currentTask := by
  rintro rfl
  exact h.running hfresh.task

theorem StacksOk.initStack (h : m.StacksOk) (hfresh : m.FreshStack t stack) :
    (m.initStack t stack func).StacksOk := by
  have hstack : (m.initStack t stack func).stackOf = Function.update m.stackOf t (some stack) := rfl
  have hkstack : (m.initStack t stack func).kstack =
    Function.update m.kstack t (initialKstack stack.base 0) := rfl
  refine ⟨?_, ?_, ?_⟩
  · rw [hstack]
    exact (Function.update_of_ne (h.ne_of_freshStack hfresh).symm _ _).trans_ne h.running
  · intro u v r r' huv hu hv
    rw [hstack] at hu hv
    by_cases hut : u = t
    · subst hut
      rw [Function.update_self] at hu
      rw [Function.update_of_ne huv.symm] at hv
      cases hu
      exact hfresh.disjoint v r' hv
    · rw [Function.update_of_ne hut] at hu
      by_cases hvt : v = t
      · subst hvt
        rw [Function.update_self] at hv
        cases hv
        exact (hfresh.disjoint u r hu).symm
      · rw [Function.update_of_ne hvt] at hv
        exact h.disjoint u v r r' huv hu hv
  · intro u r hu hr
    rw [hstack] at hr
    rw [hkstack]
    by_cases hut : u = t
    · subst hut
      rw [Function.update_self] at hr ⊢
      cases hr
      exact hfresh.covers
    · rw [Function.update_of_ne hut] at hr ⊢
      exact h.saved u r hu hr

theorem Suspended.initStack {u s : U32} {f : SavedFrame} (hs : m.Suspended u s f)
    (h : m.StacksOk) (hfresh : m.FreshStack t stack) :
    (m.initStack t stack func).Suspended u s f := by
  obtain ⟨r, hr⟩ := Option.ne_none_iff_exists'.mp hs.stack
  have hut : u ≠ t := by
    rintro rfl
    exact hs.stack hfresh.task
  have hcov := h.saved u r hs.ne_currentTask hr
  rw [hs.kstack] at hcov
  refine ⟨hs.ne_currentTask, ?_, ?_, ?_⟩
  · exact (Function.update_of_ne hut _ _).trans_ne hs.stack
  · exact (Function.update_of_ne hut _ _).trans hs.kstack
  · rw [frameAt_of_sameOn (hfresh.sameOn_initStack hr) hcov]
    exact hs.frame

/-- The words that a new task starts with; the words for `ebx`, `esi` and `edi` are not set. -/
theorem StacksOk.suspended_initStack (h : m.StacksOk) (hfresh : m.FreshStack t stack) :
    ∃ f, (m.initStack t stack func).Suspended t (initialKstack stack.base 0) f ∧
      f.eip = func ∧ f.eflags = 0x202 := by
  refine ⟨_, ⟨h.ne_of_freshStack hfresh, ?_, ?_, rfl⟩, ?_, ?_⟩
  · exact (Function.update_self t (some stack) m.stackOf).trans_ne (Option.some_ne_none stack)
  · exact Function.update_self ..
  · simp (disch := decide) only [frameAt, Machine.initStack, read32_write32_word,
      Mem.read32_write32]
  · simp only [frameAt, Machine.initStack, Mem.read32_write32]

end Create

section Work

variable {m' : Machine}

theorem StacksOk.works (h : m.StacksOk) (hw : m.Works m') : m'.StacksOk := by
  refine ⟨?_, ?_, ?_⟩
  · rw [hw.stackOf, hw.currentTask]
    exact h.running
  · rw [hw.stackOf]
    exact h.disjoint
  · rw [hw.stackOf, hw.currentTask, hw.kstack]
    exact h.saved

theorem Suspended.works {t s : U32} {f : SavedFrame} (hs : m.Suspended t s f) (h : m.StacksOk)
    (hw : m.Works m') : m'.Suspended t s f := by
  obtain ⟨r, hr⟩ := Option.ne_none_iff_exists'.mp hs.stack
  have hcov := h.saved t r hs.ne_currentTask hr
  rw [hs.kstack] at hcov
  refine ⟨?_, ?_, ?_, ?_⟩
  · rw [hw.currentTask]
    exact hs.ne_currentTask
  · rw [hw.stackOf]
    exact hs.stack
  · rw [hw.kstack]
    exact hs.kstack
  · rw [frameAt_of_sameOn (hw.mem t r hs.ne_currentTask hr) hcov]
    exact hs.frame

end Work

theorem StacksOk.step {m' : Machine} {op : SwitchOp} (h : m.StacksOk)
    (hstep : SwitchStep m op m') : m'.StacksOk := by
  cases hstep with
  | work hw => exact h.works hw
  | create hfresh => exact h.initStack hfresh
  | switch hin harg hnext =>
    subst harg
    exact h.contextSwitch hin hnext

/-- A task that is not switched to keeps its words. -/
theorem Suspended.step {m' : Machine} {op : SwitchOp} {t s : U32} {f : SavedFrame}
    (hs : m.Suspended t s f) (h : m.StacksOk) (hstep : SwitchStep m op m')
    (hop : op ≠ .switch t) : m'.Suspended t s f := by
  cases hstep with
  | work hw => exact hs.works h hw
  | create hfresh => exact hs.initStack h hfresh
  | switch hin harg hnext =>
    subst harg
    exact hs.contextSwitch h hin hnext fun ht => hop (by rw [ht])

end Machine

/-! ## Runs -/

open Machine

theorem Machine.StacksOk.run {m m' : Machine} {ops : List SwitchOp} (h : m.StacksOk)
    (hrun : Run SwitchStep m ops m') : m'.StacksOk :=
  hrun.invariant StacksOk (fun _ _ _ h hstep => h.step hstep) h

theorem Machine.Suspended.run {m m' : Machine} {ops : List SwitchOp} {t s : U32} {f : SavedFrame}
    (hs : m.Suspended t s f) (h : m.StacksOk) (hrun : Run SwitchStep m ops m')
    (hops : .switch t ∉ ops) : m'.Suspended t s f := by
  induction hrun with
  | nil => exact hs
  | snoc hrun hstep ih =>
    rw [List.mem_append, not_or, List.mem_singleton] at hops
    exact (ih hops.1).step (h.run hrun) hstep (Ne.symm hops.2)

/-- A task that was left with the words `f` goes on with them when it is switched to. -/
theorem Machine.Suspended.resumes_of_run {m m' m'' : Machine} {ops : List SwitchOp} {t s : U32}
    {f : SavedFrame} (hs : m.Suspended t s f) (h : m.StacksOk) (hrun : Run SwitchStep m ops m')
    (hops : .switch t ∉ ops) (hresume : SwitchStep m' (.switch t) m'') : m''.Resumes s f := by
  have hs' := hs.run h hrun hops
  cases hresume with
  | switch hin harg hnext =>
    subst harg
    exact hs'.resumes (h.run hrun) hin

/-- The registers that a function call keeps, with the place where execution goes on. -/
structure Machine.SameContext (m m' : Machine) : Prop where
  eip : m.eip = m'.eip
  ebx : m.ebx = m'.ebx
  esi : m.esi = m'.esi
  edi : m.edi = m'.edi
  ebp : m.ebp = m'.ebp
  eflags : m.eflags = m'.eflags
  esp : m.esp = m'.esp

theorem Machine.Resumes.sameContext_ret {m m' : Machine} (h : m'.Resumes (m.esp - 20) m.callFrame) :
    m'.SameContext m.ret := by
  refine ⟨h.eip, h.ebx, h.esi, h.edi, h.ebp, h.eflags, ?_⟩
  have hesp : m.ret.esp = m.esp + 4 := rfl
  rw [h.esp, hesp]
  bv_omega

/-- In any run from boot on, `t` is switched to at its end and not before. If `t` started the run
with a call of `context_switch`, then this call now ends as if it had returned at once. If the run
started with the creation of `t`, then `t` starts at `func`, with interrupts enabled and an empty
stack. -/
theorem context_switch_round_trip {m₀ m m₁ m₂ : Machine} {before ops : List SwitchOp} {t : U32}
    (hboot : m₀.Boot) (hbefore : Run SwitchStep m₀ before m) (hrun : Run SwitchStep m ops m₁)
    (hops : .switch t ∉ ops) (hresume : SwitchStep m₁ (.switch t) m₂) :
    (∀ next, m.currentTask = t → (ops ++ [SwitchOp.switch t]).head? = some (.switch next) →
      m₂.SameContext m.ret) ∧
    (∀ stack func, ops.head? = some (.create t stack func) →
      m₂.eip = func ∧ m₂.eflags = 0x202 ∧ m₂.esp = stack.base + kstackSize) := by
  have hok := hboot.stacksOk.run hbefore
  constructor
  · rintro next rfl hnext
    apply Resumes.sameContext_ret
    cases ops with
    | nil =>
      cases hrun.eq_of_nil
      cases hresume with
      | switch hin harg _ => exact resumes_self harg
    | cons op ops =>
      cases hnext
      obtain ⟨m', hcall, hrest⟩ := hrun.exists_first
      rw [List.mem_cons, not_or] at hops
      have hok' := hok.step hcall
      cases hcall with
      | switch hin harg hnext =>
        subst harg
        have hne : m.currentTask ≠ m.arg := fun h => hops.1 (by rw [← h])
        exact (hok.suspended_contextSwitch hin hnext hne).resumes_of_run hok' hrest hops.2 hresume
  · intro stack func hcreate
    cases ops with
    | nil => cases hcreate
    | cons op ops =>
      cases hcreate
      obtain ⟨m', hfirst, hrest⟩ := hrun.exists_first
      rw [List.mem_cons, not_or] at hops
      have hok' := hok.step hfirst
      cases hfirst with
      | create hfresh =>
        obtain ⟨f, hs, heip, heflags⟩ := hok.suspended_initStack hfresh
        have h := hs.resumes_of_run hok' hrest hops.2 hresume
        refine ⟨h.eip.trans heip, h.eflags.trans heflags, ?_⟩
        rw [h.esp, initialKstack_zero, sizeofContext]
        bv_omega

def bootStack : Region := ⟨0x2000, 0x1000, by decide⟩

def firstStack : Region := ⟨0x5000, 0x1000, by decide⟩

/-- The boot code, about to pass the task at `0x7000` to `context_switch`. -/
def bootMachine : Machine where
  eax := 0
  ebx := 1
  esi := 2
  edi := 3
  ebp := 4
  esp := 0x2800
  eip := 0x100
  eflags := 0x202
  cs := 8
  mem := Mem.write32 (fun _ => 0) 0x2804 0x7000
  currentTask := 0
  kstack := fun _ => 0
  stackOf := fun t => if t = 0 then some bootStack else none

/-- The machine after the creation of a task at `0x7000` that starts at `0x400`. -/
def createdMachine : Machine := bootMachine.initStack 0x7000 firstStack 0x400

/-- The new task runs and is about to switch back. -/
def firstMachine : Machine := { createdMachine.contextSwitch with esp := 0x5800 }

theorem boot_bootMachine : bootMachine.Boot := by
  refine ⟨rfl, by decide, ?_⟩
  intro t ht
  exact if_neg ht

theorem step_createdMachine :
    SwitchStep bootMachine (.create 0x7000 firstStack 0x400) createdMachine := by
  refine .create ⟨rfl, rfl, ?_⟩
  intro u r hr
  have hstack : (if u = 0 then some bootStack else none) = some r := hr
  by_cases hu : u = 0
  · rw [if_pos hu] at hstack
    rw [← Option.some.inj hstack]
    exact Or.inr (by decide)
  · rw [if_neg hu] at hstack
    cases hstack

theorem stackOf_createdMachine :
    createdMachine.stackOf = Function.update bootMachine.stackOf 0x7000 (some firstStack) := rfl

theorem stackOf_createdMachine_first : createdMachine.stackOf 0x7000 = some firstStack := by
  rw [stackOf_createdMachine, Function.update_self]

theorem stackOf_createdMachine_boot : createdMachine.stackOf 0 = some bootStack := by
  rw [stackOf_createdMachine, Function.update_of_ne (by decide)]
  rfl

theorem step_switch_createdMachine :
    SwitchStep createdMachine (.switch 0x7000) createdMachine.contextSwitch := by
  refine .switch ⟨bootStack, stackOf_createdMachine_boot, by decide, ?_⟩ (by decide +kernel) ?_
  · exact ⟨by decide, by decide⟩
  · exact stackOf_createdMachine_first.trans_ne (Option.some_ne_none firstStack)

theorem step_switch_firstMachine :
    SwitchStep firstMachine (.switch 0) firstMachine.contextSwitch := by
  have hcurrent : firstMachine.currentTask = 0x7000 := by decide +kernel
  refine .switch ⟨firstStack, ?_, by decide, ?_⟩ (by decide +kernel) ?_
  · rw [hcurrent]
    exact stackOf_createdMachine_first
  · exact ⟨by decide, by decide⟩
  · exact stackOf_createdMachine_boot.trans_ne (Option.some_ne_none bootStack)

/-- The boot code creates a task and switches to it, and the task switches back. -/
theorem context_switch_round_trip_boot :
    createdMachine.contextSwitch.eip = 0x400 ∧
      firstMachine.contextSwitch.SameContext createdMachine.ret := by
  have hcreate := Run.snoc (.nil bootMachine) step_createdMachine
  have hcall := Run.snoc hcreate.start step_switch_createdMachine
  have hwork := Run.snoc hcall (show SwitchStep _ (.work firstMachine) firstMachine from
    .work ⟨rfl, rfl, rfl, fun _ r _ _ => .refl r _⟩)
  have hfirst := context_switch_round_trip boot_bootMachine (.nil bootMachine) hcreate
    (by simp) step_switch_createdMachine
  have hback := context_switch_round_trip boot_bootMachine hcreate hwork
    (by simp) step_switch_firstMachine
  exact ⟨(hfirst.2 _ _ rfl).1, hback.1 0x7000 rfl rfl⟩

end PiggyOS
