import Mathlib.Logic.Function.Basic
import PiggyOS.Kheap.Block
import PiggyOS.Pmm.Basic

/-!
# The virtual memory manager (`vmm.c`)

Page directories and page tables are kept as objects under their addresses: `dirs` and `tabs`.
A directory holds, per 4 MB region, the entry the processor reads (`tables`) and the virtual
address of the page table (`refTables`, 0 for none).

`allocate_page` may need a page table, which before `kheap_init` comes from the bump allocator
`dumb_kmalloc` and afterwards from `kmalloc_a`. The latter leads back here through the heap,
so it is a parameter; `Kheap/Alloc.lean` closes the recursion.
-/

namespace PiggyOS

open Infra

/-! ## Addresses -/

/-- `IS_ALIGN` -/
def isAlign (addr : U32) : Bool := addr ||| 0xFFFFF000 = 0

/-- `ALIGN` -/
def align (addr : U32) : U32 := (addr &&& 0xFFFFF000) + pageSize

/-- `PAGEDIR_INDEX` -/
def pagedirIndex (va : U32) : Fin 1024 :=
  ⟨(va >>> 22).toNat, by
    rw [BitVec.toNat_ushiftRight, Nat.shiftRight_eq_div_pow]
    have := va.isLt
    omega⟩

/-- `PAGETBL_INDEX` -/
def pagetblIndex (va : U32) : Fin 1024 :=
  ⟨((va >>> 12) &&& 0x3ff#32).toNat, by
    rw [BitVec.toNat_and]
    exact Nat.lt_of_le_of_lt Nat.and_le_right (by decide)⟩

/-- `PAGEFRAME_INDEX` -/
def pageframeIndex (va : U32) : U32 := va &&& 0xfff

/-- `IS_ALIGN` ors with a mask where it should and, and holds of no address. -/
theorem isAlign_eq_false (addr : U32) : isAlign addr = false := by
  unfold isAlign
  rw [decide_eq_false]
  intro h
  have := congrArg (fun x : U32 => x.getLsbD 31) h
  simp at this

theorem toNat_and_pageMask (a : U32) : (a &&& 0xFFFFF000).toNat = a.toNat / 4096 * 4096 := by
  have h : a &&& (0xFFFFF000 : U32) = (a >>> 12) <<< 12 := by
    apply BitVec.eq_of_getLsbD_eq
    intro i hi
    rw [show (0xFFFFF000 : U32) = BitVec.allOnes 32 <<< 12 from rfl, BitVec.getLsbD_and,
      BitVec.getLsbD_shiftLeft, BitVec.getLsbD_shiftLeft, BitVec.getLsbD_ushiftRight,
      BitVec.getLsbD_allOnes]
    by_cases h12 : i < 12
    · simp [h12]
    · simp [h12, hi, show 12 + (i - 12) = i by omega, show i - 12 < 32 by omega]
  rw [h, BitVec.toNat_shiftLeft, BitVec.toNat_ushiftRight, Nat.shiftRight_eq_div_pow,
    Nat.shiftLeft_eq, Nat.mod_eq_of_lt]
  have := a.isLt
  omega

theorem toNat_and_pageMask_mod (a : U32) : (a &&& 0xFFFFF000).toNat % 4096 = 0 := by
  rw [toNat_and_pageMask]
  omega

theorem toNat_align {a : U32} (h : a.toNat / 4096 * 4096 + 4096 < 2 ^ 32) :
    (align a).toNat = a.toNat / 4096 * 4096 + 4096 := by
  unfold align
  rw [BitVec.toNat_add, toNat_and_pageMask, pageSize_toNat, Nat.mod_eq_of_lt h]

theorem pagedirIndex_val (va : U32) : (pagedirIndex va).val = va.toNat / 2 ^ 22 := by
  show (va >>> 22).toNat = _
  rw [BitVec.toNat_ushiftRight, Nat.shiftRight_eq_div_pow]

theorem pagetblIndex_val (va : U32) : (pagetblIndex va).val = va.toNat / 4096 % 1024 := by
  show ((va >>> 12) &&& 0x3ff#32).toNat = _
  rw [BitVec.toNat_and, BitVec.toNat_ushiftRight, Nat.shiftRight_eq_div_pow]
  exact Nat.and_two_pow_sub_one_eq_mod _ 10

/-- A directory entry covers a region of 4 MB. -/
theorem pagedirIndex_eq_iff {a b : U32} :
    pagedirIndex a = pagedirIndex b ↔ a.toNat / 2 ^ 22 = b.toNat / 2 ^ 22 := by
  rw [Fin.ext_iff, pagedirIndex_val, pagedirIndex_val]

/-- The two indices together are the number of the page. -/
theorem page_eq_iff {a b : U32} :
    (pagedirIndex a = pagedirIndex b ∧ pagetblIndex a = pagetblIndex b) ↔
      a.toNat / 4096 = b.toNat / 4096 := by
  rw [pagedirIndex_eq_iff, Fin.ext_iff, pagetblIndex_val, pagetblIndex_val]
  omega

theorem pageframeIndex_toNat (va : U32) : (pageframeIndex va).toNat = va.toNat % 4096 := by
  show (va &&& 0xfff#32).toNat = _
  rw [BitVec.toNat_and]
  exact Nat.and_two_pow_sub_one_eq_mod _ 12

/-! ## Directories and tables -/

/-- `page_t`; the unused bits are left out. -/
structure Page where
  present : Bool
  rw : Bool
  user : Bool
  accessed : Bool
  dirty : Bool
  frame : BitVec 20
  deriving DecidableEq, Repr

/-- `page_dir_entry_t`; the bits that nothing sets are left out. -/
structure PageDirEntry where
  present : Bool
  rw : Bool
  user : Bool
  pageSize : Bool
  frame : BitVec 20
  deriving DecidableEq, Repr

/-- `page_table_t` -/
abbrev PageTable := Fin 1024 → Page

/-- `page_directory_t` -/
structure PageDirectory where
  tables : Fin 1024 → PageDirEntry
  refTables : Fin 1024 → U32

/-- A table after `memset(table, 0, sizeof(page_table_t))`. -/
def zeroTable : PageTable := fun _ => ⟨false, false, false, false, false, 0⟩

/-- A directory after `memset(dir, 0, sizeof(page_directory_t))`. -/
def zeroDirectory : PageDirectory := ⟨fun _ => ⟨false, false, false, false, 0⟩, fun _ => 0⟩

/-- `sizeof(page_table_t)` -/
def sizeofPageTable : U32 := 4096

/-- `sizeof(page_directory_t)` -/
def sizeofPageDirectory : U32 := 8192

/-- The pointer that C reads under the name `boot_page_dir`: the symbol is the directory
itself, so what is read is its first entry. -/
def bootPageDir : U32 := 0x83

/-- The globals of `vmm.c`, with the memory manager below it. -/
structure Vmm where
  pmm : Pmm
  tempMem : U32
  pagingEnabled : Bool
  kernelPageDir : U32
  currentPageDir : U32
  cr3 : U32
  dirs : U32 → PageDirectory
  tabs : U32 → PageTable

namespace Vmm

variable (v : Vmm)

/-- `dumb_kmalloc` -/
def dumbKmalloc (size : U32) (align : Bool) : Vmm × U32 :=
  let ret := if align && !isAlign v.tempMem then PiggyOS.align v.tempMem else v.tempMem
  -- the bytes skipped for the alignment are not counted
  ({ v with tempMem := v.tempMem + size }, ret)

/-- The page table the directory `dir` has for the region of `va`, 0 for none. -/
def tableOf (dir va : U32) : U32 := (v.dirs dir).refTables (pagedirIndex va)

/-- The entry of `va` in the page table at `table`. -/
def entry (table va : U32) : Page := v.tabs table (pagetblIndex va)

/-- `virt2phys` -/
def virt2phys (dir va : U32) : U32 :=
  if !v.pagingEnabled then va - kernBase
  else if v.tableOf dir va = 0 then 0
  else if !(v.entry (v.tableOf dir va) va).present then 0
  else ((v.entry (v.tableOf dir va) va).frame.setWidth 32 <<< 12) + pageframeIndex va

/-- What the processor makes of `va`: it goes from `cr3` through the frame fields. The boot code
reaches the table at the physical address `p` under `KERN_BASE + p`, and so does the model. -/
def mmuTranslate (va : U32) : Option U32 :=
  let pde := (v.dirs (v.cr3 + kernBase)).tables (pagedirIndex va)
  let pte := v.entry ((pde.frame.setWidth 32 <<< 12) + kernBase) va
  if pde.present && pte.present then some ((pte.frame.setWidth 32 <<< 12) + pageframeIndex va)
  else none

/-- The second half of `allocate_page`'s missing-table branch: clears the new table and enters
it into the directory. -/
def installTable (dir : U32) (idx : Fin 1024) (table : U32) (isKernel isWritable : Bool) : Vmm :=
  let v := { v with tabs := Function.update v.tabs table zeroTable }
  -- looked up in the kernel's directory, whatever `dir` is
  let t := v.virt2phys v.kernelPageDir table
  let d := v.dirs dir
  { v with
    dirs := Function.update v.dirs dir
      { tables := Function.update d.tables idx
          { d.tables idx with
            frame := (t >>> 12).setWidth 20
            present := true
            rw := isWritable
            user := !isKernel
            pageSize := false }
        refTables := Function.update d.refTables idx table } }

/-- The last part of `allocate_page`: fills the entry unless it is present. A frame of 0 asks
for one from the memory manager, whose answer is not looked at. -/
def fillEntry (table : U32) (idx : Fin 1024) (frame : U32) (isKernel isWritable : Bool) : Vmm :=
  if (v.tabs table idx).present then v
  else
    let (pmm, t) :=
      if frame ≠ 0 then (v.pmm, frame)
      else (v.pmm.pmmAllocBlock.1, v.pmm.pmmAllocBlock.2 / pageSize)
    { v with
      pmm := pmm
      tabs := Function.update v.tabs table (Function.update (v.tabs table) idx
        { v.tabs table idx with
          frame := t.setWidth 20
          present := true
          rw := isWritable
          user := !isKernel }) }

/-- `free_page` -/
def freePage (dir va : U32) (free : Bool) : Vmm :=
  if dir = bootPageDir then v
  else if v.tableOf dir va = 0 then v
  else if !(v.entry (v.tableOf dir va) va).present then v
  else
    let table := v.tableOf dir va
    let idx := pagetblIndex va
    let page := v.tabs table idx
    { v with
      pmm := if free then v.pmm.pmmFreeBlock (page.frame.setWidth 32 * pageSize) else v.pmm
      tabs := Function.update v.tabs table
        (Function.update (v.tabs table) idx { page with present := false, frame := 0 }) }

/-- `switch_page_directory` -/
def switchPageDirectory (dir : U32) : Vmm :=
  { v with cr3 := v.virt2phys v.currentPageDir dir, currentPageDir := dir }

/-- `enable_paging` -/
def enablePaging : Vmm := { v with pagingEnabled := true }

end Vmm

/-! ## Mapping pages -/

/-- The state of the memory managers. -/
structure Kernel where
  vmm : Vmm
  heap : Heap

/-- What `kmalloc_a(size)` does to the kernel and what it returns; `none` when it does not
come back. -/
abbrev TableSource := Kernel → U32 → Option (Kernel × U32)

namespace Kernel

variable (kmallocA : TableSource) (k : Kernel)

/-- Where `allocate_page` takes a page table from. -/
def newTable : Option (Kernel × U32) :=
  if !k.heap.kheapEnabled then
    let (v, table) := k.vmm.dumbKmalloc sizeofPageTable true
    some ({ k with vmm := v }, table)
  else kmallocA k sizeofPageTable

theorem newTable_of_enabled {kmallocA : TableSource} {k : Kernel}
    (h : k.heap.kheapEnabled = true) : k.newTable kmallocA = kmallocA k sizeofPageTable := by
  rw [newTable, h, Bool.not_true, if_neg Bool.false_ne_true]

theorem newTable_of_disabled {kmallocA : TableSource} {k : Kernel}
    (h : k.heap.kheapEnabled = false) : k.newTable kmallocA =
      some ({ k with vmm := { k.vmm with tempMem := k.vmm.tempMem + sizeofPageTable } },
        (k.vmm.dumbKmalloc sizeofPageTable true).2) := by
  rw [newTable, h, Bool.not_false, if_pos rfl]
  rfl

/-- `allocate_page` -/
def allocatePage (dir va frame : U32) (isKernel isWritable : Bool) : Option Kernel :=
  if dir = 0 then some k
  else if k.vmm.tableOf dir va = 0 then
    (k.newTable kmallocA).map fun (k, table) =>
      let v := k.vmm.installTable dir (pagedirIndex va) table isKernel isWritable
      { k with vmm := v.fillEntry table (pagetblIndex va) frame isKernel isWritable }
  else
    some { k with
      vmm := k.vmm.fillEntry (k.vmm.tableOf dir va) (pagetblIndex va) frame isKernel isWritable }

/-- What `allocate_page` can have done. -/
theorem allocatePage_cases {kmallocA : TableSource} {k k' : Kernel} {dir va frame : U32}
    {isKernel isWritable : Bool}
    (h : k.allocatePage kmallocA dir va frame isKernel isWritable = some k') :
    (dir = 0 ∧ k' = k) ∨
      (dir ≠ 0 ∧ k.vmm.tableOf dir va ≠ 0 ∧
        k' = { k with
          vmm := k.vmm.fillEntry (k.vmm.tableOf dir va) (pagetblIndex va) frame isKernel
            isWritable }) ∨
      (dir ≠ 0 ∧ k.vmm.tableOf dir va = 0 ∧ ∃ k₁ table, k.newTable kmallocA = some (k₁, table) ∧
        k' = { k₁ with
          vmm := (k₁.vmm.installTable dir (pagedirIndex va) table isKernel isWritable).fillEntry
            table (pagetblIndex va) frame isKernel isWritable }) := by
  unfold allocatePage at h
  split at h
  · next hd => exact Or.inl ⟨hd, (Option.some.inj h).symm⟩
  · next hd =>
    split at h
    · next ht =>
      obtain ⟨⟨k₁, table⟩, hnew, he⟩ := Option.map_eq_some_iff.mp h
      exact Or.inr (Or.inr ⟨hd, ht, k₁, table, hnew, he.symm⟩)
    · next ht => exact Or.inr (Or.inl ⟨hd, ht, (Option.some.inj h).symm⟩)

/-- The number of pages: a pointer that steps in pages comes back after that many steps. -/
def pageCount : Nat := 2 ^ 20

/-- `while (i < bound) { allocate_page(kernel_page_dir, i, 0, 1, isWritable); i += PAGE_SIZE; }`,
the loop of `vmm_init` and of `ksbrk`; the second component is `i` at the exit. -/
def allocatePages (isWritable : Bool) (bound start : U32) : Option (Kernel × U32) :=
  loop (fun s : Kernel × U32 => s.2 < bound)
    (fun s => (s.1.allocatePage kmallocA s.1.vmm.kernelPageDir s.2 0 true isWritable).map
      (·, s.2 + pageSize))
    (pageCount + 1) (k, start)

/-- `allocate_region` -/
def allocateRegion (dir startVa endVa : U32) (idenMap isKernel isWritable : Bool) :
    Option Kernel :=
  (loop (fun s : Kernel × U32 => s.2 ≤ endVa &&& 0xfffff000)
    (fun s => (s.1.allocatePage kmallocA dir s.2 (if idenMap then s.2 / pageSize else 0)
      isKernel isWritable).map (·, s.2 + pageSize))
    (pageCount + 1) (k, startVa &&& 0xfffff000)).map (·.1)

/-! ## Start-up -/

/-- The kernel as it is loaded, with the memory manager that `pmm_init` has set up: the
variables of `vmm.c` and `kheap.c` are zero, except for `placement_address`. -/
def loaded (pmm : Pmm) (mem : Mem) (kernelEndVirt : U32) : Kernel where
  vmm :=
    { pmm := pmm
      tempMem := 0
      pagingEnabled := false
      kernelPageDir := 0
      currentPageDir := 0
      cr3 := 0
      dirs := fun _ => zeroDirectory
      tabs := fun _ => zeroTable }
  heap :=
    { mem := mem
      head := 0
      tail := 0
      freelist := 0
      heapStart := 0
      heapEnd := 0
      heapCurr := 0
      heapMax := 0
      kheapEnabled := false
      placementAddress := kernelEndVirt
      blocks := [] }

/-- A machine without physical memory. -/
def bare : Kernel := loaded ⟨0, 0, 0, 0, fun _ => 0⟩ (fun _ => 0) 0

/-- `KHEAP_INITIAL_SIZE` -/
def kheapInitialSize : U32 := 8 * mib

/-- The directory `vmm_init` starts from. -/
def newKernelPageDir : Kernel :=
  let v := { k.vmm with tempMem := k.vmm.pmm.pmmBitmap + k.vmm.pmm.pmmBitmapSize }
  let (v, dir) := v.dumbKmalloc sizeofPageDirectory true
  { k with
    vmm := { v with kernelPageDir := dir, dirs := Function.update v.dirs dir zeroDirectory } }

/-- `vmm_init`; installing the page-fault handler is left out. -/
def vmmInit : Option Kernel := do
  let k := k.newKernelPageDir
  let (k, _) ← k.allocatePages kmallocA false (kernBase + 4 * mib) kernBase
  let (k, _) ← k.allocatePages kmallocA true (kernBase + 4 * mib + kheapInitialSize)
    (kernBase + 4 * mib)
  let k ← k.allocateRegion kmallocA k.vmm.kernelPageDir 0 0x10000 true true false
  return { k with vmm := (k.vmm.switchPageDirectory k.vmm.kernelPageDir).enablePaging }

end Kernel

end PiggyOS
