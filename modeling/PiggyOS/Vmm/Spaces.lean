import PiggyOS.Kheap.Fresh
import PiggyOS.Vmm.Copy

/-!
# The address spaces of tasks

The directories of tasks are copies of the kernel's directory and share its tables. Below
`KERN_BASE` this is one table, the one of the identity map for the first 4 MB. The tables of the
other regions there are made for one directory each, from the heap, which may grow for it.

* `SpaceStep` — copies of the kernel's directory, growth of the heap, and user pages
* `SpacesOk` — which directories have which tables, for every run of these
-/

namespace PiggyOS

open Infra

/-- What `kmalloc_a` returns in a full heap: it rounds up the NULL of `malloc`. -/
def nullTable : U32 := tableIn 0

@[simp] theorem nullTable_toNat : nullTable.toNat = 4096 := rfl

/-- The memory, and the directories that were copied from the kernel's. -/
structure Spaces where
  physical : Physical
  created : List U32

namespace Spaces

abbrev kernel (s : Spaces) : Kernel := s.physical.kernel

abbrev vmm (s : Spaces) : Vmm := s.physical.kernel.vmm

def withKernel (s : Spaces) (k : Kernel) : Spaces :=
  { s with physical := { s.physical with kernel := k } }

end Spaces

inductive SpaceOp
  | copy (d : U32)
  | heap (c : Kernel.HeapCall)
  | userMap (d va frame : U32) (isWritable : Bool)

/-- What happens after boot: a directory is copied, the heap grows, or a page is mapped for a
user. -/
inductive SpaceStep : Spaces → SpaceOp → Spaces → Prop
  | copy {s : Spaces} {d : U32} {kmallocA : Fin 1024 → TableSource} {p : Physical} :
      d ≠ 0 → d ≠ s.vmm.kernelPageDir → d ∉ s.created →
      s.physical.copyPageDirectory kmallocA d s.vmm.kernelPageDir = some p →
      SpaceStep s (.copy d) ⟨p, d :: s.created⟩
  | heap {s : Spaces} {c : Kernel.HeapCall} {k : Kernel} :
      s.kernel.Grows c → Kernel.HeapStep s.kernel c k → SpaceStep s (.heap c) (s.withKernel k)
  | userMap {s : Spaces} {d va frame : U32} {isWritable : Bool} {n : Nat} {k : Kernel} :
      d ∈ s.created → va < kernBase →
      s.kernel.allocatePage (Kernel.kmallocA n) d va frame false isWritable = some k →
      SpaceStep s (.userMap d va frame isWritable) (s.withKernel k)

/-! ## The invariant -/

/-- The region is below `KERN_BASE`, and not the first one. -/
def UserRegion (i : Fin 1024) : Prop := 0 < i.val ∧ i.val < 768

theorem userRegion_of_lt {va : U32} (hva : va < kernBase) (hne : pagedirIndex va ≠ 0) :
    UserRegion (pagedirIndex va) := by
  have hval := pagedirIndex_val va
  have hlt : va.toNat < 0xC0000000 := hva
  have hpos : (pagedirIndex va).val ≠ 0 := fun h => hne (Fin.ext h)
  exact ⟨by omega, by omega⟩

namespace Spaces

/-- The table that a directory has for a region. -/
abbrev tableAt (s : Spaces) (d : U32) (i : Fin 1024) : U32 := (s.vmm.dirs d).refTables i

/-- No directory but `d` has the table. -/
def Own (s : Spaces) (d table : U32) : Prop :=
  (∀ j, s.tableAt s.vmm.kernelPageDir j ≠ table) ∧
    ∀ d' ∈ s.created, d' ≠ d → ∀ j, s.tableAt d' j ≠ table

/-- A place for a table that is none yet. -/
def Vacant (s : Spaces) (table : U32) : Prop :=
  (∀ j, s.tableAt s.vmm.kernelPageDir j ≠ table) ∧ ∀ d ∈ s.created, ∀ j, s.tableAt d j ≠ table

end Spaces

/-- All directories have the table of the first region in common. In the other user regions the
kernel's directory has none, and no two others have one in common, unless it is the one at
`nullTable`. Above `KERN_BASE` they have no others than the kernel's. -/
structure SpacesOk (s : Spaces) : Prop where
  order : s.kernel.TableOrder
  break_ok : s.kernel.heap.BreakOk
  stacked : s.kernel.Stacked
  first : s.tableAt s.vmm.kernelPageDir 0 ≠ 0
  kernelUser : ∀ i, UserRegion i → s.tableAt s.vmm.kernelPageDir i = 0
  ne_null : ∀ i, s.tableAt s.vmm.kernelPageDir i ≠ nullTable
  ne : ∀ d ∈ s.created, d ≠ 0 ∧ d ≠ s.vmm.kernelPageDir
  present : ∀ d ∈ s.created, ∀ i, s.tableAt d i ≠ 0 → ((s.vmm.dirs d).tables i).present = true
  low : ∀ d ∈ s.created, s.tableAt d 0 = s.tableAt s.vmm.kernelPageDir 0
  kernelHalf : ∀ d ∈ s.created, ∀ i, ¬ UserRegion i →
    s.tableAt d i = 0 ∨ s.tableAt d i = s.tableAt s.vmm.kernelPageDir i
  own : ∀ d ∈ s.created, ∀ i, UserRegion i → s.tableAt d i ≠ 0 →
    s.tableAt d i = nullTable ∨ s.Own d (s.tableAt d i)
  below : ∀ d ∈ s.created, ∀ i, s.tableAt d i ≠ 0 →
    (s.tableAt d i).toNat < (tableIn s.kernel.heap.heapCurr).toNat

namespace SpacesOk

variable {s : Spaces} {k : Kernel}

theorem curr_ge (h : SpacesOk s) : 0xC0400000 ≤ s.kernel.heap.heapCurr.toNat := h.break_ok.start_le

theorem curr_le (h : SpacesOk s) : s.kernel.heap.heapCurr.toNat ≤ 0xD0000000 :=
  h.break_ok.curr_le.trans h.break_ok.end_le

theorem tableIn_curr (h : SpacesOk s) : (tableIn s.kernel.heap.heapCurr).toNat =
    (s.kernel.heap.heapCurr.toNat + 48) / 4096 * 4096 + 4096 := toNat_tableIn h.curr_le

/-- The next table from the break is a new one. -/
theorem vacant (h : SpacesOk s) : s.Vacant (tableIn s.kernel.heap.heapCurr) := by
  have hne : tableIn s.kernel.heap.heapCurr ≠ 0 := tableIn_ne_zero h.curr_le
  refine ⟨fun j hc => ?_, fun d hd j hc => ?_⟩
  · exact Nat.ne_of_lt (h.stacked.below j (hc.trans_ne hne)) (congrArg BitVec.toNat hc)
  · exact Nat.ne_of_lt (h.below d hd j (hc.trans_ne hne)) (congrArg BitVec.toNat hc)

theorem grow (h : SpacesOk s) (horder : k.TableOrder) (hbreak : k.heap.BreakOk)
    (hstacked : k.Stacked) (hadded : s.kernel.TablesAdded k) : SpacesOk (s.withKernel k) := by
  have hkernel : k.vmm.kernelPageDir = s.vmm.kernelPageDir := hadded.kernelPageDir
  have hdirs : ∀ d ∈ s.created, k.vmm.dirs d = s.vmm.dirs d := fun d hd =>
    hadded.dirs d (h.ne d hd).2
  have hcurr := hbreak.curr_le.trans hbreak.end_le
  have hplace := h.tableIn_curr
  have hlow := h.curr_ge
  have hne : ∀ i table, table.toNat < (tableIn s.kernel.heap.heapCurr).toNat → table ≠ 0 →
      s.tableAt s.vmm.kernelPageDir i ≠ table →
      (k.vmm.dirs k.vmm.kernelPageDir).refTables i ≠ table := by
    intro i table hlt h0 hne
    by_cases hi : s.tableAt s.vmm.kernelPageDir i = 0
    · rcases hadded.added i hi with hnone | ⟨-, hge⟩
      · rw [hnone]
        exact h0.symm
      · rintro rfl
        omega
    · rw [hadded.kept i hi]
      exact hne
  refine ⟨horder, hbreak, hstacked, ?_, ?_, ?_, ?_, ?_, ?_, ?_, ?_, ?_⟩
  · exact (hadded.kept 0 h.first).trans_ne h.first
  · intro i hi
    have hnone := h.kernelUser i hi
    exact (hadded.added i hnone).resolve_right fun hc => absurd hc.1 (Nat.not_le.mpr hi.2)
  · intro i
    refine hne i nullTable ?_ (by decide) (h.ne_null i)
    rw [nullTable_toNat]
    omega
  · intro d hd
    exact ⟨(h.ne d hd).1, fun hc => (h.ne d hd).2 (hc.trans hkernel)⟩
  · intro d hd
    show ∀ i, (k.vmm.dirs d).refTables i ≠ 0 → ((k.vmm.dirs d).tables i).present = true
    rw [hdirs d hd]
    exact h.present d hd
  · intro d hd
    show (k.vmm.dirs d).refTables 0 = (k.vmm.dirs k.vmm.kernelPageDir).refTables 0
    rw [hdirs d hd, hadded.kept 0 h.first]
    exact h.low d hd
  · intro d hd i hi
    show (k.vmm.dirs d).refTables i = 0 ∨
      (k.vmm.dirs d).refTables i = (k.vmm.dirs k.vmm.kernelPageDir).refTables i
    rw [hdirs d hd]
    by_cases h0 : s.tableAt d i = 0
    · exact Or.inl h0
    · have heq := (h.kernelHalf d hd i hi).resolve_left h0
      rw [hadded.kept i (heq.symm.trans_ne h0)]
      exact Or.inr heq
  · intro d hd i hi h0
    change (k.vmm.dirs d).refTables i ≠ 0 at h0
    show (k.vmm.dirs d).refTables i = nullTable ∨
      Spaces.Own (s.withKernel k) d ((k.vmm.dirs d).refTables i)
    rw [hdirs d hd] at h0 ⊢
    refine (h.own d hd i hi h0).imp_right fun hown => ⟨fun j => ?_, fun d' hd' hdd j => ?_⟩
    · exact hne j _ (h.below d hd i h0) h0 (hown.1 j)
    · show (k.vmm.dirs d').refTables j ≠ _
      rw [hdirs d' hd']
      exact hown.2 d' hd' hdd j
  · intro d hd i h0
    change (k.vmm.dirs d).refTables i ≠ 0 at h0
    show ((k.vmm.dirs d).refTables i).toNat < (tableIn k.heap.heapCurr).toNat
    rw [hdirs d hd] at h0 ⊢
    exact (h.below d hd i h0).trans_le (tableIn_le hadded.curr_ge hcurr)

end SpacesOk

/-! ## User pages -/

/-- What `kmalloc_a` has done for the page table of a user page: the table is in a block at the
break, or the heap was full. -/
structure Kernel.TableTaken (k k₁ : Kernel) (ret : U32) : Prop where
  order : k₁.TableOrder
  break_ok : k₁.heap.BreakOk
  came : k.ServedTable k₁ ret ∨ k.TableRefused ∧ k₁ = k ∧ ret = 0

namespace Kernel.TableTaken

variable {k k₁ : Kernel} {ret : U32}

theorem dirs (h : k.TableTaken k₁ ret) :
    k₁.vmm.dirs = k.vmm.dirs ∧ k₁.vmm.kernelPageDir = k.vmm.kernelPageDir ∧
      k₁.vmm.currentPageDir = k.vmm.currentPageDir := by
  rcases h.came with ⟨-, -, hfilled, -, -⟩ | ⟨-, rfl, -⟩
  · exact ⟨hfilled.dirs, hfilled.kernelPageDir, hfilled.currentPageDir⟩
  · exact ⟨rfl, rfl, rfl⟩

theorem curr_ge (h : k.TableTaken k₁ ret) :
    k.heap.heapCurr.toNat ≤ k₁.heap.heapCurr.toNat := by
  rcases h.came with ⟨-, hcurr, -⟩ | ⟨-, rfl, -⟩
  · omega
  · exact Nat.le_refl _

theorem table_ne_zero (h : k.TableTaken k₁ ret) (hcurr : k.heap.heapCurr.toNat ≤ 0xD0000000) :
    tableIn ret ≠ 0 := by
  rcases h.came with ⟨rfl, -⟩ | ⟨-, -, rfl⟩
  · exact tableIn_ne_zero hcurr
  · decide

end Kernel.TableTaken

namespace SpacesOk

variable {s : Spaces} {d va frame : U32} {isWritable : Bool} {n : Nat} {k : Kernel}

/-- What mapping a user page can have done. -/
theorem userMap_cases (h : SpacesOk s) (hd : d ∈ s.created)
    (hk : s.kernel.allocatePage (Kernel.kmallocA n) d va frame false isWritable = some k) :
    (s.vmm.tableOf d va ≠ 0 ∧ k = { s.kernel with
        vmm := s.vmm.fillEntry (s.vmm.tableOf d va) (pagetblIndex va) frame false isWritable }) ∨
      (s.vmm.tableOf d va = 0 ∧ ∃ k₁ ret, s.kernel.TableTaken k₁ ret ∧
        k = { k₁.withTail ret 8208 with
          vmm := (k₁.vmm.installTable d (pagedirIndex va) (tableIn ret) false isWritable).fillEntry
            (tableIn ret) (pagetblIndex va) frame false isWritable }) := by
  rcases Kernel.allocatePage_cases hk with ⟨h0, -⟩ | ⟨-, ht, rfl⟩ | ⟨-, ht, k₁, table, hnew, rfl⟩
  · exact absurd h0 (h.ne d hd).1
  · exact Or.inl ⟨ht, rfl⟩
  · have hgrowth := h.order.toGrowthOk
    have hcurr := h.curr_le
    rw [Kernel.newTable_of_enabled hgrowth.enabled] at hnew
    obtain ⟨⟨k₂, ret⟩, hs, he⟩ :=
      Option.map_eq_some_iff.mp ((hgrowth.kmallocAWith_eq _).symm.trans hnew)
    cases he
    refine Or.inr ⟨ht, k₂, ret, ⟨?_, ?_, hgrowth.ksbrk_table_cases hcurr hs⟩, rfl⟩
    · exact (h.order.ksbrk n (by decide) hs).toTableOrder
    · exact (Kernel.ksbrk_grown n h.break_ok (by decide) (by simp; omega) hs).1.ok

/-- The kernel with the same directories. -/
theorem of_dirs (h : SpacesOk s) (hdirs : k.vmm.dirs = s.vmm.dirs)
    (hkernel : k.vmm.kernelPageDir = s.vmm.kernelPageDir)
    (hcurrent : k.vmm.currentPageDir = s.vmm.currentPageDir) (horder : k.TableOrder)
    (hbreak : k.heap.BreakOk)
    (hcurr : s.kernel.heap.heapCurr.toNat ≤ k.heap.heapCurr.toNat) :
    SpacesOk (s.withKernel k) := by
  have hle := hbreak.curr_le.trans hbreak.end_le
  exact h.grow horder hbreak (h.stacked.of_dirs hdirs hkernel hcurr hle)
    (.of_dirs hdirs hkernel hcurrent hcurr)

/-- A new table for a user region of the directory `d`. -/
theorem install (h : SpacesOk s) (hd : d ∈ s.created) (hva : va < kernBase)
    (hnone : s.vmm.tableOf d va = 0) {table : U32} (h0 : table ≠ 0)
    (hnew : table = nullTable ∨ s.Vacant table)
    (hbelow : table.toNat < (tableIn s.kernel.heap.heapCurr).toNat) {v : Vmm}
    (hdirs : v.dirs = (s.vmm.installTable d (pagedirIndex va) table false isWritable).dirs)
    (hkernel : v.kernelPageDir = s.vmm.kernelPageDir) :
    SpacesOk (s.withKernel { s.kernel with vmm := v }) := by
  obtain ⟨hd0, hdk⟩ := h.ne d hd
  have hother : ∀ d', d' ≠ d → v.dirs d' = s.vmm.dirs d' := fun d' hne => by
    rw [hdirs]
    exact Vmm.dirs_installTable_of_ne _ _ _ _ _ _ hne
  have hrefs : (v.dirs d).refTables =
      Function.update (s.vmm.dirs d).refTables (pagedirIndex va) table := by
    rw [hdirs]
    exact Vmm.refTables_installTable ..
  have hself : ((v.dirs d).tables (pagedirIndex va)).present = true := by
    rw [hdirs]
    exact Vmm.present_installTable_self ..
  have hentries : ∀ i, i ≠ pagedirIndex va → (v.dirs d).tables i = (s.vmm.dirs d).tables i :=
    fun i hi => by
      rw [hdirs]
      exact Vmm.tables_installTable_of_ne _ _ _ _ _ _ hi
  -- the first region has its table, so it is another one
  have hidx : pagedirIndex va ≠ 0 := by
    intro hc
    rw [Vmm.tableOf, hc] at hnone
    exact h.first ((h.low d hd).symm.trans hnone)
  have huser := userRegion_of_lt hva hidx
  have htables : v.dirs v.kernelPageDir = s.vmm.dirs s.vmm.kernelPageDir := by
    rw [hkernel, hother _ hdk.symm]
  have hat : ∀ d' i, (v.dirs d').refTables i =
      if d' = d ∧ i = pagedirIndex va then table else s.tableAt d' i := by
    intro d' i
    by_cases hdd : d' = d
    · subst hdd
      rw [hrefs]
      by_cases hi : i = pagedirIndex va
      · rw [hi, Function.update_self, if_pos ⟨rfl, rfl⟩]
      · rw [Function.update_of_ne hi, if_neg fun hc => hi hc.2]
    · rw [hother d' hdd, if_neg fun hc => hdd hc.1]
  refine ⟨h.order.of_dir hkernel htables, h.break_ok, ?_, ?_, ?_, ?_, ?_, ?_, ?_, ?_, ?_, ?_⟩
  · exact h.stacked.of_dir htables (Nat.le_refl _) h.curr_le
  all_goals simp only [Spaces.tableAt, Spaces.vmm, Spaces.withKernel, htables]
  · exact h.first
  · exact h.kernelUser
  · exact h.ne_null
  · intro d' hd'
    rw [hkernel]
    exact h.ne d' hd'
  · intro d' hd' i
    rw [hat]
    by_cases hc : d' = d ∧ i = pagedirIndex va
    · obtain ⟨rfl, rfl⟩ := hc
      exact fun _ => hself
    · rw [if_neg hc]
      by_cases hdd : d' = d
      · subst hdd
        rw [hentries i fun hi => hc ⟨rfl, hi⟩]
        exact h.present d' hd' i
      · rw [hother d' hdd]
        exact h.present d' hd' i
  · intro d' hd'
    rw [hat, if_neg fun hc => hidx hc.2.symm]
    exact h.low d' hd'
  · intro d' hd' i hi
    rw [hat, if_neg fun hc : d' = d ∧ i = pagedirIndex va => hi (hc.2 ▸ huser)]
    exact h.kernelHalf d' hd' i hi
  · intro d' hd' i hi hne
    have hown : ∀ t, t = nullTable ∨ s.Own d' t →
        (d' ≠ d → t = nullTable ∨ t ≠ table) → t = nullTable ∨
          Spaces.Own (s.withKernel { s.kernel with vmm := v }) d' t := by
      intro t ht hnt
      refine (em (t = nullTable)).imp_right fun htn => ?_
      have hown := ht.resolve_left htn
      refine ⟨fun j => ?_, fun d'' hd'' hdd j => ?_⟩
      · simp only [Spaces.tableAt, Spaces.vmm, Spaces.withKernel, htables]
        exact hown.1 j
      · show (v.dirs d'').refTables j ≠ t
        rw [hat]
        split
        · next hc =>
          obtain ⟨rfl, rfl⟩ := hc
          exact ((hnt hdd.symm).resolve_left htn).symm
        · exact hown.2 d'' hd'' hdd j
    rw [hat] at hne ⊢
    by_cases hc : d' = d ∧ i = pagedirIndex va
    · rw [if_pos hc]
      refine hown table (hnew.imp_right fun hvac => ⟨hvac.1, fun d'' hd'' _ => hvac.2 d'' hd''⟩) ?_
      exact fun hdd => absurd hc.1 hdd
    · rw [if_neg hc] at hne ⊢
      refine hown _ (h.own d' hd' i hi hne) fun _ => ?_
      rcases hnew with rfl | hvac
      · exact em _
      · exact Or.inr (hvac.2 d' hd' i)
  · intro d' hd' i hne
    rw [hat] at hne ⊢
    by_cases hc : d' = d ∧ i = pagedirIndex va
    · rw [if_pos hc]
      exact hbelow
    · rw [if_neg hc] at hne ⊢
      exact h.below d' hd' i hne

/-- A page is mapped for a user. -/
theorem userMap (h : SpacesOk s) (hd : d ∈ s.created) (hva : va < kernBase)
    (hk : s.kernel.allocatePage (Kernel.kmallocA n) d va frame false isWritable = some k) :
    SpacesOk (s.withKernel k) := by
  rcases h.userMap_cases hd hk with ⟨-, rfl⟩ | ⟨hnone, k₁, ret, htaken, rfl⟩
  · have hdirs := Vmm.dirs_fillEntry s.vmm (s.vmm.tableOf d va) frame (pagetblIndex va) false
      isWritable
    have hkernel := Vmm.kernelPageDir_fillEntry s.vmm (s.vmm.tableOf d va) frame (pagetblIndex va)
      false isWritable
    exact h.of_dirs hdirs hkernel (Vmm.currentPageDir_fillEntry ..)
      (h.order.of_dir hkernel (by rw [hkernel, hdirs])) h.break_ok (Nat.le_refl _)
  · obtain ⟨hdirs, hkernel, hcurrent⟩ := htaken.dirs
    have hbounds := Kernel.bounds_withTail k₁ ret 8208
    have horder := htaken.order.withTail ret 8208
    have hvmm : (k₁.withTail ret 8208).vmm = k₁.vmm := rfl
    generalize k₁.withTail ret 8208 = k₂ at *
    rw [← hvmm] at hdirs hkernel hcurrent ⊢
    have hcurr := congrArg BitVec.toNat (Heap.bounds_eq_iff.mp hbounds).2.2.1
    -- the heap has grown, and then the table is entered
    have hgrown : SpacesOk (s.withKernel k₂) := h.of_dirs hdirs hkernel hcurrent horder
      (htaken.break_ok.of_bounds hbounds) (htaken.curr_ge.trans hcurr.symm.le)
    have hnone' : k₂.vmm.tableOf d va = 0 := by
      rw [Vmm.tableOf, hdirs]
      exact hnone
    refine hgrown.install hd hva hnone' (htaken.table_ne_zero h.curr_le) ?_ ?_
      (Vmm.dirs_fillEntry ..) (Vmm.kernelPageDir_fillEntry ..)
    · rcases htaken.came with ⟨rfl, -⟩ | ⟨-, -, rfl⟩
      · have hvacant := h.vacant
        unfold Spaces.Vacant Spaces.tableAt Spaces.vmm at hvacant ⊢
        rw [← hdirs, ← hkernel] at hvacant
        exact Or.inr hvacant
      · exact Or.inl rfl
    · have hplace := h.tableIn_curr
      have hnext : (tableIn k₂.heap.heapCurr).toNat = _ := hgrown.tableIn_curr
      show _ < (tableIn k₂.heap.heapCurr).toNat
      rw [hnext]
      show _ < (k₂.heap.heapCurr.toNat + 48) / 4096 * 4096 + 4096
      rcases htaken.came with ⟨rfl, hmoved, -⟩ | ⟨-, rfl, rfl⟩
      · omega
      · have hlow := h.curr_ge
        show nullTable.toNat < _
        rw [nullTable_toNat]
        omega

/-! ## Every step -/

/-- A copy of the kernel's directory. -/
theorem copy (h : SpacesOk s) {kmallocA : Fin 1024 → TableSource} {p : Physical} (hd0 : d ≠ 0)
    (hdk : d ≠ s.vmm.kernelPageDir) (hd : d ∉ s.created)
    (hcopy : s.physical.copyPageDirectory kmallocA d s.vmm.kernelPageDir = some p) :
    SpacesOk ⟨p, d :: s.created⟩ := by
  rw [Physical.copyPageDirectory_of_shared kmallocA hdk hdk fun _ => rfl] at hcopy
  cases hcopy
  obtain ⟨v, hv⟩ : ∃ v, v =
    (s.physical.withDirectory d (s.vmm.dirs s.vmm.kernelPageDir)).kernel.vmm := ⟨_, rfl⟩
  have hk : v.kernelPageDir = s.vmm.kernelPageDir := by
    rw [hv]
    rfl
  have hdirs : v.dirs = Function.update s.vmm.dirs d (s.vmm.dirs s.vmm.kernelPageDir) := by
    rw [hv]
    rfl
  have hnew : v.dirs d = s.vmm.dirs s.vmm.kernelPageDir := by
    rw [hdirs, Function.update_self]
  have hold : ∀ d', d' ≠ d → v.dirs d' = s.vmm.dirs d' := by
    intro d' hne
    rw [hdirs, Function.update_of_ne hne]
  have hne : ∀ d' ∈ s.created, d' ≠ d := fun d' hd' hc => hd (hc ▸ hd')
  have hkernel : v.dirs v.kernelPageDir = s.vmm.dirs s.vmm.kernelPageDir := by
    rw [hk, hold _ hdk.symm]
  have hstate : Spaces.mk (s.physical.withDirectory d (s.vmm.dirs s.vmm.kernelPageDir))
      (d :: s.created) = ⟨{ s.physical with kernel := { s.kernel with vmm := v } },
        d :: s.created⟩ := by
    rw [hv]
    rfl
  rw [hstate]
  refine ⟨h.order.of_dir hk hkernel, h.break_ok, ?_, ?_, ?_, ?_, ?_, ?_, ?_, ?_, ?_, ?_⟩
  · exact h.stacked.of_dir hkernel (Nat.le_refl _) h.curr_le
  all_goals simp only [Spaces.tableAt, Spaces.vmm, hkernel, List.mem_cons, forall_eq_or_imp, hnew]
  · exact h.first
  · exact h.kernelUser
  · exact h.ne_null
  · rw [hk]
    exact ⟨⟨hd0, hdk⟩, h.ne⟩
  · refine ⟨h.order.tablesOk.present, fun d' hd' => ?_⟩
    rw [hold d' (hne d' hd')]
    exact h.present d' hd'
  · refine ⟨trivial, fun d' hd' => ?_⟩
    rw [hold d' (hne d' hd')]
    exact h.low d' hd'
  · refine ⟨fun _ _ => Or.inr trivial, fun d' hd' => ?_⟩
    rw [hold d' (hne d' hd')]
    exact h.kernelHalf d' hd'
  · refine ⟨fun i hi hc => absurd (h.kernelUser i hi) hc, fun d' hd' i hi hc => ?_⟩
    rw [hold d' (hne d' hd')] at hc ⊢
    refine (h.own d' hd' i hi hc).imp_right fun hown => ⟨?_, ?_⟩
    · simp only [Spaces.tableAt, Spaces.vmm, hkernel]
      exact hown.1
    · -- the new directory has the tables of the kernel's
      simp only [Spaces.tableAt, Spaces.vmm, List.mem_cons, forall_eq_or_imp, hnew]
      refine ⟨fun _ => hown.1, fun d'' hd'' hdd => ?_⟩
      rw [hold d'' (hne d'' hd'')]
      exact hown.2 d'' hd'' hdd
  · refine ⟨h.stacked.below, fun d' hd' => ?_⟩
    rw [hold d' (hne d' hd')]
    exact h.below d' hd'

theorem step {s' : Spaces} {op : SpaceOp} (h : SpacesOk s) (hstep : SpaceStep s op s') :
    SpacesOk s' := by
  cases hstep with
  | copy hd0 hdk hd hcopy => exact h.copy hd0 hdk hd hcopy
  | heap hgrows hcall =>
    obtain ⟨horder, hbreak, hstacked, hadded⟩ :=
      h.order.grows h.break_ok h.stacked hgrows hcall
    exact h.grow horder hbreak hstacked hadded
  | userMap hd hva hk => exact h.userMap hd hva hk

/-- After boot the identity map is below `KERN_BASE`, and nothing else. -/
theorem of_booted {k₀ k₁ : Kernel} (hbooted : Kernel.Booted k₀ k₁)
    (hfits : BootFits k₀.vmm.pmm.bitmapEnd) (hempty : k₀.heap.freelist = 0) (phys : Mem) :
    SpacesOk ⟨⟨k₁.kheapInit, phys⟩, []⟩ := by
  have hroom := hfits.room
  have hfirst : bootRegion 3 = 0 := by decide
  refine ⟨Kernel.tableOrder_kheapInit hbooted hroom hempty, Kernel.breakOk_kheapInit k₁,
    Kernel.stacked_kheapInit hbooted hfits, ?_, ?_, ?_, by simp, by simp, by simp, by simp,
    by simp, by simp⟩
  · show (k₁.vmm.dirs k₁.vmm.kernelPageDir).refTables 0 ≠ 0
    rw [← hfirst, hbooted.refs 3 (by decide)]
    exact bootTable_ne_zero hroom (by decide)
  · rintro i ⟨hpos, hlt⟩
    by_contra hi
    obtain ⟨t, ht, rfl⟩ := hbooted.exists_table hi
    rw [bootRegion_val] at hpos hlt
    by_cases h3 : t < 3
    · rw [if_pos h3] at hlt
      omega
    · rw [if_neg h3] at hpos
      omega
  · intro i hi
    obtain ⟨t, ht, -, htable⟩ := hbooted.exists_bootTable (hi.trans_ne (by decide))
    have hval := congrArg BitVec.toNat (htable.symm.trans hi)
    have hdir : 4096 ≤ bootDir k₀.vmm.pmm.bitmapEnd := by
      unfold bootDir
      omega
    rw [bootTable_toNat hroom ht, nullTable_toNat] at hval
    omega

end SpacesOk

end PiggyOS
