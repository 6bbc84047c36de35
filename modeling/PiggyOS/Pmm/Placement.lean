import PiggyOS.Multiboot2
import PiggyOS.Pmm.Alloc

/-!
# Where the bitmap is placed (`pmm_init`)

`pmm_init` from the memory that holds the tags of the boot loader. The loops over the tags are those
of `Multiboot2.lean`; on a list of tags the function is `pmmInit` on what the tags say.

* `pmmInitAt_eq` — the function in memory, and on the list
* `pmmInitAt_placement` — the bitmap is above the modules and the kernel, and what the scan for a
  free block reads has been cleared
-/

namespace PiggyOS

open Infra

section

variable (m : Mem)

/-- `meminfo->mem_lower` -/
def memLower (tag : U32) : U32 := m.read32 (tag + 8)

/-- `meminfo->mem_upper` -/
def memUpper (tag : U32) : U32 := m.read32 (tag + 12)

/-- `pmm_init` from the tags at `mb2`; `none` is the panic, or a list without memory information. -/
def pmmInitAt (kernelEndPhys mb2 : U32) : Option (Mem × Pmm) :=
  (pmmInitWalk m mb2).bind fun w =>
    let bitmapAddr := w.acc
    let bitmapAddr := if bitmapAddr < kernelEndPhys then kernelEndPhys else bitmapAddr
    if bitmapAddr > kernBase + 0x00400000 then none
    else
      (mboot2FindTag m mb2 mboot2TagBasicMeminfo).bind fun (meminfo, _) =>
        if meminfo = 0 then none
        else
          let memSize := (memLower m meminfo + memUpper m meminfo) * kib
          let maxBlocks := memSize / pageSize
          let pmmBitmap := alignTo (bitmapAddr + kernBase) 4
          let pmmBitmapSize := maxBlocks / 8
          let m := m.fill pmmBitmap 0 pmmBitmapSize.toNat
          some (m,
            { maxBlocks := maxBlocks
              usedBlocks := 0
              pmmBitmap := pmmBitmap
              pmmBitmapSize := pmmBitmapSize
              words := m.words pmmBitmap })

/-- What the kernel looks at in the tag at `tag`. -/
def tagAt (tag : U32) : Mboot2Tag :=
  if tagType m tag = mboot2TagModule then .module (m.read32 (tag + 8)) (modEnd m tag)
  else if tagType m tag = mboot2TagBasicMeminfo then .basicMeminfo (memLower m tag) (memUpper m tag)
  else .other (tagType m tag)

/-- `bitmap_addr` after a tag of a list. -/
def laterEnd (bitmapAddr : U32) : Mboot2Tag → U32
  | .module _ modEnd => if modEnd > bitmapAddr then modEnd else bitmapAddr
  | _ => bitmapAddr

end

section

variable {m m' : Mem} {mb2 e kernelEndPhys x : U32} {ts : List U32} {p : Pmm}

/-! ## The tags of a list -/

theorem tagAt_of_module {t : U32} (h : tagType m t = mboot2TagModule) :
    tagAt m t = .module (m.read32 (t + 8)) (modEnd m t) := if_pos h

theorem visitModuleEnd_eq (t : U32) : visitModuleEnd m x t = laterEnd x (tagAt m t) := by
  unfold visitModuleEnd tagAt
  by_cases hmodule : tagType m t = mboot2TagModule
  · rw [if_pos hmodule, if_pos hmodule]
    rfl
  · rw [if_neg hmodule, if_neg hmodule]
    split <;> rfl

theorem foldl_visitModuleEnd :
    ts.foldl (visitModuleEnd m) x = (ts.map (tagAt m)).foldl laterEnd x := by
  induction ts generalizing x with
  | nil => rfl
  | cons t ts ih => rw [List.foldl_cons, ih, List.map_cons, List.foldl_cons, visitModuleEnd_eq]

theorem findMeminfo_map : findMeminfo (ts.map (tagAt m)) =
    (ts.find? fun t => tagType m t = mboot2TagBasicMeminfo).map
      fun t => (memLower m t, memUpper m t) := by
  induction ts with
  | nil => rfl
  | cons t ts ih =>
    rw [List.map_cons, findMeminfo, List.findSome?_cons]
    unfold findMeminfo at ih
    by_cases htype : tagType m t = mboot2TagBasicMeminfo
    · have hmodule : tagType m t ≠ mboot2TagModule := by
        rw [htype]
        decide
      have htag : tagAt m t = .basicMeminfo (memLower m t) (memUpper m t) := by
        rw [tagAt, if_neg hmodule, if_pos htype]
      rw [htag, List.find?_cons_of_pos (by simpa using htype)]
      rfl
    · rw [List.find?_cons_of_neg (by simpa using htype), ← ih, tagAt]
      by_cases hmodule : tagType m t = mboot2TagModule
      · rw [if_pos hmodule]
      · rw [if_neg hmodule, if_neg htype]

/-- `bitmap_addr` does not go down and is not below the end of the module. -/
theorem laterEnd_spec (x : U32) (tag : Mboot2Tag) : x.toNat ≤ (laterEnd x tag).toNat ∧
    ∀ s e, tag = .module s e → e.toNat ≤ (laterEnd x tag).toNat := by
  cases tag with
  | module s e =>
    rw [laterEnd]
    by_cases hgt : e > x
    · rw [if_pos hgt]
      refine ⟨Nat.le_of_lt hgt, fun s' e' h => ?_⟩
      cases h
      exact Nat.le_refl _
    · rw [if_neg hgt]
      refine ⟨Nat.le_refl _, fun s' e' h => ?_⟩
      cases h
      exact Nat.le_of_not_lt hgt
  | basicMeminfo lower upper => exact ⟨Nat.le_refl _, fun _ _ h => nomatch h⟩
  | other type => exact ⟨Nat.le_refl _, fun _ _ h => nomatch h⟩

theorem laterEnd_lt {b : Nat} {tag : Mboot2Tag} (hx : x.toNat < b)
    (htag : ∀ s e, tag = .module s e → e.toNat < b) : (laterEnd x tag).toNat < b := by
  cases tag with
  | module s e =>
    rw [laterEnd]
    split
    · exact htag s e rfl
    · exact hx
  | basicMeminfo lower upper => exact hx
  | other type => exact hx

/-- The end of the modules is not below that of any of them. -/
theorem foldl_laterEnd (x : U32) (tags : List Mboot2Tag) :
    x.toNat ≤ (tags.foldl laterEnd x).toNat ∧
      ∀ s e, .module s e ∈ tags → e.toNat ≤ (tags.foldl laterEnd x).toNat := by
  induction tags generalizing x with
  | nil => exact ⟨Nat.le_refl _, fun _ _ h => absurd h List.not_mem_nil⟩
  | cons tag tags ih =>
    obtain ⟨hle, hend⟩ := laterEnd_spec x tag
    obtain ⟨hle', hends⟩ := ih (laterEnd x tag)
    rw [List.foldl_cons]
    refine ⟨Nat.le_trans hle hle', fun s e h => ?_⟩
    rcases List.mem_cons.mp h with rfl | h
    · exact Nat.le_trans (hend s e rfl) hle'
    · exact hends s e h

theorem foldl_laterEnd_lt {b : Nat} {tags : List Mboot2Tag} (hx : x.toNat < b)
    (htags : ∀ s e, .module s e ∈ tags → e.toNat < b) : (tags.foldl laterEnd x).toNat < b := by
  induction tags generalizing x with
  | nil => exact hx
  | cons tag tags ih =>
    rw [List.foldl_cons]
    refine ih (laterEnd_lt hx fun s e h => ?_) fun s e h => ?_
    · exact htags s e (h ▸ List.mem_cons_self)
    · exact htags s e (List.mem_cons_of_mem _ h)

/-! ## `pmm_init` on a list -/

/-- The memory manager of `p` with the bitmap that lies in memory. -/
def Pmm.inMemory (p : Pmm) (m : Mem) : Mem × Pmm :=
  (m.fill p.pmmBitmap 0 p.pmmBitmapSize.toNat,
    { p with words := (m.fill p.pmmBitmap 0 p.pmmBitmapSize.toNat).words p.pmmBitmap })

/-- The first tag with a type before the END tag. -/
theorem find_getD (h : TagsAt m (tagsOf mb2) ts e) {type : U32} (htype : type ≠ mboot2TagEnd) :
    ((ts ++ [e]).find? fun t => tagType m t = type).getD 0 =
      (ts.find? fun t => tagType m t = type).getD 0 := by
  rw [List.find?_append]
  cases ts.find? fun t => tagType m t = type with
  | some t => rfl
  | none =>
    rw [Option.none_or, List.find?_singleton, h.tagType_end, if_neg (by simpa using htype.symm)]

/-- **`pmm_init` in memory is `pmm_init` on the list of the tags.** -/
theorem pmmInitAt_eq (h : Mboot2At m mb2 ts e) (hts : ts ≠ []) (raw : Nat → U32) :
    pmmInitAt m kernelEndPhys mb2 =
      (pmmInit raw kernelEndPhys (ts.map (tagAt m))).map (·.inMemory m) := by
  obtain ⟨w, hwalk, hacc, -⟩ := h.covers hts (visitModuleEnd m) 0
  obtain ⟨read, hfind, -⟩ := h.findTag mboot2TagBasicMeminfo
  rw [find_getD h.tags (by decide)] at hfind
  have hend : (if w.acc < kernelEndPhys then kernelEndPhys else w.acc) =
      bootEnd kernelEndPhys (ts.map (tagAt m)) := by
    rw [hacc, foldl_visitModuleEnd]
    rfl
  rw [pmmInitAt, pmmInitWalk, hwalk, Option.bind_some]
  dsimp only
  rw [hend]
  unfold pmmInit
  rw [findMeminfo_map]
  by_cases hlarge : bootEnd kernelEndPhys (ts.map (tagAt m)) > kernBase + 0x00400000
  · rw [if_pos hlarge, if_pos hlarge]
    rfl
  · rw [if_neg hlarge, if_neg hlarge, hfind, Option.bind_some]
    cases ht : ts.find? fun t => tagType m t = mboot2TagBasicMeminfo with
    | none => rfl
    | some t =>
      have ht0 : t ≠ 0 := h.ne_zero t (List.mem_of_find?_eq_some ht)
      simp only [Option.getD_some, Option.map_some, if_neg ht0, Pmm.inMemory]

/-! ## The place of the bitmap -/

/-- Where the boot images end. -/
theorem bootEnd_spec {tags : List Mboot2Tag} {b : Nat} (hkernel : kernelEndPhys.toNat < b)
    (htags : ∀ s e, .module s e ∈ tags → e.toNat < b) :
    kernelEndPhys.toNat ≤ (bootEnd kernelEndPhys tags).toNat ∧
      (∀ s e, .module s e ∈ tags → e.toNat ≤ (bootEnd kernelEndPhys tags).toNat) ∧
      (bootEnd kernelEndPhys tags).toNat < b := by
  have hends : ∀ s e, .module s e ∈ tags → e.toNat ≤ (bitmapAddrOf tags).toNat :=
    (foldl_laterEnd 0 tags).2
  have hlt : (bitmapAddrOf tags).toNat < b := foldl_laterEnd_lt (Nat.zero_lt_of_lt hkernel) htags
  unfold bootEnd
  by_cases hbelow : bitmapAddrOf tags < kernelEndPhys
  · rw [if_pos hbelow]
    exact ⟨Nat.le_refl _, fun s e h => Nat.le_trans (hends s e h) (Nat.le_of_lt hbelow), hkernel⟩
  · rw [if_neg hbelow]
    exact ⟨Nat.le_of_not_lt hbelow, hends, hlt⟩

/-- The bitmap of boot images that end below the first gigabyte. -/
theorem alignTo_bootEnd {x : U32} (hx : x.toNat < 0x40000000 - 4) :
    kernBase.toNat + x.toNat ≤ (alignTo (x + kernBase) 4).toNat ∧
      (alignTo (x + kernBase) 4).toNat % 4 = 0 := by
  have hsum : (x + kernBase).toNat = kernBase.toNat + x.toNat := by
    rw [BitVec.toNat_add, kernBase_toNat]
    omega
  have hspec := @alignTo_spec (x + kernBase) 4 (by simp)
    (by rw [hsum, kernBase_toNat]; show _ + 4 ≤ _; omega)
  rw [hsum] at hspec
  exact hspec

/-- The module tags of the list are those of the memory. -/
theorem end_lt_of_mem_map {b : Nat}
    (hmods : ∀ t ∈ ts, tagType m t = mboot2TagModule → (modEnd m t).toNat < b) :
    ∀ s e, .module s e ∈ ts.map (tagAt m) → e.toNat < b := by
  intro s e he
  obtain ⟨t, ht, heq⟩ := List.mem_map.mp he
  by_cases hmodule : tagType m t = mboot2TagModule
  · rw [tagAt_of_module hmodule] at heq
    cases heq
    exact hmods t ht hmodule
  · rw [tagAt, if_neg hmodule] at heq
    split at heq <;> cases heq

/-- `pmm_init` comes back when it is told the size of the memory. -/
theorem exists_pmmInit (raw : Nat → U32)
    (hmeminfo : ∃ t ∈ ts, tagType m t = mboot2TagBasicMeminfo)
    (hlt : (bootEnd kernelEndPhys (ts.map (tagAt m))).toNat < 0x40000000 - 4) :
    ∃ p, pmmInit raw kernelEndPhys (ts.map (tagAt m)) = some p := by
  obtain ⟨t, ht, htype⟩ := hmeminfo
  have hfound : (ts.find? fun t => tagType m t = mboot2TagBasicMeminfo).isSome = true :=
    List.find?_isSome.mpr ⟨t, ht, by simpa using htype⟩
  obtain ⟨t, ht⟩ := Option.isSome_iff_exists.mp hfound
  have hsmall : ¬ bootEnd kernelEndPhys (ts.map (tagAt m)) > kernBase + 0x00400000 := by
    show ¬ _ < _
    have hbase : (kernBase + 0x00400000).toNat = 0xc0400000 := rfl
    rw [BitVec.lt_def, hbase]
    omega
  unfold pmmInit
  rw [if_neg hsmall, findMeminfo_map, ht]
  exact ⟨_, rfl⟩

/-- The bytes of the bitmap are cleared. -/
theorem Pmm.fill_inMemory {j : Nat} (hj : j < p.pmmBitmapSize.toNat) :
    (p.inMemory m).1 (p.pmmBitmap + BitVec.ofNat 32 j) = 0 := by
  have hlt := p.pmmBitmapSize.isLt
  show m.fill p.pmmBitmap 0 p.pmmBitmapSize.toNat (p.pmmBitmap + BitVec.ofNat 32 j) = 0
  rw [Mem.fill_apply hlt, Mem.toNat_offset (by omega), if_pos hj]

/-- A word of the bitmap, all of whose bytes are cleared. -/
theorem Pmm.words_inMemory {i : Nat} (hi : 4 * i + 4 ≤ p.pmmBitmapSize.toNat) :
    (p.inMemory m).2.words i = 0 := by
  have hlt := p.pmmBitmapSize.isLt
  show (m.fill p.pmmBitmap 0 p.pmmBitmapSize.toNat).words p.pmmBitmap i = 0
  rw [Bitmap.words_fill (by omega) hlt, Bitmap.zeroBytes_of_le hi]

/-- **The bitmap is above the kernel and all modules, and what the scan for a free block reads is
cleared.** -/
theorem pmmInitAt_placement (h : Mboot2At m mb2 ts e) (hts : ts ≠ [])
    (hmeminfo : ∃ t ∈ ts, tagType m t = mboot2TagBasicMeminfo)
    (hmods : ∀ t ∈ ts, tagType m t = mboot2TagModule → (modEnd m t).toNat < 0x40000000 - 4)
    (hkernel : kernelEndPhys.toNat < 0x40000000 - 4) :
    ∃ m' p, pmmInitAt m kernelEndPhys mb2 = some (m', p) ∧
      p.pmmBitmap.toNat % 4 = 0 ∧
      (∀ t ∈ ts, tagType m t = mboot2TagModule →
        kernBase.toNat + (modEnd m t).toNat ≤ p.pmmBitmap.toNat) ∧
      kernBase.toNat + kernelEndPhys.toNat ≤ p.pmmBitmap.toNat ∧
      p.words = m'.words p.pmmBitmap ∧
      (∀ j < p.pmmBitmapSize.toNat, m' (p.pmmBitmap + BitVec.ofNat 32 j) = 0) ∧
      ∀ i < p.maxBlocks.toNat / 32, 4 * i + 4 ≤ p.pmmBitmapSize.toNat ∧ p.words i = 0 := by
  obtain ⟨hkep, hends, hlt⟩ := bootEnd_spec hkernel (end_lt_of_mem_map hmods)
  obtain ⟨habove, haligned⟩ := alignTo_bootEnd hlt
  obtain ⟨p, hp⟩ := exists_pmmInit (fun _ => 0) hmeminfo hlt
  obtain ⟨-, -, hsize, hbitmap, -⟩ := Pmm.pmmInit_eq_some hp
  have hbytes : p.pmmBitmapSize.toNat = p.maxBlocks.toNat / 8 := by
    rw [hsize, BitVec.toNat_udiv]
    rfl
  refine ⟨(p.inMemory m).1, (p.inMemory m).2, by rw [pmmInitAt_eq h hts, hp]; rfl, ?_,
    fun t ht hmodule => ?_, ?_, rfl, fun j hj => p.fill_inMemory hj, fun i hi => ?_⟩
  · show p.pmmBitmap.toNat % 4 = 0
    rw [hbitmap]
    exact haligned
  · show _ ≤ p.pmmBitmap.toNat
    have hmem : .module (m.read32 (t + 8)) (modEnd m t) ∈ ts.map (tagAt m) :=
      List.mem_map.mpr ⟨t, ht, tagAt_of_module hmodule⟩
    have hle := hends _ _ hmem
    rw [hbitmap]
    omega
  · show _ ≤ p.pmmBitmap.toNat
    rw [hbitmap]
    omega
  · have hi : i < p.maxBlocks.toNat / 32 := hi
    have hword : 4 * i + 4 ≤ p.pmmBitmapSize.toNat := by omega
    exact ⟨hword, p.words_inMemory hword⟩

/-- The module of the list ends at `0x210000`. -/
theorem pmmInitAt_placement_bootInfo : ∃ m' p, pmmInitAt bootInfo 0x1ff000 0x1000 = some (m', p) ∧
    kernBase.toNat + 0x210000 ≤ p.pmmBitmap.toNat := by
  have hend : (modEnd bootInfo 0x1018).toNat = 0x210000 := by decide
  have hmods : ∀ t ∈ [0x1008, 0x1018], tagType bootInfo t = mboot2TagModule →
      (modEnd bootInfo t).toNat < 0x40000000 - 4 := by
    intro t ht htype
    rcases List.mem_pair.mp ht with rfl | rfl
    · exact absurd htype (by decide)
    · rw [hend]
      omega
  have hkernel : (0x1ff000 : U32).toNat < 0x40000000 - 4 := by
    show 0x1ff000 < _
    omega
  obtain ⟨m', p, hp, -, habove, -⟩ := pmmInitAt_placement mboot2At_bootInfo (List.cons_ne_nil _ _)
    ⟨0x1008, by simp, by decide⟩ hmods hkernel
  have hmodule := habove 0x1018 (by simp) (by decide)
  rw [hend] at hmodule
  exact ⟨m', p, hp, hmodule⟩

end

end PiggyOS
