import Mathlib.Data.List.Infix
import PiggyOS.System
import PiggyOS.Utils.String

/-!
# The tags of the boot loader (`multiboot2.c`, `kernel.c`, `pmm.c`)

The boot loader leaves a list of tags in memory. A tag starts with its type and its size and is
aligned to 8 bytes; the last one has the type END. Three loops of the kernel go over the list:
`mboot2_find_tag` stops after a tag that is the END tag, the other two before one.

* `TagsAt.findTag` — what `mboot2_find_tag` returns, and what it reads
* `TagsAt.tagWalk` — the other two loops
* `walkersAgree_iff` — a list without a tag before the END tag
-/

namespace PiggyOS

open Infra

/-- `MBOOT2_TAG_END` -/
def mboot2TagEnd : U32 := 0

/-- `MBOOT2_TAG_MODULE` -/
def mboot2TagModule : U32 := 3

/-- `MBOOT2_TAG_BASIC_MEMINFO` -/
def mboot2TagBasicMeminfo : U32 := 4

section

variable (m : Mem)

/-- `tag->type` -/
def tagType (tag : U32) : U32 := m.read32 tag

/-- `tag->size` -/
def tagSize (tag : U32) : U32 := m.read32 (tag + 4)

/-- `(uintptr_t) tag + ((tag->size + 7) & ~7)` -/
def nextTag (tag : U32) : U32 := tag + ((tagSize m tag + 7) &&& ~~~7)

/-- `mb2->tags` -/
def tagsOf (mb2 : U32) : U32 := mb2 + 8

/-- The loop of `mboot2_find_tag`, for `n` rounds at most: the tag, or NULL, and the tags that have
been read. -/
def findTagFrom (type : U32) : Nat → U32 → Option (U32 × List U32)
  | 0, _ => none
  | n + 1, tag =>
    if tagType m tag = type then some (tag, [tag])
    else
      -- the condition looks at the tag before the new one
      if tagType m tag ≠ mboot2TagEnd then
        (findTagFrom type n (nextTag m tag)).map fun r => (r.1, tag :: r.2)
      else some (0, [tag])

/-- `mboot2_find_tag` -/
def mboot2FindTag (mb2 type : U32) : Option (U32 × List U32) :=
  findTagFrom m type addresses (tagsOf mb2)

/-- What a loop over the tags has come to: its variables, the tags that its body has been executed
for, and the tags that have been read. -/
structure TagWalk (σ : Type _) where
  acc : σ
  visited : List U32
  read : List U32

/-- `do { …; tag = next; } while (tag->type != MBOOT2_TAG_END)`, for `n` rounds at most. -/
def tagWalkFrom {σ : Type _} (visit : σ → U32 → σ) : Nat → TagWalk σ → U32 → Option (TagWalk σ)
  | 0, _, _ => none
  | n + 1, w, tag =>
    let w := ⟨visit w.acc tag, w.visited ++ [tag], w.read ++ [tag, nextTag m tag]⟩
    if tagType m (nextTag m tag) ≠ mboot2TagEnd then tagWalkFrom visit n w (nextTag m tag)
    else some w

/-- `mod->mod_end` -/
def modEnd (tag : U32) : U32 := m.read32 (tag + 12)

/-- `bitmap_addr` after a tag. -/
def visitModuleEnd (bitmapAddr tag : U32) : U32 :=
  if tagType m tag = mboot2TagModule then
    if modEnd m tag > bitmapAddr then modEnd m tag else bitmapAddr
  else bitmapAddr

/-- The loop of `pmm_init`, with `bitmap_addr`. -/
def pmmInitWalk (mb2 : U32) : Option (TagWalk U32) :=
  tagWalkFrom m (visitModuleEnd m) addresses ⟨0, [], []⟩ (tagsOf mb2)

/-- `module_start` and `module_end` after a tag. -/
def visitModule (bounds : U32 × U32) (tag : U32) : U32 × U32 :=
  if tagType m tag = mboot2TagModule then
    (m.read32 (tag + 8) + kernBase, modEnd m tag + kernBase)
  else bounds

/-- The loop of `kernel_main`, with `module_start` and `module_end`. -/
def kernelMainWalk (mb2 : U32) : Option (TagWalk (U32 × U32)) :=
  tagWalkFrom m (visitModule m) addresses ⟨(0, 0), [], []⟩ (tagsOf mb2)

/-- There is a tag at `tag`. -/
structure IsTag (tag : U32) : Prop where
  aligned : tag.toNat % 8 = 0
  size : 8 ≤ (tagSize m tag).toNat
  fits : tag.toNat + (tagSize m tag).toNat ≤ 2 ^ 32

/-- `ts` are the tags before the END tag at `e`, one behind the other from `a` on. -/
inductive TagsAt : U32 → List U32 → U32 → Prop
  | nil {e : U32} : IsTag m e → tagType m e = mboot2TagEnd → TagsAt e [] e
  | cons {a e : U32} {ts : List U32} : IsTag m a → tagType m a ≠ mboot2TagEnd →
      a.toNat + (tagSize m a).toNat + 7 < 2 ^ 32 → TagsAt (nextTag m a) ts e → TagsAt a (a :: ts) e

/-- The information at `mb2` is the list of these tags. -/
structure Mboot2At (mb2 : U32) (ts : List U32) (e : U32) : Prop where
  fits : mb2.toNat + 8 < 2 ^ 32
  tags : TagsAt m (tagsOf mb2) ts e

end

section

variable {σ : Type _} {m : Mem} {a e mb2 type : U32} {ts : List U32} {n : Nat}

/-! ## The next tag -/

theorem toNat_and_not_seven (x : U32) : (x &&& ~~~7).toNat = x.toNat / 8 * 8 := by
  have h : x &&& ~~~(7 : U32) = (x >>> 3) <<< 3 := by
    apply BitVec.eq_of_getLsbD_eq
    intro i hi
    rw [show ~~~(7 : U32) = BitVec.allOnes 32 <<< 3 from rfl, BitVec.getLsbD_and,
      BitVec.getLsbD_shiftLeft, BitVec.getLsbD_shiftLeft, BitVec.getLsbD_ushiftRight,
      BitVec.getLsbD_allOnes]
    by_cases h3 : i < 3
    · simp [h3]
    · simp [h3, hi, show 3 + (i - 3) = i by omega, show i - 3 < 32 by omega]
  have hlt := x.isLt
  rw [h, BitVec.toNat_shiftLeft, BitVec.toNat_ushiftRight, Nat.shiftRight_eq_div_pow,
    Nat.shiftLeft_eq, Nat.mod_eq_of_lt (by omega)]

theorem toNat_nextTag (h : a.toNat + (tagSize m a).toNat + 7 < 2 ^ 32) :
    (nextTag m a).toNat = a.toNat + ((tagSize m a).toNat + 7) / 8 * 8 := by
  have hround : (tagSize m a + 7).toNat = (tagSize m a).toNat + 7 := by
    bv_omega
  rw [nextTag, BitVec.toNat_add, toNat_and_not_seven, hround, Nat.mod_eq_of_lt (by omega)]

/-- Every tag of a list takes up 8 bytes or more. -/
theorem TagsAt.length_le (h : TagsAt m a ts e) : a.toNat + 8 * ts.length ≤ e.toNat := by
  induction h with
  | nil => exact Nat.le_refl _
  | cons htag _ hfits _ ih =>
    have hsize := htag.size
    rw [toNat_nextTag hfits] at ih
    rw [List.length_cons]
    omega

theorem TagsAt.tagType_end (h : TagsAt m a ts e) : tagType m e = mboot2TagEnd := by
  induction h with
  | nil _ hend => exact hend
  | cons _ _ _ _ ih => exact ih

theorem TagsAt.le_of_mem (h : TagsAt m a ts e) : ∀ t ∈ ts, a.toNat ≤ t.toNat := by
  induction h with
  | nil => exact fun _ h => absurd h List.not_mem_nil
  | cons _ _ hfits _ ih =>
    rw [toNat_nextTag hfits] at ih
    refine List.forall_mem_cons.mpr ⟨Nat.le_refl _, fun t ht => ?_⟩
    have hle := ih t ht
    omega

/-- No tag is at NULL. -/
theorem Mboot2At.ne_zero (h : Mboot2At m mb2 ts e) : ∀ t ∈ ts, t ≠ 0 := by
  rintro t ht rfl
  have hle := h.tags.le_of_mem _ ht
  have hfits := h.fits
  have hstart : (tagsOf mb2).toNat = mb2.toNat + 8 := by
    unfold tagsOf
    bv_omega
  have hzero : (0 : U32).toNat = 0 := rfl
  omega

theorem TagsAt.length_lt_addresses (h : TagsAt m a ts e) : ts.length < addresses := by
  have hle := h.length_le
  have hlt := e.isLt
  unfold addresses
  omega

/-! ## `mboot2_find_tag` -/

/-- **`mboot2_find_tag` returns the first tag of the type or NULL**, and reads tags of the list
only. -/
theorem TagsAt.findTag (h : TagsAt m a ts e) (hn : ts.length < n) (type : U32) :
    ∃ read, findTagFrom m type n a =
      some (((ts ++ [e]).find? fun t => tagType m t = type).getD 0, read) ∧
      ∀ t ∈ read, t ∈ ts ++ [e] := by
  induction h generalizing n with
  | @nil e _ hend =>
    obtain ⟨n, rfl⟩ := Nat.exists_eq_add_of_le' (Nat.zero_lt_of_lt hn)
    refine ⟨[e], ?_, fun t ht => ht⟩
    by_cases htype : tagType m e = type
    · rw [findTagFrom, if_pos htype]
      simp [htype]
    · rw [findTagFrom, if_neg htype, if_neg (not_not.mpr hend)]
      simp [htype]
  | @cons a e ts _ hne _ _ ih =>
    obtain ⟨n, rfl⟩ := Nat.exists_eq_add_of_le' (Nat.zero_lt_of_lt hn)
    rw [findTagFrom]
    by_cases htype : tagType m a = type
    · refine ⟨[a], ?_, fun t ht => ?_⟩
      · rw [if_pos htype]
        simp [htype]
      · rw [List.mem_singleton.mp ht]
        exact List.mem_cons_self
    · obtain ⟨read, hfind, hread⟩ := ih (Nat.lt_of_succ_lt_succ hn)
      refine ⟨a :: read, ?_, fun t ht => ?_⟩
      · rw [if_neg htype, if_pos hne, hfind]
        simp [htype]
      · rcases List.mem_cons.mp ht with rfl | ht
        · exact List.mem_cons_self
        · exact List.mem_cons_of_mem _ (hread t ht)

/-! ## The other two loops -/

/-- **The other loops visit the tags before the END tag**, if there is one, and read no other tag
than these and the END tag. -/
theorem TagsAt.tagWalk (h : TagsAt m a ts e) (hts : ts ≠ []) (hn : ts.length ≤ n)
    (visit : σ → U32 → σ) (w : TagWalk σ) :
    ∃ read, tagWalkFrom m visit n w a =
      some ⟨ts.foldl visit w.acc, w.visited ++ ts, w.read ++ read⟩ ∧ ∀ t ∈ read, t ∈ ts ++ [e] := by
  induction h generalizing n w with
  | nil => exact absurd rfl hts
  | @cons a e ts _ hne _ hrest ih =>
    obtain ⟨n, rfl⟩ := Nat.exists_eq_add_of_le' (Nat.zero_lt_of_lt hn)
    rw [tagWalkFrom]
    cases hrest with
    | nil _ hend =>
      refine ⟨[a, nextTag m a], by rw [if_neg (not_not.mpr hend)]; rfl, fun t ht => ?_⟩
      simpa using ht
    | @cons _ _ ts' htag hne' hfits hrest =>
      obtain ⟨read, hwalk, hread⟩ := ih (List.cons_ne_nil _ _) (Nat.le_of_succ_le_succ hn)
        ⟨visit w.acc a, w.visited ++ [a], w.read ++ [a, nextTag m a]⟩
      refine ⟨[a, nextTag m a] ++ read, ?_, fun t ht => ?_⟩
      · rw [if_pos hne', hwalk]
        simp
      · rcases List.mem_append.mp ht with ht | ht
        · rcases List.mem_pair.mp ht with rfl | rfl
          · exact List.mem_cons_self
          · exact List.mem_cons_of_mem _ List.mem_cons_self
        · exact List.mem_cons_of_mem _ (hread t ht)

/-- The first tag is visited, whatever its type. -/
theorem mem_visited_of_tagWalkFrom {visit : σ → U32 → σ} {w w' : TagWalk σ}
    (h : tagWalkFrom m visit n w a = some w') : a ∈ w'.visited ∧ w.visited ⊆ w'.visited := by
  induction n generalizing w a with
  | zero => cases h
  | succ n ih =>
    rw [tagWalkFrom] at h
    split at h
    · obtain ⟨-, hkept⟩ := ih h
      dsimp only at hkept
      exact ⟨hkept (by simp), fun t ht => hkept (List.mem_append_left _ ht)⟩
    · rw [← Option.some.inj h]
      exact ⟨by simp, List.subset_append_left _ _⟩

/-! ## All three -/

/-- A loop visits the tags `ts` and reads no tags but these and the one at `e`. -/
def TagWalk.Covers (w : TagWalk σ) (ts : List U32) (e : U32) : Prop :=
  w.visited = ts ∧ ∀ t ∈ w.read, t ∈ ts ++ [e]

/-- The three loops find the same tags. -/
structure WalkersAgree (m : Mem) (mb2 : U32) (ts : List U32) (e : U32) : Prop where
  findTag : ∀ type, ∃ read, mboot2FindTag m mb2 type =
    some (((ts ++ [e]).find? fun t => tagType m t = type).getD 0, read) ∧ ∀ t ∈ read, t ∈ ts ++ [e]
  pmmInit : ∃ w, pmmInitWalk m mb2 = some w ∧ w.Covers ts e
  kernelMain : ∃ w, kernelMainWalk m mb2 = some w ∧ w.Covers ts e

theorem Mboot2At.findTag (h : Mboot2At m mb2 ts e) (type : U32) :
    ∃ read, mboot2FindTag m mb2 type =
      some (((ts ++ [e]).find? fun t => tagType m t = type).getD 0, read) ∧
      ∀ t ∈ read, t ∈ ts ++ [e] :=
  h.tags.findTag h.tags.length_lt_addresses type

theorem Mboot2At.covers (h : Mboot2At m mb2 ts e) (hts : ts ≠ []) (visit : σ → U32 → σ) (acc : σ) :
    ∃ w, tagWalkFrom m visit addresses ⟨acc, [], []⟩ (tagsOf mb2) = some w ∧
      w.acc = ts.foldl visit acc ∧ w.Covers ts e := by
  obtain ⟨read, hwalk, hread⟩ :=
    h.tags.tagWalk hts (Nat.le_of_lt h.tags.length_lt_addresses) visit ⟨acc, [], []⟩
  exact ⟨_, hwalk, rfl, rfl, hread⟩

/-- **The three loops agree exactly if there is a tag before the END tag.** -/
theorem walkersAgree_iff (h : Mboot2At m mb2 ts e) : WalkersAgree m mb2 ts e ↔ ts ≠ [] := by
  constructor
  · rintro ⟨-, ⟨w, hwalk, hvisited, -⟩, -⟩ rfl
    have hmem := (mem_visited_of_tagWalkFrom hwalk).1
    rw [hvisited] at hmem
    exact absurd hmem List.not_mem_nil
  · intro hts
    refine ⟨h.findTag, ?_, ?_⟩
    · obtain ⟨w, hwalk, -, hcovers⟩ := h.covers hts (visitModuleEnd m) 0
      exact ⟨w, hwalk, hcovers⟩
    · obtain ⟨w, hwalk, -, hcovers⟩ := h.covers hts (visitModule m) (0, 0)
      exact ⟨w, hwalk, hcovers⟩

/-! ## Two lists -/

/-- Memory information and a module with the name "", before the END tag. -/
def bootInfo : Mem := Mem.ofBytes 0x1008
  [4, 0, 0, 0, 16, 0, 0, 0, 0x80, 2, 0, 0, 0, 0xfc, 0, 0,
   3, 0, 0, 0, 17, 0, 0, 0, 0, 0, 0x20, 0, 0, 0, 0x21, 0, 0, 0, 0, 0, 0, 0, 0, 0,
   0, 0, 0, 0, 8, 0, 0, 0]

theorem mboot2At_bootInfo : Mboot2At bootInfo 0x1000 [0x1008, 0x1018] 0x1030 where
  fits := by simp
  tags :=
    .cons ⟨by decide, by decide, by decide⟩ (by decide) (by decide)
      (.cons ⟨by decide, by decide, by decide⟩ (by decide) (by decide)
        (.nil ⟨by decide, by decide, by decide⟩ (by decide)))

theorem walkersAgree_bootInfo : WalkersAgree bootInfo 0x1000 [0x1008, 0x1018] 0x1030 :=
  (walkersAgree_iff mboot2At_bootInfo).mpr (List.cons_ne_nil _ _)

/-- The END tag alone. -/
def endAlone : Mem := Mem.ofBytes 0x1008 [0, 0, 0, 0, 8, 0, 0, 0]

/-- The END tag is passed over, and what is behind it is read as a tag. -/
theorem not_walkersAgree_endAlone : Mboot2At endAlone 0x1000 [] 0x1008 ∧
    ¬ WalkersAgree endAlone 0x1000 [] 0x1008 ∧
    pmmInitWalk endAlone 0x1000 = some ⟨0, [0x1008], [0x1008, 0x1010]⟩ ∧
    kernelMainWalk endAlone 0x1000 = some ⟨(0, 0), [0x1008], [0x1008, 0x1010]⟩ := by
  have hwalk : pmmInitWalk endAlone 0x1000 = some ⟨0, [0x1008], [0x1008, 0x1010]⟩ := rfl
  refine ⟨⟨by simp, .nil ⟨by decide, by decide, by decide⟩ (by decide)⟩, ?_, hwalk, rfl⟩
  rintro ⟨-, ⟨w, hw, hvisited, -⟩, -⟩
  rw [hwalk] at hw
  rw [← Option.some.inj hw] at hvisited
  exact List.cons_ne_nil _ _ hvisited

end

end PiggyOS
