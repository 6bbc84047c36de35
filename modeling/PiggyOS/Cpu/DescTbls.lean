import Mathlib.Data.List.Induction
import Mathlib.Logic.Function.Basic
import PiggyOS.Infra.Memory

/-!
# Descriptor tables (`gdt.c`, `idt.c`, `tss.c`)

The C code fills packed structures field by field; the processor reads each of them as one
quadword. Both views are defined here, the second one from the processor's manual, and the results
say what the processor finds in the tables that the C code has filled.
-/

namespace PiggyOS

open Infra

/-! ## Segment descriptors -/

/-- `gdt_descr_t` -/
structure GdtDescr where
  limitLow : BitVec 16
  baseLow : BitVec 16
  baseMiddle : BitVec 8
  access : BitVec 8
  granularity : BitVec 8
  baseHigh : BitVec 8
  deriving DecidableEq

/-- The structure in memory, lowest byte first. -/
def GdtDescr.quad (d : GdtDescr) : BitVec (8 + 8 + 8 + 8 + 16 + 16) :=
  d.baseHigh ++ d.granularity ++ d.access ++ d.baseMiddle ++ d.baseLow ++ d.limitLow

/-- `gdt` -/
abbrev Gdt := BitVec 16 → GdtDescr

/-- `gdt_set_descr`; `index` is not compared with `GDT_LEN`. -/
def gdtSetDescr (gdt : Gdt) (index : BitVec 16) (base limit : U32)
    (access granularity : BitVec 8) : Gdt :=
  Function.update gdt index
    { baseLow := (base &&& 0xFFFF).setWidth 16
      baseMiddle := ((base >>> 16) &&& 0xFF).setWidth 8
      baseHigh := ((base >>> 24) &&& 0xFF).setWidth 8
      limitLow := (limit &&& 0xFFFF).setWidth 16
      access := access
      granularity := ((limit >>> 16) &&& 0x0F).setWidth 8 ||| (granularity &&& 0xF0) }

/-- What the processor makes of a descriptor. -/
structure Segment where
  base : U32
  /-- The last offset in the segment. -/
  limit : U32
  access : BitVec 8
  deriving DecidableEq

namespace Segment

variable (s : Segment)

def present : Bool := s.access.getLsbD 7

/-- The descriptor privilege level. -/
def dpl : BitVec 2 := s.access.extractLsb' 5 2

/-- A code segment that is entered without a change of privilege. -/
def conforming : Bool := s.access.getLsbD 3 && s.access.getLsbD 2

end Segment

/-- The processor scales a limit of 20 bits by 4096 if the bit `G` is set. -/
def scaledLimit (limit : BitVec 20) (g : Bool) : U32 :=
  if g then (limit ++ (0xfff : BitVec 12) : BitVec (20 + 12)) else limit.setWidth 32

/-- A segment descriptor as the processor reads it. -/
def segmentOf (q : BitVec (8 + 8 + 8 + 8 + 16 + 16)) : Segment where
  base := (q.extractLsb' 56 8 ++ q.extractLsb' 32 8 ++ q.extractLsb' 16 16 : BitVec (8 + 8 + 16))
  limit := scaledLimit (q.extractLsb' 48 4 ++ q.extractLsb' 0 16 : BitVec (4 + 16)) (q.getLsbD 55)
  access := q.extractLsb' 40 8

/-- The segment that a selector names; bit 2 of a selector is clear, there is no LDT. -/
def Gdt.segment (gdt : Gdt) (sel : BitVec 16) : Segment := segmentOf (gdt (sel >>> 3)).quad

/-- A call of `gdt_set_descr`. -/
structure GdtCall where
  index : BitVec 16
  base : U32
  limit : U32
  access : BitVec 8
  granularity : BitVec 8

/-- What such a call asks for: the bits of a limit above the lowest 20 have no place. -/
def GdtCall.segment (c : GdtCall) : Segment :=
  ⟨c.base, scaledLimit (c.limit.setWidth 20) (c.granularity.getLsbD 7), c.access⟩

/-- `calls` made one after the other. -/
def Gdt.run (gdt : Gdt) (calls : List GdtCall) : Gdt :=
  calls.foldl (fun gdt c => gdtSetDescr gdt c.index c.base c.limit c.access c.granularity) gdt

/-- `gdt_init`, without `lgdt`. -/
def gdtInit (gdt : Gdt) : Gdt :=
  let gdt := gdtSetDescr gdt 0 0 0 0 0
  -- kernel code and data
  let gdt := gdtSetDescr gdt 1 0 0xFFFFFFFF 0x9A 0xCF
  let gdt := gdtSetDescr gdt 2 0 0xFFFFFFFF 0x92 0xCF
  -- user code and data
  let gdt := gdtSetDescr gdt 3 0 0xFFFFFFFF 0xFA 0xCF
  gdtSetDescr gdt 4 0 0xFFFFFFFF 0xF2 0xCF

/-! ## Gates -/

/-- `idt_descr_t` -/
structure IdtDescr where
  baseLow : BitVec 16
  segSel : BitVec 16
  zero : BitVec 8
  flags : BitVec 8
  baseHigh : BitVec 16
  deriving DecidableEq

/-- The structure in memory, lowest byte first. -/
def IdtDescr.quad (d : IdtDescr) : BitVec (16 + 8 + 8 + 16 + 16) :=
  d.baseHigh ++ d.flags ++ d.zero ++ d.segSel ++ d.baseLow

/-- `idt` -/
abbrev Idt := BitVec 8 → IdtDescr

/-- `idt_set_descr` -/
def idtSetDescr (idt : Idt) (num : BitVec 8) (base : U32) (flags : BitVec 8) : Idt :=
  Function.update idt num
    { baseLow := (base &&& 0xffff).setWidth 16
      baseHigh := ((base >>> 16) &&& 0xffff).setWidth 16
      segSel := 0x08
      zero := 0
      flags := flags }

/-- `idt_init` without the ports: `isr n` and `irq n` are the addresses of the stubs. -/
def idtInit (isr irq : Nat → U32) : Idt :=
  let idt : Idt := fun _ => ⟨0, 0, 0, 0, 0⟩
  -- exception stubs
  let idt := (List.range 32).foldl
    (fun idt n => idtSetDescr idt (.ofNat 8 n) (isr n) 0x8E) idt
  let idt := idtSetDescr idt 127 (isr 127) 0x8E
  -- IRQ stubs
  (List.range 16).foldl (fun idt n => idtSetDescr idt (.ofNat 8 (32 + n)) (irq n) 0x8E) idt

/-- A 32-bit interrupt gate. -/
structure Gate where
  offset : U32
  selector : BitVec 16
  dpl : BitVec 2
  deriving DecidableEq

/-- A gate as the processor reads it: present, and of type 0xE. -/
def gateOf (q : BitVec (16 + 8 + 8 + 16 + 16)) : Option Gate :=
  if q.getLsbD 47 ∧ q.extractLsb' 40 5 = 0xE then
    some ⟨(q.extractLsb' 48 16 ++ q.extractLsb' 0 16 : BitVec (16 + 16)), q.extractLsb' 16 16,
      q.extractLsb' 45 2⟩
  else none

def Idt.gate (idt : Idt) (n : BitVec 8) : Option Gate := gateOf (idt n).quad

/-! ## The task state segment -/

/-- `tss_entry_t`; the unnamed halves of words are zero. -/
structure Tss where
  prevTss : BitVec 16
  esp0 : U32
  ss0 : BitVec 16
  esp1 : U32
  ss1 : BitVec 16
  esp2 : U32
  ss2 : BitVec 16
  cr3 : U32
  eip : U32
  eflags : U32
  eax : U32
  ecx : U32
  edx : U32
  ebx : U32
  esp : U32
  ebp : U32
  esi : U32
  edi : U32
  es : BitVec 16
  cs : BitVec 16
  ss : BitVec 16
  ds : BitVec 16
  fs : BitVec 16
  gs : BitVec 16
  ldt : BitVec 16
  trace : BitVec 16
  bitmap : BitVec 16

/-- The words of the structure in memory. -/
def Tss.words (t : Tss) : List U32 :=
  [t.prevTss.setWidth 32, t.esp0, t.ss0.setWidth 32, t.esp1, t.ss1.setWidth 32, t.esp2,
    t.ss2.setWidth 32, t.cr3, t.eip, t.eflags, t.eax, t.ecx, t.edx, t.ebx, t.esp, t.ebp, t.esi,
    t.edi, t.es.setWidth 32, t.cs.setWidth 32, t.ss.setWidth 32, t.ds.setWidth 32,
    t.fs.setWidth 32, t.gs.setWidth 32, t.ldt.setWidth 32,
    (t.bitmap ++ t.trace : BitVec (16 + 16))]

/-- `sizeof(tss_entry_t)` -/
def sizeofTss : U32 := 104

/-- `tss_init` without `ltr`: `addr` is the address of `tss`. -/
def tssInit (gdt : Gdt) (addr index kss kesp : U32) : Gdt × Tss :=
  (gdtSetDescr gdt (index.setWidth 16) addr (addr + sizeofTss) 0xe9 0,
    { prevTss := 0, esp0 := kesp, ss0 := kss.setWidth 16, esp1 := 0, ss1 := 0, esp2 := 0, ss2 := 0
      cr3 := 0, eip := 0, eflags := 0, eax := 0, ecx := 0, edx := 0, ebx := 0, esp := 0, ebp := 0
      esi := 0, edi := 0, es := 0x13, cs := 0x0b, ss := 0x13, ds := 0x13, fs := 0x13, gs := 0x13
      ldt := 0, trace := 0, bitmap := 0 })

/-- `tss_set_stack` -/
def tssSetStack (t : Tss) (kss kesp : U32) : Tss := { t with ss0 := kss.setWidth 16, esp0 := kesp }

/-- Bit `i` of the structure in memory, counted from its first byte. -/
def Tss.bit (t : Tss) (i : Nat) : Bool := (t.words.getD (i / 32) 0).getLsbD (i % 32)

/-- Whether the processor lets code with less privilege than `IOPL` use one byte of port `port`:
the two bytes of the permission bitmap lie in the segment and the bit of the port is clear. -/
def Tss.permits (t : Tss) (limit : U32) (port : Nat) : Bool :=
  decide (t.bitmap.toNat + port / 8 + 1 ≤ limit.toNat) && !t.bit (8 * t.bitmap.toNat + port)

/-! ## Fields -/

section Fields

open BitVec

/-- A mask that keeps the bits which fit into the field. -/
theorem setWidth_and_mask {w : Nat} {mask : U32} (h : ∀ i < w, mask.getLsbD i = true) (x : U32)
    (k : Nat) : ((x >>> k) &&& mask).setWidth w = x.extractLsb' k w := by
  ext i hi
  simp [h i hi]

theorem setWidth_and_ffff (x : U32) : (x &&& 0xFFFF).setWidth 16 = x.extractLsb' 0 16 := by
  have h := @setWidth_and_mask 16 0xFFFF (by decide) x 0
  rwa [BitVec.ushiftRight_zero] at h

theorem segmentOf_quad (d : GdtDescr) : segmentOf d.quad =
    { base := (d.baseHigh ++ d.baseMiddle ++ d.baseLow : BitVec (8 + 8 + 16))
      limit := scaledLimit (d.granularity.extractLsb' 0 4 ++ d.limitLow : BitVec (4 + 16))
        (d.granularity.getLsbD 7)
      access := d.access } := by
  simp (disch := decide) only [segmentOf, GdtDescr.quad, extractLsb'_append_eq_of_le,
    extractLsb'_append_eq_of_add_le, getLsbD_append, Nat.reduceLT, Nat.reduceSub,
    extractLsb'_eq_self, if_false, if_true]

theorem gateOf_quad (d : IdtDescr) : gateOf d.quad =
    if d.flags.getLsbD 7 ∧ d.flags.extractLsb' 0 5 = 0xE then
      some ⟨(d.baseHigh ++ d.baseLow : BitVec (16 + 16)), d.segSel, d.flags.extractLsb' 5 2⟩
    else none := by
  simp (disch := decide) only [gateOf, IdtDescr.quad, extractLsb'_append_eq_of_le,
    extractLsb'_append_eq_of_add_le, getLsbD_append, Nat.reduceLT, Nat.reduceSub,
    extractLsb'_eq_self, if_false, if_true]

/-- The three parts of a base. -/
theorem base_parts (base : U32) :
    (((base >>> 24) &&& 0xFF).setWidth 8 ++ ((base >>> 16) &&& 0xFF).setWidth 8 ++
      (base &&& 0xFFFF).setWidth 16 : BitVec (8 + 8 + 16)) = base := by
  rw [setWidth_and_mask (by decide), setWidth_and_mask (by decide), setWidth_and_ffff,
    extractLsb'_append_extractLsb'_eq_extractLsb' (by decide),
    extractLsb'_append_extractLsb'_eq_extractLsb' (by decide)]
  exact extractLsb'_eq_self

/-- The two parts of a gate's offset. -/
theorem offset_parts (base : U32) :
    (((base >>> 16) &&& 0xffff).setWidth 16 ++ (base &&& 0xffff).setWidth 16 : BitVec (16 + 16)) =
      base := by
  rw [setWidth_and_mask (by decide), setWidth_and_ffff,
    extractLsb'_append_extractLsb'_eq_extractLsb' (by decide)]
  exact extractLsb'_eq_self

/-- The two parts of a limit; the high one shares a byte with the flags. -/
theorem limit_parts (limit : U32) (g : BitVec 8) :
    ((((limit >>> 16) &&& 0x0F).setWidth 8 ||| (g &&& 0xF0)).extractLsb' 0 4 ++
      (limit &&& 0xFFFF).setWidth 16 : BitVec (4 + 16)) = limit.setWidth 20 := by
  have hhigh : (((limit >>> 16) &&& 0x0F).setWidth 8 ||| (g &&& 0xF0)).extractLsb' 0 4 =
      limit.extractLsb' 16 4 := by
    rw [extractLsb'_or, extractLsb'_and, show (0xF0 : BitVec 8).extractLsb' 0 4 = 0#4 by decide,
      BitVec.and_zero, BitVec.or_zero, extractLsb'_setWidth_of_le (by decide),
      ← setWidth_eq_extractLsb' (by decide), setWidth_and_mask (by decide)]
  rw [hhigh, setWidth_and_ffff, extractLsb'_append_extractLsb'_eq_extractLsb' (by decide)]
  exact (setWidth_eq_extractLsb' (by decide)).symm

theorem granularity_flag (limit : U32) (g : BitVec 8) :
    (((limit >>> 16) &&& 0x0F).setWidth 8 ||| (g &&& 0xF0)).getLsbD 7 = g.getLsbD 7 := by
  simp

end Fields

/-! ## Tables -/

/-- The processor finds in an entry what the call asked for. -/
theorem segmentOf_gdtSetDescr (gdt : Gdt) (c : GdtCall) :
    segmentOf (gdtSetDescr gdt c.index c.base c.limit c.access c.granularity c.index).quad =
      c.segment := by
  rw [gdtSetDescr, Function.update_self, segmentOf_quad, base_parts, limit_parts, granularity_flag]
  rfl

/-- The gate that a call of `idt_set_descr` with the flags 0x8E leaves. -/
theorem gate_idtSetDescr (idt : Idt) (num n : BitVec 8) (base : U32) :
    (idtSetDescr idt num base 0x8E).gate n =
      if n = num then some ⟨base, 0x08, 0⟩ else idt.gate n := by
  unfold Idt.gate idtSetDescr
  by_cases h : n = num
  · subst h
    have hflags : (0x8E : BitVec 8).getLsbD 7 ∧ (0x8E : BitVec 8).extractLsb' 0 5 = 0xE := by decide
    have hdpl : (0x8E : BitVec 8).extractLsb' 5 2 = 0 := by decide
    rw [Function.update_self, gateOf_quad, offset_parts, if_pos rfl, if_pos hflags, hdpl]
  · rw [Function.update_of_ne h, if_neg h]

/-- The stubs of a block of vectors. -/
theorem gate_foldl_idtSetDescr (idt : Idt) (stub : Nat → U32) (first count : Nat)
    (h : first + count ≤ 256) (n : BitVec 8) :
    ((List.range count).foldl (fun idt i => idtSetDescr idt (.ofNat 8 (first + i)) (stub i) 0x8E)
      idt).gate n =
      if first ≤ n.toNat ∧ n.toNat < first + count then some ⟨stub (n.toNat - first), 0x08, 0⟩
      else idt.gate n := by
  induction count with
  | zero =>
    rw [if_neg (by omega)]
    rfl
  | succ count ih =>
    rw [List.range_succ, List.foldl_append, List.foldl_cons, List.foldl_nil, gate_idtSetDescr,
      ih (by omega)]
    have hnum : n = BitVec.ofNat 8 (first + count) ↔ n.toNat = first + count := by
      rw [← BitVec.toNat_inj, BitVec.toNat_ofNat, Nat.mod_eq_of_lt (by omega)]
    by_cases hlast : n.toNat = first + count
    · rw [if_pos (hnum.mpr hlast), if_pos (by omega), show n.toNat - first = count by omega]
    · rw [if_neg (mt hnum.mp hlast)]
      by_cases hin : first ≤ n.toNat ∧ n.toNat < first + count
      · rw [if_pos hin, if_pos (by omega)]
      · rw [if_neg hin, if_neg (by omega)]

/-- The address of the stub for a vector. -/
def stubAddr (isr irq : Nat → U32) (n : Nat) : Option U32 :=
  if n < 32 ∨ n = 127 then some (isr n) else if n < 48 then some (irq (n - 32)) else none

/-- After `idt_init` exactly the vectors with a stub have a gate, which leads to the stub of this
vector and is closed to user code. -/
theorem gate_idtInit (isr irq : Nat → U32) (n : BitVec 8) :
    (idtInit isr irq).gate n = (stubAddr isr irq n.toNat).map (⟨·, 0x08, 0⟩) := by
  have hzero : Idt.gate (fun _ => ⟨0, 0, 0, 0, 0⟩) n = none := by decide +revert
  have hfirst := gate_foldl_idtSetDescr (fun _ => ⟨0, 0, 0, 0, 0⟩) isr 0 32 (by decide) n
  have h127 : n = 127 ↔ n.toNat = 127 := by
    rw [← BitVec.toNat_inj]
    rfl
  simp only [Nat.zero_add, Nat.sub_zero, Nat.zero_le, true_and, hzero] at hfirst
  rw [idtInit, gate_foldl_idtSetDescr _ _ 32 16 (by decide), gate_idtSetDescr, hfirst]
  unfold stubAddr
  by_cases hirq : 32 ≤ n.toNat ∧ n.toNat < 48
  · rw [if_pos hirq, if_neg (by omega), if_pos hirq.2]
    rfl
  · rw [if_neg hirq]
    by_cases hlast : n.toNat = 127
    · rw [if_pos (h127.mpr hlast), if_pos (by omega), hlast]
      rfl
    · rw [if_neg (mt h127.mp hlast)]
      by_cases hisr : n.toNat < 32
      · rw [if_pos hisr, if_pos (by omega)]
        rfl
      · rw [if_neg hisr, if_neg (by omega), if_neg (by omega)]
        rfl

/-! ## Ports -/

theorem limit_tssInit (gdt : Gdt) (addr index kss kesp : U32) :
    (segmentOf ((tssInit gdt addr index kss kesp).1 (index.setWidth 16)).quad).limit.toNat =
      (addr.toNat + 104) % 2 ^ 20 := by
  have h := segmentOf_gdtSetDescr gdt ⟨index.setWidth 16, addr, addr + sizeofTss, 0xe9, 0⟩
  rw [tssInit, h]
  simp [GdtCall.segment, scaledLimit, sizeofTss]
  omega

/-- The structure after `tss_init` and calls of `tss_set_stack`, one for each kernel stack in
`kstacks`. -/
def tssAfter (kesp : U32) (kstacks : List U32) : Tss :=
  kstacks.foldl (fun t kesp => tssSetStack t 0x10 kesp)
    (tssInit (fun _ => ⟨0, 0, 0, 0, 0, 0⟩) 0 5 0x10 kesp).2

/-- The ports below 32 and from 64 on whose bits are set in the structure. -/
def refusedPorts : List Nat :=
  [68, 576, 577, 580, 608, 609, 611, 640, 641, 644, 672, 673, 676, 704, 705, 708, 736, 737, 740]

theorem tssAfter_eq (kesp : U32) (kstacks : List U32) :
    tssAfter kesp kstacks = { tssAfter 0 [] with esp0 := kstacks.getLastD kesp } := by
  induction kstacks using List.reverseRecOn with
  | nil => rfl
  | append_singleton kstacks k ih =>
    have hstep : tssAfter kesp (kstacks ++ [k]) = tssSetStack (tssAfter kesp kstacks) 0x10 k := by
      simp [tssAfter]
    rw [hstep, ih, tssSetStack]
    simp
    rfl

theorem bit_esp0_of_ne (t : Tss) (kesp : U32) {i : Nat} (h : i / 32 ≠ 1) :
    { t with esp0 := kesp }.bit i = t.bit i := by
  unfold Tss.bit Tss.words
  generalize i / 32 = q at h
  match q with
  | 0 | n + 2 => rfl
  | 1 => exact absurd rfl h

theorem bit_tssAfter (kesp : U32) (kstacks : List U32) {i : Nat} (h : i < 832) :
    (tssAfter kesp kstacks).bit i = true ↔ i ∈ refusedPorts ∨
      (32 ≤ i ∧ i < 64 ∧ (kstacks.getLastD kesp).getLsbD (i - 32) = true) := by
  rw [tssAfter_eq]
  by_cases hesp : i / 32 = 1
  · have hword : { tssAfter 0 [] with esp0 := kstacks.getLastD kesp }.bit i =
        (kstacks.getLastD kesp).getLsbD (i - 32) := by
      rw [Tss.bit, hesp, show i % 32 = i - 32 by omega]
      rfl
    have hrefused : i ∉ refusedPorts := by
      intro hmem
      have hall : ∀ p ∈ refusedPorts, p / 32 ≠ 1 := by decide
      exact hall i hmem hesp
    rw [hword]
    exact ⟨fun h => Or.inr ⟨by omega, by omega, h⟩, fun h => (h.resolve_left hrefused).2.2⟩
  · have hall : ∀ i < 832, (tssAfter 0 []).bit i = true ↔ i ∈ refusedPorts := by decide +kernel
    rw [bit_esp0_of_ne _ _ hesp, hall i h]
    exact ⟨Or.inl, fun h => h.resolve_right fun h => hesp (by omega)⟩

/-- The permission bitmap starts at the structure itself. User code may use each port below 832
but for a few, and for those of the ports from 32 to 63 whose bits are set in the address of the
kernel stack: the keyboard controller and the timer are open to it. -/
theorem user_ports (gdt : Gdt) (addr index kesp : U32) (kstacks : List U32) (port : Nat)
    (hport : port < 832) (hlimit : 104 ≤ (addr.toNat + 104) % 2 ^ 20) :
    (tssAfter kesp kstacks).permits
      (segmentOf ((tssInit gdt addr index 0x10 kesp).1 (index.setWidth 16)).quad).limit port ↔
      port ∉ refusedPorts ∧
        (32 ≤ port → port < 64 → (kstacks.getLastD kesp).getLsbD (port - 32) = false) := by
  have hbitmap : (tssAfter kesp kstacks).bitmap = 0 := by
    rw [tssAfter_eq]
    rfl
  have hbit := bit_tssAfter kesp kstacks hport
  unfold Tss.permits
  rw [limit_tssInit, hbitmap]
  simp only [BitVec.ofNat_eq_ofNat, BitVec.toNat_ofNat, Nat.zero_mod, Nat.mul_zero, Nat.zero_add,
    Bool.and_eq_true, decide_eq_true_eq, Bool.not_eq_true']
  rw [← Bool.not_eq_true, hbit, not_or]
  constructor
  · rintro ⟨-, hrefused, hesp⟩
    refine ⟨hrefused, fun hlo hhi => ?_⟩
    simpa using fun h => hesp ⟨hlo, hhi, h⟩
  · rintro ⟨hrefused, hesp⟩
    refine ⟨by omega, hrefused, ?_⟩
    rintro ⟨hlo, hhi, h⟩
    rw [hesp hlo hhi] at h
    cases h

/-- Port 0x64 of the keyboard controller, with `tss` somewhere in the kernel's data. -/
theorem user_ports_keyboard :
    (tssAfter 0 [0xc0901000]).permits
      (segmentOf ((tssInit (fun _ => ⟨0, 0, 0, 0, 0, 0⟩) 0xc0112340 5 0x10 0).1 5).quad).limit
      0x64 := by
  refine (user_ports _ 0xc0112340 5 0 [0xc0901000] 0x64 (by decide) (by decide)).mpr ?_
  exact ⟨by decide, fun _ h => absurd h (by decide)⟩

end PiggyOS
