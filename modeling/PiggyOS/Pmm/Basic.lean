import PiggyOS.Infra.Bitmap
import PiggyOS.System

/-!
# The physical memory manager (`pmm.c`)

Physical memory is cut into blocks of 4096 bytes; bit `b` of the bitmap is set while block `b`
is handed out. The scan for a free block works in words of 32 blocks, and block 0 doubles as
the answer when nothing was found.

The bitmap is the array `words`; `pmmBitmap` is its address, which `vmm_init` needs.
-/

namespace PiggyOS

open Infra

structure Pmm where
  maxBlocks : U32
  usedBlocks : U32
  /-- the address of the bitmap -/
  pmmBitmap : U32
  pmmBitmapSize : U32
  /-- the array at that address -/
  words : Nat → U32

namespace Pmm

/-- Block `b` is marked as handed out. -/
def used (p : Pmm) (b : Nat) : Bool := Bitmap.bit p.words b

/-! ## Operations -/

def pmmBitmapSet (p : Pmm) (bit : U32) : Pmm :=
  { p with words := Bitmap.setBit p.words bit.toNat, usedBlocks := p.usedBlocks + 1 }

def pmmBitmapUnset (p : Pmm) (bit : U32) : Pmm :=
  { p with words := Bitmap.clearBit p.words bit.toNat, usedBlocks := p.usedBlocks - 1 }

/-- The inner loop of `first_free_block`: the lowest clear bit of a word. -/
def firstFreeBit (w : U32) : Option Nat :=
  (List.range 32).find? fun j => w &&& (1#32 <<< j) = 0

/-- The outer loop of `first_free_block` over the first `n` words. -/
def scanWords (words : Nat → U32) (n : Nat) : Option Nat :=
  (List.range n).findSome? fun i =>
    if words i ≠ 0xffffffff#32 then (firstFreeBit (words i)).map (i * 32 + ·) else none

/-- A scan that finds nothing warns and answers 0. -/
def firstFreeBlock (p : Pmm) : U32 :=
  match scanWords p.words (p.maxBlocks / 32).toNat with
  | some b => BitVec.ofNat 32 b
  | none => 0

def pmmAllocBlock (p : Pmm) : Pmm × U32 :=
  -- unsigned: the test is for equality
  if p.maxBlocks - p.usedBlocks ≤ 0 then (p, 0)
  else (p.pmmBitmapSet p.firstFreeBlock, p.firstFreeBlock * pageSize)

def pmmFreeBlock (p : Pmm) (addr : U32) : Pmm := p.pmmBitmapUnset (addr / pageSize)

end Pmm

/-! ## Start-up -/

/-- The multiboot2 tags before the END tag, as far as the kernel looks at them. -/
inductive Mboot2Tag
  | module (modStart modEnd : U32)
  | basicMeminfo (memLower memUpper : U32)
  | other (type : U32)
  deriving DecidableEq, Repr

/-- The walk of `pmm_init` over the module tags; `bitmapAddr` starts out as 0. -/
def bitmapAddrOf (tags : List Mboot2Tag) : U32 :=
  tags.foldl (fun bitmapAddr tag =>
    match tag with
    | .module _ modEnd => if modEnd > bitmapAddr then modEnd else bitmapAddr
    | _ => bitmapAddr) 0

/-- `mboot2_find_tag(mb2, MBOOT2_TAG_BASIC_MEMINFO)` -/
def findMeminfo (tags : List Mboot2Tag) : Option (U32 × U32) :=
  tags.findSome? fun
    | .basicMeminfo lower upper => some (lower, upper)
    | _ => none

/-- Where `pmm_init` lets the bitmap start, as a physical address before alignment:
modules may come before the kernel. -/
def bootEnd (kernelEndPhys : U32) (tags : List Mboot2Tag) : U32 :=
  if bitmapAddrOf tags < kernelEndPhys then kernelEndPhys else bitmapAddrOf tags

/--
`pmm_init`. `raw` is what the memory under the bitmap held before; `none` is the panic
of the size check, or a tag list without memory information.

The size check compares the physical end of the boot images with a virtual address.
-/
def pmmInit (raw : Nat → U32) (kernelEndPhys : U32) (tags : List Mboot2Tag) : Option Pmm :=
  if bootEnd kernelEndPhys tags > kernBase + 0x00400000 then none
  else
    match findMeminfo tags with
    | none => none
    | some (memLower, memUpper) =>
      let memSize := (memLower + memUpper) * kib
      let maxBlocks := memSize / pageSize
      some
        { maxBlocks := maxBlocks
          usedBlocks := 0
          pmmBitmap := alignTo (bootEnd kernelEndPhys tags + kernBase) 4
          pmmBitmapSize := maxBlocks / 8
          words := Bitmap.zeroBytes raw (maxBlocks / 8).toNat }

end PiggyOS
