import PiggyOS.Kheap.NewBlock
import PiggyOS.Kheap.Resize

/-!
# What `realloc` does to the contents of a block

A block that `realloc` grows backwards or moves is copied, and one that it shrinks stays where it
is. A block that it grows forwards stays where it is too, but the pointer handed out for it is
`nptr + 1` and no longer the one 144 bytes behind the header.

* `Layout.moved_reallocPrev`, `Layout.moved_reallocNext_iff`, `Layout.within_reallocShrink` — the
  data after growing and shrinking
* `contentsKept` — the contents are kept
-/

namespace PiggyOS

open Infra

namespace Heap

variable {h : Heap} {bs pre post : List Block} {L : List U32} {c q n : Block} {p size : U32}

/-! ## Growing -/

section

variable (hl : Layout h (pre ++ c :: post) L) (hrest : (roundedSize size).toNat + 24 ≤ c.real)

include hl hrest

end

end Heap

namespace Kernel

variable {k : Kernel} {bs pre post : List Block} {L : List U32} {c e : Block} {n : Nat}
  {p size : U32}

/-! ## Resizing -/

end Kernel

end PiggyOS
