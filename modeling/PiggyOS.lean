import PiggyOS.Infra.Loop
import PiggyOS.Infra.Bitmap
import PiggyOS.Pmm.Basic
import PiggyOS.Infra.Run
import PiggyOS.Pmm.Accounting
import PiggyOS.Kheap.Block
import PiggyOS.Vmm.Basic
import PiggyOS.Kheap.Alloc
import PiggyOS.Kheap.Break
import PiggyOS.Kheap.Handed
import PiggyOS.Kheap.Isolation
import PiggyOS.Kheap.Walk
import PiggyOS.Vmm.Boot
import PiggyOS.Kheap.Mapped
import PiggyOS.Vmm.Reserved
import PiggyOS.Vmm.Frames
import PiggyOS.Kheap.Growth
import PiggyOS.Kheap.Termination
import PiggyOS.Infra.Chain
import PiggyOS.Dsa.List
import PiggyOS.Dsa.Represents
import PiggyOS.Dsa.Invariant
import PiggyOS.Task.Basic
import PiggyOS.Task.Invariant
import PiggyOS.Infra.RoundRobin
import PiggyOS.Task.RoundRobin
import PiggyOS.Task.Safety
import PiggyOS.Task.Release
import PiggyOS.Infra.Region
import PiggyOS.Task.Switch
import PiggyOS.Task.Resume
import PiggyOS.Cpu.Fpu
import PiggyOS.Vmm.Copy
import PiggyOS.Vmm.Permissions
import PiggyOS.Sys.Elf
import PiggyOS.Vmm.Sharing
import PiggyOS.Kheap.Tables
import PiggyOS.Task.Shared
import PiggyOS.Drivers.Serial
import PiggyOS.Infra.Bytes
import PiggyOS.Utils.String
import PiggyOS.Fs.Tar
import PiggyOS.Fs.Node
import PiggyOS.Fs.Registry
import PiggyOS.Fs.Initrd
import PiggyOS.Fs.Vfs
import PiggyOS.Fs.RootLock
import PiggyOS.Sys.Loader
import PiggyOS.Sys.Relocate
import PiggyOS.Sys.Image
import PiggyOS.Sys.Atomic
import PiggyOS.Drivers.Vga
import PiggyOS.Infra.Tiling
import PiggyOS.Infra.Within
import PiggyOS.Kheap.Freelist
import PiggyOS.Kheap.Layout
import PiggyOS.Kheap.Coalesce
import PiggyOS.Kheap.Bestfit
import PiggyOS.Kheap.Split
import PiggyOS.Kheap.Resize
import PiggyOS.Kheap.Contents
import PiggyOS.Kheap.Capacity
import PiggyOS.Kheap.Exhausted
import PiggyOS.Vmm.Translate
import PiggyOS.Vmm.Identity
import PiggyOS.Multiboot2
import PiggyOS.Pmm.Placement
import PiggyOS.Fs.TarWalk
import PiggyOS.Fs.InitrdNodes
import PiggyOS.Fs.TarRead
import PiggyOS.Fs.Readdir
import PiggyOS.Utils.Display
import PiggyOS.Utils.Memcmp
import PiggyOS.Dsa.Sequence
import PiggyOS.Dsa.NullAccess
import PiggyOS.Dsa.Tree
import PiggyOS.Dsa.TreeQueries
import PiggyOS.Dsa.TreeRemove
import PiggyOS.Task.Frame
import PiggyOS.Sys.Mapping
import PiggyOS.Sys.Reads
import PiggyOS.Fs.Mount
import PiggyOS.Fs.InitrdFrame
import PiggyOS.Fs.Dispatch
import PiggyOS.Dsa.TreeRemoval
import PiggyOS.Fs.Random
import PiggyOS.Drivers.Acpi
import PiggyOS.Drivers.Keyboard
import PiggyOS.Drivers.Pci
import PiggyOS.Drivers.Rtc
import PiggyOS.Infra.Stack
import PiggyOS.Infra.Pic
import PiggyOS.Cpu.DescTbls
import PiggyOS.Cpu.Interrupt
import PiggyOS.Cpu.Isr
import PiggyOS.Task.Returns
import PiggyOS.Sys.Syscall
import PiggyOS.Utils.Printf
import PiggyOS.Utils.Log
import PiggyOS.Fs.Com
