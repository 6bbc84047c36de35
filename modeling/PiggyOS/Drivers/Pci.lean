import PiggyOS.Infra.Memory

/-!
# The PCI configuration space (`pci.c`)

A register of a PCI device is selected by an address that is written to port 0xCF8, and is then read
or written at port 0xCFC. `pci_read_word` and `pci_write_word` each put that address together; the
second one has a logical or among the bitwise ones.
-/

namespace PiggyOS

open Infra

/-- An access to a port (`io_port.h`). -/
inductive PortIo
  | outl (port : BitVec 16) (data : U32)
  | inl (port : BitVec 16)
  deriving DecidableEq

/-- `PCI_CONFIG_ADDRESS` -/
def pciConfigAddress : BitVec 16 := 0xCF8

/-- `PCI_CONFIG_DATA` -/
def pciConfigData : BitVec 16 := 0xCFC

/-- `pci_read_word`: the accesses to the ports, and the answer where `data` is read. -/
def pciReadWord (bus slot func offset : BitVec 16) (data : U32) : List PortIo × BitVec 16 :=
  let lbus : BitVec 64 := bus.setWidth 64
  let lslot : BitVec 64 := slot.setWidth 64
  let lfunc : BitVec 64 := func.setWidth 64
  let address : BitVec 64 := (lbus <<< 16) ||| (lslot <<< 11) ||| (lfunc <<< 8) |||
    (offset &&& 0xfc).setWidth 64 ||| 0x80000000
  let tmp := ((data >>> ((offset &&& 2).toNat * 8)) &&& 0xffff).setWidth 16
  ([.outl pciConfigAddress (address.setWidth 32), .inl pciConfigData], tmp)

/-- `pci_write_word`: the accesses to the ports. `||` binds less than `|`. -/
def pciWriteWord (bus slot func : U32) (offset : BitVec 16) (data : U32) : List PortIo :=
  let address : U32 := if bus <<< 16 ≠ 0 ∨ ((slot <<< 11) ||| (func <<< 8) |||
    (offset &&& 0xFC).setWidth 32 ||| 0x80000000) ≠ 0 then 1 else 0
  [.outl pciConfigAddress address, .outl pciConfigData data]

/-- The address that selects a register: what is written to `PCI_CONFIG_ADDRESS` last. -/
def configAddress : List PortIo → Option U32
  | [] => none
  | .outl port data :: rest =>
    (configAddress rest).or (if port = pciConfigAddress then some data else none)
  | .inl _ :: rest => configAddress rest

/-- A byte of the configuration space. -/
structure PciRegister where
  bus : Nat
  slot : Nat
  func : Nat
  offset : Nat
  bus_lt : bus < 256
  slot_lt : slot < 32
  func_lt : func < 8
  offset_lt : offset < 256

namespace PciRegister

variable (r t : PciRegister)

/-- The address that `pci_read_word` selects. -/
def readAddress : Option U32 :=
  configAddress (pciReadWord (.ofNat 16 r.bus) (.ofNat 16 r.slot) (.ofNat 16 r.func)
    (.ofNat 16 r.offset) 0).1

/-- The address that `pci_write_word` selects. -/
def writeAddress : Option U32 :=
  configAddress (pciWriteWord (.ofNat 32 r.bus) (.ofNat 32 r.slot) (.ofNat 32 r.func)
    (.ofNat 16 r.offset) 0)

/-- The same function of the same device, and the same dword there. -/
def SameDword : Prop :=
  r.bus = t.bus ∧ r.slot = t.slot ∧ r.func = t.func ∧ r.offset / 4 = t.offset / 4

/-- A write goes to the register that a read of the same place goes to, and to no other one. -/
structure WritesWhereItReads : Prop where
  agrees : r.writeAddress = r.readAddress
  apart : ∀ t : PciRegister, t.writeAddress = r.writeAddress → t.SameDword r

end PciRegister

theorem offset_and_fc {offset : Nat} (h : offset < 256) : offset &&& 0xfc = offset / 4 * 4 := by
  have hall : ∀ o ∈ List.range 256, o &&& 0xfc = o / 4 * 4 := by decide +kernel
  exact hall offset (List.mem_range.mpr h)

/-- A field below the others. -/
theorem or_field {a b k n : Nat} (hn : n = 2 ^ k * a) (hb : b < 2 ^ k) : n ||| b = n + b := by
  rw [hn, Nat.two_pow_add_eq_or_of_lt hb]

theorem shiftLeft_ofNat {w : Nat} (x k : Nat) :
    BitVec.ofNat w x <<< k = BitVec.ofNat w (2 ^ k * x) := by
  apply BitVec.eq_of_toNat_eq
  rw [BitVec.toNat_shiftLeft, BitVec.toNat_ofNat, BitVec.toNat_ofNat, Nat.shiftLeft_eq,
    Nat.mod_mul_mod, Nat.mul_comm]

namespace PciRegister

variable {r t : PciRegister}

/-- The address of the dword of a register. -/
def address (r : PciRegister) : Nat :=
  2 ^ 31 + (2 ^ 16 * r.bus + 2 ^ 11 * r.slot + 2 ^ 8 * r.func + r.offset / 4 * 4)

/-- The fields of the address do not overlap. -/
theorem address_eq_or (r : PciRegister) : 2 ^ 16 * r.bus ||| 2 ^ 11 * r.slot ||| 2 ^ 8 * r.func |||
    (r.offset &&& 0xfc) ||| 2 ^ 31 = r.address := by
  have hb := r.bus_lt
  have hs := r.slot_lt
  have hf := r.func_lt
  have ho := r.offset_lt
  rw [offset_and_fc ho, or_field rfl (show 2 ^ 11 * r.slot < 2 ^ 16 by omega),
    or_field (show _ = 2 ^ 11 * (2 ^ 5 * r.bus + r.slot) by omega)
      (show 2 ^ 8 * r.func < 2 ^ 11 by omega),
    or_field (show _ = 2 ^ 8 * (2 ^ 8 * r.bus + 2 ^ 3 * r.slot + r.func) by omega)
      (show r.offset / 4 * 4 < 2 ^ 8 by omega), Nat.or_comm,
    or_field (show _ = 2 ^ 31 * 1 by omega) (show _ < 2 ^ 31 by omega)]
  rfl

theorem setWidth_ofNat_of_lt {x : Nat} (hx : x < 2 ^ 16) :
    (BitVec.ofNat 16 x).setWidth 64 = BitVec.ofNat 64 x :=
  BitVec.setWidth_ofNat_of_le_of_lt (by decide) hx

theorem readAddress_eq (r : PciRegister) : r.readAddress = some (.ofNat 32 r.address) := by
  have hb := r.bus_lt
  have hs := r.slot_lt
  have hf := r.func_lt
  have ho := r.offset_lt
  have hand : (BitVec.ofNat 16 r.offset &&& 0xfc) = BitVec.ofNat 16 (r.offset &&& 0xfc) :=
    (BitVec.ofNat_and ..).symm
  have hle : r.offset &&& 0xfc ≤ r.offset := Nat.and_le_left
  unfold readAddress pciReadWord
  simp only [configAddress, if_true, Option.none_or]
  rw [hand, setWidth_ofNat_of_lt (by omega), setWidth_ofNat_of_lt (by omega),
    setWidth_ofNat_of_lt (by omega), setWidth_ofNat_of_lt (by omega), shiftLeft_ofNat,
    shiftLeft_ofNat, shiftLeft_ofNat,
    show (0x80000000 : BitVec 64) = BitVec.ofNat 64 (2 ^ 31) from rfl, ← BitVec.ofNat_or,
    ← BitVec.ofNat_or, ← BitVec.ofNat_or, ← BitVec.ofNat_or, address_eq_or,
    BitVec.setWidth_ofNat_of_le (by decide)]

/-- **The addresses that are read select dwords one to one.** -/
theorem readAddress_eq_iff : r.readAddress = t.readAddress ↔ r.SameDword t := by
  have hb := r.bus_lt
  have hs := r.slot_lt
  have hf := r.func_lt
  have ho := r.offset_lt
  have hb' := t.bus_lt
  have hs' := t.slot_lt
  have hf' := t.func_lt
  have ho' := t.offset_lt
  rw [readAddress_eq, readAddress_eq, Option.some_inj, ← BitVec.toNat_inj, BitVec.toNat_ofNat,
    BitVec.toNat_ofNat]
  unfold address SameDword
  omega

/-- Every write selects the address 1. -/
theorem writeAddress_eq (r : PciRegister) : r.writeAddress = some 1 := by
  -- the right side of `||` has bit 31
  have hne : ∀ x : U32, x ||| 0x80000000 ≠ 0 := by
    intro x hc
    have hbit := congrArg (BitVec.getLsbD · 31) hc
    simp at hbit
  unfold writeAddress pciWriteWord
  rw [if_pos (Or.inr (hne _))]
  rfl

/-- **No write goes where a read goes**, and all writes go to the same place. -/
theorem not_writesWhereItReads (r : PciRegister) : ¬ r.WritesWhereItReads := by
  intro h
  have heq := h.agrees
  have hb := r.bus_lt
  have hs := r.slot_lt
  have hf := r.func_lt
  have ho := r.offset_lt
  rw [writeAddress_eq, readAddress_eq, Option.some_inj, ← BitVec.toNat_inj,
    BitVec.toNat_ofNat] at heq
  unfold address at heq
  have hone : (1 : U32).toNat = 1 := rfl
  omega

/-- The command register of the second device on the bus 0. -/
theorem not_writesWhereItReads_command :
    ¬ WritesWhereItReads ⟨0, 1, 0, 4, by decide, by decide, by decide, by decide⟩ := by
  intro h
  exact absurd h.agrees (by decide)

end PciRegister

end PiggyOS
