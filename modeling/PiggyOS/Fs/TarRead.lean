import Mathlib.Algebra.GroupWithZero.Nat
import Mathlib.Data.List.SplitLengths
import PiggyOS.Fs.Initrd

/-!
# Reading a file of the initial ramdisk (`tarfs_read`)

`tarfs_read` cuts the size of a read to what is left of the file, with a sum that is taken modulo
2 ^ 32. The bytes that it copies are the first ones of the file, whatever the offset.

* `readsInside_iff` — the reads that stay inside of the file
* `reassembles_iff` — the files that come out of a sequence of reads
-/

namespace PiggyOS

open Infra

/-! ## Pieces of a list -/

/-- A piece of a list that is no longer than the list is the part of the same length at its start
exactly if it is a prefix. -/
theorem flatten_map_take_iff {A : Type _} {as : List A} {ps : List (List A)}
    (h : ∀ p ∈ ps, p.length ≤ as.length) :
    (ps.map fun p => as.take p.length).flatten = ps.flatten ↔ ∀ p ∈ ps, p <+: as := by
  have hlength : (ps.map fun p => as.take p.length).map List.length = ps.map List.length := by
    rw [List.map_map]
    exact List.map_congr_left fun p hp => List.length_take_of_le (h p hp)
  have hsame : (ps.map fun p => as.take p.length).flatten = ps.flatten ↔
      (ps.map fun p => as.take p.length) = ps :=
    ⟨fun heq => List.eq_iff_flatten_eq.mpr ⟨heq, hlength⟩, congrArg List.flatten⟩
  have hid := List.map_inj_left (f := fun p => as.take p.length) (g := id) (l := ps)
  rw [List.map_id] at hid
  rw [hsame, hid]
  exact forall₂_congr fun p _ => eq_comm.trans List.prefix_iff_eq_take.symm

/-! ## Calls -/

/-- A call to `read_fs`, but for the node and the offset. -/
structure ReadCall where
  size : U32
  buffer : U32

namespace Initrd

/-- `read_fs`; the memory afterwards and the value returned. The functions of the devices have no
result here, and neither has a pointer that has not been set. -/
def readFs (s : Initrd) (node offset size buffer : U32) : Option (Mem × U32) :=
  if node = 0 then some (s.mem, 0)
  else match (s.fs.node node).read with
    | .null => some (s.mem, 0)
    | .tarfsRead => some (s.tarfsRead node offset size buffer)
    | _ => none

/-- The calls one after the other, each at the total of the values returned before it: what the
buffers hold right after their calls, and the state and the total at the end. -/
def readChunks (node : U32) : Initrd → U32 → List ReadCall →
    Option (List (List (BitVec 8)) × Initrd × U32)
  | s, offset, [] => some ([], s, offset)
  | s, offset, c :: calls =>
    (s.readFs node offset c.size c.buffer).bind fun (mem, n) =>
      (readChunks node { s with mem := mem } (offset + n) calls).map fun (chunks, r) =>
        (mem.slice c.buffer n.toNat :: chunks, r)

/-- Where the data behind the header of the file is. -/
def dataAddr (s : Initrd) (node : U32) : U32 := s.files.headers (s.fs.node node).inode.toNat + 512

/-- The data behind the header of the file. -/
def fileData (s : Initrd) (node : U32) : List (BitVec 8) :=
  s.mem.slice (s.dataAddr node) (s.fs.node node).length.toNat

/-- The read copies and returns no more bytes than there are between the offset and the end of the
file, and no more than `size`, and none for an offset that is negative or behind the end. -/
def ReadsInside (s : Initrd) (node offset size buffer : U32) : Prop :=
  ∃ n, s.tarfsRead node offset size buffer =
      (s.mem.copy buffer (s.dataAddr node) n, BitVec.ofNat 32 n) ∧
    (n : Int) ≤ max 0 ((s.fs.node node).length.toNat - offset.toInt) ∧ n ≤ size.toNat ∧
    (offset.toInt < 0 ∨ (s.fs.node node).length.toNat < offset.toInt → n = 0)

/-- A node of `tarfs` for a file whose length is an offset. -/
structure TarFile (s : Initrd) (node : U32) : Prop where
  ne_null : node ≠ 0
  read : (s.fs.node node).read = .tarfsRead
  length : (s.fs.node node).length.toNat < 2 ^ 31

/-- The size of the read is below 2 ^ 31, and its buffer is clear of the data of the file. -/
structure Accepts (s : Initrd) (node : U32) (c : ReadCall) : Prop where
  size : c.size.toNat < 2 ^ 31
  clear : ∀ i < c.size.toNat, ∀ j < (s.fs.node node).length.toNat,
    c.buffer + BitVec.ofNat 32 i ≠ s.dataAddr node + BitVec.ofNat 32 j

/-- The chunks are the data of the file when put together, and every further read returns 0. -/
def Reassembles (s : Initrd) (node : U32) (calls : List ReadCall) : Prop :=
  ∃ chunks s' offset, readChunks node s 0 calls = some (chunks, s', offset) ∧
    chunks.flatten = s.fileData node ∧
    ∀ size buffer : U32, size.toNat < 2 ^ 31 →
      s'.readFs node offset size buffer = some (s'.mem, 0)

/-- The pieces of the file that the calls are for. -/
def pieces (s : Initrd) (node : U32) (calls : List ReadCall) : List (List (BitVec 8)) :=
  (calls.map fun c => c.size.toNat).splitLengths (s.fileData node)

variable {s s' : Initrd} {node offset size buffer : U32} {calls : List ReadCall} {c : ReadCall}
  {off : Nat}

/-! ## One read -/

theorem tarfsRead_of_lt (h : (s.fs.node node).length < offset) :
    s.tarfsRead node offset size buffer = (s.mem, 0) := if_pos h

/-- The sum of the offset and the size is a 32-bit word. -/
theorem tarfsRead_of_sum (size buffer : U32)
    (h : offset.toNat ≤ (s.fs.node node).length.toNat) (hsum : offset.toNat + size.toNat < 2 ^ 32) :
    s.tarfsRead node offset size buffer =
      (s.mem.copy buffer (s.dataAddr node)
        (min size.toNat ((s.fs.node node).length.toNat - offset.toNat)),
      BitVec.ofNat 32 (min size.toNat ((s.fs.node node).length.toNat - offset.toNat))) := by
  have hle : ¬ (s.fs.node node).length < offset := by
    rw [BitVec.not_lt]
    exact h
  have hadd : (offset + size).toNat = offset.toNat + size.toNat := by
    rw [BitVec.toNat_add, Nat.mod_eq_of_lt hsum]
  have hsub : ((s.fs.node node).length - offset).toNat =
      (s.fs.node node).length.toNat - offset.toNat := BitVec.toNat_sub_of_le h
  rw [tarfsRead]
  dsimp only
  rw [if_neg hle]
  by_cases hover : (s.fs.node node).length < offset + size
  · have hmin : min size.toNat ((s.fs.node node).length.toNat - offset.toNat) =
        ((s.fs.node node).length - offset).toNat := by
      have := BitVec.lt_def.mp hover
      omega
    rw [if_pos hover, hmin, BitVec.ofNat_toNat, BitVec.setWidth_eq]
    rfl
  · have hmin : min size.toNat ((s.fs.node node).length.toNat - offset.toNat) = size.toNat := by
      have := mt BitVec.lt_def.mpr hover
      omega
    rw [if_neg hover, hmin, BitVec.ofNat_toNat, BitVec.setWidth_eq]
    rfl

/-- The sum comes out below the length, and the size is not cut. -/
theorem tarfsRead_of_wrap (buffer : U32) (h : offset.toNat ≤ (s.fs.node node).length.toNat)
    (hsum : 2 ^ 32 ≤ offset.toNat + size.toNat) :
    s.tarfsRead node offset size buffer =
      (s.mem.copy buffer (s.dataAddr node) size.toNat, size) := by
  have hle : ¬ (s.fs.node node).length < offset := by
    rw [BitVec.not_lt]
    exact h
  have hwrap : ¬ (s.fs.node node).length < offset + size := by bv_omega
  rw [tarfsRead]
  dsimp only
  rw [if_neg hle, if_neg hwrap]
  rfl

/-- A read whose sum wraps copies more than there is. -/
theorem ReadsInside.sum_lt (h : s.ReadsInside node offset size buffer)
    (hle : offset.toNat ≤ (s.fs.node node).length.toNat) :
    offset.toNat + size.toNat < 2 ^ 32 := by
  by_contra hsum
  obtain ⟨n, hn, hfit, hsize, hneg⟩ := h
  rw [tarfsRead_of_wrap buffer hle (Nat.le_of_not_lt hsum)] at hn
  have hcount := congrArg BitVec.toNat (Prod.mk.inj hn).2
  have hint := BitVec.toInt_eq_toNat_cond offset
  have := size.isLt
  have := offset.isLt
  have := (s.fs.node node).length.isLt
  rw [BitVec.toNat_ofNat, Nat.mod_eq_of_lt (by omega)] at hcount
  omega

/-- **The reads that stay inside of the file.** -/
theorem readsInside_iff : s.ReadsInside node offset size buffer ↔
    (s.fs.node node).length < offset ∨ offset.toNat + size.toNat < 2 ^ 32 ∧
      (0 ≤ offset.toInt ∨ size = 0 ∨ offset = (s.fs.node node).length) := by
  have hint := BitVec.toInt_eq_toNat_cond offset
  have hsize : size = 0 ↔ size.toNat = 0 := BitVec.toNat_eq
  have hend : offset = (s.fs.node node).length ↔ offset.toNat = (s.fs.node node).length.toNat :=
    BitVec.toNat_eq
  have := size.isLt
  have := offset.isLt
  have := (s.fs.node node).length.isLt
  by_cases hlt : (s.fs.node node).length < offset
  · refine iff_of_true ⟨0, tarfsRead_of_lt hlt, by omega, by omega, fun _ => rfl⟩ (Or.inl hlt)
  have hle : offset.toNat ≤ (s.fs.node node).length.toNat := BitVec.not_lt.mp hlt
  rw [or_iff_right hlt, hsize, hend]
  constructor
  · intro h
    have hsum := h.sum_lt hle
    obtain ⟨n, hn, -, hle', hneg⟩ := h
    rw [tarfsRead_of_sum size buffer hle hsum] at hn
    have hcount := congrArg BitVec.toNat (Prod.mk.inj hn).2
    rw [BitVec.toNat_ofNat, BitVec.toNat_ofNat] at hcount
    omega
  · rintro ⟨hsum, hcond⟩
    refine ⟨_, tarfsRead_of_sum size buffer hle hsum, ?_, Nat.min_le_left _ _, fun hout => ?_⟩ <;>
      omega

/-! ## A sequence of reads -/

theorem TarFile.congr (h : s.TarFile node) (hfs : s'.fs = s.fs) : s'.TarFile node where
  ne_null := h.ne_null
  read := by rw [hfs, h.read]
  length := by rw [hfs]; exact h.length

theorem Accepts.congr (h : s.Accepts node c) (hfs : s'.fs = s.fs) (hfiles : s'.files = s.files) :
    s'.Accepts node c where
  size := h.size
  clear := by
    unfold dataAddr
    rw [hfs, hfiles]
    exact h.clear

@[simp] theorem length_fileData :
    (s.fileData node).length = (s.fs.node node).length.toNat := Mem.length_slice

/-- A read within the file copies the first bytes of the file. -/
theorem TarFile.readFs (h : s.TarFile node) (hsize : size.toNat < 2 ^ 31) (buffer : U32)
    (hoff : off ≤ (s.fs.node node).length.toNat) :
    s.readFs node (BitVec.ofNat 32 off) size buffer =
      some (s.mem.copy buffer (s.dataAddr node)
        (min size.toNat ((s.fs.node node).length.toNat - off)),
      BitVec.ofNat 32 (min size.toNat ((s.fs.node node).length.toNat - off))) := by
  have hlength := h.length
  have htoNat : (BitVec.ofNat 32 off).toNat = off := by
    rw [BitVec.toNat_ofNat, Nat.mod_eq_of_lt (by omega)]
  have hle : (BitVec.ofNat 32 off).toNat ≤ (s.fs.node node).length.toNat := by rwa [htoNat]
  have hread := tarfsRead_of_sum size buffer hle (by omega)
  rw [htoNat] at hread
  rw [Initrd.readFs, if_neg h.ne_null, h.read]
  exact congrArg some hread

/-- The data of the file stay where they are, and the buffer holds the first bytes of them. -/
theorem Accepts.copy (hc : s.Accepts node c) {n : Nat} (hn : n ≤ c.size.toNat)
    (hfits : n ≤ (s.fs.node node).length.toNat) :
    (s.mem.copy c.buffer (s.dataAddr node) n).slice c.buffer n = (s.fileData node).take n ∧
      { s with mem := s.mem.copy c.buffer (s.dataAddr node) n }.fileData node =
        s.fileData node := by
  constructor
  · rw [Mem.slice_copy, fileData, Mem.take_slice hfits]
    refine Mem.le_toNat_sub fun j hj => ?_
    have hclear := hc.clear 0 (by omega) j (by omega)
    rwa [BitVec.add_zero] at hclear
  · refine Mem.slice_congr fun j hj => Mem.copy_of_le ?_
    exact Mem.le_toNat_sub fun i hi => (hc.clear i (by omega) j hj).symm

/-- The buffers hold first bytes of the file, as many as the pieces have. -/
theorem TarFile.readChunks (h : s.TarFile node) (hcalls : ∀ c ∈ calls, s.Accepts node c)
    (hoff : off ≤ (s.fs.node node).length.toNat) :
    ∃ s', readChunks node s (BitVec.ofNat 32 off) calls =
        some (((calls.map fun c => c.size.toNat).splitLengths ((s.fileData node).drop off)).map
          (fun p => (s.fileData node).take p.length), s',
        BitVec.ofNat 32 (min (s.fs.node node).length.toNat
          (off + (calls.map fun c => c.size.toNat).sum))) ∧
      s'.fs = s.fs ∧ s'.files = s.files ∧ s'.fileData node = s.fileData node := by
  induction calls generalizing s off with
  | nil =>
    refine ⟨s, ?_, rfl, rfl, rfl⟩
    rw [Initrd.readChunks, List.map_nil, List.sum_nil, Nat.add_zero, Nat.min_eq_right hoff]
    rfl
  | cons c calls ih =>
    obtain ⟨hc, hcalls⟩ := List.forall_mem_cons.mp hcalls
    obtain ⟨n, hn⟩ : ∃ n, n = min c.size.toNat ((s.fs.node node).length.toNat - off) := ⟨_, rfl⟩
    -- the first call copies the start of the file and leaves the data as they are
    obtain ⟨hchunk, hdata⟩ := hc.copy (n := n) (by omega) (by omega)
    obtain ⟨s₁, hs₁⟩ : ∃ s₁, s₁ = { s with mem := s.mem.copy c.buffer (s.dataAddr node) n } :=
      ⟨_, rfl⟩
    have hfs₁ : s₁.fs = s.fs := by rw [hs₁]
    have hfiles₁ : s₁.files = s.files := by rw [hs₁]
    rw [← hs₁] at hdata
    have hoff₁ : off + n ≤ (s₁.fs.node node).length.toNat := by
      rw [hfs₁]
      omega
    obtain ⟨s', hs', hfs, hfiles, hdata'⟩ := ih (h.congr hfs₁)
      (fun c' hc' => (hcalls c' hc').congr hfs₁ hfiles₁) hoff₁
    refine ⟨s', ?_, hfs.trans hfs₁, hfiles.trans hfiles₁, hdata'.trans hdata⟩
    have hpiece : (((s.fileData node).drop off).take c.size.toNat).length = n := by
      rw [List.length_take, List.length_drop, length_fileData, hn]
    -- a call that goes over the end leaves nothing for those behind it
    have hrest : ((s.fileData node).drop off).drop c.size.toNat =
        (s.fileData node).drop (off + n) := by
      rw [List.drop_drop]
      rcases Nat.le_total c.size.toNat ((s.fs.node node).length.toNat - off) with hle | hle
      · rw [hn, Nat.min_eq_left hle]
      · rw [List.drop_eq_nil_of_le (by rw [length_fileData]; omega),
          List.drop_eq_nil_of_le (by rw [length_fileData]; omega)]
    have hend : min (s₁.fs.node node).length.toNat
        (off + n + (calls.map fun c => c.size.toNat).sum) =
        min (s.fs.node node).length.toNat
          (off + ((c :: calls).map fun c => c.size.toNat).sum) := by
      rw [hfs₁, List.map_cons, List.sum_cons]
      omega
    have hsize := hc.size
    have hreturn : (BitVec.ofNat 32 n).toNat = n := by
      rw [BitVec.toNat_ofNat, Nat.mod_eq_of_lt (by omega)]
    rw [Initrd.readChunks, h.readFs hsize c.buffer hoff, ← hn, Option.bind_some]
    dsimp only
    rw [← hs₁, BitVec.ofNat_add_ofNat, hs', hreturn, hchunk, hend, hdata, List.map_cons,
      List.splitLengths_cons, List.map_cons, hpiece, hrest]
    rfl

/-- What comes out of calls for the whole file. -/
theorem TarFile.readChunks_all (h : s.TarFile node) (hcalls : ∀ c ∈ calls, s.Accepts node c)
    (hsum : (s.fs.node node).length.toNat ≤ (calls.map fun c => c.size.toNat).sum) :
    ∃ chunks s', Initrd.readChunks node s 0 calls =
        some (chunks, s', BitVec.ofNat 32 (s.fs.node node).length.toNat) ∧ s'.fs = s.fs ∧
      (chunks.flatten = s.fileData node ↔ ∀ p ∈ s.pieces node calls, p <+: s.fileData node) := by
  obtain ⟨s', hs', hfs, -, -⟩ := h.readChunks hcalls (Nat.zero_le _)
  rw [Nat.zero_add, Nat.min_eq_left hsum, List.drop_zero] at hs'
  refine ⟨_, s', hs', hfs, ?_⟩
  have hwhole : (s.pieces node calls).flatten = s.fileData node :=
    List.flatten_splitLengths _ _ (by rwa [length_fileData])
  have hle : ∀ p ∈ s.pieces node calls, p.length ≤ (s.fileData node).length := by
    intro p hp
    have hsub := (List.sublist_flatten_of_mem hp).length_le
    rwa [hwhole] at hsub
  have hiff := flatten_map_take_iff hle
  rwa [hwhole] at hiff

/-- At the end of the file a read returns 0. -/
theorem TarFile.readFs_end (h : s.TarFile node) (hsize : size.toNat < 2 ^ 31) (buffer : U32) :
    s.readFs node (BitVec.ofNat 32 (s.fs.node node).length.toNat) size buffer =
      some (s.mem, 0) := by
  rw [h.readFs hsize buffer (Nat.le_refl _), Nat.sub_self, Nat.min_zero]
  rfl

theorem Reassembles.pieces (h : s.Reassembles node calls) (hfile : s.TarFile node)
    (hcalls : ∀ c ∈ calls, s.Accepts node c)
    (hsum : (s.fs.node node).length.toNat ≤ (calls.map fun c => c.size.toNat).sum) :
    ∀ p ∈ s.pieces node calls, p <+: s.fileData node := by
  obtain ⟨chunks₁, s₁, hs₁, -, hiff⟩ := hfile.readChunks_all hcalls hsum
  obtain ⟨chunks, s', offset, hs', hchunks, -⟩ := h
  rw [hs₁] at hs'
  cases hs'
  exact hiff.mp hchunks

/-- **A sequence of reads gives the file exactly if every piece of the file that is asked for is one
that the file starts with.** -/
theorem reassembles_iff (hfile : s.TarFile node) (hcalls : ∀ c ∈ calls, s.Accepts node c)
    (hsum : (s.fs.node node).length.toNat ≤ (calls.map fun c => c.size.toNat).sum) :
    s.Reassembles node calls ↔ ∀ p ∈ s.pieces node calls, p <+: s.fileData node := by
  refine ⟨fun h => h.pieces hfile hcalls hsum, fun h => ?_⟩
  obtain ⟨chunks, s', hs', hfs, hiff⟩ := hfile.readChunks_all hcalls hsum
  refine ⟨_, s', _, hs', hiff.mpr h, fun size buffer hsize => ?_⟩
  rw [← hfs]
  exact (hfile.congr hfs).readFs_end hsize buffer

/-! ## A file of three bytes -/

/-- The entry of the file `b`. -/
def smallFile : TarEntry := tarFile [0x62] mode644 [1, 2, 1] (by simp) length_mode644 (by simp)

/-- The header of the file is at 0x1200, and its node is at 0x20100. -/
def smallRead : Initrd :=
  let s : Initrd :=
    ⟨Mem.ofBytes 0x1200 smallFile.bytes, emptyRegistries.fs, ⟨fun _ => 0x1200, 2⟩, 0⟩
  s.setNode 0x20100 (s.fileNode 1 (charsAt s.mem 0x1200))

theorem holds_smallRead : smallRead.mem.Holds 0x1200 smallFile.bytes :=
  Mem.holds_ofBytes (by rw [smallFile.length_bytes]; decide)

theorem length_smallRead : (smallRead.fs.node 0x20100).length = 3 :=
  smallFile.tarGetsize holds_smallRead (by decide)

theorem fileData_smallRead : smallRead.fileData 0x20100 = [1, 2, 1] := by
  have hholds := (Mem.holds_append.mp holds_smallRead).2
  rw [TarHeader.length_bytes] at hholds
  have hdata := (Mem.holds_append.mp hholds).1.slice
  rw [fileData, length_smallRead]
  exact hdata

theorem tarFile_smallRead : smallRead.TarFile 0x20100 where
  ne_null := by simp
  read := rfl
  length := by rw [length_smallRead]; simp

/-- A buffer at 0x5000 or behind it is clear of the file. -/
theorem accepts_smallRead (hsize : c.size.toNat < 2 ^ 31) (hlo : 0x5000 ≤ c.buffer.toNat)
    (hhi : c.buffer.toNat < 2 ^ 31) : smallRead.Accepts 0x20100 c := by
  refine ⟨hsize, fun i hi j hj => ?_⟩
  rw [length_smallRead] at hj
  have hj : j < 3 := hj
  have haddr : smallRead.dataAddr 0x20100 = 0x1400 := rfl
  rw [haddr]
  bv_omega

/-- A read that is too large by far. -/
theorem not_readsInside_huge : ¬ smallRead.ReadsInside 0x20100 1 0xFFFFFFFF 0x5000 := by
  intro h
  have hsum := h.sum_lt (by rw [length_smallRead]; decide)
  simp at hsum

/-- The byte that the second read is for is the one that the file starts with. -/
theorem reassembles_repeated :
    smallRead.Reassembles 0x20100 [⟨2, 0x5000⟩, ⟨1, 0x6000⟩] := by
  refine (reassembles_iff tarFile_smallRead ?_ ?_).mpr fun p hp => ?_
  · simp only [List.mem_cons, List.not_mem_nil, or_false, forall_eq_or_imp, forall_eq]
    constructor <;> exact accepts_smallRead (by simp) (by simp) (by simp)
  · rw [length_smallRead]
    simp
  · rw [pieces, fileData_smallRead] at hp
    rw [fileData_smallRead]
    have hpiece : p = [1, 2] ∨ p = [1] := by simpa using hp
    rcases hpiece with rfl | rfl <;> simp

/-- The second read gives the bytes 1 and 2 for 2 and 1. -/
theorem not_reassembles_two : smallRead.TarFile 0x20100 ∧
    (∀ c ∈ ([⟨1, 0x5000⟩, ⟨2, 0x6000⟩] : List ReadCall), smallRead.Accepts 0x20100 c) ∧
    ¬ smallRead.Reassembles 0x20100 [⟨1, 0x5000⟩, ⟨2, 0x6000⟩] := by
  have hcalls : ∀ c ∈ ([⟨1, 0x5000⟩, ⟨2, 0x6000⟩] : List ReadCall),
      smallRead.Accepts 0x20100 c := by
    simp only [List.mem_cons, List.not_mem_nil, or_false, forall_eq_or_imp, forall_eq]
    constructor <;> exact accepts_smallRead (by simp) (by simp) (by simp)
  refine ⟨tarFile_smallRead, hcalls, fun h => ?_⟩
  have hpieces := h.pieces tarFile_smallRead hcalls (by rw [length_smallRead]; simp)
  rw [pieces, fileData_smallRead] at hpieces
  have hsecond := hpieces [2, 1] (by simp)
  simp at hsecond

end Initrd

end PiggyOS
