import Mathlib.Algebra.Order.Group.Nat
import Mathlib.Data.Nat.Digits.Lemmas
import PiggyOS.System
import PiggyOS.Utils.String

/-!
# The initial ramdisk archive (`tarfs.c`)

`tar_parse` walks over an archive in memory and notes where its headers are. An archive is written
as a sequence of entries, each of them a header and its data in blocks of 512 bytes, and a block of
zeros at the end.
-/

namespace PiggyOS

open Infra

/-- `NUM_TARFILES` -/
def numTarfiles : Nat := 64

/-- The loop of `tar_getsize` over the digits before `in[j]`. -/
def tarGetsizeFrom (digits : Chars) : Nat → U32 → U32 → U32
  | 0, size, _ => size
  | j + 1, size, count =>
    tarGetsizeFrom digits j (size + ((digits j).signExtend 32 - 48) * count) (count * 8)

/-- `tar_getsize` -/
def tarGetsize (digits : Chars) : U32 := tarGetsizeFrom digits 11 0 1

/-- `headers` and `tarfs_files`. -/
structure TarFiles where
  headers : Nat → U32
  tarfsFiles : Nat

/-- The loop of `tar_parse` with room for `n` more headers; a store behind the end of `headers` has
no result. -/
def tarParseFrom (m : Mem) (endAddr : U32) : Nat → TarFiles → U32 → Option TarFiles
  | 0, t, address => if m address = 0 then some t else none
  | n + 1, t, address =>
    if m address = 0 then some t
    else
      let size := tarGetsize (charsAt m (address + 124))
      let t := { t with headers := Function.update t.headers t.tarfsFiles address }
      let address := address + (size / 512 + 1) * 512
      let address := if size % 512 ≠ 0 then address + 512 else address
      if endAddr < address then some t
      else tarParseFrom m endAddr n { t with tarfsFiles := t.tarfsFiles + 1 } address

/-- `tar_parse` -/
def tarParse (m : Mem) (headers : Nat → U32) (address endAddr : U32) : Option TarFiles :=
  tarParseFrom m endAddr numTarfiles ⟨headers, 0⟩ address

/-! ## Archives -/

/-- The fields of a header block. -/
structure TarHeader where
  name : List (BitVec 8)
  mode : List (BitVec 8)
  uid : List (BitVec 8)
  gid : List (BitVec 8)
  size : List (BitVec 8)
  mtime : List (BitVec 8)
  chksum : List (BitVec 8)
  typeflag : BitVec 8
  rest : List (BitVec 8)
  length_name : name.length = 100
  length_mode : mode.length = 8
  length_uid : uid.length = 8
  length_gid : gid.length = 8
  length_size : size.length = 12
  length_mtime : mtime.length = 12
  length_chksum : chksum.length = 8
  length_rest : rest.length = 355

def TarHeader.bytes (h : TarHeader) : List (BitVec 8) :=
  h.name ++ (h.mode ++ (h.uid ++ (h.gid ++ (h.size ++ (h.mtime ++ (h.chksum ++
    (h.typeflag :: h.rest)))))))

/-- A number below `8 ^ 11` as 11 octal digits. -/
def octalDigits (n : Nat) : List (BitVec 8) :=
  (List.range 11).map fun j => BitVec.ofNat 8 (48 + n / 8 ^ (10 - j) % 8)

/-- A file of an archive. -/
structure TarEntry extends TarHeader where
  data : List (BitVec 8)
  named : name.headD 0 ≠ 0
  sized : size.take 11 = octalDigits data.length

/-- The bytes that fill the last block of the data. -/
def padding (n : Nat) : Nat := (512 - n % 512) % 512

def TarEntry.bytes (e : TarEntry) : List (BitVec 8) :=
  e.toTarHeader.bytes ++ (e.data ++ List.replicate (padding e.data.length) 0)

/-- The entries one after the other. -/
def entriesBytes (es : List TarEntry) : List (BitVec 8) := es.flatMap TarEntry.bytes

def archiveBytes (es : List TarEntry) : List (BitVec 8) :=
  entriesBytes es ++ List.replicate 512 0

/-- The address of the `i`-th header of an archive at `start`. -/
def headerAddr (start : U32) (es : List TarEntry) (i : Nat) : U32 :=
  start + BitVec.ofNat 32 (entriesBytes (es.take i)).length

/-- The archive lies at `start` and below `endAddr`. -/
structure ArchiveAt (m : Mem) (start endAddr : U32) (es : List TarEntry) : Prop where
  holds : m.Holds start (archiveBytes es)
  fits : start.toNat + (archiveBytes es).length ≤ endAddr.toNat

/-! ## Header fields -/

section

variable {m : Mem} {a : U32}

@[simp] theorem TarHeader.length_bytes (h : TarHeader) : h.bytes.length = 512 := by
  simp [bytes, h.length_name, h.length_mode, h.length_uid, h.length_gid, h.length_size,
    h.length_mtime, h.length_chksum, h.length_rest]

/-- Where the fields that are read lie in a header block. -/
theorem TarHeader.holds_fields (h : TarHeader) (hm : m.Holds a h.bytes) :
    m.Holds a h.name ∧ m.Holds (a + 100) h.mode ∧ m.Holds (a + 124) h.size ∧
      m (a + 156) = h.typeflag := by
  obtain ⟨hname, hm⟩ := Mem.holds_append.mp hm
  obtain ⟨hmode, hm⟩ := Mem.holds_append.mp hm
  obtain ⟨-, hm⟩ := Mem.holds_append.mp hm
  obtain ⟨-, hm⟩ := Mem.holds_append.mp hm
  obtain ⟨hsize, hm⟩ := Mem.holds_append.mp hm
  obtain ⟨-, hm⟩ := Mem.holds_append.mp hm
  obtain ⟨-, hm⟩ := Mem.holds_append.mp hm
  have hflag := (Mem.holds_cons.mp hm).1
  simp only [h.length_name, h.length_mode, h.length_uid, h.length_gid, h.length_size,
    h.length_mtime, h.length_chksum, BitVec.add_assoc, BitVec.ofNat_add_ofNat] at *
  exact ⟨hname, hmode, hsize, hflag⟩

end

/-! ## The size field -/

theorem signExtend_digit {d : Nat} (hd : d < 8) :
    (BitVec.ofNat 8 (48 + d)).signExtend 32 - 48 = BitVec.ofNat 32 d := by
  have hall : ∀ e ∈ List.range 8,
      (BitVec.ofNat 8 (48 + e)).signExtend 32 - 48 = BitVec.ofNat 32 e := by decide
  exact hall d (List.mem_range.mpr hd)

/-- The digits from `j` on have been read, and the places of `8 ^ (11 - j)` up are left. -/
theorem tarGetsizeFrom_octalDigits {digits : Chars} {n : Nat}
    (hdigits : ∀ j < 11, digits j = BitVec.ofNat 8 (48 + n / 8 ^ (10 - j) % 8)) {j : Nat}
    (hj : j ≤ 11) :
    tarGetsizeFrom digits j (BitVec.ofNat 32 (n % 8 ^ (11 - j))) (BitVec.ofNat 32 (8 ^ (11 - j))) =
      BitVec.ofNat 32 (n % 8 ^ 11) := by
  induction j with
  | zero => rfl
  | succ j ih =>
    have hplace : 11 - (j + 1) = 10 - j := by omega
    have hnext : 11 - j = 10 - j + 1 := by omega
    have hpow : 8 ^ (11 - j) = 8 ^ (10 - j) * 8 := by rw [hnext, Nat.pow_succ]
    rw [tarGetsizeFrom, hdigits j hj, signExtend_digit (Nat.mod_lt _ (by decide)), hplace,
      BitVec.ofNat_mul_ofNat, BitVec.ofNat_add_ofNat, show (8 : U32) = BitVec.ofNat 32 8 from rfl,
      BitVec.ofNat_mul_ofNat, Nat.mul_comm (_ % 8), ← Nat.mod_pow_succ, ← hpow, ← hnext]
    exact ih (by omega)

/-- `tar_getsize` reads the number that has been written. -/
theorem tarGetsize_octalDigits {digits : Chars} {n : Nat}
    (hdigits : ∀ j < 11, digits j = BitVec.ofNat 8 (48 + n / 8 ^ (10 - j) % 8))
    (hn : n < 8 ^ 11) : tarGetsize digits = BitVec.ofNat 32 n := by
  have h := tarGetsizeFrom_octalDigits hdigits (Nat.le_refl 11)
  rwa [Nat.sub_self, Nat.pow_zero, Nat.mod_one, Nat.mod_eq_of_lt hn] at h

/-- **The size of a file is read back**: of a number below `2 ^ 33` in 11 octal digits, the highest
one first, `tar_getsize` finds the remainder modulo `2 ^ 32`. -/
theorem tarGetsize_octal {digits : Chars} {n : Nat} (hn : n < 2 ^ 33)
    (hdigits : ∀ j < 11, digits j = BitVec.ofNat 8 (48 + (Nat.digits 8 n).getD (10 - j) 0)) :
    (tarGetsize digits).toNat = n % 2 ^ 32 ∧ (n < 2 ^ 32 → (tarGetsize digits).toNat = n) := by
  have hread : (tarGetsize digits).toNat = n % 2 ^ 32 := by
    rw [tarGetsize_octalDigits (fun j hj => ?_) hn, BitVec.toNat_ofNat]
    rw [hdigits j hj, Nat.getD_digits _ _ (by decide)]
  exact ⟨hread, fun hlt => hread.trans (Nat.mod_eq_of_lt hlt)⟩

/-- `2 ^ 32 + 8` in 11 digits is read as 8. -/
theorem tarGetsize_octal_wrapped :
    (tarGetsize fun j => [0x34, 0x30, 0x30, 0x30, 0x30, 0x30, 0x30, 0x30, 0x30, 0x31, 0x30].getD j
      0).toNat = 8 := by
  have hdigits : ∀ j < 11, [0x34, 0x30, 0x30, 0x30, 0x30, 0x30, 0x30, 0x30, 0x30, 0x31, 0x30].getD j
      0 = BitVec.ofNat 8 (48 + (Nat.digits 8 (2 ^ 32 + 8)).getD (10 - j) 0) := by decide +kernel
  exact (tarGetsize_octal (n := 2 ^ 32 + 8) (by decide) hdigits).1

section

variable {m : Mem} {a : U32} {e : TarEntry} {es : List TarEntry}

theorem TarEntry.tarGetsize (hm : m.Holds a e.bytes) (hn : e.data.length < 8 ^ 11) :
    tarGetsize (charsAt m (a + 124)) = BitVec.ofNat 32 e.data.length := by
  obtain ⟨-, -, hsize, -⟩ := e.holds_fields (Mem.holds_append.mp hm).1
  refine tarGetsize_octalDigits (fun j hj => ?_) hn
  have hlen : j < e.size.length := by
    rw [e.length_size]
    omega
  have hdigit : (e.size.take 11)[j]? = (octalDigits e.data.length)[j]? := by rw [e.sized]
  rw [List.getElem?_take_of_lt hj, List.getElem?_eq_getElem hlen, octalDigits, List.getElem?_map,
    List.getElem?_range hj] at hdigit
  exact (hsize j hlen).trans (Option.some.inj hdigit)

/-! ## Blocks -/

theorem TarEntry.length_bytes :
    e.bytes.length = 512 + e.data.length + padding e.data.length := by
  simp [bytes]
  omega

/-- The rounding of `tar_parse` gives the length of the entry. -/
theorem TarEntry.length_bytes_eq : e.bytes.length = (e.data.length / 512 + 1) * 512 +
    if e.data.length % 512 ≠ 0 then 512 else 0 := by
  rw [length_bytes, padding]
  split
  all_goals omega

/-- The address behind an entry, as `tar_parse` computes it. -/
theorem TarEntry.nextAddr {size : U32} (hsize : size = BitVec.ofNat 32 e.data.length)
    (hfits : a.toNat + e.bytes.length < 2 ^ 32) :
    (if size % 512 ≠ 0 then a + (size / 512 + 1) * 512 + 512 else a + (size / 512 + 1) * 512) =
      a + BitVec.ofNat 32 e.bytes.length := by
  have hlen := e.length_bytes_eq
  have htoNat : size.toNat = e.data.length := by
    rw [hsize, BitVec.toNat_ofNat, Nat.mod_eq_of_lt]
    omega
  have hmod : size % 512 = 0 ↔ e.data.length % 512 = 0 := by
    rw [← BitVec.toNat_inj, BitVec.toNat_umod, htoNat]
    rfl
  have hdiv : (size / 512 + 1) * 512 = BitVec.ofNat 32 ((e.data.length / 512 + 1) * 512) := by
    apply BitVec.eq_of_toNat_eq
    rw [BitVec.toNat_mul, BitVec.toNat_add, BitVec.toNat_udiv, htoNat]
    simp
  rw [hdiv, hlen]
  by_cases h0 : e.data.length % 512 = 0
  · rw [if_neg (not_not.mpr (hmod.mpr h0)), if_neg (not_not.mpr h0)]
    exact congrArg (a + BitVec.ofNat 32 ·) (Nat.add_zero _).symm
  · rw [if_pos (mt hmod.mp h0), if_pos h0, BitVec.add_assoc, BitVec.ofNat_add]
    rfl

/-! ## The archive -/

theorem entriesBytes_cons : entriesBytes (e :: es) = e.bytes ++ entriesBytes es :=
  List.flatMap_cons

theorem archiveBytes_cons : archiveBytes (e :: es) = e.bytes ++ archiveBytes es := by
  rw [archiveBytes, entriesBytes_cons, List.append_assoc]
  rfl

/-- The rest of an archive is an archive. -/
theorem ArchiveAt.tail {endAddr : U32} (h : ArchiveAt m a endAddr (e :: es)) :
    ArchiveAt m (a + BitVec.ofNat 32 e.bytes.length) endAddr es := by
  obtain ⟨hm, hfits⟩ := h
  rw [archiveBytes_cons] at hm hfits
  rw [List.length_append] at hfits
  refine ⟨(Mem.holds_append.mp hm).2, ?_⟩
  rw [BitVec.toNat_add, BitVec.toNat_ofNat]
  omega

theorem ArchiveAt.holds_entry {endAddr : U32} (h : ArchiveAt m a endAddr (e :: es)) :
    m.Holds a e.bytes := by
  have hm := h.holds
  rw [archiveBytes_cons] at hm
  exact (Mem.holds_append.mp hm).1

theorem length_archiveBytes_pos (es : List TarEntry) : 512 ≤ (archiveBytes es).length := by
  rw [archiveBytes, List.length_append, List.length_replicate]
  omega

theorem ArchiveAt.next_lt {endAddr : U32} (h : ArchiveAt m a endAddr (e :: es)) :
    a.toNat + e.bytes.length < 2 ^ 32 := by
  have hfits := h.fits
  have hpos := length_archiveBytes_pos es
  rw [archiveBytes_cons, List.length_append] at hfits
  omega

/-- The name of a header starts with the byte at its address. -/
theorem ArchiveAt.name_ne_zero {endAddr : U32} (h : ArchiveAt m a endAddr (e :: es)) :
    m a ≠ 0 := by
  obtain ⟨hname, -⟩ := e.holds_fields (Mem.holds_append.mp h.holds_entry).1
  have hpos : 0 < e.name.length := by
    rw [e.length_name]
    decide
  have hfirst := hname 0 hpos
  rw [BitVec.add_zero] at hfirst
  have hnamed := e.named
  rw [List.headD_eq_head?_getD, List.head?_eq_getElem?, List.getElem?_eq_getElem hpos] at hnamed
  rwa [hfirst]

theorem ArchiveAt.zero_of_nil {endAddr : U32} (h : ArchiveAt m a endAddr []) : m a = 0 := by
  have hzero := h.holds 0 (Nat.lt_of_lt_of_le (by decide) (length_archiveBytes_pos []))
  rw [BitVec.add_zero] at hzero
  exact hzero.trans (List.getElem_replicate _)

theorem headerAddr_zero : headerAddr a es 0 = a := BitVec.add_zero a

theorem headerAddr_succ {i : Nat} :
    headerAddr a (e :: es) (i + 1) = headerAddr (a + BitVec.ofNat 32 e.bytes.length) es i := by
  rw [headerAddr, headerAddr, List.take_succ_cons, entriesBytes_cons, List.length_append,
    BitVec.ofNat_add, BitVec.add_assoc]

/-- Where an entry lies in memory. -/
theorem ArchiveAt.holds_at {endAddr : U32} (h : ArchiveAt m a endAddr es) {i : Nat}
    (he : es[i]? = some e) : m.Holds (headerAddr a es i) e.bytes ∧ e.data.length < 8 ^ 11 := by
  induction es generalizing a i with
  | nil => exact nomatch he
  | cons e' es ih =>
    cases i with
    | zero =>
      obtain rfl := Option.some.inj he
      have hlt := h.next_lt
      have hlen := e'.length_bytes
      rw [headerAddr_zero]
      exact ⟨h.holds_entry, by omega⟩
    | succ i =>
      rw [headerAddr_succ]
      exact ih h.tail he

/-- The entries of an archive take up no more than it does. -/
theorem length_headerAddr_le {i : Nat} (he : es[i]? = some e) :
    (entriesBytes (es.take i)).length + e.bytes.length ≤ (archiveBytes es).length := by
  induction es generalizing i with
  | nil => exact nomatch he
  | cons e' es ih =>
    rw [archiveBytes_cons, List.length_append]
    cases i with
    | zero =>
      obtain rfl := Option.some.inj he
      rw [List.take_zero]
      simp [entriesBytes]
    | succ i =>
      rw [List.take_succ_cons, entriesBytes_cons, List.length_append]
      have := ih he
      omega

/-- One round of the loop: the header is noted, and its data passed over. -/
theorem tarParseFrom_cons {endAddr : U32} (h : ArchiveAt m a endAddr (e :: es)) (n : Nat)
    (t : TarFiles) : tarParseFrom m endAddr (n + 1) t a =
      tarParseFrom m endAddr n
        ⟨Function.update t.headers t.tarfsFiles a, t.tarfsFiles + 1⟩
        (a + BitVec.ofNat 32 e.bytes.length) := by
  have hlt := h.next_lt
  have hlen := e.length_bytes
  have hsize := e.tarGetsize h.holds_entry (by omega)
  have htail : ¬ endAddr < a + BitVec.ofNat 32 e.bytes.length := by
    rw [BitVec.not_lt]
    exact Nat.le_trans (Nat.le_add_right _ _) h.tail.fits
  rw [tarParseFrom, if_neg h.name_ne_zero]
  dsimp only
  rw [TarEntry.nextAddr hsize hlt, if_neg htail]

/-- The loop from the `i`-th header on. -/
theorem tarParseFrom_archive {endAddr : U32} (h : ArchiveAt m a endAddr es) {n : Nat}
    (hn : es.length ≤ n) (t : TarFiles) :
    ∃ t', tarParseFrom m endAddr n t a = some t' ∧
      t'.tarfsFiles = t.tarfsFiles + es.length ∧
      (∀ i < es.length, t'.headers (t.tarfsFiles + i) = headerAddr a es i) ∧
      ∀ i < t.tarfsFiles, t'.headers i = t.headers i := by
  induction es generalizing a n t with
  | nil =>
    refine ⟨t, ?_, rfl, fun i hi => absurd hi (Nat.not_lt_zero i), fun _ _ => rfl⟩
    cases n with
    | zero => exact if_pos h.zero_of_nil
    | succ n => exact if_pos h.zero_of_nil
  | cons e es ih =>
    cases n with
    | zero => exact absurd hn (Nat.not_succ_le_zero _)
    | succ n =>
      obtain ⟨t', ht', hfiles, hheaders, hkept⟩ := ih h.tail (Nat.le_of_succ_le_succ hn)
        ⟨Function.update t.headers t.tarfsFiles a, t.tarfsFiles + 1⟩
      dsimp only at hfiles hheaders hkept
      refine ⟨t', (tarParseFrom_cons h n t).trans ht', ?_, ?_, ?_⟩
      · rw [hfiles, List.length_cons]
        omega
      · intro i hi
        cases i with
        | zero =>
          rw [Nat.add_zero, hkept _ (Nat.lt_succ_self _), headerAddr_zero, Function.update_self]
        | succ i =>
          rw [headerAddr_succ, ← hheaders i (Nat.lt_of_succ_lt_succ hi)]
          congr 1
          omega
      · intro i hi
        rw [hkept i (by omega), Function.update_of_ne (by omega)]

end

/-- `tar_parse` finds the entries of an archive that has been written. -/
theorem tarParse_archive (m : Mem) (headers : Nat → U32) (start endAddr : U32)
    (es : List TarEntry) (h : ArchiveAt m start endAddr es) (hfew : es.length ≤ numTarfiles) :
    ∃ t, tarParse m headers start endAddr = some t ∧ t.tarfsFiles = es.length ∧
      ∀ i < es.length, t.headers i = headerAddr start es i := by
  obtain ⟨t, ht, hfiles, hheaders, -⟩ := tarParseFrom_archive h hfew ⟨headers, 0⟩
  dsimp only at hfiles hheaders
  refine ⟨t, ht, by rw [hfiles, Nat.zero_add], fun i hi => ?_⟩
  rw [← hheaders i hi, Nat.zero_add]

/-! ## Writing an archive -/

/-- A regular file with the given fields. -/
def tarFile (name mode data : List (BitVec 8)) (hname : name.length ≤ 100) (hmode : mode.length = 8)
    (hne : name.headD 0 ≠ 0) : TarEntry where
  name := name ++ List.replicate (100 - name.length) 0
  mode := mode
  uid := List.replicate 8 0
  gid := List.replicate 8 0
  size := octalDigits data.length ++ [0]
  mtime := List.replicate 12 0
  chksum := List.replicate 8 0
  typeflag := 0x30
  rest := List.replicate 355 0
  length_name := by
    rw [List.length_append, List.length_replicate]
    omega
  length_mode := hmode
  length_uid := List.length_replicate
  length_gid := List.length_replicate
  length_size := by rw [octalDigits, List.length_append, List.length_map, List.length_range]; rfl
  length_mtime := List.length_replicate
  length_chksum := List.length_replicate
  length_rest := List.length_replicate
  data := data
  named := by
    cases name with
    | nil => exact hne
    | cons b bs => exact hne
  sized := List.take_left' (by rw [octalDigits, List.length_map, List.length_range])

/-- The mode field `0000644`. -/
def mode644 : List (BitVec 8) := [0x30, 0x30, 0x30, 0x30, 0x36, 0x34, 0x34, 0]

theorem length_mode644 : mode644.length = 8 := rfl

/-- The entry `.`, which is the first one of an archive. -/
def dotEntry : TarEntry := tarFile [0x2e] mode644 [] (by decide) length_mode644 (by decide)

/-- The directory `.` and the file `a` with three bytes. -/
def smallArchive : List TarEntry :=
  [dotEntry, tarFile [0x61] mode644 [1, 2, 3] (by decide) length_mode644 (by decide)]

theorem length_smallArchive : (archiveBytes smallArchive).length = 2048 := by
  simp only [archiveBytes, entriesBytes, smallArchive, List.flatMap_cons, List.flatMap_nil,
    List.length_append, TarEntry.length_bytes, List.length_replicate, List.length_nil]
  rfl

theorem archiveAt_smallArchive : ArchiveAt (Mem.ofBytes 0x1000 (archiveBytes smallArchive)) 0x1000
    0x1800 smallArchive :=
  ⟨Mem.holds_ofBytes (by rw [length_smallArchive]; decide), by rw [length_smallArchive]; decide⟩

theorem tarParse_smallArchive :
    ∃ t, tarParse (Mem.ofBytes 0x1000 (archiveBytes smallArchive)) (fun _ => 0) 0x1000 0x1800 =
      some t ∧ t.tarfsFiles = smallArchive.length ∧
      ∀ i < smallArchive.length, t.headers i = headerAddr 0x1000 smallArchive i :=
  tarParse_archive _ _ _ _ _ archiveAt_smallArchive (by decide)

end PiggyOS
