import PiggyOS.Fs.Tar
import PiggyOS.Infra.Rounds

/-!
# The loop over an archive (`tar_parse`)

`tar_parse` goes from header to header until it comes to one without a name or to an entry that
reaches over the end of the archive. The address behind an entry is computed in 32 bits from a size
that the archive says; that it is still inside of the archive is not checked, nor that there is room
in `headers`.

* `tarParseFrom_eq_none_iff` — the rounds are those of `tar_parse`
* `tarTerminates_iff` — every round moves on, and the loop ends
* `tarInBounds_iff` — no header outside of the archive, and no store outside of `headers`
-/

namespace PiggyOS

open Infra

/-- The variables of the loop. -/
structure TarRound where
  address : U32
  tarfsFiles : Nat
  deriving DecidableEq

section

variable (m : Mem)

/-- The size in the header at `address`. -/
def tarSize (address : U32) : U32 := tarGetsize (charsAt m (address + 124))

/-- The address behind the entry whose header is at `address`. -/
def tarNext (address : U32) : U32 :=
  let size := tarSize m address
  let address := address + (size / 512 + 1) * 512
  if size % 512 ≠ 0 then address + 512 else address

/-- A round of the loop; `none` is a break. The store to `headers` is left out, also where it is
outside of the array. -/
def tarRound (endAddr : U32) (s : TarRound) : Option TarRound :=
  if m s.address = 0 then none
  else if endAddr < tarNext m s.address then none
  else some ⟨tarNext m s.address, s.tarfsFiles + 1⟩

/-- The loop comes to a round with these variables. -/
def TarComesTo (start endAddr : U32) (s : TarRound) : Prop :=
  StateTransition.Reaches (tarRound m endAddr) ⟨start, 0⟩ s

end

section

variable {m : Mem} {start endAddr address size : U32} {s t : TarRound} {n : Nat}

/-! ## The rounds -/

theorem tarRound_eq_some : tarRound m endAddr s = some t ↔
    m s.address ≠ 0 ∧ tarNext m s.address ≤ endAddr ∧
      t = ⟨tarNext m s.address, s.tarfsFiles + 1⟩ := by
  unfold tarRound
  by_cases hname : m s.address = 0
  · rw [if_pos hname]
    exact iff_of_false (fun h => nomatch h) fun h => h.1 hname
  · rw [if_neg hname]
    by_cases hend : endAddr < tarNext m s.address
    · rw [if_pos hend]
      refine iff_of_false (fun h => nomatch h) fun h => ?_
      exact absurd h.2.1 (BitVec.not_le.mpr hend)
    · rw [if_neg hend, Option.some.injEq]
      exact ⟨fun h => ⟨hname, BitVec.not_lt.mp hend, h.symm⟩, fun h => h.2.2.symm⟩

/-- The addresses before the rounds are not above the end. -/
theorem TarComesTo.le (h : TarComesTo m start endAddr s) (hle : start ≤ endAddr) :
    s.address ≤ endAddr := by
  refine reaches_invariant (fun s => s.address ≤ endAddr) (fun t u _ hround => ?_) hle h
  obtain ⟨-, hnext, rfl⟩ := tarRound_eq_some.mp hround
  exact hnext

theorem tarParseFrom_succ (t : TarFiles) (h : t.tarfsFiles = s.tarfsFiles) :
    tarParseFrom m endAddr (n + 1) t s.address =
      if m s.address = 0 then some t
      else
        let t := { t with headers := Function.update t.headers t.tarfsFiles s.address }
        (tarRound m endAddr s).elim (some t) fun u =>
          tarParseFrom m endAddr n { t with tarfsFiles := u.tarfsFiles } u.address := by
  by_cases hname : m s.address = 0
  · rw [tarParseFrom, if_pos hname, if_pos hname]
  · rw [tarParseFrom, if_neg hname, if_neg hname, tarRound, if_neg hname, ← h]
    dsimp only
    by_cases hend : endAddr < tarNext m s.address
    · rw [if_pos hend]
      exact if_pos hend
    · rw [if_neg hend]
      exact if_neg hend

/-- The count of the headers is that of the stores. -/
theorem tarfsFiles_tarParseFrom_le {t t' : TarFiles}
    (h : tarParseFrom m endAddr n t address = some t') : t'.tarfsFiles ≤ t.tarfsFiles + n := by
  induction n generalizing t address with
  | zero =>
    rw [tarParseFrom] at h
    split at h
    · cases h
      exact Nat.le_refl _
    · cases h
  | succ n ih =>
    have hround := @tarParseFrom_succ m endAddr ⟨address, t.tarfsFiles⟩ n t rfl
    dsimp only at hround
    rw [hround] at h
    split at h
    · cases h
      exact Nat.le_add_right _ _
    · cases hnext : tarRound m endAddr ⟨address, t.tarfsFiles⟩ with
      | none =>
        rw [hnext] at h
        cases h
        exact Nat.le_add_right _ _
      | some u =>
        obtain ⟨-, -, rfl⟩ := tarRound_eq_some.mp hnext
        rw [hnext] at h
        have hle := ih h
        dsimp only at hle
        omega

/-- A later round is one after the next. -/
theorem reaches_of_tarfsFiles_ne (h : StateTransition.Reaches (tarRound m endAddr) s t)
    (hne : t.tarfsFiles ≠ s.tarfsFiles) :
    ∃ u, tarRound m endAddr s = some u ∧ StateTransition.Reaches (tarRound m endAddr) u t := by
  rcases Relation.ReflTransGen.cases_head h with rfl | ⟨u, hround, hrest⟩
  · exact absurd rfl hne
  · exact ⟨u, hround, hrest⟩

/-- **`tar_parse` stores behind the end of `headers` if one of its rounds does.** -/
theorem tarParseFrom_eq_none_iff (t : TarFiles) (h : t.tarfsFiles = s.tarfsFiles) :
    tarParseFrom m endAddr n t s.address = none ↔
      ∃ u, StateTransition.Reaches (tarRound m endAddr) s u ∧ m u.address ≠ 0 ∧
        u.tarfsFiles = s.tarfsFiles + n := by
  induction n generalizing s t with
  | zero =>
    have hzero : tarParseFrom m endAddr 0 t s.address = none ↔ m s.address ≠ 0 := by
      simp [tarParseFrom]
    rw [hzero]
    constructor
    · exact fun hname => ⟨s, Relation.ReflTransGen.refl, hname, rfl⟩
    · rintro ⟨u, hu, hname, hfiles⟩
      rcases Relation.ReflTransGen.cases_head hu with rfl | ⟨v, hround, hrest⟩
      · exact hname
      · exact (tarRound_eq_some.mp hround).1
  | succ n ih =>
    rw [tarParseFrom_succ t h]
    cases hround : tarRound m endAddr s with
    | none =>
      refine iff_of_false ?_ ?_
      · split <;> simp
      · rintro ⟨u, hu, -, hfiles⟩
        obtain ⟨v, hv, -⟩ := reaches_of_tarfsFiles_ne hu (by omega)
        rw [hround] at hv
        cases hv
    | some v =>
      obtain ⟨hname, -, hv⟩ := tarRound_eq_some.mp hround
      have hcount : v.tarfsFiles = s.tarfsFiles + 1 := by rw [hv]
      rw [if_neg hname]
      refine (ih _ rfl).trans ⟨?_, ?_⟩
      · rintro ⟨u, hu, hnamed, hfiles⟩
        exact ⟨u, Relation.ReflTransGen.head hround hu, hnamed, by omega⟩
      · rintro ⟨u, hu, hnamed, hfiles⟩
        obtain ⟨v', hv', hrest⟩ := reaches_of_tarfsFiles_ne hu (by omega)
        rw [hround] at hv'
        cases hv'
        exact ⟨u, hrest, hnamed, by omega⟩

/-! ## Moving on -/

/-- The number of bytes that the header and the data of an entry take up in blocks. -/
def tarBlocks (size : U32) : Nat := 512 + (size.toNat + 511) / 512 * 512

/-- The blocks of an entry at `address`, counted modulo the size of the address space, are some and
end inside of it. -/
def TarFits (address size : U32) : Prop :=
  0 < tarBlocks size % 2 ^ 32 ∧ address.toNat + tarBlocks size % 2 ^ 32 < 2 ^ 32

theorem toNat_tarNext (m : Mem) (address : U32) : (tarNext m address).toNat =
    (address.toNat + tarBlocks (tarSize m address)) % 2 ^ 32 := by
  have hzero : ∀ size : U32, size % 512 = 0 ↔ size.toNat % 512 = 0 := by
    intro size
    rw [← BitVec.toNat_inj, BitVec.toNat_umod]
    rfl
  have hblocks : ∀ size : U32, ((size / 512 + 1) * 512).toNat =
      (size.toNat / 512 + 1) * 512 % 2 ^ 32 := by
    intro size
    rw [BitVec.toNat_mul, BitVec.toNat_add, BitVec.toNat_udiv]
    show (size.toNat / 512 + 1) % 2 ^ 32 * 512 % 2 ^ 32 = _
    omega
  have hblock : (512 : U32).toNat = 512 := rfl
  unfold tarNext tarBlocks
  dsimp only
  by_cases h : tarSize m address % 512 = 0
  · have h' := (hzero _).mp h
    rw [if_neg (not_not.mpr h), BitVec.toNat_add, hblocks]
    omega
  · have h' := mt (hzero _).mpr h
    rw [if_pos h, BitVec.toNat_add, BitVec.toNat_add, hblocks, hblock]
    omega

theorem lt_tarNext_iff :
    address.toNat < (tarNext m address).toNat ↔ TarFits address (tarSize m address) := by
  have hlt := address.isLt
  rw [toNat_tarNext, TarFits]
  omega

/-- The loop ends, and the address goes up with every round that does not break. -/
structure TarTerminates (m : Mem) (start endAddr : U32) : Prop where
  ends : Ends (tarRound m endAddr) ⟨start, 0⟩
  increases : ∀ s t, TarComesTo m start endAddr s → tarRound m endAddr s = some t →
    s.address.toNat < t.address.toNat

/-- **`tar_parse` terminates, going upwards, exactly if no entry that it comes to takes it around
the address space.** -/
theorem tarTerminates_iff (hle : start ≤ endAddr) : TarTerminates m start endAddr ↔
    ∀ s, TarComesTo m start endAddr s → m s.address ≠ 0 →
      TarFits s.address (tarSize m s.address) := by
  constructor
  · intro h s hs hname
    by_contra hfits
    -- the next address is not above this one, and so the round does not break
    have hback : (tarNext m s.address).toNat ≤ s.address.toNat :=
      Nat.le_of_not_lt (mt lt_tarNext_iff.mp hfits)
    have hround : tarRound m endAddr s = some ⟨tarNext m s.address, s.tarfsFiles + 1⟩ :=
      tarRound_eq_some.mpr ⟨hname, Nat.le_trans hback (hs.le hle), rfl⟩
    exact absurd (h.increases s _ hs hround) (Nat.not_lt.mpr hback)
  · intro h
    have hup : ∀ s t, TarComesTo m start endAddr s → tarRound m endAddr s = some t →
        s.address.toNat < t.address.toNat := by
      intro s t hs hround
      obtain ⟨hname, -, rfl⟩ := tarRound_eq_some.mp hround
      exact lt_tarNext_iff.mpr (h s hs hname)
    refine ⟨ends_of_decreasing (fun s => 2 ^ 32 - s.address.toNat) fun t u ht hround => ?_, hup⟩
    have hlt := hup t u ht hround
    have hlast := u.address.isLt
    show 2 ^ 32 - u.address.toNat < 2 ^ 32 - t.address.toNat
    omega

/-- A file with the name `a` and the given digits for its size. -/
def tarHeader (digits : List (BitVec 8)) : Mem :=
  Mem.ofBytes 0x1000 (0x61 :: List.replicate 123 0 ++ digits)

/-- An empty file. -/
def emptyFile : Mem := tarHeader (List.replicate 11 0x30)

theorem tarNext_emptyFile : tarNext emptyFile 0x1000 = 0x1200 := by decide

/-- The loop over the empty file and a block of zeros has two rounds. -/
theorem tarComesTo_emptyFile (h : TarComesTo emptyFile 0x1000 0x1400 s) :
    s = ⟨0x1000, 0⟩ ∨ s = ⟨0x1200, 1⟩ := by
  refine reaches_invariant (fun s => s = ⟨0x1000, 0⟩ ∨ s = ⟨0x1200, 1⟩) ?_ (Or.inl rfl) h
  rintro t u (rfl | rfl) hround
  · obtain ⟨-, -, rfl⟩ := tarRound_eq_some.mp hround
    exact Or.inr (by rw [tarNext_emptyFile])
  · exact absurd (show emptyFile 0x1200 = 0 by decide) (tarRound_eq_some.mp hround).1

theorem tarTerminates_emptyFile : TarTerminates emptyFile 0x1000 0x1400 := by
  refine (tarTerminates_iff (by simp)).mpr fun s hs hname => ?_
  rcases tarComesTo_emptyFile hs with rfl | rfl
  · exact lt_tarNext_iff.mp (by rw [tarNext_emptyFile]; decide)
  · exact absurd (show emptyFile 0x1200 = 0 by decide) hname

/-- A file of `2 ^ 32 - 512` bytes: its size is `37777777000`. -/
def hugeFile : Mem := tarHeader [0x33, 0x37, 0x37, 0x37, 0x37, 0x37, 0x37, 0x37, 0x30, 0x30, 0x30]

/-- The loop stays at the header of this file. -/
theorem not_tarTerminates_hugeFile : ¬ TarTerminates hugeFile 0x1000 0x1400 ∧
    ¬ Ends (tarRound hugeFile 0x1400) ⟨0x1000, 0⟩ := by
  have hnext : tarNext hugeFile 0x1000 = 0x1000 := by decide
  have hends : ¬ Ends (tarRound hugeFile 0x1400) ⟨0x1000, 0⟩ := by
    refine not_ends (fun s => s.address = 0x1000) (fun s hs => ?_) rfl
    refine ⟨⟨0x1000, s.tarfsFiles + 1⟩, tarRound_eq_some.mpr ⟨?_, ?_, ?_⟩, rfl⟩
    · rw [hs]
      decide
    · rw [hs, hnext]
      decide
    · rw [hs, hnext]
  exact ⟨fun h => hends h.ends, hends⟩

/-! ## Staying inside -/

/-- The headers are inside of the archive, and the stores to `headers` are inside of the array. -/
structure TarInBounds (m : Mem) (start endAddr : U32) : Prop where
  inside : ∀ s, TarComesTo m start endAddr s →
    start.toNat ≤ s.address.toNat ∧ s.address.toNat + 512 ≤ endAddr.toNat
  stored : ∀ s, TarComesTo m start endAddr s → m s.address ≠ 0 → s.tarfsFiles < numTarfiles

/-- An entry of the archive ends where the archive does. -/
def EndsAtBoundary (m : Mem) (start endAddr : U32) : Prop :=
  ∃ s, TarComesTo m start endAddr s ∧ m s.address ≠ 0 ∧ tarNext m s.address = endAddr

/-- An entry of the archive takes the address around to one below the archive. -/
def StepsBelow (m : Mem) (start endAddr : U32) : Prop :=
  ∃ s, TarComesTo m start endAddr s ∧ m s.address ≠ 0 ∧ tarNext m s.address < start

/-- There are more entries than `headers` has room for. -/
def TooManyFiles (m : Mem) (start endAddr : U32) : Prop :=
  ∃ s, TarComesTo m start endAddr s ∧ m s.address ≠ 0 ∧ s.tarfsFiles = numTarfiles

theorem TarComesTo.next (h : TarComesTo m start endAddr s) (hname : m s.address ≠ 0)
    (hend : tarNext m s.address ≤ endAddr) :
    TarComesTo m start endAddr ⟨tarNext m s.address, s.tarfsFiles + 1⟩ :=
  reaches_next h (tarRound_eq_some.mpr ⟨hname, hend, rfl⟩)

/-- What a round keeps. -/
theorem tarRound_inside (hboundary : ¬ tarNext m s.address = endAddr)
    (hbelow : ¬ tarNext m s.address < start) (hround : tarRound m endAddr s = some t)
    (hstart : start.toNat ≤ s.address.toNat)
    (hblocks : (s.address.toNat - start.toNat) % 512 = 0) :
    start.toNat ≤ t.address.toNat ∧ t.address.toNat < endAddr.toNat ∧
      (t.address.toNat - start.toNat) % 512 = 0 := by
  obtain ⟨-, hend, rfl⟩ := tarRound_eq_some.mp hround
  have hge : start.toNat ≤ (tarNext m s.address).toNat := Nat.le_of_not_lt hbelow
  have hle : (tarNext m s.address).toNat ≤ endAddr.toNat := hend
  have hne : (tarNext m s.address).toNat ≠ endAddr.toNat :=
    fun h => hboundary (BitVec.eq_of_toNat_eq h)
  have hnext := toNat_tarNext m s.address
  unfold tarBlocks at hnext
  refine ⟨hge, Nat.lt_of_le_of_ne hle hne, ?_⟩
  show ((tarNext m s.address).toNat - start.toNat) % 512 = 0
  omega

/-- **`tar_parse` stays inside of the archive and of `headers` exactly if no entry ends at the
boundary or steps below the start, and the entries are not too many.** -/
theorem tarInBounds_iff (hlt : start < endAddr)
    (hblocks : (endAddr.toNat - start.toNat) % 512 = 0) : TarInBounds m start endAddr ↔
      ¬ EndsAtBoundary m start endAddr ∧ ¬ StepsBelow m start endAddr ∧
        ¬ TooManyFiles m start endAddr := by
  constructor
  · intro h
    refine ⟨?_, ?_, ?_⟩
    · rintro ⟨s, hs, hname, hnext⟩
      have hin := (h.inside _ (hs.next hname (by rw [hnext]; exact Nat.le_refl _))).2
      dsimp only at hin
      rw [hnext] at hin
      omega
    · rintro ⟨s, hs, hname, hnext⟩
      have hend : tarNext m s.address ≤ endAddr := Nat.le_of_lt (Nat.lt_trans hnext hlt)
      exact absurd (h.inside _ (hs.next hname hend)).1 (Nat.not_le.mpr hnext)
    · rintro ⟨s, hs, hname, hfiles⟩
      exact absurd (h.stored s hs hname) (by rw [hfiles]; exact Nat.lt_irrefl _)
  · rintro ⟨hboundary, hbelow, hmany⟩
    have hinv : ∀ s, TarComesTo m start endAddr s → start.toNat ≤ s.address.toNat ∧
        s.address.toNat < endAddr.toNat ∧ (s.address.toNat - start.toNat) % 512 = 0 ∧
        s.tarfsFiles ≤ numTarfiles := by
      intro s hs
      induction hs with
      | refl => exact ⟨Nat.le_refl _, hlt, by rw [Nat.sub_self], Nat.zero_le _⟩
      | @tail s t hs hround ih =>
        obtain ⟨hstart, -, hmod, hfiles⟩ := ih
        have hname := (tarRound_eq_some.mp hround).1
        obtain ⟨h1, h2, h3⟩ := tarRound_inside (fun h => hboundary ⟨s, hs, hname, h⟩)
          (fun h => hbelow ⟨s, hs, hname, h⟩) hround hstart hmod
        refine ⟨h1, h2, h3, ?_⟩
        have hfew : s.tarfsFiles ≠ numTarfiles := fun h => hmany ⟨s, hs, hname, h⟩
        obtain ⟨-, -, rfl⟩ := tarRound_eq_some.mp hround
        exact Nat.lt_of_le_of_ne hfiles hfew
    refine ⟨fun s hs => ?_, fun s hs hname => ?_⟩
    · obtain ⟨h1, h2, h3, -⟩ := hinv s hs
      omega
    · exact Nat.lt_of_le_of_ne (hinv s hs).2.2.2 fun h => hmany ⟨s, hs, hname, h⟩

theorem tarInBounds_emptyFile : TarInBounds emptyFile 0x1000 0x1400 := by
  have hzero : emptyFile 0x1200 = 0 := by decide
  refine (tarInBounds_iff (by simp) (by simp)).mpr ⟨?_, ?_, ?_⟩
  all_goals
    rintro ⟨s, hs, hname, h⟩
    rcases tarComesTo_emptyFile hs with rfl | rfl
    · exact absurd h (by decide)
    · exact hname hzero

/-- The header behind an archive that is not ended by a block of zeros. -/
theorem not_tarInBounds_emptyFile : (0x1000 : U32) < 0x1200 ∧
    ((0x1200 : U32).toNat - (0x1000 : U32).toNat) % 512 = 0 ∧
    ¬ TarInBounds emptyFile 0x1000 0x1200 := by
  refine ⟨by simp, by simp, fun h => ?_⟩
  have hround : tarRound emptyFile 0x1200 ⟨0x1000, 0⟩ = some ⟨0x1200, 1⟩ := by decide
  have hcomes : TarComesTo emptyFile 0x1000 0x1200 ⟨0x1200, 1⟩ :=
    reaches_next Relation.ReflTransGen.refl hround
  exact absurd (h.inside _ hcomes).2 (by simp)

end

end PiggyOS
