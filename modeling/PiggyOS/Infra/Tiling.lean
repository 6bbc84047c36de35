import Mathlib.Algebra.BigOperators.Group.List.Basic
import Mathlib.Algebra.GroupWithZero.Nat

/-!
# Tilings

A sequence of pieces tiles an interval when the first piece starts where the interval starts, each
piece starts where the one before it stops, and the last one stops where the interval stops.

* `tiles_append` — cutting and joining
* `Tiles.replace` — other pieces in place of some, over the same part of the interval
* `Tiles.exists_mem`, `Tiles.eq_of_mem` — each point is in one piece, and in one only
* `Tiles.sum_length` — the lengths add up
-/

namespace PiggyOS.Infra

variable {C : Type _} {start stop : C → Nat} {a b x : Nat} {c d : C} {cs xs ys zs mid mid' : List C}

/-- The pieces lie one behind the other from `a` to `b`, and none is empty. -/
def Tiles (start stop : C → Nat) : Nat → List C → Nat → Prop
  | a, [], b => a = b
  | a, c :: cs, b => start c = a ∧ start c < stop c ∧ Tiles start stop (stop c) cs b

theorem tiles_singleton :
    Tiles start stop a [c] b ↔ start c = a ∧ start c < stop c ∧ stop c = b := Iff.rfl

/-- Cutting a tiling in two, and joining two tilings. -/
theorem tiles_append : Tiles start stop a (xs ++ ys) b ↔
    ∃ m, Tiles start stop a xs m ∧ Tiles start stop m ys b := by
  induction xs generalizing a with
  | nil =>
    constructor
    · intro h
      exact ⟨a, rfl, h⟩
    · rintro ⟨m, rfl, h⟩
      exact h
  | cons c xs ih =>
    rw [List.cons_append, Tiles, ih]
    constructor
    · rintro ⟨hs, hlt, m, hx, hy⟩
      exact ⟨m, ⟨hs, hlt, hx⟩, hy⟩
    · rintro ⟨m, ⟨hs, hlt, hx⟩, hy⟩
      exact ⟨hs, hlt, m, hx, hy⟩

namespace Tiles

theorem le (h : Tiles start stop a cs b) : a ≤ b := by
  induction cs generalizing a with
  | nil => exact Nat.le_of_eq h
  | cons c cs ih =>
    obtain ⟨hs, hlt, hrest⟩ := h
    have := ih hrest
    omega

/-- Each piece lies in the interval. -/
theorem bounds_mem (h : Tiles start stop a cs b) (hc : c ∈ cs) :
    a ≤ start c ∧ start c < stop c ∧ stop c ≤ b := by
  induction cs generalizing a with
  | nil => exact nomatch hc
  | cons d ds ih =>
    obtain ⟨hs, hlt, hrest⟩ := h
    rcases List.mem_cons.mp hc with rfl | hc
    · exact ⟨Nat.le_of_eq hs.symm, hlt, hrest.le⟩
    · obtain ⟨h1, h2, h3⟩ := ih hrest hc
      exact ⟨by omega, h2, h3⟩

/-- A piece lies before all pieces behind it. -/
theorem stop_le_start (h : Tiles start stop a (xs ++ ys) b) (hx : c ∈ xs) (hy : d ∈ ys) :
    stop c ≤ start d := by
  obtain ⟨m, hxs, hys⟩ := tiles_append.mp h
  exact Nat.le_trans (hxs.bounds_mem hx).2.2 (hys.bounds_mem hy).1

/-- Two pieces are the same or one lies before the other. -/
theorem trichotomy (h : Tiles start stop a cs b) (hc : c ∈ cs) (hd : d ∈ cs) :
    c = d ∨ stop c ≤ start d ∨ stop d ≤ start c := by
  obtain ⟨xs, ys, rfl⟩ := List.append_of_mem hc
  rcases List.mem_append.mp hd with hd | hd
  · exact Or.inr (Or.inr (h.stop_le_start hd List.mem_cons_self))
  · rcases List.mem_cons.mp hd with rfl | hd
    · exact Or.inl rfl
    · rw [← List.singleton_append, ← List.append_assoc] at h
      exact Or.inr (Or.inl (h.stop_le_start (by simp) hd))

/-- No two pieces share a point. -/
theorem eq_of_mem (h : Tiles start stop a cs b) (hc : c ∈ cs) (hd : d ∈ cs)
    (hxc : start c ≤ x ∧ x < stop c) (hxd : start d ≤ x ∧ x < stop d) : c = d := by
  rcases h.trichotomy hc hd with he | hle | hle
  · exact he
  · omega
  · omega

theorem eq_of_start_eq (h : Tiles start stop a cs b) (hc : c ∈ cs) (hd : d ∈ cs)
    (he : start c = start d) : c = d := by
  have hlt := (h.bounds_mem hc).2.1
  have hlt' := (h.bounds_mem hd).2.1
  exact h.eq_of_mem hc hd (x := start c) ⟨Nat.le_refl _, hlt⟩ ⟨by omega, by omega⟩

/-- Other pieces over the same part of the interval. -/
theorem replace (h : Tiles start stop a (xs ++ mid ++ zs) b)
    (hmid : ∀ l m, m ≤ b → Tiles start stop l mid m → Tiles start stop l mid' m) :
    Tiles start stop a (xs ++ mid' ++ zs) b := by
  obtain ⟨m, h, hz⟩ := tiles_append.mp h
  obtain ⟨l, hx, h⟩ := tiles_append.mp h
  exact tiles_append.mpr ⟨m, tiles_append.mpr ⟨l, hx, hmid l m hz.le h⟩, hz⟩

/-- Every point of the interval lies in a piece. -/
theorem exists_mem (h : Tiles start stop a cs b) (ha : a ≤ x) (hb : x < b) :
    ∃ c ∈ cs, start c ≤ x ∧ x < stop c := by
  induction cs generalizing a with
  | nil =>
    obtain rfl : a = b := h
    omega
  | cons c cs ih =>
    obtain ⟨hs, -, hrest⟩ := h
    by_cases hx : x < stop c
    · exact ⟨c, List.mem_cons_self, by omega, hx⟩
    · obtain ⟨d, hd, hxd⟩ := ih hrest (by omega)
      exact ⟨d, List.mem_cons_of_mem c hd, hxd⟩

/-- The lengths of the pieces add up to that of the interval. -/
theorem sum_length (h : Tiles start stop a cs b) :
    (cs.map fun c => stop c - start c).sum = b - a := by
  induction cs generalizing a with
  | nil =>
    obtain rfl : a = b := h
    simp
  | cons c cs ih =>
    obtain ⟨hs, hlt, hrest⟩ := h
    rw [List.map_cons, List.sum_cons, ih hrest]
    have := hrest.le
    omega

end Tiles

end PiggyOS.Infra
