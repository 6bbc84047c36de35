/-!
# Exclusive ownership

Owners hold resources. Every resource that is held is marked as used, and no two owners hold
the same one; handing out a resource that is not used, and giving one back, keep it so.
-/

namespace PiggyOS.Infra

variable {ι ρ : Type _} {holds holds' : ι → ρ → Prop} {used used' : ρ → Prop} {i : ι} {r : ρ}

structure Exclusive (holds : ι → ρ → Prop) (used : ρ → Prop) : Prop where
  used : ∀ i r, holds i r → used r
  owner : ∀ i j r, holds i r → holds j r → i = j

namespace Exclusive

/-- Fewer owners, more marks. -/
theorem mono (h : Exclusive holds used) (hholds : ∀ i r, holds' i r → holds i r)
    (hused : ∀ r, used r → used' r) : Exclusive holds' used' :=
  ⟨fun i r hi => hused r (h.used i r (hholds i r hi)),
    fun i j r hi hj => h.owner i j r (hholds i r hi) (hholds j r hj)⟩

/-- `i` is handed a resource that is not used. -/
theorem acquire (h : Exclusive holds used) (hfree : ¬ used r) :
    Exclusive (fun j x => (j = i ∧ x = r) ∨ holds j x) (fun x => x = r ∨ used x) := by
  constructor
  · rintro j x (⟨-, rfl⟩ | hj)
    · exact Or.inl rfl
    · exact Or.inr (h.used j x hj)
  · rintro j j' x (⟨rfl, rfl⟩ | hj) (⟨rfl, hx⟩ | hj')
    · rfl
    · exact absurd (h.used j' x hj') hfree
    · rw [hx] at hj
      exact absurd (h.used j r hj) hfree
    · exact h.owner j j' x hj hj'

/-- `i` gives back a resource it holds. -/
theorem release (h : Exclusive holds used) (hi : holds i r) :
    Exclusive (fun j x => j ≠ i ∧ holds j x) (fun x => x ≠ r ∧ used x) := by
  constructor
  · rintro j x ⟨hne, hj⟩
    refine ⟨?_, h.used j x hj⟩
    rintro rfl
    exact hne (h.owner j i x hj hi)
  · rintro j j' x ⟨-, hj⟩ ⟨-, hj'⟩
    exact h.owner j j' x hj hj'

end Exclusive

end PiggyOS.Infra
