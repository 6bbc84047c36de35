import Mathlib.Computability.StateTransition

/-!
# Endless loops with breaks

A loop without a condition is given by what one round does; `none` is a break. The states before its
rounds are the ones it reaches, and it ends when one of them leads to a break.

* `reaches_invariant` — what a round keeps holds before every round
* `ends_of_decreasing` — a measure that every round decreases ends the loop
* `not_ends` — a loop that never breaks
-/

namespace PiggyOS.Infra

variable {σ : Type _} {round : σ → Option σ} {s t u : σ}

/-- A round from a state that is reached. -/
theorem reaches_next (h : StateTransition.Reaches round s t) (ht : round t = some u) :
    StateTransition.Reaches round s u :=
  Relation.ReflTransGen.tail h ht

theorem reaches_invariant (Inv : σ → Prop)
    (hround : ∀ t u, Inv t → round t = some u → Inv u) (hs : Inv s)
    (h : StateTransition.Reaches round s t) : Inv t := by
  induction h with
  | refl => exact hs
  | tail _ hstep ih => exact hround _ _ ih hstep

/-- The loop comes to a break. -/
def Ends (round : σ → Option σ) (s : σ) : Prop :=
  ∃ t, StateTransition.Reaches round s t ∧ round t = none

theorem ends_of_decreasing (μ : σ → Nat)
    (hround : ∀ t u, StateTransition.Reaches round s t → round t = some u → μ u < μ t) :
    Ends round s := by
  -- from every state that is reached, by induction on its measure
  have hend : ∀ n t, StateTransition.Reaches round s t → μ t = n → Ends round s := by
    intro n
    induction n using Nat.strongRecOn with
    | ind n ih =>
      intro t ht hn
      cases hstep : round t with
      | none => exact ⟨t, ht, hstep⟩
      | some u => exact ih (μ u) (hn ▸ hround t u ht hstep) u (reaches_next ht hstep) rfl
  exact hend (μ s) s Relation.ReflTransGen.refl rfl

theorem not_ends (Inv : σ → Prop) (hround : ∀ t, Inv t → ∃ u, round t = some u ∧ Inv u)
    (hs : Inv s) : ¬ Ends round s := by
  rintro ⟨t, ht, hbreak⟩
  have hinv : Inv t := by
    refine reaches_invariant Inv (fun t u hinv hstep => ?_) hs ht
    obtain ⟨u', hu', hinv'⟩ := hround t hinv
    rw [hstep] at hu'
    exact Option.some.inj hu' ▸ hinv'
  obtain ⟨u, hu, -⟩ := hround t hinv
  rw [hbreak] at hu
  cases hu

end PiggyOS.Infra
