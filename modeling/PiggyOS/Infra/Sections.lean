import Mathlib.Data.List.Basic
import Mathlib.Logic.Function.Basic

/-!
# A log that is written in sections

Writers append entries to one log, each of them only while it is inside of a section of its own.
When at most one writer is inside at a time, the log is the sections that have been closed, one
after another, and what the writer inside has written since it came in.

The three rules follow a writer through its section.

* `Sectioned.enter` — a writer comes in while nobody is inside
* `Sectioned.write` — it appends an entry
* `Sectioned.leave` — its section is closed
-/

namespace PiggyOS.Infra

variable {ι α : Type _} {inside inside' : ι → Prop} {written written' : ι → List α}
  {log : List (ι × α)} {closed : List (ι × List α)} {i : ι} {a : α} {all : List α}

/-- The entries of a section. -/
def entries (c : ι × List α) : List (ι × α) := c.2.map (c.1, ·)

/-- `written` gives what the writers inside have written since they came in. -/
structure Sectioned (inside : ι → Prop) (written : ι → List α) (log : List (ι × α))
    (closed : List (ι × List α)) : Prop where
  nobody : (∀ i, ¬ inside i) → log = closed.flatMap entries
  somebody : ∀ i, inside i → log = closed.flatMap entries ++ entries (i, written i)

namespace Sectioned

theorem congr (h : Sectioned inside written log closed) (hinside : ∀ i, inside' i ↔ inside i)
    (hwritten : ∀ i, inside i → written' i = written i) :
    Sectioned inside' written' log closed where
  nobody := fun hno => h.nobody fun i hi => hno i ((hinside i).mpr hi)
  somebody := fun i hi => by
    rw [hwritten i ((hinside i).mp hi)]
    exact h.somebody i ((hinside i).mp hi)

theorem enter (h : Sectioned inside written log closed) (hfree : ∀ i, ¬ inside i)
    (hinside : ∀ j, inside' j → j = i) (hwritten : written' i = []) (hi : inside' i) :
    Sectioned inside' written' log closed where
  nobody := fun hno => absurd hi (hno i)
  somebody := fun j hj => by
    rw [hinside j hj, hwritten, h.nobody hfree]
    simp [entries]

theorem write (h : Sectioned inside written log closed) (hi : inside i)
    (hinside : ∀ j, inside' j → j = i) (hi' : inside' i)
    (hwritten : written' i = written i ++ [a]) :
    Sectioned inside' written' (log ++ [(i, a)]) closed where
  nobody := fun hno => absurd hi' (hno i)
  somebody := fun j hj => by
    rw [hinside j hj, hwritten, h.somebody i hi]
    simp [entries]

theorem leave (h : Sectioned inside written log closed) (hi : inside i)
    (hinside : ∀ j, ¬ inside' j) (hwritten : written i = all) :
    Sectioned inside' written' log (closed ++ [(i, all)]) where
  nobody := fun _ => by
    rw [h.somebody i hi, hwritten, List.flatMap_append, List.flatMap_singleton]
  somebody := fun j hj => absurd hj (hinside j)

/-- The log is the closed sections and an open one at most. -/
theorem exists_rest (h : Sectioned inside written log closed) :
    ∃ rest, log = closed.flatMap entries ++ rest ∧
      (rest = [] ∨ ∃ i, inside i ∧ rest = entries (i, written i)) := by
  by_cases hfree : ∀ i, ¬ inside i
  · exact ⟨[], by rw [h.nobody hfree, List.append_nil], Or.inl rfl⟩
  · obtain ⟨i, hi⟩ := not_forall_not.mp hfree
    exact ⟨_, h.somebody i hi, Or.inr ⟨i, hi, rfl⟩⟩

end Sectioned

end PiggyOS.Infra
