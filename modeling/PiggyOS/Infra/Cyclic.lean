import Mathlib.Data.List.Basic
import Mathlib.Data.Nat.ModEq
import Mathlib.Logic.Function.Basic

/-!
# Windows of a ring

A ring of `N` cells is a function on indices that are taken modulo `N`. `cyclic N f start n` lists
the `n` cells from `start` on. A queue in the ring is such a window: it loses its first cell at the
front and gains the cell behind the last one at the rear.
-/

namespace PiggyOS.Infra

variable {α : Type _} {N : Nat} {f : Nat → α} {start n : Nat}

def cyclic (N : Nat) (f : Nat → α) (start n : Nat) : List α :=
  (List.range n).map fun i => f ((start + i) % N)

@[simp] theorem cyclic_zero : cyclic N f start 0 = [] := rfl

@[simp] theorem length_cyclic : (cyclic N f start n).length = n := by simp [cyclic]

/-- The window grows at the rear. -/
theorem cyclic_succ : cyclic N f start (n + 1) = cyclic N f start n ++ [f ((start + n) % N)] := by
  simp [cyclic, List.range_succ]

/-- The window without its first cell. -/
theorem cyclic_cons :
    cyclic N f start (n + 1) = f (start % N) :: cyclic N f ((start + 1) % N) n := by
  unfold cyclic
  rw [List.range_succ_eq_map, List.map_cons, List.map_map]
  congr 1
  apply List.map_congr_left
  intro i _
  show f ((start + (i + 1)) % N) = f (((start + 1) % N + i) % N)
  rw [Nat.mod_add_mod, Nat.add_assoc, Nat.add_comm 1 i]

/-- The cell behind a window that does not fill the ring lies outside of it. -/
theorem cyclic_update (h : n < N) (v : α) :
    cyclic N (Function.update f ((start + n) % N) v) start n = cyclic N f start n := by
  apply List.map_congr_left
  intro i hi
  rw [List.mem_range] at hi
  apply Function.update_of_ne
  intro heq
  have hmod : i % N = n % N := Nat.ModEq.add_left_cancel' start heq
  rw [Nat.mod_eq_of_lt (by omega), Nat.mod_eq_of_lt h] at hmod
  omega

/-- An element is put into the ring behind the window. -/
theorem cyclic_push (h : n < N) (v : α) :
    cyclic N (Function.update f ((start + n) % N) v) start (n + 1) = cyclic N f start n ++ [v] := by
  rw [cyclic_succ, cyclic_update h, Function.update_self]

end PiggyOS.Infra
