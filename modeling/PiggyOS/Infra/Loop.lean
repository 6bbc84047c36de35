/-!
# Bounded loops

A C `while` loop is run for at most `n` tests of its condition. `none` stands for a run
that does not come back: the bound is used up, or the body itself does not return.

Five rules are enough for every loop of this development.

* `loop_invariant` — partial correctness: what the body keeps holds at the exit
* `loop_total` — total correctness: a measure below the bound gives an exit
* `loop_eq_none` — divergence: an invariant under which the loop never leaves
* `loop_of_body` — a loop whose body follows that of another one
* `map_loop` — a loop with more in its state than another one
-/

namespace PiggyOS.Infra

variable {σ : Type _} {cond : σ → Bool} {body : σ → Option σ}

/-- `while (cond s) s = body s`, given up after `n` tests of `cond`. -/
def loop (cond : σ → Bool) (body : σ → Option σ) : Nat → σ → Option σ
  | 0, _ => none
  | n + 1, s => if cond s then (body s).bind (loop cond body n) else some s

theorem loop_invariant (Inv : σ → Prop)
    (hbody : ∀ s s', Inv s → cond s = true → body s = some s' → Inv s') (n : Nat) (s t : σ)
    (hs : Inv s) (h : loop cond body n s = some t) : Inv t ∧ cond t = false := by
  induction n generalizing s with
  | zero => simp [loop] at h
  | succ n ih =>
    rw [loop] at h
    split at h
    · next hc =>
      obtain ⟨s', hb, hl⟩ := Option.bind_eq_some_iff.mp h
      exact ih s' (hbody s s' hs hc hb) hl
    · next hc =>
      rw [← Option.some.inj h]
      exact ⟨hs, by simpa using hc⟩

theorem loop_total (Inv : σ → Prop) (μ : σ → Nat)
    (hbody : ∀ s, Inv s → cond s = true → ∃ s', body s = some s' ∧ Inv s' ∧ μ s' < μ s)
    (n : Nat) (s : σ) (hs : Inv s) (h : μ s < n) :
    ∃ t, loop cond body n s = some t ∧ Inv t ∧ cond t = false := by
  induction n generalizing s with
  | zero => exact absurd h (Nat.not_lt_zero _)
  | succ n ih =>
    rw [loop]
    by_cases hc : cond s = true
    · obtain ⟨s', hb, hs', hμ⟩ := hbody s hs hc
      rw [if_pos hc, hb]
      exact ih s' hs' (by omega)
    · rw [if_neg hc]
      exact ⟨s, rfl, hs, by simpa using hc⟩

theorem loop_eq_none (Inv : σ → Prop)
    (hbody : ∀ s, Inv s → cond s = true ∧ ∀ s', body s = some s' → Inv s') (n : Nat) (s : σ)
    (hs : Inv s) : loop cond body n s = none := by
  induction n generalizing s with
  | zero => rfl
  | succ n ih =>
    obtain ⟨hc, hb⟩ := hbody s hs
    rw [loop, if_pos hc]
    cases hr : body s with
    | none => rfl
    | some s' => exact ih s' (hb s' hr)

/-- A loop comes to the exit that another one comes to, if its body does what the other body
does. -/
theorem loop_of_body (Inv : σ → Prop) (body' : σ → Option σ)
    (hbody : ∀ s s', Inv s → cond s = true → body s = some s' → body' s = some s' ∧ Inv s')
    (n : Nat) (s t : σ) (hs : Inv s) (h : loop cond body n s = some t) :
    loop cond body' n s = some t := by
  induction n generalizing s with
  | zero => simp [loop] at h
  | succ n ih =>
    rw [loop] at h ⊢
    split at h
    · next hc =>
      obtain ⟨s', hb, hl⟩ := Option.bind_eq_some_iff.mp h
      obtain ⟨hb', hs'⟩ := hbody s s' hs hc hb
      rw [if_pos hc, hb']
      exact ih s' hs' hl
    · next hc => rw [if_neg hc, h]

/-- Forgetting a part of the state gives the loop without it. -/
theorem map_loop {τ : Type _} (f : σ → τ) (cond' : τ → Bool) (body' : τ → Option τ)
    (hcond : ∀ s, cond' (f s) = cond s) (hbody : ∀ s, body' (f s) = (body s).map f) (n : Nat)
    (s : σ) : (loop cond body n s).map f = loop cond' body' n (f s) := by
  induction n generalizing s with
  | zero => rfl
  | succ n ih =>
    rw [loop, loop, hcond]
    split
    · rw [hbody]
      cases body s with
      | none => rfl
      | some s' => exact ih s'
    · rfl

end PiggyOS.Infra
