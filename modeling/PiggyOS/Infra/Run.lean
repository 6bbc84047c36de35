/-!
# Runs of a labelled transition system

A run is a sequence of labelled steps; the states a system can reach are the ends of its runs.
-/

namespace PiggyOS.Infra

variable {σ ι : Type _} {step : σ → ι → σ → Prop}

/-- `Run step s ops t`: performing `ops` in order leads from `s` to `t`. -/
inductive Run (step : σ → ι → σ → Prop) : σ → List ι → σ → Prop
  | nil (s : σ) : Run step s [] s
  | snoc {s t u : σ} {ops : List ι} {op : ι} :
      Run step s ops t → step t op u → Run step s (ops ++ [op]) u

theorem Run.eq_of_nil {s t : σ} (h : Run step s [] t) : t = s := by
  generalize hops : ([] : List ι) = ops at h
  cases h with
  | nil => rfl
  | snoc _ _ => exact absurd hops.symm (List.append_ne_nil_of_right_ne_nil _ (List.cons_ne_nil _ _))

/-- A new run from the end of a run. -/
theorem Run.start {s t : σ} {ops : List ι} (_ : Run step s ops t) : Run step t [] t := .nil t

/-- Runs of steps of one kind are runs of steps of a wider kind. -/
theorem Run.mono {step' : σ → ι → σ → Prop} (hstep : ∀ s op t, step s op t → step' s op t)
    {s t : σ} {ops : List ι} (h : Run step s ops t) : Run step' s ops t := by
  induction h with
  | nil => exact .nil _
  | snoc _ hs ih => exact .snoc ih (hstep _ _ _ hs)

/-- What holds at the start and is kept by every step holds at the end of every run. -/
theorem Run.invariant (Inv : σ → Prop) (hstep : ∀ s op t, Inv s → step s op t → Inv t)
    {s t : σ} {ops : List ι} (h : Run step s ops t) (hs : Inv s) : Inv t := by
  induction h with
  | nil => exact hs
  | snoc _ h ih => exact hstep _ _ _ ih h

/-- `u` is one of the states passed on the way from `s` to `t`, the two ends included. -/
def Passed (step : σ → ι → σ → Prop) (s : σ) (ops : List ι) (t u : σ) : Prop :=
  ∃ before after, ops = before ++ after ∧ Run step s before u ∧ Run step u after t

theorem Run.passed_end {s t : σ} {ops : List ι} (h : Run step s ops t) : Passed step s ops t t :=
  ⟨ops, [], (List.append_nil ops).symm, h, .nil t⟩

theorem Passed.snoc {s t t' u : σ} {ops : List ι} {op : ι} (h : Passed step s ops t u)
    (hstep : step t op t') : Passed step s (ops ++ [op]) t' u := by
  obtain ⟨before, after, rfl, h₁, h₂⟩ := h
  exact ⟨before, after ++ [op], List.append_assoc .., h₁, .snoc h₂ hstep⟩

/-- A system that can always move from one of the states `f 0, f 1, …` to the next reaches
all of them. -/
theorem Run.exists_of_chain (f : Nat → σ) (ops : Nat → ι) {N : Nat}
    (hstep : ∀ n < N, step (f n) (ops n) (f (n + 1))) :
    Run step (f 0) ((List.range N).map ops) (f N) := by
  induction N with
  | zero => exact .nil _
  | succ n ih =>
    rw [List.range_succ, List.map_append]
    exact .snoc (ih fun m hm => hstep m (by omega)) (hstep n (by omega))

/-- The first step of a run. -/
theorem Run.exists_first {s t : σ} {ops : List ι} {op : ι} (h : Run step s (op :: ops) t) :
    ∃ u, step s op u ∧ Run step u ops t := by
  generalize hops : op :: ops = all at h
  induction h generalizing ops with
  | nil => cases hops
  | @snoc t u before last h hlast ih =>
    cases before with
    | nil =>
      cases hops
      cases h.eq_of_nil
      exact ⟨u, hlast, .nil u⟩
    | cons first rest =>
      obtain ⟨rfl, rfl⟩ := List.cons.inj hops
      obtain ⟨v, hfirst, hrest⟩ := ih rfl
      exact ⟨v, hfirst, .snoc hrest hlast⟩

theorem Run.append {s t u : σ} {before after : List ι} (h : Run step s before t)
    (h' : Run step t after u) : Run step s (before ++ after) u := by
  induction h' with
  | nil => rwa [List.append_nil]
  | snoc _ hstep ih =>
    rw [← List.append_assoc]
    exact .snoc ih hstep

/-- A run of a system whose steps are computed. -/
theorem Run.of_foldlM {exec : σ → ι → Option σ} {s t : σ} {ops : List ι}
    (h : ops.foldlM exec s = some t) : Run (fun s op t => exec s op = some t) s ops t := by
  induction ops generalizing s with
  | nil =>
    cases h
    exact .nil _
  | cons op ops ih =>
    rw [List.foldlM_cons] at h
    obtain ⟨u, hu, hrest⟩ := Option.bind_eq_some_iff.mp h
    exact Run.append (.snoc (.nil _) hu) (ih hrest)

theorem Passed.append {s t u v : σ} {before after : List ι} (h : Passed step s before t v)
    (h' : Run step t after u) : Passed step s (before ++ after) u v := by
  obtain ⟨first, rest, rfl, h₁, h₂⟩ := h
  exact ⟨first, rest ++ after, List.append_assoc .., h₁, Run.append h₂ h'⟩

/-! ## Sharp conditions -/

/-- The step `op` is taken in the state `u` on the way from `s` to `t`, and leads to `v`. -/
def PassedStep (step : σ → ι → σ → Prop) (s : σ) (ops : List ι) (t u : σ) (op : ι) (v : σ) :
    Prop :=
  ∃ before after, ops = before ++ op :: after ∧ Run step s before u ∧ step u op v ∧
    Run step v after t

theorem PassedStep.passed {s t u v : σ} {ops : List ι} {op : ι}
    (h : PassedStep step s ops t u op v) : Passed step s ops t v := by
  obtain ⟨before, after, rfl, h₁, hstep, h₂⟩ := h
  exact ⟨before ++ [op], after, by simp, .snoc h₁ hstep, h₂⟩

/-- Along a run all of whose steps from states with `Inv` keep `Inv`, every state has it. -/
theorem Passed.invariant {s t u : σ} {ops : List ι} {Inv : σ → Prop}
    (hstep : ∀ x op y, PassedStep step s ops t x op y → Inv x → Inv y) (hs : Inv s)
    (h : Passed step s ops t u) : Inv u := by
  obtain ⟨before, after, rfl, h₁, h₂⟩ := h
  induction h₁ generalizing after with
  | nil => exact hs
  | @snoc x y before op h₁ hop ih =>
    have h₂' : Run step x (op :: after) t := Run.append (.snoc (.nil x) hop) h₂
    rw [List.append_assoc] at hstep
    exact hstep x op y ⟨before, after, rfl, h₁, hop, h₂⟩ (ih _ hstep h₂')

/-- Where safe steps keep an invariant and the others lead to a bad state, every state of a run
is good exactly when every step of it is safe. -/
theorem Run.good_iff_safe {s t : σ} {ops : List ι} {Inv Good : σ → Prop} {Safe : σ → ι → Prop}
    (hgood : ∀ x, Inv x → Good x)
    (hkeep : ∀ x op y, Inv x → step x op y → Safe x op → Inv y)
    (hbreak : ∀ x op y, Inv x → step x op y → ¬ Safe x op → ¬ Good y) (hs : Inv s) :
    (∀ u, Passed step s ops t u → Good u) ↔
      ∀ u op v, PassedStep step s ops t u op v → Safe u op := by
  constructor
  · intro h u op v hpass
    have hinv : ∀ x, Passed step s ops t x → Inv x := by
      intro x hx
      refine hx.invariant ?_ hs
      intro x op y hxy hx
      obtain ⟨_, _, _, _, hop, _⟩ := id hxy
      by_cases hsafe : Safe x op
      · exact hkeep x op y hx hop hsafe
      · exact absurd (h y hxy.passed) (hbreak x op y hx hop hsafe)
    obtain ⟨before, after, rfl, h₁, hop, h₂⟩ := id hpass
    have hu := hinv u ⟨before, op :: after, rfl, h₁, Run.append (.snoc (.nil u) hop) h₂⟩
    by_cases hsafe : Safe u op
    · exact hsafe
    · exact absurd (h v hpass.passed) (hbreak u op v hu hop hsafe)
  · intro h u hu
    refine hgood u (hu.invariant ?_ hs)
    intro x op y hxy hx
    obtain ⟨_, _, _, _, hop, _⟩ := id hxy
    exact hkeep x op y hx hop (h x op y hxy)

end PiggyOS.Infra
