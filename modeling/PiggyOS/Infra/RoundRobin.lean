import Mathlib.Data.List.Nodup
import Mathlib.Logic.Function.Iterate

/-!
# Taking turns

Agents sit in a ring and take turns: the turn passes to the next one, and whoever has had it
goes to the end. Newcomers may sit down anywhere. Between two turns of one agent every other
agent that is in the ring all the time has exactly one turn.

* `TurnRing.advance`, `TurnRing.insert` — the two moves
* `Fair` — what holds of the turns taken since `T` had the turn, kept by both moves
* `turns_all` — without newcomers the turns go round
-/

namespace PiggyOS.Infra

variable {A : Type _}

/-- The agent whose turn it is, and the others in the order of their turns. -/
structure TurnRing (A : Type _) where
  current : A
  rest : List A
  nodup : (current :: rest).Nodup

namespace TurnRing

def toList (r : TurnRing A) : List A := r.current :: r.rest

/-- The turn passes. -/
def advance (r : TurnRing A) : TurnRing A :=
  match r with
  | ⟨c, [], h⟩ => ⟨c, [], h⟩
  | ⟨c, a :: rest, h⟩ => ⟨a, rest ++ [c], by
      rw [← List.cons_append]
      exact List.nodup_append_comm.mp h⟩

/-- A newcomer sits down behind `xs`. -/
def insert (r : TurnRing A) (xs ys : List A) (hr : r.rest = xs ++ ys) (a : A) (ha : a ∉ r.toList) :
    TurnRing A where
  current := r.current
  rest := xs ++ a :: ys
  nodup := by
    have h : (a :: r.current :: (xs ++ ys)).Nodup :=
      List.nodup_cons.mpr ⟨hr ▸ ha, hr ▸ r.nodup⟩
    refine List.Perm.nodup ?_ h
    exact (List.Perm.swap _ _ _).trans (List.Perm.cons _ List.perm_middle.symm)

theorem mem_insert {r : TurnRing A} {xs ys : List A} {hr : r.rest = xs ++ ys} {a b : A}
    {ha : a ∉ r.toList} : b ∈ (r.insert xs ys hr a ha).toList ↔ b = a ∨ b ∈ r.toList := by
  unfold toList insert
  rw [hr]
  simp
  tauto

theorem current_advance {r : TurnRing A} {a : A} {rest : List A} (h : r.rest = a :: rest) :
    r.advance.current = a ∧ r.advance.rest = rest ++ [r.current] := by
  obtain ⟨c, rs, hnd⟩ := r
  subst h
  exact ⟨rfl, rfl⟩

theorem advance_of_rest_nil {r : TurnRing A} (h : r.rest = []) : r.advance = r := by
  obtain ⟨c, rs, hnd⟩ := r
  subst h
  rfl

theorem toList_advance_perm (r : TurnRing A) : r.advance.toList.Perm r.toList := by
  obtain ⟨c, rs, hnd⟩ := r
  cases rs with
  | nil => exact .refl _
  | cons a rest =>
    show (a :: rest ++ [c]).Perm ([c] ++ a :: rest)
    exact List.perm_append_comm

section

variable [DecidableEq A] {T U : A}

/-- The agents whose turn comes before that of `T`. -/
def ahead (r : TurnRing A) (T : A) : List A :=
  if r.current = T then r.rest else r.rest.takeWhile (· ≠ T)

theorem takeWhile_ne_of_mem {xs : List A} (ys : List A) (h : T ∈ xs) :
    (xs ++ ys).takeWhile (· ≠ T) = xs.takeWhile (· ≠ T) := by
  induction xs with
  | nil => simp at h
  | cons x xs ih =>
    by_cases hx : x = T
    · simp [hx]
    · have := ih ((List.mem_cons.mp h).resolve_left (Ne.symm hx))
      simpa [hx] using this

theorem takeWhile_ne_of_not_mem {xs : List A} (ys : List A) (h : T ∉ xs) :
    (xs ++ ys).takeWhile (· ≠ T) = xs ++ ys.takeWhile (· ≠ T) := by
  induction xs with
  | nil => rfl
  | cons x xs ih =>
    rw [List.mem_cons, not_or] at h
    have := ih h.2
    simpa [Ne.symm h.1] using this

/-- A turn of another agent than `T` takes that agent off those ahead of `T`. -/
theorem count_ahead_advance {r : TurnRing A} (hT : T ∈ r.toList) (h : r.advance.current ≠ T) :
    (r.ahead T).count U = (r.advance.ahead T).count U + if r.advance.current = U then 1 else 0 := by
  obtain ⟨c, rs, hnd⟩ := r
  cases rs with
  | nil => exact absurd (List.mem_singleton.mp hT).symm h
  | cons a rest =>
    have ha : a ≠ T := h
    show (if c = T then a :: rest else (a :: rest).takeWhile (· ≠ T)).count U =
      (if a = T then rest ++ [c] else (rest ++ [c]).takeWhile (· ≠ T)).count U +
        if a = U then 1 else 0
    rw [if_neg ha]
    by_cases hc : c = T
    · have hrest : T ∉ rest := by
        rw [← hc]
        exact fun hm => (List.nodup_cons.mp hnd).1 (List.mem_cons_of_mem a hm)
      rw [if_pos hc, takeWhile_ne_of_not_mem _ hrest, List.count_cons]
      simp [hc]
    · have hrest : T ∈ rest := by
        have := (List.mem_cons.mp hT).resolve_left (Ne.symm hc)
        exact (List.mem_cons.mp this).resolve_left (Ne.symm ha)
      rw [if_neg hc, takeWhile_ne_of_mem _ hrest, List.takeWhile_cons_of_pos (by simp [ha]),
        List.count_cons]
      simp

/-- When the turn comes to `T`, nobody was ahead. -/
theorem ahead_eq_nil {r : TurnRing A} (h : r.advance.current = T) : r.ahead T = [] := by
  obtain ⟨c, rs, hnd⟩ := r
  cases rs with
  | nil =>
    unfold ahead
    split <;> rfl
  | cons a rest =>
    have ha : a = T := h
    have hc : c ≠ T := by
      rintro rfl
      exact (List.nodup_cons.mp hnd).1 (by simp [ha])
    unfold ahead
    simp [hc, ha]

/-- A newcomer is neither `T` nor `U`. -/
theorem count_ahead_insert {r : TurnRing A} {xs ys : List A} (hr : r.rest = xs ++ ys) {a : A}
    (ha : a ∉ r.toList) (hT : T ∈ r.toList) (hU : U ∈ r.toList) :
    ((r.insert xs ys hr a ha).ahead T).count U = (r.ahead T).count U := by
  have haT : a ≠ T := fun h => ha (h ▸ hT)
  have haU : a ≠ U := fun h => ha (h ▸ hU)
  unfold ahead insert
  dsimp only
  rw [hr]
  by_cases hc : r.current = T
  · simp [hc, haU]
  · rw [if_neg hc, if_neg hc]
    by_cases hx : T ∈ xs
    · rw [takeWhile_ne_of_mem _ hx, takeWhile_ne_of_mem _ hx]
    · rw [takeWhile_ne_of_not_mem _ hx, takeWhile_ne_of_not_mem _ hx,
        List.takeWhile_cons_of_pos (by simp [haT])]
      simp [haU]

end

end TurnRing

/-! ## Fairness between two turns -/

section

variable [DecidableEq A] {T U : A} {r : TurnRing A} {turns : List A}

/-- The agents in `turns` have had their turns, the last one first, since `T` had the turn. Before
`T` has it again, `U` has had its turn or is ahead of `T`; between the two turns of `T` it has had
one. -/
structure Fair (T U : A) (r : TurnRing A) (turns : List A) : Prop where
  pending : T ∉ turns → turns.count U + (r.ahead T).count U = 1
  done : ∀ later mid, turns = later ++ T :: mid → T ∉ mid → mid.count U = 1

namespace Fair

theorem start (hT : r.current = T) (hU : U ∈ r.rest) : Fair T U r [] := by
  constructor
  · intro _
    rw [TurnRing.ahead, if_pos hT, List.count_nil, Nat.zero_add]
    exact List.count_eq_one_of_mem (List.nodup_cons.mp r.nodup).2 hU
  · intro later mid h
    simp at h

theorem turn (h : Fair T U r turns) (hT : T ∈ r.toList) :
    Fair T U r.advance (r.advance.current :: turns) := by
  constructor
  · intro hm
    rw [List.mem_cons, not_or] at hm
    have hcount := h.pending hm.2
    rw [TurnRing.count_ahead_advance hT (Ne.symm hm.1)] at hcount
    rw [List.count_cons]
    simp only [beq_iff_eq]
    omega
  · intro later mid he hmid
    cases later with
    | nil =>
      -- the turn has come back to `T`
      obtain ⟨hcur, rfl⟩ := List.cons.inj he
      have hcount := h.pending hmid
      rw [TurnRing.ahead_eq_nil hcur] at hcount
      exact hcount
    | cons a later =>
      obtain ⟨-, rfl⟩ := List.cons.inj he
      exact h.done later mid rfl hmid

theorem insert (h : Fair T U r turns) {xs ys : List A} (hr : r.rest = xs ++ ys) {a : A}
    (ha : a ∉ r.toList) (hT : T ∈ r.toList) (hU : U ∈ r.toList) :
    Fair T U (r.insert xs ys hr a ha) turns := by
  refine ⟨fun hm => ?_, h.done⟩
  rw [TurnRing.count_ahead_insert hr ha hT hU]
  exact h.pending hm

end Fair

end

/-! ## Going round -/

/-- The agents that get the turn in the next `k` moves, in this order. -/
def TurnRing.turns : Nat → TurnRing A → List A
  | 0, _ => []
  | k + 1, r => r.advance.current :: turns k r.advance

theorem TurnRing.turns_prefix {xs ys : List A} {r : TurnRing A} (h : r.rest = xs ++ ys) :
    turns xs.length r = xs := by
  induction xs generalizing r ys with
  | nil => rfl
  | cons x xs ih =>
    obtain ⟨hcur, hrest⟩ := current_advance (show r.rest = x :: (xs ++ ys) from h)
    rw [List.append_assoc] at hrest
    rw [List.length_cons, turns, hcur, ih hrest]

/-- As many moves as there are agents: everybody has one turn, and the last one is the one who
had it at the start. -/
theorem TurnRing.turns_all (r : TurnRing A) :
    turns (r.rest.length + 1) r = r.rest ++ [r.current] := by
  cases hr : r.rest with
  | nil =>
    rw [List.length_nil, turns, turns, advance_of_rest_nil hr]
    rfl
  | cons a rest =>
    obtain ⟨hcur, hrest⟩ := current_advance hr
    have := turns_prefix (hrest.trans (List.append_nil _).symm)
    rw [List.length_append] at this
    rw [List.length_cons, turns, hcur]
    exact congrArg (a :: ·) this

theorem TurnRing.turns_succ (k : Nat) (r : TurnRing A) :
    turns (k + 1) r = turns k r ++ [(advance^[k + 1] r).current] := by
  induction k generalizing r with
  | zero => rfl
  | succ k ih =>
    rw [turns, ih r.advance, turns]
    rfl

end PiggyOS.Infra
