import Mathlib.Data.List.Nodup
import Mathlib.Data.List.Perm.Subperm
import Mathlib.Logic.Function.Iterate
import PiggyOS.Infra.Loop
import PiggyOS.Infra.Memory

/-!
# Doubly linked chains

A chain is a sequence of nodes that a forward and a backward link lead through in opposite
orders. The links are functions on the nodes; an operation on a chain changes them at its ends
or cuts it in two, and the rules below say what becomes of the sequence.

* `linked_append` — cutting and joining
* `Linked.relink_last`, `Linked.relink_first` — changing the link that leads out at an end
* `Linked.remove`, `Linked.push` — taking a node out, and putting one in front
* `Linked.iterate_next`, `loop_linked` — following the links
* `Follows.nodup`, `loop_follows` — chains without backward links
-/

namespace PiggyOS.Infra

variable {A : Type _} {next prev next' prev' : A → A} {p q p' q' z : A} {ns xs ys : List A}

/-- `next` leads from each node of `ns` to the one after it and from the last to `q`, `prev`
leads from each to the one before it and from the first to `p`. -/
def Linked (next prev : A → A) : A → List A → A → Prop
  | _, [], _ => True
  | p, n :: ns, q => prev n = p ∧ next n = ns.headD q ∧ Linked next prev n ns q

theorem headD_append (xs ys : List A) (q : A) : (xs ++ ys).headD q = xs.headD (ys.headD q) := by
  cases xs with
  | nil => rfl
  | cons x xs => rfl

theorem getLastD_append (xs ys : List A) (p : A) :
    (xs ++ ys).getLastD p = ys.getLastD (xs.getLastD p) := by
  induction xs generalizing p with
  | nil => rfl
  | cons x xs ih => rw [List.cons_append, List.getLastD_cons, List.getLastD_cons, ih]

theorem getLastD_reverse (ns : List A) (p : A) : ns.reverse.getLastD p = ns.headD p := by
  cases ns with
  | nil => rfl
  | cons n ns => rw [List.reverse_cons, getLastD_append]; rfl

theorem getLastD_congr (h : ns ≠ []) : ns.getLastD p = ns.getLastD q := by
  cases ns with
  | nil => exact absurd rfl h
  | cons n ns => rfl

theorem headD_mem (h : ns ≠ []) : ns.headD z ∈ ns := by
  cases ns with
  | nil => exact absurd rfl h
  | cons n ns => exact List.mem_cons_self

theorem getLastD_mem (h : ns ≠ []) : ns.getLastD z ∈ ns := by
  rw [← List.reverse_reverse ns, getLastD_reverse]
  exact List.mem_reverse.mp (by rw [List.reverse_reverse]; exact headD_mem (by simpa using h))

theorem headD_drop (xs : List A) (z : A) (i : Nat) (hi : i < xs.length) :
    (xs.drop i).headD z = xs[i] := by
  rw [List.drop_eq_getElem_cons hi]
  rfl

/-- Cutting a chain in two, and joining two chains. -/
theorem linked_append : Linked next prev p (xs ++ ys) q ↔
    Linked next prev p xs (ys.headD q) ∧ Linked next prev (xs.getLastD p) ys q := by
  induction xs generalizing p with
  | nil => exact (true_and _).symm ▸ Iff.rfl
  | cons x xs ih =>
    rw [List.cons_append, Linked, Linked, ih, headD_append, List.getLastD_cons, and_assoc,
      and_assoc]

namespace Linked

theorem congr (h : Linked next prev p ns q) (hnext : ∀ x ∈ ns, next' x = next x)
    (hprev : ∀ x ∈ ns, prev' x = prev x) : Linked next' prev' p ns q := by
  induction ns generalizing p with
  | nil => trivial
  | cons n ns ih =>
    obtain ⟨hp, hn, h⟩ := h
    refine ⟨?_, ?_, ih h (fun x hx => hnext x (List.mem_cons_of_mem n hx))
      fun x hx => hprev x (List.mem_cons_of_mem n hx)⟩
    · rw [hprev n List.mem_cons_self, hp]
    · rw [hnext n List.mem_cons_self, hn]

/-- Read backwards, a chain is a chain. -/
theorem reverse (h : Linked next prev p ns q) : Linked prev next q ns.reverse p := by
  induction ns generalizing p with
  | nil => trivial
  | cons n ns ih =>
    obtain ⟨hp, hn, h⟩ := h
    rw [List.reverse_cons, linked_append]
    refine ⟨ih h, ?_, hp, trivial⟩
    rw [hn, getLastD_reverse]

/-- The last node is made to point to `q'`. -/
theorem relink_last [DecidableEq A] (h : Linked next prev p ns q) (hnd : ns.Nodup)
    (hnext : ∀ x ∈ ns, next' x = if x = ns.getLastD z then q' else next x)
    (hprev : ∀ x ∈ ns, prev' x = prev x) : Linked next' prev' p ns q' := by
  rcases List.eq_nil_or_concat ns with rfl | ⟨init, n, rfl⟩
  · trivial
  rw [List.concat_eq_append] at *
  rw [getLastD_append] at hnext
  obtain ⟨hinit, hn, -⟩ := linked_append.mp h
  obtain ⟨-, -, hdisj⟩ := List.nodup_append.mp hnd
  refine linked_append.mpr ⟨hinit.congr ?_ ?_, ?_, ?_, trivial⟩
  · intro x hx
    rw [hnext x (List.mem_append_left _ hx)]
    exact if_neg (hdisj x hx n List.mem_cons_self)
  · intro x hx
    exact hprev x (List.mem_append_left _ hx)
  · rw [hprev n (List.mem_append_right _ List.mem_cons_self), hn]
  · rw [hnext n (List.mem_append_right _ List.mem_cons_self)]
    exact if_pos rfl

/-- The first node is made to point back to `p'`. -/
theorem relink_first [DecidableEq A] (h : Linked next prev p ns q) (hnd : ns.Nodup)
    (hnext : ∀ x ∈ ns, next' x = next x)
    (hprev : ∀ x ∈ ns, prev' x = if x = ns.headD z then p' else prev x) :
    Linked next' prev' p' ns q := by
  have h' : Linked prev' next' q ns.reverse p' := by
    apply h.reverse.relink_last (List.nodup_reverse.mpr hnd)
    · intro x hx
      rw [getLastD_reverse]
      exact hprev x (List.mem_reverse.mp hx)
    · intro x hx
      exact hnext x (List.mem_reverse.mp hx)
  have := h'.reverse
  rwa [List.reverse_reverse] at this

/-- A node is taken out: its two neighbours are linked to each other. -/
theorem remove [DecidableEq A] {x : A} (h : Linked next prev p (xs ++ x :: ys) q)
    (hnd : (xs ++ ys).Nodup) (hp : p ∉ ys) (hq : q ∉ xs)
    (hnext : ∀ y ∈ xs ++ ys, next' y = if y = xs.getLastD p then ys.headD q else next y)
    (hprev : ∀ y ∈ xs ++ ys, prev' y = if y = ys.headD q then xs.getLastD p else prev y) :
    Linked next' prev' p (xs ++ ys) q := by
  obtain ⟨hx, -, -, hy⟩ := linked_append.mp h
  obtain ⟨hndx, hndy, hdisj⟩ := List.nodup_append.mp hnd
  refine linked_append.mpr ⟨?_, ?_⟩
  · refine hx.relink_last hndx (fun y hy => hnext y (List.mem_append_left _ hy)) fun y hy => ?_
    rw [hprev y (List.mem_append_left _ hy), if_neg]
    rintro rfl
    -- the node behind is one of `ys`, or `q`
    by_cases hys : ys = []
    · rw [hys] at hy
      exact hq hy
    · exact hdisj _ hy _ (headD_mem hys) rfl
  · refine hy.relink_first hndy (fun y hy => ?_) fun y hy => hprev y (List.mem_append_right _ hy)
    rw [hnext y (List.mem_append_right _ hy), if_neg]
    rintro rfl
    by_cases hxs : xs = []
    · rw [hxs] at hy
      exact hp hy
    · exact hdisj _ (getLastD_mem hxs) _ hy rfl

/-- A node is put in front. -/
theorem push [DecidableEq A] {x : A} (h : Linked next prev p ns q) (hnd : ns.Nodup)
    (hnx : next' x = ns.headD q) (hpx : prev' x = p) (hnext : ∀ y ∈ ns, next' y = next y)
    (hprev : ∀ y ∈ ns, prev' y = if y = ns.headD q then x else prev y) :
    Linked next' prev' p (x :: ns) q :=
  ⟨hpx, hnx, h.relink_first hnd hnext hprev⟩

/-- Following `next` from the front. -/
theorem iterate_next (h : Linked next prev p ns q) (i : Nat) (hi : i ≤ ns.length) :
    next^[i] (ns.headD q) = (ns.drop i).headD q := by
  induction ns generalizing p i with
  | nil =>
    obtain rfl : i = 0 := Nat.le_zero.mp hi
    rfl
  | cons n ns ih =>
    cases i with
    | zero => rfl
    | succ i =>
      obtain ⟨-, hn, h⟩ := h
      show next^[i] (next n) = (ns.drop i).headD q
      rw [hn, ih h i (Nat.le_of_succ_le_succ hi)]

/-- The links lead out of a chain only at its ends. -/
theorem next_mem (h : Linked next prev p ns q) {x : A} (hx : x ∈ ns) :
    next x ∈ ns ∨ next x = q := by
  obtain ⟨xs, ys, rfl⟩ := List.append_of_mem hx
  obtain ⟨-, -, hn, -⟩ := linked_append.mp h
  rw [hn]
  cases ys with
  | nil => exact Or.inr rfl
  | cons y ys => exact Or.inl (by simp)

theorem prev_mem (h : Linked next prev p ns q) {x : A} (hx : x ∈ ns) :
    prev x ∈ ns ∨ prev x = p := by
  rcases h.reverse.next_mem (List.mem_reverse.mpr hx) with hm | he
  · exact Or.inl (List.mem_reverse.mp hm)
  · exact Or.inr he

end Linked

/-- There are fewer nodes than addresses. -/
theorem length_lt_of_nodup {ns : List U32} (hnd : ns.Nodup) (h0 : ∀ n ∈ ns, n ≠ 0)   :
    ns.length < 2 ^ 32 := by
  have hnd' : ((0 :: ns).map BitVec.toNat).Nodup := by
    apply List.Nodup.map (fun _ _ => BitVec.eq_of_toNat_eq)
    exact List.nodup_cons.mpr ⟨fun h => h0 0 h rfl, hnd⟩
  have hsub : (0 :: ns).map BitVec.toNat ⊆ List.range (2 ^ 32) := by
    intro x hx
    obtain ⟨n, -, rfl⟩ := List.mem_map.mp hx
    exact List.mem_range.mpr n.isLt
  have := (List.subperm_of_subset hnd' hsub).length_le
  rw [List.length_map, List.length_range, List.length_cons] at this
  exact this

/-! ## Singly linked chains -/

/-- `next` leads from `p` through the nodes of `ns` and to `z`, which ends the chain. -/
def Follows (next : A → A) (z : A) : A → List A → Prop
  | p, [] => p = z
  | p, n :: ns => p = n ∧ n ≠ z ∧ Follows next z (next n) ns

theorem Linked.follows (h : Linked next prev p ns z) (hz : z ∉ ns) :
    Follows next z (ns.headD z) ns := by
  induction ns generalizing p with
  | nil => rfl
  | cons n ns ih =>
    obtain ⟨-, hn, h⟩ := h
    refine ⟨rfl, fun he => hz (by rw [he]; exact List.mem_cons_self), ?_⟩
    rw [hn]
    exact ih h fun hm => hz (List.mem_cons_of_mem n hm)

namespace Follows

theorem notMem (h : Follows next z p ns) : z ∉ ns := by
  induction ns generalizing p with
  | nil => exact List.not_mem_nil
  | cons n ns ih =>
    obtain ⟨-, hn, h⟩ := h
    exact List.not_mem_cons_of_ne_of_not_mem hn.symm (ih h)

/-- The start determines the chain. -/
theorem unique {ms : List A} (h : Follows next z p ns) (h' : Follows next z p ms) : ns = ms := by
  induction ns generalizing p ms with
  | nil =>
    cases ms with
    | nil => rfl
    | cons m ms => exact absurd (h'.1.symm.trans h) h'.2.1
  | cons n ns ih =>
    obtain ⟨rfl, hn, h⟩ := h
    cases ms with
    | nil => exact absurd h' hn
    | cons m ms =>
      obtain ⟨rfl, -, h'⟩ := h'
      rw [ih h h']

/-- The rest of a chain from one of its nodes on. -/
theorem drop {x : A} (h : Follows next z p (xs ++ x :: ys)) : Follows next z x (x :: ys) := by
  induction xs generalizing p with
  | nil => exact ⟨rfl, h.2⟩
  | cons n xs ih => exact ih h.2.2

/-- A chain that ends does not pass a node twice. -/
theorem nodup (h : Follows next z p ns) : ns.Nodup := by
  induction ns generalizing p with
  | nil => exact List.nodup_nil
  | cons n ns ih =>
    refine List.nodup_cons.mpr ⟨fun hm => ?_, ih h.2.2⟩
    obtain ⟨xs, ys, rfl⟩ := List.append_of_mem hm
    have hwhole : Follows next z n (n :: (xs ++ n :: ys)) := ⟨rfl, h.2⟩
    have hback := (drop h.2.2).unique hwhole
    have hlen := congrArg List.length hback
    simp only [List.length_cons, List.length_append] at hlen
    omega

end Follows

/-- A loop that takes the nodes of a chain one by one. -/
theorem loop_follows {B : Type _} {next : U32 → U32} {ns : List U32} {p : U32}
    (h : Follows next 0 p ns) (step : B → U32 → B) (n : Nat) (hn : ns.length < n) (b : B) :
    loop (fun s : U32 × B => s.1 ≠ 0) (fun s => some (next s.1, step s.2 s.1)) n (p, b)
      = some (0, ns.foldl step b) := by
  induction ns generalizing p n b with
  | nil =>
    obtain rfl : p = 0 := h
    obtain ⟨n, rfl⟩ := Nat.exists_eq_add_of_lt hn
    rw [loop, if_neg (by simp)]
    rfl
  | cons a ns ih =>
    obtain ⟨n, rfl⟩ := Nat.exists_eq_add_of_lt hn
    obtain ⟨rfl, hp, h⟩ := h
    rw [loop, if_pos (by simpa using hp), Option.bind_some]
    exact ih h _ (by rw [List.length_cons]; omega) _

theorem loop_linked {B : Type _} {next prev : U32 → U32} {ns : List U32} {p : U32}
    (h : Linked next prev p ns 0) (h0 : 0 ∉ ns) (step : B → U32 → B) (n : Nat)
    (hn : ns.length < n) (b : B) :
    loop (fun s : U32 × B => s.1 ≠ 0) (fun s => some (next s.1, step s.2 s.1)) n (ns.headD 0, b)
      = some (0, ns.foldl step b) :=
  loop_follows (h.follows h0) step n hn b

end PiggyOS.Infra
