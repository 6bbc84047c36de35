import PiggyOS.Dsa.Represents
import PiggyOS.Infra.Run

/-!
# The representation invariant of lists

Any number of lists are created, filled, emptied and merged. `ListOk` is what `list.c` and its
users take for granted of a `list_t`; it holds along a run exactly as long as no removal takes
the only element of a list, because the removals move one end of the list and leave the other.
-/

namespace PiggyOS

open Infra

variable {m m' : Nodes} {l l' : ListT} {ns : List U32}

/-! ## Well-formed lists -/

/-- The addresses that links lead to from `a`. -/
inductive Reaches (m : Nodes) (a : U32) : U32 → Prop
  | refl : Reaches m a a
  | next {b : U32} : Reaches m a b → b ≠ 0 → Reaches m a (m.next b)
  | prev {b : U32} : Reaches m a b → b ≠ 0 → Reaches m a (m.prev b)

structure ListOk (m : Nodes) (l : ListT) : Prop where
  head_null_iff : l.head = 0 ↔ l.size = 0
  tail_null_iff : l.tail = 0 ↔ l.size = 0
  next_reaches : l.size ≠ 0 → m.next^[l.size.toNat - 1] l.head = l.tail
  prev_reverses : ∀ i < l.size.toNat, m.prev^[i] l.tail = m.next^[l.size.toNat - 1 - i] l.head
  head_prev : l.size ≠ 0 → m.prev l.head = 0
  tail_next : l.size ≠ 0 → m.next l.tail = 0
  not_freed : ∀ n, n ≠ 0 → Reaches m l.head n ∨ Reaches m l.tail n → m.live n = true

/-- The node `n` is found from the head of the list. -/
def Member (m : Nodes) (l : ListT) (n : U32) : Prop :=
  ∃ i, m.next^[i] l.head = n ∧ ∀ j ≤ i, m.next^[j] l.head ≠ 0

theorem Represents.size_eq_zero_iff (h : Represents m l ns) : l.size = 0 ↔ ns = [] := by
  rw [← BitVec.toNat_inj, h.size]
  exact List.length_eq_zero_iff

/-- The `i`-th node from the head. -/
theorem Represents.iterate_next (h : Represents m l ns) {i : Nat} (hi : i ≤ ns.length) :
    m.next^[i] l.head = (ns.drop i).headD 0 := by
  rw [h.head, h.linked.iterate_next i hi]

/-- The `i`-th node from the tail. -/
theorem Represents.iterate_prev (h : Represents m l ns) {i : Nat} (hi : i ≤ ns.length) :
    m.prev^[i] l.tail = (ns.reverse.drop i).headD 0 := by
  have htail : l.tail = ns.reverse.headD 0 := by
    rw [h.tail, ← getLastD_reverse, List.reverse_reverse]
  rw [htail, h.linked.reverse.iterate_next i (by simpa using hi)]

theorem Represents.mem_of_reaches (h : Represents m l ns) {a n : U32} (ha : a ∈ ns ∨ a = 0)
    (hr : Reaches m a n) : n ∈ ns ∨ n = 0 := by
  induction hr with
  | refl => exact ha
  | next _ hb ih => exact h.linked.next_mem (ih.resolve_right hb)
  | prev _ hb ih => exact h.linked.prev_mem (ih.resolve_right hb)

theorem Represents.listOk (h : Represents m l ns) : ListOk m l := by
  have hne : l.size ≠ 0 → ns ≠ [] := mt h.size_eq_zero_iff.mpr
  have hpos : l.size ≠ 0 → 0 < ns.length := fun h0 => List.length_pos_iff.mpr (hne h0)
  have hrev : ∀ i < ns.length, m.prev^[i] l.tail = m.next^[ns.length - 1 - i] l.head := by
    intro i hi
    rw [h.iterate_prev (Nat.le_of_lt hi), h.iterate_next (by omega),
      headD_drop _ _ _ (by simpa using hi), headD_drop _ _ _ (by omega), List.getElem_reverse]
  have hends : (l.head ∈ ns ∨ l.head = 0) ∧ (l.tail ∈ ns ∨ l.tail = 0) := by
    by_cases hns : ns = []
    · exact ⟨Or.inr (h.head_eq_zero_iff.mpr hns), Or.inr (h.tail_eq_zero_iff.mpr hns)⟩
    · rw [h.head, h.tail]
      exact ⟨Or.inl (headD_mem hns), Or.inl (getLastD_mem hns)⟩
  refine ⟨?_, ?_, ?_, ?_, ?_, ?_, ?_⟩
  · rw [h.head_eq_zero_iff, h.size_eq_zero_iff]
  · rw [h.tail_eq_zero_iff, h.size_eq_zero_iff]
  · intro h0
    rw [h.size]
    exact (hrev 0 (hpos h0)).symm
  · rwa [h.size]
  · intro h0
    cases ns with
    | nil => exact absurd rfl (hne h0)
    | cons n ns =>
      rw [h.head]
      exact h.linked.1
  · intro h0
    have hrev := h.linked.reverse
    rw [h.tail, ← List.reverse_reverse ns, getLastD_reverse]
    cases hns : ns.reverse with
    | nil => exact absurd (List.reverse_eq_nil_iff.mp hns) (hne h0)
    | cons n ns' =>
      rw [hns] at hrev
      exact hrev.1
  · rintro n hn (hr | hr)
    · exact h.live n ((h.mem_of_reaches hends.1 hr).resolve_right hn)
    · exact h.live n ((h.mem_of_reaches hends.2 hr).resolve_right hn)

theorem Represents.mem_of_member (h : Represents m l ns) {n : U32} (hn : Member m l n) :
    n ∈ ns := by
  obtain ⟨i, rfl, hi⟩ := hn
  have hlt : i < ns.length := by
    by_contra hge
    apply hi ns.length (by omega)
    rw [h.iterate_next (Nat.le_refl _), List.drop_length]
    rfl
  rw [h.iterate_next (Nat.le_of_lt hlt), headD_drop _ _ _ hlt]
  exact List.getElem_mem hlt

theorem Represents.member_of_mem (h : Represents m l ns) {n : U32} (hn : n ∈ ns) :
    Member m l n := by
  obtain ⟨i, hi, rfl⟩ := List.getElem_of_mem hn
  refine ⟨i, ?_, fun j hj => ?_⟩
  · rw [h.iterate_next (Nat.le_of_lt hi), headD_drop _ _ _ hi]
  · rw [h.iterate_next (by omega), headD_drop _ _ _ (by omega)]
    exact h.ne_null _ (List.getElem_mem _)

/-! ## The removals at the boundary between one element and none -/

section

variable {n : U32}

theorem Represents.eq_nil_or_two (h : Represents m l ns) (h1 : l.size ≠ 1) :
    ns = [] ∨ 2 ≤ ns.length := by
  have hlen : ns.length ≠ 1 := by
    intro hlen
    apply h1
    rw [← BitVec.toNat_inj, h.size, hlen]
    rfl
  cases ns with
  | nil => exact Or.inl rfl
  | cons n ns =>
    rw [List.length_cons] at hlen ⊢
    omega

theorem Represents.eq_singleton (h : Represents m l ns) (h1 : l.size = 1) : ∃ n, ns = [n] := by
  apply List.length_eq_one_iff.mp
  rw [← h.size, h1]
  rfl

theorem Represents.exists_removeFront (h : Represents m l ns) (h1 : l.size ≠ 1) :
    ∃ ns', ns' ⊆ ns ∧ Represents (listRemoveFront m l).nodes (listRemoveFront m l).list ns' := by
  rcases h.eq_nil_or_two h1 with rfl | h2
  · refine ⟨[], List.nil_subset _, ?_⟩
    rw [listRemoveFront, if_pos (show l.head = 0 from h.head)]
    exact h
  · cases ns with
    | nil => simp at h2
    | cons n ns =>
      refine ⟨ns, List.subset_cons_self n ns, h.removeFront ?_⟩
      rintro rfl
      simp at h2

theorem Represents.exists_removeBack (h : Represents m l ns) (h1 : l.size ≠ 1) :
    ∃ ns', ns' ⊆ ns ∧ Represents (listRemoveBack m l).nodes (listRemoveBack m l).list ns' := by
  rcases h.eq_nil_or_two h1 with rfl | h2
  · refine ⟨[], List.nil_subset _, ?_⟩
    rw [listRemoveBack, if_pos (show l.head = 0 from h.head)]
    exact h
  · obtain ⟨ns', n, rfl, hne⟩ := h.exists_dropBack h2
    exact ⟨ns', List.subset_append_left ns' [n], h.removeBack hne⟩

theorem Represents.exists_pop (h : Represents m l ns) (h1 : l.size ≠ 1) :
    ∃ ns', ns' ⊆ ns ∧ Represents (listPop m l).nodes (listPop m l).list ns' := by
  rcases h.eq_nil_or_two h1 with rfl | h2
  · exact ⟨[], List.nil_subset _, by rw [listPop, if_pos (show l.head = 0 from h.head)]; exact h⟩
  · obtain ⟨ns', n, rfl, hne⟩ := h.exists_dropBack h2
    exact ⟨ns', List.subset_append_left ns' [n], h.pop hne⟩

theorem Represents.exists_removeNode (h : Represents m l ns) (hn : n ∈ ns) (h1 : l.size ≠ 1) :
    ∃ ns', ns' ⊆ ns ∧ Represents (listRemoveNode m l n).nodes (listRemoveNode m l n).list ns' := by
  obtain ⟨xs, ys, rfl⟩ := List.append_of_mem hn
  refine ⟨xs ++ ys, ?_, h.removeNode ?_⟩
  · exact List.append_subset.mpr ⟨List.subset_append_left _ _,
      fun y hy => List.mem_append_right _ (List.mem_cons_of_mem n hy)⟩
  · intro hnil
    obtain ⟨rfl, rfl⟩ := List.append_eq_nil_iff.mp hnil
    exact absurd (h.eq_nil_or_two h1) (by simp)

/-- The front removal of the only node leaves the tail behind. -/
theorem Represents.not_listOk_removeFront (h : Represents m l ns) (h1 : l.size = 1) :
    ¬ ListOk (listRemoveFront m l).nodes (listRemoveFront m l).list := by
  obtain ⟨n, rfl⟩ := h.eq_singleton h1
  have hn := h.ne_null n List.mem_cons_self
  rw [listRemoveFront_of_head (h.head_ne_zero (List.cons_ne_nil n []))]
  intro hok
  have htail : l.tail = 0 := hok.tail_null_iff.mpr (by show l.size - 1 = 0; rw [h1]; rfl)
  exact hn (h.tail.symm.trans htail)

/-- Taking the only node off the back leaves the head behind. -/
theorem Represents.not_listOk_dropBack (h : Represents m l ns) (h1 : l.size = 1) :
    ¬ ListOk m' (unlinkBack m l).2 := by
  obtain ⟨n, rfl⟩ := h.eq_singleton h1
  have hn := h.ne_null n List.mem_cons_self
  intro hok
  have hhead : l.head = 0 := hok.head_null_iff.mpr (by show l.size - 1 = 0; rw [h1]; rfl)
  exact hn (h.head.symm.trans hhead)

theorem Represents.not_listOk_removeBack (h : Represents m l ns) (h1 : l.size = 1) :
    ¬ ListOk (listRemoveBack m l).nodes (listRemoveBack m l).list := by
  obtain ⟨n, rfl⟩ := h.eq_singleton h1
  rw [listRemoveBack, if_neg (h.head_ne_zero (List.cons_ne_nil n []))]
  exact h.not_listOk_dropBack h1

theorem Represents.not_listOk_pop (h : Represents m l ns) (h1 : l.size = 1) :
    ¬ ListOk (listPop m l).nodes (listPop m l).list := by
  obtain ⟨n, rfl⟩ := h.eq_singleton h1
  rw [listPop, if_neg (h.head_ne_zero (List.cons_ne_nil n []))]
  exact h.not_listOk_dropBack h1

theorem Represents.not_listOk_removeNode (h : Represents m l ns) (hn : n ∈ ns)
    (h1 : l.size = 1) : ¬ ListOk (listRemoveNode m l n).nodes (listRemoveNode m l n).list := by
  obtain ⟨a, rfl⟩ := h.eq_singleton h1
  obtain rfl := List.mem_singleton.mp hn
  unfold listRemoveNode
  rw [if_pos (show l.head = n from h.head)]
  exact (h.touch n).not_listOk_removeFront h1

end

/-! ## Runs -/

/-- Lists in memory: the nodes, and the `list_t` objects under their addresses. -/
structure Lists where
  nodes : Nodes
  lists : U32 → Option ListT

/-- A call of `list.c`. The lists are given by their addresses; `t` is the address that
`kcalloc` returns. -/
inductive ListOp
  | create (l : U32)
  | insertFront (l value t : U32)
  | insertBack (l value t : U32)
  | removeFront (l : U32)
  | removeBack (l : U32)
  | removeNode (l n : U32)
  | pop (l : U32)
  | merge (target source : U32)

namespace Lists

/-- No list has been created. -/
def init : Lists := ⟨⟨fun _ => ⟨0, 0, 0⟩, fun _ => false, [], []⟩, fun _ => none⟩

def put (s : Lists) (l : U32) (m : Nodes) (lt : ListT) : Lists :=
  ⟨m, Function.update s.lists l (some lt)⟩

/-- `kfree` of a `list_t`. -/
def drop (s : Lists) (l : U32) : Lists := { s with lists := Function.update s.lists l none }

/-- A call on the list at `l`. -/
def onList (s : Lists) (l : U32) (f : Nodes → ListT → ListResult) : Option Lists :=
  (s.lists l).map fun lt => s.put l (f s.nodes lt).nodes (f s.nodes lt).list

def exec (s : Lists) : ListOp → Option Lists
  | .create l => some (s.put l s.nodes listCreate)
  | .insertFront l value t => s.onList l (listInsertFront · · value t)
  | .insertBack l value t => s.onList l (listInsertBack · · value t)
  | .removeFront l => s.onList l listRemoveFront
  | .removeBack l => s.onList l listRemoveBack
  | .removeNode l n => s.onList l (listRemoveNode · · n)
  | .pop l => s.onList l listPop
  | .merge target source =>
    (s.lists target).bind fun lt => (s.lists source).map fun ls =>
      (s.drop source).put target (listMerge s.nodes lt ls).1 (listMerge s.nodes lt ls).2

end Lists

namespace ListOp

/-- What the heap and the callers promise: `kcalloc` returns memory that is not in use, a node
that is removed is a member, and what is merged is another list and well formed. -/
def Promised (s : Lists) : ListOp → Prop
  | create l => s.lists l = none
  | insertFront _ _ t => s.nodes.live t = false ∧ t ≠ 0
  | insertBack _ _ t => s.nodes.live t = false ∧ t ≠ 0
  | removeNode l n => ∀ lt, s.lists l = some lt → Member s.nodes lt n
  | merge target source => target ≠ source ∧ ∀ ls, s.lists source = some ls → ListOk s.nodes ls
  | _ => True

/-- The call removes the only element of a list. -/
def TakesLast (s : Lists) : ListOp → Prop
  | removeFront l | removeBack l | removeNode l _ | pop l =>
    ∃ lt, s.lists l = some lt ∧ lt.size = 1
  | _ => False

end ListOp

def ListStep (s : Lists) (op : ListOp) (t : Lists) : Prop := op.Promised s ∧ s.exec op = some t

/-- Every list is well formed. -/
def Lists.Ok (s : Lists) : Prop := ∀ l lt, s.lists l = some lt → ListOk s.nodes lt

/-- The list at each address holds the nodes that `rep` gives, and no node is in two lists. -/
structure Lists.Rep (s : Lists) (rep : U32 → List U32) : Prop where
  represents : ∀ l lt, s.lists l = some lt → Represents s.nodes lt (rep l)
  disjoint : ∀ l l' lt lt', l ≠ l' → s.lists l = some lt → s.lists l' = some lt' →
    (rep l).Disjoint (rep l')

namespace Lists

variable {s s' : Lists} {rep : U32 → List U32} {a b t value n : U32} {lt lt' : ListT}
  {touched : List U32}

theorem rep_init : init.Rep fun _ => [] := by
  constructor
  · intro l lt hl
    exact nomatch hl
  · intro l l' lt lt' _ hl
    exact nomatch hl

theorem put_lists_self (s : Lists) : (s.put a m lt).lists a = some lt := Function.update_self ..

theorem put_lists_of_ne (s : Lists) (h : b ≠ a) : (s.put a m lt).lists b = s.lists b :=
  Function.update_of_ne h ..

theorem drop_lists_of_ne (s : Lists) (h : b ≠ a) : (s.drop a).lists b = s.lists b :=
  Function.update_of_ne h ..

theorem drop_lists_eq_some {lt : ListT} (h : (s.drop a).lists b = some lt) :
    b ≠ a ∧ s.lists b = some lt := by
  by_cases hb : b = a
  · rw [hb] at h
    have : (s.drop a).lists a = none := Function.update_self ..
    rw [this] at h
    exact nomatch h
  · exact ⟨hb, drop_lists_of_ne s hb ▸ h⟩

theorem Rep.drop (h : s.Rep rep) : (s.drop a).Rep rep := by
  constructor
  · intro l lt hl
    exact h.represents l lt (drop_lists_eq_some hl).2
  · intro l l' lt lt' hne hl hl'
    exact h.disjoint l l' lt lt' hne (drop_lists_eq_some hl).2 (drop_lists_eq_some hl').2

/-- One list is replaced, by an operation that touches no node of another. -/
theorem Rep.put (h : s.Rep rep) (hnew : Represents m lt ns) (hsub : ns ⊆ touched)
    (hu : Untouched s.nodes m touched)
    (hd : ∀ l lt', l ≠ a → s.lists l = some lt' → (rep l).Disjoint touched) :
    (s.put a m lt).Rep (Function.update rep a ns) := by
  constructor
  · intro l lt' hl
    by_cases hla : l = a
    · subst hla
      rw [put_lists_self] at hl
      rw [Function.update_self, ← Option.some.inj hl]
      exact hnew
    · rw [put_lists_of_ne s hla] at hl
      rw [Function.update_of_ne hla]
      exact (h.represents l lt' hl).of_untouched hu (hd l lt' hla hl)
  · intro l l' lt' lt'' hne hl hl'
    by_cases hla : l = a
    · subst hla
      rw [put_lists_of_ne s hne.symm] at hl'
      rw [Function.update_self, Function.update_of_ne hne.symm]
      exact fun x hx hx' => hd l' lt'' hne.symm hl' hx' (hsub hx)
    · rw [put_lists_of_ne s hla] at hl
      rw [Function.update_of_ne hla]
      by_cases hla' : l' = a
      · subst hla'
        rw [Function.update_self]
        exact fun x hx hx' => hd l lt' hla hl hx (hsub hx')
      · rw [put_lists_of_ne s hla'] at hl'
        rw [Function.update_of_ne hla']
        exact h.disjoint l l' lt' lt'' hne hl hl'

theorem onList_eq_some {f : Nodes → ListT → ListResult} (h : s.onList a f = some s') :
    ∃ lt, s.lists a = some lt ∧ s' = s.put a (f s.nodes lt).nodes (f s.nodes lt).list := by
  obtain ⟨lt, hl, he⟩ := Option.map_eq_some_iff.mp h
  exact ⟨lt, hl, he.symm⟩

/-- A fresh node is in no list. -/
theorem Rep.fresh (h : s.Rep rep) (ht : s.nodes.live t = false) {l : U32} {lt : ListT}
    (hl : s.lists l = some lt) : t ∉ rep l := fun hm =>
  (h.represents l lt hl).ne_of_not_live ht hm rfl

/-- What an insertion into the list at `a` touches is in no other list. -/
theorem Rep.disjoint_fresh (h : s.Rep rep) (ha : s.lists a = some lt)
    (ht : s.nodes.live t = false) (l : U32) (lt' : ListT) (hne : l ≠ a)
    (hl : s.lists l = some lt') : (rep l).Disjoint (t :: rep a) := by
  intro x hx hx'
  rcases List.mem_cons.mp hx' with rfl | hx'
  · exact h.fresh ht hl hx
  · exact h.disjoint l a lt' lt hne hl ha hx hx'

/-- An operation on one list that touches its own nodes only. -/
theorem Rep.put_own (h : s.Rep rep) (ha : s.lists a = some lt') (hnew : Represents m lt ns)
    (hsub : ns ⊆ rep a) (hu : Untouched s.nodes m (rep a)) :
    (s.put a m lt).Rep (Function.update rep a ns) :=
  h.put hnew hsub hu fun l lt'' hne hl => h.disjoint l a lt'' lt' hne hl ha

end Lists

/-! ## Every run -/

section

variable {s s' : Lists} {op : ListOp}

def Lists.Inv (s : Lists) : Prop := ∃ rep, s.Rep rep

theorem Lists.Inv.ok (h : s.Inv) : s.Ok := by
  obtain ⟨rep, h⟩ := h
  exact fun l lt hl => (h.represents l lt hl).listOk

/-- A removal from the list at `a`. -/
theorem Lists.Rep.inv_removal {rep : U32 → List U32} {a : U32} {lt : ListT} {r : ListResult}
    (h : s.Rep rep) (ha : s.lists a = some lt)
    (hr : ∃ ns', ns' ⊆ rep a ∧ Represents r.nodes r.list ns')
    (hu : Untouched s.nodes r.nodes (rep a)) : (s.put a r.nodes r.list).Inv := by
  obtain ⟨ns', hsub, hrep⟩ := hr
  exact ⟨_, h.put_own ha hrep hsub hu⟩

/-- A call that does not take the only element of a list keeps the invariant. -/
theorem Lists.Inv.step (h : s.Inv) (hstep : ListStep s op s') (hsafe : ¬ op.TakesLast s) :
    s'.Inv := by
  obtain ⟨rep, h⟩ := h
  obtain ⟨hprom, hexec⟩ := hstep
  unfold exec at hexec
  cases op with
  | create a =>
    obtain rfl := Option.some.inj hexec
    refine ⟨_, h.put (represents_listCreate s.nodes) (List.nil_subset []) (fun x _ => ⟨rfl, rfl⟩)
      fun l lt' _ _ => List.disjoint_nil_right _⟩
  | insertFront a value t =>
    obtain ⟨ht, ht0⟩ := hprom
    obtain ⟨lt, ha, rfl⟩ := onList_eq_some hexec
    have hrep := h.represents a lt ha
    exact ⟨_, h.put (hrep.insertFront ht ht0) (List.Subset.refl _) hrep.untouched_listInsertFront
      (h.disjoint_fresh ha ht)⟩
  | insertBack a value t =>
    obtain ⟨ht, ht0⟩ := hprom
    obtain ⟨lt, ha, rfl⟩ := onList_eq_some hexec
    have hrep := h.represents a lt ha
    have hsub : rep a ++ [t] ⊆ t :: rep a := by
      intro x hx
      simpa [or_comm] using hx
    exact ⟨_, h.put (hrep.insertBack ht ht0) hsub hrep.untouched_listInsertBack
      (h.disjoint_fresh ha ht)⟩
  | removeFront a =>
    obtain ⟨lt, ha, rfl⟩ := onList_eq_some hexec
    have hrep := h.represents a lt ha
    exact h.inv_removal ha (hrep.exists_removeFront fun h1 => hsafe ⟨lt, ha, h1⟩)
      hrep.untouched_listRemoveFront
  | removeBack a =>
    obtain ⟨lt, ha, rfl⟩ := onList_eq_some hexec
    have hrep := h.represents a lt ha
    exact h.inv_removal ha (hrep.exists_removeBack fun h1 => hsafe ⟨lt, ha, h1⟩)
      hrep.untouched_listRemoveBack
  | removeNode a n =>
    obtain ⟨lt, ha, rfl⟩ := onList_eq_some hexec
    have hrep := h.represents a lt ha
    have hn := hrep.mem_of_member (hprom lt ha)
    exact h.inv_removal ha (hrep.exists_removeNode hn fun h1 => hsafe ⟨lt, ha, h1⟩)
      (hrep.untouched_listRemoveNode hn)
  | pop a =>
    obtain ⟨lt, ha, rfl⟩ := onList_eq_some hexec
    have hrep := h.represents a lt ha
    exact h.inv_removal ha (hrep.exists_pop fun h1 => hsafe ⟨lt, ha, h1⟩) hrep.untouched_listPop
  | merge target source =>
    obtain ⟨hne, -⟩ := hprom
    obtain ⟨lt, ht, hexec⟩ := Option.bind_eq_some_iff.mp hexec
    obtain ⟨ls, hs, rfl⟩ := Option.map_eq_some_iff.mp hexec
    have htr := h.represents target lt ht
    have hsr := h.represents source ls hs
    have hd := h.disjoint target source lt ls hne ht hs
    refine ⟨_, h.drop.put (htr.merge hsr hd) (List.Subset.refl _) (htr.untouched_listMerge hsr) ?_⟩
    intro l lt' hlt hl
    obtain ⟨hls, hl⟩ := drop_lists_eq_some hl
    exact List.disjoint_append_right.mpr ⟨h.disjoint l target lt' lt hlt hl ht,
      h.disjoint l source lt' ls hls hl hs⟩

/-- A removal that spoils the list at `a`. -/
theorem Lists.not_ok_put {a : U32} {r : ListResult} (h : ¬ ListOk r.nodes r.list) :
    ¬ (s.put a r.nodes r.list).Ok := fun hok => h (hok a r.list (put_lists_self s))

/-- A call that takes the only element of a list spoils that list. -/
theorem Lists.Inv.not_ok_of_takesLast (h : s.Inv) (hstep : ListStep s op s')
    (hlast : op.TakesLast s) : ¬ s'.Ok := by
  obtain ⟨rep, h⟩ := h
  obtain ⟨hprom, hexec⟩ := hstep
  unfold exec at hexec
  cases op with
  | create a => exact absurd hlast not_false
  | insertFront a value t => exact absurd hlast not_false
  | insertBack a value t => exact absurd hlast not_false
  | merge target source => exact absurd hlast not_false
  | removeFront a =>
    obtain ⟨lt, ha, h1⟩ := hlast
    obtain ⟨lt', ha', rfl⟩ := onList_eq_some hexec
    obtain rfl := Option.some.inj (ha.symm.trans ha')
    exact not_ok_put ((h.represents a lt ha).not_listOk_removeFront h1)
  | removeBack a =>
    obtain ⟨lt, ha, h1⟩ := hlast
    obtain ⟨lt', ha', rfl⟩ := onList_eq_some hexec
    obtain rfl := Option.some.inj (ha.symm.trans ha')
    exact not_ok_put ((h.represents a lt ha).not_listOk_removeBack h1)
  | removeNode a n =>
    obtain ⟨lt, ha, h1⟩ := hlast
    obtain ⟨lt', ha', rfl⟩ := onList_eq_some hexec
    obtain rfl := Option.some.inj (ha.symm.trans ha')
    have hrep := h.represents a lt ha
    exact not_ok_put (hrep.not_listOk_removeNode (hrep.mem_of_member (hprom lt ha)) h1)
  | pop a =>
    obtain ⟨lt, ha, h1⟩ := hlast
    obtain ⟨lt', ha', rfl⟩ := onList_eq_some hexec
    obtain rfl := Option.some.inj (ha.symm.trans ha')
    exact not_ok_put ((h.represents a lt ha).not_listOk_pop h1)

end

/-- Along a run of calls all lists stay well formed exactly as long as no removal takes the only
element of a list. -/
theorem lists_ok_iff_no_takesLast (ops : List ListOp) (t : Lists) :
    (∀ u, Passed ListStep Lists.init ops t u → u.Ok) ↔
      ∀ u op v, PassedStep ListStep Lists.init ops t u op v → ¬ op.TakesLast u :=
  Run.good_iff_safe (fun _ => Lists.Inv.ok) (fun _ _ _ => Lists.Inv.step)
    (fun _ _ _ h hstep hlast => h.not_ok_of_takesLast hstep (not_not.mp hlast))
    ⟨_, Lists.rep_init⟩

/-- One element put in and taken out again: `head` is NULL and `tail` is not. -/
theorem not_lists_ok_after_removeFront : ¬ ∀ ops t, Run ListStep Lists.init ops t →
    ∀ u, Passed ListStep Lists.init ops t u → u.Ok := by
  intro h
  have hcreate : ListStep Lists.init (.create 0x100) (Lists.init.put 0x100 Lists.init.nodes
    listCreate) := ⟨rfl, rfl⟩
  have hinsert := Run.snoc (.snoc (.nil _) hcreate)
    (show ListStep _ (.insertBack 0x100 7 0x200) _ from ⟨⟨rfl, by decide⟩, rfl⟩)
  have hremove := Run.snoc hinsert (show ListStep _ (.removeFront 0x100) _ from ⟨trivial, rfl⟩)
  have hok := h _ _ hremove _ hremove.passed_end 0x100 _ rfl
  exact absurd (hok.tail_null_iff.mpr rfl) (by decide)

end PiggyOS
