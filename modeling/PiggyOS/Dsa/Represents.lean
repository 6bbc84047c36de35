import PiggyOS.Dsa.List

/-!
# What a list holds

`Represents m l ns` says that the list `l` consists of the nodes `ns` in this order. Each
function of `list.c` is followed through for the lists where it keeps such a sequence, together
with its frame: the nodes of no other list are touched.

A removal that empties the list is not among these cases.
-/

namespace PiggyOS

open Infra

variable {m m' : Nodes} {l l' : ListT} {ns ns' : List U32} {n t value : U32}

structure Represents (m : Nodes) (l : ListT) (ns : List U32) : Prop where
  head : l.head = ns.headD 0
  tail : l.tail = ns.getLastD 0
  size : l.size.toNat = ns.length
  linked : Linked m.next m.prev 0 ns 0
  nodup : ns.Nodup
  live : ∀ n ∈ ns, m.live n = true
  ne_null : ∀ n ∈ ns, n ≠ 0

/-- Outside of `ns` nothing changes between `m` and `m'`. -/
def Untouched (m m' : Nodes) (ns : List U32) : Prop :=
  ∀ x, x ∉ ns → m'.node x = m.node x ∧ m'.live x = m.live x

theorem represents_listCreate (m : Nodes) : Represents m listCreate [] :=
  ⟨rfl, rfl, rfl, trivial, List.nodup_nil, by simp, by simp⟩

namespace Represents

theorem head_eq_zero_iff (h : Represents m l ns) : l.head = 0 ↔ ns = [] := by
  rw [h.head]
  constructor
  · intro h0
    by_contra hne
    exact h.ne_null _ (headD_mem hne) h0
  · rintro rfl
    rfl

theorem tail_eq_zero_iff (h : Represents m l ns) : l.tail = 0 ↔ ns = [] := by
  rw [h.tail]
  constructor
  · intro h0
    by_contra hne
    exact h.ne_null _ (getLastD_mem hne) h0
  · rintro rfl
    rfl

theorem ne_of_not_live (h : Represents m l ns) (ht : m.live t = false) {x : U32} (hx : x ∈ ns) :
    x ≠ t := by
  rintro rfl
  rw [h.live x hx] at ht
  exact Bool.noConfusion ht

/-- A list depends on its own nodes only. -/
theorem congr (h : Represents m l ns) (hnode : ∀ x ∈ ns, m'.node x = m.node x)
    (hlive : ∀ x ∈ ns, m'.live x = m.live x) : Represents m' l ns where
  head := h.head
  tail := h.tail
  size := h.size
  linked := h.linked.congr (fun x hx => congrArg ListNode.next (hnode x hx))
    fun x hx => congrArg ListNode.prev (hnode x hx)
  nodup := h.nodup
  live := fun x hx => (hlive x hx).trans (h.live x hx)
  ne_null := h.ne_null

theorem of_untouched (h : Represents m l ns) (hu : Untouched m m' ns') (hd : ns.Disjoint ns') :
    Represents m' l ns :=
  h.congr (fun x hx => (hu x (hd hx)).1) fun x hx => (hu x (hd hx)).2

/-- Freeing a node that is not in the list. -/
theorem kfree (h : Represents m l ns) (ht : t ∉ ns) : Represents (m.kfree t) l ns := by
  refine h.congr (fun x _ => rfl) (fun x hx => ?_)
  rw [Nodes.live_kfree, if_neg]
  rintro rfl
  exact ht hx

end Represents

/-! ## Insertion -/

section

variable {x : U32}

theorem next_listInsertFront (hx : x ≠ 0) :
    (listInsertFront m l value t).nodes.next x = if x = t then l.head else m.next x := by
  simp only [listInsertFront, Nodes.next_setValue, Nodes.next_setNext hx, Nodes.next_setPrev,
    Nodes.next_kcalloc]
  by_cases h : x = t
  · simp [h]
  · simp [h]

theorem prev_listInsertFront (hx : x ≠ 0) : (listInsertFront m l value t).nodes.prev x =
    if x = l.head then t else if x = t then 0 else m.prev x := by
  simp only [listInsertFront, Nodes.prev_setValue, Nodes.prev_setNext, Nodes.prev_setPrev hx,
    Nodes.prev_kcalloc]

theorem live_listInsertFront : (listInsertFront m l value t).nodes.live x =
    if x = t then true else m.live x := by
  simp only [listInsertFront, Nodes.live_setValue, Nodes.live_setNext, Nodes.live_setPrev,
    Nodes.live_kcalloc]

theorem value_listInsertFront (hx : x ≠ 0) : (listInsertFront m l value t).nodes.value x =
    if x = t then value else m.value x := by
  simp only [listInsertFront, Nodes.value_setValue hx, Nodes.value_setNext, Nodes.value_setPrev]
  by_cases h : x = t
  · simp [h]
  · simp [h, Nodes.value, Nodes.node_kcalloc_of_ne]

theorem listInsertFront_tail : (listInsertFront m l value t).list.tail =
    if l.head = 0 then t else l.tail := by
  unfold listInsertFront
  split <;> rfl

theorem listInsertFront_size : (listInsertFront m l value t).list.size = l.size + 1 := by
  unfold listInsertFront
  split <;> rfl

end

theorem Represents.insertFront (h : Represents m l ns) (ht : m.live t = false) (ht0 : t ≠ 0) :
    Represents (listInsertFront m l value t).nodes (listInsertFront m l value t).list
      (t :: ns) := by
  have hnet : ∀ x ∈ ns, x ≠ t := fun x hx => h.ne_of_not_live ht hx
  have hnd : (t :: ns).Nodup := List.nodup_cons.mpr ⟨fun hm => hnet t hm rfl, h.nodup⟩
  have hne : ∀ n ∈ t :: ns, n ≠ 0 := List.forall_mem_cons.mpr ⟨ht0, h.ne_null⟩
  refine ⟨rfl, ?_, ?_, ⟨?_, ?_, ?_⟩, hnd, ?_, hne⟩
  · rw [listInsertFront_tail, List.getLastD_cons]
    cases ns with
    | nil => exact if_pos h.head
    | cons n ns => rw [if_neg (mt h.head_eq_zero_iff.mp (List.cons_ne_nil n ns)), h.tail]; rfl
  · have hlt := length_lt_of_nodup hnd hne
    rw [List.length_cons] at hlt
    rw [listInsertFront_size, BitVec.toNat_add_of_lt (by rw [h.size]; exact hlt), h.size]
    rfl
  · have hhead : t ≠ l.head := by
      rw [h.head]
      cases ns with
      | nil => exact ht0
      | cons n ns => exact (hnet n List.mem_cons_self).symm
    rw [prev_listInsertFront ht0, if_neg hhead, if_pos rfl]
  · rw [next_listInsertFront ht0, if_pos rfl, h.head]
  · refine h.linked.relink_first (z := 0) h.nodup (fun x hx => ?_) (fun x hx => ?_)
    · rw [next_listInsertFront (h.ne_null x hx), if_neg (hnet x hx)]
    · rw [prev_listInsertFront (h.ne_null x hx), if_neg (hnet x hx), h.head]
  · intro x hx
    rw [live_listInsertFront]
    split
    · rfl
    · next hxt => exact h.live x ((List.mem_cons.mp hx).resolve_left hxt)

section

variable {x : U32}

theorem next_listInsertBack (hx : x ≠ 0) : (listInsertBack m l value t).nodes.next x =
    if x = l.tail then t else if x = t then 0 else m.next x := by
  simp only [listInsertBack, Nodes.next_setValue, Nodes.next_setNextIf hx, Nodes.next_setPrev,
    Nodes.next_kcalloc]

theorem prev_listInsertBack (hx : x ≠ 0) :
    (listInsertBack m l value t).nodes.prev x = if x = t then l.tail else m.prev x := by
  simp only [listInsertBack, Nodes.prev_setValue, Nodes.prev_setNextIf, Nodes.prev_setPrev hx,
    Nodes.prev_kcalloc]
  by_cases h : x = t
  · simp [h]
  · simp [h]

theorem live_listInsertBack : (listInsertBack m l value t).nodes.live x =
    if x = t then true else m.live x := by
  simp only [listInsertBack, Nodes.live_setValue, Nodes.live_setNextIf, Nodes.live_setPrev,
    Nodes.live_kcalloc]

theorem listInsertBack_head : (listInsertBack m l value t).list.head =
    if l.head = 0 then t else l.head := by
  unfold listInsertBack
  split <;> rfl

theorem listInsertBack_size : (listInsertBack m l value t).list.size = l.size + 1 := by
  unfold listInsertBack
  split <;> rfl

end

theorem Represents.insertBack (h : Represents m l ns) (ht : m.live t = false) (ht0 : t ≠ 0) :
    Represents (listInsertBack m l value t).nodes (listInsertBack m l value t).list
      (ns ++ [t]) := by
  have hnet : ∀ x ∈ ns, x ≠ t := fun x hx => h.ne_of_not_live ht hx
  have hnd : (ns ++ [t]).Nodup := by
    refine List.nodup_append.mpr ⟨h.nodup, List.nodup_singleton t, fun x hx y hy => ?_⟩
    rw [List.mem_singleton.mp hy]
    exact hnet x hx
  have hne : ∀ n ∈ ns ++ [t], n ≠ 0 := by
    intro n hn
    rcases List.mem_append.mp hn with hn | hn
    · exact h.ne_null n hn
    · rwa [List.mem_singleton.mp hn]
  refine ⟨?_, ?_, ?_, linked_append.mpr ⟨?_, ?_, ?_, trivial⟩, hnd, ?_, hne⟩
  · rw [listInsertBack_head]
    cases ns with
    | nil => exact if_pos h.head
    | cons n ns => rw [if_neg (mt h.head_eq_zero_iff.mp (List.cons_ne_nil n ns)), h.head]; rfl
  · rw [getLastD_append]
    rfl
  · have hlt := length_lt_of_nodup hnd hne
    rw [List.length_append, List.length_singleton] at hlt ⊢
    rw [listInsertBack_size, BitVec.toNat_add_of_lt (by rw [h.size]; exact hlt), h.size]
    rfl
  · refine h.linked.relink_last (z := 0) h.nodup (fun x hx => ?_) (fun x hx => ?_)
    · rw [next_listInsertBack (h.ne_null x hx), if_neg (hnet x hx), h.tail]
      rfl
    · rw [prev_listInsertBack (h.ne_null x hx), if_neg (hnet x hx)]
  · rw [prev_listInsertBack ht0, if_pos rfl, h.tail]
  · have htail : t ≠ l.tail := by
      rw [h.tail]
      by_cases hns : ns = []
      · rw [hns]
        exact ht0
      · exact (hnet _ (getLastD_mem hns)).symm
    rw [next_listInsertBack ht0, if_neg htail, if_pos rfl]
    rfl
  · intro x hx
    rw [live_listInsertBack]
    split
    · rfl
    · next hxt =>
      rcases List.mem_append.mp hx with hx | hx
      · exact h.live x hx
      · exact absurd (List.mem_singleton.mp hx) hxt

/-! ## Removal -/

theorem listRemoveFront_of_head (h : l.head ≠ 0) : listRemoveFront m l =
    ⟨((m.touch l.head).setPrevIf (m.next l.head) 0).kfree l.head,
      { l with head := m.next l.head, size := l.size - 1 }, m.value l.head⟩ := by
  unfold listRemoveFront
  rw [if_neg h]
  rfl

/-- No removal changes a value. -/
theorem value_listRemoveFront (x : U32) : (listRemoveFront m l).nodes.value x = m.value x := by
  unfold listRemoveFront
  split
  · rfl
  · simp

/-- The counter after a removal. -/
theorem toNat_size_sub_one {k : Nat} (h : l.size.toNat = k + 1) : (l.size - 1).toNat = k := by
  have := l.size.isLt
  rw [BitVec.toNat_sub, h]
  simp
  omega

theorem Represents.removeFront (h : Represents m l (n :: ns)) (hne : ns ≠ []) :
    Represents (listRemoveFront m l).nodes (listRemoveFront m l).list ns := by
  have hhead : l.head = n := h.head
  have hnext : m.next n = ns.headD 0 := h.linked.2.1
  have hne0 : ∀ x ∈ ns, x ≠ 0 := fun x hx => h.ne_null x (List.mem_cons_of_mem n hx)
  obtain ⟨hn, hnd⟩ := List.nodup_cons.mp h.nodup
  rw [listRemoveFront_of_head (by rw [hhead]; exact h.ne_null n List.mem_cons_self), hhead]
  refine Represents.kfree ⟨hnext, ?_, toNat_size_sub_one h.size, ?_, hnd, ?_, hne0⟩ hn
  · show l.tail = _
    rw [h.tail]
    cases ns with
    | nil => exact absurd rfl hne
    | cons a ns => rfl
  · refine h.linked.2.2.relink_first (z := 0) hnd (fun x hx => ?_) (fun x hx => ?_)
    · simp
    · rw [Nodes.prev_setPrevIf (hne0 x hx), hnext, Nodes.prev_touch]
  · intro x hx
    rw [Nodes.live_setPrevIf, Nodes.live_touch]
    exact h.live x (List.mem_cons_of_mem n hx)

/-- The end that is removed from a list that keeps a node. -/
theorem Represents.exists_dropBack (h : Represents m l ns) (h2 : 2 ≤ ns.length) :
    ∃ ns' n, ns = ns' ++ [n] ∧ ns' ≠ [] := by
  rcases List.eq_nil_or_concat ns with rfl | ⟨ns', n, rfl⟩
  · simp at h2
  · refine ⟨ns', n, List.concat_eq_append, ?_⟩
    rintro rfl
    simp at h2

/-- The list that `list_remove_back` and `list_pop` leave. -/
theorem Represents.dropBack (h : Represents m l (ns ++ [n])) (hne : ns ≠ []) :
    Represents (unlinkBack m l).1 (unlinkBack m l).2 ns := by
  -- the new node is not the tail of before
  have htail : l.tail = n := by rw [h.tail, getLastD_append]; rfl
  obtain ⟨hlinked, hprev, -⟩ := linked_append.mp h.linked
  have hne0 : ∀ x ∈ ns, x ≠ 0 := fun x hx => h.ne_null x (List.mem_append_left _ hx)
  have hnd : ns.Nodup := (List.nodup_append.mp h.nodup).1
  have hsize : l.size.toNat = ns.length + 1 := by rw [h.size, List.length_append]; rfl
  refine ⟨?_, ?_, toNat_size_sub_one hsize, ?_, hnd, ?_, hne0⟩
  · show l.head = _
    rw [h.head, headD_append]
    cases ns with
    | nil => exact absurd rfl hne
    | cons a ns => rfl
  · show m.prev l.tail = _
    rw [htail, hprev]
  · show Linked ((m.touch l.tail).setNextIf (m.prev l.tail) 0).next
      ((m.touch l.tail).setNextIf (m.prev l.tail) 0).prev 0 ns 0
    refine hlinked.relink_last (z := 0) hnd (fun x hx => ?_) (fun x hx => ?_)
    · rw [Nodes.next_setNextIf (hne0 x hx), htail, hprev, Nodes.next_touch]
    · simp
  · intro x hx
    show ((m.touch l.tail).setNextIf (m.prev l.tail) 0).live x = true
    rw [Nodes.live_setNextIf, Nodes.live_touch]
    exact h.live x (List.mem_append_left _ hx)

theorem Represents.head_ne_zero (h : Represents m l ns) (hne : ns ≠ []) : l.head ≠ 0 :=
  mt h.head_eq_zero_iff.mp hne

theorem Represents.pop (h : Represents m l (ns ++ [n])) (hne : ns ≠ []) :
    Represents (listPop m l).nodes (listPop m l).list ns := by
  unfold listPop
  rw [if_neg (h.head_ne_zero (by simp))]
  exact h.dropBack hne

theorem Represents.removeBack (h : Represents m l (ns ++ [n])) (hne : ns ≠ []) :
    Represents (listRemoveBack m l).nodes (listRemoveBack m l).list ns := by
  have htail : l.tail = n := by rw [h.tail, getLastD_append]; rfl
  have hn : n ∉ ns := fun hn => (List.nodup_append.mp h.nodup).2.2 n hn n List.mem_cons_self rfl
  unfold listRemoveBack
  rw [if_neg (h.head_ne_zero (by simp))]
  exact (h.dropBack hne).kfree (by rwa [htail])

theorem Represents.touch (h : Represents m l ns) (a : U32) : Represents (m.touch a) l ns :=
  h.congr (fun _ _ => rfl) fun _ _ => rfl

/-- Taking a node out of the middle. -/
theorem Represents.unlinkMiddle {xs ys : List U32} (h : Represents m l (xs ++ n :: ys))
    (hxs : xs ≠ []) (hys : ys ≠ []) :
    Represents ((m.setPrev (m.next n) (m.prev n)).setNext (m.prev n) (m.next n))
      { l with size := l.size - 1 } (xs ++ ys) := by
  obtain ⟨hlx, hprev, hnext, hly⟩ := linked_append.mp h.linked
  obtain ⟨hndx, hndn, hdisj⟩ := List.nodup_append.mp h.nodup
  obtain ⟨hn, hndy⟩ := List.nodup_cons.mp hndn
  have hsub : xs ++ ys ⊆ xs ++ n :: ys := by
    intro x hx
    simp at hx ⊢
    tauto
  have hxs0 : ∀ x ∈ xs, x ≠ 0 := fun x hx => h.ne_null x (List.mem_append_left _ hx)
  have hys0 : ∀ x ∈ ys, x ≠ 0 := fun x hx =>
    h.ne_null x (List.mem_append_right _ (List.mem_cons_of_mem n hx))
  have hsize : l.size.toNat = (xs ++ ys).length + 1 := by
    rw [h.size]
    simp
    omega
  refine ⟨?_, ?_, toNat_size_sub_one hsize, linked_append.mpr ⟨?_, ?_⟩, ?_, ?_, ?_⟩
  · show l.head = _
    rw [h.head, headD_append, headD_append]
    cases xs with
    | nil => exact absurd rfl hxs
    | cons x xs => rfl
  · show l.tail = _
    rw [h.tail, getLastD_append, getLastD_append, List.getLastD_cons]
    cases ys with
    | nil => exact absurd rfl hys
    | cons y ys => rfl
  · refine hlx.relink_last (z := 0) hndx (fun x hx => ?_) (fun x hx => ?_)
    · rw [Nodes.next_setNext (hxs0 x hx), hprev, hnext, Nodes.next_setPrev]
    · rw [Nodes.prev_setNext, Nodes.prev_setPrev (hxs0 x hx), if_neg]
      rw [hnext]
      exact hdisj x hx _ (List.mem_cons_of_mem n (headD_mem hys))
  · refine hly.relink_first (z := 0) hndy (fun x hx => ?_) (fun x hx => ?_)
    · rw [Nodes.next_setNext (hys0 x hx), if_neg, Nodes.next_setPrev]
      rw [hprev]
      exact (hdisj _ (getLastD_mem hxs) x (List.mem_cons_of_mem n hx)).symm
    · rw [Nodes.prev_setNext, Nodes.prev_setPrev (hys0 x hx), hnext, hprev]
  · exact h.nodup.sublist (List.Sublist.append_left (List.sublist_cons_self n ys) xs)
  · intro x hx
    rw [Nodes.live_setNext, Nodes.live_setPrev]
    exact h.live x (hsub hx)
  · exact fun x hx => h.ne_null x (hsub hx)

theorem Represents.next_ne (h : Represents m l ns) (hn : n ∈ ns) : m.next n ≠ n := by
  obtain ⟨xs, ys, rfl⟩ := List.append_of_mem hn
  obtain ⟨-, -, hnext, -⟩ := linked_append.mp h.linked
  rw [hnext]
  cases ys with
  | nil => exact (h.ne_null n hn).symm
  | cons y ys =>
    rintro rfl
    have := (List.nodup_append.mp h.nodup).2.1
    simp at this

/-- The last branch of `list_remove_node`, where `node->prev` is read again after the first
store. -/
theorem Represents.removeNode_eq (h : Represents m l ns) (hn : n ∈ ns) (hhead : l.head ≠ n)
    (htail : l.tail ≠ n) : listRemoveNode m l n =
      ⟨(((m.touch n).setPrev (m.next n) (m.prev n)).setNext (m.prev n) (m.next n)).kfree n,
        { l with size := l.size - 1 }, m.value n⟩ := by
  have hprev : ((m.touch n).setPrev (m.next n) (m.prev n)).prev n = m.prev n := by
    rw [Nodes.prev_setPrev (h.ne_null n hn), if_neg (h.next_ne hn).symm, Nodes.prev_touch]
  unfold listRemoveNode
  rw [if_neg hhead, if_neg htail]
  simp only [Nodes.next_touch, Nodes.prev_touch, hprev, Nodes.next_setPrev, Nodes.value_touch]

/-- `list_remove_node` of the node between `xs` and `ys`. -/
theorem Represents.removeNode {xs ys : List U32} (h : Represents m l (xs ++ n :: ys))
    (hne : xs ++ ys ≠ []) :
    Represents (listRemoveNode m l n).nodes (listRemoveNode m l n).list (xs ++ ys) := by
  have hm := h.touch n
  obtain ⟨-, hndn, hdisj⟩ := List.nodup_append.mp h.nodup
  cases xs with
  | nil =>
    unfold listRemoveNode
    rw [if_pos (show l.head = n from h.head)]
    exact hm.removeFront hne
  | cons x xs =>
    have hhead : l.head ≠ n := by
      rw [h.head]
      exact hdisj x List.mem_cons_self n List.mem_cons_self
    by_cases hys : ys = []
    · subst hys
      have htail : l.tail = n := by rw [h.tail, getLastD_append]; rfl
      unfold listRemoveNode
      rw [if_neg hhead, if_pos htail, List.append_nil]
      exact hm.removeBack (List.cons_ne_nil x xs)
    · have htail : l.tail ≠ n := by
        rw [h.tail, getLastD_append, List.getLastD_cons]
        intro hlast
        exact (List.nodup_cons.mp hndn).1 (hlast ▸ getLastD_mem hys)
      have hnm : n ∉ (x :: xs) ++ ys := by
        intro hn
        rcases List.mem_append.mp hn with hn | hn
        · exact hdisj n hn n List.mem_cons_self rfl
        · exact (List.nodup_cons.mp hndn).1 hn
      rw [h.removeNode_eq (by simp) hhead htail]
      exact (hm.unlinkMiddle (List.cons_ne_nil x xs) hys).kfree hnm

/-! ## Merging -/

section

variable {target source : ListT} {ts ss : List U32} {x : U32}

theorem next_listMerge (hx : x ≠ 0) : (listMerge m target source).1.next x =
    if x = target.tail then source.head else m.next x := by
  simp only [listMerge, Nodes.next_setNextIf hx, Nodes.next_setPrevIf]

theorem prev_listMerge (hx : x ≠ 0) : (listMerge m target source).1.prev x =
    if x = source.head then target.tail else m.prev x := by
  simp only [listMerge, Nodes.prev_setNextIf, Nodes.prev_setPrevIf hx]

theorem live_listMerge : (listMerge m target source).1.live x = m.live x := by
  simp only [listMerge, Nodes.live_setNextIf, Nodes.live_setPrevIf]

theorem listMerge_head : (listMerge m target source).2.head =
    if target.tail ≠ 0 then target.head else source.head := by
  by_cases ht : target.tail = 0 <;> by_cases hs : source.tail = 0 <;>
    simp only [listMerge, ht, hs, ne_eq, not_true_eq_false, not_false_eq_true, if_true, if_false]

theorem listMerge_tail : (listMerge m target source).2.tail =
    if source.tail ≠ 0 then source.tail else target.tail := by
  by_cases ht : target.tail = 0 <;> by_cases hs : source.tail = 0 <;>
    simp only [listMerge, ht, hs, ne_eq, not_true_eq_false, not_false_eq_true, if_true, if_false]

theorem listMerge_size :
    (listMerge m target source).2.size = target.size + source.size := by
  by_cases ht : target.tail = 0 <;> by_cases hs : source.tail = 0 <;>
    simp only [listMerge, ht, hs, ne_eq, not_true_eq_false, not_false_eq_true, if_true, if_false]

theorem Represents.merge (ht : Represents m target ts) (hs : Represents m source ss)
    (hd : ts.Disjoint ss) :
    Represents (listMerge m target source).1 (listMerge m target source).2 (ts ++ ss) := by
  have hnd : (ts ++ ss).Nodup := List.nodup_append'.mpr ⟨ht.nodup, hs.nodup, hd⟩
  have hne : ∀ n ∈ ts ++ ss, n ≠ 0 := by
    intro n hn
    rcases List.mem_append.mp hn with hn | hn
    · exact ht.ne_null n hn
    · exact hs.ne_null n hn
  -- an empty list has NULL at both ends, which no node is equal to
  have htail : ∀ x ∈ ss, x ≠ target.tail := by
    intro x hx hxt
    by_cases hts : ts = []
    · exact hs.ne_null x hx (hxt.trans (ht.tail_eq_zero_iff.mpr hts))
    · exact hd (getLastD_mem hts) (by rwa [← ht.tail, ← hxt])
  have hhead : ∀ x ∈ ts, x ≠ source.head := by
    intro x hx hxs
    by_cases hss : ss = []
    · exact ht.ne_null x hx (hxs.trans (hs.head_eq_zero_iff.mpr hss))
    · exact hd hx (by rw [hxs, hs.head]; exact headD_mem hss)
  refine ⟨?_, ?_, ?_, linked_append.mpr ⟨?_, ?_⟩, hnd, ?_, hne⟩
  · rw [listMerge_head, headD_append]
    cases ts with
    | nil => exact (if_neg (not_not.mpr ht.tail)).trans hs.head
    | cons t ts =>
      rw [if_pos (mt ht.tail_eq_zero_iff.mp (List.cons_ne_nil t ts)), ht.head]
      rfl
  · rw [listMerge_tail, getLastD_append]
    cases ss with
    | nil => exact (if_neg (not_not.mpr hs.tail)).trans ht.tail
    | cons s ss =>
      rw [if_pos (mt hs.tail_eq_zero_iff.mp (List.cons_ne_nil s ss)), hs.tail]
      rfl
  · have hlt := length_lt_of_nodup hnd hne
    rw [List.length_append] at hlt ⊢
    rw [listMerge_size, BitVec.toNat_add_of_lt (by rw [ht.size, hs.size]; exact hlt), ht.size,
      hs.size]
  · refine ht.linked.relink_last (z := 0) ht.nodup (fun x hx => ?_) (fun x hx => ?_)
    · rw [next_listMerge (ht.ne_null x hx), ht.tail, hs.head]
    · rw [prev_listMerge (ht.ne_null x hx), if_neg (hhead x hx)]
  · refine hs.linked.relink_first (z := 0) hs.nodup (fun x hx => ?_) (fun x hx => ?_)
    · rw [next_listMerge (hs.ne_null x hx), if_neg (htail x hx)]
    · rw [prev_listMerge (hs.ne_null x hx), ht.tail, hs.head]
  · intro n hn
    rw [live_listMerge]
    rcases List.mem_append.mp hn with hn | hn
    · exact ht.live n hn
    · exact hs.live n hn

end

/-! ## Frames -/

section

variable {x : U32}

/-- A node outside the list is not at the list's ends. -/
theorem Represents.ne_head (h : Represents m l ns) (hx : x ∉ ns) (h0 : l.head ≠ 0) :
    x ≠ l.head := by
  rintro rfl
  rw [h.head] at hx
  exact hx (headD_mem (mt h.head_eq_zero_iff.mpr h0))

theorem Represents.ne_tail (h : Represents m l ns) (hx : x ∉ ns) (h0 : l.tail ≠ 0) :
    x ≠ l.tail := by
  rintro rfl
  rw [h.tail] at hx
  exact hx (getLastD_mem (mt h.tail_eq_zero_iff.mpr h0))

/-- Nor next to one of its nodes. -/
theorem Represents.ne_next (h : Represents m l ns) (hn : n ∈ ns) (hx : x ∉ ns)
    (h0 : m.next n ≠ 0) : x ≠ m.next n := by
  rintro rfl
  exact hx ((h.linked.next_mem hn).resolve_right h0)

theorem Represents.ne_prev (h : Represents m l ns) (hn : n ∈ ns) (hx : x ∉ ns)
    (h0 : m.prev n ≠ 0) : x ≠ m.prev n := by
  rintro rfl
  exact hx ((h.linked.prev_mem hn).resolve_right h0)

theorem Represents.untouched_listInsertFront (h : Represents m l ns) :
    Untouched m (listInsertFront m l value t).nodes (t :: ns) := by
  intro x hx
  obtain ⟨hxt, hx⟩ := not_or.mp (mt List.mem_cons.mpr hx)
  constructor
  · simp only [listInsertFront, Nodes.setValue, Nodes.setNext, Nodes.setPrev]
    rw [Nodes.node_store_of_ne hxt, Nodes.node_store_of_ne hxt, Nodes.node_store_of (h.ne_head hx),
      Nodes.node_kcalloc_of_ne hxt]
  · rw [live_listInsertFront, if_neg hxt]

theorem Represents.untouched_listInsertBack (h : Represents m l ns) :
    Untouched m (listInsertBack m l value t).nodes (t :: ns) := by
  intro x hx
  obtain ⟨hxt, hx⟩ := not_or.mp (mt List.mem_cons.mpr hx)
  constructor
  · simp only [listInsertBack, Nodes.setValue, Nodes.setPrev]
    rw [Nodes.node_store_of_ne hxt, Nodes.node_setNextIf_of (h.ne_tail hx),
      Nodes.node_store_of_ne hxt, Nodes.node_kcalloc_of_ne hxt]
  · rw [live_listInsertBack, if_neg hxt]

theorem Represents.untouched_listRemoveFront (h : Represents m l ns) :
    Untouched m (listRemoveFront m l).nodes ns := by
  intro x hx
  by_cases h0 : l.head = 0
  · rw [listRemoveFront, if_pos h0]
    exact ⟨rfl, rfl⟩
  · have hhead : l.head ∈ ns := by
      rw [h.head]
      exact headD_mem (mt h.head_eq_zero_iff.mpr h0)
    rw [listRemoveFront_of_head h0]
    constructor
    · rw [Nodes.node_kfree, Nodes.node_setPrevIf_of (h.ne_next hhead hx), Nodes.node_touch]
    · rw [Nodes.live_kfree, if_neg (h.ne_head hx h0), Nodes.live_setPrevIf, Nodes.live_touch]

theorem Represents.untouched_unlinkBack (h : Represents m l ns) (h0 : l.tail ≠ 0) :
    Untouched m (unlinkBack m l).1 ns := by
  intro x hx
  have htail : l.tail ∈ ns := by
    rw [h.tail]
    exact getLastD_mem (mt h.tail_eq_zero_iff.mpr h0)
  constructor
  · show ((m.touch l.tail).setNextIf (m.prev l.tail) 0).node x = m.node x
    rw [Nodes.node_setNextIf_of (h.ne_prev htail hx), Nodes.node_touch]
  · show ((m.touch l.tail).setNextIf (m.prev l.tail) 0).live x = m.live x
    rw [Nodes.live_setNextIf, Nodes.live_touch]

theorem Represents.tail_ne_zero_of_head (h : Represents m l ns) (h0 : l.head ≠ 0) :
    l.tail ≠ 0 :=
  mt (fun ht => h.head_eq_zero_iff.mpr (h.tail_eq_zero_iff.mp ht)) h0

theorem Represents.untouched_listPop (h : Represents m l ns) :
    Untouched m (listPop m l).nodes ns := by
  intro x hx
  unfold listPop
  split
  · exact ⟨rfl, rfl⟩
  · next h0 => exact h.untouched_unlinkBack (h.tail_ne_zero_of_head h0) x hx

theorem Represents.untouched_listRemoveBack (h : Represents m l ns) :
    Untouched m (listRemoveBack m l).nodes ns := by
  intro x hx
  unfold listRemoveBack
  split
  · exact ⟨rfl, rfl⟩
  · next h0 =>
    have ht0 := h.tail_ne_zero_of_head h0
    obtain ⟨hnode, hlive⟩ := h.untouched_unlinkBack ht0 x hx
    exact ⟨hnode, by rw [Nodes.live_kfree, if_neg (h.ne_tail hx ht0), hlive]⟩

theorem Represents.untouched_listRemoveNode (h : Represents m l ns) (hn : n ∈ ns) :
    Untouched m (listRemoveNode m l n).nodes ns := by
  intro x hx
  by_cases hhead : l.head = n
  · unfold listRemoveNode
    rw [if_pos hhead]
    exact (h.touch n).untouched_listRemoveFront x hx
  by_cases htail : l.tail = n
  · unfold listRemoveNode
    rw [if_neg hhead, if_pos htail]
    exact (h.touch n).untouched_listRemoveBack x hx
  rw [h.removeNode_eq hn hhead htail]
  constructor
  · rw [Nodes.node_kfree, Nodes.setNext, Nodes.node_store_of (h.ne_prev hn hx), Nodes.setPrev,
      Nodes.node_store_of (h.ne_next hn hx), Nodes.node_touch]
  · have hxn : x ≠ n := by
      rintro rfl
      exact hx hn
    rw [Nodes.live_kfree, if_neg hxn]
    rfl

theorem Represents.untouched_listMerge {target source : ListT} {ts ss : List U32}
    (ht : Represents m target ts) (hs : Represents m source ss) :
    Untouched m (listMerge m target source).1 (ts ++ ss) := by
  intro x hx
  rw [List.mem_append, not_or] at hx
  constructor
  · simp only [listMerge]
    rw [Nodes.node_setNextIf_of (ht.ne_tail hx.1), Nodes.node_setPrevIf_of (hs.ne_head hx.2)]
  · exact live_listMerge

end

/-! ## Accesses -/

/-- A pointer that is followed leads to a node in use. -/
theorem Represents.live_head (h : Represents m l ns) (hne : ns ≠ []) : m.live l.head = true := by
  rw [h.head]
  exact h.live _ (headD_mem hne)

theorem Represents.faults_listInsertFront (h : Represents m l ns) (hne : ns ≠ []) :
    (listInsertFront m l value t).nodes.faults = m.faults := by
  have hhead : (m.kcalloc t).live l.head = true := by
    rw [Nodes.live_kcalloc, h.live_head hne, ite_self]
  have ht : (m.kcalloc t).live t = true := by
    rw [Nodes.live_kcalloc, if_pos rfl]
  simp only [listInsertFront, Nodes.setValue, Nodes.setNext, Nodes.setPrev]
  rw [Nodes.faults_store (by simpa using ht), Nodes.faults_store (by simpa using ht),
    Nodes.faults_store hhead]
  rfl

/-- An empty list has no node to make the store to. -/
theorem faults_listInsertFront_of_empty (hl : l.head = 0) (h0 : m.live 0 = false) (ht0 : t ≠ 0) :
    (listInsertFront m l value t).nodes.faults = 0 :: m.faults := by
  have ht : (m.kcalloc t).live t = true := by
    rw [Nodes.live_kcalloc, if_pos rfl]
  have hzero : (m.kcalloc t).live 0 = false := by
    rw [Nodes.live_kcalloc, if_neg ht0.symm, h0]
  simp only [listInsertFront, Nodes.setValue, Nodes.setNext, Nodes.setPrev]
  rw [Nodes.faults_store (by simpa using ht), Nodes.faults_store (by simpa using ht), hl]
  show (if (m.kcalloc t).live 0 then m.faults else 0 :: m.faults) = _
  rw [hzero]
  rfl

theorem Represents.faults_listRemoveFront (h : Represents m l (n :: ns)) :
    (listRemoveFront m l).nodes.faults = m.faults := by
  have hhead : l.head = n := h.head
  rw [listRemoveFront_of_head (h.head_ne_zero (List.cons_ne_nil n ns)),
    Nodes.touch_of_live (h.live_head (List.cons_ne_nil n ns)), hhead]
  show (m.setPrevIf (m.next n) 0).faults = m.faults
  unfold Nodes.setPrevIf
  split
  · next h0 =>
    rcases h.linked.next_mem List.mem_cons_self with hm | hz
    · exact Nodes.faults_store (h.live _ hm) _
    · exact absurd hz h0
  · rfl

/-! ## Access by index -/

/-- The loop stops at the node that is `index - curr` places further, or at the end. -/
theorem listGetFrom_spec {p index curr : U32} {k : Nat} (hl : Linked m.next m.prev p ns 0)
    (hk : ns.length < k) (hne : ∀ x ∈ ns, x ≠ 0) (hcurr : curr.toNat ≤ index.toNat) :
    listGetFrom m index k curr (ns.headD 0) = some (ns[index.toNat - curr.toNat]?.getD 0) := by
  induction ns generalizing p k curr with
  | nil =>
    obtain ⟨k, rfl⟩ := Nat.exists_eq_succ_of_ne_zero (Nat.ne_of_gt hk)
    rfl
  | cons x ns ih =>
    obtain ⟨k, rfl⟩ := Nat.exists_eq_succ_of_ne_zero (Nat.ne_of_gt (Nat.zero_lt_of_lt hk))
    obtain ⟨-, hnext, hrest⟩ := hl
    rw [List.headD_cons, listGetFrom, if_neg (hne x List.mem_cons_self), hnext]
    by_cases heq : index = curr
    · rw [if_pos heq, heq, Nat.sub_self]
      rfl
    · have hne' : index.toNat ≠ curr.toNat := fun h => heq (BitVec.eq_of_toNat_eq h)
      have hsucc : (curr + 1).toNat = curr.toNat + 1 := BitVec.toNat_add_of_lt (by
        have := index.isLt
        show curr.toNat + 1 < 2 ^ 32
        omega)
      have hplace : index.toNat - curr.toNat = index.toNat - (curr + 1).toNat + 1 := by omega
      rw [if_neg heq, hplace, List.getElem?_cons_succ]
      exact ih hrest (Nat.lt_of_succ_lt_succ hk) (fun y hy => hne y (List.mem_cons_of_mem _ hy))
        (by omega)

/-- The loop over a whole list. -/
theorem Represents.listGetFrom (h : Represents m l ns) (index : U32) :
    listGetFrom m index (2 ^ 32) 0 l.head = some (ns[index.toNat]?.getD 0) := by
  rw [h.head]
  exact listGetFrom_spec h.linked (length_lt_of_nodup h.nodup h.ne_null) h.ne_null (Nat.zero_le _)

/-- **`list_get_node_by_index` gives the node at the index, and NULL behind the end.** -/
theorem Represents.listGetNodeByIndex (h : Represents m l ns) (index : U32) :
    listGetNodeByIndex m l index = some (ns[index.toNat]?.getD 0) := by
  unfold PiggyOS.listGetNodeByIndex
  split
  · next hge =>
    have hle : ns.length ≤ index.toNat := h.size ▸ hge
    rw [List.getElem?_eq_none hle]
    rfl
  · exact h.listGetFrom index

end PiggyOS
