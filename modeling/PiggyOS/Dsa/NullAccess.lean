import PiggyOS.Dsa.Sequence

/-!
# NULL pointers in lists

The functions of `list.c` test different things before they follow a pointer: the head, the tail
or nothing. On a well-formed list two of them go through NULL, `list_insert_front` when there is
no head and `list_remove_by_index` when there is no node at the index.
-/

namespace PiggyOS

open Infra

variable {m : Nodes} {l : ListT} {ns : List U32} {n t value : U32}

/-! ## Functions that follow nodes of the list only -/

theorem Represents.live_tail (h : Represents m l ns) (hne : ns ≠ []) : m.live l.tail = true := by
  rw [h.tail]
  exact h.live _ (getLastD_mem hne)

theorem Nodes.faults_setNextIf {a v : U32} (h : a ≠ 0 → m.live a = true) :
    (m.setNextIf a v).faults = m.faults := by
  unfold Nodes.setNextIf
  split
  · next h0 => exact Nodes.faults_store (h h0) _
  · rfl

theorem Represents.faults_listInsertBack (h : Represents m l ns) :
    (listInsertBack m l value t).nodes.faults = m.faults := by
  have ht : (m.kcalloc t).live t = true := by
    rw [Nodes.live_kcalloc, if_pos rfl]
  have htail : l.tail ≠ 0 → ((m.kcalloc t).setPrev t l.tail).live l.tail = true := by
    intro h0
    rw [Nodes.live_setPrev, Nodes.live_kcalloc, h.live_tail (mt h.tail_eq_zero_iff.mpr h0),
      ite_self]
  simp only [listInsertBack, Nodes.setValue]
  rw [Nodes.faults_store (by simpa using ht), Nodes.faults_setNextIf htail, Nodes.setPrev,
    Nodes.faults_store ht]
  rfl

theorem Represents.faults_unlinkBack (h : Represents m l ns) (hne : ns ≠ []) :
    (unlinkBack m l).1.faults = m.faults := by
  have htail : l.tail ∈ ns := by
    rw [h.tail]
    exact getLastD_mem hne
  simp only [unlinkBack]
  rw [Nodes.touch_of_live (h.live_tail hne)]
  exact Nodes.faults_setNextIf fun h0 => h.live _ ((h.linked.prev_mem htail).resolve_right h0)

theorem Represents.ne_nil_of_head (h : Represents m l ns) (h0 : l.head ≠ 0) : ns ≠ [] :=
  mt h.head_eq_zero_iff.mpr h0

theorem Represents.faults_removeFront (h : Represents m l ns) :
    (listRemoveFront m l).nodes.faults = m.faults := by
  cases ns with
  | nil => rw [listRemoveFront, if_pos (show l.head = 0 from h.head)]
  | cons n ns => exact h.faults_listRemoveFront

theorem Represents.faults_listRemoveBack (h : Represents m l ns) :
    (listRemoveBack m l).nodes.faults = m.faults := by
  unfold listRemoveBack
  split
  · rfl
  · next h0 => exact h.faults_unlinkBack (h.ne_nil_of_head h0)

theorem Represents.faults_listPop (h : Represents m l ns) :
    (listPop m l).nodes.faults = m.faults := by
  unfold listPop
  split
  · rfl
  · next h0 => exact h.faults_unlinkBack (h.ne_nil_of_head h0)

theorem Represents.faults_listPeekFront (h : Represents m l ns) :
    (listPeekFront m l).nodes.faults = m.faults := by
  unfold listPeekFront
  split
  · rfl
  · next h0 => exact congrArg _ (Nodes.touch_of_live (h.live_head (h.ne_nil_of_head h0)))

theorem Represents.faults_listPeekBack (h : Represents m l ns) :
    (listPeekBack m l).nodes.faults = m.faults := by
  unfold listPeekBack
  split
  · rfl
  · next h0 =>
    exact congrArg _ (Nodes.touch_of_live (h.live_tail (mt h.tail_eq_zero_iff.mpr h0)))

/-- A node of the list is taken out through its neighbours. -/
theorem Represents.faults_listRemoveNode (h : Represents m l ns) (hn : n ∈ ns) :
    (listRemoveNode m l n).nodes.faults = m.faults := by
  have htouch : m.touch n = m := Nodes.touch_of_live (h.live n hn)
  by_cases hhead : l.head = n
  · rw [listRemoveNode, if_pos hhead, htouch, h.faults_removeFront]
  by_cases htail : l.tail = n
  · rw [listRemoveNode, if_neg hhead, if_pos htail, htouch, h.faults_listRemoveBack]
  obtain ⟨xs, ys, rfl⟩ := List.append_of_mem hn
  obtain ⟨-, hprev, hnext, -⟩ := linked_append.mp h.linked
  have hxs : xs ≠ [] := by
    rintro rfl
    exact hhead h.head
  have hys : ys ≠ [] := by
    rintro rfl
    exact htail h.tail_eq
  have hlivep : m.live (m.prev n) = true := by
    rw [hprev]
    exact h.live _ (List.mem_append_left _ (getLastD_mem hxs))
  have hliven : m.live (m.next n) = true := by
    rw [hnext]
    exact h.live _ (List.mem_append_right _ (List.mem_cons_of_mem n (headD_mem hys)))
  rw [h.removeNode_eq hn hhead htail, htouch]
  show ((m.setPrev (m.next n) (m.prev n)).setNext (m.prev n) (m.next n)).faults = m.faults
  rw [Nodes.setNext, Nodes.faults_store (by simpa using hlivep), Nodes.setPrev,
    Nodes.faults_store hliven]

/-! ## NULL -/

/-- An access that has been noted stays. -/
theorem Nodes.mem_faults_store {x : U32} (h : x ∈ m.faults) (a : U32) (k : ListNode) :
    x ∈ (m.store a k).faults := by
  show x ∈ if m.live a then m.faults else a :: m.faults
  split
  · exact h
  · exact List.mem_cons_of_mem a h

/-- The value of the node is read without a test. -/
theorem Represents.null_listRemoveNode (h : Represents m l ns) (h0 : m.live 0 = false) :
    0 ∈ (listRemoveNode m l 0).nodes.faults := by
  have htouch : 0 ∈ (m.touch 0).faults := by
    show 0 ∈ if m.live 0 then m.faults else 0 :: m.faults
    rw [h0]
    exact List.mem_cons_self
  by_cases hhead : l.head = 0
  · rw [listRemoveNode, if_pos hhead, listRemoveFront, if_pos hhead]
    exact htouch
  · rw [listRemoveNode, if_neg hhead, if_neg (h.tail_ne_zero_of_head hhead)]
    simp only [Nodes.next_touch, Nodes.prev_touch, Nodes.kfree]
    have hprev : 0 ∈ ((m.touch 0).setPrev (m.next 0) (m.prev 0)).faults :=
      Nodes.mem_faults_store htouch (m.next 0) _
    exact Nodes.mem_faults_store hprev _ _

/-! ## The entry points -/

/-- The functions that are called on a list, with the fresh node that `kcalloc` answers with. -/
inductive ListCall
  | insertFront (value t : U32)
  | insertBack (value t : U32)
  | removeFront
  | removeBack
  | pop
  | peekFront
  | peekBack
  | removeByIndex (index : U32)

def ListCall.run (m : Nodes) (l : ListT) : ListCall → Option ListResult
  | .insertFront value t => some (listInsertFront m l value t)
  | .insertBack value t => some (listInsertBack m l value t)
  | .removeFront => some (listRemoveFront m l)
  | .removeBack => some (listRemoveBack m l)
  | .pop => some (listPop m l)
  | .peekFront => some (listPeekFront m l)
  | .peekBack => some (listPeekBack m l)
  | .removeByIndex index => listRemoveByIndex m l index

/-- `kcalloc` answers with a node that is not in use. -/
def ListCall.Fresh (m : Nodes) : ListCall → Prop
  | .insertFront _ t | .insertBack _ t => m.live t = false ∧ t ≠ 0
  | _ => True

/-- The call comes back and has not followed a NULL pointer. -/
def ListCall.NullFree (m : Nodes) (l : ListT) (c : ListCall) : Prop :=
  ∃ r, c.run { m with faults := [] } l = some r ∧ 0 ∉ r.nodes.faults

/-- The list has what the call takes for granted. -/
def ListCall.Provided (l : ListT) : ListCall → Prop
  | .insertFront _ _ => l.size ≠ 0
  | .removeByIndex index => index < l.size
  | _ => True

/-- **Only two calls go through NULL, each on the lists it does not test for.** -/
theorem Represents.nullFree_iff (h : Represents m l ns) (h0 : m.live 0 = false) (c : ListCall)
    (hc : c.Fresh m) : c.NullFree m l ↔ c.Provided l := by
  have h' : Represents { m with faults := [] } l ns := h.congr (fun _ _ => rfl) fun _ _ => rfl
  have hsize : l.size = 0 ↔ ns = [] := by
    rw [← BitVec.toNat_inj, h.size]
    exact List.length_eq_zero_iff
  have hfree {r : ListResult} (hr : r.nodes.faults = []) :
      ∃ r', some r = some r' ∧ 0 ∉ r'.nodes.faults := ⟨r, rfl, by simp [hr]⟩
  cases c with
  | insertFront value t =>
    constructor
    · rintro ⟨_, ⟨⟩, hnull⟩ hempty
      have hhead : l.head = 0 := h.head_eq_zero_iff.mpr (hsize.mp hempty)
      have hempty0 : Nodes.live { m with faults := [] } 0 = false := h0
      rw [faults_listInsertFront_of_empty hhead hempty0 hc.2] at hnull
      exact hnull List.mem_cons_self
    · exact fun hne => hfree (h'.faults_listInsertFront (mt hsize.mpr hne))
  | insertBack value t => exact iff_of_true (hfree h'.faults_listInsertBack) trivial
  | removeFront => exact iff_of_true (hfree h'.faults_removeFront) trivial
  | removeBack => exact iff_of_true (hfree h'.faults_listRemoveBack) trivial
  | pop => exact iff_of_true (hfree h'.faults_listPop) trivial
  | peekFront => exact iff_of_true (hfree h'.faults_listPeekFront) trivial
  | peekBack => exact iff_of_true (hfree h'.faults_listPeekBack) trivial
  | removeByIndex index =>
    have hrun : ListCall.run { m with faults := [] } l (.removeByIndex index) =
        some (listRemoveNode { m with faults := [] } l (ns[index.toNat]?.getD 0)) := by
      rw [ListCall.run, listRemoveByIndex, h'.listGetNodeByIndex]
      rfl
    constructor
    · rintro ⟨r, hr, hnull⟩
      obtain rfl := Option.some.inj (hrun.symm.trans hr)
      by_contra hge
      have hle : ns.length ≤ index.toNat := h.size ▸ Nat.le_of_not_lt hge
      rw [List.getElem?_eq_none hle] at hnull
      exact hnull (h'.null_listRemoveNode h0)
    · intro hlt
      have hlen : index.toNat < ns.length := h.size ▸ hlt
      rw [ListCall.NullFree, hrun, List.getElem?_eq_getElem hlen]
      exact hfree (h'.faults_listRemoveNode (List.getElem_mem hlen))

/-- The second node of two is removed by its index. -/
theorem nullFree_iff_pairNodes :
    (Represents pairNodes ⟨0x10, 0x20, 2⟩ [0x10, 0x20] ∧ pairNodes.live 0 = false ∧
      ListCall.Fresh pairNodes (.removeByIndex 1)) ∧
    (ListCall.NullFree pairNodes ⟨0x10, 0x20, 2⟩ (.removeByIndex 1) ↔
      ListCall.Provided ⟨0x10, 0x20, 2⟩ (.removeByIndex 1)) :=
  ⟨⟨represents_pairNodes, by simp [pairNodes], trivial⟩,
    represents_pairNodes.nullFree_iff (by simp [pairNodes]) (.removeByIndex 1) trivial⟩

/-- The first registration in front of a new list, and an index behind its end. -/
theorem not_nullFree_listCreate :
    ¬ ListCall.NullFree ⟨fun _ => ⟨0, 0, 0⟩, fun _ => false, [], []⟩ listCreate
        (.insertFront 7 0x10) ∧
      ¬ ListCall.NullFree pairNodes ⟨0x10, 0x20, 2⟩ (.removeByIndex 2) := by
  constructor
  · rintro ⟨_, ⟨⟩, hnull⟩
    exact hnull (by decide)
  · rintro ⟨_, ⟨⟩, hnull⟩
    exact hnull (by decide)

end PiggyOS
