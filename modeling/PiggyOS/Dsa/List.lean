import Mathlib.Logic.Function.Basic
import PiggyOS.Infra.Chain
import PiggyOS.Infra.Memory

/-!
# Doubly linked lists (`list.c`)

Nodes are kept as objects under their addresses. A function of `list.c` takes the nodes and the
`list_t` it works on and gives both back with what it returns; the address `kcalloc` answers
with is an argument of the functions that call it.
-/

namespace PiggyOS

open Infra

/-- `list_node_t` -/
structure ListNode where
  prev : U32
  next : U32
  value : U32
  deriving DecidableEq, Repr

/-- `list_t` -/
structure ListT where
  head : U32
  tail : U32
  size : U32
  deriving DecidableEq, Repr

/-- The nodes in memory. `live` holds of the addresses that `kcalloc` has handed out and `kfree`
has not taken back. `faults` collects the addresses that were used as a node without being live,
`frees` those that were passed to `kfree`, last one first. -/
structure Nodes where
  node : U32 → ListNode
  live : U32 → Bool
  faults : List U32
  frees : List U32

namespace Nodes

variable (m : Nodes)

def next (a : U32) : U32 := (m.node a).next

def prev (a : U32) : U32 := (m.node a).prev

def value (a : U32) : U32 := (m.node a).value

/-- An access to the node at `a`. -/
def touch (a : U32) : Nodes :=
  { m with faults := if m.live a then m.faults else a :: m.faults }

/-- A store to the node at `a`; one through a NULL pointer changes no node. -/
def store (a : U32) (n : ListNode) : Nodes :=
  { m.touch a with node := if a = 0 then m.node else Function.update m.node a n }

/-- `a->prev = v` -/
def setPrev (a v : U32) : Nodes := m.store a { m.node a with prev := v }

/-- `a->next = v` -/
def setNext (a v : U32) : Nodes := m.store a { m.node a with next := v }

/-- `if (a) a->prev = v` -/
def setPrevIf (a v : U32) : Nodes := if a ≠ 0 then m.setPrev a v else m

/-- `if (a) a->next = v` -/
def setNextIf (a v : U32) : Nodes := if a ≠ 0 then m.setNext a v else m

/-- `a->value = v` -/
def setValue (a v : U32) : Nodes := m.store a { m.node a with value := v }

/-- `kcalloc(sizeof(list_node_t), 1)`, answered with `t`. -/
def kcalloc (t : U32) : Nodes :=
  { m with node := Function.update m.node t ⟨0, 0, 0⟩, live := Function.update m.live t true }

/-- `kfree` of a node. -/
def kfree (t : U32) : Nodes :=
  { m with live := Function.update m.live t false, frees := t :: m.frees }

@[simp] theorem node_touch (a x : U32) : (m.touch a).node x = m.node x := rfl

@[simp] theorem live_touch (a x : U32) : (m.touch a).live x = m.live x := rfl

@[simp] theorem live_store (a : U32) (n : ListNode) (x : U32) :
    (m.store a n).live x = m.live x := rfl

@[simp] theorem live_setPrev (a v x : U32) : (m.setPrev a v).live x = m.live x := rfl

@[simp] theorem live_setNext (a v x : U32) : (m.setNext a v).live x = m.live x := rfl

@[simp] theorem live_setValue (a v x : U32) : (m.setValue a v).live x = m.live x := rfl

@[simp] theorem node_kfree (t x : U32) : (m.kfree t).node x = m.node x := rfl

variable {m}

theorem touch_of_live {a : U32} (h : m.live a = true) : m.touch a = m := by
  rw [touch, h, if_pos rfl]

theorem node_store_of_ne {a x : U32} (h : x ≠ a) (n : ListNode) :
    (m.store a n).node x = m.node x := by
  unfold store
  split
  · rfl
  · exact Function.update_of_ne h ..

/-- A store reaches one node, and none through a NULL pointer. -/
theorem node_store_of {a x : U32} (h : a ≠ 0 → x ≠ a) (n : ListNode) :
    (m.store a n).node x = m.node x := by
  by_cases ha : a = 0
  · rw [store, if_pos ha]
  · exact node_store_of_ne (h ha) n

theorem node_store_self {a : U32} (h : a ≠ 0) (n : ListNode) : (m.store a n).node a = n := by
  unfold store
  rw [if_neg h]
  exact Function.update_self ..

theorem faults_store {a : U32} (h : m.live a = true) (n : ListNode) :
    (m.store a n).faults = m.faults := by
  show (m.touch a).faults = _
  rw [touch_of_live h]

theorem node_kcalloc_of_ne {t x : U32} (h : x ≠ t) : (m.kcalloc t).node x = m.node x :=
  Function.update_of_ne h ..

theorem node_kcalloc_self (t : U32) : (m.kcalloc t).node t = ⟨0, 0, 0⟩ := Function.update_self ..

theorem live_kcalloc (t x : U32) : (m.kcalloc t).live x = if x = t then true else m.live x :=
  Function.update_apply ..

theorem live_kfree (t x : U32) : (m.kfree t).live x = if x = t then false else m.live x :=
  Function.update_apply ..

/-! What the stores leave to read. -/

section

variable {a v x t : U32}

/-- A store that keeps a field of the node at `a` keeps it everywhere. -/
theorem field_store {β : Type} {f : ListNode → β} {n : ListNode} (h : f n = f (m.node a)) :
    f ((m.store a n).node x) = f (m.node x) := by
  by_cases hx : x = a
  · subst hx
    unfold store
    split
    · rfl
    · simp [h]
  · rw [node_store_of_ne hx]

@[simp] theorem next_setPrev : (m.setPrev a v).next x = m.next x :=
  field_store (f := ListNode.next) rfl

@[simp] theorem value_setPrev : (m.setPrev a v).value x = m.value x :=
  field_store (f := ListNode.value) rfl

@[simp] theorem prev_setNext : (m.setNext a v).prev x = m.prev x :=
  field_store (f := ListNode.prev) rfl

@[simp] theorem value_setNext : (m.setNext a v).value x = m.value x :=
  field_store (f := ListNode.value) rfl

@[simp] theorem next_setValue : (m.setValue a v).next x = m.next x :=
  field_store (f := ListNode.next) rfl

@[simp] theorem prev_setValue : (m.setValue a v).prev x = m.prev x :=
  field_store (f := ListNode.prev) rfl

theorem prev_setPrev (hx : x ≠ 0) :
    (m.setPrev a v).prev x = if x = a then v else m.prev x := by
  unfold prev setPrev
  split
  · next h =>
    subst h
    rw [node_store_self hx]
  · next h => rw [node_store_of_ne h]

theorem next_setNext (hx : x ≠ 0) :
    (m.setNext a v).next x = if x = a then v else m.next x := by
  unfold next setNext
  split
  · next h =>
    subst h
    rw [node_store_self hx]
  · next h => rw [node_store_of_ne h]

theorem value_setValue (hx : x ≠ 0) :
    (m.setValue a v).value x = if x = a then v else m.value x := by
  unfold value setValue
  split
  · next h =>
    subst h
    rw [node_store_self hx]
  · next h => rw [node_store_of_ne h]

@[simp] theorem setPrevIf_zero : m.setPrevIf 0#32 v = m := if_neg (not_not.mpr rfl)

@[simp] theorem setNextIf_zero : m.setNextIf 0#32 v = m := if_neg (not_not.mpr rfl)

theorem setPrevIf_of_ne (h : a ≠ 0) : m.setPrevIf a v = m.setPrev a v := if_pos h

theorem setNextIf_of_ne (h : a ≠ 0) : m.setNextIf a v = m.setNext a v := if_pos h

theorem node_setPrevIf_of (h : a ≠ 0 → x ≠ a) : (m.setPrevIf a v).node x = m.node x := by
  unfold setPrevIf
  split
  · exact node_store_of h _
  · rfl

theorem node_setNextIf_of (h : a ≠ 0 → x ≠ a) : (m.setNextIf a v).node x = m.node x := by
  unfold setNextIf
  split
  · exact node_store_of h _
  · rfl

@[simp] theorem next_setPrevIf : (m.setPrevIf a v).next x = m.next x := by
  by_cases h : a = 0
  · simp [h]
  · simp [setPrevIf_of_ne h]

@[simp] theorem value_setPrevIf : (m.setPrevIf a v).value x = m.value x := by
  by_cases h : a = 0
  · simp [h]
  · simp [setPrevIf_of_ne h]

@[simp] theorem live_setPrevIf : (m.setPrevIf a v).live x = m.live x := by
  by_cases h : a = 0
  · simp [h]
  · simp [setPrevIf_of_ne h]

@[simp] theorem value_setNextIf : (m.setNextIf a v).value x = m.value x := by
  by_cases h : a = 0
  · simp [h]
  · simp [setNextIf_of_ne h]

@[simp] theorem prev_setNextIf : (m.setNextIf a v).prev x = m.prev x := by
  by_cases h : a = 0
  · simp [h]
  · simp [setNextIf_of_ne h]

@[simp] theorem live_setNextIf : (m.setNextIf a v).live x = m.live x := by
  by_cases h : a = 0
  · simp [h]
  · simp [setNextIf_of_ne h]

theorem prev_setPrevIf (hx : x ≠ 0) :
    (m.setPrevIf a v).prev x = if x = a then v else m.prev x := by
  by_cases h : a = 0
  · rw [setPrevIf, if_neg (not_not.mpr h), h, if_neg hx]
  · rw [setPrevIf_of_ne h, prev_setPrev hx]

theorem next_setNextIf (hx : x ≠ 0) :
    (m.setNextIf a v).next x = if x = a then v else m.next x := by
  by_cases h : a = 0
  · rw [setNextIf, if_neg (not_not.mpr h), h, if_neg hx]
  · rw [setNextIf_of_ne h, next_setNext hx]

@[simp] theorem next_touch : (m.touch a).next x = m.next x := rfl

@[simp] theorem prev_touch : (m.touch a).prev x = m.prev x := rfl

@[simp] theorem value_touch : (m.touch a).value x = m.value x := rfl

@[simp] theorem next_kfree : (m.kfree t).next x = m.next x := rfl

@[simp] theorem prev_kfree : (m.kfree t).prev x = m.prev x := rfl

@[simp] theorem value_kfree : (m.kfree t).value x = m.value x := rfl

theorem next_kcalloc : (m.kcalloc t).next x = if x = t then 0 else m.next x := by
  unfold next
  split
  · next h => rw [h, node_kcalloc_self]
  · next h => rw [node_kcalloc_of_ne h]

theorem prev_kcalloc : (m.kcalloc t).prev x = if x = t then 0 else m.prev x := by
  unfold prev
  split
  · next h => rw [h, node_kcalloc_self]
  · next h => rw [node_kcalloc_of_ne h]

end

end Nodes

/-- What a function of `list.c` leaves behind and returns. -/
structure ListResult where
  nodes : Nodes
  list : ListT
  ret : U32

/-- `list_create` -/
def listCreate : ListT := ⟨0, 0, 0⟩

/-- `list_insert_front` -/
def listInsertFront (m : Nodes) (l : ListT) (value t : U32) : ListResult :=
  let m := m.kcalloc t
  let m := m.setPrev l.head t
  let m := m.setNext t l.head
  let m := m.setValue t value
  let l := if l.head = 0 then { l with tail := t } else l
  ⟨m, { l with head := t, size := l.size + 1 }, t⟩

/-- `list_insert_back` -/
def listInsertBack (m : Nodes) (l : ListT) (value t : U32) : ListResult :=
  let m := m.kcalloc t
  let m := m.setPrev t l.tail
  let m := m.setNextIf l.tail t
  let m := m.setValue t value
  let l := if l.head = 0 then { l with head := t } else l
  ⟨m, { l with tail := t, size := l.size + 1 }, t⟩

/-- `list_remove_front`; the tail is left as it is, also when the list becomes empty. -/
def listRemoveFront (m : Nodes) (l : ListT) : ListResult :=
  if l.head = 0 then ⟨m, l, 0⟩
  else
    let t := l.head
    let m := m.touch t
    let value := m.value t
    let l := { l with head := m.next t }
    let m := m.setPrevIf l.head 0
    ⟨m.kfree t, { l with size := l.size - 1 }, value⟩

/-- The part that `list_remove_back` and `list_pop` share: takes the last node off the list. -/
def unlinkBack (m : Nodes) (l : ListT) : Nodes × ListT :=
  let m := m.touch l.tail
  let l := { l with tail := m.prev l.tail }
  let m := m.setNextIf l.tail 0
  (m, { l with size := l.size - 1 })

/-- `list_remove_back`; the head is left as it is, also when the list becomes empty. -/
def listRemoveBack (m : Nodes) (l : ListT) : ListResult :=
  if l.head = 0 then ⟨m, l, 0⟩
  else ⟨(unlinkBack m l).1.kfree l.tail, (unlinkBack m l).2, m.value l.tail⟩

/-- `list_pop`; the node is not freed. -/
def listPop (m : Nodes) (l : ListT) : ListResult :=
  if l.head = 0 then ⟨m, l, 0⟩
  else ⟨(unlinkBack m l).1, (unlinkBack m l).2, l.tail⟩

/-- `list_remove_node` -/
def listRemoveNode (m : Nodes) (l : ListT) (n : U32) : ListResult :=
  let m := m.touch n
  let value := m.value n
  if l.head = n then listRemoveFront m l
  else if l.tail = n then listRemoveBack m l
  else
    let m := m.setPrev (m.next n) (m.prev n)
    let m := m.setNext (m.prev n) (m.next n)
    ⟨m.kfree n, { l with size := l.size - 1 }, value⟩

/-- `list_peek_front` -/
def listPeekFront (m : Nodes) (l : ListT) : ListResult :=
  if l.head = 0 then ⟨m, l, 0⟩ else ⟨m.touch l.head, l, m.value l.head⟩

/-- `list_peek_back` -/
def listPeekBack (m : Nodes) (l : ListT) : ListResult :=
  if l.tail = 0 then ⟨m, l, 0⟩ else ⟨m.touch l.tail, l, m.value l.tail⟩

/-- `list_merge`; the caller's `source` is freed. -/
def listMerge (m : Nodes) (target source : ListT) : Nodes × ListT :=
  let m := m.setPrevIf source.head target.tail
  let m := m.setNextIf target.tail source.head
  let target := if target.tail ≠ 0 then target else { target with head := source.head }
  let target := if source.tail ≠ 0 then { target with tail := source.tail } else target
  (m, { target with size := target.size + source.size })

/-- The loop of `list_get_node_by_index`, at the list node `d`. -/
def listGetFrom (m : Nodes) (index : U32) : Nat → U32 → U32 → Option U32
  | 0, _, _ => none
  | n + 1, curr, d =>
    if d = 0 then some 0
    else if index = curr then some d else listGetFrom m index n (curr + 1) (m.next d)

/-- `list_get_node_by_index` -/
def listGetNodeByIndex (m : Nodes) (l : ListT) (index : U32) : Option U32 :=
  if index ≥ l.size then some 0 else listGetFrom m index (2 ^ 32) 0 l.head

/-- `list_remove_by_index` -/
def listRemoveByIndex (m : Nodes) (l : ListT) (index : U32) : Option ListResult :=
  (listGetNodeByIndex m l index).map (listRemoveNode m l)

/-- The loop of `list_contain`, at the list node `d`. -/
def listContainFrom (m : Nodes) (value : U32) : Nat → U32 → Option U32
  | 0, _ => none
  | n + 1, d =>
    if d = 0 then some 0
    else if m.value d = value then some d else listContainFrom m value n (m.next d)

/-- `list_contain` -/
def listContain (m : Nodes) (l : ListT) (value : U32) : Option U32 :=
  listContainFrom m value (2 ^ 32) l.head

end PiggyOS
