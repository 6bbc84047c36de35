import PiggyOS.Dsa.Represents

/-!
# Lists as sequences of values

`list.c` keeps sequences of values. `Sequence m l ns vs` says that the list `l` holds the values
`vs` at the nodes `ns`; each function of `list.c` does to the values what its name says, to the same
place among the nodes, and to nothing else.
-/

namespace PiggyOS

open Infra

variable {m m' : Nodes} {l : ListT} {ns ns' vs vs' : List U32} {n t value : U32}

structure Sequence (m : Nodes) (l : ListT) (ns vs : List U32) : Prop where
  nodes : Represents m l ns
  values : ns.map m.value = vs

/-- What a call makes of a list: the nodes `ns'` with the values `vs'`, the answer `ret`, and no
other node than `touched` changed. -/
structure Becomes (m : Nodes) (r : ListResult) (touched ns' vs' : List U32) (ret : U32) : Prop where
  sequence : Sequence r.nodes r.list ns' vs'
  untouched : Untouched m r.nodes touched
  ret_eq : r.ret = ret

/-- The functions of `list.c` on a list with the values `vs`. The insertions are answered with the
fresh node `t` by `kcalloc`. -/
structure RefinesSequence (m : Nodes) (l : ListT) (ns vs : List U32) : Prop where
  insertBack : ∀ value t, m.live t = false → t ≠ 0 →
    Becomes m (listInsertBack m l value t) (t :: ns) (ns ++ [t]) (vs ++ [value]) t
  insertFront : ∀ value t, m.live t = false → t ≠ 0 → ns ≠ [] →
    Becomes m (listInsertFront m l value t) (t :: ns) (t :: ns) (value :: vs) t
  removeFront : 2 ≤ ns.length →
    Becomes m (listRemoveFront m l) ns ns.tail vs.tail (vs.headD 0)
  removeBack : 2 ≤ ns.length →
    Becomes m (listRemoveBack m l) ns ns.dropLast vs.dropLast (vs.getLastD 0)
  pop : 2 ≤ ns.length →
    Becomes m (listPop m l) ns ns.dropLast vs.dropLast (ns.getLastD 0)
  removeNode : 2 ≤ ns.length → ∀ i (hi : i < ns.length),
    Becomes m (listRemoveNode m l ns[i]) ns (ns.eraseIdx i) (vs.eraseIdx i) (vs.getD i 0)
  merge : ∀ source ss ws, Sequence m source ss ws → ns.Disjoint ss →
    Sequence (listMerge m l source).1 (listMerge m l source).2 (ns ++ ss) (vs ++ ws) ∧
      Untouched m (listMerge m l source).1 (ns ++ ss)
  getNodeByIndex : ∀ index, listGetNodeByIndex m l index = some (ns[index.toNat]?.getD 0)
  contain : ∀ value,
    listContain m l value = some ((ns.find? fun n => m.value n = value).getD 0)

/-! ## Values -/

section

variable {x : U32}

theorem value_listInsertBack (hx : x ≠ 0) : (listInsertBack m l value t).nodes.value x =
    if x = t then value else m.value x := by
  simp only [listInsertBack, Nodes.value_setValue hx, Nodes.value_setNextIf, Nodes.value_setPrev]
  by_cases h : x = t
  · simp [h]
  · simp [h, Nodes.value, Nodes.node_kcalloc_of_ne]

theorem value_unlinkBack : (unlinkBack m l).1.value x = m.value x := by
  simp [unlinkBack]

theorem value_listRemoveBack : (listRemoveBack m l).nodes.value x = m.value x := by
  unfold listRemoveBack
  split
  · rfl
  · exact value_unlinkBack

theorem value_listPop : (listPop m l).nodes.value x = m.value x := by
  unfold listPop
  split
  · rfl
  · exact value_unlinkBack

theorem value_listRemoveNode : (listRemoveNode m l n).nodes.value x = m.value x := by
  unfold listRemoveNode
  split
  · exact value_listRemoveFront x
  split
  · exact value_listRemoveBack
  · simp

theorem value_listMerge {source : ListT} : (listMerge m l source).1.value x = m.value x := by
  simp [listMerge]

/-- The values of a list whose nodes keep theirs. -/
theorem Represents.sequence (h : Represents m' l ns') (hsub : ∀ x ∈ ns', m'.value x = m.value x) :
    Sequence m' l ns' (ns'.map m.value) :=
  ⟨h, List.map_congr_left hsub⟩

end

namespace Represents

theorem becomes_insertBack (h : Represents m l ns) (ht : m.live t = false) (ht0 : t ≠ 0) :
    Becomes m (listInsertBack m l value t) (t :: ns) (ns ++ [t]) (ns.map m.value ++ [value]) t where
  sequence := by
    refine ⟨h.insertBack ht ht0, ?_⟩
    rw [List.map_append, List.map_singleton, value_listInsertBack ht0, if_pos rfl]
    congr 1
    refine List.map_congr_left fun x hx => ?_
    rw [value_listInsertBack (h.ne_null x hx), if_neg (h.ne_of_not_live ht hx)]
  untouched := h.untouched_listInsertBack
  ret_eq := rfl

theorem becomes_insertFront (h : Represents m l ns) (ht : m.live t = false) (ht0 : t ≠ 0) :
    Becomes m (listInsertFront m l value t) (t :: ns) (t :: ns) (value :: ns.map m.value) t where
  sequence := by
    refine ⟨h.insertFront ht ht0, ?_⟩
    rw [List.map_cons, value_listInsertFront ht0, if_pos rfl]
    congr 1
    refine List.map_congr_left fun x hx => ?_
    rw [value_listInsertFront (h.ne_null x hx), if_neg (h.ne_of_not_live ht hx)]
  untouched := h.untouched_listInsertFront
  ret_eq := rfl

theorem becomes_removeFront (h : Represents m l (n :: ns)) (hne : ns ≠ []) :
    Becomes m (listRemoveFront m l) (n :: ns) ns (ns.map m.value) (m.value n) where
  sequence := (h.removeFront hne).sequence fun x _ => value_listRemoveFront x
  untouched := h.untouched_listRemoveFront
  ret_eq := by
    rw [listRemoveFront_of_head (h.head_ne_zero (List.cons_ne_nil n ns))]
    exact congrArg m.value h.head

theorem tail_eq (h : Represents m l (ns ++ [n])) : l.tail = n := by
  rw [h.tail, getLastD_append]
  rfl

theorem becomes_removeBack (h : Represents m l (ns ++ [n])) (hne : ns ≠ []) :
    Becomes m (listRemoveBack m l) (ns ++ [n]) ns (ns.map m.value) (m.value n) where
  sequence := (h.removeBack hne).sequence fun _ _ => value_listRemoveBack
  untouched := h.untouched_listRemoveBack
  ret_eq := by
    rw [listRemoveBack, if_neg (h.head_ne_zero (by simp)), h.tail_eq]

theorem becomes_pop (h : Represents m l (ns ++ [n])) (hne : ns ≠ []) :
    Becomes m (listPop m l) (ns ++ [n]) ns (ns.map m.value) n where
  sequence := (h.pop hne).sequence fun _ _ => value_listPop
  untouched := h.untouched_listPop
  ret_eq := by
    rw [listPop, if_neg (h.head_ne_zero (by simp)), h.tail_eq]

/-- The value that is returned is read before the list changes. -/
theorem ret_listRemoveNode (h : Represents m l ns) (hn : n ∈ ns) :
    (listRemoveNode m l n).ret = m.value n := by
  have h0 : l.head ≠ 0 := h.head_ne_zero (List.ne_nil_of_mem hn)
  by_cases hhead : l.head = n
  · rw [listRemoveNode, if_pos hhead, listRemoveFront_of_head h0]
    exact congrArg m.value hhead
  by_cases htail : l.tail = n
  · rw [listRemoveNode, if_neg hhead, if_pos htail, listRemoveBack, if_neg h0]
    exact congrArg m.value htail
  · rw [h.removeNode_eq hn hhead htail]

theorem becomes_removeNode {xs ys : List U32} (h : Represents m l (xs ++ n :: ys))
    (hne : xs ++ ys ≠ []) :
    Becomes m (listRemoveNode m l n) (xs ++ n :: ys) (xs ++ ys) ((xs ++ ys).map m.value)
      (m.value n) where
  sequence := (h.removeNode hne).sequence fun _ _ => value_listRemoveNode
  untouched := h.untouched_listRemoveNode (by simp)
  ret_eq := h.ret_listRemoveNode (by simp)

end Represents

/-! ## Search -/

/-- The loop stops at the first node with the value, or at the end. -/
theorem listContainFrom_spec {p : U32} {k : Nat} (hl : Linked m.next m.prev p ns 0)
    (hk : ns.length < k) (hne : ∀ x ∈ ns, x ≠ 0) :
    listContainFrom m value k (ns.headD 0) =
      some ((ns.find? fun n => m.value n = value).getD 0) := by
  induction ns generalizing p k with
  | nil =>
    obtain ⟨k, rfl⟩ := Nat.exists_eq_succ_of_ne_zero (Nat.ne_of_gt hk)
    rfl
  | cons x ns ih =>
    obtain ⟨k, rfl⟩ := Nat.exists_eq_succ_of_ne_zero (Nat.ne_of_gt (Nat.zero_lt_of_lt hk))
    obtain ⟨-, hnext, hrest⟩ := hl
    rw [List.headD_cons, listContainFrom, if_neg (hne x List.mem_cons_self), hnext]
    by_cases hv : m.value x = value
    · rw [if_pos hv, List.find?_cons_of_pos (by simpa using hv)]
      rfl
    · rw [if_neg hv, List.find?_cons_of_neg (by simpa using hv)]
      exact ih hrest (Nat.lt_of_succ_lt_succ hk) fun y hy => hne y (List.mem_cons_of_mem _ hy)

/-- `list_contain` gives the first node with the value, or NULL. -/
theorem Represents.listContain (h : Represents m l ns) (value : U32) :
    listContain m l value = some ((ns.find? fun n => m.value n = value).getD 0) := by
  rw [PiggyOS.listContain, h.head]
  exact listContainFrom_spec h.linked (length_lt_of_nodup h.nodup h.ne_null) h.ne_null

/-! ## All functions -/

/-- **The functions of `list.c` work on sequences.** -/
theorem Sequence.refinesSequence (h : Sequence m l ns vs) : RefinesSequence m l ns vs := by
  obtain ⟨h, rfl⟩ := h
  refine {
    insertBack := fun _ _ ht ht0 => h.becomes_insertBack ht ht0
    insertFront := fun _ _ ht ht0 _ => h.becomes_insertFront ht ht0
    removeFront := fun h2 => ?_
    removeBack := fun h2 => ?_
    pop := fun h2 => ?_
    removeNode := fun h2 i hi => ?_
    merge := fun source ss ws hs hd => ?_
    getNodeByIndex := h.listGetNodeByIndex
    contain := h.listContain }
  · obtain ⟨n, ns, rfl⟩ := List.exists_cons_of_length_pos (show 0 < ns.length by omega)
    refine h.becomes_removeFront ?_
    rintro rfl
    simp at h2
  · obtain ⟨ns, n, rfl, hne⟩ := h.exists_dropBack h2
    rw [List.map_append, List.dropLast_concat, List.map_singleton, List.dropLast_concat,
      getLastD_append]
    exact h.becomes_removeBack hne
  · obtain ⟨ns, n, rfl, hne⟩ := h.exists_dropBack h2
    rw [List.dropLast_concat, List.map_append, List.map_singleton, List.dropLast_concat,
      getLastD_append]
    exact h.becomes_pop hne
  · have hsplit : ns.take i ++ ns[i] :: ns.drop (i + 1) = ns := by
      rw [← List.drop_eq_getElem_cons hi, List.take_append_drop]
    have hne : ns.take i ++ ns.drop (i + 1) ≠ [] := by
      intro hnil
      have hlen := congrArg List.length hnil
      simp only [List.length_append, List.length_take, List.length_drop, List.length_nil] at hlen
      omega
    have hret : (ns.map m.value).getD i 0 = m.value ns[i] := by simp [hi]
    rw [hret, List.eraseIdx_map, List.eraseIdx_eq_take_drop_succ]
    have hremove := (hsplit.symm ▸ h).becomes_removeNode hne
    rwa [hsplit] at hremove
  · obtain ⟨hs, rfl⟩ := hs
    refine ⟨⟨h.merge hs hd, ?_⟩, h.untouched_listMerge hs⟩
    rw [← List.map_append]
    exact List.map_congr_left fun _ _ => value_listMerge

/-- Two nodes in a list. -/
def pairNodes : Nodes where
  node := fun a => if a = 0x10 then ⟨0, 0x20, 7⟩ else if a = 0x20 then ⟨0x10, 0, 8⟩ else ⟨0, 0, 0⟩
  live := fun a => a = 0x10 || a = 0x20
  faults := []
  frees := []

theorem represents_pairNodes : Represents pairNodes ⟨0x10, 0x20, 2⟩ [0x10, 0x20] where
  head := rfl
  tail := rfl
  size := rfl
  linked := ⟨rfl, rfl, rfl, rfl, trivial⟩
  nodup := by simp
  live := by simp [pairNodes]
  ne_null := by simp

theorem refines_pairNodes : Sequence pairNodes ⟨0x10, 0x20, 2⟩ [0x10, 0x20] [7, 8] ∧
    RefinesSequence pairNodes ⟨0x10, 0x20, 2⟩ [0x10, 0x20] [7, 8] :=
  have h : Sequence pairNodes ⟨0x10, 0x20, 2⟩ [0x10, 0x20] [7, 8] := ⟨represents_pairNodes, rfl⟩
  ⟨h, h.refinesSequence⟩

end PiggyOS
