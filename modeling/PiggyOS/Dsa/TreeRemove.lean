import PiggyOS.Dsa.NullAccess
import PiggyOS.Dsa.TreeQueries

/-!
# Removal from trees

A removal takes a node off the list of its parent and then frees its descendants, or gives its
children another parent and merges them into the list of that one. Each part is a lemma about the
forest that the memory holds.

* `TreeRep.removeFromParent` — the node is off the list
* `TreeRep.treeNodeFree` — its descendants are freed
* `TreeRep.setParents`, `TreeRep.mergeChildren` — its children have another parent
-/

namespace PiggyOS

open Infra

variable {m m' : TreeMem} {t : TreeT} {F G K : Forest U32} {cells cells' : U32 → List U32}
  {a b c d p q v x y : U32} {ks ls vs touched : List U32} {ns : Nodes} {l : ListT} {n : Nat}

/-! ## Frames -/

@[simp] theorem node_putList (c : U32) (ns : Nodes) (l : ListT) :
    (m.putList c ns l).node = m.node := rfl

@[simp] theorem live_putList (c : U32) (ns : Nodes) (l : ListT) :
    (m.putList c ns l).live = m.live := rfl

theorem childList_putList_self (h : (m.node a).children = c) :
    (m.putList c ns l).childList a = l := by
  unfold TreeMem.childList TreeMem.putList
  rw [h]
  exact Function.update_self ..

theorem childList_putList_of_ne (h : (m.node a).children ≠ c) :
    (m.putList c ns l).childList a = m.childList a :=
  Function.update_of_ne h ..

/-- A list whose nodes are not touched. -/
theorem Sequence.of_untouched {nodes nodes' : Nodes} {xs : List U32} (h : Sequence nodes l xs vs)
    (hu : Untouched nodes nodes' touched) (hd : xs.Disjoint touched) : Sequence nodes' l xs vs := by
  refine ⟨h.nodes.of_untouched hu hd, ?_⟩
  rw [← h.values]
  exact List.map_congr_left fun x hx => congrArg ListNode.value (hu x (hd hx)).1

/-- A node of which neither the list nor the list nodes are touched. -/
theorem NodeRep.putList (h : NodeRep m cells a ks) (hne : (m.node a).children ≠ c)
    (hu : Untouched m.nodes ns touched) (hd : (cells a).Disjoint touched)
    (hcells : cells' a = cells a) : NodeRep (m.putList c ns l) cells' a ks where
  ne_null := h.ne_null
  live := h.live
  children_ne := h.children_ne
  kids := by
    rw [hcells, childList_putList_of_ne hne]
    exact h.kids.of_untouched hu hd
  parent := h.parent

/-- A node that gets another child list. -/
theorem NodeRep.putList_self (h : NodeRep m cells a ks) (hc : (m.node a).children = c)
    (hseq : Sequence ns l (cells' a) ls) (hparent : ∀ y ∈ ls, (m.node y).parent = a) :
    NodeRep (m.putList c ns l) cells' a ls where
  ne_null := h.ne_null
  live := h.live
  children_ne := h.children_ne
  kids := by
    rw [childList_putList_self hc]
    exact hseq
  parent := hparent

/-! ## Taking a child off the list of its parent -/

/-- The list node of the child `y`. -/
theorem Sequence.find {nodes : Nodes} {xs : List U32} (h : Sequence nodes l xs vs) (hnd : vs.Nodup)
    (hy : y ∈ vs) : ∃ us c ws, xs = us ++ c :: ws ∧ nodes.value c = y ∧
      listContain nodes l y = some c ∧ (us ++ ws).map nodes.value = vs.erase y := by
  obtain ⟨hrep, rfl⟩ := h
  obtain ⟨c, hc⟩ : ∃ c, xs.find? (fun n => nodes.value n = y) = some c := by
    rw [← Option.isSome_iff_exists, List.find?_isSome]
    obtain ⟨c, hc, hv⟩ := List.mem_map.mp hy
    exact ⟨c, hc, decide_eq_true hv⟩
  have hv : nodes.value c = y := by simpa using List.find?_some hc
  obtain ⟨us, ws, rfl⟩ := List.append_of_mem (List.mem_of_find?_eq_some hc)
  refine ⟨us, c, ws, rfl, hv, ?_, ?_⟩
  · rw [hrep.listContain, hc]
    rfl
  · rw [List.map_append, List.map_cons, hv] at hnd
    have hus : y ∉ us.map nodes.value := fun hm =>
      (List.nodup_append.mp hnd).2.2 y hm y List.mem_cons_self rfl
    rw [List.map_append, List.map_append, List.map_cons, hv, List.erase_append_right _ hus,
      List.erase_cons_head]

/-- The payload `y` is another child or the node itself: the child `y` is taken out, as long as it
is not the only one. -/
theorem TreeRep.removeFromParent (h : TreeRep m F cells) (hp : (p, ks) ∈ F.entries) (hy : y ∈ ks)
    (hv : (m.node x).value = y) (h2 : 2 ≤ ks.length) :
    ∃ ns l cells', removeFromParent m p x = some (m.putList (m.node p).children ns l) ∧
      TreeRep (m.putList (m.node p).children ns l) (F.split p y) cells' ∧
      ns.faults = m.nodes.faults ∧ ns.live 0 = m.nodes.live 0 := by
  have hpn := Forest.mem_nodes_of_entry hp
  have hnode := h.node p ks hp
  obtain ⟨us, c, ws, hcells, hval, hfind, herase⟩ :=
    hnode.kids.find (Forest.kids_nodup h.nodup hp) hy
  have hrep : Represents m.nodes (m.childList p) (us ++ c :: ws) := hcells ▸ hnode.kids.nodes
  have hlen : (us ++ c :: ws).length = ks.length := by
    rw [← hcells, ← hnode.kids.values, List.length_map]
  -- another child is left, so that the list does not become empty
  have hne : us ++ ws ≠ [] := by
    intro hnil
    obtain ⟨rfl, rfl⟩ := List.append_eq_nil_iff.mp hnil
    rw [← hlen] at h2
    simp at h2
  obtain ⟨hseq, hu, -⟩ := hrep.becomes_removeNode hne
  rw [herase] at hseq
  rw [← hcells] at hu
  have hc : c ∈ us ++ c :: ws := by simp
  have h0 : (0 : U32) ∉ cells p := fun h0 => hnode.kids.nodes.ne_null 0 h0 rfl
  -- the cells are those of before, without the one of `y`
  have hsub : ∀ a, Function.update cells p (us ++ ws) a ⊆ cells a := by
    intro a
    by_cases hap : a = p
    · subst hap
      rw [Function.update_self, hcells]
      intro z hz
      rcases List.mem_append.mp hz with hz | hz
      · exact List.mem_append_left _ hz
      · exact List.mem_append_right _ (List.mem_cons_of_mem c hz)
    · rw [Function.update_of_ne hap]
      exact List.Subset.refl _
  have hmem (a : U32) : a ∈ (F.split p y).nodes ↔ a ∈ F.nodes :=
    (Forest.nodes_split h.nodup hp hy).mem_iff.symm
  refine ⟨_, (listRemoveNode m.nodes (m.childList p) c).list,
    Function.update cells p (us ++ ws), ?_, ⟨?_, ?_, ?_, ?_⟩, hrep.faults_listRemoveNode hc,
    (hu 0 h0).2⟩
  · rw [PiggyOS.removeFromParent, hv, hfind]
    rfl
  · exact (Forest.nodes_split h.nodup hp hy).nodup_iff.mp h.nodup
  · intro a ls ha
    rcases Forest.entries_split h.nodup hp hy ha with ⟨rfl, rfl⟩ | ⟨hap, ha⟩
    · refine hnode.putList_self rfl ?_ fun z hz => hnode.parent z (List.mem_of_mem_erase hz)
      rw [Function.update_self]
      exact hseq
    · have han := Forest.mem_nodes_of_entry ha
      exact (h.node a ls ha).putList (fun heq => hap (h.lists_ne a han p hpn heq)) hu
        (h.cells_disjoint a han p hpn hap) (Function.update_of_ne hap ..)
  · intro a ha b hb
    exact h.lists_ne a ((hmem a).mp ha) b ((hmem b).mp hb)
  · intro a ha b hb hab
    exact List.disjoint_of_subset_left (hsub a) (List.disjoint_of_subset_right (hsub b)
      (h.cells_disjoint a ((hmem a).mp ha) b ((hmem b).mp hb) hab))

/-! ## Freeing a tree -/

/-- The trees that are left are freed, node by node. -/
theorem nodeFreeFrom_spec (h : AllRep m cells G) (hd : Leads m d G)
    (hn : 2 * G.nodes.length < n) (live : U32 → Bool) :
    nodeFreeFrom n { m with live } d =
      some { m with live := fun a => if a ∈ G.nodes then false else live a } := by
  induction G generalizing n d live with
  | nil =>
    obtain ⟨n, rfl⟩ := Nat.exists_eq_succ_of_ne_zero (Nat.ne_of_gt hn)
    rw [nodeFreeFrom, if_pos hd.nil]
    simp [Forest.nodes]
  | tree a kids rest ihk ihr =>
    obtain ⟨hnode, hkids, hrest⟩ := h.tree
    obtain ⟨hd0, hv, hnext⟩ := hd.tree
    rw [length_nodes_tree] at hn
    obtain ⟨n, rfl⟩ : ∃ k, n = k + 2 := ⟨n - 2, by omega⟩
    have hcall : nodeFree (n + 1) { m with live } a = some { m with
        live := Function.update (fun b => if b ∈ kids.nodes then false else live b) a false } := by
      rw [nodeFree, if_neg hnode.ne_null]
      show (nodeFreeFrom n { m with live } (m.childList a).head).bind _ = _
      rw [ihk hkids hnode.leads (by omega)]
      rfl
    rw [nodeFreeFrom, if_neg hd0]
    show (nodeFree (n + 1) { m with live } (m.nodes.value d)).bind _ = _
    rw [hv, hcall]
    show nodeFreeFrom (n + 1) { m with live := _ } (m.nodes.next d) = _
    rw [ihr hrest hnext (by omega)]
    congr 2
    funext b
    by_cases hba : b = a
    · simp [Forest.nodes, hba]
    · by_cases hbr : b ∈ rest.nodes <;> simp [Forest.nodes, hba, hbr]

theorem TreeRep.treeNodeFree (h : TreeRep m F cells) (hx : x ∈ F.nodes) :
    treeNodeFree m x = some { m with
      live := fun a => if a ∈ x :: (F.under x).nodes then false else m.live a } := by
  obtain ⟨hnode, hall⟩ := h.under hx
  obtain ⟨n, hn, hlt⟩ := h.rounds x
  rw [PiggyOS.treeNodeFree, hn, nodeFree, if_neg hnode.ne_null,
    nodeFreeFrom_spec hall hnode.leads hlt m.live]
  show some (TreeMem.free _ x) = _
  unfold TreeMem.free
  congr 2
  funext a
  by_cases hax : a = x
  · simp [hax]
  · simp [hax]

/-- Freeing changes nothing but what is in use. -/
theorem nodeFree_frame (n : Nat) : (∀ m a m', nodeFree n m a = some m' →
      m'.nodes = m.nodes ∧ m'.lists = m.lists ∧ m'.node = m.node) ∧
    ∀ m d m', nodeFreeFrom n m d = some m' →
      m'.nodes = m.nodes ∧ m'.lists = m.lists ∧ m'.node = m.node := by
  induction n with
  | zero => simp [nodeFree, nodeFreeFrom]
  | succ n ih =>
    constructor
    · intro m a m' h
      rw [nodeFree] at h
      split at h
      · obtain rfl := Option.some.inj h
        exact ⟨rfl, rfl, rfl⟩
      · obtain ⟨m1, h1, h2⟩ := Option.bind_eq_some_iff.mp h
        obtain rfl := Option.some.inj h2
        exact ih.2 m _ m1 h1
    · intro m d m' h
      rw [nodeFreeFrom] at h
      split at h
      · obtain rfl := Option.some.inj h
        exact ⟨rfl, rfl, rfl⟩
      · obtain ⟨m1, h1, h2⟩ := Option.bind_eq_some_iff.mp h
        obtain ⟨hn1, hl1, ht1⟩ := ih.1 m _ m1 h1
        obtain ⟨hn2, hl2, ht2⟩ := ih.2 m1 _ m' h2
        exact ⟨hn2.trans hn1, hl2.trans hl1, ht2.trans ht1⟩

/-! ## New parents -/

/-- The children of a node get the parent `q`. -/
def reparented (node : U32 → TreeNode) (q : U32) (ks : List U32) (a : U32) : TreeNode :=
  if ks.contains a then { node a with parent := q } else node a

theorem children_reparented (node : U32 → TreeNode) (q : U32) (ks : List U32) (a : U32) :
    (reparented node q ks a).children = (node a).children := by
  unfold reparented
  split <;> rfl

theorem reparented_of_not_mem {node : U32 → TreeNode} {a : U32} (ha : a ∉ ks) :
    reparented node q ks a = node a :=
  if_neg (by simpa using ha)

theorem reparented_of_mem {node : U32 → TreeNode} {a : U32} (ha : a ∈ ks) :
    reparented node q ks a = { node a with parent := q } :=
  if_pos (by simpa using ha)

theorem value_reparented (node : U32 → TreeNode) (q : U32) (ks : List U32) (a : U32) :
    (reparented node q ks a).value = (node a).value := by
  unfold reparented
  split <;> rfl

theorem setParents_spec {us : List U32} (hl : Linked m.nodes.next m.nodes.prev p us 0)
    (hn : us.length < n) (hne : ∀ c ∈ us, c ≠ 0) (node : U32 → TreeNode) :
    setParents q n { m with node } (us.headD 0) =
      some { m with node := reparented node q (us.map m.nodes.value) } := by
  induction us generalizing p n node with
  | nil =>
    obtain ⟨n, rfl⟩ := Nat.exists_eq_succ_of_ne_zero (Nat.ne_of_gt hn)
    rfl
  | cons c us ih =>
    obtain ⟨n, rfl⟩ := Nat.exists_eq_succ_of_ne_zero (Nat.ne_of_gt (Nat.zero_lt_of_lt hn))
    obtain ⟨-, hnext, hrest⟩ := hl
    rw [List.headD_cons, setParents, if_neg (hne c List.mem_cons_self)]
    show setParents q n { m with node := _ } (m.nodes.next c) = _
    rw [hnext, ih hrest (Nat.lt_of_succ_lt_succ hn) fun z hz => hne z (List.mem_cons_of_mem _ hz)]
    congr 2
    funext a
    unfold reparented
    by_cases hav : a = m.nodes.value c
    · simp [hav]
    · by_cases har : a ∈ us.map m.nodes.value <;> simp [hav, har]

theorem TreeRep.setParents (h : TreeRep m F cells) (hx : (x, ks) ∈ F.entries) (q : U32) :
    setParents q (2 ^ 32) m (m.childList x).head =
      some { m with node := reparented m.node q ks } := by
  have hrep := (h.node x ks hx).kids.nodes
  have hspec := setParents_spec (q := q) hrep.linked
    (length_lt_of_nodup hrep.nodup hrep.ne_null) hrep.ne_null m.node
  rwa [← hrep.head, (h.node x ks hx).kids.values] at hspec

theorem setParents_frame (h : PiggyOS.setParents q n m d = some m') :
    m'.nodes = m.nodes ∧ m'.lists = m.lists ∧
      ∀ a, (m'.node a).children = (m.node a).children := by
  induction n generalizing m d with
  | zero => simp [PiggyOS.setParents] at h
  | succ n ih =>
    rw [PiggyOS.setParents] at h
    split at h
    · obtain rfl := Option.some.inj h
      exact ⟨rfl, rfl, fun _ => rfl⟩
    · obtain ⟨hn, hl, hc⟩ := ih h
      refine ⟨hn, hl, fun a => (hc a).trans ?_⟩
      unfold TreeMem.setParent
      by_cases ha : a = m.nodes.value d
      · simp [ha]
      · simp [ha]

/-! ## Merging the children -/

/-- A merge goes through nodes of the two lists. -/
theorem Represents.faults_listMerge {nodes : Nodes} {target source : ListT} {ts ss : List U32}
    (ht : Represents nodes target ts) (hs : Represents nodes source ss) :
    (listMerge nodes target source).1.faults = nodes.faults := by
  have hhead : (nodes.setPrevIf source.head target.tail).faults = nodes.faults := by
    unfold Nodes.setPrevIf
    split
    · next h0 => exact Nodes.faults_store (hs.live_head (hs.ne_nil_of_head h0)) _
    · rfl
  simp only [listMerge]
  rw [Nodes.faults_setNextIf, hhead]
  intro h0
  rw [Nodes.live_setPrevIf]
  exact ht.live_tail (mt ht.tail_eq_zero_iff.mpr h0)

/-- The list of the children of `q` and `x`. -/
theorem TreeRep.mergeChildren (h : TreeRep m F cells) (hq : (q, ks) ∈ F.entries)
    (hx : (x, ls) ∈ F.entries) (hqx : q ≠ x) :
    Sequence (listMerge m.nodes (m.childList q) (m.childList x)).1
        (listMerge m.nodes (m.childList q) (m.childList x)).2 (cells q ++ cells x) (ks ++ ls) ∧
      Untouched m.nodes (listMerge m.nodes (m.childList q) (m.childList x)).1
        (cells q ++ cells x) ∧
      (listMerge m.nodes (m.childList q) (m.childList x)).1.faults = m.nodes.faults := by
  obtain ⟨hrq, hvq⟩ := (h.node q ks hq).kids
  obtain ⟨hrx, hvx⟩ := (h.node x ls hx).kids
  have hqn := Forest.mem_nodes_of_entry hq
  have hxn := Forest.mem_nodes_of_entry hx
  have hdisj := h.cells_disjoint q hqn x hxn hqx
  refine ⟨⟨hrq.merge hrx hdisj, ?_⟩, hrq.untouched_listMerge hrx, hrq.faults_listMerge hrx⟩
  rw [← hvq, ← hvx, ← List.map_append]
  exact List.map_congr_left fun _ _ => value_listMerge

/-- The memory after the node `x` has given its children `ls` to `q`. -/
def adopted (m : TreeMem) (q x : U32) (ls : List U32) : TreeMem :=
  let r := listMerge m.nodes (m.childList q) (m.childList x)
  { m.putList (m.node q).children r.1 r.2 with
    node := reparented m.node q ls
    live := Function.update m.live x false }

theorem children_adopted (a : U32) :
    ((adopted m q x ls).node a).children = (m.node a).children :=
  children_reparented ..

theorem childList_adopted_self : (adopted m q x ls).childList q =
    (listMerge m.nodes (m.childList q) (m.childList x)).2 := by
  unfold TreeMem.childList
  rw [children_adopted]
  exact Function.update_self ..

/-- A node that keeps its list but may get another parent. -/
theorem NodeRep.congr_node {node : U32 → TreeNode} {live : U32 → Bool}
    (h : NodeRep m cells a ks) (hchildren : (node a).children = (m.node a).children)
    (hparent : ∀ y ∈ ks, (node y).parent = a) (hlive : live a = true) :
    NodeRep { m with node, live } cells a ks where
  ne_null := h.ne_null
  live := hlive
  children_ne := by
    show (node a).children ≠ 0
    rw [hchildren]
    exact h.children_ne
  kids := by
    show Sequence m.nodes (m.lists (node a).children) (cells a) ks
    rw [hchildren]
    exact h.kids
  parent := hparent

section

variable {as : List U32} (h : TreeRep m F cells) (hq : (q, ks) ∈ F.entries)
  (hx : (x, ls) ∈ F.entries)

include h hq hx

theorem TreeRep.disjoint_adopted (ha : a ∈ F.nodes) (haq : a ≠ q) (hax : a ≠ x) :
    (cells a).Disjoint (cells q ++ cells x) := by
  rw [List.disjoint_append_right]
  exact ⟨h.cells_disjoint a ha q (Forest.mem_nodes_of_entry hq) haq,
    h.cells_disjoint a ha x (Forest.mem_nodes_of_entry hx) hax⟩

/-- The node that gets the children. -/
theorem TreeRep.adopted_self (hqx : q ≠ x) :
    NodeRep (adopted m q x ls) (Function.update cells q (cells q ++ cells x)) q (ks ++ ls) := by
  obtain ⟨hseq, -, -⟩ := h.mergeChildren hq hx hqx
  have hrep := h.node q ks hq
  exact {
    ne_null := hrep.ne_null
    live := (Function.update_of_ne hqx ..).trans hrep.live
    children_ne := by
      rw [children_adopted]
      exact hrep.children_ne
    kids := by
      rw [Function.update_self, childList_adopted_self]
      exact hseq
    parent := fun y hy => by
      show (reparented m.node q ls y).parent = q
      by_cases hyls : y ∈ ls
      · rw [reparented_of_mem hyls]
      · rw [reparented_of_not_mem hyls]
        exact hrep.parent y ((List.mem_append.mp hy).resolve_right hyls) }

/-- A node with the list it had. -/
theorem TreeRep.adopted_of_ne (hqx : q ≠ x) (ha : (a, as) ∈ F.entries) (haq : a ≠ q)
    (hax : a ≠ x) :
    NodeRep (adopted m q x ls) (Function.update cells q (cells q ++ cells x)) a as := by
  obtain ⟨-, hu, -⟩ := h.mergeChildren hq hx hqx
  have hrep := h.node a as ha
  have han := Forest.mem_nodes_of_entry ha
  have hne : (m.node a).children ≠ (m.node q).children := fun heq =>
    haq (h.lists_ne a han q (Forest.mem_nodes_of_entry hq) heq)
  refine (hrep.putList hne hu (h.disjoint_adopted hq hx han haq hax)
    (Function.update_of_ne haq ..)).congr_node (children_reparented ..) ?_ ?_
  · intro y hy
    have hyls : y ∉ ls := fun hyls =>
      hax ((hrep.parent y hy).symm.trans ((h.node x ls hx).parent y hyls))
    show (reparented m.node q ls y).parent = a
    rw [reparented_of_not_mem hyls]
    exact hrep.parent y hy
  · rw [Function.update_of_ne hax]
    exact hrep.live

/-- The list nodes of different nodes stay apart. -/
theorem TreeRep.cells_disjoint_adopted (ha : a ∈ F.nodes) (hax : a ≠ x) (hb : b ∈ F.nodes)
    (hbx : b ≠ x) (hab : a ≠ b) :
    (Function.update cells q (cells q ++ cells x) a).Disjoint
      (Function.update cells q (cells q ++ cells x) b) := by
  by_cases haq : a = q
  · rw [haq, Function.update_self, Function.update_of_ne (haq ▸ hab.symm)]
    exact List.disjoint_symm (h.disjoint_adopted hq hx hb (haq ▸ hab.symm) hbx)
  by_cases hbq : b = q
  · rw [hbq, Function.update_self, Function.update_of_ne haq]
    exact h.disjoint_adopted hq hx ha haq hax
  · rw [Function.update_of_ne haq, Function.update_of_ne hbq]
    exact h.cells_disjoint a ha b hb hab

end

/-- `q` has the children of `x` behind its own. -/
theorem TreeRep.adopt (h : TreeRep m (G.append (Forest.tree x K Forest.nil)) cells)
    (hq : (q, ks) ∈ G.entries) :
    TreeRep (adopted m q x K.roots) (G.graft q K)
      (Function.update cells q (cells q ++ cells x)) := by
  have hnodes : (G.append (Forest.tree x K Forest.nil)).nodes = G.nodes ++ x :: K.nodes := by
    rw [Forest.nodes_append, Forest.nodes, Forest.nodes, List.append_nil]
  have hentries : (G.append (Forest.tree x K Forest.nil)).entries =
      G.entries ++ (x, K.roots) :: K.entries := by
    rw [Forest.entries_append, Forest.entries, Forest.entries, List.append_nil]
  have hnd := h.nodup
  rw [hnodes] at hnd
  obtain ⟨hndG, hndx, hdisj⟩ := List.nodup_append.mp hnd
  obtain ⟨hxK, hndK⟩ := List.nodup_cons.mp hndx
  have hqG := Forest.mem_nodes_of_entry hq
  have hperm : (G.graft q K).nodes.Perm (G.nodes ++ K.nodes) := Forest.nodes_graft K hqG
  have hq' : (q, ks) ∈ (G.append (Forest.tree x K Forest.nil)).entries := by
    rw [hentries]
    exact List.mem_append_left _ hq
  have hx' : (x, K.roots) ∈ (G.append (Forest.tree x K Forest.nil)).entries := by
    rw [hentries]
    exact List.mem_append_right _ List.mem_cons_self
  -- the nodes that are left were there and are not `x`
  have hold : ∀ a ∈ (G.graft q K).nodes,
      a ∈ (G.append (Forest.tree x K Forest.nil)).nodes ∧ a ≠ x := by
    intro a ha
    rw [hnodes]
    rcases List.mem_append.mp (hperm.mem_iff.mp ha) with ha | ha
    · refine ⟨List.mem_append_left _ ha, ?_⟩
      rintro rfl
      exact hdisj a ha a List.mem_cons_self rfl
    · refine ⟨List.mem_append_right _ (List.mem_cons_of_mem x ha), ?_⟩
      rintro rfl
      exact hxK ha
  have hqx := (hold q (hperm.mem_iff.mpr (List.mem_append_left _ hqG))).2
  refine ⟨hperm.nodup_iff.mpr (List.nodup_append.mpr ⟨hndG, hndK, fun a ha b hb =>
    hdisj a ha b (List.mem_cons_of_mem x hb)⟩), ?_, ?_, ?_⟩
  · intro a as ha
    have hax := (hold a (Forest.mem_nodes_of_entry ha)).2
    rcases Forest.entries_graft hndG hq ha with ⟨rfl, rfl⟩ | haK | ⟨haq, haG⟩
    · exact h.adopted_self hq' hx' hqx
    · have haq : a ≠ q := by
        rintro rfl
        exact hdisj a hqG a (List.mem_cons_of_mem x (Forest.mem_nodes_of_entry haK)) rfl
      refine h.adopted_of_ne hq' hx' hqx ?_ haq hax
      rw [hentries]
      exact List.mem_append_right _ (List.mem_cons_of_mem _ haK)
    · refine h.adopted_of_ne hq' hx' hqx ?_ haq hax
      rw [hentries]
      exact List.mem_append_left _ haG
  · intro a ha b hb heq
    rw [children_adopted, children_adopted] at heq
    exact h.lists_ne a (hold a ha).1 b (hold b hb).1 heq
  · intro a ha b hb hab
    exact h.cells_disjoint_adopted hq' hx' (hold a ha).1 (hold a ha).2 (hold b hb).1 (hold b hb).2
      hab

/-! ## What the calls do -/

theorem mergeChildren_eq (node : U32 → TreeNode)
    (h : ∀ a, (node a).children = (m.node a).children) :
    (PiggyOS.mergeChildren { m with node } q x).free x =
      { m.putList (m.node q).children (listMerge m.nodes (m.childList q) (m.childList x)).1
          (listMerge m.nodes (m.childList q) (m.childList x)).2 with
        node, live := Function.update m.live x false } := by
  unfold PiggyOS.mergeChildren TreeMem.childList
  simp only [h]
  rfl

/-- The last part of `tree_remove` and `tree_remove_reparent_root`, once the node is off the list of
its parent. -/
theorem TreeRep.removeNodeTo (h : TreeRep m' F cells) (hx : (x, ls) ∈ F.entries)
    (hrun : PiggyOS.removeFromParent m (m.node x).parent x = some m') :
    removeNodeTo m t q x = some (adopted m' q x ls, { t with nodes := t.nodes - 1 }) := by
  unfold PiggyOS.removeNodeTo
  rw [hrun]
  show (PiggyOS.setParents q (2 ^ 32) m' (m'.childList x).head).bind _ = _
  rw [h.setParents hx q]
  exact congrArg (fun m => some (m, _)) (mergeChildren_eq _ (children_reparented m'.node q ls))

/-- The same for any memory: the list of a node is that of the merge or the one before. -/
theorem removeNodeTo_frame {t' : TreeT} (h : PiggyOS.removeNodeTo m t q x = some (m', t')) :
    ∃ m1, PiggyOS.removeFromParent m (m.node x).parent x = some m1 ∧
      m'.nodes = (listMerge m1.nodes (m1.childList q) (m1.childList x)).1 ∧
      ∀ a, m'.childList a = if (m1.node a).children = (m1.node q).children
        then (listMerge m1.nodes (m1.childList q) (m1.childList x)).2 else m1.childList a := by
  obtain ⟨m1, hrun, h⟩ := Option.bind_eq_some_iff.mp h
  obtain ⟨m2, hset, h⟩ := Option.bind_eq_some_iff.mp h
  obtain ⟨rfl, -⟩ := Prod.mk.inj (Option.some.inj h)
  obtain ⟨hn, hl, hc⟩ := setParents_frame hset
  have hlist (a : U32) : m2.childList a = m1.childList a := by
    unfold TreeMem.childList
    rw [hl, hc]
  refine ⟨m1, hrun, ?_, fun a => ?_⟩
  · show (listMerge m2.nodes (m2.childList q) (m2.childList x)).1 = _
    rw [hn, hlist, hlist]
  · show Function.update m2.lists (m2.node q).children
      (listMerge m2.nodes (m2.childList q) (m2.childList x)).2 (m2.node a).children = _
    rw [Function.update_apply, hn, hlist, hlist, hl, hc, hc]
    rfl

theorem treeNodeParentRemove_frame {t' : TreeT}
    (h : treeNodeParentRemove m t p x = some (m', t')) :
    ∃ m1, PiggyOS.removeFromParent m p x = some m1 ∧ m'.nodes = m1.nodes ∧
      ∀ a, m'.childList a = m1.childList a := by
  obtain ⟨k, -, h⟩ := Option.bind_eq_some_iff.mp h
  obtain ⟨m1, hrun, h⟩ := Option.bind_eq_some_iff.mp h
  obtain ⟨m2, hfree, h⟩ := Option.bind_eq_some_iff.mp h
  obtain ⟨rfl, -⟩ := Prod.mk.inj (Option.some.inj h)
  obtain ⟨hn, hl, hc⟩ := (nodeFree_frame treeRounds).1 m1 x m2 hfree
  refine ⟨m1, hrun, hn, fun a => ?_⟩
  unfold TreeMem.childList
  rw [hl, hc]

end PiggyOS
