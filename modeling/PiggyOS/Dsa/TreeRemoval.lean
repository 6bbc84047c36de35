import PiggyOS.Dsa.TreeRemove

/-!
# What a removal from a tree leaves behind

The values of a child list are nodes, but the removals look for `node->value`, the payload of the
node. They work on a node whose payload is its own address and that is not the only child: the list
functions do not empty a list. In every other case the node keeps its place among the children, or
the child list of its parent is left without a head or goes through NULL.
-/

namespace PiggyOS

open Infra

variable {m m' : TreeMem} {t : TreeT} {F G : Forest U32} {cells : U32 → List U32}
  {a p q x y : U32} {ks ls vs : List U32} {l : ListT}

/-! ## Removals that go wrong -/

/-- In every reading of the list `l` the value `x` is still in it. -/
def Keeps (nodes : Nodes) (l : ListT) (x : U32) : Prop :=
  ∀ xs vs, Sequence nodes l xs vs → x ∈ vs

theorem Sequence.keeps {nodes : Nodes} {xs : List U32} (h : Sequence nodes l xs vs) (hx : x ∈ vs) :
    Keeps nodes l x := by
  rintro ys ws hys
  by_contra hout
  -- the search for `x` cannot both find a node and find none
  obtain ⟨hrep, rfl⟩ := h
  obtain ⟨hrep', rfl⟩ := hys
  obtain ⟨c, hc, hv⟩ := List.mem_map.mp hx
  have hfound := hrep.listContain x
  rw [hrep'.listContain x, List.find?_eq_none.mpr fun b hb => by
    simpa using fun hb' => hout (List.mem_map.mpr ⟨b, hb, hb'⟩)] at hfound
  cases hfind : xs.find? (fun n => nodes.value n = x) with
  | none => exact absurd hv (by simpa using List.find?_eq_none.mp hfind c hc)
  | some b =>
    rw [hfind] at hfound
    exact hrep.ne_null b (List.mem_of_find?_eq_some hfind) (Option.some.inj hfound).symm

/-- A list that has lost its head only is no sequence. -/
theorem keeps_of_head (nodes : Nodes) (x : U32) (hh : l.head = 0) (ht : l.tail ≠ 0) :
    Keeps nodes l x := fun _ _ h =>
  absurd (h.nodes.tail_eq_zero_iff.mpr (h.nodes.head_eq_zero_iff.mp hh)) ht

/-- How the first statement of a removal fails to take `x` off the list of `p`: it goes through
NULL, it takes another child, or it takes the only child. -/
theorem TreeRep.removeFromParent_cases (h : TreeRep m F cells) (hp : (p, ks) ∈ F.entries)
    (h0 : m.nodes.live 0 = false) (hrun : PiggyOS.removeFromParent m p x = some m')
    (hbad : ¬ ((m.node x).value = x ∧ (m.childList p).size ≠ 1)) :
    0 ∈ m'.nodes.faults ∨
      (∃ cells' y, y ∈ ks ∧ y ≠ x ∧ m'.node = m.node ∧ TreeRep m' (F.split p y) cells') ∨
      ((m'.childList p).head = 0 ∧ (m'.childList p).tail ≠ 0 ∧ m'.node = m.node) := by
  have hnode := h.node p ks hp
  have hrep := hnode.kids.nodes
  have hsize : (m.childList p).size.toNat = ks.length := by
    rw [hrep.size, ← hnode.kids.values, List.length_map]
  by_cases hv : (m.node x).value ∈ ks
  · by_cases h2 : 2 ≤ ks.length
    · -- another child is taken out
      have hvx : (m.node x).value ≠ x := by
        refine fun hvx => hbad ⟨hvx, fun h1 => ?_⟩
        rw [h1] at hsize
        simp at hsize
        omega
      obtain ⟨ns, l, cells', hrun', hsplit, -⟩ := h.removeFromParent hp hv rfl h2
      obtain rfl := Option.some.inj (hrun.symm.trans hrun')
      exact Or.inr (Or.inl ⟨cells', _, hv, hvx, rfl, hsplit⟩)
    · -- the only child, which is the head and the tail of the list
      obtain ⟨us, c, ws, hcells, -, hfind, -⟩ := hnode.kids.find (Forest.kids_nodup h.nodup hp) hv
      have hlen : (us ++ c :: ws).length = ks.length := by
        rw [← hcells, ← hnode.kids.values, List.length_map]
      rw [List.length_append, List.length_cons] at hlen
      obtain rfl : us = [] := List.eq_nil_of_length_eq_zero (by omega)
      obtain rfl : ws = [] := List.eq_nil_of_length_eq_zero (by omega)
      rw [hcells] at hrep
      have hc : c ≠ 0 := hrep.ne_null c List.mem_cons_self
      have hhead : (m.childList p).head = c := hrep.head
      have hnext : m.nodes.next c = 0 := hrep.linked.2.1
      obtain ⟨c', hc', hm'⟩ := Option.bind_eq_some_iff.mp hrun
      obtain rfl := Option.some.inj hm'
      obtain rfl := Option.some.inj (hfind.symm.trans hc')
      refine Or.inr (Or.inr ⟨?_, ?_, rfl⟩)
      · rw [childList_putList_self rfl, listRemoveNode, if_pos hhead,
          listRemoveFront_of_head (by rwa [hhead]), hhead]
        exact hnext
      · rw [childList_putList_self rfl, listRemoveNode, if_pos hhead,
          listRemoveFront_of_head (by rwa [hhead])]
        show (m.childList p).tail ≠ 0
        rw [show (m.childList p).tail = c from hrep.tail]
        exact hc
  · -- the payload is no child, and `list_contain` answers NULL
    left
    obtain ⟨c, hc, hm'⟩ := Option.bind_eq_some_iff.mp hrun
    obtain rfl := Option.some.inj hm'
    rw [hrep.listContain, List.find?_eq_none.mpr fun b hb => by
      simpa using fun hb' => hv (hnode.kids.values ▸ List.mem_map.mpr ⟨b, hb, hb'⟩)] at hc
    obtain rfl : (0 : U32) = c := Option.some.inj hc
    exact hrep.null_listRemoveNode h0

/-- A merge hides no access that has gone wrong. -/
theorem mem_faults_listMerge {nodes : Nodes} {target source : ListT} (h : x ∈ nodes.faults) :
    x ∈ (listMerge nodes target source).1.faults := by
  have hprev : x ∈ (nodes.setPrevIf source.head target.tail).faults := by
    unfold Nodes.setPrevIf
    split
    · exact Nodes.mem_faults_store h _ _
    · exact h
  simp only [listMerge]
  unfold Nodes.setNextIf
  split
  · exact Nodes.mem_faults_store hprev _ _
  · exact hprev

/-- The node stays among the children of `p`, or NULL has been followed. -/
theorem TreeRep.removeNodeTo_keeps {t' : TreeT} (h : TreeRep m F cells) (hp : (p, ks) ∈ F.entries)
    (hx : x ∈ ks) (hq : q ∈ F.nodes) (hqx : q ≠ x) (h0 : m.nodes.live 0 = false)
    (hrun : PiggyOS.removeNodeTo m t q x = some (m', t'))
    (hbad : ¬ ((m.node x).value = x ∧ (m.childList p).size ≠ 1)) :
    0 ∈ m'.nodes.faults ∨ Keeps m'.nodes (m'.childList p) x := by
  obtain ⟨m1, hremove, hnodes, hlists⟩ := removeNodeTo_frame hrun
  rw [(h.node p ks hp).parent x hx] at hremove
  have hpn := Forest.mem_nodes_of_entry hp
  rw [hnodes, hlists p]
  rcases h.removeFromParent_cases hp h0 hremove hbad with
    hnull | ⟨cells1, y, hy, hyx, hm1, hsplit⟩ | ⟨hhead, htail, hm1⟩
  · exact Or.inl (mem_faults_listMerge hnull)
  · right
    -- another child has been taken out, and `x` is still there
    have hmem (a : U32) : a ∈ F.nodes ↔ a ∈ (F.split p y).nodes :=
      (Forest.nodes_split h.nodup hp hy).mem_iff
    obtain ⟨ps, hps⟩ := Forest.mem_nodes_iff.mp ((hmem p).mp hpn)
    obtain ⟨qs, hqs⟩ := Forest.mem_nodes_iff.mp ((hmem q).mp hq)
    obtain ⟨xs, hxs⟩ := Forest.mem_nodes_iff.mp
      ((hmem x).mp (Forest.mem_nodes_of_mem_kids hp hx))
    have hxp : x ∈ ps := by
      rcases Forest.entries_split h.nodup hp hy hps with ⟨-, rfl⟩ | ⟨hne, -⟩
      · exact (List.mem_erase_of_ne hyx.symm).mpr hx
      · exact absurd rfl hne
    obtain ⟨hseq, hu, -⟩ := hsplit.mergeChildren hqs hxs hqx
    by_cases hpq : p = q
    · subst hpq
      rw [if_pos rfl]
      rw [Forest.entry_unique hsplit.nodup hqs hps] at hseq
      exact hseq.keeps (List.mem_append_left _ hxp)
    · have hpx : p ≠ x := (Forest.not_mem_taken h.nodup hp hx).1
      have hpn1 := Forest.mem_nodes_of_entry hps
      rw [if_neg fun heq => hpq (hsplit.lists_ne p hpn1 q (Forest.mem_nodes_of_entry hqs) heq)]
      refine ((hsplit.node p ps hps).kids.of_untouched hu ?_).keeps hxp
      rw [List.disjoint_append_right]
      exact ⟨hsplit.cells_disjoint p hpn1 q (Forest.mem_nodes_of_entry hqs) hpq,
        hsplit.cells_disjoint p hpn1 x (Forest.mem_nodes_of_entry hxs) hpx⟩
  · right
    split
    · next heq =>
      -- the merge goes into the list that is spoilt
      have hpq : p = q := by
        rw [hm1] at heq
        exact h.lists_ne p hpn q hq heq
      subst hpq
      refine keeps_of_head _ x ?_ ?_
      · rw [listMerge_head, if_pos htail, hhead]
      · rw [listMerge_tail]
        split
        · assumption
        · exact htail
    · exact keeps_of_head _ x hhead htail

theorem TreeRep.treeNodeParentRemove_keeps {t' : TreeT} (h : TreeRep m F cells)
    (hp : (p, ks) ∈ F.entries) (hx : x ∈ ks) (h0 : m.nodes.live 0 = false)
    (hrun : treeNodeParentRemove m t p x = some (m', t'))
    (hbad : ¬ ((m.node x).value = x ∧ (m.childList p).size ≠ 1)) :
    0 ∈ m'.nodes.faults ∨ Keeps m'.nodes (m'.childList p) x := by
  obtain ⟨m1, hremove, hnodes, hlists⟩ := treeNodeParentRemove_frame hrun
  rw [hnodes, hlists p]
  rcases h.removeFromParent_cases hp h0 hremove hbad with
    hnull | ⟨cells1, y, hy, hyx, -, hsplit⟩ | ⟨hhead, htail, -⟩
  · exact Or.inl hnull
  · right
    obtain ⟨ps, hps⟩ := Forest.mem_nodes_iff.mp
      ((Forest.nodes_split h.nodup hp hy).mem_iff.mp (Forest.mem_nodes_of_entry hp))
    rcases Forest.entries_split h.nodup hp hy hps with ⟨-, rfl⟩ | ⟨hne, -⟩
    · exact (hsplit.node p _ hps).kids.keeps ((List.mem_erase_of_ne hyx.symm).mpr hx)
    · exact absurd rfl hne
  · exact Or.inr (keeps_of_head _ x hhead htail)

/-! ## Removals that go right -/

/-- `F'` is `F` without `x`, whose children have become children of `q`. The other nodes have the
children they had, and siblings are in the same order. -/
structure Adopts (F F' : Forest U32) (x q : U32) : Prop where
  nodes : ∀ a, a ∈ F'.nodes ↔ a ∈ F.nodes ∧ a ≠ x
  kids : ∀ a ks ls, (a, ks) ∈ F.entries → (a, ls) ∈ F'.entries →
    (ks.erase x).Sublist ls ∧ ∀ y, y ∈ ls ↔ (y ∈ ks ∧ y ≠ x) ∨ (a = q ∧ F.Child x y)
  order : ∀ ks ls, (x, ks) ∈ F.entries → (q, ls) ∈ F'.entries → ks.Sublist ls

/-- `F'` is `F` without `x` and its descendants. -/
structure Prunes (F F' : Forest U32) (x : U32) : Prop where
  nodes : ∀ a, a ∈ F'.nodes ↔ a ∈ F.nodes ∧ a ≠ x ∧ ¬ F.Descendant x a
  kids : ∀ a ks ls, (a, ks) ∈ F.entries → (a, ls) ∈ F'.entries → ls = ks.erase x

/-- A removal comes back with a well-formed tree of a shape, in which the nodes have kept their
values. -/
def Yields (m : TreeMem) (run : Option (TreeMem × TreeT)) (shape : Forest U32 → Prop) : Prop :=
  ∃ m' t' F', run = some (m', t') ∧ TreeOk m' t' F' ∧ shape F' ∧
    ∀ a ∈ F'.nodes, (m'.node a).value = (m.node a).value

theorem prunes_prune (hnd : F.nodes.Nodup) (hp : (p, ks) ∈ F.entries) (hx : x ∈ ks) :
    Prunes F (F.prune p x) x := by
  have hperm := Forest.nodes_prune hnd hp hx
  have hxn := Forest.mem_nodes_of_mem_kids hp hx
  have hnd' := hperm.nodup_iff.mp hnd
  refine ⟨fun a => ?_, fun a as ls ha hls => ?_⟩
  · rw [← Forest.mem_under_iff hnd hxn, hperm.mem_iff, List.mem_append, List.mem_cons]
    have hdisj := (List.nodup_append.mp hnd').2.2 a
    constructor
    · intro ha
      refine ⟨Or.inl ha, fun hax => ?_, fun hau => ?_⟩
      · exact hdisj ha a (hax ▸ List.mem_cons_self) rfl
      · exact hdisj ha a (List.mem_cons_of_mem x hau) rfl
    · rintro ⟨ha | hax | hau, hne, hnu⟩
      · exact ha
      · exact absurd hax hne
      · exact absurd hau hnu
  · rcases Forest.entries_prune hnd hp hls with ⟨rfl, rfl⟩ | ⟨hap, hls⟩
    · rw [Forest.entry_unique hnd ha hp]
    · rw [Forest.entry_unique hnd hls ha, List.erase_of_not_mem]
      exact fun hxa => hap (Forest.parent_unique hnd ha hp hxa hx)

theorem adopts_graft (hnd : F.nodes.Nodup) (hp : (p, ks) ∈ F.entries) (hx : x ∈ ks)
    (hq : q ∈ (F.prune p x).nodes) : Adopts F ((F.prune p x).graft q (F.under x)) x q := by
  have hprunes := prunes_prune hnd hp hx
  have hperm := Forest.nodes_prune hnd hp hx
  have hxn := Forest.mem_nodes_of_mem_kids hp hx
  obtain ⟨hndG, -, hdisj⟩ := List.nodup_append.mp (hperm.nodup_iff.mp hnd)
  obtain ⟨qs, hqs⟩ := Forest.mem_nodes_iff.mp hq
  have hgraft := Forest.nodes_graft (F.under x) hq
  have herase {a y : U32} {as : List U32} (ha : (a, as) ∈ F.entries) :
      y ∈ as.erase x ↔ y ∈ as ∧ y ≠ x :=
    ((Forest.kids_nodup hnd ha).mem_erase_iff).trans and_comm
  refine ⟨fun a => ?_, fun a as ls ha hls => ?_, fun xs ls hxs hls => ?_⟩
  · rw [hgraft.mem_iff, hperm.mem_iff, List.mem_append, List.mem_append, List.mem_cons]
    have hax : a ∈ (F.under x).nodes → a ≠ x := by
      rintro hau rfl
      exact Forest.not_mem_under hnd hau
    have hap : a ∈ (F.prune p x).nodes → a ≠ x := fun hap hax =>
      hdisj a hap a (hax ▸ List.mem_cons_self) rfl
    tauto
  · -- `q` itself, a node below `x`, or any other one
    rcases Forest.entries_graft hndG hqs hls with ⟨rfl, rfl⟩ | hin | ⟨haq, hout⟩
    · rw [hprunes.kids a as qs ha hqs]
      refine ⟨List.sublist_append_left _ _, fun y => ?_⟩
      rw [List.mem_append, herase ha, ← Forest.child_iff_mem_under hnd hxn]
      simp
    · have haF := Forest.entries_under_subset x F hin
      have haq : a ≠ q := fun haq =>
        hdisj q hq a (List.mem_cons_of_mem x (Forest.mem_nodes_of_entry hin)) haq.symm
      obtain rfl := Forest.entry_unique hnd haF ha
      refine ⟨List.erase_sublist, fun y => ⟨fun hy => Or.inl ⟨hy, ?_⟩, fun hy => ?_⟩⟩
      · rintro rfl
        have hap := Forest.parent_unique hnd ha hp hy hx
        exact (Forest.not_mem_taken hnd hp hx).2 (hap ▸ Forest.mem_nodes_of_entry hin)
      · exact (hy.resolve_right fun h => haq h.1).1
    · rw [hprunes.kids a as ls ha hout]
      refine ⟨List.Sublist.refl _, fun y => ?_⟩
      rw [herase ha]
      simp [haq]
  · rcases Forest.entries_graft hndG hqs hls with ⟨-, rfl⟩ | hin | ⟨hqq, -⟩
    · rw [Forest.roots_under hnd hxs]
      exact List.sublist_append_right _ _
    · exact absurd rfl (hdisj q hq q (List.mem_cons_of_mem x (Forest.mem_nodes_of_entry hin)))
    · exact absurd rfl hqq

/-- What is left of a tree when only nodes that it does not have are changed. -/
theorem TreeRep.append_left {H : Forest U32} (h : TreeRep m (G.append H) cells) :
    TreeRep m G cells := by
  have hsub {a : U32} (ha : a ∈ G.nodes) : a ∈ (G.append H).nodes := by
    rw [Forest.nodes_append]
    exact List.mem_append_left _ ha
  refine ⟨?_, fun a as ha => h.node a as ?_, fun a ha b hb => h.lists_ne a (hsub ha) b (hsub hb),
    fun a ha b hb => h.cells_disjoint a (hsub ha) b (hsub hb)⟩
  · have hnd := h.nodup
    rw [Forest.nodes_append] at hnd
    exact (List.nodup_append.mp hnd).1
  · rw [Forest.entries_append]
    exact List.mem_append_left _ ha

section

variable (h : TreeOk m t F) (hp : (p, ks) ∈ F.entries) (hx : x ∈ ks)
  (hvalue : (m.node x).value = x) (hsize : (m.childList p).size ≠ 1)

include h hp hx hvalue hsize

/-- The node is taken off the list of its parent. -/
theorem TreeOk.exists_split : ∃ ns l cells',
    PiggyOS.removeFromParent m p x = some (m.putList (m.node p).children ns l) ∧
      TreeRep (m.putList (m.node p).children ns l) (F.split p x) cells' ∧
      ns.faults = [] ∧ ns.live 0 = false := by
  obtain ⟨cells, hrep⟩ := h.rep
  have hlen : (m.childList p).size.toNat = ks.length := by
    rw [(hrep.node p ks hp).kids.nodes.size, ← (hrep.node p ks hp).kids.values, List.length_map]
  have h2 : 2 ≤ ks.length := by
    have hpos := List.length_pos_of_mem hx
    have hne : ks.length ≠ 1 := fun h1 => hsize (BitVec.eq_of_toNat_eq (hlen.trans h1))
    omega
  obtain ⟨ns, l, cells', hrun, hsplit, hfaults, hlive⟩ := hrep.removeFromParent hp hx hvalue h2
  exact ⟨ns, l, cells', hrun, hsplit, hfaults.trans h.faults, hlive.trans h.null⟩

/-- `tree_remove` and `tree_remove_reparent_root`. -/
theorem TreeOk.yields_removeNodeTo (hq : q ∈ (F.prune p x).nodes) :
    Yields m (removeNodeTo m t q x) fun F' => Adopts F F' x q := by
  obtain ⟨ns, l, cells', hrun, hsplit, hfaults, hlive⟩ := h.exists_split hp hx hvalue hsize
  obtain ⟨cells, hrep⟩ := h.rep
  have hparent : (m.node x).parent = p := (hrep.node p ks hp).parent x hx
  have hxn := Forest.mem_nodes_of_mem_kids hp hx
  obtain ⟨qs, hqs⟩ := Forest.mem_nodes_iff.mp hq
  have hxs : (x, (F.under x).roots) ∈ (F.split p x).entries := by
    rw [Forest.split, Forest.entries_append]
    exact List.mem_append_right _ List.mem_cons_self
  have hqs' : (q, qs) ∈ (F.split p x).entries := by
    rw [Forest.split, Forest.entries_append]
    exact List.mem_append_left _ hqs
  have hperm := Forest.nodes_prune hrep.nodup hp hx
  -- `q` is not in the tree that is taken out
  have hqx : q ≠ x :=
    (List.nodup_append.mp (hperm.nodup_iff.mp hrep.nodup)).2.2 q hq x List.mem_cons_self
  have hmerge := hsplit.mergeChildren hqs' hxs hqx
  refine ⟨_, _, (F.prune p x).graft q (F.under x),
    hsplit.removeNodeTo hxs (by rw [hparent]; exact hrun), ?_,
    adopts_graft hrep.nodup hp hx hq, fun a _ => value_reparented ..⟩
  exact {
    rep := ⟨_, hsplit.adopt hqs⟩
    roots := by
      rw [Forest.graft, Forest.roots_modify, Forest.prune, Forest.roots_modify]
      exact h.roots
    root_parent := by
      show (reparented m.node q (F.under x).roots t.root).parent = 0
      have hroot : t.root ∉ (F.under x).roots := by
        intro hmem
        have hx0 := (hrep.under hxn).1.parent t.root hmem
        exact (hrep.under hxn).1.ne_null (hx0.symm.trans h.root_parent)
      rw [reparented_of_not_mem hroot]
      exact h.root_parent
    count := by
      have hgraft := (Forest.nodes_graft (F.under x) hq).length_eq
      have hlen := hperm.length_eq
      have hcount := h.count
      simp only [List.length_append, List.length_cons] at hgraft hlen
      have hle : (1 : U32) ≤ t.nodes := by
        show 1 ≤ t.nodes.toNat
        omega
      show (t.nodes - 1).toNat = _
      rw [BitVec.toNat_sub_of_le hle]
      show t.nodes.toNat - 1 = _
      omega
    null := live_listMerge.trans hlive
    faults := hmerge.2.2.trans hfaults }

/-- `tree_node_remove` -/
theorem TreeOk.yields_treeNodeParentRemove :
    Yields m (treeNodeParentRemove m t p x) fun F' => Prunes F F' x := by
  obtain ⟨ns, l, cells', hrun, hsplit, hfaults, hlive⟩ := h.exists_split hp hx hvalue hsize
  obtain ⟨cells, hrep⟩ := h.rep
  have hxn := Forest.mem_nodes_of_mem_kids hp hx
  have hperm := Forest.nodes_prune hrep.nodup hp hx
  have hxs : x ∈ (F.split p x).nodes := (Forest.nodes_split hrep.nodup hp hx).mem_iff.mp hxn
  have hunder := Forest.under_split hrep.nodup hp hx
  have hfree := hsplit.treeNodeFree hxs
  rw [hunder] at hfree
  refine ⟨{ m.putList (m.node p).children ns l with
      live := fun a => if a ∈ x :: (F.under x).nodes then false else m.live a },
    { t with nodes := t.nodes - (BitVec.ofNat 32 (F.under x).nodes.length + 1) }, F.prune p x, ?_,
    ?_, prunes_prune hrep.nodup hp hx, fun a _ => rfl⟩
  · rw [treeNodeParentRemove, hrep.treeCountChildren hxn]
    show (PiggyOS.removeFromParent m p x).bind _ = _
    rw [hrun]
    show (PiggyOS.treeNodeFree _ x).bind _ = _
    rw [hfree]
    rfl
  · have hkept := hsplit.append_left
    have hdisj := (List.nodup_append.mp (hperm.nodup_iff.mp hrep.nodup)).2.2
    exact {
      rep := ⟨cells', hkept.nodup, fun a as ha =>
        (hkept.node a as ha).congr_node rfl (hkept.node a as ha).parent (by
          have hout : a ∉ x :: (F.under x).nodes := fun hin =>
            hdisj a (Forest.mem_nodes_of_entry ha) a hin rfl
          rw [if_neg hout]
          exact (hkept.node a as ha).live), hkept.lists_ne, hkept.cells_disjoint⟩
      roots := by
        rw [Forest.prune, Forest.roots_modify]
        exact h.roots
      root_parent := h.root_parent
      count := by
        have hlen := hperm.length_eq
        have hcount := h.count
        rw [List.length_append, List.length_cons] at hlen
        have hnodes := t.nodes.isLt
        have htaken : (BitVec.ofNat 32 (F.under x).nodes.length + 1).toNat =
            (F.under x).nodes.length + 1 := by
          show (BitVec.ofNat 32 _ + BitVec.ofNat 32 1).toNat = _
          rw [BitVec.ofNat_add_ofNat, BitVec.toNat_ofNat, Nat.mod_eq_of_lt (by omega)]
        have hle : BitVec.ofNat 32 (F.under x).nodes.length + 1 ≤ t.nodes := by
          rw [BitVec.le_def]
          omega
        rw [BitVec.toNat_sub_of_le hle]
        omega
      null := hlive
      faults := hfaults }

end

/-- A well-formed tree without `x` has it in no list of children. -/
theorem TreeOk.not_keeps {F' : Forest U32} (h : TreeOk m' t F') (hp : p ∈ F'.nodes)
    (hx : x ∉ F'.nodes) : ¬ (0 ∈ m'.nodes.faults ∨ Keeps m'.nodes (m'.childList p) x) := by
  rintro (hnull | hkeeps)
  · rw [h.faults] at hnull
    exact absurd hnull List.not_mem_nil
  · obtain ⟨cells, hrep⟩ := h.rep
    obtain ⟨ls, hls⟩ := Forest.mem_nodes_iff.mp hp
    exact hx (Forest.mem_nodes_of_mem_kids hls (hkeeps _ _ (hrep.node p ls hls).kids))

section

variable (h : TreeOk m t F) (hp : (p, ks) ∈ F.entries) (hx : x ∈ ks)

include h hp hx

/-- Moving the children of `x` to `q`. -/
theorem TreeOk.yields_removeNodeTo_iff (hq : q ∈ (F.prune p x).nodes) :
    Yields m (removeNodeTo m t q x) (fun F' => Adopts F F' x q) ↔
      (m.node x).value = x ∧ (m.childList p).size ≠ 1 := by
  refine ⟨?_, fun ⟨hv, hs⟩ => h.yields_removeNodeTo hp hx hv hs hq⟩
  rintro ⟨m', t', F', hrun, hok, hshape, -⟩
  obtain ⟨cells, hrep⟩ := h.rep
  have hpx := (Forest.not_mem_taken hrep.nodup hp hx).1
  obtain ⟨hqF, hqx, -⟩ := ((prunes_prune hrep.nodup hp hx).nodes q).mp hq
  by_contra hbad
  exact hok.not_keeps ((hshape.nodes p).mpr ⟨Forest.mem_nodes_of_entry hp, hpx⟩)
    (fun hx' => ((hshape.nodes x).mp hx').2 rfl)
    (hrep.removeNodeTo_keeps hp hx hqF hqx h.null hrun hbad)

/-- Taking `x` away with its descendants. -/
theorem TreeOk.yields_treeNodeParentRemove_iff :
    Yields m (treeNodeParentRemove m t p x) (fun F' => Prunes F F' x) ↔
      (m.node x).value = x ∧ (m.childList p).size ≠ 1 := by
  refine ⟨?_, fun ⟨hv, hs⟩ => h.yields_treeNodeParentRemove hp hx hv hs⟩
  rintro ⟨m', t', F', hrun, hok, hshape, -⟩
  obtain ⟨cells, hrep⟩ := h.rep
  have hpn : p ∈ (F.prune p x).nodes := Forest.mem_nodes_modify p _ (Forest.mem_nodes_of_entry hp)
  by_contra hbad
  exact hok.not_keeps
    ((hshape.nodes p).mpr (((prunes_prune hrep.nodup hp hx).nodes p).mp hpn))
    (fun hx' => ((hshape.nodes x).mp hx').2.1 rfl)
    (hrep.treeNodeParentRemove_keeps hp hx h.null hrun hbad)

end

/-- A removal does what it is for just when the payload of the node is its own address and the node
has a sibling. -/
theorem TreeOk.yields_iff (h : TreeOk m t F) (hx : x ∈ F.nodes) (hroot : x ≠ t.root) :
    (Yields m (treeRemove m t x) (fun F' => Adopts F F' x (m.node x).parent) ↔
      (m.node x).value = x ∧ (m.childList (m.node x).parent).size ≠ 1) ∧
    (Yields m (treeRemoveReparentRoot m t x) (fun F' => Adopts F F' x t.root) ↔
      (m.node x).value = x ∧ (m.childList (m.node x).parent).size ≠ 1) ∧
    (Yields m (treeNodeRemove m t x) (fun F' => Prunes F F' x) ↔
      (m.node x).value = x ∧ (m.childList (m.node x).parent).size ≠ 1) := by
  obtain ⟨cells, hrep⟩ := h.rep
  obtain ⟨p, ks, hp, hxk⟩ : ∃ p ks, (p, ks) ∈ F.entries ∧ x ∈ ks := by
    rcases Forest.nodes_cases hx with hr | hchild
    · rw [h.roots, List.mem_singleton] at hr
      exact absurd hr hroot
    · exact hchild
  have hparent : (m.node x).parent = p := (hrep.node p ks hp).parent x hxk
  have hp0 : p ≠ 0 := (hrep.node p ks hp).ne_null
  have hpkept : p ∈ (F.prune p x).nodes :=
    Forest.mem_nodes_modify p _ (Forest.mem_nodes_of_entry hp)
  have hrootkept : t.root ∈ (F.prune p x).nodes := by
    refine Forest.mem_nodes_of_mem_roots ?_
    rw [Forest.prune, Forest.roots_modify, h.roots]
    exact List.mem_cons_self
  have hcall : treeNodeRemove m t x = treeNodeParentRemove m t p x := by
    rw [treeNodeRemove, hparent]
    exact if_neg fun hnull => hp0 hnull.1
  rw [treeRemove, treeRemoveReparentRoot, hcall, hparent, if_neg hp0, if_neg hp0]
  exact ⟨h.yields_removeNodeTo_iff hp hxk hpkept, h.yields_removeNodeTo_iff hp hxk hrootkept,
    h.yields_treeNodeParentRemove_iff hp hxk⟩

/-- The first child of the sample tree, whose payload is its address. -/
theorem yields_iff_sampleTree :
    (TreeOk sampleTree ⟨3, 0x100⟩ sampleShape ∧ 0x200 ∈ sampleShape.nodes ∧
      (0x200 : U32) ≠ 0x100) ∧
    (Yields sampleTree (treeRemove sampleTree ⟨3, 0x100⟩ 0x200)
        (fun F' => Adopts sampleShape F' 0x200 (sampleTree.node 0x200).parent) ↔
      (sampleTree.node 0x200).value = 0x200 ∧
        (sampleTree.childList (sampleTree.node 0x200).parent).size ≠ 1) ∧
    (Yields sampleTree (treeRemoveReparentRoot sampleTree ⟨3, 0x100⟩ 0x200)
        (fun F' => Adopts sampleShape F' 0x200 0x100) ↔
      (sampleTree.node 0x200).value = 0x200 ∧
        (sampleTree.childList (sampleTree.node 0x200).parent).size ≠ 1) ∧
    (Yields sampleTree (treeNodeRemove sampleTree ⟨3, 0x100⟩ 0x200)
        (fun F' => Prunes sampleShape F' 0x200) ↔
      (sampleTree.node 0x200).value = 0x200 ∧
        (sampleTree.childList (sampleTree.node 0x200).parent).size ≠ 1) :=
  have hmem : 0x200 ∈ sampleShape.nodes := by simp [sampleShape, Forest.nodes]
  ⟨⟨treeOk_sampleTree, hmem, by simp⟩, treeOk_sampleTree.yields_iff hmem (by simp)⟩

theorem Yields.faults {run : Option (TreeMem × TreeT)} {shape : Forest U32 → Prop}
    (h : Yields m run shape) : run.map (fun r => r.1.nodes.faults) = some [] := by
  obtain ⟨m', t', F', rfl, hok, -⟩ := h
  exact congrArg some hok.faults

/-- The payload of the second child is found nowhere: the removals go through NULL. -/
theorem not_yields_sampleTree :
    ¬ Yields sampleTree (treeRemove sampleTree ⟨3, 0x100⟩ 0x300)
        (fun F' => Adopts sampleShape F' 0x300 0x100) ∧
      ¬ Yields sampleTree (treeRemoveReparentRoot sampleTree ⟨3, 0x100⟩ 0x300)
        (fun F' => Adopts sampleShape F' 0x300 0x100) ∧
      ¬ Yields sampleTree (treeNodeRemove sampleTree ⟨3, 0x100⟩ 0x300)
        (fun F' => Prunes sampleShape F' 0x300) := by
  refine ⟨fun h => ?_, fun h => ?_, fun h => ?_⟩
  all_goals
    have hfaults := h.faults
    revert hfaults
    decide +kernel

end PiggyOS
