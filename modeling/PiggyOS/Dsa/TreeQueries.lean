import PiggyOS.Dsa.Sequence
import PiggyOS.Dsa.Tree

/-!
# Queries on trees

`TreeOk m t F` says that the tree `t` in memory is the forest `F` of one tree: every node is in use,
its child list holds its children in order and each child points back to it. The recursions of
`tree.c` are followed along the forest, one rule for each: what a loop makes of the trees it still
has before it.
-/

namespace PiggyOS

open Infra

/-- The node `a` with the children `ks`, whose list consists of the list nodes `cells a`. -/
structure NodeRep (m : TreeMem) (cells : U32 → List U32) (a : U32) (ks : List U32) : Prop where
  ne_null : a ≠ 0
  live : m.live a = true
  children_ne : (m.node a).children ≠ 0
  kids : Sequence m.nodes (m.childList a) (cells a) ks
  parent : ∀ y ∈ ks, (m.node y).parent = a

/-- The nodes of `F` are in memory, and no two of them share a list or a list node. -/
structure TreeRep (m : TreeMem) (F : Forest U32) (cells : U32 → List U32) : Prop where
  nodup : F.nodes.Nodup
  node : ∀ a ks, (a, ks) ∈ F.entries → NodeRep m cells a ks
  lists_ne : ∀ a ∈ F.nodes, ∀ b ∈ F.nodes, (m.node a).children = (m.node b).children → a = b
  cells_disjoint : ∀ a ∈ F.nodes, ∀ b ∈ F.nodes, a ≠ b → (cells a).Disjoint (cells b)

/-- A well-formed tree: its counter is the number of nodes, and so far no pointer has been followed
to a list node that is not in use. -/
structure TreeOk (m : TreeMem) (t : TreeT) (F : Forest U32) : Prop where
  rep : ∃ cells, TreeRep m F cells
  roots : F.roots = [t.root]
  root_parent : (m.node t.root).parent = 0
  count : t.nodes.toNat = F.nodes.length
  null : m.nodes.live 0 = false
  faults : m.nodes.faults = []

/-- The list node `d` leads through the roots of `G`. -/
def Leads (m : TreeMem) (d : U32) (G : Forest U32) : Prop :=
  ∃ p ns, Linked m.nodes.next m.nodes.prev p ns 0 ∧ ns.map m.nodes.value = G.roots ∧
    d = ns.headD 0 ∧ ∀ x ∈ ns, x ≠ 0

section

variable {m : TreeMem} {t : TreeT} {F G kids rest : Forest U32} {cells : U32 → List U32}
  {a d x y : U32} {ks : List U32} {n : Nat}

theorem Leads.nil (h : Leads m d Forest.nil) : d = 0 := by
  obtain ⟨p, ns, -, hv, rfl, -⟩ := h
  rw [List.map_eq_nil_iff.mp hv]
  rfl

theorem Leads.tree (h : Leads m d (Forest.tree a kids rest)) :
    d ≠ 0 ∧ m.nodes.value d = a ∧ Leads m (m.nodes.next d) rest := by
  obtain ⟨p, ns, hl, hv, rfl, hne⟩ := h
  cases ns with
  | nil => exact absurd hv (by simp [Forest.roots])
  | cons c ns =>
    obtain ⟨hc, hv⟩ := List.cons.inj hv
    obtain ⟨-, hnext, hl⟩ := hl
    exact ⟨hne c List.mem_cons_self, hc, c, ns, hl, hv, hnext,
      fun x hx => hne x (List.mem_cons_of_mem c hx)⟩

/-- The child list of a node. -/
theorem NodeRep.leads (h : NodeRep m cells a G.roots) : Leads m (m.childList a).head G :=
  ⟨0, cells a, h.kids.nodes.linked, h.kids.values, h.kids.nodes.head, h.kids.nodes.ne_null⟩

/-- All nodes of `G` are in memory. -/
def AllRep (m : TreeMem) (cells : U32 → List U32) (G : Forest U32) : Prop :=
  ∀ a ks, (a, ks) ∈ G.entries → NodeRep m cells a ks

theorem AllRep.tree (h : AllRep m cells (Forest.tree a kids rest)) :
    NodeRep m cells a kids.roots ∧ AllRep m cells kids ∧ AllRep m cells rest :=
  ⟨h a _ List.mem_cons_self,
    fun b ks hb => h b ks (List.mem_cons_of_mem _ (List.mem_append_left _ hb)),
    fun b ks hb => h b ks (List.mem_cons_of_mem _ (List.mem_append_right _ hb))⟩

theorem AllRep.ne_null (h : AllRep m cells G) (ha : a ∈ G.nodes) : a ≠ 0 := by
  obtain ⟨ks, hks⟩ := Forest.mem_nodes_iff.mp ha
  exact (h a ks hks).ne_null

/-- The node `x` of a tree and what is under it. -/
theorem TreeRep.under (h : TreeRep m F cells) (hx : x ∈ F.nodes) :
    NodeRep m cells x (F.under x).roots ∧ AllRep m cells (F.under x) :=
  ⟨h.node x _ (Forest.entry_under hx),
    fun b ks hb => h.node b ks (Forest.entries_under_subset x F hb)⟩

/-- A call and a loop for each node fit into the rounds. -/
theorem TreeRep.rounds (h : TreeRep m F cells) (x : U32) :
    ∃ n, treeRounds = n + 1 ∧ 2 * (F.under x).nodes.length < n := by
  have hF := length_lt_of_nodup h.nodup fun b hb => AllRep.ne_null h.node hb
  have hle := (Forest.nodes_under_sublist x F).length_le
  exact ⟨2 ^ 33 - 1, rfl, by omega⟩

theorem length_nodes_tree : (Forest.tree a kids rest).nodes.length =
    kids.nodes.length + rest.nodes.length + 1 := by
  simp [Forest.nodes]

/-- A node has one parent. -/
theorem TreeRep.child_iff (h : TreeRep m F cells) (ha : F.Child a y) (b : U32) :
    F.Child b y ↔ b = a := by
  constructor
  · rintro ⟨ls, hls, hy⟩
    obtain ⟨ks, hks, hy'⟩ := ha
    rw [← (h.node b ls hls).parent y hy, (h.node a ks hks).parent y hy']
  · rintro rfl
    exact ha

/-! ## Counting -/

/-- A call, once the loop over the children is known. -/
theorem countChildren_succ (h : NodeRep m cells a kids.roots)
    (hloop : ∀ out, countChildrenFrom m n (m.childList a).head out =
      some (out + BitVec.ofNat 32 (kids.nodes.length - kids.roots.length))) :
    countChildren m (n + 1) a = some (BitVec.ofNat 32 kids.nodes.length) := by
  have hsize : (m.childList a).size = BitVec.ofNat 32 kids.roots.length := by
    rw [← h.kids.values, List.length_map, ← h.kids.nodes.size, BitVec.ofNat_toNat,
      BitVec.setWidth_eq]
  rw [countChildren, if_neg h.ne_null, if_neg h.children_ne, hloop, hsize, BitVec.ofNat_add_ofNat,
    Nat.add_sub_cancel' kids.roots_sublist.length_le]

/-- Each tree that is left adds what is below its root. -/
theorem countChildrenFrom_spec (h : AllRep m cells G) (hd : Leads m d G)
    (hn : 2 * G.nodes.length < n) (out : U32) : countChildrenFrom m n d out =
      some (out + BitVec.ofNat 32 (G.nodes.length - G.roots.length)) := by
  induction G generalizing n d out with
  | nil =>
    obtain ⟨n, rfl⟩ := Nat.exists_eq_succ_of_ne_zero (Nat.ne_of_gt hn)
    rw [countChildrenFrom, if_pos hd.nil]
    simp [Forest.nodes]
  | tree a kids rest ihk ihr =>
    obtain ⟨hnode, hkids, hrest⟩ := h.tree
    obtain ⟨hd0, hv, hnext⟩ := hd.tree
    rw [length_nodes_tree] at hn ⊢
    obtain ⟨n, rfl⟩ : ∃ k, n = k + 2 := ⟨n - 2, by omega⟩
    rw [countChildrenFrom, if_neg hd0, hv,
      countChildren_succ hnode (ihk hkids hnode.leads (by omega))]
    show countChildrenFrom m (n + 1) _ _ = _
    rw [ihr hrest hnext (by omega), BitVec.add_assoc, BitVec.ofNat_add_ofNat]
    congr 3
    have := rest.roots_sublist.length_le
    simp only [Forest.roots, List.length_cons]
    omega

theorem TreeRep.treeCountChildren (h : TreeRep m F cells) (hx : x ∈ F.nodes) :
    treeCountChildren m x = some (BitVec.ofNat 32 (F.under x).nodes.length) := by
  obtain ⟨hnode, hall⟩ := h.under hx
  obtain ⟨n, hn, hlt⟩ := h.rounds x
  rw [PiggyOS.treeCountChildren, hn]
  exact countChildren_succ hnode (countChildrenFrom_spec hall hnode.leads hlt)

/-! ## Finding a parent -/

/-- Where the parent of `y` is found in what is left of the children of `haystack`. -/
def ParentIn (G : Forest U32) (haystack y p : U32) : Prop :=
  (y ∈ G.roots → p = haystack) ∧ (y ∈ G.nodes → y ∉ G.roots → G.Child p y) ∧
    (y ∉ G.nodes → p = 0)

theorem findParentFrom_spec (h : AllRep m cells G) (hnd : G.nodes.Nodup) (hd : Leads m d G)
    (hn : 2 * G.nodes.length < n) (haystack y : U32) :
    ∃ p, findParentFrom m y n haystack d = some p ∧ ParentIn G haystack y p := by
  induction G generalizing n d haystack with
  | nil =>
    obtain ⟨n, rfl⟩ := Nat.exists_eq_succ_of_ne_zero (Nat.ne_of_gt hn)
    refine ⟨0, by rw [findParentFrom, if_pos hd.nil], ?_, ?_, fun _ => rfl⟩
    · exact fun hy => absurd hy List.not_mem_nil
    · exact fun hy => absurd hy List.not_mem_nil
  | tree a kids rest ihk ihr =>
    obtain ⟨hnode, hkids, hrest⟩ := h.tree
    obtain ⟨hd0, hv, hnext⟩ := hd.tree
    obtain ⟨ha, hnd⟩ := List.nodup_cons.mp hnd
    obtain ⟨hndk, hndr, hdisj⟩ := List.nodup_append.mp hnd
    rw [length_nodes_tree] at hn
    obtain ⟨n, rfl⟩ : ∃ k, n = k + 2 := ⟨n - 2, by omega⟩
    rw [findParentFrom, if_neg hd0, hv]
    -- the node of the entry itself, whose parent is `haystack`
    by_cases hay : a = y
    · refine ⟨haystack, if_pos hay, fun _ => rfl, fun _ hroot => ?_, fun hout => ?_⟩
      · exact absurd (hay ▸ List.mem_cons_self) hroot
      · exact absurd (hay ▸ List.mem_cons_self) hout
    rw [if_neg hay]
    obtain ⟨p, hp, hroot, hbelow, hout⟩ := ihk (n := n) hkids hndk hnode.leads (by omega) a
    rw [show findParent m y (n + 1) a = some p from hp]
    have hchild {q : U32} (hc : kids.Child q y) : (Forest.tree a kids rest).Child q y := by
      obtain ⟨ks, hks, hy⟩ := hc
      exact ⟨ks, List.mem_cons_of_mem _ (List.mem_append_left _ hks), hy⟩
    by_cases hyk : y ∈ kids.nodes
    · -- found among the descendants of `a`
      have hfound : (Forest.tree a kids rest).Child p y ∧ p ≠ 0 := by
        by_cases hyr : y ∈ kids.roots
        · rw [hroot hyr]
          exact ⟨⟨kids.roots, List.mem_cons_self, hyr⟩, hnode.ne_null⟩
        · have hc := hbelow hyk hyr
          obtain ⟨ks, hks, -⟩ := id hc
          exact ⟨hchild hc, hkids.ne_null (Forest.mem_nodes_of_entry hks)⟩
      refine ⟨p, ?_, fun hy => ?_, fun _ _ => hfound.1, fun hy => ?_⟩
      · exact if_pos hfound.2
      · have hyrest := (List.mem_cons.mp hy).resolve_left (Ne.symm hay)
        exact absurd rfl (hdisj y hyk y (Forest.mem_nodes_of_mem_roots hyrest))
      · exact absurd (List.mem_cons_of_mem _ (List.mem_append_left _ hyk)) hy
    · -- `a` has no descendant `y`, and the search goes on behind it
      rw [hout hyk]
      obtain ⟨p, hp, hroot, hbelow, hout⟩ := ihr (n := n + 1) hrest hndr hnext (by omega) haystack
      refine ⟨p, ?_, fun hy => ?_, fun hy hyr => ?_, fun hy => ?_⟩
      · exact hp
      · exact hroot ((List.mem_cons.mp hy).resolve_left (Ne.symm hay))
      · have hy' := (List.mem_cons.mp hy).resolve_left (Ne.symm hay)
        obtain ⟨ks, hks, hc⟩ := hbelow ((List.mem_append.mp hy').resolve_left hyk)
          fun hr => hyr (List.mem_cons_of_mem _ hr)
        exact ⟨ks, List.mem_cons_of_mem _ (List.mem_append_right _ hks), hc⟩
      · exact hout fun hr => hy (List.mem_cons_of_mem _ (List.mem_append_right _ hr))

/-- The parent of a proper descendant of `a`, and NULL for everything else. -/
theorem TreeRep.treeNodeFindParent (h : TreeRep m F cells) (ha : a ∈ F.nodes) (y : U32) :
    ∃ p, treeNodeFindParent m a y = some p ∧ (F.Descendant a y → ∀ q, F.Child q y ↔ q = p) ∧
      (¬ F.Descendant a y → p = 0) := by
  obtain ⟨hnode, hall⟩ := h.under ha
  obtain ⟨n, hn, hlt⟩ := h.rounds a
  have hnd : (F.under a).nodes.Nodup := h.nodup.sublist (Forest.nodes_under_sublist a F)
  rw [← Forest.mem_under_iff h.nodup ha]
  obtain ⟨p, hp, hroot, hbelow, hout⟩ := findParentFrom_spec hall hnd hnode.leads hlt a y
  rw [PiggyOS.treeNodeFindParent, hn]
  refine ⟨p, hp, fun hy => ?_, hout⟩
  by_cases hyr : y ∈ (F.under a).roots
  · rw [hroot hyr]
    exact h.child_iff ⟨_, Forest.entry_under ha, hyr⟩
  · obtain ⟨ks, hks, hc⟩ := hbelow hy hyr
    exact h.child_iff ⟨ks, Forest.entries_under_subset a F hks, hc⟩

/-! ## Finding a node -/

/-- Whether the value of `b` satisfies the comparator. -/
def satisfies (m : TreeMem) (search : U32) (comparator : TreeComparator) (b : U32) : Bool :=
  comparator (m.node b).value search != 0

variable {search : U32} {comparator : TreeComparator}

theorem nodeFind_succ
    (hloop : nodeFindFrom m search comparator n (m.childList a).head =
      some ((kids.nodes.find? (satisfies m search comparator)).getD 0)) :
    nodeFind m search comparator (n + 1) a =
      some (((a :: kids.nodes).find? (satisfies m search comparator)).getD 0) := by
  rw [nodeFind]
  by_cases hm : comparator (m.node a).value search ≠ 0
  · have hsat : satisfies m search comparator a = true := by simpa [satisfies] using hm
    rw [if_pos hm, List.find?_cons_of_pos hsat]
    rfl
  · have hsat : ¬ satisfies m search comparator a = true := by simpa [satisfies] using hm
    rw [if_neg hm, List.find?_cons_of_neg hsat, hloop]

/-- The trees that are left are searched in preorder. -/
theorem nodeFindFrom_spec (h : AllRep m cells G) (hd : Leads m d G)
    (hn : 2 * G.nodes.length < n) : nodeFindFrom m search comparator n d =
      some ((G.nodes.find? (satisfies m search comparator)).getD 0) := by
  induction G generalizing n d with
  | nil =>
    obtain ⟨n, rfl⟩ := Nat.exists_eq_succ_of_ne_zero (Nat.ne_of_gt hn)
    rw [nodeFindFrom, if_pos hd.nil]
    rfl
  | tree a kids rest ihk ihr =>
    obtain ⟨hnode, hkids, hrest⟩ := h.tree
    obtain ⟨hd0, hv, hnext⟩ := hd.tree
    rw [length_nodes_tree] at hn
    obtain ⟨n, rfl⟩ : ∃ k, n = k + 2 := ⟨n - 2, by omega⟩
    have hnodes : (Forest.tree a kids rest).nodes = (a :: kids.nodes) ++ rest.nodes := rfl
    rw [nodeFindFrom, if_neg hd0, hv, nodeFind_succ (ihk hkids hnode.leads (by omega)),
      hnodes, List.find?_append]
    cases hfind : (a :: kids.nodes).find? (satisfies m search comparator) with
    | none => exact ihr hrest hnext (by omega)
    | some b =>
      have hb : b ≠ 0 := by
        rcases List.mem_cons.mp (List.mem_of_find?_eq_some hfind) with rfl | hb
        · exact hnode.ne_null
        · exact hkids.ne_null hb
      show (if b ≠ 0 then some b else _) = _
      exact if_pos hb

/-- **The first node in preorder that satisfies the comparator.** -/
theorem TreeRep.treeNodeFind (h : TreeRep m F cells) (ha : a ∈ F.nodes) :
    treeNodeFind m a search comparator =
      some (((a :: (F.under a).nodes).find? (satisfies m search comparator)).getD 0) := by
  obtain ⟨hnode, hall⟩ := h.under ha
  obtain ⟨n, hn, hlt⟩ := h.rounds a
  rw [PiggyOS.treeNodeFind, hn]
  exact nodeFind_succ (nodeFindFrom_spec hall hnode.leads hlt)

/-! ## All queries -/

/-- The queries on a tree, in terms of its shape. -/
structure AnswersQueries (m : TreeMem) (F : Forest U32) : Prop where
  count : ∀ x ∈ F.nodes, ∃ k, ∃ ds : List U32, treeCountChildren m x = some k ∧
    k.toNat = ds.length ∧ ds.Nodup ∧ ∀ y, y ∈ ds ↔ F.Descendant x y
  parent : ∀ a ∈ F.nodes, ∀ y, F.Descendant a y →
    ∃ p, treeNodeFindParent m a y = some p ∧ ∀ q, F.Child q y ↔ q = p
  no_parent : ∀ a ∈ F.nodes, ∀ y, ¬ F.Descendant a y → treeNodeFindParent m a y = some 0
  find : ∀ a ∈ F.nodes, ∀ search comparator, treeNodeFind m a search comparator =
    some (((a :: (F.under a).nodes).find? (satisfies m search comparator)).getD 0)
  find_null : ∀ a ∈ F.nodes, ∀ search comparator, treeNodeFind m a search comparator = some 0 ↔
    ∀ b, b = a ∨ F.Descendant a b → satisfies m search comparator b = false

/-- **Counting, finding a parent and finding a node go by one tree.** -/
theorem TreeOk.answersQueries (h : TreeOk m t F) :
    AnswersQueries m F ∧ F.nodes = t.root :: (F.under t.root).nodes := by
  obtain ⟨cells, hrep⟩ := h.rep
  refine ⟨{
    count := fun x hx => ?_
    parent := fun a ha y hy => ?_
    no_parent := fun a ha y hy => ?_
    find := fun a ha search comparator => hrep.treeNodeFind ha
    find_null := fun a ha search comparator => ?_ }, ?_⟩
  · have hsub := Forest.nodes_under_sublist x F
    have hlt := length_lt_of_nodup hrep.nodup fun b hb => AllRep.ne_null hrep.node hb
    refine ⟨_, (F.under x).nodes, hrep.treeCountChildren hx, ?_, hrep.nodup.sublist hsub,
      fun y => Forest.mem_under_iff hrep.nodup hx⟩
    rw [BitVec.toNat_ofNat, Nat.mod_eq_of_lt (Nat.lt_of_le_of_lt hsub.length_le hlt)]
  · obtain ⟨p, hp, hchild, -⟩ := hrep.treeNodeFindParent ha y
    exact ⟨p, hp, hchild hy⟩
  · obtain ⟨p, hp, -, hnull⟩ := hrep.treeNodeFindParent ha y
    rw [hp, hnull hy]
  · have hmem (b : U32) : b = a ∨ F.Descendant a b ↔ b ∈ a :: (F.under a).nodes := by
      rw [List.mem_cons, Forest.mem_under_iff hrep.nodup ha]
    simp only [hmem]
    rw [hrep.treeNodeFind ha]
    cases hfind : (a :: (F.under a).nodes).find? (satisfies m search comparator) with
    | none => simpa using hfind
    | some b =>
      have hb : b ≠ 0 := by
        rcases List.mem_cons.mp (List.mem_of_find?_eq_some hfind) with rfl | hb
        · exact (hrep.under ha).1.ne_null
        · exact (hrep.under ha).2.ne_null hb
      refine iff_of_false (fun h0 => hb (Option.some.inj h0)) fun hall => ?_
      have hsat := List.find?_some hfind
      rw [hall b (List.mem_of_find?_eq_some hfind)] at hsat
      exact Bool.noConfusion hsat
  · cases F with
    | nil => exact absurd h.roots (by simp [Forest.roots])
    | tree a kids rest =>
      obtain ⟨rfl, hrest⟩ := List.cons.inj h.roots
      cases rest with
      | nil => simp [Forest.nodes, Forest.under]
      | tree b _ _ => exact absurd hrest (by simp [Forest.roots])

end

/-- A root with two children, the nodes `0x200` and `0x300`. The value of the first child is its own
address, that of the second one is not. -/
def sampleTree : TreeMem where
  nodes := {
    node := fun a => if a = 0x400 then ⟨0, 0x500, 0x200⟩ else
      if a = 0x500 then ⟨0x400, 0, 0x300⟩ else ⟨0, 0, 0⟩
    live := fun a => a = 0x400 || a = 0x500
    faults := []
    frees := [] }
  lists := fun a => if a = 0x110 then ⟨0x400, 0x500, 2⟩ else ⟨0, 0, 0⟩
  node := fun a => if a = 0x100 then ⟨1, 0x110, 0⟩ else
    if a = 0x200 then ⟨0x200, 0x210, 0x100⟩ else ⟨3, 0x310, 0x100⟩
  live := fun a => a = 0x100 || a = 0x200 || a = 0x300

def sampleShape : Forest U32 := .tree 0x100 (.tree 0x200 .nil (.tree 0x300 .nil .nil)) .nil

def sampleCells (a : U32) : List U32 := if a = 0x100 then [0x400, 0x500] else []

theorem treeRep_sampleTree : TreeRep sampleTree sampleShape sampleCells where
  nodup := by simp [sampleShape, Forest.nodes]
  node := by
    have hleaf : Represents sampleTree.nodes ⟨0, 0, 0⟩ [] :=
      ⟨rfl, rfl, rfl, trivial, List.nodup_nil, by simp, by simp⟩
    intro a ks h
    simp only [sampleShape, Forest.entries, Forest.roots, List.append_nil, List.nil_append,
      List.mem_cons, Prod.mk.injEq, List.not_mem_nil, or_false] at h
    rcases h with ⟨rfl, rfl⟩ | ⟨rfl, rfl⟩ | ⟨rfl, rfl⟩
    · exact {
        ne_null := by simp
        live := by simp [sampleTree]
        children_ne := by simp [sampleTree]
        kids := {
          nodes := {
            head := rfl
            tail := rfl
            size := rfl
            linked := ⟨rfl, rfl, rfl, rfl, trivial⟩
            nodup := by simp [sampleCells]
            live := by simp [sampleCells, sampleTree]
            ne_null := by simp [sampleCells] }
          values := rfl }
        parent := by simp [sampleTree] }
    · exact ⟨by simp, by simp [sampleTree], by simp [sampleTree], ⟨hleaf, rfl⟩, by simp⟩
    · exact ⟨by simp, by simp [sampleTree], by simp [sampleTree], ⟨hleaf, rfl⟩, by simp⟩
  lists_ne := by simp [sampleShape, sampleTree, Forest.nodes]
  cells_disjoint := by simp [sampleShape, sampleCells, Forest.nodes]

theorem treeOk_sampleTree : TreeOk sampleTree ⟨3, 0x100⟩ sampleShape where
  rep := ⟨sampleCells, treeRep_sampleTree⟩
  roots := rfl
  root_parent := rfl
  count := rfl
  null := rfl
  faults := rfl

theorem answersQueries_sampleTree : TreeOk sampleTree ⟨3, 0x100⟩ sampleShape ∧
    AnswersQueries sampleTree sampleShape ∧
      sampleShape.nodes = 0x100 :: (sampleShape.under 0x100).nodes :=
  ⟨treeOk_sampleTree, treeOk_sampleTree.answersQueries⟩

end PiggyOS
