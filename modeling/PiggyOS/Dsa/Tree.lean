import PiggyOS.Dsa.List
import PiggyOS.Infra.Forest

/-!
# Trees (`tree.c`)

The children of a node are a list of `list.c` whose values are the nodes. Nodes, list nodes and
`list_t`s are kept as objects under their addresses, as in `list.c`. The recursions through the
children of a node take one round for each call and each step in a list; a tree has fewer than
`2 ^ 32` nodes, so that `treeRounds` are enough for every tree.
-/

namespace PiggyOS

open Infra

/-- `tree_node_t` -/
structure TreeNode where
  value : U32
  children : U32
  parent : U32

/-- `tree_t` -/
structure TreeT where
  nodes : U32
  root : U32

/-- The objects in memory. `live` holds of the tree nodes that are in use. -/
structure TreeMem where
  nodes : Nodes
  lists : U32 → ListT
  node : U32 → TreeNode
  live : U32 → Bool

namespace TreeMem

variable (m : TreeMem)

/-- `*node->children` -/
def childList (a : U32) : ListT := m.lists (m.node a).children

/-- The `list_t` at `a` after a call of `list.c`. -/
def putList (a : U32) (ns : Nodes) (l : ListT) : TreeMem :=
  { m with nodes := ns, lists := Function.update m.lists a l }

/-- `node->parent = p` -/
def setParent (a p : U32) : TreeMem :=
  { m with node := Function.update m.node a { m.node a with parent := p } }

/-- `free(node)` -/
def free (a : U32) : TreeMem := { m with live := Function.update m.live a false }

end TreeMem

def treeRounds : Nat := 2 ^ 33

/-! ## Queries -/

mutual

/-- The calls of `tree_count_children`. -/
def countChildren (m : TreeMem) : Nat → U32 → Option U32
  | 0, _ => none
  | n + 1, node =>
    if node = 0 then some 0
    else if (m.node node).children = 0 then some 0
    else countChildrenFrom m n (m.childList node).head (m.childList node).size

/-- The loop of `tree_count_children`, at the list node `child`. -/
def countChildrenFrom (m : TreeMem) : Nat → U32 → U32 → Option U32
  | 0, _, _ => none
  | n + 1, child, out =>
    if child = 0 then some out
    else do
      let k ← countChildren m n (m.nodes.value child)
      countChildrenFrom m n (m.nodes.next child) (out + k)

end

/-- `tree_count_children` -/
def treeCountChildren (m : TreeMem) (node : U32) : Option U32 := countChildren m treeRounds node

mutual

/-- The calls of `tree_node_find_parent`. -/
def findParent (m : TreeMem) (needle : U32) : Nat → U32 → Option U32
  | 0, _ => none
  | n + 1, haystack => findParentFrom m needle n haystack (m.childList haystack).head

/-- The loop of `tree_node_find_parent`, at the list node `child`. -/
def findParentFrom (m : TreeMem) (needle : U32) : Nat → U32 → U32 → Option U32
  | 0, _, _ => none
  | n + 1, haystack, child =>
    if child = 0 then some 0
    else if m.nodes.value child = needle then some haystack
    else do
      let found ← findParent m needle n (m.nodes.value child)
      if found ≠ 0 then some found
      else findParentFrom m needle n haystack (m.nodes.next child)

end

/-- `tree_node_find_parent` -/
def treeNodeFindParent (m : TreeMem) (haystack needle : U32) : Option U32 :=
  findParent m needle treeRounds haystack

/-- `tree_find_parent` -/
def treeFindParent (m : TreeMem) (t : TreeT) (node : U32) : Option U32 :=
  if t.root = 0 then some 0 else treeNodeFindParent m t.root node

/-- `tree_comparator_t` -/
abbrev TreeComparator := U32 → U32 → BitVec 8

mutual

/-- The calls of `tree_node_find`. -/
def nodeFind (m : TreeMem) (search : U32) (comparator : TreeComparator) : Nat → U32 → Option U32
  | 0, _ => none
  | n + 1, node =>
    if comparator (m.node node).value search ≠ 0 then some node
    else nodeFindFrom m search comparator n (m.childList node).head

/-- The loop of `tree_node_find`, at the list node `child`. -/
def nodeFindFrom (m : TreeMem) (search : U32) (comparator : TreeComparator) :
    Nat → U32 → Option U32
  | 0, _ => none
  | n + 1, child =>
    if child = 0 then some 0
    else do
      let found ← nodeFind m search comparator n (m.nodes.value child)
      if found ≠ 0 then some found
      else nodeFindFrom m search comparator n (m.nodes.next child)

end

/-- `tree_node_find` -/
def treeNodeFind (m : TreeMem) (node search : U32) (comparator : TreeComparator) : Option U32 :=
  nodeFind m search comparator treeRounds node

/-- `tree_find` -/
def treeFind (m : TreeMem) (t : TreeT) (value : U32) (comparator : TreeComparator) : Option U32 :=
  treeNodeFind m t.root value comparator

/-! ## Removals -/

mutual

/-- The calls of `tree_node_free`. -/
def nodeFree : Nat → TreeMem → U32 → Option TreeMem
  | 0, _, _ => none
  | n + 1, m, node =>
    if node = 0 then some m
    else do
      let m ← nodeFreeFrom n m (m.childList node).head
      return m.free node

/-- The loop of `tree_node_free`, at the list node `child`. -/
def nodeFreeFrom : Nat → TreeMem → U32 → Option TreeMem
  | 0, _, _ => none
  | n + 1, m, child =>
    if child = 0 then some m
    else do
      let m ← nodeFree n m (m.nodes.value child)
      nodeFreeFrom n m (m.nodes.next child)

end

/-- `tree_node_free` -/
def treeNodeFree (m : TreeMem) (node : U32) : Option TreeMem := nodeFree treeRounds m node

/-- What all removals do to the children of the parent:
`list_remove_node(parent->children, list_contain(parent->children, node->value))`. -/
def removeFromParent (m : TreeMem) (parent node : U32) : Option TreeMem := do
  let c ← listContain m.nodes (m.childList parent) (m.node node).value
  let r := listRemoveNode m.nodes (m.childList parent) c
  return m.putList (m.node parent).children r.nodes r.list

/-- The loop that gives the children of a removed node the parent `p`, at the list node `child`. -/
def setParents (p : U32) : Nat → TreeMem → U32 → Option TreeMem
  | 0, _, _ => none
  | n + 1, m, child =>
    if child = 0 then some m
    else setParents p n (m.setParent (m.nodes.value child) p) (m.nodes.next child)

/-- `list_merge(target->children, node->children)` -/
def mergeChildren (m : TreeMem) (target node : U32) : TreeMem :=
  let r := listMerge m.nodes (m.childList target) (m.childList node)
  m.putList (m.node target).children r.1 r.2

/-- `tree_node_parent_remove` -/
def treeNodeParentRemove (m : TreeMem) (t : TreeT) (parent node : U32) :
    Option (TreeMem × TreeT) := do
  let count ← treeCountChildren m node
  let t := { t with nodes := t.nodes - (count + 1) }
  let m ← removeFromParent m parent node
  let m ← treeNodeFree m node
  return (m, t)

/-- `tree_node_remove` -/
def treeNodeRemove (m : TreeMem) (t : TreeT) (node : U32) : Option (TreeMem × TreeT) := do
  let parent := (m.node node).parent
  if parent = 0 ∧ node = t.root then
    let m ← treeNodeFree m node
    treeNodeParentRemove m { nodes := 0, root := 0 } parent node
  else treeNodeParentRemove m t parent node

/-- What `tree_remove` and `tree_remove_reparent_root` do to a node with a parent; `q` is the new
parent of its children. -/
def removeNodeTo (m : TreeMem) (t : TreeT) (q node : U32) : Option (TreeMem × TreeT) := do
  let t := { t with nodes := t.nodes - 1 }
  let m ← removeFromParent m (m.node node).parent node
  let m ← setParents q (2 ^ 32) m (m.childList node).head
  return ((mergeChildren m q node).free node, t)

/-- `tree_remove` -/
def treeRemove (m : TreeMem) (t : TreeT) (node : U32) : Option (TreeMem × TreeT) :=
  if (m.node node).parent = 0 then some (m, t)
  else removeNodeTo m t (m.node node).parent node

/-- `tree_remove_reparent_root` -/
def treeRemoveReparentRoot (m : TreeMem) (t : TreeT) (node : U32) : Option (TreeMem × TreeT) :=
  if (m.node node).parent = 0 then some (m, t)
  else removeNodeTo m t t.root node

end PiggyOS
