import PiggyOS.Dsa.Represents
import PiggyOS.Utils.Strcmp

/-!
# Nodes and directories (`fs.h`, `list.h`)

A node of the file systems is kept as an object under its address. A directory is a list whose
values are the addresses of nodes; it is searched by name from the front.
-/

namespace PiggyOS

open Infra

/-- The functions that the pointers of a node lead to. `device` stands for the functions of the
devices and `unset` for a pointer that nothing has been stored to. -/
inductive FnPtr
  | null
  | rootfsReaddir
  | rootfsFinddir
  | devfsReaddir
  | devfsFinddir
  | tarfsRead
  | tarfsReaddir
  | tarfsFinddir
  | device
  | unset
  deriving DecidableEq, Repr

/-- `fs_node_t`, without the times and the functions that are not called here. -/
structure FsNode where
  name : Chars
  flags : U32
  inode : U32
  length : U32
  openFn : FnPtr
  close : FnPtr
  read : FnPtr
  readdir : FnPtr
  finddir : FnPtr

/-- `FS_FILE` -/
def fsFile : U32 := 1

/-- `FS_DIRECTORY` -/
def fsDirectory : U32 := 2

/-- The loop over a directory that looks for a name, from the list node `d` on; the list node it
stops at, or NULL. -/
def findFrom (m : Nodes) (node : U32 → FsNode) (name : Chars) : Nat → U32 → Option U32
  | 0, _ => none
  | n + 1, d =>
    if d = 0 then some 0
    else (strcmp name (node (m.value d)).name).bind fun r =>
      if r = 0 then some d else findFrom m node name n (m.next d)

/-- The loop over the whole directory. -/
def findNode (m : Nodes) (node : U32 → FsNode) (l : ListT) (name : Chars) : Option U32 :=
  findFrom m node name addresses l.head

/-- The result of a search that has stopped at `d`. -/
def foundNode (m : Nodes) (d : U32) : U32 := if d = 0 then 0 else m.value d

/-! ## Names -/

/-- The node at `a` has the name `cs`. -/
def Named (node : U32 → FsNode) (a : U32) (cs : List (BitVec 8)) : Prop :=
  IsString (node a).name cs

/-- The list node `d` of a directory is the first one whose node has the name `cs`. -/
structure FirstNamed (m : Nodes) (node : U32 → FsNode) (ns : List U32) (cs : List (BitVec 8))
    (d : U32) : Prop where
  named : Named node (m.value d) cs
  first : ∃ before after, ns = before ++ d :: after ∧
    ∀ x ∈ before, ¬ Named node (m.value x) cs

section

variable {m : Nodes} {node : U32 → FsNode} {name : Chars} {ns : List U32} {l : ListT}
  {cs cs' : List (BitVec 8)} {a d p : U32} {n : Nat}

theorem IsString.unique {str : Chars} (h : IsString str cs) (h' : IsString str cs') :
    cs = cs' := by
  have hlen : cs.length = cs'.length := by
    have h1 := h.strlen
    rw [h'.strlen] at h1
    exact (Option.some.inj h1).symm
  apply List.ext_getElem hlen
  intro i hi hi'
  rw [← h.chars i hi, h'.chars i hi']

/-- A name does not depend on the other nodes. -/
theorem named_update_of_ne {b : U32} {n : FsNode} (h : a ≠ b) :
    Named (Function.update node b n) a cs ↔ Named node a cs := by
  unfold Named
  rw [Function.update_of_ne h]

/-- A name is the name of the node. -/
theorem Named.congr {node' : U32 → FsNode} (h : Named node a cs) (heq : node' a = node a) :
    Named node' a cs := by
  unfold Named
  rw [heq]
  exact h

theorem FirstNamed.mem (h : FirstNamed m node ns cs d) : d ∈ ns := by
  obtain ⟨before, after, rfl, -⟩ := h.first
  exact List.mem_append_right _ List.mem_cons_self

theorem FirstNamed.cons (h : FirstNamed m node ns cs d) {x : U32}
    (hx : ¬ Named node (m.value x) cs) : FirstNamed m node (x :: ns) cs d := by
  obtain ⟨before, after, rfl, hbefore⟩ := h.first
  exact ⟨h.named, x :: before, after, rfl, List.forall_mem_cons.mpr ⟨hx, hbefore⟩⟩

/-- The loop stops at the first node with the name, or at the end of the list. -/
theorem findFrom_spec (hl : Linked m.next m.prev p ns 0) (hn : ns.length < n)
    (hne : ∀ x ∈ ns, x ≠ 0) (hnames : ∀ x ∈ ns, ∃ cs', Named node (m.value x) cs')
    (hname : IsString name cs) :
    (∃ d, findFrom m node name n (ns.headD 0) = some d ∧ FirstNamed m node ns cs d) ∨
      findFrom m node name n (ns.headD 0) = some 0 ∧ ∀ x ∈ ns, ¬ Named node (m.value x) cs := by
  induction ns generalizing n p with
  | nil =>
    obtain ⟨n, rfl⟩ := Nat.exists_eq_succ_of_ne_zero (Nat.ne_of_gt hn)
    exact Or.inr ⟨rfl, fun x hx => absurd hx List.not_mem_nil⟩
  | cons x ns ih =>
    obtain ⟨n, rfl⟩ := Nat.exists_eq_succ_of_ne_zero (Nat.ne_of_gt (Nat.zero_lt_of_lt hn))
    obtain ⟨-, hnext, hrest⟩ := hl
    obtain ⟨cs', hcs'⟩ := hnames x List.mem_cons_self
    obtain ⟨r, hr, hzero⟩ := hname.strcmp hcs'
    have hround : findFrom m node name (n + 1) x =
        if r = 0 then some x else findFrom m node name n (ns.headD 0) := by
      rw [findFrom, if_neg (hne x List.mem_cons_self), hr, hnext]
      rfl
    rw [List.headD_cons, hround]
    by_cases h0 : r = 0
    · have hnamed : Named node (m.value x) cs := (hzero.mp h0) ▸ hcs'
      rw [if_pos h0]
      exact Or.inl ⟨x, rfl, hnamed, [], ns, rfl, fun _ h => absurd h List.not_mem_nil⟩
    · have hnot : ¬ Named node (m.value x) cs := fun h => h0 (hzero.mpr (h.unique hcs'))
      rw [if_neg h0]
      rcases ih hrest (Nat.lt_of_succ_lt_succ hn) (fun y hy => hne y (List.mem_cons_of_mem _ hy))
        (fun y hy => hnames y (List.mem_cons_of_mem _ hy)) with ⟨d, hd, hfirst⟩ | ⟨hd, hnone⟩
      · exact Or.inl ⟨d, hd, hfirst.cons hnot⟩
      · exact Or.inr ⟨hd, List.forall_mem_cons.mpr ⟨hnot, hnone⟩⟩

/-- A search in a directory all of whose nodes have a name. -/
theorem Represents.findNode (h : Represents m l ns)
    (hnames : ∀ x ∈ ns, ∃ cs', Named node (m.value x) cs') (hname : IsString name cs) :
    (∃ d, findNode m node l name = some d ∧ FirstNamed m node ns cs d) ∨
      findNode m node l name = some 0 ∧ ∀ x ∈ ns, ¬ Named node (m.value x) cs := by
  have hlt := length_lt_of_nodup h.nodup h.ne_null
  unfold PiggyOS.findNode
  rw [h.head]
  exact findFrom_spec h.linked hlt h.ne_null hnames hname

theorem foundNode_zero : foundNode m 0 = 0 := if_pos rfl

theorem Represents.foundNode (h : Represents m l ns) (hd : d ∈ ns) :
    foundNode m d = m.value d := if_neg (h.ne_null d hd)

end

end PiggyOS
