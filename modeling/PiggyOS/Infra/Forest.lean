import Mathlib.Data.List.Perm.Basic
import Mathlib.Data.List.Nodup
import Mathlib.Data.List.Pairwise
import Mathlib.Logic.Relation

/-!
# Ordered forests

A forest is the list of its trees in order; a tree is a node over the forest of its children. Both
lists of a node, that of its children and that of its later siblings, are parts of it, so that what
is defined on forests is defined by plain recursion.

* `mem_nodes_iff`, `nodes_cases` — every node is the parent of its children and is a root or a child
* `mem_under_iff` — the nodes under a node are its proper descendants
* `Prune` — a node is taken out of its siblings with all that is under it (`nodes_prune`,
  `entries_prune`)
* `graft` — trees are put behind the children of a node (`nodes_graft`, `entries_graft`)
-/

namespace PiggyOS.Infra

inductive Forest (A : Type _)
  | nil : Forest A
  | tree (a : A) (kids rest : Forest A) : Forest A

namespace Forest

variable {A : Type _}

/-- The roots of the trees. -/
def roots : Forest A → List A
  | nil => []
  | tree a _ rest => a :: rest.roots

/-- The nodes in preorder. -/
def nodes : Forest A → List A
  | nil => []
  | tree a kids rest => a :: (kids.nodes ++ rest.nodes)

/-- Each node with its children. -/
def entries : Forest A → List (A × List A)
  | nil => []
  | tree a kids rest => (a, kids.roots) :: (kids.entries ++ rest.entries)

/-- `b` is a child of `a`. -/
def Child (F : Forest A) (a b : A) : Prop := ∃ ks, (a, ks) ∈ F.entries ∧ b ∈ ks

/-- `b` is a proper descendant of `a`. -/
def Descendant (F : Forest A) (a b : A) : Prop := Relation.TransGen F.Child a b

/-- `F` and `G` one behind the other. -/
def append : Forest A → Forest A → Forest A
  | nil, G => G
  | tree a kids rest, G => tree a kids (rest.append G)

section

variable [DecidableEq A]

/-- The forest of the children of `x`. -/
def under (x : A) : Forest A → Forest A
  | nil => nil
  | tree a kids rest =>
    if a = x then kids else if x ∈ kids.nodes then kids.under x else rest.under x

/-- Leaves out the tree with the root `x`. -/
def drop (x : A) : Forest A → Forest A
  | nil => nil
  | tree a kids rest => if a = x then rest else tree a kids (rest.drop x)

/-- Changes the forest of the children of `p` by `f`. -/
def modify (p : A) (f : Forest A → Forest A) : Forest A → Forest A
  | nil => nil
  | tree a kids rest =>
    if a = p then tree a (f kids) rest
    else if p ∈ kids.nodes then tree a (kids.modify p f) rest
    else tree a kids (rest.modify p f)

/-- Takes the child `x` of `p` out, with all that is under it. -/
def prune (p x : A) (F : Forest A) : Forest A := F.modify p (drop x)

/-- Puts the trees of `G` behind the children of `q`. -/
def graft (q : A) (F G : Forest A) : Forest A := F.modify q fun K => K.append G

end

variable {F G : Forest A} {a b p q x y : A} {ks ls : List A}

/-! ## Nodes and their children -/

theorem map_fst_entries (F : Forest A) : F.entries.map Prod.fst = F.nodes := by
  induction F with
  | nil => rfl
  | tree a kids rest ihk ihr => simp [entries, nodes, ihk, ihr]

theorem mem_nodes_iff : a ∈ F.nodes ↔ ∃ ks, (a, ks) ∈ F.entries := by
  rw [← map_fst_entries]
  simp

theorem mem_nodes_of_entry (h : (a, ks) ∈ F.entries) : a ∈ F.nodes := mem_nodes_iff.mpr ⟨ks, h⟩

theorem roots_sublist (F : Forest A) : F.roots.Sublist F.nodes := by
  induction F with
  | nil => exact List.Sublist.refl _
  | tree a kids rest _ ih => exact (ih.trans (List.sublist_append_right _ _)).cons_cons a

theorem mem_nodes_of_mem_roots (h : a ∈ F.roots) : a ∈ F.nodes := F.roots_sublist.subset h

theorem mem_nodes_of_mem_kids (h : (a, ks) ∈ F.entries) (hb : b ∈ ks) : b ∈ F.nodes := by
  induction F with
  | nil => exact absurd h List.not_mem_nil
  | tree c kids rest ihk ihr =>
    refine List.mem_cons_of_mem _ (List.mem_append.mpr ?_)
    rcases List.mem_cons.mp h with h | h
    · obtain ⟨rfl, rfl⟩ := Prod.mk.inj h
      exact Or.inl (mem_nodes_of_mem_roots hb)
    · exact (List.mem_append.mp h).imp ihk ihr

/-- Every node is a root or the child of a node. -/
theorem nodes_cases (h : b ∈ F.nodes) : b ∈ F.roots ∨ ∃ a, F.Child a b := by
  induction F with
  | nil => exact absurd h List.not_mem_nil
  | tree c kids rest ihk ihr =>
    rcases List.mem_cons.mp h with rfl | h
    · exact Or.inl List.mem_cons_self
    rcases List.mem_append.mp h with h | h
    · rcases ihk h with hr | ⟨a, ks, hks, hb⟩
      · exact Or.inr ⟨c, kids.roots, List.mem_cons_self, hr⟩
      · exact Or.inr ⟨a, ks, List.mem_cons_of_mem _ (List.mem_append_left _ hks), hb⟩
    · rcases ihr h with hr | ⟨a, ks, hks, hb⟩
      · exact Or.inl (List.mem_cons_of_mem _ hr)
      · exact Or.inr ⟨a, ks, List.mem_cons_of_mem _ (List.mem_append_right _ hks), hb⟩

/-- A node occurs once and has one list of children. -/
theorem entry_unique (hnd : F.nodes.Nodup) (h : (a, ks) ∈ F.entries) (h' : (a, ls) ∈ F.entries) :
    ks = ls := by
  rw [← map_fst_entries] at hnd
  exact congrArg Prod.snd (List.inj_on_of_nodup_map hnd h h' rfl)

/-- The place of a node in a forest: it is the first one, or in one of the two parts. -/
theorem entry_cases {kids rest : Forest A} (hnd : (tree b kids rest).nodes.Nodup)
    (h : (p, ks) ∈ (tree b kids rest).entries) :
    (b = p ∧ ks = kids.roots) ∨ (b ≠ p ∧ p ∈ kids.nodes ∧ (p, ks) ∈ kids.entries) ∨
      (b ≠ p ∧ p ∉ kids.nodes ∧ (p, ks) ∈ rest.entries) := by
  obtain ⟨hb, hnd⟩ := List.nodup_cons.mp hnd
  obtain ⟨-, -, hdisj⟩ := List.nodup_append.mp hnd
  rcases List.mem_cons.mp h with h | h
  · obtain ⟨rfl, rfl⟩ := Prod.mk.inj h
    exact Or.inl ⟨rfl, rfl⟩
  have hne : b ≠ p := by
    rintro rfl
    exact hb (List.mem_append.mpr
      ((List.mem_append.mp h).imp mem_nodes_of_entry mem_nodes_of_entry))
  rcases List.mem_append.mp h with h | h
  · exact Or.inr (Or.inl ⟨hne, mem_nodes_of_entry h, h⟩)
  · have hp := mem_nodes_of_entry h
    exact Or.inr (Or.inr ⟨hne, fun hk => hdisj p hk p hp rfl, h⟩)

/-- Every node is a root once or a child once. -/
theorem nodes_perm (F : Forest A) :
    F.nodes.Perm (F.roots ++ F.entries.flatMap Prod.snd) := by
  induction F with
  | nil => exact List.Perm.refl _
  | tree a kids rest ihk ihr =>
    simp only [nodes, roots, entries, List.flatMap_cons, List.flatMap_append, List.cons_append]
    refine List.Perm.cons a ((ihk.append ihr).trans ?_)
    rw [← List.append_assoc (kids.roots ++ _), ← List.append_assoc kids.roots,
      ← List.append_assoc rest.roots]
    exact List.Perm.append_right _ List.perm_append_comm

theorem parent_unique (hnd : F.nodes.Nodup) (ha : (a, ks) ∈ F.entries) (hb : (b, ls) ∈ F.entries)
    (hya : y ∈ ks) (hyb : y ∈ ls) : a = b := by
  have hflat := (List.nodup_append.mp (F.nodes_perm.nodup_iff.mp hnd)).2.1
  have hpair := (List.nodup_flatMap.mp hflat).2
  have : Std.Symm (Function.onFun List.Disjoint (Prod.snd : A × List A → List A)) :=
    ⟨fun _ _ h _ hz hz' => h hz' hz⟩
  by_contra hne
  exact hpair.forall ha hb (fun heq => hne (congrArg Prod.fst heq)) hya hyb

@[simp] theorem roots_append (F G : Forest A) : (F.append G).roots = F.roots ++ G.roots := by
  induction F with
  | nil => rfl
  | tree a kids rest _ ih => simp [append, roots, ih]

@[simp] theorem nodes_append (F G : Forest A) : (F.append G).nodes = F.nodes ++ G.nodes := by
  induction F with
  | nil => rfl
  | tree a kids rest _ ih => simp [append, nodes, ih]

@[simp] theorem entries_append (F G : Forest A) :
    (F.append G).entries = F.entries ++ G.entries := by
  induction F with
  | nil => rfl
  | tree a kids rest _ ih => simp [append, entries, ih]

/-! ## The nodes under a node -/

/-- Every node is a root or a descendant of one. -/
theorem reflTransGen_of_mem (h : y ∈ G.nodes) (hsub : G.entries ⊆ F.entries) :
    ∃ r ∈ G.roots, Relation.ReflTransGen F.Child r y := by
  induction G with
  | nil => exact absurd h List.not_mem_nil
  | tree a kids rest ihk ihr =>
    rw [entries, List.cons_subset, List.append_subset] at hsub
    obtain ⟨ha, hk, hr⟩ := hsub
    rcases List.mem_cons.mp h with rfl | h
    · exact ⟨y, List.mem_cons_self, Relation.ReflTransGen.refl⟩
    rcases List.mem_append.mp h with h | h
    · obtain ⟨r, hroot, hry⟩ := ihk h hk
      exact ⟨a, List.mem_cons_self, Relation.ReflTransGen.head ⟨_, ha, hroot⟩ hry⟩
    · obtain ⟨r, hroot, hry⟩ := ihr h hr
      exact ⟨r, List.mem_cons_of_mem _ hroot, hry⟩

section

variable [DecidableEq A]

theorem entries_under_subset (x : A) (F : Forest A) : (F.under x).entries ⊆ F.entries := by
  induction F with
  | nil => exact List.Subset.refl _
  | tree a kids rest ihk ihr =>
    intro e he
    refine List.mem_cons_of_mem _ (List.mem_append.mpr ?_)
    rw [under] at he
    split at he
    · exact Or.inl he
    split at he
    · exact Or.inl (ihk he)
    · exact Or.inr (ihr he)

/-- The children of `x` are the roots of what is under it. -/
theorem entry_under (h : x ∈ F.nodes) : (x, (F.under x).roots) ∈ F.entries := by
  induction F with
  | nil => exact absurd h List.not_mem_nil
  | tree a kids rest ihk ihr =>
    rw [under, entries]
    by_cases hax : a = x
    · rw [if_pos hax, hax]
      exact List.mem_cons_self
    rw [if_neg hax]
    refine List.mem_cons_of_mem _ (List.mem_append.mpr ?_)
    by_cases hk : x ∈ kids.nodes
    · rw [if_pos hk]
      exact Or.inl (ihk hk)
    · rw [if_neg hk]
      have h' := (List.mem_cons.mp h).resolve_left (Ne.symm hax)
      exact Or.inr (ihr ((List.mem_append.mp h').resolve_left hk))

/-- What is under a node are its proper descendants. -/
theorem mem_under_iff (hnd : F.nodes.Nodup) (hx : x ∈ F.nodes) :
    y ∈ (F.under x).nodes ↔ F.Descendant x y := by
  have hentry := entry_under hx
  constructor
  · intro h
    obtain ⟨r, hr, hry⟩ := reflTransGen_of_mem h (entries_under_subset x F)
    exact Relation.TransGen.head' ⟨_, hentry, hr⟩ hry
  · intro h
    induction h with
    | single hc =>
      obtain ⟨ks, hks, hy⟩ := hc
      rw [entry_unique hnd hks hentry] at hy
      exact mem_nodes_of_mem_roots hy
    | tail _ hc ih =>
      obtain ⟨ks, hks, hy⟩ := hc
      obtain ⟨ls, hls⟩ := mem_nodes_iff.mp ih
      rw [entry_unique hnd hks (entries_under_subset x F hls)] at hy
      exact mem_nodes_of_mem_kids hls hy

/-! ## Taking a tree out -/

theorem roots_modify (p : A) (f : Forest A → Forest A) (F : Forest A) :
    (F.modify p f).roots = F.roots := by
  induction F with
  | nil => rfl
  | tree a kids rest _ ih =>
    rw [modify]
    split
    · rfl
    split
    · rfl
    · rw [roots, ih, roots]

theorem mem_nodes_modify (p : A) (f : Forest A → Forest A) (h : p ∈ F.nodes) :
    p ∈ (F.modify p f).nodes := by
  induction F with
  | nil => exact h
  | tree a kids rest ihk ihr =>
    rw [modify]
    split
    · next hap => exact hap ▸ List.mem_cons_self
    next hap =>
    have h := (List.mem_cons.mp h).resolve_left (Ne.symm hap)
    split
    · next hk => exact List.mem_cons_of_mem _ (List.mem_append_left _ (ihk hk))
    · next hk =>
      have hr := ihr ((List.mem_append.mp h).resolve_left hk)
      exact List.mem_cons_of_mem _ (List.mem_append_right _ hr)

theorem roots_drop (x : A) (F : Forest A) : (F.drop x).roots = F.roots.erase x := by
  induction F with
  | nil => rfl
  | tree a kids rest _ ih =>
    rw [drop, roots]
    by_cases hax : a = x
    · rw [if_pos hax, hax, List.erase_cons_head]
    · rw [if_neg hax, List.erase_cons_tail (by simpa using hax), roots, ih]

theorem entries_drop_subset (x : A) (F : Forest A) : (F.drop x).entries ⊆ F.entries := by
  induction F with
  | nil => exact List.Subset.refl _
  | tree a kids rest _ ih =>
    intro e he
    rw [drop] at he
    split at he
    · exact List.mem_cons_of_mem _ (List.mem_append_right _ he)
    · rcases List.mem_cons.mp he with he | he
      · exact he ▸ List.mem_cons_self
      · refine List.mem_cons_of_mem _ (List.mem_append.mpr ?_)
        exact (List.mem_append.mp he).imp_right (@ih e)

theorem nodes_drop (hnd : F.nodes.Nodup) (hx : x ∈ F.roots) :
    F.nodes.Perm ((F.drop x).nodes ++ x :: (F.under x).nodes) := by
  induction F with
  | nil => exact absurd hx List.not_mem_nil
  | tree a kids rest _ ih =>
    obtain ⟨-, hnd⟩ := List.nodup_cons.mp hnd
    obtain ⟨-, hndr, hdisj⟩ := List.nodup_append.mp hnd
    rw [drop, under, nodes]
    by_cases hax : a = x
    · rw [if_pos hax, if_pos hax, hax]
      refine List.perm_iff_count.mpr fun c => ?_
      simp only [List.count_cons, List.count_append]
      omega
    · have hr : x ∈ rest.roots := (List.mem_cons.mp hx).resolve_left (Ne.symm hax)
      have hk : x ∉ kids.nodes := fun hk => hdisj x hk x (mem_nodes_of_mem_roots hr) rfl
      rw [if_neg hax, if_neg hax, if_neg hk, nodes]
      refine List.perm_iff_count.mpr fun c => ?_
      have := (ih hndr hr).count_eq c
      simp only [List.count_cons, List.count_append] at *
      omega

/-- The tree of `x` and the rest are all the nodes. -/
theorem nodes_prune (hnd : F.nodes.Nodup) (hp : (p, ks) ∈ F.entries) (hx : x ∈ ks) :
    F.nodes.Perm ((F.prune p x).nodes ++ x :: (F.under x).nodes) := by
  induction F with
  | nil => exact absurd hp List.not_mem_nil
  | tree b kids rest ihk ihr =>
    have hcases := entry_cases hnd hp
    obtain ⟨hb, hnd⟩ := List.nodup_cons.mp hnd
    obtain ⟨hndk, hndr, hdisj⟩ := List.nodup_append.mp hnd
    unfold prune at *
    rw [modify, under, nodes]
    rcases hcases with ⟨hbp, rfl⟩ | ⟨hbp, hpk, hp⟩ | ⟨hbp, hpk, hp⟩
    · have hxk : x ∈ kids.nodes := mem_nodes_of_mem_roots hx
      have hbx : b ≠ x := fun h => hb (h ▸ List.mem_append_left _ hxk)
      rw [if_pos hbp, if_neg hbx, if_pos hxk, nodes]
      refine List.perm_iff_count.mpr fun c => ?_
      have := (nodes_drop hndk hx).count_eq c
      simp only [List.count_cons, List.count_append] at *
      omega
    · have hxk : x ∈ kids.nodes := mem_nodes_of_mem_kids hp hx
      have hbx : b ≠ x := fun h => hb (h ▸ List.mem_append_left _ hxk)
      rw [if_neg hbp, if_pos hpk, if_neg hbx, if_pos hxk, nodes]
      refine List.perm_iff_count.mpr fun c => ?_
      have := (ihk hndk hp).count_eq c
      simp only [List.count_cons, List.count_append] at *
      omega
    · have hxr : x ∈ rest.nodes := mem_nodes_of_mem_kids hp hx
      have hxk : x ∉ kids.nodes := fun hk => hdisj x hk x hxr rfl
      have hbx : b ≠ x := fun h => hb (h ▸ List.mem_append_right _ hxr)
      rw [if_neg hbp, if_neg hpk, if_neg hbx, if_neg hxk, nodes]
      refine List.perm_iff_count.mpr fun c => ?_
      have := (ihr hndr hp).count_eq c
      simp only [List.count_cons, List.count_append] at *
      omega

theorem nodes_under_sublist (x : A) (F : Forest A) : (F.under x).nodes.Sublist F.nodes := by
  induction F with
  | nil => exact List.Sublist.refl _
  | tree b kids rest ihk ihr =>
    rw [under, nodes]
    refine List.Sublist.cons _ ?_
    split
    · exact List.sublist_append_left _ _
    split
    · exact ihk.trans (List.sublist_append_left _ _)
    · exact ihr.trans (List.sublist_append_right _ _)

theorem under_append (h : x ∉ F.nodes) (G : Forest A) : (F.append G).under x = G.under x := by
  induction F with
  | nil => rfl
  | tree b kids rest _ ihr =>
    have hb : b ≠ x := fun hb => h (hb ▸ List.mem_cons_self)
    have hk : x ∉ kids.nodes := fun hk => h (List.mem_cons_of_mem b (List.mem_append_left _ hk))
    rw [append, under, if_neg hb, if_neg hk]
    exact ihr fun hr => h (List.mem_cons_of_mem b (List.mem_append_right _ hr))

theorem not_mem_under (hnd : F.nodes.Nodup) : x ∉ (F.under x).nodes := by
  induction F with
  | nil => exact List.not_mem_nil
  | tree b kids rest ihk ihr =>
    obtain ⟨hb, hnd⟩ := List.nodup_cons.mp hnd
    obtain ⟨hndk, hndr, -⟩ := List.nodup_append.mp hnd
    rw [under]
    split
    · next hbx => exact fun hx => hb (hbx ▸ List.mem_append_left _ hx)
    split
    · exact ihk hndk
    · exact ihr hndr

/-- What the nodes of a forest are when the children of one are changed. -/
theorem entries_modify {f : Forest A → Forest A} (hnd : F.nodes.Nodup) (hp : p ∈ F.nodes)
    (h : (a, ls) ∈ (F.modify p f).entries) :
    (a = p ∧ ls = (f (F.under p)).roots) ∨ (a, ls) ∈ (f (F.under p)).entries ∨
      (a ≠ p ∧ (a, ls) ∈ F.entries) := by
  induction F with
  | nil => exact absurd hp List.not_mem_nil
  | tree b kids rest ihk ihr =>
    obtain ⟨ks, hks⟩ := mem_nodes_iff.mp hp
    have hcases := entry_cases hnd hks
    obtain ⟨hb, hnd⟩ := List.nodup_cons.mp hnd
    obtain ⟨hndk, hndr, hdisj⟩ := List.nodup_append.mp hnd
    rw [modify] at h
    rw [under]
    have hkids {e : A × List A} (he : e ∈ kids.entries) : e ∈ (tree b kids rest).entries :=
      List.mem_cons_of_mem _ (List.mem_append_left _ he)
    have hrest {e : A × List A} (he : e ∈ rest.entries) : e ∈ (tree b kids rest).entries :=
      List.mem_cons_of_mem _ (List.mem_append_right _ he)
    -- `p` is the root `b`, below it, or behind it
    rcases hcases with ⟨hbp, -⟩ | ⟨hbp, hpk, -⟩ | ⟨hbp, hpk, hpr⟩
    · rw [if_pos hbp] at h ⊢
      rcases List.mem_cons.mp h with h | h
      · obtain ⟨rfl, rfl⟩ := Prod.mk.inj h
        exact Or.inl ⟨hbp, rfl⟩
      rcases List.mem_append.mp h with h | h
      · exact Or.inr (Or.inl h)
      · refine Or.inr (Or.inr ⟨?_, hrest h⟩)
        rintro rfl
        exact hb (hbp ▸ List.mem_append_right _ (mem_nodes_of_entry h))
    · rw [if_neg hbp, if_pos hpk] at h ⊢
      rcases List.mem_cons.mp h with h | h
      · obtain ⟨rfl, rfl⟩ := Prod.mk.inj h
        rw [roots_modify]
        exact Or.inr (Or.inr ⟨hbp, List.mem_cons_self⟩)
      rcases List.mem_append.mp h with hk | hr
      · exact (ihk hndk hpk hk).imp_right (Or.imp_right (And.imp_right hkids))
      · refine Or.inr (Or.inr ⟨?_, hrest hr⟩)
        rintro rfl
        exact hdisj a hpk a (mem_nodes_of_entry hr) rfl
    · rw [if_neg hbp, if_neg hpk] at h ⊢
      rcases List.mem_cons.mp h with h | h
      · obtain ⟨rfl, rfl⟩ := Prod.mk.inj h
        exact Or.inr (Or.inr ⟨hbp, List.mem_cons_self⟩)
      rcases List.mem_append.mp h with hk | hr
      · refine Or.inr (Or.inr ⟨?_, hkids hk⟩)
        rintro rfl
        exact hpk (mem_nodes_of_entry hk)
      · exact (ihr hndr (mem_nodes_of_entry hpr) hr).imp_right (Or.imp_right (And.imp_right hrest))

/-- The forest with the tree of the child `x` of `p` taken out and put behind the others. -/
def split (p x : A) (F : Forest A) : Forest A := (F.prune p x).append (tree x (F.under x) nil)

theorem nodes_split (hnd : F.nodes.Nodup) (hp : (p, ks) ∈ F.entries) (hx : x ∈ ks) :
    F.nodes.Perm (F.split p x).nodes := by
  rw [split, nodes_append, nodes, nodes, List.append_nil]
  exact nodes_prune hnd hp hx

/-- What is under a node moves with it. -/
theorem under_split (hnd : F.nodes.Nodup) (hp : (p, ks) ∈ F.entries) (hx : x ∈ ks) :
    (F.split p x).under x = F.under x := by
  have hdisj := (List.nodup_append.mp ((nodes_prune hnd hp hx).nodup_iff.mp hnd)).2.2
  have hout : x ∉ (F.prune p x).nodes := fun h => hdisj x h x List.mem_cons_self rfl
  rw [split, under_append hout, under, if_pos rfl]

/-- The parent is not among the nodes that are taken out. -/
theorem not_mem_taken (hnd : F.nodes.Nodup) (hp : (p, ks) ∈ F.entries) (hx : x ∈ ks) :
    p ≠ x ∧ p ∉ (F.under x).nodes := by
  have hkeep : p ∈ (F.prune p x).nodes := mem_nodes_modify p _ (mem_nodes_of_entry hp)
  have hnd' := (nodes_prune hnd hp hx).nodup_iff.mp hnd
  have hdisj := (List.nodup_append.mp hnd').2.2 p hkeep
  exact ⟨hdisj x List.mem_cons_self, fun hm => hdisj p (List.mem_cons_of_mem x hm) rfl⟩

theorem roots_under (hnd : F.nodes.Nodup) (hp : (p, ks) ∈ F.entries) : (F.under p).roots = ks :=
  entry_unique hnd (entry_under (mem_nodes_of_entry hp)) hp

theorem child_iff_mem_under (hnd : F.nodes.Nodup) (hx : x ∈ F.nodes) :
    F.Child x y ↔ y ∈ (F.under x).roots := by
  constructor
  · rintro ⟨ks, hks, hy⟩
    rwa [roots_under hnd hks]
  · exact fun hy => ⟨_, entry_under hx, hy⟩

/-- The nodes that are left keep their children, except for the one that loses `x`. -/
theorem entries_prune (hnd : F.nodes.Nodup) (hp : (p, ks) ∈ F.entries)
    (h : (a, ls) ∈ (F.prune p x).entries) :
    (a = p ∧ ls = ks.erase x) ∨ (a ≠ p ∧ (a, ls) ∈ F.entries) := by
  rcases entries_modify hnd (mem_nodes_of_entry hp) h with ⟨rfl, hls⟩ | hin | hout
  · rw [roots_drop, roots_under hnd hp] at hls
    exact Or.inl ⟨rfl, hls⟩
  · have hin := entries_drop_subset x _ hin
    refine Or.inr ⟨?_, entries_under_subset p F hin⟩
    rintro rfl
    exact not_mem_under hnd (mem_nodes_of_entry hin)
  · exact Or.inr hout

theorem entries_split (hnd : F.nodes.Nodup) (hp : (p, ks) ∈ F.entries) (hx : x ∈ ks)
    (h : (a, ls) ∈ (F.split p x).entries) :
    (a = p ∧ ls = ks.erase x) ∨ (a ≠ p ∧ (a, ls) ∈ F.entries) := by
  rw [split, entries_append] at h
  rcases List.mem_append.mp h with hrest | htree
  · exact entries_prune hnd hp hrest
  rw [entries, entries, List.append_nil] at htree
  have htaken := not_mem_taken hnd hp hx
  rcases List.mem_cons.mp htree with heq | hunder
  · obtain ⟨rfl, rfl⟩ := Prod.mk.inj heq
    exact Or.inr ⟨htaken.1.symm, entry_under (mem_nodes_of_mem_kids hp hx)⟩
  · refine Or.inr ⟨?_, entries_under_subset x F hunder⟩
    rintro rfl
    exact htaken.2 (mem_nodes_of_entry hunder)

theorem kids_nodup (hnd : F.nodes.Nodup) (hp : (p, ks) ∈ F.entries) : ks.Nodup := by
  rw [← roots_under hnd hp]
  exact hnd.sublist ((roots_sublist _).trans (nodes_under_sublist p F))

/-! ## Putting trees in -/

theorem entries_graft (hnd : F.nodes.Nodup) (hq : (q, ks) ∈ F.entries)
    (h : (a, ls) ∈ (F.graft q G).entries) :
    (a = q ∧ ls = ks ++ G.roots) ∨ (a, ls) ∈ G.entries ∨ (a ≠ q ∧ (a, ls) ∈ F.entries) := by
  rcases entries_modify hnd (mem_nodes_of_entry hq) h with ⟨rfl, hls⟩ | hin | hout
  · rw [roots_append, roots_under hnd hq] at hls
    exact Or.inl ⟨rfl, hls⟩
  · rw [entries_append] at hin
    rcases List.mem_append.mp hin with hin | hin
    · refine Or.inr (Or.inr ⟨?_, entries_under_subset q F hin⟩)
      rintro rfl
      exact not_mem_under hnd (mem_nodes_of_entry hin)
    · exact Or.inr (Or.inl hin)
  · exact Or.inr (Or.inr hout)

theorem nodes_graft (G : Forest A) (hq : q ∈ F.nodes) :
    (F.graft q G).nodes.Perm (F.nodes ++ G.nodes) := by
  induction F with
  | nil => exact absurd hq List.not_mem_nil
  | tree b kids rest ihk ihr =>
    unfold graft at *
    rw [modify, nodes]
    refine List.perm_iff_count.mpr fun c => ?_
    split
    · rw [nodes, nodes_append]
      simp only [List.count_cons, List.count_append]
      omega
    next hbq =>
    have hq := (List.mem_cons.mp hq).resolve_left (Ne.symm hbq)
    split
    · next hk =>
      rw [nodes]
      have := (ihk hk).count_eq c
      simp only [List.count_cons, List.count_append] at *
      omega
    · next hk =>
      rw [nodes]
      have := (ihr ((List.mem_append.mp hq).resolve_left hk)).count_eq c
      simp only [List.count_cons, List.count_append] at *
      omega

end

end Forest

end PiggyOS.Infra
