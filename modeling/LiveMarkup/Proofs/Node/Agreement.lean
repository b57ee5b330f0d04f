import Mathlib.Data.List.Nodup
import LiveMarkup.Node.Store

/-!
# Stores that agree, and trees in stores

Two things are said of stores throughout. `NodeStore.Agrees` says that one store has grown out of
another and that the nodes outside of a list are what they were; `NodeStore.Shows` says that nodes
stand in a store as they stand in a list. The list is mostly that of a tree, `Tree.asNodes`. What is
shown stays shown as long as nothing in it is changed (`NodeStore.Shows.of_agrees`).

Both are relative to what of a node is looked at: everything, or only its `Node.skeleton`, the part
that makes up the structure of trees. Directives change attributes and data; the skeleton is what
they leave alone.
-/

namespace LiveMarkup

/-- The part of a node that the structure of trees is made of. -/
def Node.skeleton (node : Node) : NodeKind × List NodeId × Option NodeId :=
  (node.kind, node.children, node.parent)

/-! ## Trees as lists of nodes -/

namespace Tree

mutual

/-- The nodes of a tree with their identities, as a store has them when `p` is the parent of the
root. -/
def asNodes (p : Option NodeId) : Tree NodeId → List (NodeId × Node)
  | .node n kind attrs data children =>
    (n, { kind, attrs, data, children := children.map label, parent := p }) ::
      asNodesAll (some n) children

/-- The nodes of trees whose roots have the same parent. -/
def asNodesAll (p : Option NodeId) : List (Tree NodeId) → List (NodeId × Node)
  | [] => []
  | t :: ts => asNodes p t ++ asNodesAll p ts

end

mutual

theorem map_fst_asNodes (p : Option NodeId) (t : Tree NodeId) :
    (t.asNodes p).map Prod.fst = t.labels := by
  obtain ⟨n, kind, attrs, data, children⟩ := t
  rw [asNodes, labels, List.map_cons, map_fst_asNodesAll]

theorem map_fst_asNodesAll (p : Option NodeId) (ts : List (Tree NodeId)) :
    (asNodesAll p ts).map Prod.fst = labelsAll ts := by
  match ts with
  | [] => rfl
  | t :: ts => rw [asNodesAll, labelsAll, List.map_append, map_fst_asNodes, map_fst_asNodesAll]

end

theorem mem_labels_of_mem_asNodes {p : Option NodeId} {t : Tree NodeId} {x : NodeId × Node}
    (h : x ∈ t.asNodes p) : x.1 ∈ t.labels :=
  map_fst_asNodes p t ▸ List.mem_map_of_mem h

theorem mem_labelsAll_of_mem_asNodesAll {p : Option NodeId} {ts : List (Tree NodeId)}
    {x : NodeId × Node} (h : x ∈ asNodesAll p ts) : x.1 ∈ labelsAll ts :=
  map_fst_asNodesAll p ts ▸ List.mem_map_of_mem h

theorem asNodesAll_singleton (p : Option NodeId) (t : Tree NodeId) :
    asNodesAll p [t] = t.asNodes p := List.append_nil _

theorem labelsAll_singleton {α : Type} (t : Tree α) : labelsAll [t] = t.labels := List.append_nil _

theorem asNodesAll_append (p : Option NodeId) (ts us : List (Tree NodeId)) :
    asNodesAll p (ts ++ us) = asNodesAll p ts ++ asNodesAll p us := by
  induction ts with
  | nil => rfl
  | cons t ts ih => rw [List.cons_append, asNodesAll, ih, asNodesAll, List.append_assoc]

theorem labelsAll_append {α : Type} (ts us : List (Tree α)) :
    labelsAll (ts ++ us) = labelsAll ts ++ labelsAll us := by
  induction ts with
  | nil => rfl
  | cons t ts ih => rw [List.cons_append, labelsAll, ih, labelsAll, List.append_assoc]

theorem label_mem_labels {α : Type} (t : Tree α) : t.label ∈ t.labels := by
  obtain ⟨n, kind, attrs, data, children⟩ := t
  exact List.mem_cons_self

theorem map_label_sublist_labelsAll {α : Type} (ts : List (Tree α)) :
    (ts.map label).Sublist (labelsAll ts) := by
  induction ts with
  | nil => exact List.Sublist.refl _
  | cons t ts ih =>
    obtain ⟨n, kind, attrs, data, children⟩ := t
    exact (ih.trans (List.sublist_append_right _ _)).cons_cons n

mutual

/-- The nodes of a tree list nodes of the tree. -/
theorem children_subset_of_mem_asNodes (p : Option NodeId) (t : Tree NodeId) {x : NodeId × Node}
    (h : x ∈ t.asNodes p) : x.2.children ⊆ t.labels := by
  obtain ⟨n, kind, attrs, data, children⟩ := t
  rcases List.mem_cons.mp h with rfl | h
  · exact List.subset_cons_of_subset n (map_label_sublist_labelsAll children).subset
  · exact List.subset_cons_of_subset n (children_subset_of_mem_asNodesAll (some n) children h)

theorem children_subset_of_mem_asNodesAll (p : Option NodeId) (ts : List (Tree NodeId))
    {x : NodeId × Node} (h : x ∈ asNodesAll p ts) : x.2.children ⊆ labelsAll ts := by
  match ts with
  | [] => exact absurd h List.not_mem_nil
  | t :: ts =>
    rcases List.mem_append.mp h with h | h
    · exact List.subset_append_of_subset_left _ (children_subset_of_mem_asNodes p t h)
    · exact List.subset_append_of_subset_right _ (children_subset_of_mem_asNodesAll p ts h)

end

theorem exists_mem_asNodesAll {ts : List (Tree NodeId)} {n : NodeId} (h : n ∈ ts.map label)
    (p : Option NodeId) : ∃ node, (n, node) ∈ asNodesAll p ts ∧ node.parent = p := by
  induction ts with
  | nil => exact absurd h List.not_mem_nil
  | cons t ts ih =>
    obtain ⟨m, kind, attrs, data, children⟩ := t
    rcases List.mem_cons.mp h with rfl | h
    · exact ⟨_, List.mem_cons_self, rfl⟩
    · obtain ⟨node, hmem, hparent⟩ := ih h
      exact ⟨node, List.mem_append_right _ hmem, hparent⟩

end Tree

namespace NodeStore

variable {β γ : Type} {f : Node → β} {X Y : List NodeId} {s s' s'' : NodeStore}
  {xs ys : List (NodeId × Node)}

/-! ## Agreement -/

/-- Whether a store has the nodes of another, and those outside of `X` as they were as far as `f`
tells. -/
structure Agrees (f : Node → β) (X : List NodeId) (s s' : NodeStore) : Prop where
  size : s.size ≤ s'.size
  get : ∀ n, n.index < s.size → n ∉ X → f (s'.get n) = f (s.get n)

namespace Agrees

theorem refl (f : Node → β) (X : List NodeId) (s : NodeStore) : s.Agrees f X s :=
  ⟨Nat.le_refl _, fun _ _ _ ↦ rfl⟩

theorem trans (h : s.Agrees f X s') (h' : s'.Agrees f X s'') : s.Agrees f X s'' where
  size := Nat.le_trans h.size h'.size
  get n hn hX := (h'.get n (Nat.lt_of_lt_of_le hn h.size) hX).trans (h.get n hn hX)

theorem mono (h : s.Agrees f X s') (hXY : X ⊆ Y) : s.Agrees f Y s' :=
  ⟨h.size, fun n hn hY ↦ h.get n hn fun hX ↦ hY (hXY hX)⟩

/-- Who sees everything sees in particular a part. -/
theorem of_id (h : s.Agrees id X s') (f : Node → β) : s.Agrees f X s' :=
  ⟨h.size, fun n hn hX ↦ congrArg f (h.get n hn hX)⟩

/-- Nodes that did not exist may be changed at will. -/
theorem of_append (h : s.Agrees f (X ++ Y) s') (hY : ∀ n ∈ Y, s.size ≤ n.index) :
    s.Agrees f X s' where
  size := h.size
  get n hn hX := by
    refine h.get n hn fun hn' ↦ ?_
    rcases List.mem_append.mp hn' with hX' | hY'
    · exact hX hX'
    · exact Nat.not_lt.mpr (hY n hY') hn

end Agrees

/-! ## The structure around nodes -/

/-- Whether the structure outside of some nodes is left alone, but for the rows these stand in. -/
structure Surrounds (X : List NodeId) (s s' : NodeStore) : Prop where
  size : s.size ≤ s'.size
  kind : ∀ n, n.index < s.size → n ∉ X → (s'.get n).kind = (s.get n).kind
  parent : ∀ n, n.index < s.size → n ∉ X → (s'.get n).parent = (s.get n).parent
  children : ∀ n, n.index < s.size → n ∉ X →
    (s'.get n).children = (s.get n).children ∨ ∃ c ∈ (s.get n).children, c ∈ X

theorem Agrees.surrounds (h : s.Agrees Node.skeleton X s') : s.Surrounds X s' where
  size := h.size
  kind n hn hX := congrArg (fun k ↦ k.1) (h.get n hn hX)
  parent n hn hX := congrArg (fun k ↦ k.2.2) (h.get n hn hX)
  children n hn hX := .inl (congrArg (fun k ↦ k.2.1) (h.get n hn hX))

theorem Surrounds.mono (h : s.Surrounds X s') (hXY : X ⊆ Y) : s.Surrounds Y s' where
  size := h.size
  kind n hn hY := h.kind n hn fun hX ↦ hY (hXY hX)
  parent n hn hY := h.parent n hn fun hX ↦ hY (hXY hX)
  children n hn hY := (h.children n hn fun hX ↦ hY (hXY hX)).imp_right
    fun hc ↦ hc.imp fun _ hc ↦ ⟨hc.1, hXY hc.2⟩

theorem Surrounds.children_eq (h : s.Surrounds X s') {n : NodeId} (hlt : n.index < s.size)
    (hn : n ∉ X) (hX : ∀ c ∈ (s.get n).children, c ∉ X) :
    (s'.get n).children = (s.get n).children := by
  rcases h.children n hlt hn with hsame | ⟨c, hc, hcX⟩
  · exact hsame
  · exact absurd hcX (hX c hc)

/-! ## Nodes in a store -/

/-- Whether nodes stand in a store as in a list, as far as `f` tells. -/
def Shows (f : Node → β) (s : NodeStore) (xs : List (NodeId × Node)) : Prop :=
  ∀ x ∈ xs, x.1.index < s.size ∧ f (s.get x.1) = f x.2

theorem shows_nil (f : Node → β) (s : NodeStore) : s.Shows f [] :=
  fun _ hx ↦ absurd hx List.not_mem_nil

theorem shows_cons {x : NodeId × Node} :
    s.Shows f (x :: xs) ↔ (x.1.index < s.size ∧ f (s.get x.1) = f x.2) ∧ s.Shows f xs :=
  List.forall_mem_cons

theorem shows_append : s.Shows f (xs ++ ys) ↔ s.Shows f xs ∧ s.Shows f ys :=
  List.forall_mem_append

namespace Shows

theorem subset (h : s.Shows f ys) (hxy : xs ⊆ ys) : s.Shows f xs := fun x hx ↦ h x (hxy hx)

theorem of_id (h : s.Shows id xs) (f : Node → β) : s.Shows f xs :=
  fun x hx ↦ ⟨(h x hx).1, congrArg f (h x hx).2⟩

/-- What is shown stays shown if nothing of it is changed. -/
theorem of_agrees (h : s.Shows f xs) (ha : s.Agrees f X s') (hX : ∀ x ∈ xs, x.1 ∉ X) :
    s'.Shows f xs := by
  intro x hx
  obtain ⟨hlt, hf⟩ := h x hx
  exact ⟨Nat.lt_of_lt_of_le hlt ha.size, (ha.get x.1 hlt (hX x hx)).trans hf⟩

theorem lt_of_mem_labels {p : Option NodeId} {t : Tree NodeId} (h : s.Shows f (t.asNodes p))
    {n : NodeId} (hn : n ∈ t.labels) : n.index < s.size := by
  rw [← Tree.map_fst_asNodes p t] at hn
  obtain ⟨x, hx, rfl⟩ := List.mem_map.mp hn
  exact (h x hx).1

theorem lt_of_mem_labelsAll {p : Option NodeId} {ts : List (Tree NodeId)}
    (h : s.Shows f (Tree.asNodesAll p ts)) {n : NodeId} (hn : n ∈ Tree.labelsAll ts) :
    n.index < s.size := by
  rw [← Tree.map_fst_asNodesAll p ts] at hn
  obtain ⟨x, hx, rfl⟩ := List.mem_map.mp hn
  exact (h x hx).1

/-- Nodes that are shown as trees list nodes of the trees. -/
theorem mem_labelsAll_of_mem_children {p : Option NodeId} {ts : List (Tree NodeId)}
    (h : s.Shows id (Tree.asNodesAll p ts)) {n m : NodeId} (hn : n ∈ Tree.labelsAll ts)
    (hm : m ∈ (s.get n).children) : m ∈ Tree.labelsAll ts := by
  rw [← Tree.map_fst_asNodesAll p ts] at hn
  obtain ⟨x, hx, rfl⟩ := List.mem_map.mp hn
  have hget : s.get x.1 = x.2 := (h x hx).2
  exact Tree.children_subset_of_mem_asNodesAll p ts hx (hget ▸ hm)

/-- The root of a tree that is shown. -/
theorem root {t : Tree NodeId} {p : Option NodeId} (h : s.Shows id (t.asNodes p)) :
    t.label.index < s.size ∧ s.get t.label =
      { kind := t.kind, attrs := t.attrs, data := t.data, children := t.children.map Tree.label,
        parent := p } := by
  obtain ⟨n, kind, attrs, data, children⟩ := t
  exact h _ List.mem_cons_self

/-- Trees are still shown once their roots have another parent. -/
theorem reparent {ts : List (Tree NodeId)} {q p : Option NodeId}
    (h : s.Shows id (Tree.asNodesAll q ts)) (hnodup : (Tree.labelsAll ts).Nodup)
    (hsize : s.size ≤ s'.size)
    (hroot : ∀ n ∈ ts.map Tree.label, s'.get n = { s.get n with parent := p })
    (hrest : ∀ n ∈ Tree.labelsAll ts, n ∉ ts.map Tree.label → s'.get n = s.get n) :
    s'.Shows id (Tree.asNodesAll p ts) := by
  induction ts with
  | nil => exact shows_nil _ _
  | cons t ts ih =>
    obtain ⟨n, kind, attrs, data, children⟩ := t
    rw [Tree.asNodesAll, shows_append, Tree.asNodes, shows_cons] at h
    obtain ⟨⟨⟨hlt, hget⟩, hbelow⟩, hbehind⟩ := h
    rw [Tree.labelsAll, List.nodup_append', Tree.labels, List.nodup_cons] at hnodup
    obtain ⟨⟨hn, hchildren⟩, hts, hdisjoint⟩ := hnodup
    have hnot {m : NodeId} (hm : m ∈ Tree.labelsAll children) :
        m ∉ (Tree.node n kind attrs data children :: ts).map Tree.label := by
      rw [List.map_cons, List.mem_cons, not_or]
      refine ⟨?_, fun hmem ↦ ?_⟩
      · rintro rfl
        exact hn hm
      exact hdisjoint (List.mem_cons_of_mem n hm)
        ((Tree.map_label_sublist_labelsAll ts).subset hmem)
    rw [Tree.asNodesAll, shows_append, Tree.asNodes, shows_cons]
    refine ⟨⟨⟨Nat.lt_of_lt_of_le hlt hsize, ?_⟩, fun x hx ↦ ?_⟩, ?_⟩
    · have hget : s.get n = _ := hget
      exact (hroot n List.mem_cons_self).trans (hget ▸ rfl)
    · obtain ⟨hxlt, hxget⟩ := hbelow x hx
      have hmem := Tree.mem_labelsAll_of_mem_asNodesAll hx
      rw [hrest x.1 (List.mem_append_left _ (List.mem_cons_of_mem n hmem)) (hnot hmem)]
      exact ⟨Nat.lt_of_lt_of_le hxlt hsize, hxget⟩
    · refine ih hbehind hts (fun m hm ↦ hroot m (List.mem_cons_of_mem _ hm)) fun m hm hmts ↦ ?_
      refine hrest m (List.mem_append_right _ hm) fun hmem ↦ ?_
      rcases List.mem_cons.mp hmem with rfl | hmem
      · exact hdisjoint List.mem_cons_self hm
      · exact hmts hmem

end Shows

/-! ## Trees from stores -/

@[simp] theorem label_treeTo (s : NodeStore) (depth : Nat) (n : NodeId) :
    (s.treeTo depth n).label = n := by
  cases depth <;> rw [treeTo, Tree.label]

/-- The label of the tree below a node is the node. -/
@[simp] theorem label_tree (s : NodeStore) (n : NodeId) : (s.tree n).label = n :=
  s.label_treeTo s.size n

mutual

theorem treeTo_of_shows (t : Tree NodeId) (p : Option NodeId) (depth : Nat)
    (h : s.Shows id (t.asNodes p)) (ht : t.size ≤ depth + 1) : s.treeTo depth t.label = t := by
  obtain ⟨n, kind, attrs, data, children⟩ := t
  rw [Tree.asNodes, shows_cons] at h
  obtain ⟨⟨-, hget⟩, hbelow⟩ := h
  have hget : s.get n = _ := hget
  have hsize : (Tree.labelsAll children).length ≤ depth := Nat.le_of_succ_le_succ ht
  cases depth with
  | zero =>
    rw [Tree.label, treeTo, hget]
    cases children with
    | nil => rfl
    | cons t ts =>
      have hmem := List.mem_append_left (Tree.labelsAll ts) (Tree.label_mem_labels t)
      exact absurd (List.length_pos_of_mem hmem) (Nat.not_lt.mpr hsize)
  | succ depth =>
    rw [Tree.label, treeTo, hget]
    congr 1
    exact map_treeTo_of_shows children (some n) depth hbelow hsize

theorem map_treeTo_of_shows (ts : List (Tree NodeId)) (p : Option NodeId) (depth : Nat)
    (h : s.Shows id (Tree.asNodesAll p ts)) (hts : (Tree.labelsAll ts).length ≤ depth + 1) :
    (ts.map Tree.label).map (s.treeTo depth) = ts := by
  match ts with
  | [] => rfl
  | t :: ts =>
    rw [Tree.asNodesAll, shows_append] at h
    rw [Tree.labelsAll, List.length_append] at hts
    rw [List.map_cons, List.map_cons,
      treeTo_of_shows t p depth h.1 (Nat.le_trans (Nat.le_add_right ..) hts),
      map_treeTo_of_shows ts p depth h.2 (Nat.le_trans (Nat.le_add_left ..) hts)]

end

/-- The trees that are shown are those below their roots. -/
theorem map_tree_of_shows {ts : List (Tree NodeId)} {p : Option NodeId}
    (h : s.Shows id (Tree.asNodesAll p ts)) (hts : (Tree.labelsAll ts).Nodup) :
    (ts.map Tree.label).map s.tree = ts := by
  have hindex : ((Tree.labelsAll ts).map NodeId.index).Nodup :=
    List.Nodup.map (fun _ _ he ↦ congrArg NodeId.mk he) hts
  have hrange : (Tree.labelsAll ts).map NodeId.index ⊆ List.range s.size := by
    intro i hi
    obtain ⟨n, hn, rfl⟩ := List.mem_map.mp hi
    exact List.mem_range.mpr (h.lt_of_mem_labelsAll hn)
  have hlength := hindex.length_le_of_subset hrange
  rw [List.length_map, List.length_range] at hlength
  exact map_treeTo_of_shows ts p s.size h (Nat.le_succ_of_le hlength)

/-- The tree that is shown is that below its root. -/
theorem tree_of_shows {t : Tree NodeId} {p : Option NodeId} (h : s.Shows id (t.asNodes p))
    (ht : t.labels.Nodup) : s.tree t.label = t := by
  rw [← Tree.asNodesAll_singleton] at h
  rw [← Tree.labelsAll_singleton] at ht
  exact (List.cons.inj (map_tree_of_shows h ht)).1

end NodeStore

end LiveMarkup
