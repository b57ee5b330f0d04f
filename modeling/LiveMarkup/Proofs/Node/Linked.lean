import Mathlib.Data.List.Nodup
import LiveMarkup.Proofs.Node.Operations

/-!
# Children and parents agree

In a store that is linked, a node is a child of exactly its parent, once (`NodeStore.Linked`). Every
operation keeps this up, and moves nodes in the same two steps: some are taken out of wherever they
are (`NodeStore.Frees`), and put among the children of one node (`NodeStore.Houses`). Both are said
of the whole node at every identity, so that what an operation leaves alone can be read off as well.

What is done to new nodes in a linked store stays among the new nodes, since no link leads from a
new node to an old one. So a store from which one starts out is extended, and every old node
stays as it was (`NodeStore.Extends`).
-/

namespace LiveMarkup

/-- The node with other links. -/
def Node.placed (node : Node) (children : List NodeId) (parent : Option NodeId) : Node :=
  { node with children, parent }

@[simp] theorem Node.children_placed (node : Node) (cs : List NodeId) (p : Option NodeId) :
    (node.placed cs p).children = cs := rfl

@[simp] theorem Node.parent_placed (node : Node) (cs : List NodeId) (p : Option NodeId) :
    (node.placed cs p).parent = p := rfl

@[simp] theorem Node.kind_placed (node : Node) (cs : List NodeId) (p : Option NodeId) :
    (node.placed cs p).kind = node.kind := rfl

@[simp] theorem Node.placed_placed (node : Node) (cs cs' : List NodeId) (p p' : Option NodeId) :
    (node.placed cs p).placed cs' p' = node.placed cs' p' := rfl

@[simp] theorem Node.placed_self (node : Node) :
    node.placed node.children node.parent = node := rfl

namespace NodeStore

variable {s s' s'' s₀ : NodeStore} {n m p c r : NodeId} {X moved : List NodeId}

/-! ## Changes of nodes -/

/-- Whoever does not see a change finds every node as it was. -/
theorem get_modify_of_eq {β : Type} {f : Node → β} (s : NodeStore) (n : NodeId) {g : Node → Node}
    (hg : ∀ node, f (g node) = f node) (m : NodeId) : f ((s.modify n g).get m) = f (s.get m) := by
  rw [get_modify]
  split
  · rename_i h
    rw [hg, h.1]
  · rfl

/-- Only the children of one node are set. -/
theorem placed_setChildren (hp : p.index < s.size) (children : List NodeId) (m : NodeId) :
    (s.setChildren p children).get m =
      (s.get m).placed (if m = p then children else (s.get m).children) (s.get m).parent := by
  by_cases hm : m = p
  · rw [if_pos hm, hm, get_setChildren_self hp]
    rfl
  · rw [if_neg hm, get_setChildren_of_ne hm, Node.placed_self]

/-- Only the parents of given nodes are set. -/
theorem placed_setParents {ns : List NodeId} (hns : ∀ c ∈ ns, c.index < s.size)
    (q : Option NodeId) (m : NodeId) :
    (s.setParents ns q).get m =
      (s.get m).placed (s.get m).children (if m ∈ ns then q else (s.get m).parent) := by
  rw [get_setParents]
  by_cases hm : m ∈ ns
  · rw [if_pos ⟨hm, hns m hm⟩, if_pos hm]
    rfl
  · rw [if_neg fun h ↦ hm h.1, if_neg hm, Node.placed_self]

theorem placed_setParent (hn : n.index < s.size) (q : Option NodeId) (m : NodeId) :
    (s.setParent n q).get m =
      (s.get m).placed (s.get m).children (if m ∈ [n] then q else (s.get m).parent) :=
  placed_setParents (List.forall_mem_singleton.mpr hn) q m

/-! ## Links -/

/-- Whether every node is a child of exactly its parent, once. -/
structure Linked (s : NodeStore) : Prop where
  nodup : ∀ p, (s.get p).children.Nodup
  mem_children : ∀ p c, c ∈ (s.get p).children ↔ (s.get c).parent = some p

namespace Linked

theorem lt_of_parent (h : (s.get c).parent = some p) : c.index < s.size := by
  by_contra hlt
  rw [get_of_not_lt hlt] at h
  contradiction

theorem lt_of_mem (h : c ∈ (s.get p).children) : p.index < s.size := by
  by_contra hlt
  rw [get_of_not_lt hlt] at h
  contradiction

theorem child_lt (hs : s.Linked) (h : c ∈ (s.get p).children) : c.index < s.size :=
  lt_of_parent ((hs.mem_children p c).mp h)

theorem parent_lt (hs : s.Linked) (h : (s.get c).parent = some p) : p.index < s.size :=
  lt_of_mem ((hs.mem_children p c).mpr h)

theorem empty : NodeStore.empty.Linked := by
  constructor
  · exact fun p ↦ List.nodup_nil
  · intro p c
    constructor
    · exact fun h ↦ absurd h List.not_mem_nil
    · exact fun h ↦ Option.noConfusion rfl (heq_of_eq h)

/-- A change that keeps children and parent keeps the links. -/
theorem modify (hs : s.Linked) (n : NodeId) {f : Node → Node}
    (hf : ∀ node, (f node).children = node.children ∧ (f node).parent = node.parent) :
    (s.modify n f).Linked := by
  have hchildren := get_modify_of_eq s n fun node ↦ (hf node).1
  have hparent := get_modify_of_eq s n fun node ↦ (hf node).2
  constructor
  · intro p
    rw [hchildren]
    exact hs.nodup p
  · intro p c
    rw [hchildren, hparent]
    exact hs.mem_children p c

/-- A new node stands alone. -/
theorem create (hs : s.Linked) {node : Node} (hchildren : node.children = [])
    (hparent : node.parent = none) : (s.create node).2.Linked := by
  have hget (m : NodeId) : ((s.create node).2.get m).children = (s.get m).children ∧
      ((s.create node).2.get m).parent = (s.get m).parent := by
    rw [get_create]
    split
    · rename_i h
      have hnone : s.get m = default := get_of_not_lt (h ▸ Nat.lt_irrefl _)
      rw [hchildren, hparent, hnone]
      exact ⟨rfl, rfl⟩
    · exact ⟨rfl, rfl⟩
  constructor
  · intro p
    rw [(hget p).1]
    exact hs.nodup p
  · intro p c
    rw [(hget p).1, (hget c).2]
    exact hs.mem_children p c

end Linked

/-! ## Taking out -/

/-- Whether nodes have been taken out of wherever they were, and nothing else has happened. -/
structure Frees (s : NodeStore) (moved : List NodeId) (s' : NodeStore) : Prop where
  size : s'.size = s.size
  get : ∀ m, s'.get m = (s.get m).placed ((s.get m).children.filter (· ∉ moved))
    (if m ∈ moved then none else (s.get m).parent)

namespace Frees

theorem refl (s : NodeStore) : s.Frees [] s := by
  refine ⟨rfl, fun m ↦ ?_⟩
  rw [if_neg List.not_mem_nil, List.filter_eq_self.mpr fun c _ ↦ decide_eq_true List.not_mem_nil,
    Node.placed_self]

theorem trans {ns : List NodeId} (h : s.Frees moved s') (h' : s'.Frees ns s'') :
    s.Frees (moved ++ ns) s'' := by
  refine ⟨h'.size.trans h.size, fun m ↦ ?_⟩
  have hchildren : ((s.get m).children.filter (· ∉ moved)).filter (· ∉ ns) =
      (s.get m).children.filter (· ∉ moved ++ ns) := by
    rw [List.filter_filter]
    refine List.filter_congr fun c _ ↦ ?_
    simp [Bool.and_comm]
  have hparent : (if m ∈ ns then none else if m ∈ moved then none else (s.get m).parent) =
      if m ∈ moved ++ ns then none else (s.get m).parent := by
    by_cases hns : m ∈ ns
    · rw [if_pos hns, if_pos (List.mem_append_right _ hns)]
    · by_cases hmoved : m ∈ moved
      · rw [if_neg hns, if_pos hmoved, if_pos (List.mem_append_left _ hmoved)]
      · rw [if_neg hns, if_neg hmoved, if_neg fun h ↦ (List.mem_append.mp h).elim hmoved hns]
  rw [h'.get, h.get, Node.placed_placed, Node.children_placed, Node.parent_placed, hchildren,
    hparent]

/-- Taking nodes out keeps the links. -/
theorem linked (h : s.Frees moved s') (hs : s.Linked) : s'.Linked := by
  constructor
  · intro p
    rw [h.get]
    exact (hs.nodup p).filter _
  · intro p c
    rw [h.get, h.get]
    simp only [Node.children_placed, Node.parent_placed, List.mem_filter, decide_eq_true_eq]
    by_cases hc : c ∈ moved
    · rw [if_pos hc]
      exact ⟨fun hmem ↦ absurd hc hmem.2, fun hnone ↦ Option.noConfusion rfl (heq_of_eq hnone)⟩
    · rw [if_neg hc, hs.mem_children]
      exact ⟨And.left, fun hparent ↦ ⟨hparent, hc⟩⟩

/-- Nothing else changes but the nodes that are taken out and those they are taken out of. -/
theorem agrees (h : s.Frees moved s') (hs : s.Linked) (hmoved : moved ⊆ X)
    (hparents : ∀ c ∈ moved, ∀ p, (s.get c).parent = some p → p ∈ X) : s.Agrees id X s' where
  size := Nat.le_of_eq h.size.symm
  get m _ hm := by
    have hchildren : (s.get m).children.filter (· ∉ moved) = (s.get m).children :=
      List.filter_eq_self.mpr fun c hc ↦ decide_eq_true fun hmem ↦
        hm (hparents c hmem m ((hs.mem_children m c).mp hc))
    rw [h.get, hchildren, if_neg fun hmem ↦ hm (hmoved hmem), Node.placed_self]

theorem kinds (h : s.Frees moved s') : s.Agrees Node.kind [] s' where
  size := Nat.le_of_eq h.size.symm
  get m _ _ := by rw [h.get, Node.kind_placed]

end Frees

/-- A node is taken out of its parent. -/
theorem Linked.frees_detach (hs : s.Linked) (n : NodeId) : s.Frees [n] (s.detach n) := by
  refine ⟨size_detach s n, fun m ↦ ?_⟩
  have hchildren : (s.get m).children.filter (· ∉ [n]) = (s.get m).children.erase n := by
    rw [(hs.nodup m).erase_eq_filter]
    refine List.filter_congr fun c _ ↦ ?_
    by_cases hc : c = n
    · simp [hc]
    · simp [hc]
  rw [hchildren]
  cases hparent : (s.get n).parent with
  | none =>
    have hnot : n ∉ (s.get m).children := fun hmem ↦
      Option.noConfusion rfl (heq_of_eq (hparent.symm.trans ((hs.mem_children m n).mp hmem)))
    have hdetach : s.detach n = s := by rw [detach, hparent]
    rw [hdetach, List.erase_of_not_mem hnot]
    by_cases hm : m ∈ [n]
    · rw [if_pos hm, ← hparent, ← List.mem_singleton.mp hm, Node.placed_self]
    · rw [if_neg hm, Node.placed_self]
  | some p =>
    have hn := Linked.lt_of_parent hparent
    have hp := hs.parent_lt hparent
    have hdetach : s.detach n =
        (s.setChildren p ((s.get p).children.erase n)).setParent n none := by
      rw [detach, hparent]
    have herase : (if m = p then (s.get p).children.erase n else (s.get m).children) =
        (s.get m).children.erase n := by
      by_cases hm : m = p
      · rw [if_pos hm, hm]
      · -- Only the parent lists the node.
        have hnot : n ∉ (s.get m).children := by
          rw [hs.mem_children, hparent]
          exact fun heq ↦ hm (Option.some.inj heq).symm
        rw [if_neg hm, List.erase_of_not_mem hnot]
    rw [hdetach, placed_setParent (by rwa [size_setChildren]), placed_setChildren hp, herase]
    rfl

/-- Nodes are taken out one after the other. -/
theorem Linked.frees_foldl_detach (hs : s.Linked) (ns : List NodeId) :
    s.Frees ns (ns.foldl detach s) := by
  induction ns generalizing s with
  | nil => exact .refl s
  | cons n ns ih =>
    have hfirst := hs.frees_detach n
    exact hfirst.trans (ih (hfirst.linked hs))

/-- The children of a node are taken out of it. -/
theorem Linked.frees_disband (hs : s.Linked) (n : NodeId) :
    s.Frees (s.get n).children (s.disband n) := by
  refine ⟨size_disband s n, fun m ↦ ?_⟩
  have hset : (s.setChildren n []).get m =
      (s.get m).placed ((s.get m).children.filter (· ∉ (s.get n).children)) (s.get m).parent := by
    by_cases hm : m = n
    · have hnone : (s.get n).children.filter (· ∉ (s.get n).children) = [] :=
        List.filter_eq_nil_iff.mpr fun c hc ↦ by simpa using hc
      rw [hm, hnone, setChildren, get_modify]
      split
      · rfl
      · rename_i hlt
        rw [get_of_not_lt fun h ↦ hlt ⟨rfl, h⟩]
        rfl
    · -- A child of the node has no other parent.
      have hall : (s.get m).children.filter (· ∉ (s.get n).children) = (s.get m).children := by
        refine List.filter_eq_self.mpr fun c hc ↦ decide_eq_true fun hmem ↦ hm ?_
        have hparent := (hs.mem_children m c).mp hc
        exact Option.some.inj (hparent.symm.trans ((hs.mem_children n c).mp hmem))
      rw [get_setChildren_of_ne hm, hall, Node.placed_self]
  have hlt : ∀ c ∈ (s.get n).children, c.index < (s.setChildren n []).size := fun c hc ↦ by
    rw [size_setChildren]
    exact hs.child_lt hc
  rw [disband, placed_setParents hlt, hset]
  rfl

/-- What is inserted for a node is taken out. -/
theorem Linked.frees_take (hs : s.Linked) (n : NodeId) : s.Frees (s.take n).1 (s.take n).2 := by
  by_cases hkind : (s.get n).kind = .fragment
  · rw [take_of_fragment hkind]
    exact hs.frees_disband n
  · rw [take_of_ne hkind]
    exact hs.frees_detach n

theorem Linked.nodup_take (hs : s.Linked) (n : NodeId) : (s.take n).1.Nodup := by
  unfold take
  split
  · exact hs.nodup n
  · exact List.nodup_singleton n

/-- What is inserted for a node is the node or one of its children. -/
theorem mem_take (h : c ∈ (s.take n).1) :
    c ∈ (s.get n).children ∨ c = n ∧ (s.get n).kind ≠ .fragment := by
  unfold take at h
  split at h
  · exact .inl h
  · rename_i hkind
    exact .inr ⟨List.mem_singleton.mp h, hkind⟩

theorem Linked.take_lt (hs : s.Linked) (h : c ∈ (s.take n).1) : c.index < s.size := by
  rcases mem_take h with h | ⟨rfl, hkind⟩
  · exact hs.child_lt h
  · by_contra hlt
    exact hkind (congrArg Node.kind (get_of_not_lt hlt))

/-! ## Putting in -/

/-- Whether nodes that had no parent now stand among the children of `p`, in the place of others,
and nothing else has happened. -/
structure Houses (s : NodeStore) (p : NodeId) (pre gone moved post : List NodeId)
    (s' : NodeStore) : Prop where
  size : s'.size = s.size
  children : (s.get p).children = pre ++ gone ++ post
  nodup : moved.Nodup
  top : ∀ c ∈ moved, (s.get c).parent = none
  get : ∀ m, s'.get m = (s.get m).placed
    (if m = p then pre ++ moved ++ post else (s.get m).children)
    (if m ∈ gone then none else if m ∈ moved then some p else (s.get m).parent)

namespace Houses

variable {pre gone post : List NodeId}

/-- Putting nodes in keeps the links. -/
theorem linked (h : s.Houses p pre gone moved post s') (hs : s.Linked) : s'.Linked := by
  have hchild (c : NodeId) (hc : c ∈ pre ++ gone ++ post) : (s.get c).parent = some p :=
    (hs.mem_children p c).mp (h.children ▸ hc)
  have hapart : ∀ c ∈ moved, c ∉ pre ++ gone ++ post := fun c hc hmem ↦
    Option.noConfusion rfl (heq_of_eq ((h.top c hc).symm.trans (hchild c hmem)))
  have hnodup : (pre ++ gone ++ post).Nodup := h.children ▸ hs.nodup p
  constructor
  · intro q
    rw [h.get, Node.children_placed]
    by_cases hq : q = p
    · have hrest : (pre ++ post).Nodup :=
        hnodup.sublist ((List.sublist_append_left pre gone).append_right post)
      have hdisjoint : moved.Disjoint (pre ++ post) := fun c hc hmem ↦ hapart c hc <| by
        rcases List.mem_append.mp hmem with hmem | hmem
        · exact List.mem_append_left _ (List.mem_append_left _ hmem)
        · exact List.mem_append_right _ hmem
      have hperm : (moved ++ (pre ++ post)).Perm (pre ++ moved ++ post) := by
        rw [← List.append_assoc]
        exact List.perm_append_comm.append_right post
      rw [if_pos hq]
      exact hperm.nodup_iff.mp (List.nodup_append'.mpr ⟨h.nodup, hrest, hdisjoint⟩)
    · rw [if_neg hq]
      exact hs.nodup q
  · intro q c
    rw [h.get, h.get, Node.children_placed, Node.parent_placed]
    by_cases hmoved : c ∈ moved
    · have hgone : c ∉ gone := fun hc ↦ hapart c hmoved (by simp [hc])
      rw [if_neg hgone, if_pos hmoved]
      by_cases hq : q = p
      · rw [if_pos hq, hq]
        simp [hmoved]
      · rw [if_neg hq, hs.mem_children, h.top c hmoved]
        simp [Ne.symm hq]
    · by_cases hgone : c ∈ gone
      · have hparent := hchild c (by simp [hgone])
        rw [if_pos hgone]
        by_cases hq : q = p
        · -- What has gone does not stand among what was left.
          have hnot : c ∉ pre ∧ c ∉ post := by
            rw [List.nodup_append', List.nodup_append'] at hnodup
            obtain ⟨⟨-, -, hpre⟩, -, hpost⟩ := hnodup
            exact ⟨fun hc ↦ hpre hc hgone, fun hc ↦ hpost (List.mem_append_right _ hgone) hc⟩
          rw [if_pos hq]
          simp [hnot, hmoved]
        · rw [if_neg hq, hs.mem_children, hparent]
          simp [Ne.symm hq]
      · rw [if_neg hgone, if_neg hmoved]
        by_cases hq : q = p
        · rw [if_pos hq, hq, ← hs.mem_children, h.children]
          simp [hmoved, hgone]
        · rw [if_neg hq]
          exact hs.mem_children q c

/-- Nothing else changes but the nodes that are put in or have gone, and their parent. -/
theorem agrees (h : s.Houses p pre gone moved post s') (hp : p ∈ X) (hgone : gone ⊆ X)
    (hmoved : moved ⊆ X) : s.Agrees id X s' where
  size := Nat.le_of_eq h.size.symm
  get m _ hm := by
    have hne : m ≠ p := fun heq ↦ hm (heq ▸ hp)
    rw [h.get, if_neg hne, if_neg fun hmem ↦ hm (hgone hmem), if_neg fun hmem ↦ hm (hmoved hmem),
      Node.placed_self]

theorem kinds (h : s.Houses p pre gone moved post s') : s.Agrees Node.kind [] s' where
  size := Nat.le_of_eq h.size.symm
  get m _ _ := by rw [h.get, Node.kind_placed]

end Houses

/-- Nodes without a parent are put at the end of a node. -/
theorem houses_setParents (hp : p.index < s.size) (hnodup : moved.Nodup)
    (htop : ∀ c ∈ moved, (s.get c).parent = none) (hlt : ∀ c ∈ moved, c.index < s.size) :
    s.Houses p (s.get p).children [] moved [] ((s.setParents moved (some p)).setChildren p
      ((s.get p).children ++ moved)) := by
  refine ⟨by rw [size_setChildren, size_setParents], by simp, hnodup, htop, fun m ↦ ?_⟩
  rw [List.append_nil, if_neg List.not_mem_nil, placed_setChildren (by rwa [size_setParents]),
    placed_setParents hlt]
  rfl

/-- The nodes of a fragment, or the node itself, are put at the end of a node. -/
theorem Linked.houses_append (hs : s.Linked) (hp : p.index < s.size) (n : NodeId) :
    (s.take n).2.Houses p ((s.take n).2.get p).children [] (s.take n).1 [] (s.append p n) := by
  have hfrees := hs.frees_take n
  rw [append_eq]
  refine houses_setParents (hfrees.size ▸ hp) (hs.nodup_take n) ?_ ?_
  · intro c hc
    rw [hfrees.get, Node.parent_placed, if_pos hc]
  · intro c hc
    rw [hfrees.size]
    exact hs.take_lt hc

theorem Linked.append (hs : s.Linked) (hp : p.index < s.size) (n : NodeId) :
    (s.append p n).Linked :=
  (hs.houses_append hp n).linked ((hs.frees_take n).linked hs)

theorem take_append_drop_of_idxOf? {cs : List NodeId} {i : Nat} (h : cs.idxOf? n = some i) :
    cs = cs.take i ++ [n] ++ cs.drop (i + 1) := by
  induction cs generalizing i with
  | nil => contradiction
  | cons c cs ih =>
    rw [List.idxOf?_cons] at h
    split at h
    · rename_i hc
      obtain rfl := Option.some.inj h
      rw [beq_iff_eq.mp hc]
      rfl
    · obtain ⟨j, hj, rfl⟩ := Option.map_eq_some_iff.mp h
      exact congrArg (List.cons c) (ih hj)

/-- Replacing a node that has a place takes out what is put there, and then either puts it there or
does nothing more, if that has cost the node its place. -/
theorem Linked.replace_cases (hs : s.Linked) (hp : (s.get n).parent = some p) (r : NodeId) :
    ((s.replace n r).1 = false ∧ n ∈ (s.take r).1 ∧ (s.replace n r).2 = (s.take r).2) ∨
      ((s.replace n r).1 = true ∧
        ∃ pre post, (s.take r).2.Houses p pre [n] (s.take r).1 post (s.replace n r).2) := by
  have hfrees := hs.frees_take r
  have hlinked := hfrees.linked hs
  cases hidx : ((s.take r).2.get p).children.idxOf? n with
  | none =>
    -- The parent lists the node no longer: it was taken out with what is inserted.
    refine .inl ⟨by rw [replace, hp]; simp [hidx], ?_, by rw [replace, hp]; simp [hidx]⟩
    by_contra hnot
    have hn : n ∈ ((s.take r).2.get p).children := by
      rw [hlinked.mem_children, hfrees.get, Node.parent_placed, if_neg hnot, hp]
    exact List.idxOf?_eq_none_iff.mp hidx hn
  | some i =>
    refine .inr ⟨by rw [replace, hp]; simp [hidx], ?_⟩
    have hsplit := take_append_drop_of_idxOf? hidx
    have hn : ((s.take r).2.get n).parent = some p := by
      rw [← hlinked.mem_children, hsplit]
      simp
    have hnot : n ∉ (s.take r).1 := by
      intro hmem
      rw [hfrees.get, Node.parent_placed, if_pos hmem] at hn
      contradiction
    have hnlt := Linked.lt_of_parent hn
    have hreplace : (s.replace n r).2 = ((((s.take r).2.setChildren p
        (((s.take r).2.get p).children.take i ++ (s.take r).1 ++
          ((s.take r).2.get p).children.drop (i + 1))).setParents (s.take r).1 (some p)).setParent n
            none) := by
      rw [replace, hp]
      simp [hidx]
    refine ⟨_, _, ?_, hsplit, hs.nodup_take r, ?_, ?_⟩
    · rw [size_replace, size_take]
    · intro c hc
      rw [hfrees.get, Node.parent_placed, if_pos hc]
    · intro m
      have hplt := hlinked.parent_lt hn
      have hrlt : ∀ c ∈ (s.take r).1, c.index < ((s.take r).2.setChildren p
          (((s.take r).2.get p).children.take i ++ (s.take r).1 ++
            ((s.take r).2.get p).children.drop (i + 1))).size := fun c hc ↦ by
        rw [size_setChildren, size_take]
        exact hs.take_lt hc
      rw [hreplace, placed_setParent (by rwa [size_setParents, size_setChildren]),
        placed_setParents hrlt, placed_setChildren hplt]
      rfl

theorem Linked.houses_replace (hs : s.Linked) (hp : (s.get n).parent = some p) (r : NodeId) :
    (s.replace n r).2 = (s.take r).2 ∨
      ∃ pre post, (s.take r).2.Houses p pre [n] (s.take r).1 post (s.replace n r).2 :=
  (hs.replace_cases hp r).imp (fun h ↦ h.2.2) And.right

theorem Linked.replace (hs : s.Linked) (n r : NodeId) : (s.replace n r).2.Linked := by
  cases hparent : (s.get n).parent with
  | none =>
    rw [replace_of_top hparent]
    exact hs
  | some p =>
    have hlinked := (hs.frees_take r).linked hs
    rcases hs.houses_replace hparent r with heq | ⟨pre, post, hhouses⟩
    · rw [heq]
      exact hlinked
    · exact hhouses.linked hlinked

theorem Linked.kinds_replace (hs : s.Linked) (n r : NodeId) :
    s.Agrees Node.kind [] (s.replace n r).2 := by
  cases hparent : (s.get n).parent with
  | none =>
    rw [replace_of_top hparent]
    exact .refl _ _ _
  | some p =>
    have hkinds := (hs.frees_take r).kinds
    rcases hs.houses_replace hparent r with heq | ⟨pre, post, hhouses⟩
    · rw [heq]
      exact hkinds
    · exact hkinds.trans hhouses.kinds

theorem Linked.kinds_append (hs : s.Linked) (hp : p.index < s.size) (n : NodeId) :
    s.Agrees Node.kind [] (s.append p n) :=
  (hs.frees_take n).kinds.trans (hs.houses_append hp n).kinds

theorem Linked.setTextContent (hs : s.Linked) (hn : n.index < s.size) (text : String) :
    (s.setTextContent n text).Linked := by
  unfold NodeStore.setTextContent
  split
  · have hfreed := (hs.frees_foldl_detach (s.get n).children).linked hs
    have hcreate : (((s.get n).children.foldl detach s).create
        { kind := .text, data := text }).2.Linked := hfreed.create rfl rfl
    refine hcreate.append ?_ _
    rw [size_create, size_foldl_detach]
    exact Nat.lt_succ_of_lt hn
  · exact hs.modify n fun node ↦ ⟨rfl, rfl⟩

theorem Linked.kinds_setTextContent (hs : s.Linked) (hn : n.index < s.size) (text : String) :
    s.Agrees Node.kind [] (s.setTextContent n text) := by
  unfold NodeStore.setTextContent
  split
  · have hfrees := hs.frees_foldl_detach (s.get n).children
    have hcreate : (((s.get n).children.foldl detach s).create
        { kind := .text, data := text }).2.Linked := (hfrees.linked hs).create rfl rfl
    refine (hfrees.kinds.trans ((agrees_create _ _).of_id _)).trans (hcreate.kinds_append ?_ _)
    rw [size_create, size_foldl_detach]
    exact Nat.lt_succ_of_lt hn
  · exact s.agrees_modify_of n fun _ ↦ rfl

/-! ## Extending a store -/

/-- Whether a store has come out of another without any change to the nodes of that, and both are
linked. -/
structure Extends (s₀ s : NodeStore) : Prop where
  start : s₀.Linked
  agrees : s₀.Agrees id [] s
  linked : s.Linked

namespace Extends

theorem refl (hs : s.Linked) : s.Extends s := ⟨hs, .refl _ _ _, hs⟩

theorem get (h : s₀.Extends s) (hn : n.index < s₀.size) : s.get n = s₀.get n :=
  h.agrees.get n hn List.not_mem_nil

/-- The children of a new node are new. -/
theorem new_child (h : s₀.Extends s) (hp : s₀.size ≤ p.index) (hc : c ∈ (s.get p).children) :
    s₀.size ≤ c.index := by
  by_contra hlt
  have hparent := (h.linked.mem_children p c).mp hc
  rw [h.get (Nat.not_le.mp hlt)] at hparent
  exact Nat.not_lt.mpr hp (h.start.parent_lt hparent)

/-- The parent of a new node is new. -/
theorem new_parent (h : s₀.Extends s) (hc : s₀.size ≤ c.index) (hp : (s.get c).parent = some p) :
    s₀.size ≤ p.index := by
  by_contra hlt
  have hmem := (h.linked.mem_children p c).mpr hp
  rw [h.get (Nat.not_le.mp hlt)] at hmem
  exact Nat.not_lt.mpr hc (h.start.child_lt hmem)

/-- What is inserted for a new node is new. -/
theorem new_take (h : s₀.Extends s) (hn : s₀.size ≤ n.index) (hc : c ∈ (s.take n).1) :
    s₀.size ≤ c.index := by
  rcases mem_take hc with hc | ⟨rfl, -⟩
  · exact h.new_child hn hc
  · exact hn

/-- Whatever is done to new nodes only extends the store further. -/
theorem of_agrees (h : s₀.Extends s) (hs' : s'.Linked) (hagrees : s.Agrees id X s')
    (hX : ∀ n ∈ X, s₀.size ≤ n.index) : s₀.Extends s' where
  start := h.start
  agrees := ((h.agrees.mono (List.nil_subset X)).trans hagrees).of_append hX
  linked := hs'

theorem modify (h : s₀.Extends s) (hn : s₀.size ≤ n.index) {f : Node → Node}
    (hf : ∀ node, (f node).children = node.children ∧ (f node).parent = node.parent) :
    s₀.Extends (s.modify n f) := by
  refine h.of_agrees (h.linked.modify n hf) (agrees_modify s n f) fun m hm ↦ ?_
  rwa [List.mem_singleton.mp hm]

theorem create (h : s₀.Extends s) {node : Node} (hchildren : node.children = [])
    (hparent : node.parent = none) : s₀.Extends (s.create node).2 :=
  h.of_agrees (h.linked.create hchildren hparent) (agrees_create s node)
    fun _ hm ↦ absurd hm List.not_mem_nil

/-- New nodes are taken out. -/
theorem frees (h : s₀.Extends s) (hfrees : s.Frees moved s')
    (hmoved : ∀ c ∈ moved, s₀.size ≤ c.index) : s₀.Extends s' := by
  refine h.of_agrees (X := moved ++ moved.filterMap fun c ↦ (s.get c).parent)
    (hfrees.linked h.linked) (hfrees.agrees h.linked (List.subset_append_left _ _) ?_) ?_
  · intro c hc p hp
    exact List.mem_append_right _ (List.mem_filterMap.mpr ⟨c, hc, hp⟩)
  · intro m hm
    rcases List.mem_append.mp hm with hm | hm
    · exact hmoved m hm
    · obtain ⟨c, hc, hp⟩ := List.mem_filterMap.mp hm
      exact h.new_parent (hmoved c hc) hp

/-- New nodes are put in. -/
theorem houses (h : s₀.Extends s) {pre gone post : List NodeId}
    (hhouses : s.Houses p pre gone moved post s') (hp : s₀.size ≤ p.index)
    (hmoved : ∀ c ∈ moved, s₀.size ≤ c.index) : s₀.Extends s' := by
  refine h.of_agrees (X := p :: (gone ++ moved)) (hhouses.linked h.linked)
    (hhouses.agrees List.mem_cons_self ?_ ?_) ?_
  · exact fun c hc ↦ List.mem_cons_of_mem _ (List.mem_append_left _ hc)
  · exact fun c hc ↦ List.mem_cons_of_mem _ (List.mem_append_right _ hc)
  · intro m hm
    rcases List.mem_cons.mp hm with rfl | hm
    · exact hp
    · rcases List.mem_append.mp hm with hm | hm
      · refine h.new_child hp ?_
        rw [hhouses.children]
        exact List.mem_append_left _ (List.mem_append_right _ hm)
      · exact hmoved m hm

theorem append (h : s₀.Extends s) (hp : s₀.size ≤ p.index) (hlt : p.index < s.size)
    (hn : s₀.size ≤ n.index) : s₀.Extends (s.append p n) := by
  have hmoved : ∀ c ∈ (s.take n).1, s₀.size ≤ c.index := fun c hc ↦ h.new_take hn hc
  exact (h.frees (h.linked.frees_take n) hmoved).houses (h.linked.houses_append hlt n) hp hmoved

theorem replace (h : s₀.Extends s) (hn : s₀.size ≤ n.index) (hr : s₀.size ≤ r.index) :
    s₀.Extends (s.replace n r).2 := by
  cases hparent : (s.get n).parent with
  | none =>
    rw [replace_of_top hparent]
    exact h
  | some p =>
    have hmoved : ∀ c ∈ (s.take r).1, s₀.size ≤ c.index := fun c hc ↦ h.new_take hr hc
    have hfreed := h.frees (h.linked.frees_take r) hmoved
    rcases h.linked.houses_replace hparent r with heq | ⟨pre, post, hhouses⟩
    · rw [heq]
      exact hfreed
    · exact hfreed.houses hhouses (h.new_parent hn hparent) hmoved

theorem setTextContent (h : s₀.Extends s) (hn : s₀.size ≤ n.index) (hlt : n.index < s.size)
    (text : String) : s₀.Extends (s.setTextContent n text) := by
  unfold NodeStore.setTextContent
  split
  · have hfreed := h.frees (h.linked.frees_foldl_detach (s.get n).children)
      fun c hc ↦ h.new_child hn hc
    have hcreate : s₀.Extends (((s.get n).children.foldl detach s).create
        { kind := .text, data := text }).2 := hfreed.create rfl rfl
    refine hcreate.append hn ?_ ?_
    · rw [size_create, size_foldl_detach]
      exact Nat.lt_succ_of_lt hlt
    · exact hfreed.agrees.size
  · exact h.modify hn fun node ↦ ⟨rfl, rfl⟩

mutual

/-- A tree of new nodes. -/
theorem plant {α : Type} {s : NodeStore} (h : s₀.Extends s) (t : Tree α) :
    (s.plant t).1 = ⟨s.size⟩ ∧ s.size < (s.plant t).2.size ∧ s₀.Extends (s.plant t).2 := by
  obtain ⟨l, kind, attrs, data, children⟩ := t
  have hcreate : s₀.Extends (s.create { kind, attrs, data }).2 := h.create rfl rfl
  have hlt : (⟨s.size⟩ : NodeId).index < (s.create { kind, attrs, data }).2.size := by
    rw [size_create]
    exact Nat.lt_succ_self _
  have hplant : s.plant (.node l kind attrs data children) =
      (⟨s.size⟩, (s.create { kind, attrs, data }).2.plantBelow ⟨s.size⟩ children) := by
    rw [NodeStore.plant]
    rfl
  obtain ⟨hsize, hbelow⟩ := plantBelow hcreate h.agrees.size hlt children
  rw [hplant]
  exact ⟨rfl, Nat.lt_of_lt_of_le hlt hsize, hbelow⟩

/-- Trees of new nodes at the end of a new node. -/
theorem plantBelow {α : Type} {s : NodeStore} {p : NodeId} (h : s₀.Extends s)
    (hp : s₀.size ≤ p.index) (hlt : p.index < s.size) (ts : List (Tree α)) :
    s.size ≤ (s.plantBelow p ts).size ∧ s₀.Extends (s.plantBelow p ts) := by
  match ts with
  | [] =>
    rw [NodeStore.plantBelow]
    exact ⟨Nat.le_refl _, h⟩
  | t :: ts =>
    obtain ⟨hfst, hsize, hplant⟩ := plant h t
    have hn : s₀.size ≤ (s.plant t).1.index := by
      rw [hfst]
      exact h.agrees.size
    have happend := hplant.append hp (Nat.lt_trans hlt hsize) hn
    have hlt' : p.index < ((s.plant t).2.append p (s.plant t).1).size := by
      rw [size_append]
      exact Nat.lt_trans hlt hsize
    obtain ⟨hrest, hbelow⟩ := plantBelow happend hp hlt' ts
    rw [size_append] at hrest
    rw [NodeStore.plantBelow]
    exact ⟨Nat.le_trans (Nat.le_of_lt hsize) hrest, hbelow⟩

end

/-- The children of a new fragment are put at the end of an old node. -/
theorem get_append_fragment (h : s₀.Extends s) (hp : p.index < s₀.size) (hn : s₀.size ≤ n.index)
    (hkind : (s.get n).kind = .fragment) (hm : m.index < s₀.size) :
    (s.append p n).get m = (s₀.get m).placed
      ((s₀.get m).children ++ if m = p then (s.get n).children else []) (s₀.get m).parent := by
  have hfrees := h.linked.frees_take n
  have hhouses := h.linked.houses_append (Nat.lt_of_lt_of_le hp h.agrees.size) n
  rw [take_of_fragment hkind] at hfrees hhouses
  -- The children that are moved are new, so they are none of the old ones.
  have hold (c : NodeId) (hc : c.index < s₀.size) : c ∉ (s.get n).children := fun hmem ↦
    Nat.not_lt.mpr (h.new_child hn hmem) hc
  have hchildren (m : NodeId) (hm : m.index < s₀.size) :
      (s₀.get m).children.filter (· ∉ (s.get n).children) = (s₀.get m).children :=
    List.filter_eq_self.mpr fun c hc ↦ decide_eq_true (hold c (h.start.child_lt hc))
  rw [hhouses.get, hfrees.get, hfrees.get, h.get hm, h.get hp, Node.children_placed,
    Node.children_placed, Node.parent_placed, Node.placed_placed, hchildren m hm, hchildren p hp,
    if_neg List.not_mem_nil, if_neg (hold m hm), if_neg (hold m hm), List.append_nil]
  by_cases hmp : m = p
  · rw [if_pos hmp, if_pos hmp, hmp]
  · rw [if_neg hmp, if_neg hmp, List.append_nil]

end Extends

theorem Linked.kinds_plant {α : Type} (hs : s.Linked) (t : Tree α) :
    s.Agrees Node.kind [] (s.plant t).2 := ((Extends.refl hs).plant t).2.2.agrees.of_id Node.kind

theorem Linked.kinds_plantBelow {α : Type} (hs : s.Linked) (hp : p.index < s.size)
    (ts : List (Tree α)) : s.Agrees Node.kind [] (s.plantBelow p ts) := by
  induction ts generalizing s with
  | nil =>
    rw [plantBelow]
    exact .refl _ _ _
  | cons t ts ih =>
    have hplant := (Extends.refl hs).plant t
    have hp' := Nat.lt_trans hp hplant.2.1
    have hkinds := (hs.kinds_plant t).trans (hplant.2.2.linked.kinds_append hp' (s.plant t).1)
    rw [plantBelow]
    refine hkinds.trans (ih (hplant.2.2.linked.append hp' _) ?_)
    rwa [size_append]

/-- The root of a new tree is of the kind that it should be. -/
theorem Linked.kind_plant {α : Type} (hs : s.Linked) (t : Tree α) :
    ((s.plant t).2.get (s.plant t).1).kind = t.kind := by
  obtain ⟨l, kind, attrs, data, children⟩ := t
  have hcreate : (s.create { kind, attrs, data }).2.Linked := hs.create rfl rfl
  have hlt : (⟨s.size⟩ : NodeId).index < (s.create { kind, attrs, data }).2.size := by
    rw [size_create]
    exact Nat.lt_succ_self _
  have hplant : s.plant (.node l kind attrs data children) =
      (⟨s.size⟩, (s.create { kind, attrs, data }).2.plantBelow ⟨s.size⟩ children) := by
    rw [NodeStore.plant]
    rfl
  rw [hplant]
  refine ((hcreate.kinds_plantBelow hlt children).get ⟨s.size⟩ hlt List.not_mem_nil).trans ?_
  exact congrArg Node.kind (s.get_create_self { kind, attrs, data })

end NodeStore

end LiveMarkup
