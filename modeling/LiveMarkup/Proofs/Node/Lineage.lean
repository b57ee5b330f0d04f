import LiveMarkup.Proofs.Node.Forest
import LiveMarkup.Proofs.Node.Planting

/-!
# The tree below a node of a forest

The tree below a node is read down to as many generations as there are nodes. In a forest that is
all there are, because the nodes on the way down are different from one another. So the store shows
the tree as it was read (`NodeStore.Forest.shows_tree`). It is made of the nodes that the node is
above (`NodeStore.Forest.mem_labels_tree`), each of them once
(`NodeStore.Forest.nodup_labels_tree`), and none of them is a fragment but possibly the root
(`NodeStore.Forest.solidAll_children_tree`).
-/

namespace LiveMarkup

open Relation (ReflTransGen TransGen)

namespace Tree

variable {α : Type}

theorem labelsAll_eq (ts : List (Tree α)) : labelsAll ts = ts.flatMap labels := by
  induction ts with
  | nil => rfl
  | cons t ts ih => rw [labelsAll, ih, List.flatMap_cons]

end Tree

namespace NodeStore

variable {s : NodeStore} {n m : NodeId}

theorem shows_asNodesAll {β : Type} {f : Node → β} {p : Option NodeId} {ts : List (Tree NodeId)}
    (h : ∀ t ∈ ts, s.Shows f (t.asNodes p)) : s.Shows f (Tree.asNodesAll p ts) := by
  induction ts with
  | nil => exact shows_nil _ _
  | cons t ts ih =>
    obtain ⟨ht, hts⟩ := List.forall_mem_cons.mp h
    rw [Tree.asNodesAll, shows_append]
    exact ⟨ht, ih hts⟩

theorem labels_treeTo_zero (s : NodeStore) (n : NodeId) : (s.treeTo 0 n).labels = [n] := by
  rw [treeTo, Tree.labels, Tree.labelsAll]

theorem labels_treeTo_succ (s : NodeStore) (depth : Nat) (n : NodeId) :
    (s.treeTo (depth + 1) n).labels =
      n :: (s.get n).children.flatMap fun c ↦ (s.treeTo depth c).labels := by
  rw [treeTo, Tree.labels, Tree.labelsAll_eq, List.flatMap_map]

/-- The nodes of a tree are below its root. -/
theorem Linked.above_of_mem_labels (hs : s.Linked) (depth : Nat)
    (h : m ∈ (s.treeTo depth n).labels) : s.Above n m := by
  induction depth generalizing n with
  | zero =>
    rw [labels_treeTo_zero] at h
    exact List.mem_singleton.mp h ▸ .refl
  | succ depth ih =>
    rw [labels_treeTo_succ] at h
    rcases List.mem_cons.mp h with rfl | h
    · exact .refl
    · obtain ⟨c, hc, hm⟩ := List.mem_flatMap.mp h
      exact (ih hm).tail ((hs.mem_children n c).mp hc)

/-- Of two nodes above a third, one is above the other. -/
theorem Above.total {k : NodeId} (hn : s.Above n k) (hm : s.Above m k) :
    s.Above m n ∨ s.Above n m :=
  ReflTransGen.total_of_right_unique
    (fun _ _ _ hp hq ↦ Option.some.inj (hp.symm.trans hq)) hn hm

namespace Forest

/-- The trees below two children of a node have no node in common. -/
theorem not_above_of_siblings (hs : s.Forest) {p c d : NodeId} (hc : s.Under c p)
    (hd : s.Under d p) (hne : c ≠ d) : ¬ s.Above c d := by
  intro habove
  rcases ReflTransGen.cases_head habove with heq | ⟨q, hq, hpath⟩
  · exact hne heq.symm
  · -- The way up from `d` leads through `p`, and so does the way on from `c`.
    obtain rfl : p = q := Option.some.inj (hd.symm.trans hq)
    exact hs.acyclic c (.head' hc hpath)

/-- No node is read twice. -/
theorem nodup_labels_treeTo (hs : s.Forest) (depth : Nat) (n : NodeId) :
    (s.treeTo depth n).labels.Nodup := by
  induction depth generalizing n with
  | zero =>
    rw [labels_treeTo_zero]
    exact List.nodup_singleton n
  | succ depth ih =>
    have hbelow {c m : NodeId} (hm : m ∈ (s.treeTo depth c).labels) : s.Above c m :=
      hs.linked.above_of_mem_labels depth hm
    rw [labels_treeTo_succ, List.nodup_cons, List.nodup_flatMap]
    refine ⟨fun hmem ↦ ?_, fun c _ ↦ ih c, ?_⟩
    · obtain ⟨c, hc, hm⟩ := List.mem_flatMap.mp hmem
      exact hs.acyclic n (.tail' (hbelow hm) ((hs.linked.mem_children n c).mp hc))
    · refine List.Nodup.pairwise_of_forall_ne (hs.linked.nodup n) fun c hc d hd hne m hm hm' ↦ ?_
      have hc := (hs.linked.mem_children n c).mp hc
      have hd := (hs.linked.mem_children n d).mp hd
      rcases (hbelow hm).total (hbelow hm') with h | h
      · exact hs.not_above_of_siblings hd hc hne.symm h
      · exact hs.not_above_of_siblings hc hd hne h

/-- If the generations read and those above the root are as many as there are nodes, all are read.
The nodes in `up` are the ancestors that have been passed on the way down. -/
theorem shows_treeTo (hs : s.Forest) {depth : Nat} {up : List NodeId}
    (hup : ∀ a ∈ up, TransGen s.Under n a) (hnodup : up.Nodup) (hn : n.index < s.size)
    (hdepth : s.size ≤ up.length + depth) :
    s.Shows id ((s.treeTo depth n).asNodes (s.get n).parent) := by
  have hmem : n ∉ up := fun h ↦ hs.acyclic n (hup n h)
  induction depth generalizing n up with
  | zero =>
    -- There are more different nodes on the way down than in the store.
    have hlt : (n :: up).map NodeId.index ⊆ List.range s.size := by
      intro i hi
      obtain ⟨a, ha, rfl⟩ := List.mem_map.mp hi
      refine List.mem_range.mpr ?_
      rcases List.mem_cons.mp ha with rfl | ha
      · exact hn
      · obtain ⟨c, -, hc⟩ := TransGen.tail'_iff.mp (hup a ha)
        exact hs.linked.parent_lt hc
    have hindex : ((n :: up).map NodeId.index).Nodup :=
      List.Nodup.map (fun _ _ h ↦ congrArg NodeId.mk h) (List.nodup_cons.mpr ⟨hmem, hnodup⟩)
    have hlength := hindex.length_le_of_subset hlt
    rw [List.length_map, List.length_cons, List.length_range] at hlength
    omega
  | succ depth ih =>
    have hlabels : ((s.get n).children.map (s.treeTo depth)).map Tree.label =
        (s.get n).children := by
      rw [List.map_map]
      exact List.map_id'' (s.label_treeTo depth) _
    rw [treeTo, Tree.asNodes, hlabels, shows_cons]
    refine ⟨⟨hn, rfl⟩, shows_asNodesAll fun t ht ↦ ?_⟩
    obtain ⟨c, hc, rfl⟩ := List.mem_map.mp ht
    have hparent : s.Under c n := (hs.linked.mem_children n c).mp hc
    have hup' : ∀ a ∈ n :: up, TransGen s.Under c a := List.forall_mem_cons.mpr
      ⟨.single hparent, fun a ha ↦ .head hparent (hup a ha)⟩
    have hshows := ih hup' (List.nodup_cons.mpr ⟨hmem, hnodup⟩) (hs.linked.child_lt hc)
      (by rw [List.length_cons]; omega) fun h ↦ hs.acyclic c (hup' c h)
    rwa [hparent] at hshows

/-- A store that is a forest shows the tree below a node as it is read. -/
theorem shows_tree (hs : s.Forest) (hn : n.index < s.size) :
    s.Shows id ((s.tree n).asNodes (s.get n).parent) :=
  hs.shows_treeTo (fun _ h ↦ absurd h List.not_mem_nil) List.nodup_nil hn
    (Nat.le_of_eq (Nat.zero_add _).symm)

theorem nodup_labels_tree (hs : s.Forest) (n : NodeId) : (s.tree n).labels.Nodup :=
  hs.nodup_labels_treeTo s.size n

/-- The tree below a node is made of the nodes that the node is above. -/
theorem mem_labels_tree (hs : s.Forest) (hn : n.index < s.size) :
    m ∈ (s.tree n).labels ↔ s.Above n m := by
  refine ⟨hs.linked.above_of_mem_labels s.size, fun h ↦ ?_⟩
  induction h using ReflTransGen.head_induction_on with
  | refl =>
    have hroot := (s.tree n).label_mem_labels
    rwa [label_tree] at hroot
  | @head c p hc _ ih =>
    have hshows := hs.shows_tree hn
    rw [← Tree.asNodesAll_singleton] at hshows
    rw [← Tree.labelsAll_singleton] at ih ⊢
    exact hshows.mem_labelsAll_of_mem_children ih ((hs.linked.mem_children p c).mpr hc)

theorem solid_treeTo (hs : s.Forest) (depth : Nat) (hn : (s.get n).kind ≠ .fragment) :
    (s.treeTo depth n).Solid := by
  induction depth generalizing n with
  | zero =>
    rw [treeTo, Tree.Solid]
    exact ⟨hn, trivial⟩
  | succ depth ih =>
    rw [treeTo, Tree.Solid, Tree.solidAll_iff, List.forall_mem_map]
    exact ⟨hn, fun c hc ↦ ih (hs.solid ((hs.linked.mem_children n c).mp hc))⟩

/-- No node of the tree below a node is a fragment, but possibly the node. -/
theorem solidAll_children_tree (hs : s.Forest) (n : NodeId) :
    Tree.SolidAll (s.tree n).children := by
  rw [tree]
  cases s.size with
  | zero =>
    rw [treeTo, Tree.children]
    trivial
  | succ depth =>
    rw [treeTo, Tree.children, Tree.solidAll_iff, List.forall_mem_map]
    exact fun c hc ↦ hs.solid_treeTo depth (hs.solid ((hs.linked.mem_children n c).mp hc))

end Forest

end NodeStore

end LiveMarkup
