import LiveMarkup.Proofs.Live.Templates
import LiveMarkup.Proofs.Node.Lineage

/-!
# Copies of trees

A copy of the tree below a node looks like the tree, is made of new nodes only, and is attached to
nothing (`NodeStore.Copies`). From then on the two go their own ways: whatever is done to other
nodes leaves a tree as it is.

That is shown for any tree that a store contains (`NodeStore.Contains`): an operation none of whose
arguments is in the tree (`NodeStore.Edit.Elsewhere`) keeps every node of it, but for the parent of
the root (`NodeStore.Contains.run`). What moves is taken out first, and it meets the tree in the
root at most, because a node of the tree below the root is held by a node of the tree. Nothing is
said of cycles: an operation may put a node below itself, as long as it does so elsewhere.

Both are joined in `NodeStore.deepClone_copies`.
-/

namespace LiveMarkup

open Relation (ReflTransGen)

/-- The node, whatever its parent. -/
def Node.lone (node : Node) : Node := { node with parent := none }

namespace Tree

mutual

/-- A node of a tree is the root, or some other node of the tree lists it and is its parent. -/
theorem parent_of_mem_asNodes (p : Option NodeId) (t : Tree NodeId) {x : NodeId × Node}
    (h : x ∈ t.asNodes p) : (x.1 = t.label ∧ x.2.parent = p) ∨
      ∃ y ∈ t.asNodes p, x.1 ∈ y.2.children ∧ x.2.parent = some y.1 := by
  obtain ⟨n, kind, attrs, data, children⟩ := t
  rcases List.mem_cons.mp h with rfl | h
  · exact .inl ⟨rfl, rfl⟩
  · rcases parent_of_mem_asNodesAll (some n) children h with ⟨hmem, hparent⟩ | ⟨y, hy, hx⟩
    · exact .inr ⟨_, List.mem_cons_self, hmem, hparent⟩
    · exact .inr ⟨y, List.mem_cons_of_mem _ hy, hx⟩

theorem parent_of_mem_asNodesAll (p : Option NodeId) (ts : List (Tree NodeId))
    {x : NodeId × Node} (h : x ∈ asNodesAll p ts) : (x.1 ∈ ts.map label ∧ x.2.parent = p) ∨
      ∃ y ∈ asNodesAll p ts, x.1 ∈ y.2.children ∧ x.2.parent = some y.1 := by
  match ts with
  | [] => exact absurd h List.not_mem_nil
  | t :: ts =>
    rcases List.mem_append.mp h with h | h
    · rcases parent_of_mem_asNodes p t h with ⟨heq, hparent⟩ | ⟨y, hy, hx⟩
      · exact .inl ⟨heq ▸ List.mem_cons_self, hparent⟩
      · exact .inr ⟨y, List.mem_append_left _ hy, hx⟩
    · rcases parent_of_mem_asNodesAll p ts h with ⟨hmem, hparent⟩ | ⟨y, hy, hx⟩
      · exact .inl ⟨List.mem_cons_of_mem _ hmem, hparent⟩
      · exact .inr ⟨y, List.mem_append_right _ hy, hx⟩

end

theorem mem_labelsAll_of_mem_children {p : Option NodeId} {t : Tree NodeId} {x : NodeId × Node}
    (hx : x ∈ t.asNodes p) {c : NodeId} (hc : c ∈ x.2.children) : c ∈ labelsAll t.children := by
  obtain ⟨n, kind, attrs, data, children⟩ := t
  rcases List.mem_cons.mp hx with rfl | hx
  · exact (map_label_sublist_labelsAll children).subset hc
  · exact children_subset_of_mem_asNodesAll (some n) children hx hc

end Tree

namespace NodeStore

variable {s s' s'' s₁ : NodeStore} {t : Tree NodeId} {n m c r : NodeId} {p : Option NodeId}
  {X moved : List NodeId}

/-! ## Trees in a store -/

/-- Whether a store contains a tree: in the store children and parents agree, and the nodes of the
tree, all of them different, are there as the tree has them. The root may have any parent. -/
structure Contains (s : NodeStore) (t : Tree NodeId) : Prop where
  linked : s.Linked
  nodup : t.labels.Nodup
  lone : s.Shows Node.lone (t.asNodes none)

/-- Who does not look at parents does not see that of the root. -/
theorem Shows.of_lone (h : s.Shows Node.lone (t.asNodes p)) (q : Option NodeId) :
    s.Shows Node.lone (t.asNodes q) := by
  obtain ⟨n, kind, attrs, data, children⟩ := t
  rw [Tree.asNodes, shows_cons] at h ⊢
  exact h

theorem Forest.contains_tree (hs : s.Forest) (hn : n.index < s.size) : s.Contains (s.tree n) where
  linked := hs.linked
  nodup := hs.nodup_labels_tree n
  lone := ((hs.shows_tree hn).of_id Node.lone).of_lone none

namespace Contains

theorem lt (h : s.Contains t) (hm : m ∈ t.labels) : m.index < s.size :=
  h.lone.lt_of_mem_labels hm

theorem exists_mem (hm : m ∈ t.labels) : ∃ x ∈ t.asNodes none, x.1 = m := by
  rw [← Tree.map_fst_asNodes none] at hm
  exact List.mem_map.mp hm

theorem children_eq (h : s.Contains t) {x : NodeId × Node} (hx : x ∈ t.asNodes p) :
    (s.get x.1).children = x.2.children := by
  have hlone := congrArg Node.children (h.lone.of_lone p x hx).2
  exact hlone

/-- A node of the tree lists nodes of the tree. -/
theorem mem_of_child (h : s.Contains t) (hm : m ∈ t.labels) (hc : c ∈ (s.get m).children) :
    c ∈ t.labels := by
  obtain ⟨x, hx, rfl⟩ := exists_mem hm
  rw [h.children_eq hx] at hc
  exact Tree.children_subset_of_mem_asNodes none t hx hc

/-- No node of the tree lists the root. -/
theorem ne_of_child (h : s.Contains t) (hm : m ∈ t.labels) (hc : c ∈ (s.get m).children) :
    c ≠ t.label := by
  obtain ⟨x, hx, rfl⟩ := exists_mem hm
  rw [h.children_eq hx] at hc
  have hbelow := Tree.mem_labelsAll_of_mem_children hx hc
  have hnodup := h.nodup
  obtain ⟨k, kind, attrs, data, children⟩ := t
  rintro rfl
  exact (List.nodup_cons.mp hnodup).1 hbelow

/-- A node of the tree below the root has its parent in the tree. -/
theorem exists_under (h : s.Contains t) (hc : c ∈ t.labels) (hne : c ≠ t.label) :
    ∃ p ∈ t.labels, s.Under c p := by
  obtain ⟨x, hx, rfl⟩ := exists_mem hc
  rcases Tree.parent_of_mem_asNodes none t hx with ⟨heq, -⟩ | ⟨y, hy, hmem, -⟩
  · exact absurd heq hne
  · rw [← h.children_eq hy] at hmem
    exact ⟨y.1, Tree.mem_labels_of_mem_asNodes hy, (h.linked.mem_children y.1 x.1).mp hmem⟩

theorem mem_of_under (h : s.Contains t) (hc : c ∈ t.labels) (hne : c ≠ t.label)
    (hm : s.Under c m) : m ∈ t.labels := by
  obtain ⟨q, hq, hunder⟩ := h.exists_under hc hne
  obtain rfl : m = q := Option.some.inj (hm.symm.trans hunder)
  exact hq

/-- The tree is shown, with the parent that the root has. -/
theorem shows (h : s.Contains t) : s.Shows id (t.asNodes (s.get t.label).parent) := by
  intro x hx
  have hparent : (s.get x.1).parent = x.2.parent := by
    rcases Tree.parent_of_mem_asNodes _ t hx with ⟨heq, hparent⟩ | ⟨y, hy, hmem, hparent⟩
    · rw [heq, hparent]
    · rw [hparent, ← h.linked.mem_children, h.children_eq hy]
      exact hmem
  obtain ⟨hlt, hget⟩ := h.lone.of_lone _ x hx
  exact ⟨hlt, congrArg₂ (fun node q ↦ { node with parent := q }) hget hparent⟩

theorem tree_eq (h : s.Contains t) : s.tree t.label = t := tree_of_shows h.shows h.nodup

end Contains

/-! ## What keeps a tree -/

/-- Whether a tree is kept: all its nodes are as they were but for the parent of the root, and the
root has no parent if it had none. -/
structure Keeps (s : NodeStore) (t : Tree NodeId) (s' : NodeStore) : Prop where
  linked : s'.Linked
  size : s.size ≤ s'.size
  get : ∀ m ∈ t.labels, (s'.get m).lone = (s.get m).lone
  top : (s.get t.label).parent = none → (s'.get t.label).parent = none

theorem Keeps.refl (hs : s.Linked) (t : Tree NodeId) : s.Keeps t s :=
  ⟨hs, Nat.le_refl _, fun _ _ ↦ rfl, fun h ↦ h⟩

theorem Keeps.trans (h : s.Keeps t s') (h' : s'.Keeps t s'') : s.Keeps t s'' where
  linked := h'.linked
  size := Nat.le_trans h.size h'.size
  get m hm := (h'.get m hm).trans (h.get m hm)
  top htop := h'.top (h.top htop)

namespace Contains

theorem of_keeps (h : s.Contains t) (hk : s.Keeps t s') : s'.Contains t where
  linked := hk.linked
  nodup := h.nodup
  lone x hx := by
    obtain ⟨hlt, hget⟩ := h.lone x hx
    have hmem := Tree.mem_labels_of_mem_asNodes hx
    exact ⟨Nat.lt_of_lt_of_le hlt hk.size, (hk.get x.1 hmem).trans hget⟩

/-- One step after the other. -/
theorem trans (h : s.Contains t) (hk : s.Keeps t s') (hk' : s'.Contains t → s'.Keeps t s'') :
    s.Keeps t s'' := hk.trans (hk' (h.of_keeps hk))

theorem foldl {α : Type} {f : NodeStore → α → NodeStore} {as : List α} (h : s.Contains t)
    (hf : ∀ s' : NodeStore, s'.Contains t → s.size ≤ s'.size → ∀ a ∈ as, s'.Keeps t (f s' a)) :
    s.Keeps t (as.foldl f s) := by
  induction as generalizing s with
  | nil => exact .refl h.linked t
  | cons a as ih =>
    have hfirst := hf s h (Nat.le_refl _) a List.mem_cons_self
    refine h.trans hfirst fun h' ↦ ih h' ?_
    intro s' hs' hsize b hb
    exact hf s' hs' (Nat.le_trans hfirst.size hsize) b (List.mem_cons_of_mem a hb)

/-- Nodes outside of the tree are changed. -/
theorem of_agrees (h : s.Contains t) (hs' : s'.Linked) (hagrees : s.Agrees id X s')
    (hX : ∀ m ∈ X, m ∉ t.labels) : s.Keeps t s' := by
  have hget (m : NodeId) (hm : m ∈ t.labels) : s'.get m = s.get m :=
    hagrees.get m (h.lt hm) fun hmX ↦ hX m hmX hm
  refine ⟨hs', hagrees.size, fun m hm ↦ congrArg Node.lone (hget m hm), fun htop ↦ ?_⟩
  rw [hget t.label t.label_mem_labels, htop]

theorem of_extends (h : s.Contains t) (hextends : s.Extends s') : s.Keeps t s' :=
  h.of_agrees hextends.linked hextends.agrees fun _ hm ↦ absurd hm List.not_mem_nil

theorem modify (h : s.Contains t) (hn : n ∉ t.labels) {f : Node → Node}
    (hf : ∀ node, (f node).children = node.children ∧ (f node).parent = node.parent) :
    s.Keeps t (s.modify n f) := by
  refine h.of_agrees (h.linked.modify n hf) (agrees_modify s n f) fun m hm ↦ ?_
  rwa [List.mem_singleton.mp hm]

theorem create (h : s.Contains t) (node : Node) (hchildren : node.children = [])
    (hparent : node.parent = none) :
    s.Keeps t (s.create node).2 ∧ (s.create node).1 ∉ t.labels := by
  refine ⟨h.of_extends ((Extends.refl h.linked).create hchildren hparent), fun hmem ↦ ?_⟩
  exact Nat.lt_irrefl _ (h.lt hmem)

/-- Nodes are taken out, of which the root may be one. -/
theorem frees (h : s.Contains t) (hfrees : s.Frees moved s')
    (hmoved : ∀ c ∈ moved, c ∈ t.labels → c = t.label) : s.Keeps t s' where
  linked := hfrees.linked h.linked
  size := Nat.le_of_eq hfrees.size.symm
  get m hm := by
    have hchildren : (s.get m).children.filter (· ∉ moved) = (s.get m).children := by
      apply List.filter_eq_self.mpr
      intro c hc
      refine decide_eq_true fun hmem ↦ ?_
      -- The child is in the tree, so it could only be taken out as the root.
      exact h.ne_of_child hm hc (hmoved c hmem (h.mem_of_child hm hc))
    rw [hfrees.get, hchildren]
    rfl
  top htop := by
    rw [hfrees.get, Node.parent_placed, htop, ite_self]

/-- Nodes are taken out, of which the root may be one if it had a parent, and put in elsewhere. -/
theorem frees_houses {q : NodeId} {pre gone post : List NodeId} (h : s.Contains t)
    (hfrees : s.Frees moved s₁)
    (hmoved : ∀ c ∈ moved, c ∈ t.labels → c = t.label ∧ (s.get c).parent ≠ none)
    (hhouses : s₁.Houses q pre gone moved post s') (hq : q ∉ t.labels) : s.Keeps t s' := by
  have hkeeps := h.frees hfrees fun c hc hmem ↦ (hmoved c hc hmem).1
  refine ⟨hhouses.linked hkeeps.linked, hhouses.size ▸ hkeeps.size, fun m hm ↦ ?_, fun htop ↦ ?_⟩
  · have hne : m ≠ q := by
      rintro rfl
      exact hq hm
    rw [← hkeeps.get m hm, hhouses.get, if_neg hne]
    rfl
  · have hnot : t.label ∉ moved := fun hmem ↦ (hmoved _ hmem t.label_mem_labels).2 htop
    rw [hhouses.get, Node.parent_placed, if_neg hnot, hkeeps.top htop, ite_self]

/-- A child of a node outside of the tree is outside of the tree, or the root. -/
theorem eq_of_child (h : s.Contains t) (hn : n ∉ t.labels) (hc : c ∈ (s.get n).children)
    (hmem : c ∈ t.labels) : c = t.label ∧ (s.get c).parent ≠ none := by
  have hparent := (h.linked.mem_children n c).mp hc
  constructor
  · by_contra hne
    exact hn (h.mem_of_under hmem hne hparent)
  · rw [hparent]
    exact Option.some_ne_none n

/-- What is inserted for a node outside of the tree is outside of the tree, but may be the root if
that has a parent. -/
theorem eq_of_take (h : s.Contains t) (hr : r ∉ t.labels) (hc : c ∈ (s.take r).1)
    (hmem : c ∈ t.labels) : c = t.label ∧ (s.get c).parent ≠ none := by
  rcases mem_take hc with hc | ⟨rfl, -⟩
  · exact h.eq_of_child hr hc hmem
  · exact absurd hmem hr

theorem append (h : s.Contains t) (hlt : n.index < s.size) (hn : n ∉ t.labels)
    (hr : r ∉ t.labels) : s.Keeps t (s.append n r) :=
  h.frees_houses (h.linked.frees_take r) (fun _ hc ↦ h.eq_of_take hr hc)
    (h.linked.houses_append hlt r) hn

theorem detach (h : s.Contains t) (hn : n ∉ t.labels) : s.Keeps t (s.detach n) := by
  refine h.frees (h.linked.frees_detach n) fun c hc hmem ↦ ?_
  rw [List.mem_singleton.mp hc] at hmem
  exact absurd hmem hn

theorem replace (h : s.Contains t) (hn : n ∉ t.labels) (hr : r ∉ t.labels) :
    s.Keeps t (s.replace n r).2 := by
  cases hparent : (s.get n).parent with
  | none =>
    rw [replace_of_top hparent]
    exact .refl h.linked t
  | some p =>
    have hfrees := h.linked.frees_take r
    have hmoved : ∀ c ∈ (s.take r).1, c ∈ t.labels → c = t.label ∧ (s.get c).parent ≠ none :=
      fun c hc ↦ h.eq_of_take hr hc
    rcases h.linked.houses_replace hparent r with heq | ⟨pre, post, hhouses⟩
    · rw [heq]
      exact h.frees hfrees fun c hc hmem ↦ (hmoved c hc hmem).1
    · refine h.frees_houses hfrees hmoved hhouses fun hp ↦ hn ?_
      exact h.mem_of_child hp ((h.linked.mem_children p n).mpr hparent)

theorem setTextContent (h : s.Contains t) (hlt : n.index < s.size) (hn : n ∉ t.labels)
    (text : String) : s.Keeps t (s.setTextContent n text) := by
  unfold NodeStore.setTextContent
  split
  · have hfrees := h.linked.frees_foldl_detach (s.get n).children
    refine h.trans (h.frees hfrees fun c hc hmem ↦ (h.eq_of_child hn hc hmem).1) fun h₁ ↦ ?_
    obtain ⟨hcreate, hnew⟩ := h₁.create { kind := .text, data := text } rfl rfl
    refine h₁.trans hcreate fun h₂ ↦ h₂.append ?_ hn hnew
    rw [size_create, size_foldl_detach]
    exact Nat.lt_succ_of_lt hlt
  · exact h.modify hn fun _ ↦ ⟨rfl, rfl⟩

theorem build (h : s.Contains t) (kind : NodeKind) (data : String) (attrs : Attributes)
    {children : List NodeId} (hchildren : ∀ c ∈ children, c ∉ t.labels) :
    s.Keeps t (s.build kind data attrs children).2 := by
  obtain ⟨hcreate, hnew⟩ := h.create { kind, data } rfl rfl
  have hlt : (s.create { kind, data }).1.index < (s.create { kind, data }).2.size := by
    rw [size_create]
    exact Nat.lt_succ_self _
  rw [NodeStore.build]
  dsimp only
  generalize s.create { kind, data } = x at hcreate hnew hlt ⊢
  obtain ⟨n, s₁⟩ := x
  -- Attributes are set on the new node only, and only the new node gets children.
  refine h.trans hcreate fun h₁ ↦ ?_
  have hattrs : s₁.Keeps t (attrs.foldl (fun s a ↦ s.setAttribute n a.1 a.2) s₁) :=
    h₁.foldl fun s' h' _ a _ ↦ h'.modify hnew fun _ ↦ ⟨rfl, rfl⟩
  refine h₁.trans hattrs fun h₂ ↦ h₂.foldl fun s' h' hsize c hc ↦ ?_
  exact h'.append (Nat.lt_of_lt_of_le hlt (Nat.le_trans hattrs.size hsize)) hnew (hchildren c hc)

theorem reserve (h : s.Contains t) (k : Nat) : s.Keeps t (s.reserve k) := by
  induction k generalizing s with
  | zero => exact .refl h.linked t
  | succ k ih => exact h.trans (h.create _ rfl rfl).1 ih

theorem plant {α : Type} (h : s.Contains t) (u : Tree α) :
    s.Keeps t (s.plant u).2 ∧ (s.plant u).1 ∉ t.labels := by
  obtain ⟨hfst, -, hextends⟩ := (Extends.refl h.linked).plant u
  refine ⟨h.of_extends hextends, fun hmem ↦ ?_⟩
  rw [hfst] at hmem
  exact Nat.lt_irrefl _ (h.lt hmem)

theorem plantAll {α : Type} (h : s.Contains t) (us : List (Tree α)) :
    s.Keeps t (s.plantAll us).2 ∧ ∀ n ∈ (s.plantAll us).1, n ∉ t.labels := by
  induction us generalizing s with
  | nil => exact ⟨.refl h.linked t, fun n hn ↦ absurd hn List.not_mem_nil⟩
  | cons u us ih =>
    obtain ⟨hplant, hroot⟩ := h.plant u
    obtain ⟨hrest, hroots⟩ := ih (h.of_keeps hplant)
    rw [NodeStore.plantAll]
    exact ⟨hplant.trans hrest, List.forall_mem_cons.mpr ⟨hroot, hroots⟩⟩

theorem parse (h : s.Contains t) (source : String) : s.Keeps t (s.parse source).2 := by
  unfold NodeStore.parse
  dsimp only
  split
  · exact h.reserve _
  · obtain ⟨hplant, hroots⟩ := h.plantAll (Reading.ofSource source).forest
    refine h.trans hplant fun h₁ ↦ h₁.build _ _ _ fun c hc ↦ ?_
    obtain ⟨⟨u, n⟩, hmem, hkept⟩ := List.mem_filterMap.mp hc
    dsimp only at hkept
    split at hkept
    · contradiction
    · obtain rfl := Option.some.inj hkept
      exact hroots n (List.of_mem_zip hmem).2

end Contains

/-! ## Nodes that nobody holds -/

theorem parent_of_mem_tops (hn : n ∈ s.tops) : (s.get n).parent = none := by
  have hfold (k : Nat) (ns : List NodeId) (hns : ∀ n ∈ ns, (s.get n).parent = none) :
      ∀ n ∈ k.foldRev (fun i _ tops ↦
        if (s.get ⟨i⟩).parent.isNone && !(s.get ⟨i⟩).children.isEmpty then ⟨i⟩ :: tops
        else tops) ns, (s.get n).parent = none := by
    induction k generalizing ns with
    | zero => exact hns
    | succ k ih =>
      rw [Nat.foldRev_succ]
      apply ih
      split
      · rename_i h
        rw [Bool.and_eq_true, Option.isNone_iff_eq_none] at h
        exact List.forall_mem_cons.mpr ⟨h.1, hns⟩
      · exact hns
  exact hfold s.size [] (fun _ h ↦ absurd h List.not_mem_nil) n hn

/-- Whether a node is held, or one of its ancestors. -/
def Secured (s : NodeStore) (held : Marks) (n : NodeId) : Prop :=
  ∃ m, held.has m.index = true ∧ s.Above m n

/-- Whether a tree is kept, its root stays secured, and no node gets a parent that had none. -/
structure Retains (s : NodeStore) (held : Marks) (t : Tree NodeId) (s' : NodeStore) : Prop where
  keeps : s.Keeps t s'
  secured : s'.Secured held t.label
  tops : ∀ n, (s.get n).parent = none → (s'.get n).parent = none

/-- A way up ends in a node without a parent, and does not lead through it. -/
theorem Linked.above_disband (hs : s.Linked) (hpath : s.Above m c) (hn : (s.get n).parent = none)
    (hne : m ≠ n) : (s.disband n).Above m c := by
  have hfrees := hs.frees_disband n
  induction hpath using ReflTransGen.head_induction_on with
  | refl => exact .refl
  | @head a b hab hbm ih =>
    refine .head (hfrees.under_of_not_mem hab fun hmem ↦ ?_) ih
    obtain rfl : b = n := Option.some.inj (hab.symm.trans ((hs.mem_children n a).mp hmem))
    exact hne (Above.eq_of_top hbm hn)

namespace Contains

variable {held : Marks}

/-- The children of a node that is not held, and has no parent, are taken out of it. -/
theorem disband (h : s.Contains t) (hsecured : s.Secured held t.label)
    (hn : (s.get n).parent = none) (hheld : ¬ held.has n.index = true) :
    s.Retains held t (s.disband n) := by
  obtain ⟨m, hm, hpath⟩ := hsecured
  have hfrees := h.linked.frees_disband n
  have hnot : n ∉ t.labels := by
    intro hmem
    by_cases hroot : n = t.label
    · -- A held node above the root would be the root.
      rw [← hroot] at hpath
      rw [hpath.eq_of_top hn] at hm
      exact hheld hm
    · obtain ⟨p, -, hp⟩ := h.exists_under hmem hroot
      rw [Under, hn] at hp
      contradiction
  refine ⟨h.frees hfrees fun c hc hmem ↦ (h.eq_of_child hnot hc hmem).1, ⟨m, hm, ?_⟩, ?_⟩
  · apply h.linked.above_disband hpath hn
    rintro rfl
    exact hheld hm
  · intro c hc
    rw [hfrees.get, Node.parent_placed, hc, ite_self]

/-- Nodes without a parent are let go of, one after the other. -/
theorem foldl_retains {f : NodeStore → NodeId → NodeStore} {ns : List NodeId} (h : s.Contains t)
    (hsecured : s.Secured held t.label)
    (hf : ∀ s' : NodeStore, s'.Contains t → s'.Secured held t.label →
      ∀ n, (s'.get n).parent = none → s'.Retains held t (f s' n))
    (hns : ∀ n ∈ ns, (s.get n).parent = none) : s.Retains held t (ns.foldl f s) := by
  induction ns generalizing s with
  | nil => exact ⟨.refl h.linked t, hsecured, fun _ hn ↦ hn⟩
  | cons n ns ih =>
    have hfirst := hf s h hsecured n (hns n List.mem_cons_self)
    have hrest := ih (h.of_keeps hfirst.keeps) hfirst.secured fun m hm ↦
      hfirst.tops m (hns m (List.mem_cons_of_mem n hm))
    exact ⟨hfirst.keeps.trans hrest.keeps, hrest.secured,
      fun m hm ↦ hrest.tops m (hfirst.tops m hm)⟩

theorem letGo (h : s.Contains t) (hsecured : s.Secured held t.label) (depth : Nat)
    (hn : (s.get n).parent = none) : s.Retains held t (NodeStore.letGo held depth s n) := by
  induction depth generalizing s n with
  | zero => exact ⟨.refl h.linked t, hsecured, fun _ hn ↦ hn⟩
  | succ depth ih =>
    unfold NodeStore.letGo
    split
    · exact ⟨.refl h.linked t, hsecured, fun _ hn ↦ hn⟩
    · rename_i hheld
      have hfirst := h.disband hsecured hn hheld
      have hrest : (s.disband n).Retains held t
          ((s.get n).children.foldl (NodeStore.letGo held depth) (s.disband n)) := by
        apply (h.of_keeps hfirst.keeps).foldl_retains hfirst.secured
        · exact fun s' h' hsecured' m hm ↦ ih h' hsecured' hm
        · intro c hc
          rw [(h.linked.frees_disband n).get, Node.parent_placed, if_pos hc]
      exact ⟨hfirst.keeps.trans hrest.keeps, hrest.secured,
        fun m hm ↦ hrest.tops m (hfirst.tops m hm)⟩

/-- The nodes that nobody holds go. -/
theorem keepOnly {held : List NodeId} (h : s.Contains t) (hlt : ∀ m ∈ held, m.index < s.size)
    (hheld : ∃ m ∈ held, s.Above m t.label) : s.Keeps t (s.keepOnly held) := by
  obtain ⟨m, hm, hpath⟩ := hheld
  have hsecured : s.Secured (s.marks held) t.label := by
    refine ⟨m, ?_, hpath⟩
    rw [marks, Marks.has_ofList, Bool.and_eq_true, List.contains_iff_mem, decide_eq_true_iff]
    exact ⟨List.mem_map_of_mem hm, hlt m hm⟩
  exact (h.foldl_retains hsecured (fun s' h' hsecured' n hn ↦ h'.letGo hsecured' s.size hn)
    fun n hn ↦ parent_of_mem_tops hn).keeps

end Contains

/-! ## Operations elsewhere -/

namespace Edit

/-- Whether an operation is given nodes of the store, none of them in a tree, and appends no node to
itself. When the nodes that nobody holds go, the root of the tree is held, or an ancestor of it. -/
structure Elsewhere (s : NodeStore) (t : Tree NodeId) (e : Edit) : Prop where
  lt : ∀ n ∈ e.arguments, n.index < s.size
  ne : ∀ {p n}, e = .append p n → p ≠ n
  apart : (∀ held, e ≠ .keepOnly held) → ∀ n ∈ e.arguments, n ∉ t.labels
  held : ∀ {held}, e = .keepOnly held → ∃ m ∈ held, s.Above m t.label

end Edit

/-- An operation elsewhere keeps a tree. -/
theorem Contains.run (h : s.Contains t) {e : Edit} (he : e.Elsewhere s t) :
    s.Keeps t (e.run s).2 := by
  have hlt := he.lt
  have hapart := he.apart
  cases e with
  | build kind data attrs children => exact h.build kind data attrs (hapart nofun)
  | parse source => exact h.parse source
  | deepClone n => exact (h.plant (s.tree n)).1
  | append p n =>
    obtain ⟨hp, hn⟩ := List.forall_mem_cons.mp (hapart nofun)
    exact h.append (hlt p List.mem_cons_self) hp (hn n List.mem_cons_self)
  | replace n r =>
    obtain ⟨hn, hr⟩ := List.forall_mem_cons.mp (hapart nofun)
    exact h.replace hn (hr r List.mem_cons_self)
  | detach n => exact h.detach (hapart nofun n List.mem_cons_self)
  | setTextContent n text =>
    exact h.setTextContent (hlt n List.mem_cons_self) (hapart nofun n List.mem_cons_self) text
  | setAttribute n name value =>
    exact h.modify (hapart nofun n List.mem_cons_self) fun _ ↦ ⟨rfl, rfl⟩
  | removeAttribute n name =>
    exact h.modify (hapart nofun n List.mem_cons_self) fun _ ↦ ⟨rfl, rfl⟩
  | setData n data => exact h.modify (hapart nofun n List.mem_cons_self) fun _ ↦ ⟨rfl, rfl⟩
  | keepOnly held => exact h.keepOnly hlt (he.held rfl)

/-- Whether a store comes out of another by one operation elsewhere. -/
def StepsElsewhere (t : Tree NodeId) (s s' : NodeStore) : Prop :=
  ∃ e : Edit, e.Elsewhere s t ∧ s' = (e.run s).2

/-- Whatever is done elsewhere keeps a tree. -/
theorem Contains.runs (h : s.Contains t) (hruns : ReflTransGen (StepsElsewhere t) s s') :
    s.Keeps t s' := by
  induction hruns with
  | refl => exact .refl h.linked t
  | tail _ hstep ih =>
    obtain ⟨e, he, rfl⟩ := hstep
    exact h.trans ih fun h' ↦ h'.run he

/-! ## Copies -/

/-- Whether a node is the root of a copy of the tree below `n`. -/
structure Copies (s : NodeStore) (n copy : NodeId) (s' : NodeStore) : Prop where
  /-- The copy has the same kinds, attributes, data and children, at every depth. -/
  plain : (s'.tree copy).plain = (s.tree n).plain
  markup : (s'.tree copy).markup = (s.tree n).markup
  textContent : (s'.tree copy).textContent = (s.tree n).textContent
  /-- The identities are those that come next, a node before its children. -/
  labels : (s'.tree copy).labels = (List.range' s.size (s.tree n).size).map NodeId.mk
  /-- The nodes are linked as in the tree, and the root has no parent. -/
  shows : s'.Shows id ((s'.tree copy).asNodes none)
  /-- All nodes that there were are as they were. -/
  agrees : s.Agrees id [] s'

theorem Plants.copies {s s' : NodeStore} {n copy : NodeId} (h : s.Plants (s.tree n) s')
    (hcopy : copy = ⟨s.size⟩) : s.Copies n copy s' := by
  have htree := h.tree_eq hcopy (.refl _ _ _)
  have hplain : (s'.tree copy).plain = (s.tree n).plain :=
    htree ▸ Tree.plain_number s.size (s.tree n)
  refine ⟨hplain, Tree.markup_of_plain hplain, Tree.textContent_of_plain hplain, ?_,
    htree ▸ h.shows, h.agrees⟩
  rw [htree, Tree.labels_number]

/-- **Copies.** The copy of a tree looks like the tree at every depth, its nodes are new, with their
identities in order, it is attached to nothing, and no other node is changed. Whatever is done
afterwards, the tree is kept as long as nothing is done to its nodes, and so is the copy. -/
theorem deepClone_copies {made : List NodeId} (h : Reaches made s) (hn : n.index < s.size) :
    s.Shows id ((s.tree n).asNodes (s.get n).parent) ∧
      s.Copies n (s.deepClone n).1 (s.deepClone n).2 ∧
      (∀ s', ReflTransGen (StepsElsewhere (s.tree n)) (s.deepClone n).2 s' →
        s'.tree n = s.tree n ∧ s'.Shows id ((s.tree n).asNodes (s'.get n).parent)) ∧
      ∀ s', ReflTransGen (StepsElsewhere ((s.deepClone n).2.tree (s.deepClone n).1))
          (s.deepClone n).2 s' →
        s'.tree (s.deepClone n).1 = (s.deepClone n).2.tree (s.deepClone n).1 ∧
          s'.Shows id (((s.deepClone n).2.tree (s.deepClone n).1).asNodes none) := by
  have hs := h.forest.1
  have hold := hs.contains_tree hn
  obtain ⟨hcopy, hplants⟩ := plants_plant s (s.tree n) (hs.solidAll_children_tree n)
  have hcopies := hplants.copies hcopy
  have hkeeps := (hold.plant (s.tree n)).1
  rw [deepClone]
  generalize s.plant (s.tree n) = x at hcopy hplants hcopies hkeeps ⊢
  obtain ⟨copy, s₁⟩ := x
  have hnew : s₁.Contains (s₁.tree copy) := by
    refine ⟨hkeeps.linked, ?_, (hcopies.shows.of_id Node.lone)⟩
    rw [hplants.tree_eq hcopy (.refl _ _ _)]
    exact Tree.nodup_labels_number _ _
  refine ⟨hs.shows_tree hn, hcopies, fun s' hruns ↦ ?_, fun s' hruns ↦ ?_⟩
  · have hkept := (hold.of_keeps hkeeps).of_keeps ((hold.of_keeps hkeeps).runs hruns)
    have htree := hkept.tree_eq
    have hshows := hkept.shows
    rw [label_tree] at htree hshows
    exact ⟨htree, hshows⟩
  · have hkeeps' := hnew.runs hruns
    have hkept := hnew.of_keeps hkeeps'
    have htree := hkept.tree_eq
    have hshows := hkept.shows
    rw [hkeeps'.top (congrArg Node.parent hcopies.shows.root.2)] at hshows
    rw [label_tree] at htree
    exact ⟨htree, hshows⟩

/-- A list with one item, and what replaces the text of the item in the list or in a copy of it. -/
theorem list_copied : ∃ s, Reaches [⟨0⟩, ⟨1⟩] s ∧ s.Copies ⟨1⟩ ⟨2⟩ (s.deepClone ⟨1⟩).2 ∧
    ((s.deepClone ⟨1⟩).2.setTextContent ⟨2⟩ "new").tree ⟨1⟩ = s.tree ⟨1⟩ ∧
    ((s.deepClone ⟨1⟩).2.setTextContent ⟨1⟩ "new").tree ⟨2⟩ = (s.deepClone ⟨1⟩).2.tree ⟨2⟩ := by
  have hbuilt := (Reaches.empty.run (e := .build .text "item" [] [])
    ⟨by decide, Edit.noConfusion, trivial⟩).run
    (e := .build (.element "ul") "" [("class", "list")] [⟨0⟩])
    ⟨by decide, Edit.noConfusion, trivial⟩
  obtain ⟨-, hcopies, hold, hnew⟩ := deepClone_copies (n := ⟨1⟩) hbuilt (by decide)
  refine ⟨_, hbuilt, hcopies, (hold _ (.single ⟨.setTextContent ⟨2⟩ "new", ?_, rfl⟩)).1,
    (hnew _ (.single ⟨.setTextContent ⟨1⟩ "new", ?_, rfl⟩)).1⟩
  · exact ⟨by decide, nofun, fun _ ↦ by decide, nofun⟩
  · exact ⟨by decide, nofun, fun _ ↦ by decide, nofun⟩

end NodeStore

end LiveMarkup
